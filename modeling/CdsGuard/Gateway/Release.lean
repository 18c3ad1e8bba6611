import CdsGuard.Gateway.Conservation

/-
  What the processing loop hands to `callback_func`. A string's future is only tested for being
  ready, so a string whose matching threw is released as it came; a document whose filtering
  returned 0 is logged and released; an exception in a document's future leaves the loop, and
  nothing is released.

  `Job.released` says which bytes a payload is released with, and `run_released` that every run
  releases exactly these. `Job.censored` says which bytes it should be released with. Proved:
  `released_censored_iff`, when the two agree over all runs.
-/

namespace CdsGuard.Gateway

open CdsGuard.Lib

/-! ## Expected and released bytes -/

/-- The censored bytes of a payload, when its filtering succeeds: the string with its matches
    censored, or the document's new archive. -/
def Job.censored (j : Job) : Option Bytes :=
  if j.payload.isDocument then documentCensored j.work.doc j.payload.data
  else j.work.string.map (censor j.payload.data)

/-- The bytes that the loop releases a payload with, if it gets that far. -/
def Job.released (j : Job) : Option Bytes :=
  if j.payload.isDocument then
    match censorDocumentFile j.work.doc j.payload.data with
    | .ok (size, buffer) => some (if 0 < size then resize buffer size else buffer)
    | .error (.zero buffer) => some buffer
    | .error .threw => none
  else some (censorTask j.work.string j.payload.data)

/-- No string matching throws, for the payload itself or for a span of a document that gets a
    size, and the filtering of a document does not return 0. -/
def Harmless (p : ReceivedPayload) (w : Work) : Prop :=
  if p.isDocument then
    match censorDocumentFile w.doc p.data, w.doc.extracted with
    | .ok (size, _), some raw =>
      0 < size ∧ ∀ k < (textSpans raw.docType raw.xmlText).length, w.doc.matching k ≠ none
    | .ok _, none => False
    | .error (.zero _), _ => False
    | .error .threw, _ => True
  else w.string ≠ none

theorem resize_of_le (data : Bytes) (n : Nat) (h : n ≤ data.length) :
    resize data n = data.take n := by
  rw [resize, Nat.sub_eq_zero_of_le h, List.replicate_zero, List.append_nil]

/-- A document with a positive size is released as its new archive. -/
theorem resize_archive {env : DocEnv} {data buf : Bytes} {size : Nat}
    (h : censorDocumentFile env data = .ok (size, buf)) : resize buf size = buf.take size := by
  obtain ⟨raw, -, hsize, htake⟩ := censorDocumentFile_ok h
  have hlen := congrArg List.length htake
  rw [List.length_take, ← hsize] at hlen
  exact resize_of_le buf size (by omega)

/-- A payload is harmless exactly when it can only be released censored. -/
theorem harmless_iff (j : Job) :
    Harmless j.payload j.work ↔ ∀ d, j.released = some d → j.censored = some d := by
  unfold Harmless Job.released Job.censored
  by_cases hdoc : j.payload.isDocument = true
  · rw [if_pos hdoc, if_pos hdoc, if_pos hdoc]
    unfold documentCensored
    cases hres : censorDocumentFile j.work.doc j.payload.data with
    | error stop => cases stop <;> simp
    | ok r =>
      obtain ⟨size, buf⟩ := r
      obtain ⟨raw, hraw, hsize, htake⟩ := censorDocumentFile_ok hres
      have hresize := resize_archive hres
      simp only [hraw, Option.some.injEq, forall_eq']
      by_cases hok : 0 < size ∧
          ∀ k < (textSpans raw.docType raw.xmlText).length, j.work.doc.matching k ≠ none
      · simp only [if_pos hok, if_pos hok.1, hresize, htake, iff_true]
        exact hok
      · simp [hok]
  · rw [if_neg hdoc, if_neg hdoc, if_neg hdoc]
    cases hs : j.work.string with
    | none => simp
    | some infos => simp [censorTask_some]

/-! ## The loop pairs futures with payloads -/

/-- A future belongs to a task: it is of the kind that the payload is routed to, and says what
    has become of the payload's data. -/
def Paired (t : Task) : CensorFuture → Prop
  | .bool _ .pending => t.job.payload.isDocument = false ∧ t.payload.data = t.job.payload.data
  | .bool _ _ => t.job.payload.isDocument = false ∧
      t.payload.data = t.job.filteredData t.job.payload.data
  | .size _ .pending => t.job.payload.isDocument = true ∧ t.payload.data = t.job.payload.data
  | .size _ st => t.job.payload.isDocument = true ∧
      st = t.job.documentResult t.job.payload.data ∧
      t.payload.data = t.job.filteredData t.job.payload.data

/-- The two lists agree position by position, but for the payload just taken; and every payload
    was released with its bytes. -/
structure LoopOk (s : State) : Prop where
  paired : ∃ ts, List.Forall₂ Paired ts s.futures ∧
    match s.pc with
    | .filtering _ => ∃ t, s.tasks = ts ++ [t] ∧ t.payload = t.job.payload
    | _ => s.tasks = ts
  passed : ∀ jp ∈ s.passed, jp.1.released = some jp.2.data

theorem markTxt_data (p : ReceivedPayload) : (markTxt p).data = p.data := by
  unfold markTxt
  split <;> rfl

theorem paired_mark (t : Task) (h : t.payload = t.job.payload) :
    Paired t.mark (newFuture t.payload t.job.id) := by
  unfold newFuture
  split
  · rename_i hdoc
    rw [h] at hdoc
    exact ⟨hdoc, by rw [Task.mark, markTxt_data, h]⟩
  · rename_i hdoc
    rw [h, Bool.not_eq_true] at hdoc
    exact ⟨hdoc, by rw [Task.mark, markTxt_data, h]⟩

theorem paired_finish (t : Task) (f : CensorFuture) (hp : Paired t f)
    (hpending : f.isPending = true) : Paired t.finish (f.finish t) := by
  cases f with
  | bool owner st =>
    cases st with
    | pending =>
      obtain ⟨hdoc, hdata⟩ := hp
      have hfin : t.finish.payload.data = t.job.filteredData t.job.payload.data := by
        simp [Task.finish, hdata]
      unfold CensorFuture.finish
      cases hres : t.job.stringResult with
      | pending =>
        unfold Job.stringResult at hres
        split at hres <;> cases hres
      | value b => exact ⟨hdoc, hfin⟩
      | exception => exact ⟨hdoc, hfin⟩
    | value b => cases hpending
    | exception => cases hpending
  | size owner st =>
    cases st with
    | pending =>
      obtain ⟨hdoc, hdata⟩ := hp
      have hfin : t.finish.payload.data = t.job.filteredData t.job.payload.data := by
        simp [Task.finish, hdata]
      unfold CensorFuture.finish
      rw [hdata]
      cases hres : t.job.documentResult t.job.payload.data with
      | pending =>
        unfold Job.documentResult at hres
        split at hres <;> cases hres
      | value n => exact ⟨hdoc, hres.symm, hfin⟩
      | exception => exact ⟨hdoc, hres.symm, hfin⟩
    | value b => cases hpending
    | exception => cases hpending

theorem pendingAt_some {futures : List CensorFuture} {id i : Nat}
    (h : pendingAt futures id = some i) :
    ∃ f, futures[i]? = some f ∧ f.isPending = true := by
  unfold pendingAt at h
  rw [List.findIdx?_eq_some_iff_getElem] at h
  obtain ⟨hi, hf, -⟩ := h
  refine ⟨futures[i], List.getElem?_eq_getElem hi, ?_⟩
  simp only [Bool.and_eq_true] at hf
  exact hf.2

/-- Forall₂ after the same position of both lists has been replaced. -/
theorem forall₂_set_modify {ts : List Task} {fs : List CensorFuture}
    (h : List.Forall₂ Paired ts fs) {i : Nat} {t : Task} {f : CensorFuture}
    (ht : ts[i]? = some t) (hf : fs[i]? = some f) (t' : Task) (g : CensorFuture → CensorFuture)
    (hnew : Paired t' (g f)) : List.Forall₂ Paired (ts.set i t') (fs.modify i g) := by
  induction h generalizing i with
  | nil => simp at ht
  | cons hd tl ih =>
    cases i with
    | zero =>
      simp only [List.getElem?_cons_zero, Option.some.injEq] at ht hf
      subst ht hf
      exact .cons hnew tl
    | succ i =>
      simp only [List.getElem?_cons_succ] at ht hf
      exact .cons hd (ih ht hf)

theorem forall₂_eraseIdx {ts : List Task} {fs : List CensorFuture}
    (h : List.Forall₂ Paired ts fs) (i : Nat) :
    List.Forall₂ Paired (ts.eraseIdx i) (fs.eraseIdx i) := by
  induction h generalizing i with
  | nil => exact .nil
  | cons hd tl ih =>
    cases i with
    | zero => exact tl
    | succ i => exact .cons hd (ih i)

theorem forall₂_getElem? {ts : List Task} {fs : List CensorFuture}
    (h : List.Forall₂ Paired ts fs) {i : Nat} {t : Task} {f : CensorFuture}
    (ht : ts[i]? = some t) (hf : fs[i]? = some f) : Paired t f := by
  induction h generalizing i with
  | nil => simp at ht
  | cons hd tl ih =>
    cases i with
    | zero =>
      simp only [List.getElem?_cons_zero, Option.some.injEq] at ht hf
      exact ht ▸ hf ▸ hd
    | succ i => exact ih (by simpa using ht) (by simpa using hf)

/-- The call of `callback_func` for a ready future releases the payload with its bytes. -/
theorem visit_passed (s : State) (i : Nat) (t : Task) (f : CensorFuture) (hp : Paired t f)
    (hs : ∀ jp ∈ s.passed, jp.1.released = some jp.2.data) :
    ∀ jp ∈ (s.visit i t f).passed, jp.1.released = some jp.2.data := by
  have hcall : ∀ p : ReceivedPayload, t.job.released = some p.data →
      ∀ jp ∈ (s.callback i t.job p).passed, jp.1.released = some jp.2.data := by
    intro p hrel jp hjp
    rcases List.mem_append.mp hjp with hold | hnew
    · exact hs jp hold
    · rw [List.mem_singleton.mp hnew]
      exact hrel
  have hstring : t.job.payload.isDocument = false →
      t.payload.data = t.job.filteredData t.job.payload.data →
      t.job.released = some t.payload.data := by
    intro hdoc hdata
    rw [hdata, Job.released, Job.filteredData]
    simp [hdoc]
  unfold State.visit
  split
  · exact hs
  · rename_i owner st hst
    refine hcall _ ?_
    cases st with
    | pending => exact (hst rfl).elim
    | value b => exact hstring hp.1 hp.2
    | exception => exact hstring hp.1 hp.2
  · exact hs
  · rename_i owner n
    obtain ⟨hdoc, hres, hdata⟩ := hp
    unfold Job.documentResult at hres
    rw [Job.filteredData, if_pos hdoc] at hdata
    cases hc : censorDocumentFile t.job.work.doc t.job.payload.data with
    | ok r =>
      obtain ⟨size, buf⟩ := r
      simp only [hc, FutState.value.injEq] at hres hdata
      subst hres
      split
      · rename_i hpos
        refine hcall _ ?_
        rw [Job.released, if_pos hdoc, hc]
        simp [hpos, hdata]
      · rename_i hpos
        refine hcall _ ?_
        rw [Job.released, if_pos hdoc, hc]
        simp [hpos, hdata]
    | error stop =>
      cases stop with
      | zero buf =>
        simp only [hc, FutState.value.injEq] at hres hdata
        subst hres
        rw [if_neg (Nat.lt_irrefl 0)]
        refine hcall _ ?_
        rw [Job.released, if_pos hdoc, hc]
        simp [hdata]
      | threw => simp [hc] at hres
  · exact hs

theorem visit_paired (s : State) (i : Nat) (t : Task) (f : CensorFuture)
    (hp : List.Forall₂ Paired s.tasks s.futures) (hpc : s.pc = .polling i) :
    ∃ ts, List.Forall₂ Paired ts (s.visit i t f).futures ∧
      match (s.visit i t f).pc with
      | .filtering _ => ∃ u, (s.visit i t f).tasks = ts ++ [u] ∧ u.payload = u.job.payload
      | _ => (s.visit i t f).tasks = ts := by
  have hcall : ∀ p : ReceivedPayload, ∃ ts, List.Forall₂ Paired ts (s.callback i t.job p).futures ∧
      match (s.callback i t.job p).pc with
      | .filtering _ => ∃ u, (s.callback i t.job p).tasks = ts ++ [u] ∧ u.payload = u.job.payload
      | _ => (s.callback i t.job p).tasks = ts := by
    intro p
    refine ⟨s.tasks.eraseIdx i, forall₂_eraseIdx hp i, ?_⟩
    simp only [State.callback, hpc]
  unfold State.visit
  split
  · exact ⟨s.tasks, hp, rfl⟩
  · exact hcall _
  · exact ⟨s.tasks, hp, rfl⟩
  · split <;> exact hcall _
  · exact ⟨s.tasks, hp, rfl⟩

theorem take_loopOk {s : State} (hs : LoopOk s) (job : Job) (rest : List Job)
    (hpc : ∀ b, s.pc ≠ .filtering b) : LoopOk (s.take job rest) := by
  obtain ⟨ts, hp, htasks⟩ := hs.paired
  refine ⟨⟨ts, hp, ⟨job, job.payload⟩, ?_, rfl⟩, hs.passed⟩
  have : s.tasks = ts := by
    cases h : s.pc with
    | filtering b => exact absurd h (hpc b)
    | _ => simpa [h] using htasks
  rw [State.take, this]

/-- Every step keeps the lists paired and releases payloads with their bytes. -/
theorem step_loopOk {s s' : State} {e : Event} (hs : LoopOk s) (h : step s e = some s') :
    LoopOk s' := by
  obtain ⟨ts, hp, htasks⟩ := hs.paired
  cases step_cases h with
  | accept =>
    unfold State.accept
    split
    · exact hs
    · exact ⟨⟨ts, hp, htasks⟩, hs.passed⟩
  | controlThrows id hid => exact ⟨⟨ts, hp, htasks⟩, hs.passed⟩
  | startSink id hid => exact ⟨⟨ts, hp, htasks⟩, hs.passed⟩
  | endSink id r hid => exact ⟨⟨ts, hp, htasks⟩, hs.passed⟩
  | setBuildFlag b => exact ⟨⟨ts, hp, htasks⟩, hs.passed⟩
  | wakeTake job rest hpc _ => exact take_loopOk hs job rest (by simp [hpc])
  | wakePoll hpc _ =>
    rw [hpc] at htasks
    exact ⟨⟨ts, hp, htasks⟩, hs.passed⟩
  | enqueue atEnd ts' t hpc htasks' _ =>
    rw [hpc] at htasks
    obtain ⟨t', ht', hfresh⟩ := htasks
    obtain ⟨rfl, hlast⟩ := List.append_inj' (htasks'.symm.trans ht') rfl
    obtain rfl : t = t' := by simpa using hlast
    refine ⟨⟨ts' ++ [t.mark], List.rel_append hp (.cons (paired_mark t hfresh) .nil), rfl⟩,
      hs.passed⟩
  | relockEnd hpc =>
    rw [hpc] at htasks
    exact ⟨⟨ts, hp, htasks⟩, hs.passed⟩
  | relockTake job rest hpc _ => exact take_loopOk hs job rest (by simp [hpc])
  | taskDone id i t hi ht =>
    obtain ⟨f, hf, hpending⟩ := pendingAt_some hi
    have hlt : i < ts.length := by
      rw [hp.length_eq]
      exact (List.getElem?_eq_some_iff.mp hf).1
    have hti : ts[i]? = some t := by
      cases hpc : s.pc with
      | filtering b =>
        rw [hpc] at htasks
        obtain ⟨u, hu, -⟩ := htasks
        rwa [hu, List.getElem?_append_left hlt] at ht
      | _ =>
        rw [hpc] at htasks
        rwa [htasks] at ht
    have hnew := paired_finish t f (forall₂_getElem? hp hti hf) hpending
    refine ⟨⟨ts.set i t.finish, forall₂_set_modify hp hti hf _ _ hnew, ?_⟩, hs.passed⟩
    cases hpc : s.pc with
    | filtering b =>
      rw [hpc] at htasks
      obtain ⟨u, hu, hfresh⟩ := htasks
      exact ⟨u, by rw [hu, List.set_append_left _ _ hlt], hfresh⟩
    | _ =>
      rw [hpc] at htasks
      simp only [htasks]
  | pollEnd i hpc _ =>
    rw [hpc] at htasks
    exact ⟨⟨ts, hp, htasks⟩, hs.passed⟩
  | pollVisit i t f hpc ht hf =>
    rw [hpc] at htasks
    rw [← htasks] at hp
    exact ⟨visit_paired s i t f hp hpc,
      visit_passed s i t f (forall₂_getElem? hp ht hf) hs.passed⟩

theorem loopOk_start : LoopOk State.start :=
  ⟨⟨[], .nil, rfl⟩, by simp [State.start]⟩

/-- Every run releases payloads with their bytes. -/
theorem run_released {es : List Event} {s : State} (h : run step State.start es = some s) :
    ∀ jp ∈ s.passed, jp.1.released = some jp.2.data :=
  (run_invariant (fun _ _ _ ht hstep => step_loopOk ht hstep) loopOk_start h).passed

/-! ## Which payloads a run handles -/

/-- A completed session hands over a payload and filtering work that `A` admits. -/
def Event.Admitted (A : ReceivedPayload → Work → Prop) : Event → Prop
  | .endSink _ (.ok (p, w)) => A p w
  | _ => True

theorem pushed_admitted {A : ReceivedPayload → Work → Prop} {s : State} {e : Event}
    (h : e.Admitted A) : ∀ j ∈ e.pushed s, A j.payload j.work := by
  intro j hj
  unfold Event.pushed at hj
  split at hj
  · split at hj
    · rw [List.mem_singleton.mp hj]
      exact h
    · simp at hj
  · simp at hj

/-- The payloads in the gateway came from the sessions of the run. -/
theorem run_jobs_admitted {A : ReceivedPayload → Work → Prop} {es : List Event} {s : State}
    (hA : ∀ e ∈ es, e.Admitted A) (h : run step State.start es = some s) :
    ∀ j ∈ s.jobs, A j.payload j.work := by
  refine run_invariant_along (I := fun t => ∀ j ∈ t.jobs, A j.payload j.work)
    (P := fun _ e => e.Admitted A) ?_ (by simp [State.jobs, State.start]) (along_of_forall hA) h
  intro t e t' ht he hstep j hj
  rcases List.mem_append.mp ((step_jobs hstep).mem_iff.mp hj) with hold | hnew
  · exact ht j hold
  · exact pushed_admitted he j hnew

/-! ## The main result -/

/-- The gateway when a first payload has been taken from the list and its filter is to be
    called. -/
def taken (p : ReceivedPayload) (w : Work) : State :=
  { State.start with
    nextId := 1, buildFlag := true, pc := .filtering true, tasks := [⟨⟨0, p, w⟩, p⟩] }

theorem run_taken (p : ReceivedPayload) (w : Work) :
    run step State.start [.accept, .startSink 0, .endSink 0 (.ok (p, w)), .setBuildFlag true,
      .wake] = some (taken p w) := rfl

/-- The gateway when the filter of that payload, whose future `f` was, has completed. -/
def filtered (t : Task) (f : CensorFuture) (p : ReceivedPayload) (w : Work) : State :=
  { taken p w with tasks := [t.finish], futures := [f.finish t], pc := .polling 0 }

/-- From the call of the filter to the round that looks at its future. -/
theorem run_filtered (p : ReceivedPayload) (w : Work) :
    run step (taken p w) [.enqueue, .relock, .taskDone 0, .poll] =
      some ((filtered (Task.mark ⟨⟨0, p, w⟩, p⟩) (newFuture p 0) p w).visit 0
        (Task.mark ⟨⟨0, p, w⟩, p⟩).finish ((newFuture p 0).finish (Task.mark ⟨⟨0, p, w⟩, p⟩))) := by
  have henqueue : step (taken p w) .enqueue = some { taken p w with
      tasks := [(⟨⟨0, p, w⟩, p⟩ : Task).mark], futures := [newFuture p 0]
      pc := .relocking true } := if_pos (.inr rfl)
  rw [run_step henqueue]
  by_cases hdoc : p.isDocument = true
  · rw [newFuture, if_pos hdoc]
    rfl
  · rw [newFuture, if_neg hdoc]
    rfl

/-- A payload that can be released at all is released by the run that handles it alone. -/
theorem run_releases (p : ReceivedPayload) (w : Work) (d : Bytes)
    (hd : (⟨0, p, w⟩ : Job).released = some d) :
    ∃ q s, run step (taken p w) [.enqueue, .relock, .taskDone 0, .poll] = some s ∧
      (⟨0, p, w⟩, q) ∈ s.passed := by
  have hlast : ∀ (s : State) (q : ReceivedPayload),
      (⟨0, p, w⟩, q) ∈ (s.callback 0 ⟨0, p, w⟩ q).passed := by
    intro s q
    exact List.mem_append_right _ List.mem_cons_self
  rw [run_filtered]
  by_cases hdoc : p.isDocument = true
  · have hdata : (Task.mark ⟨⟨0, p, w⟩, p⟩).payload.data = p.data := markTxt_data p
    have hfut : (newFuture p 0).finish (Task.mark ⟨⟨0, p, w⟩, p⟩) =
        .size 0 ((⟨0, p, w⟩ : Job).documentResult p.data) := by
      rw [newFuture, if_pos hdoc, CensorFuture.finish, hdata]
      rfl
    rw [hfut]
    unfold Job.documentResult
    rw [Job.released, if_pos hdoc] at hd
    simp only at hd ⊢
    cases hc : censorDocumentFile w.doc p.data with
    | ok r =>
      simp only [State.visit]
      split
      · exact ⟨_, _, rfl, hlast _ _⟩
      · exact ⟨_, _, rfl, hlast _ _⟩
    | error stop =>
      cases stop with
      | zero buf => exact ⟨_, _, rfl, hlast _ _⟩
      | threw => simp [hc] at hd
  · have hfut : (newFuture p 0).finish (Task.mark ⟨⟨0, p, w⟩, p⟩) =
        .bool 0 (⟨0, p, w⟩ : Job).stringResult := by
      rw [newFuture, if_neg hdoc]
      rfl
    rw [hfut]
    unfold Job.stringResult
    cases w.string with
    | some infos => exact ⟨_, _, rfl, hlast _ _⟩
    | none => exact ⟨_, _, rfl, hlast _ _⟩

/-- Over the runs whose payloads and filtering work `A` admits, every payload handed to
    `callback_func` was successfully filtered and carries its censored bytes exactly when every
    admitted payload is harmless. -/
theorem released_censored_iff (A : ReceivedPayload → Work → Prop) :
    (∀ es s, (∀ e ∈ es, Event.Admitted A e) → run step State.start es = some s →
      ∀ jp ∈ s.passed, jp.1.censored = some jp.2.data) ↔
    ∀ p w, A p w → Harmless p w := by
  constructor
  · intro hall p w hA
    refine (harmless_iff ⟨0, p, w⟩).mpr fun d hd => ?_
    obtain ⟨q, s, hrun, hmem⟩ := run_releases p w d hd
    have hwhole := run_append_of (run_taken p w) hrun
    have hcensored := hall _ s (by simp [Event.Admitted, hA]) hwhole _ hmem
    have hreleased := run_released hwhole _ hmem
    rw [hd] at hreleased
    rw [hcensored, hreleased]
  · intro hharmless es s hA hrun jp hjp
    have hmem : jp.1 ∈ s.jobs :=
      List.mem_append_right _ (List.mem_append_right _ (List.mem_map_of_mem hjp))
    have hok := hharmless _ _ (run_jobs_admitted hA hrun jp.1 hmem)
    exact (harmless_iff jp.1).mp hok _ (run_released hrun jp hjp)

/-- A `.docx` file of three bytes that are no archive. -/
def brokenDocument : ReceivedPayload :=
  { zeroPayload with
    isFile := true, fileName := [0x61, 0x2e, 0x64, 0x6f, 0x63, 0x78], data := [1, 2, 3] }

/-- minizip refuses the broken document, the function returns 0, and the loop hands the original
    bytes to `callback_func`. -/
theorem broken_document_released :
    ∃ s, run step State.start ([.accept, .startSink 0,
        .endSink 0 (.ok (brokenDocument, ⟨some [], noArchive⟩)), .setBuildFlag true, .wake] ++
        [.enqueue, .relock, .taskDone 0, .poll]) = some s ∧
      s.passed.map (fun jp => (jp.1.censored, jp.2.data)) = [(none, [1, 2, 3])] :=
  ⟨_, rfl, rfl⟩

end CdsGuard.Gateway
