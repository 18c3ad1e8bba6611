import CdsGuard.Gateway.System

/-
  Payloads are not lost or duplicated between `FileSinkSession` and `callback_func`. Every step
  only moves payloads between the three places, except that a session's end adds its payload
  to the receive list when that has room (`step_jobs`); when the list is full the payload is
  dropped, although the connection was accepted at a time when it was not.

  Proved: `payload_in_one_place`, for every completion in every run.
-/

namespace CdsGuard.Gateway

open CdsGuard.Lib

/-! ## What a step does to the payloads -/

/-- The payload that an event adds to the receive list. -/
def Event.pushed (s : State) : Event → List Job
  | .endSink id (.ok (p, w)) =>
    if s.shared.receiveTaskList.length < MAX_TASKS then [⟨id, p, w⟩] else []
  | _ => []

theorem endSession_receiveTaskList_eq (s : State) (id : Nat)
    (r : Except SinkStop (ReceivedPayload × Work)) :
    (s.shared.endSession (r.map fun pw => (⟨id, pw.1, pw.2⟩ : Job))).receiveTaskList =
      s.shared.receiveTaskList ++ Event.pushed s (.endSink id r) := by
  cases r with
  | ok pw =>
    simp only [Except.map, GatewayState.endSession, GatewayState.release_receiveTaskList,
      GatewayState.pushTask, Event.pushed]
    split
    · rfl
    · simp
  | error x => cases x <;> simp [Except.map, GatewayState.endSession, Event.pushed]

/-- Taking the head of the receive list moves it to the end of the task list. -/
theorem take_jobs (s : State) (job : Job) (rest : List Job)
    (h : s.shared.receiveTaskList = job :: rest) : (s.take job rest).jobs.Perm s.jobs := by
  unfold State.jobs State.take
  rw [h, List.map_append, List.map_singleton, List.append_assoc, List.cons_append]
  calc rest ++ (s.tasks.map Task.job ++ ([job] ++ s.passed.map Prod.fst))
      _ = (rest ++ s.tasks.map Task.job) ++ job :: s.passed.map Prod.fst := by simp
      _ |>.Perm (job :: (rest ++ s.tasks.map Task.job ++ s.passed.map Prod.fst)) :=
        List.perm_middle
      _ = job :: (rest ++ (s.tasks.map Task.job ++ s.passed.map Prod.fst)) := by simp

theorem cons_eraseIdx_perm {α : Type} {l : List α} {i : Nat} {a : α} (h : l[i]? = some a) :
    (a :: l.eraseIdx i).Perm l := by
  obtain ⟨hi, ha⟩ := List.getElem?_eq_some_iff.mp h
  rw [← ha]
  exact List.getElem_cons_eraseIdx_perm hi

/-- A call of `callback_func` moves the payload from the task list to the calls. -/
theorem callback_jobs (s : State) (i : Nat) (t : Task) (p : ReceivedPayload)
    (h : s.tasks[i]? = some t) : (s.callback i t.job p).jobs.Perm s.jobs := by
  have hjobs : (s.tasks.eraseIdx i).map Task.job ++ [t.job] |>.Perm (s.tasks.map Task.job) := by
    refine (List.perm_append_singleton _ _).trans ?_
    exact (cons_eraseIdx_perm h).map Task.job
  unfold State.jobs State.callback
  refine List.Perm.append_left _ ?_
  rw [List.map_append, List.map_singleton]
  refine List.Perm.trans ?_ (hjobs.append_right _)
  rw [List.append_assoc]
  exact List.Perm.append_left _ List.perm_append_comm

theorem visit_jobs (s : State) (i : Nat) (t : Task) (f : CensorFuture)
    (h : s.tasks[i]? = some t) : (s.visit i t f).jobs.Perm s.jobs := by
  unfold State.visit
  split
  · exact List.Perm.refl _
  · exact callback_jobs s i t _ h
  · exact List.Perm.refl _
  · split <;> exact callback_jobs s i t _ h
  · exact List.Perm.refl _

/-- A step rearranges the payloads, and adds the one that it pushes. -/
theorem step_jobs {s s' : State} {e : Event} (h : step s e = some s') :
    s'.jobs.Perm (s.jobs ++ e.pushed s) := by
  cases step_cases h with
  | accept =>
    change s.accept.jobs.Perm (s.jobs ++ [])
    rw [List.append_nil]
    unfold State.accept
    split <;> exact List.Perm.refl _
  | endSink id r hid =>
    unfold State.jobs
    simp only [endSession_receiveTaskList_eq]
    rw [List.append_assoc, List.append_assoc]
    exact List.Perm.append_left _ List.perm_append_comm
  | controlThrows id hid => simp [Event.pushed, State.jobs]
  | startSink id hid => simp [Event.pushed, State.jobs]
  | setBuildFlag b => simp [Event.pushed, State.jobs]
  | wakeTake job rest _ hlist =>
    change (s.take job rest).jobs.Perm (s.jobs ++ [])
    rw [List.append_nil]
    exact take_jobs s job rest hlist
  | wakePoll _ _ => simp [Event.pushed, State.jobs]
  | enqueue atEnd ts t _ htasks _ => simp [Event.pushed, State.jobs, htasks, Task.mark]
  | relockEnd _ => simp [Event.pushed, State.jobs]
  | relockTake job rest _ hlist =>
    change (s.take job rest).jobs.Perm (s.jobs ++ [])
    rw [List.append_nil]
    exact take_jobs s job rest hlist
  | taskDone id i t _ ht =>
    obtain ⟨hi, hti⟩ := List.getElem?_eq_some_iff.mp ht
    have hmap : (s.tasks.set i t.finish).map Task.job = s.tasks.map Task.job := by
      have hjob : t.finish.job = (s.tasks[i]).job := by rw [hti, Task.finish]
      rw [List.map_set, hjob, ← List.map_set, List.set_getElem_self]
    simp [Event.pushed, State.jobs, hmap]
  | pollEnd i _ _ => simp [Event.pushed, State.jobs]
  | pollVisit i t f _ ht _ =>
    change (s.visit i t f).jobs.Perm (s.jobs ++ [])
    rw [List.append_nil]
    exact visit_jobs s i t f ht

/-! ## Session numbers -/

/-- How often a number is in use, for a running session or a payload. -/
def State.uses (s : State) (n : Nat) : Nat :=
  s.control.count n + s.sinking.count n + (s.jobs.map Job.id).count n

theorem uses_congr {s s' : State} (hj : s'.jobs.Perm s.jobs) (hc : s'.control = s.control)
    (hs : s'.sinking = s.sinking) (n : Nat) : s'.uses n = s.uses n := by
  rw [State.uses, State.uses, hc, hs, (hj.map Job.id).count_eq]

theorem pushed_count_le (s : State) (id n : Nat) (r : Except SinkStop (ReceivedPayload × Work)) :
    ((Event.pushed s (.endSink id r)).map Job.id).count n ≤ if id = n then 1 else 0 := by
  cases r with
  | error x => simp [Event.pushed]
  | ok pw =>
    simp only [Event.pushed]
    split
    · simp [List.count_singleton]
    · simp

/-- A step brings no number into use but the next one. -/
theorem step_uses {s s' : State} {e : Event} (h : step s e = some s') :
    ((∀ n, s'.uses n ≤ s.uses n) ∧ s'.nextId = s.nextId) ∨
      ((∀ n, s'.uses n = s.uses n + if s.nextId = n then 1 else 0) ∧
        s'.nextId = s.nextId + 1) := by
  have hjobs := step_jobs h
  cases step_cases h with
  | accept =>
    unfold State.accept
    split
    · exact .inl ⟨fun n => Nat.le_refl _, rfl⟩
    · refine .inr ⟨fun n => ?_, rfl⟩
      simp only [State.uses, State.jobs, List.count_append, List.count_singleton, beq_iff_eq]
      omega
  | controlThrows id hid =>
    refine .inl ⟨fun n => ?_, rfl⟩
    have hcount : (s.control.erase id).count n = s.control.count n - if id == n then 1 else 0 :=
      List.count_erase
    simp only [State.uses, State.jobs]
    omega
  | startSink id hid =>
    refine .inl ⟨fun n => ?_, rfl⟩
    have hpos := List.count_pos_iff.mpr hid
    have hcount : (s.control.erase id).count n = s.control.count n - if id == n then 1 else 0 :=
      List.count_erase
    simp only [State.uses, State.jobs, List.count_append, List.count_singleton, beq_iff_eq] at *
    by_cases hn : id = n
    · subst hn
      simp only [if_true] at *
      omega
    · simp only [if_neg hn] at *
      omega
  | endSink id r hid =>
    refine .inl ⟨fun n => ?_, rfl⟩
    have hpos := List.count_pos_iff.mpr hid
    have hcount : (s.sinking.erase id).count n = s.sinking.count n - if id == n then 1 else 0 :=
      List.count_erase
    have hpush := pushed_count_le s id n r
    have hj := (hjobs.map Job.id).count_eq n
    rw [List.map_append, List.count_append] at hj
    simp only [State.uses, beq_iff_eq] at *
    rw [hj]
    by_cases hn : id = n
    · subst hn
      simp only [if_true] at *
      omega
    · simp only [if_neg hn] at *
      omega
  | setBuildFlag b => exact .inl ⟨fun n => Nat.le_refl _, rfl⟩
  | wakeTake job rest _ hlist =>
    have hframe := uses_congr (take_jobs s job rest hlist) rfl rfl
    exact .inl ⟨fun n => Nat.le_of_eq (hframe n), rfl⟩
  | wakePoll _ _ => exact .inl ⟨fun n => Nat.le_refl _, rfl⟩
  | enqueue atEnd ts t _ htasks _ =>
    rw [show Event.pushed s .enqueue = [] from rfl, List.append_nil] at hjobs
    exact .inl ⟨fun n => Nat.le_of_eq (uses_congr hjobs rfl rfl n), rfl⟩
  | relockEnd _ => exact .inl ⟨fun n => Nat.le_refl _, rfl⟩
  | relockTake job rest _ hlist =>
    have hframe := uses_congr (take_jobs s job rest hlist) rfl rfl
    exact .inl ⟨fun n => Nat.le_of_eq (hframe n), rfl⟩
  | taskDone id i t _ ht =>
    rw [show Event.pushed s (.taskDone id) = [] from rfl, List.append_nil] at hjobs
    exact .inl ⟨fun n => Nat.le_of_eq (uses_congr hjobs rfl rfl n), rfl⟩
  | pollEnd i _ _ => exact .inl ⟨fun n => Nat.le_refl _, rfl⟩
  | pollVisit i t f _ ht _ =>
    obtain ⟨-, hcontrol, hsinking, hnext⟩ := visit_frame s i t f
    have hframe := uses_congr (visit_jobs s i t f ht) hcontrol hsinking
    exact .inl ⟨fun n => Nat.le_of_eq (hframe n), hnext⟩

/-- Every number is in use at most once, and none that has not been given out. -/
structure UsesOnce (s : State) : Prop where
  le_one : ∀ n, s.uses n ≤ 1
  fresh : ∀ n, s.nextId ≤ n → s.uses n = 0

theorem usesOnce_start : UsesOnce State.start :=
  ⟨fun n => by simp [State.uses, State.start, State.jobs], fun n _ => by
    simp [State.uses, State.start, State.jobs]⟩

theorem step_usesOnce {s s' : State} {e : Event} (hs : UsesOnce s) (h : step s e = some s') :
    UsesOnce s' := by
  rcases step_uses h with ⟨huses, hnext⟩ | ⟨huses, hnext⟩
  · refine ⟨fun n => (huses n).trans (hs.le_one n), fun n hn => ?_⟩
    have h0 := hs.fresh n (by omega)
    have := huses n
    omega
  · refine ⟨fun n => ?_, fun n hn => ?_⟩
    · rw [huses n]
      split
      · rename_i heq
        rw [hs.fresh n (by omega)]
      · exact hs.le_one n
    · rw [huses n, if_neg (by omega)]
      exact hs.fresh n (by omega)

theorem reachable_usesOnce {s : State} (h : Reachable s) : UsesOnce s := by
  obtain ⟨es, hrun⟩ := h
  exact run_invariant (fun _ _ _ ht hstep => step_usesOnce ht hstep) usesOnce_start hrun

/-! ## After a session has ended -/

/-- A number that is in use no more, and was given out, stays out of use. -/
theorem run_unused {s s' : State} {es : List Event} {n : Nat} (h : run step s es = some s')
    (hn : n < s.nextId) (h0 : s.uses n = 0) : s'.uses n = 0 := by
  have hinv : s'.uses n = 0 ∧ n < s'.nextId := by
    refine run_invariant (I := fun t => t.uses n = 0 ∧ n < t.nextId) ?_ ⟨h0, hn⟩ h
    rintro t e t' ⟨ht0, htn⟩ hstep
    rcases step_uses hstep with ⟨huses, hnext⟩ | ⟨huses, hnext⟩
    · have := huses n
      exact ⟨by omega, by omega⟩
    · rw [huses n, if_neg (by omega)]
      exact ⟨by omega, by omega⟩
  exact hinv.1

/-- A payload in one of the three places stays in one of them. -/
theorem run_mem_jobs {s s' : State} {es : List Event} {j : Job} (h : run step s es = some s')
    (hj : j ∈ s.jobs) : j ∈ s'.jobs := by
  refine run_invariant (I := fun t => j ∈ t.jobs) ?_ hj h
  intro t e t' ht hstep
  exact (step_jobs hstep).mem_iff.mpr (List.mem_append_left _ ht)

/-- The payload is in exactly one of the three places, and there once. -/
def State.HoldsOnce (s : State) (j : Job) : Prop :=
  j ∈ s.jobs ∧ (s.jobs.map Job.id).count j.id = 1

/-- The payload is in none of the three places. -/
def State.Lost (s : State) (j : Job) : Prop := j.id ∉ s.jobs.map Job.id

/-- A completely read payload that finds fewer than `MAX_TASKS` payloads in the receive list is
    from then on in exactly one place, once; one that finds the list full is in none. -/
theorem payload_in_one_place {es fs : List Event} {s₁ s₂ s₃ : State} {id : Nat}
    {p : ReceivedPayload} {w : Work} (h₁ : run step State.start es = some s₁)
    (h₂ : step s₁ (.endSink id (.ok (p, w))) = some s₂) (h₃ : run step s₂ fs = some s₃) :
    (s₁.shared.receiveTaskList.length < MAX_TASKS → s₃.HoldsOnce ⟨id, p, w⟩) ∧
    (MAX_TASKS ≤ s₁.shared.receiveTaskList.length → s₃.Lost ⟨id, p, w⟩) := by
  have honce₁ := reachable_usesOnce ⟨_, h₁⟩
  have honce₂ := step_usesOnce honce₁ h₂
  have honce₃ := run_invariant (fun _ _ _ ht hstep => step_usesOnce ht hstep) honce₂ h₃
  have hjobs := step_jobs h₂
  constructor
  · intro hroom
    have hpushed : Event.pushed s₁ (.endSink id (.ok (p, w))) = [⟨id, p, w⟩] := if_pos hroom
    rw [hpushed] at hjobs
    have hmem : (⟨id, p, w⟩ : Job) ∈ s₃.jobs :=
      run_mem_jobs h₃ (hjobs.mem_iff.mpr (List.mem_append_right _ List.mem_cons_self))
    refine ⟨hmem, ?_⟩
    have hpos : 0 < (s₃.jobs.map Job.id).count id :=
      List.count_pos_iff.mpr (List.mem_map_of_mem (f := Job.id) hmem)
    have hle := honce₃.le_one id
    unfold State.uses at hle
    change (s₃.jobs.map Job.id).count id = 1
    omega
  · intro hfull
    have hpushed : Event.pushed s₁ (.endSink id (.ok (p, w))) = [] := if_neg (by omega)
    rw [hpushed, List.append_nil] at hjobs
    cases step_cases h₂ with
    | endSink _ _ hid =>
      have hpos := List.count_pos_iff.mpr hid
      have hle := honce₁.le_one id
      have hlt : id < s₁.nextId := by
        by_contra hge
        have := honce₁.fresh id (by omega)
        unfold State.uses at this
        omega
      have hcount : (s₁.sinking.erase id).count id =
          s₁.sinking.count id - if id == id then 1 else 0 := List.count_erase
      have hj := (hjobs.map Job.id).count_eq id
      have h0 := run_unused h₃ (n := id) hlt (by
        simp only [State.uses, beq_self_eq_true, if_true] at *
        omega)
      intro hmem
      have := List.count_pos_iff.mpr hmem
      unfold State.uses at h0
      change 0 < (s₃.jobs.map Job.id).count id at this
      omega

/-! ## A full list -/

/-- A session from its connection to its end, with an empty text. -/
def textSession (id : Nat) : List Event :=
  [.accept, .startSink id, .endSink id (.ok (zeroPayload, ⟨some [], noArchive⟩))]

/-- Fifteen texts arrive while the processing loop does not run, then two connections are
    accepted and one of them completes. -/
def almostFull : List Event :=
  (List.range 15).flatMap textSession ++ [.accept, .accept, .startSink 15, .startSink 16,
    .endSink 15 (.ok (zeroPayload, ⟨some [], noArchive⟩))]

/-- A text in which the matching finds its first letter. -/
def letterPayload : ReceivedPayload := { zeroPayload with data := [0x41, 0x42] }

def letterWork : Work := ⟨some [⟨0, 1⟩], noArchive⟩

/-- A text in which it finds nothing. -/
def otherPayload : ReceivedPayload := { zeroPayload with data := [0x43] }

/-- Of two sessions that run at once the second completes first. -/
def interleavedSessions : List Event :=
  [.accept, .accept, .startSink 0, .startSink 1,
    .endSink 1 (.ok (otherPayload, ⟨some [], noArchive⟩))]

/-- Both texts are taken; the later one is done first, and passed by the second visit. -/
def laterPassed : List Event :=
  [.setBuildFlag true, .wake, .enqueue, .relock, .enqueue, .relock, .taskDone 0, .poll, .poll]

/-- The text of the first session is in one place, behind `callback_func`, and the other one is
    still being filtered. -/
theorem payload_in_one_place_first :
    ∃ s₁ s₂ s₃, run step State.start interleavedSessions = some s₁ ∧
      step s₁ (.endSink 0 (.ok (letterPayload, letterWork))) = some s₂ ∧
      run step s₂ laterPassed = some s₃ ∧
      s₃.HoldsOnce ⟨0, letterPayload, letterWork⟩ ∧
      s₃.passed = [(⟨0, letterPayload, letterWork⟩, { letterPayload with data := [0x2a, 0x42] })] ∧
      s₃.tasks.map (fun t => t.job.id) = [1] := by
  refine ⟨_, _, _, rfl, rfl, rfl, ?_, rfl, rfl⟩
  exact (@payload_in_one_place interleavedSessions laterPassed _ _ _ 0 letterPayload letterWork rfl
    rfl rfl).1 (by decide)

/-- The other connection was accepted with room for its payload; when it completes, the list is
    full and the payload is in none of the three places. -/
theorem payload_dropped :
    ∃ s₁ s₂, run step State.start almostFull = some s₁ ∧
      step s₁ (.endSink 16 (.ok (zeroPayload, ⟨some [], noArchive⟩))) = some s₂ ∧
      s₂.Lost ⟨16, zeroPayload, ⟨some [], noArchive⟩⟩ := by
  refine ⟨_, _, rfl, rfl, ?_⟩
  unfold State.Lost
  decide

end CdsGuard.Gateway
