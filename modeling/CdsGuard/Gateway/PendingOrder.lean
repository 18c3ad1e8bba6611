import CdsGuard.Gateway.Release

/-
  The two lists of `CdsGatewayFilteringProcessingLoop`. They are pushed to one after the other
  and erased at the same position, so the future at a position is that of the payload there; a
  payload leaves the lists only when its own future is ready, and those that stay keep their
  order.

  A step does one of three things to the pending payloads (`step_pending`): it leaves them, it
  puts the head of the receive list behind them, or it takes one away by calling
  `callback_func` on it. Proved: `loop_in_step`, for every run.
-/

namespace CdsGuard.Gateway

open CdsGuard.Lib

/-- The number of the session that read the payload. -/
def Task.id (t : Task) : Nat := t.job.id

def State.pendingIds (s : State) : List Nat := s.tasks.map Task.id

def State.passedIds (s : State) : List Nat := s.passed.map fun jp => jp.1.id

/-! ## The futures belong to the payloads -/

/-- The payloads whose filter has been called: all in `censor_task_list`, but for one that was
    just taken. -/
def State.queued (s : State) : List Task :=
  match s.pc with
  | .filtering _ => s.tasks.dropLast
  | _ => s.tasks

/-- The lists are of one length, and the future at a position is that of the payload there. -/
structure InStep (s : State) : Prop where
  owners : s.futures.map CensorFuture.owner = s.queued.map Task.id
  taken : ∀ b, s.pc = .filtering b → s.tasks ≠ []

theorem queued_of_not_filtering {s : State} (h : ∀ b, s.pc ≠ .filtering b) :
    s.queued = s.tasks := by
  unfold State.queued
  split
  · rename_i b hpc
    exact absurd hpc (h b)
  · rfl

theorem take_inStep {s : State} (hs : InStep s) (job : Job) (rest : List Job)
    (hpc : ∀ b, s.pc ≠ .filtering b) : InStep (s.take job rest) := by
  constructor
  · have howners := hs.owners
    rw [queued_of_not_filtering hpc] at howners
    change s.futures.map CensorFuture.owner = (s.tasks ++ [_]).dropLast.map Task.id
    rw [List.dropLast_concat, howners]
  · intro b _
    simp [State.take]

theorem callback_inStep {s : State} (hs : InStep s) {i k : Nat} (hpc : s.pc = .polling k)
    (job : Job) (p : ReceivedPayload) : InStep (s.callback i job p) := by
  have howners := hs.owners
  rw [queued_of_not_filtering (by simp [hpc])] at howners
  have hpc' : (s.callback i job p).pc = .polling k := hpc
  constructor
  · rw [queued_of_not_filtering (by simp [hpc'])]
    change (s.futures.eraseIdx i).map CensorFuture.owner = (s.tasks.eraseIdx i).map Task.id
    rw [← List.eraseIdx_map, ← List.eraseIdx_map, howners]
  · intro b hb
    rw [hpc'] at hb
    exact absurd hb (by simp)

theorem visit_inStep {s : State} (hs : InStep s) {i : Nat} (hpc : s.pc = .polling i) (t : Task)
    (f : CensorFuture) : InStep (s.visit i t f) := by
  have howners := hs.owners
  rw [queued_of_not_filtering (by simp [hpc])] at howners
  unfold State.visit
  split
  · exact ⟨howners, by simp⟩
  · exact callback_inStep hs hpc _ _
  · exact ⟨howners, by simp⟩
  · split <;> exact callback_inStep hs hpc _ _
  · exact ⟨howners, by simp⟩

theorem owner_finish (t : Task) (f : CensorFuture) : (f.finish t).owner = f.owner := by
  cases f <;> rfl

theorem owner_newFuture (p : ReceivedPayload) (id : Nat) : (newFuture p id).owner = id := by
  unfold newFuture
  split <;> rfl

theorem modify_owners (futures : List CensorFuture) (i : Nat) (t : Task) :
    (futures.modify i (CensorFuture.finish t)).map CensorFuture.owner =
      futures.map CensorFuture.owner := by
  induction futures generalizing i with
  | nil => simp
  | cons f fs ih =>
    cases i with
    | zero => simp [owner_finish]
    | succ i => simpa using ih i

/-- A task that is done stays in its place. -/
theorem set_finish_ids {ts : List Task} {i : Nat} {t : Task} (h : ts[i]? = some t) :
    (ts.set i t.finish).map Task.id = ts.map Task.id := by
  obtain ⟨hi, ht⟩ := List.getElem?_eq_some_iff.mp h
  have hid : t.finish.id = (ts[i]).id := by rw [ht]; rfl
  rw [List.map_set, hid, ← List.map_set, List.set_getElem_self]

theorem step_inStep {s s' : State} {e : Event} (hs : InStep s) (h : step s e = some s') :
    InStep s' := by
  cases step_cases h with
  | accept =>
    unfold State.accept
    split <;> exact ⟨hs.owners, hs.taken⟩
  | controlThrows id hid => exact ⟨hs.owners, hs.taken⟩
  | startSink id hid => exact ⟨hs.owners, hs.taken⟩
  | endSink id r hid => exact ⟨hs.owners, hs.taken⟩
  | setBuildFlag b => exact ⟨hs.owners, hs.taken⟩
  | wakeTake job rest hpc _ => exact take_inStep hs job rest (by simp [hpc])
  | wakePoll hpc _ =>
    have howners := hs.owners
    rw [queued_of_not_filtering (by simp [hpc])] at howners
    exact ⟨howners, by simp⟩
  | enqueue atEnd ts t hpc htasks _ =>
    have howners := hs.owners
    rw [State.queued, hpc, htasks] at howners
    refine ⟨?_, by simp⟩
    change (s.futures ++ [_]).map CensorFuture.owner = (ts ++ [t.mark]).map Task.id
    rw [List.map_append, List.map_append, howners, List.dropLast_concat]
    simp only [List.map_singleton, owner_newFuture]
    rfl
  | relockEnd hpc =>
    have howners := hs.owners
    rw [queued_of_not_filtering (by simp [hpc])] at howners
    exact ⟨howners, by simp⟩
  | relockTake job rest hpc _ => exact take_inStep hs job rest (by simp [hpc])
  | taskDone id i t _ ht =>
    constructor
    · have howners := hs.owners
      unfold State.queued at howners ⊢
      change (s.futures.modify i _).map CensorFuture.owner = _
      rw [modify_owners, howners]
      dsimp only
      split
      · rw [List.map_dropLast, List.map_dropLast, set_finish_ids ht]
      · rw [set_finish_ids ht]
    · intro b hb hnil
      refine hs.taken b hb (List.length_eq_zero_iff.mp ?_)
      have := congrArg List.length hnil
      simpa using this
  | pollEnd i hpc _ =>
    have howners := hs.owners
    rw [queued_of_not_filtering (by simp [hpc])] at howners
    exact ⟨howners, by simp⟩
  | pollVisit i t f hpc _ _ => exact visit_inStep hs hpc t f

theorem inStep_start : InStep State.start := ⟨rfl, by simp [State.start]⟩

/-! ## A call of `callback_func` -/

/-- A payload as `callback_func` gets it. -/
def Task.handedOver (t : Task) : CensorFuture → ReceivedPayload
  | .size _ (.value censoredSize) =>
    if 0 < censoredSize then
      { t.payload with data := resize t.payload.data censoredSize }
    else t.payload
  | _ => t.payload

/-- From `s` to `s'` the loop passes on the payload `t` at position `i`, whose future is `f`. -/
structure PassesAt (s s' : State) (i : Nat) (t : Task) (f : CensorFuture) : Prop where
  task : s.tasks[i]? = some t
  future : s.futures[i]? = some f
  own : f.owner = t.id
  ready : f.isPending = false
  document : t.job.payload.isDocument = true →
    ∃ censoredSize, f = .size t.id (.value censoredSize)
  passed : s'.passed = s.passed ++ [(t.job, t.handedOver f)]
  tasks : s'.tasks = s.tasks.eraseIdx i
  futures : s'.futures = s.futures.eraseIdx i

theorem own_at {s : State} (hs : InStep s) {i : Nat} {t : Task} {f : CensorFuture}
    (hpc : ∀ b, s.pc ≠ .filtering b) (ht : s.tasks[i]? = some t) (hf : s.futures[i]? = some f) :
    f.owner = t.id := by
  have howners := congrArg (fun l => l[i]?) hs.owners
  rw [queued_of_not_filtering hpc] at howners
  simpa [ht, hf] using howners

theorem visit_value (s : State) (i : Nat) (t : Task) (owner censoredSize : Nat) :
    s.visit i t (.size owner (.value censoredSize)) =
      s.callback i t.job (t.handedOver (.size owner (.value censoredSize))) := by
  simp only [State.visit, Task.handedOver]
  split <;> rfl

/-- A visit passes the payload on, or leaves both lists as they are. -/
theorem visit_passes {s : State} (hs : InStep s) {i : Nat} (hpc : s.pc = .polling i) {t : Task}
    {f : CensorFuture} (ht : s.tasks[i]? = some t) (hf : s.futures[i]? = some f)
    (hp : Paired t f) :
    (s.visit i t f).passed = s.passed ∧ (s.visit i t f).tasks = s.tasks ∨
      PassesAt s (s.visit i t f) i t f := by
  have hown := own_at hs (by simp [hpc]) ht hf
  cases f with
  | bool owner st =>
    cases st with
    | pending => exact .inl ⟨rfl, rfl⟩
    | value b => exact .inr ⟨ht, hf, hown, rfl, fun hdoc => by simp [hp.1] at hdoc, rfl, rfl, rfl⟩
    | exception =>
      exact .inr ⟨ht, hf, hown, rfl, fun hdoc => by simp [hp.1] at hdoc, rfl, rfl, rfl⟩
  | size owner st =>
    cases st with
    | pending => exact .inl ⟨rfl, rfl⟩
    | exception => exact .inl ⟨rfl, rfl⟩
    | value censoredSize =>
      rw [visit_value]
      refine .inr ⟨ht, hf, hown, rfl, fun _ => ⟨censoredSize, ?_⟩, rfl, rfl, rfl⟩
      rw [← hown]
      rfl

/-- What a step does to the pending payloads: it leaves them, puts the head of the receive list
    behind them, or passes one on. -/
theorem step_pending {s s' : State} {e : Event} (hs : InStep s) (hloop : LoopOk s)
    (h : step s e = some s') :
    (s'.passed = s.passed ∧ s'.pendingIds = s.pendingIds) ∨
    (s'.passed = s.passed ∧ ∃ job rest, s.shared.receiveTaskList = job :: rest ∧
      s'.pendingIds = s.pendingIds ++ [job.id]) ∨
    ∃ i t f, PassesAt s s' i t f := by
  cases step_cases h with
  | accept =>
    unfold State.accept
    split <;> exact .inl ⟨rfl, rfl⟩
  | controlThrows id hid => exact .inl ⟨rfl, rfl⟩
  | startSink id hid => exact .inl ⟨rfl, rfl⟩
  | endSink id r hid => exact .inl ⟨rfl, rfl⟩
  | setBuildFlag b => exact .inl ⟨rfl, rfl⟩
  | wakeTake job rest _ hlist =>
    exact .inr (.inl ⟨rfl, job, rest, hlist, by simp [State.pendingIds, State.take, Task.id]⟩)
  | wakePoll _ _ => exact .inl ⟨rfl, rfl⟩
  | enqueue atEnd ts t _ htasks _ =>
    refine .inl ⟨rfl, ?_⟩
    simp [State.pendingIds, htasks, Task.id, Task.mark]
  | relockEnd _ => exact .inl ⟨rfl, rfl⟩
  | relockTake job rest _ hlist =>
    exact .inr (.inl ⟨rfl, job, rest, hlist, by simp [State.pendingIds, State.take, Task.id]⟩)
  | taskDone id i t _ ht => exact .inl ⟨rfl, set_finish_ids ht⟩
  | pollEnd i _ _ => exact .inl ⟨rfl, rfl⟩
  | pollVisit i t f hpc ht hf =>
    obtain ⟨ts, hpaired, htasks⟩ := hloop.paired
    rw [hpc] at htasks
    rw [← htasks] at hpaired
    obtain ⟨hpassed, htasks'⟩ | hpass :=
      visit_passes hs hpc ht hf (forall₂_getElem? hpaired ht hf)
    · exact .inl ⟨hpassed, by rw [State.pendingIds, htasks', State.pendingIds]⟩
    · exact .inr (.inr ⟨i, t, f, hpass⟩)

/-! ## The order of the pending payloads -/

/-- The payloads of `s` that are still pending in `s'` stand there in the same order, and those
    that came since stand behind them. -/
def KeepsOrder (s s' : State) : Prop :=
  ∃ kept new, s'.pendingIds = kept ++ new ∧ kept.Sublist s.pendingIds ∧
    ∀ id ∈ new, id ∉ s.pendingIds

theorem keepsOrder_refl (s : State) : KeepsOrder s s :=
  ⟨s.pendingIds, [], (List.append_nil _).symm, List.Sublist.refl _, by simp⟩

theorem keepsOrder_take {s t t' : State} {id : Nat} (h : KeepsOrder s t)
    (hids : t'.pendingIds = t.pendingIds ++ [id]) (hnew : id ∉ s.pendingIds) :
    KeepsOrder s t' := by
  obtain ⟨kept, new, hsplit, hsub, hdisjoint⟩ := h
  refine ⟨kept, new ++ [id], by rw [hids, hsplit, List.append_assoc], hsub, fun n hn => ?_⟩
  obtain hn | hn := List.mem_append.mp hn
  · exact hdisjoint n hn
  · rwa [List.mem_singleton.mp hn]

theorem keepsOrder_erase {s t t' : State} {i : Nat} (h : KeepsOrder s t)
    (hids : t'.pendingIds = t.pendingIds.eraseIdx i) : KeepsOrder s t' := by
  obtain ⟨kept, new, hsplit, hsub, hdisjoint⟩ := h
  rw [hsplit] at hids
  by_cases hi : i < kept.length
  · rw [List.eraseIdx_append_of_lt_length hi] at hids
    exact ⟨_, new, hids, (List.eraseIdx_sublist _ _).trans hsub, hdisjoint⟩
  · rw [List.eraseIdx_append_of_length_le (by omega)] at hids
    exact ⟨kept, _, hids, hsub, fun n hn => hdisjoint n (List.mem_of_mem_eraseIdx hn)⟩

/-- A payload at the head of the receive list is neither pending nor passed. -/
theorem head_fresh {s : State} (hs : UsesOnce s) {job : Job} {rest : List Job}
    (hlist : s.shared.receiveTaskList = job :: rest) :
    job.id ∉ s.pendingIds ∧ job.id ∉ s.passedIds := by
  have hle := hs.le_one job.id
  rw [State.uses, State.jobs, hlist] at hle
  simp only [List.map_append, List.map_cons, List.map_map, List.count_append,
    List.count_cons_self] at hle
  constructor
  · intro hmem
    have hpos : 0 < (s.tasks.map (Job.id ∘ Task.job)).count job.id := List.count_pos_iff.mpr hmem
    omega
  · intro hmem
    have hpos : 0 < (s.passed.map (Job.id ∘ Prod.fst)).count job.id := List.count_pos_iff.mpr hmem
    omega

/-- A payload that leaves the pending ones by being passed on is among the passed ones. -/
theorem passes_ids {s s' : State} {i : Nat} {t : Task} {f : CensorFuture}
    (h : PassesAt s s' i t f) {id : Nat} (hid : id ∈ s.pendingIds ∨ id ∈ s.passedIds) :
    id ∈ s'.pendingIds ∨ id ∈ s'.passedIds := by
  have hperm : (t :: s'.tasks).Perm s.tasks := by
    rw [h.tasks]
    exact cons_eraseIdx_perm h.task
  have hpassed : s'.passedIds = s.passedIds ++ [t.id] := by
    rw [State.passedIds, h.passed, List.map_append]
    rfl
  rw [hpassed, List.mem_append, List.mem_singleton]
  obtain hid | hid := hid
  · obtain heq | hmem := List.mem_cons.mp ((hperm.map Task.id).mem_iff.mpr hid)
    · exact .inr (.inr heq)
    · exact .inl hmem
  · exact .inr (.inl hid)

theorem run_keepsOrder {s s' : State} {es : List Event} (huses : UsesOnce s) (hin : InStep s)
    (hloop : LoopOk s) (h : run step s es = some s') : KeepsOrder s s' := by
  -- a payload pending in `s` never goes back to the receive list
  let I : State → Prop := fun t => UsesOnce t ∧ InStep t ∧ LoopOk t ∧ KeepsOrder s t ∧
    ∀ id ∈ s.pendingIds, id ∈ t.pendingIds ∨ id ∈ t.passedIds
  have hfirst : I s := ⟨huses, hin, hloop, keepsOrder_refl s, fun id hid => .inl hid⟩
  refine (run_invariant (I := I) ?_ hfirst h).2.2.2.1
  rintro t e t' ⟨ht, hint, hloopt, horder, hstays⟩ hstep
  refine ⟨step_usesOnce ht hstep, step_inStep hint hstep, step_loopOk hloopt hstep, ?_⟩
  obtain ⟨hpassed, hids⟩ | ⟨hpassed, job, rest, hlist, hids⟩ | ⟨i, u, f, hpass⟩ :=
    step_pending hint hloopt hstep
  · obtain ⟨kept, new, hsplit, hsub, hdisjoint⟩ := horder
    refine ⟨⟨kept, new, hids.trans hsplit, hsub, hdisjoint⟩, fun id hid => ?_⟩
    rw [hids, State.passedIds, hpassed]
    exact hstays id hid
  · obtain ⟨hpending, hnotPassed⟩ := head_fresh ht hlist
    refine ⟨keepsOrder_take horder hids fun hmem => ?_, fun id hid => ?_⟩
    · obtain hin' | hin' := hstays _ hmem
      · exact hpending hin'
      · exact hnotPassed hin'
    · rw [hids, State.passedIds, hpassed]
      exact (hstays id hid).imp_left (List.mem_append_left _)
  · refine ⟨keepsOrder_erase (i := i) horder ?_, fun id hid => passes_ids hpass (hstays id hid)⟩
    rw [State.pendingIds, hpass.tasks, ← List.eraseIdx_map]
    rfl

theorem passed_nodup {s : State} (h : UsesOnce s) : s.passedIds.Nodup := by
  rw [List.nodup_iff_count_le_one]
  intro id
  have hle := h.le_one id
  rw [State.uses, State.jobs] at hle
  simp only [List.map_append, List.map_map, List.count_append] at hle
  change (s.passed.map (Job.id ∘ Prod.fst)).count id ≤ 1
  omega

/-! ## Every run -/

/-- In every run the futures stay beside their payloads; each payload is passed on at most once,
    only with its own future ready, and a document with a positive size cut to it; and the
    payloads still pending keep their order. -/
theorem loop_in_step (es : List Event) (s : State) (h : run step State.start es = some s) :
    InStep s ∧ s.passedIds.Nodup ∧
    (∀ e s', step s e = some s' → s'.passed = s.passed ∨ ∃ i t f, PassesAt s s' i t f) ∧
    (∀ fs s', run step s fs = some s' → KeepsOrder s s') := by
  have huses : UsesOnce s := reachable_usesOnce ⟨es, h⟩
  have hin : InStep s := run_invariant (fun _ _ _ ht hstep => step_inStep ht hstep) inStep_start h
  have hloop : LoopOk s :=
    run_invariant (fun _ _ _ ht hstep => step_loopOk ht hstep) loopOk_start h
  refine ⟨hin, passed_nodup huses, fun e s' hstep => ?_, fun fs s' hrun =>
    run_keepsOrder huses hin hloop hrun⟩
  obtain ⟨hpassed, -⟩ | ⟨hpassed, -⟩ | hpass := step_pending hin hloop hstep
  · exact .inl hpassed
  · exact .inl hpassed
  · exact .inr hpass

/-- Two texts are taken, the second is done first, and the loop is at it. -/
def secondFirst : List Event :=
  textSession 0 ++ textSession 1 ++
    [.setBuildFlag true, .wake, .enqueue, .relock, .enqueue, .relock, .taskDone 1, .poll]

/-- The loop goes on to pass the second text, and the first one stays. -/
theorem loop_in_step_second_first : ∃ s s', run step State.start secondFirst = some s ∧
    s.pendingIds = [0, 1] ∧ step s .poll = some s' ∧ s'.passedIds = [1] ∧ s'.pendingIds = [0] ∧
    (∃ i t f, PassesAt s s' i t f) ∧ KeepsOrder s s' ∧ InStep s' ∧ s'.passedIds.Nodup := by
  obtain ⟨-, -, hpass, horder⟩ := loop_in_step secondFirst _ rfl
  obtain ⟨hin, hnodup, -⟩ := loop_in_step (secondFirst ++ [.poll]) _ rfl
  refine ⟨_, _, rfl, rfl, rfl, rfl, rfl, ?_, horder [.poll] _ rfl, hin, hnodup⟩
  exact (hpass .poll _ rfl).resolve_left fun h => Nat.one_ne_zero (congrArg List.length h)

end CdsGuard.Gateway
