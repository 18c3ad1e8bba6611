import CdsGuard.DoubleArray.Search
import CdsGuard.Lib.Transition
import Mathlib.Data.Fintype.BigOperators

/-
  `FilteringInterface::worker_loop`: the threads that take tasks from the two queues and complete
  their promises. A task is written as what its steps do when they are run, an exception or a
  result; one turn of a thread is one such step, and the turns interleave. The string branch goes
  on after its `catch`, and logs, censors and sets the value outside any `try`.

  Proved: `promises_completed_iff`, the tasks that callers may submit so that in every
  interleaving every promise is completed exactly once and no exception leaves the loop.
-/

namespace CdsGuard.Gateway.Workers

open CdsGuard.Lib CdsGuard.DoubleArray

/-! ## Tasks -/

/-- `none` is an exception. -/
structure StringTask where
  /-- `get_string_matched_info_by_rule` -/
  byRule : Option (List MatchedInfo)
  /-- `is_deep_learning_enabled`, as the task is matched -/
  deepLearning : Bool
  /-- `get_string_matched_info_by_dl` -/
  byDl : Option (List MatchedInfo)
  /-- `log_callback_func_` -/
  log : Option Unit
  /-- `censor` -/
  censor : Option Unit
  deriving DecidableEq

structure ImageTask where
  /-- `is_image_in_set` -/
  inSet : Option Bool
  /-- `censor` -/
  censor : Option Unit
  deriving DecidableEq

inductive Task where
  | string (t : StringTask)
  | image (t : ImageTask)
  deriving DecidableEq

/-- `visit_get_matched_info_lambda` -/
def StringTask.getMatchedInfo (t : StringTask) : Option (List MatchedInfo) := do
  let matched ← t.byRule
  if t.deepLearning then
    let dlMatched ← t.byDl
    return matched ++ dlMatched
  return matched

/-! ## State -/

/-- A call on a promise. -/
inductive Completion where
  | setValue (b : Bool)
  | setException
  deriving DecidableEq

/-- Where a thread stands: at `task_cv_.wait`, before a step of the string branch, before a step
    of the image branch, or behind the loop. `caught` and `caughtImage` are the handlers. -/
inductive Pc where
  | waiting
  | matching (id : Nat) (t : StringTask)
  | caught (id : Nat)
  | logging (id : Nat) (t : StringTask)
  | censoring (id : Nat) (t : StringTask)
  | answering (id : Nat) (censoredFlag : Bool)
  | hashing (id : Nat) (t : ImageTask)
  | blurring (id : Nat) (t : ImageTask)
  | answeringImage (id : Nat) (inSetFlag : Bool)
  | caughtImage (id : Nat)
  | stopped
  deriving DecidableEq

structure Worker where
  pc : Pc := .waiting
  stringTaskCount : Nat := 0
  deriving DecidableEq

/-- `n` threads. Promises carry the number of their task. -/
structure State (n : Nat) where
  stringTaskQue : List (Nat × StringTask)
  imageTaskQue : List (Nat × ImageTask)
  workers : Fin n → Worker
  stopRequested : Bool
  nextId : Nat
  /-- The calls on promises so far, refused ones included. -/
  attempts : List (Nat × Completion)
  /-- An exception has left `worker_loop`, which ends the program. -/
  terminated : Bool

def start (n : Nat) : State n := ⟨[], [], fun _ => {}, false, 0, [], false⟩

namespace State

variable {n : Nat} (s : State n)

def goto (k : Fin n) (w : Worker) : State n := { s with workers := Function.update s.workers k w }

def call (id : Nat) (c : Completion) : State n := { s with attempts := s.attempts ++ [(id, c)] }

/-- The exception leaves the loop. -/
def terminate : State n := { s with terminated := true }

/-- How often a promise has been called. -/
def attemptsOf (id : Nat) : Nat := (s.attempts.map Prod.fst).count id

/-- `promise_already_satisfied` -/
def Satisfied (id : Nat) : Prop := 0 < s.attemptsOf id

instance (id : Nat) : Decidable (s.Satisfied id) := Nat.decLt ..

def takeImage (k : Fin n) : Option (State n) :=
  match s.imageTaskQue with
  | [] => none
  | (id, t) :: rest =>
    some { s.goto k { s.workers k with pc := .hashing id t } with imageTaskQue := rest }

/-- From `task_cv_.wait` to the branches; `none` while there is nothing to do. -/
def take (k : Fin n) : Option (State n) :=
  if s.stopRequested then some (s.goto k { s.workers k with pc := .stopped })
  else
    match s.stringTaskQue with
    | [] => s.takeImage k
    | (id, t) :: rest =>
      if (s.workers k).stringTaskCount < 10 ∨ s.imageTaskQue = [] then
        some { s.goto k { s.workers k with pc := .matching id t } with stringTaskQue := rest }
      else s.takeImage k

/-- The next step of thread `k`. -/
def turn (k : Fin n) : Option (State n) :=
  let w := s.workers k
  match w.pc with
  | .waiting => s.take k
  | .matching id t =>
    match t.getMatchedInfo with
    | none => some (s.goto k { w with pc := .caught id })
    | some [] => some (s.goto k { w with pc := .answering id false })
    | some (_ :: _) => some (s.goto k { w with pc := .logging id t })
  | .caught id =>
    let s' := s.call id .setException
    if s.Satisfied id then some s'.terminate
    -- the vector is still empty, and the code goes on behind the handler
    else some (s'.goto k { w with pc := .answering id false })
  | .logging id t =>
    match t.log with
    | none => some s.terminate
    | some _ => some (s.goto k { w with pc := .censoring id t })
  | .censoring id t =>
    match t.censor with
    | none => some s.terminate
    | some _ => some (s.goto k { w with pc := .answering id true })
  | .answering id flag =>
    let s' := s.call id (.setValue flag)
    if s.Satisfied id then some s'.terminate
    else some (s'.goto k ⟨.waiting, w.stringTaskCount + 1⟩)
  | .hashing id t =>
    match t.inSet with
    | none => some (s.goto k { w with pc := .caughtImage id })
    | some true => some (s.goto k { w with pc := .blurring id t })
    | some false => some (s.goto k { w with pc := .answeringImage id false })
  | .blurring id t =>
    match t.censor with
    | none => some (s.goto k { w with pc := .caughtImage id })
    | some _ => some (s.goto k { w with pc := .answeringImage id true })
  | .answeringImage id flag =>
    let s' := s.call id (.setValue flag)
    if s.Satisfied id then some (s'.goto k { w with pc := .caughtImage id })
    else some (s'.goto k ⟨.waiting, 0⟩)
  | .caughtImage id =>
    let s' := s.call id .setException
    if s.Satisfied id then some s'.terminate else some (s'.goto k ⟨.waiting, 0⟩)
  | .stopped => none

end State

inductive Event (n : Nat) where
  /-- `enqueue_censor_string` or `enqueue_censor_image` -/
  | enqueue (t : Task)
  | turn (k : Fin n)
  | requestStop

def State.enqueue {n : Nat} (s : State n) : Task → State n
  | .string t => { s with
      stringTaskQue := s.stringTaskQue ++ [(s.nextId, t)], nextId := s.nextId + 1 }
  | .image t => { s with
      imageTaskQue := s.imageTaskQue ++ [(s.nextId, t)], nextId := s.nextId + 1 }

def step {n : Nat} (s : State n) (e : Event n) : Option (State n) :=
  if s.terminated then none
  else
    match e with
    | .enqueue t => some (s.enqueue t)
    | .turn k => s.turn k
    | .requestStop => some { s with stopRequested := true }

/-! ## What is wanted -/

/-- The task that a thread holds. -/
def Pc.holds : Pc → Option Nat
  | .matching id _ | .caught id | .logging id _ | .censoring id _ | .answering id _ => some id
  | .hashing id _ | .blurring id _ | .answeringImage id _ | .caughtImage id => some id
  | .waiting | .stopped => none

/-- The string task throws where nothing catches, or where the code goes on. -/
def Task.Faulty : Task → Prop
  | .string t => t.getMatchedInfo = none ∨
      (∃ m ms, t.getMatchedInfo = some (m :: ms)) ∧ (t.log = none ∨ t.censor = none)
  | .image _ => False

def Event.From {n : Nat} (T : Set Task) : Event n → Prop
  | .enqueue t => t ∈ T
  | _ => True

def Event.isTurn {n : Nat} (k : Fin n) : Event n → Bool
  | .turn j => j = k
  | _ => false

/-- A task is waiting in a queue. -/
def State.Queued {n : Nat} (s : State n) (id : Nat) : Prop :=
  id ∈ s.stringTaskQue.map Prod.fst ∨ id ∈ s.imageTaskQue.map Prod.fst

/-- The promises of dequeued tasks are completed once, and the threads keep running: a thread
    that holds a task can go on, and has completed it after at most four turns of its own,
    whatever happens in between. -/
structure Served {n : Nat} (T : Set Task) (s : State n) : Prop where
  running : s.terminated = false
  once : ∀ id, s.attemptsOf id ≤ 1
  dequeued : ∀ id < s.nextId, ¬s.Queued id →
    s.attemptsOf id = 1 ∨ ∃ k, (s.workers k).pc.holds = some id
  looping : ∀ k, (s.workers k).pc = .stopped → s.stopRequested = true
  goesOn : ∀ k, (s.workers k).pc.holds ≠ none → ∃ s', step s (.turn k) = some s'
  finishes : ∀ k id, (s.workers k).pc.holds = some id → ∀ es s', (∀ e ∈ es, Event.From T e) →
    run step s es = some s' → 4 ≤ es.countP (Event.isTurn k) → s'.attemptsOf id = 1

/-! ## What a turn does -/

/-- The steps that are left until the promise is called. -/
def Pc.left : Pc → Nat
  | .matching .. | .hashing .. => 4
  | .logging .. | .blurring .. => 3
  | .censoring .. | .answeringImage .. => 2
  | .answering .. | .caughtImage .. => 1
  | .waiting | .caught _ | .stopped => 0

/-- What is left to do does not throw outside a handler. -/
def Pc.Sound : Pc → Prop
  | .matching _ t => ¬(Task.string t).Faulty
  | .caught _ => False
  | .logging _ t => t.log ≠ none ∧ t.censor ≠ none
  | .censoring _ t => t.censor ≠ none
  | _ => True

/-- The turns of a sound thread. -/
inductive Move {n : Nat} (s : State n) (k : Fin n) : State n → Prop where
  | stop (hstop : s.stopRequested = true) (hk : (s.workers k).pc = .waiting) :
    Move s k (s.goto k { s.workers k with pc := .stopped })
  | takeString (id : Nat) (t : StringTask) (rest : List (Nat × StringTask))
    (hq : s.stringTaskQue = (id, t) :: rest) (hk : (s.workers k).pc = .waiting) :
    Move s k { s.goto k { s.workers k with pc := .matching id t } with stringTaskQue := rest }
  | takeImage (id : Nat) (t : ImageTask) (rest : List (Nat × ImageTask))
    (hq : s.imageTaskQue = (id, t) :: rest) (hk : (s.workers k).pc = .waiting) :
    Move s k { s.goto k { s.workers k with pc := .hashing id t } with imageTaskQue := rest }
  | advance (id : Nat) (pc : Pc) (hk : (s.workers k).pc.holds = some id)
    (hpc : pc.holds = some id) (hleft : pc.left < (s.workers k).pc.left) (hsound : pc.Sound) :
    Move s k (s.goto k { s.workers k with pc := pc })
  | complete (id : Nat) (c : Completion) (count : Nat) (hk : (s.workers k).pc.holds = some id) :
    Move s k ((s.call id c).goto k ⟨.waiting, count⟩)

variable {n : Nat} {s s' : State n} {k : Fin n}

theorem takeImage_move (hk : (s.workers k).pc = .waiting) (h : s.takeImage k = some s') :
    Move s k s' := by
  unfold State.takeImage at h
  split at h
  · cases h
  · rename_i id t rest hq
    cases h
    exact .takeImage id t rest hq hk

theorem take_move (hk : (s.workers k).pc = .waiting) (h : s.take k = some s') : Move s k s' := by
  unfold State.take at h
  split at h
  · rename_i hstop
    cases h
    exact .stop hstop hk
  · split at h
    · exact takeImage_move hk h
    · rename_i id t rest hq
      split at h
      · cases h
        exact .takeString id t rest hq hk
      · exact takeImage_move hk h

theorem turn_move (hsound : (s.workers k).pc.Sound)
    (hfresh : ∀ id, (s.workers k).pc.holds = some id → s.attemptsOf id = 0)
    (h : s.turn k = some s') : Move s k s' := by
  have hopen : ∀ id, (s.workers k).pc.holds = some id → ¬s.Satisfied id := by
    intro id hid hsat
    have := hfresh id hid
    unfold State.Satisfied at hsat
    omega
  unfold State.turn at h
  dsimp only at h
  split at h
  all_goals rename_i hpc
  · exact take_move hpc h
  all_goals rw [hpc] at hsound hopen
  · rename_i id t
    have hk : (s.workers k).pc.holds = some id := by rw [hpc]; rfl
    split at h
    · rename_i hm
      exact absurd (Or.inl hm) hsound
    · cases h
      refine .advance id _ hk rfl ?_ trivial
      rw [hpc]
      simp [Pc.left]
    · rename_i m ms hm
      cases h
      refine .advance id _ hk rfl ?_ ?_
      · rw [hpc]
        exact Nat.lt_succ_self 3
      · have hno := not_and.mp (not_or.mp hsound).2 ⟨m, ms, hm⟩
        exact not_or.mp hno
  · exact absurd hsound not_false
  · rename_i id t
    have hk : (s.workers k).pc.holds = some id := by rw [hpc]; rfl
    split at h
    · rename_i hlog
      exact absurd hlog hsound.1
    · cases h
      refine .advance id _ hk rfl ?_ hsound.2
      rw [hpc]
      exact Nat.lt_succ_self 2
  · rename_i id t
    have hk : (s.workers k).pc.holds = some id := by rw [hpc]; rfl
    split at h
    · rename_i hcensor
      exact absurd hcensor hsound
    · cases h
      refine .advance id _ hk rfl ?_ trivial
      rw [hpc]
      exact Nat.lt_succ_self 1
  · rename_i id flag
    rw [if_neg (hopen id rfl)] at h
    cases h
    exact .complete id _ _ (by rw [hpc]; rfl)
  · rename_i id t
    have hk : (s.workers k).pc.holds = some id := by rw [hpc]; rfl
    split at h
    all_goals
      cases h
      refine .advance id _ hk rfl ?_ trivial
      rw [hpc]
      simp [Pc.left]
  · rename_i id t
    have hk : (s.workers k).pc.holds = some id := by rw [hpc]; rfl
    split at h
    all_goals
      cases h
      refine .advance id _ hk rfl ?_ trivial
      rw [hpc]
      simp [Pc.left]
  · rename_i id flag
    rw [if_neg (hopen id rfl)] at h
    cases h
    exact .complete id _ _ (by rw [hpc]; rfl)
  · rename_i id
    rw [if_neg (hopen id rfl)] at h
    cases h
    exact .complete id _ _ (by rw [hpc]; rfl)
  · cases h

/-! ## A task is in one place -/

/-- Whether a thread holds the task, as a number. -/
def Worker.count (w : Worker) (id : Nat) : Nat := if w.pc.holds = some id then 1 else 0

/-- In how many places a task is: the queues, the threads, the calls on its promise. -/
def State.uses (s : State n) (id : Nat) : Nat :=
  (s.stringTaskQue.map Prod.fst).count id + (s.imageTaskQue.map Prod.fst).count id +
    (∑ k, (s.workers k).count id) + s.attemptsOf id

theorem sum_update (f : Fin n → Worker) (k : Fin n) (w : Worker) (id : Nat) :
    (∑ j, (Function.update f k w j).count id) + (f k).count id =
      (∑ j, (f j).count id) + w.count id := by
  rw [Fintype.sum_eq_add_sum_compl k, Fintype.sum_eq_add_sum_compl k, Function.update_self]
  have hrest : ∑ j ∈ {k}ᶜ, (Function.update f k w j).count id = ∑ j ∈ {k}ᶜ, (f j).count id := by
    refine Finset.sum_congr rfl fun j hj => ?_
    rw [Function.update_of_ne (by simpa using hj)]
  rw [hrest]
  omega

theorem attemptsOf_call (s : State n) (id id' : Nat) (c : Completion) :
    (s.call id c).attemptsOf id' = s.attemptsOf id' + if id = id' then 1 else 0 := by
  simp [State.attemptsOf, State.call, List.count_singleton]

theorem count_of_holds {w : Worker} {id : Nat} (h : w.pc.holds = some id) (id' : Nat) :
    w.count id' = if id = id' then 1 else 0 := by
  unfold Worker.count
  rw [h]
  simp

theorem count_of_none {w : Worker} (h : w.pc.holds = none) (id : Nat) : w.count id = 0 := by
  unfold Worker.count
  rw [h]
  simp

theorem holds_waiting {pc : Pc} (h : pc = .waiting) : pc.holds = none := by
  rw [h]
  rfl

/-- A move takes a task from one place to the next. -/
theorem move_uses (h : Move s k s') (id : Nat) : s'.uses id = s.uses id := by
  unfold State.uses
  cases h with
  | stop hstop hk =>
    have hsum := sum_update s.workers k { s.workers k with pc := .stopped } id
    rw [count_of_none (holds_waiting hk), count_of_none rfl] at hsum
    simp only [State.goto, State.attemptsOf] at hsum ⊢
    omega
  | takeString id' t rest hq hk =>
    have hsum := sum_update s.workers k { s.workers k with pc := .matching id' t } id
    rw [count_of_none (holds_waiting hk), count_of_holds rfl] at hsum
    simp only [State.goto, State.attemptsOf, hq, List.map_cons, List.count_cons,
      beq_iff_eq] at hsum ⊢
    omega
  | takeImage id' t rest hq hk =>
    have hsum := sum_update s.workers k { s.workers k with pc := .hashing id' t } id
    rw [count_of_none (holds_waiting hk), count_of_holds rfl] at hsum
    simp only [State.goto, State.attemptsOf, hq, List.map_cons, List.count_cons,
      beq_iff_eq] at hsum ⊢
    omega
  | advance id' pc hk hpc hleft hsound =>
    have hsum := sum_update s.workers k { s.workers k with pc := pc } id
    rw [count_of_holds hk, count_of_holds (w := { s.workers k with pc := pc }) hpc] at hsum
    simp only [State.goto, State.attemptsOf] at hsum ⊢
    omega
  | complete id' c count hk =>
    have hsum := sum_update s.workers k ⟨.waiting, count⟩ id
    rw [count_of_holds hk, count_of_none rfl] at hsum
    have hcall := attemptsOf_call s id' id c
    simp only [State.goto, State.call, State.attemptsOf] at hsum hcall ⊢
    omega

theorem enqueue_uses (s : State n) (t : Task) (id : Nat) :
    (s.enqueue t).uses id = s.uses id + if s.nextId = id then 1 else 0 := by
  cases t with
  | string t =>
    simp only [State.uses, State.enqueue, State.attemptsOf, List.map_append, List.map_cons,
      List.map_nil, List.count_append, List.count_singleton, beq_iff_eq]
    omega
  | image t =>
    simp only [State.uses, State.enqueue, State.attemptsOf, List.map_append, List.map_cons,
      List.map_nil, List.count_append, List.count_singleton, beq_iff_eq]
    omega

/-! ## The invariant -/

/-- The states reached while all tasks are of `T` and sound for the threads there are. -/
structure Inv (T : Set Task) (s : State n) : Prop where
  running : s.terminated = false
  uses : ∀ id, s.uses id = if id < s.nextId then 1 else 0
  queue : ∀ p ∈ s.stringTaskQue, Task.string p.2 ∈ T
  sound : ∀ k, (s.workers k).pc.Sound
  looping : ∀ k, (s.workers k).pc = .stopped → s.stopRequested = true

variable {T : Set Task}

theorem inv_start (T : Set Task) (n : Nat) : Inv T (start n) := by
  refine ⟨rfl, fun id => ?_, fun p hp => absurd hp List.not_mem_nil, fun k => trivial,
    fun k hk => absurd hk (by simp [start])⟩
  simp [State.uses, start, State.attemptsOf, Worker.count, Pc.holds]

theorem Inv.uses_le (h : Inv T s) (id : Nat) : s.uses id ≤ 1 := by
  rw [h.uses]
  split <;> omega

theorem count_le_sum (f : Fin n → Worker) (k : Fin n) (id : Nat) :
    (f k).count id ≤ ∑ j, (f j).count id :=
  Finset.single_le_sum (f := fun j => (f j).count id) (fun _ _ => Nat.zero_le _)
    (Finset.mem_univ k)

/-- A task that a thread holds has no call on its promise yet. -/
theorem Inv.fresh (h : Inv T s) {id : Nat} (hk : (s.workers k).pc.holds = some id) :
    s.attemptsOf id = 0 := by
  have hle := h.uses_le id
  have hsum := count_le_sum s.workers k id
  rw [count_of_holds hk, if_pos rfl] at hsum
  unfold State.uses at hle
  omega

theorem sound_update {f : Fin n → Worker} {P : Worker → Prop} (hf : ∀ j, P (f j)) (k : Fin n)
    {w : Worker} (hw : P w) (j : Fin n) : P (Function.update f k w j) := by
  by_cases hj : j = k
  · rw [hj, Function.update_self]
    exact hw
  · rw [Function.update_of_ne hj]
    exact hf j

theorem Inv.move (hT : ∀ t ∈ T, ¬t.Faulty) (h : Inv T s) (hm : Move s k s') : Inv T s' := by
  have huses := move_uses hm
  have hL : ∀ (w : Worker), w.pc ≠ .stopped → ∀ j, (Function.update s.workers k w j).pc = .stopped →
      s.stopRequested = true :=
    fun w hw => sound_update (P := fun w => w.pc = .stopped → s.stopRequested = true) h.looping k
      fun hs => absurd hs hw
  cases hm with
  | stop hstop hk =>
    exact ⟨h.running, fun id => (huses id).trans (h.uses id), h.queue,
      sound_update (P := fun w => w.pc.Sound) h.sound k trivial, fun _ _ => hstop⟩
  | takeString id t rest hq hk =>
    have hmem : ∀ p ∈ (id, t) :: rest, Task.string p.2 ∈ T := hq ▸ h.queue
    refine ⟨h.running, fun id => (huses id).trans (h.uses id),
      fun p hp => hmem p (List.mem_cons_of_mem _ hp), ?_, hL _ (by simp)⟩
    exact sound_update (P := fun w => w.pc.Sound) h.sound k (hT _ (hmem _ List.mem_cons_self))
  | takeImage id t rest hq hk =>
    exact ⟨h.running, fun id => (huses id).trans (h.uses id), h.queue,
      sound_update (P := fun w => w.pc.Sound) h.sound k trivial, hL _ (by simp)⟩
  | advance id pc hk hpc hleft hsound =>
    refine ⟨h.running, fun id => (huses id).trans (h.uses id), h.queue,
      sound_update (P := fun w => w.pc.Sound) h.sound k hsound, hL _ ?_⟩
    intro hs
    have hs' : pc = .stopped := hs
    rw [hs'] at hpc
    cases hpc
  | complete id c count hk =>
    exact ⟨h.running, fun id => (huses id).trans (h.uses id), h.queue,
      sound_update (P := fun w => w.pc.Sound) h.sound k trivial, hL _ (by simp)⟩

theorem Inv.enqueue (h : Inv T s) {t : Task} (ht : t ∈ T) : Inv T (s.enqueue t) := by
  have huses : ∀ id, (s.enqueue t).uses id = if id < s.nextId + 1 then 1 else 0 := by
    intro id
    rw [enqueue_uses, h.uses]
    by_cases hlt : id < s.nextId
    · rw [if_pos hlt, if_neg (by omega), if_pos (by omega)]
    · by_cases heq : s.nextId = id
      · rw [if_neg hlt, if_pos heq, if_pos (by omega)]
      · rw [if_neg hlt, if_neg heq, if_neg (by omega)]
  cases t with
  | string t =>
    refine ⟨h.running, huses, fun p hp => ?_, h.sound, h.looping⟩
    have hp' : p ∈ s.stringTaskQue ++ [(s.nextId, t)] := hp
    obtain hp₁ | hp₁ := List.mem_append.mp hp'
    · exact h.queue p hp₁
    · rw [List.mem_singleton.mp hp₁]
      exact ht
  | image t => exact ⟨h.running, huses, h.queue, h.sound, h.looping⟩

theorem Inv.turn_move (h : Inv T s) (hs : s.turn k = some s') : Move s k s' :=
  Workers.turn_move (h.sound k) (fun _ hid => h.fresh hid) hs

theorem step_turn (h : s.terminated = false) : step s (.turn k) = s.turn k := by
  unfold step
  rw [h]
  rfl

/-- One step, of whatever event. -/
theorem inv_step (hT : Fin n → ∀ t ∈ T, ¬t.Faulty) (h : Inv T s) {e : Event n} (he : e.From T)
    (hs : step s e = some s') : Inv T s' := by
  unfold step at hs
  rw [if_neg (by rw [h.running]; exact Bool.false_ne_true)] at hs
  cases e with
  | enqueue t =>
    cases hs
    exact h.enqueue he
  | turn k => exact h.move (hT k) (h.turn_move hs)
  | requestStop =>
    cases hs
    exact ⟨h.running, h.uses, h.queue, h.sound, fun _ _ => rfl⟩

theorem inv_run (hT : Fin n → ∀ t ∈ T, ¬t.Faulty) (h : Inv T s) {es : List (Event n)}
    (he : ∀ e ∈ es, e.From T) (hr : run step s es = some s') : Inv T s' :=
  run_invariant_along (I := Inv T) (P := fun _ e => Event.From T e)
    (fun _ _ _ h he hs => inv_step hT h he hs) h (along_of_forall he) hr

/-! ## Progress -/

theorem left_pos {pc : Pc} (hsound : pc.Sound) (h : pc.holds ≠ none) : 0 < pc.left := by
  cases pc with
  | caught id => exact absurd hsound not_false
  | waiting | stopped => exact absurd rfl h
  | matching | logging | censoring | answering => exact Nat.succ_pos _
  | hashing | blurring | answeringImage | caughtImage => exact Nat.succ_pos _

theorem left_le (pc : Pc) : pc.left ≤ 4 := by
  cases pc <;> simp [Pc.left]

/-- A thread that holds a task can go on. -/
theorem turn_some (s : State n) (h : (s.workers k).pc.holds ≠ none) :
    ∃ s', s.turn k = some s' := by
  unfold State.turn
  dsimp only
  split
  all_goals rename_i hpc
  · exact absurd (holds_waiting hpc) h
  · split <;> exact ⟨_, rfl⟩
  · split <;> exact ⟨_, rfl⟩
  · split <;> exact ⟨_, rfl⟩
  · split <;> exact ⟨_, rfl⟩
  · split <;> exact ⟨_, rfl⟩
  · split <;> exact ⟨_, rfl⟩
  · split <;> exact ⟨_, rfl⟩
  · split <;> exact ⟨_, rfl⟩
  · split <;> exact ⟨_, rfl⟩
  · exact absurd (by rw [hpc]; rfl) h

/-- A call on a promise stays. -/
theorem move_attemptsOf (h : Move s k s') (id : Nat) : s.attemptsOf id ≤ s'.attemptsOf id := by
  cases h with
  | stop | takeString | takeImage | advance => exact Nat.le_refl _
  | complete id' c count hk =>
    have := attemptsOf_call s id' id c
    show _ ≤ (s.call id' c).attemptsOf id
    omega

theorem enqueue_workers (s : State n) (t : Task) : (s.enqueue t).workers = s.workers := by
  cases t <;> rfl

theorem enqueue_attemptsOf (s : State n) (t : Task) (id : Nat) :
    (s.enqueue t).attemptsOf id = s.attemptsOf id := by
  cases t <;> rfl

/-- Every step of a held task brings it nearer to its completion, when the thread takes it, and
    leaves it where it is otherwise. -/
theorem Inv.approach (h : Inv T s) {id : Nat} (hk : (s.workers k).pc.holds = some id)
    {e : Event n} (hs : step s e = some s') :
    s'.attemptsOf id = 1 ∨ (s'.workers k).pc.holds = some id ∧
      (s'.workers k).pc.left + (if e.isTurn k then 1 else 0) ≤ (s.workers k).pc.left := by
  unfold step at hs
  rw [if_neg (by rw [h.running]; exact Bool.false_ne_true)] at hs
  cases e with
  | enqueue t =>
    cases hs
    right
    rw [enqueue_workers]
    exact ⟨hk, Nat.le_refl _⟩
  | requestStop =>
    cases hs
    exact .inr ⟨hk, Nat.le_refl _⟩
  | turn j =>
    have hmove := h.turn_move hs
    by_cases hj : j = k
    · subst hj
      cases hmove with
      | stop _ hw | takeString _ _ _ _ hw | takeImage _ _ _ _ hw =>
        rw [holds_waiting hw] at hk
        cases hk
      | advance id' pc hk' hpc hleft hsound =>
        right
        show (Function.update s.workers j _ j).pc.holds = some id ∧ _
        simp only [State.goto, Function.update_self, Event.isTurn]
        rw [← hk, hk']
        exact ⟨hpc, by simpa using hleft⟩
      | complete id' c count hk' =>
        left
        obtain rfl := Option.some.inj (hk.symm.trans hk')
        show (s.call id c).attemptsOf id = 1
        rw [attemptsOf_call, h.fresh hk, if_pos rfl]
    · right
      have hother : s'.workers k = s.workers k := by
        cases hmove <;> exact Function.update_of_ne (Ne.symm hj) ..
      rw [hother]
      refine ⟨hk, ?_⟩
      simp [Event.isTurn, hj]

theorem Inv.attemptsOf_le (h : Inv T s) (id : Nat) : s.attemptsOf id ≤ 1 := by
  have := h.uses_le id
  unfold State.uses at this
  omega

theorem Inv.attemptsOf_mono (h : Inv T s) {e : Event n} (hs : step s e = some s')
    (id : Nat) : s.attemptsOf id ≤ s'.attemptsOf id := by
  unfold step at hs
  rw [if_neg (by rw [h.running]; exact Bool.false_ne_true)] at hs
  cases e with
  | enqueue t =>
    cases hs
    rw [enqueue_attemptsOf]
  | requestStop =>
    cases hs
    exact Nat.le_refl _
  | turn j => exact move_attemptsOf (h.turn_move hs) id

/-- Enough turns of its thread complete a task, whatever happens in between. -/
theorem Inv.completes (hT : Fin n → ∀ t ∈ T, ¬t.Faulty) {id : Nat} {es : List (Event n)}
    (h : Inv T s) (he : ∀ e ∈ es, e.From T) (hr : run step s es = some s')
    (hk : s.attemptsOf id = 1 ∨ (s.workers k).pc.holds = some id ∧
      (s.workers k).pc.left ≤ es.countP (Event.isTurn k)) : s'.attemptsOf id = 1 := by
  induction es generalizing s with
  | nil =>
    cases hr
    obtain hdone | ⟨hk, hleft⟩ := hk
    · exact hdone
    · have := left_pos (h.sound k) (by rw [hk]; exact Option.some_ne_none id)
      simp only [List.countP_nil] at hleft
      omega
  | cons e es ih =>
    obtain ⟨t, ht, hr'⟩ := run_cons hr
    have hinv := inv_step hT h (he e List.mem_cons_self) ht
    refine ih hinv (fun e' he' => he e' (List.mem_cons_of_mem e he')) hr' ?_
    obtain hdone | ⟨hk, hleft⟩ := hk
    · have := h.attemptsOf_mono ht id
      have := hinv.attemptsOf_le id
      exact .inl (by omega)
    · refine (h.approach hk ht).imp_right fun ⟨hk', hless⟩ => ⟨hk', ?_⟩
      rw [List.countP_cons] at hleft
      omega

theorem Inv.served (hT : Fin n → ∀ t ∈ T, ¬t.Faulty) (h : Inv T s) : Served T s := by
  refine ⟨h.running, h.attemptsOf_le, fun id hid hq => ?_, h.looping, fun k hk => ?_,
    fun k id hk es s' he hr hturns => ?_⟩
  · have huses := h.uses id
    rw [if_pos hid] at huses
    by_cases hheld : ∃ k, (s.workers k).pc.holds = some id
    · exact .inr hheld
    · left
      have hsum : ∑ k, (s.workers k).count id = 0 :=
        Finset.sum_eq_zero fun k _ => if_neg (not_exists.mp hheld k)
      obtain ⟨hstring, himage⟩ := not_or.mp hq
      unfold State.uses at huses
      rw [List.count_eq_zero_of_not_mem hstring, List.count_eq_zero_of_not_mem himage] at huses
      omega
  · rw [step_turn h.running]
    exact turn_some s hk
  · exact h.completes hT he hr (.inr ⟨hk, (left_le _).trans hturns⟩)

/-! ## The tasks that may be submitted -/

/-- One thread is busy with the first task, after some calls on its promise. -/
def busy (k : Fin n) (pc : Pc) (attempts : List (Nat × Completion)) : State n :=
  { start n with
    workers := Function.update (start n).workers k ⟨pc, 0⟩, nextId := 1, attempts := attempts }

theorem busy_workers (k : Fin n) (pc : Pc) (attempts : List (Nat × Completion)) :
    (busy k pc attempts).workers k = ⟨pc, 0⟩ :=
  Function.update_self ..

theorem busy_goto (k : Fin n) (pc pc' : Pc) (attempts : List (Nat × Completion)) :
    (busy k pc attempts).goto k ⟨pc', 0⟩ = busy k pc' attempts := by
  simp only [busy, State.goto, Function.update_idem]

/-- The first task is submitted and dequeued, and the turns that are left run on from there. -/
theorem run_busy (k : Fin n) (t : StringTask) (turns : Nat) :
    run step (start n) (.enqueue (.string t) :: List.replicate (turns + 1) (.turn k)) =
      run step (busy k (.matching 0 t) []) (List.replicate turns (.turn k)) :=
  rfl

theorem busy_turn (k : Fin n) (pc : Pc) (attempts : List (Nat × Completion)) :
    step (busy k pc attempts) (.turn k) = (busy k pc attempts).turn k :=
  step_turn rfl

/-- A task whose search throws: the handler calls the promise, and so does the code behind it. -/
theorem throws_in_matching (k : Fin n) {t : StringTask} (h : t.getMatchedInfo = none) :
    (run step (busy k (.matching 0 t) []) (List.replicate 3 (.turn k))).map State.terminated =
      some true := by
  have hmatching : step (busy k (.matching 0 t) []) (.turn k) = some (busy k (.caught 0) []) := by
    rw [busy_turn, State.turn, busy_workers]
    dsimp only
    rw [h, busy_goto]
  have hcaught : step (busy k (.caught 0) []) (.turn k) =
      some (busy k (.answering 0 false) [(0, .setException)]) := by
    rw [busy_turn, State.turn, busy_workers]
    exact congrArg some (busy_goto k _ _ _)
  change (run step _ [.turn k, .turn k, .turn k]).map _ = _
  rw [run_step hmatching, run_step hcaught, run_singleton, busy_turn, State.turn, busy_workers]
  rfl

/-- A task with a match whose logging or censoring throws. -/
theorem throws_behind_matching (k : Fin n) {t : StringTask} {m : MatchedInfo}
    {ms : List MatchedInfo} (h : t.getMatchedInfo = some (m :: ms))
    (hthrows : t.log = none ∨ t.censor = none) :
    ∃ turns : Nat, (run step (busy k (.matching 0 t) []) (List.replicate turns (.turn k))).map
      State.terminated = some true := by
  have hmatching : step (busy k (.matching 0 t) []) (.turn k) =
      some (busy k (.logging 0 t) []) := by
    rw [busy_turn, State.turn, busy_workers]
    dsimp only
    rw [h]
    exact congrArg some (busy_goto k _ _ _)
  cases hlog : t.log with
  | none =>
    refine ⟨2, ?_⟩
    change (run step _ [.turn k, .turn k]).map _ = _
    rw [run_step hmatching, run_singleton, busy_turn, State.turn, busy_workers]
    dsimp only
    rw [hlog]
    rfl
  | some =>
    have hlogging : step (busy k (.logging 0 t) []) (.turn k) =
        some (busy k (.censoring 0 t) []) := by
      rw [busy_turn, State.turn, busy_workers]
      dsimp only
      rw [hlog]
      exact congrArg some (busy_goto k _ _ _)
    refine ⟨3, ?_⟩
    change (run step _ [.turn k, .turn k, .turn k]).map _ = _
    rw [run_step hmatching, run_step hlogging, run_singleton, busy_turn, State.turn, busy_workers]
    dsimp only
    rw [hthrows.resolve_left (by simp [hlog])]
    rfl

/-- A faulty task ends the program, in the hands of whatever thread. -/
theorem faulty_ends (k : Fin n) {t : StringTask} (h : (Task.string t).Faulty) :
    ∃ turns : Nat, (run step (start n) (.enqueue (.string t) :: List.replicate turns (.turn k))).map
      State.terminated = some true := by
  obtain hnone | ⟨⟨m, ms, hm⟩, hthrows⟩ := h
  · refine ⟨4, ?_⟩
    rw [run_busy]
    exact throws_in_matching k hnone
  · obtain ⟨turns, hends⟩ := throws_behind_matching k hm hthrows
    refine ⟨turns + 1, ?_⟩
    rw [run_busy]
    exact hends

/-- For any number of threads and every set of tasks: in all interleavings of submissions, turns
    and a request to stop every dequeued task completes its promise exactly once and no exception
    leaves the loop, exactly when there is no thread or no task of the set is faulty. -/
theorem promises_completed_iff (n : Nat) (T : Set Task) :
    (∀ es s, (∀ e ∈ es, Event.From T e) → run step (start n) es = some s → Served T s) ↔
      n = 0 ∨ ∀ t ∈ T, ¬t.Faulty := by
  constructor
  · intro h
    rcases Nat.eq_zero_or_pos n with hn | hn
    · exact .inl hn
    right
    intro t ht hfault
    cases t with
    | image t => exact hfault
    | string t =>
      obtain ⟨turns, hends⟩ := faulty_ends ⟨0, hn⟩ hfault
      obtain ⟨s, hrun, hend⟩ := Option.map_eq_some_iff.mp hends
      have hserved := h _ s (fun e he => ?_) hrun
      · rw [hserved.running] at hend
        cases hend
      · obtain rfl | he := List.mem_cons.mp he
        · exact ht
        · rw [(List.mem_replicate.mp he).2]
          trivial
  · intro h es s he hr
    have hT : Fin n → ∀ t ∈ T, ¬t.Faulty := by
      intro k
      exact h.resolve_left (by have := k.isLt; omega)
    exact (inv_run hT (inv_start T n) he hr).served hT

/-- A string whose search throws, as it does with `std::bad_alloc` when the vector of matches cannot
    grow. -/
def throwingTask : StringTask := ⟨none, false, none, some (), some ()⟩

/-- The handler completes the promise, the code behind it tries again, and the program ends. -/
theorem throwingTask_ends : ∃ s : State 1,
    run step (start 1) (.enqueue (.string throwingTask) :: List.replicate 4 (.turn 0)) = some s ∧
      s.attempts = [(0, .setException), (0, .setValue false)] ∧ s.terminated = true ∧
      ¬Served Set.univ s := by
  refine ⟨_, rfl, rfl, rfl, fun h => ?_⟩
  exact absurd h.running Bool.noConfusion

end CdsGuard.Gateway.Workers
