import CdsGuard.Gateway.System

/-
  `g_active_connections`. The accept loop counts a connection up, the last line of
  `FileSinkSession` counts it down; the two early returns of `FileSinkSession` and an exception
  in `ControlSession` before it end the thread without counting down.

  Proved: over every run, the counter is the number of running sessions plus the number of
  exits of those three kinds (`activeConnections_eq`), so it equals the number of running
  sessions exactly in the runs without such an exit (`activeConnections_eq_running_iff`).
-/

namespace CdsGuard.Gateway

open CdsGuard.Lib

/-- The two early returns of `FileSinkSession`. -/
def returnsEarly {P : Type} : Except SinkStop P → Bool
  | .error .wrongMagic => true
  | .error .invalidTag => true
  | _ => false

/-- An exit of a session that leaves the counter as it is. -/
def Event.leaks : Event → Bool
  | .controlThrows _ => true
  | .endSink _ r => returnsEarly r
  | _ => false

/-- The number of such exits in a run. -/
def leaks (es : List Event) : Nat := es.countP Event.leaks

theorem leaks_snoc (es : List Event) (e : Event) :
    leaks (es ++ [e]) = leaks es + if e.leaks then 1 else 0 := by
  rw [leaks, leaks, List.countP_append, List.countP_singleton]

theorem decSize_of_pos {n : Nat} (h : 0 < n) : decSize n = n - 1 := by
  rw [decSize, if_neg (by omega)]

@[simp] theorem pushTask_activeConnections {P : Type} (g : GatewayState P) (p : P) :
    (g.pushTask p).activeConnections = g.activeConnections := by
  unfold GatewayState.pushTask
  split <;> rfl

theorem endSession_activeConnections {P : Type} (g : GatewayState P)
    (r : Except SinkStop P) (h : 0 < g.activeConnections) :
    (g.endSession r).activeConnections =
      if returnsEarly r then g.activeConnections else g.activeConnections - 1 := by
  cases r with
  | ok p => simp [GatewayState.endSession, GatewayState.release, decSize_of_pos h, returnsEarly]
  | error e =>
    cases e <;>
      simp [GatewayState.endSession, GatewayState.release, decSize_of_pos h, returnsEarly]

theorem returnsEarly_map {P Q : Type} (f : P → Q) (r : Except SinkStop P) :
    returnsEarly (r.map f) = returnsEarly r := by
  cases r with
  | ok p => rfl
  | error e => cases e <;> rfl

/-- One step moves the counter and the number of running sessions together, up to a leak. -/
theorem step_balance {s s' : State} {e : Event} (h : step s e = some s')
    (hle : s.running ≤ s.shared.activeConnections) :
    s'.shared.activeConnections + s.running =
      s.shared.activeConnections + s'.running + if e.leaks then 1 else 0 := by
  cases step_cases h with
  | accept =>
    unfold State.accept State.running
    split
    · simp [Event.leaks]
    · simp [Event.leaks]
      omega
  | controlThrows id hid =>
    have hlen := List.length_erase_of_mem hid
    have hpos := List.length_pos_of_mem hid
    simp only [State.running, Event.leaks, if_true]
    omega
  | startSink id hid =>
    have hlen := List.length_erase_of_mem hid
    have hpos := List.length_pos_of_mem hid
    simp only [State.running, Event.leaks, List.length_append, List.length_singleton]
    simp
    omega
  | endSink id r hid =>
    have hlen := List.length_erase_of_mem hid
    have hpos := List.length_pos_of_mem hid
    have hactive : 0 < s.shared.activeConnections := by
      unfold State.running at hle
      omega
    change (s.shared.endSession _).activeConnections + _ =
      _ + _ + if returnsEarly r = true then 1 else 0
    rw [endSession_activeConnections _ _ hactive, returnsEarly_map]
    simp only [State.running, hlen]
    by_cases hr : returnsEarly r = true
    · simp only [if_pos hr]
      omega
    · simp only [if_neg hr]
      omega
  | setBuildFlag b => simp [State.running, Event.leaks]
  | wakeTake job rest _ _ => simp [State.take, State.running, Event.leaks]
  | wakePoll _ _ => simp [State.running, Event.leaks]
  | enqueue atEnd ts t _ _ _ => simp [State.running, Event.leaks]
  | relockEnd _ => simp [State.running, Event.leaks]
  | relockTake job rest _ _ => simp [State.take, State.running, Event.leaks]
  | taskDone id i t _ _ => simp [State.running, Event.leaks]
  | pollEnd i _ _ => simp [State.running, Event.leaks]
  | pollVisit i t f _ _ _ =>
    obtain ⟨hshared, hcontrol, hsinking, -⟩ := visit_frame s i t f
    simp [State.running, Event.leaks, hshared, hcontrol, hsinking]

/-- No step takes the counter past the limit. -/
theorem step_activeConnections_le {s s' : State} {e : Event} (h : step s e = some s')
    (hle : s.running ≤ s.shared.activeConnections)
    (hmax : s.shared.activeConnections ≤ MAX_CONNECTIONS) :
    s'.shared.activeConnections ≤ MAX_CONNECTIONS := by
  cases step_cases h with
  | accept =>
    unfold State.accept
    split
    · exact hmax
    · simp only
      omega
  | endSink id r hid =>
    have hpos := List.length_pos_of_mem hid
    have hactive : 0 < s.shared.activeConnections := by
      unfold State.running at hle
      omega
    simp only [endSession_activeConnections _ _ hactive]
    split <;> omega
  | controlThrows id hid => exact hmax
  | startSink id hid => exact hmax
  | setBuildFlag b => exact hmax
  | wakeTake job rest _ _ => exact hmax
  | wakePoll _ _ => exact hmax
  | enqueue atEnd ts t _ _ _ => exact hmax
  | relockEnd _ => exact hmax
  | relockTake job rest _ _ => exact hmax
  | taskDone id i t _ _ => exact hmax
  | pollEnd i _ _ => exact hmax
  | pollVisit i t f _ _ _ =>
    rw [(visit_frame s i t f).1]
    exact hmax

/-- The counter over a run: the running sessions and the leaks so far. -/
theorem activeConnections_eq {es : List Event} {s : State} (h : run step State.start es = some s) :
    s.shared.activeConnections = s.running + leaks es ∧
      s.shared.activeConnections ≤ MAX_CONNECTIONS := by
  refine run_history (I := fun hist t => t.shared.activeConnections = t.running + leaks hist ∧
    t.shared.activeConnections ≤ MAX_CONNECTIONS) h ⟨rfl, by decide⟩ ?_
  rintro hist t e t' ⟨heq, hmax⟩ ht
  have hle : t.running ≤ t.shared.activeConnections := by omega
  have hbal := step_balance ht hle
  refine ⟨?_, step_activeConnections_le ht hle hmax⟩
  rw [leaks_snoc]
  omega

/-- The counter is the number of running sessions, with what follows from it: it stays within
    the limit, and once every session has ended it is 0 and the accept loop, unless the task
    list is full, accepts the next connection. -/
def CountsRunning (s : State) : Prop :=
  s.shared.activeConnections = s.running ∧ s.shared.activeConnections ≤ MAX_CONNECTIONS ∧
    (s.running = 0 → s.shared.activeConnections = 0 ∧
      (s.shared.receiveTaskList.length < MAX_TASKS →
        (step s .accept).map State.running = some 1))

/-- The counter equals the number of running sessions in every state of a run exactly when no
    session of the run ends by a wrong magic number, by an invalid tag or by an exception before
    `FileSinkSession`. -/
theorem activeConnections_eq_running_iff {es : List Event} {s : State}
    (h : run step State.start es = some s) :
    (∀ pre post t, es = pre ++ post → run step State.start pre = some t → CountsRunning t) ↔
      ∀ e ∈ es, e.leaks = false := by
  constructor
  · intro hall e he
    have hcount := (hall es [] s (by simp) h).1
    have hzero : leaks es = 0 := by
      have := (activeConnections_eq h).1
      omega
    have := List.countP_eq_zero.mp hzero e he
    simpa using this
  · intro hno pre post t hes ht
    obtain ⟨heq, hmax⟩ := activeConnections_eq ht
    have hzero : leaks pre = 0 := by
      refine List.countP_eq_zero.mpr fun e he => ?_
      simp [hno e (by rw [hes]; exact List.mem_append_left post he)]
    have hcount : t.shared.activeConnections = t.running := by omega
    refine ⟨hcount, hmax, fun hidle => ⟨by omega, fun hroom => ?_⟩⟩
    have hactive : t.shared.activeConnections = 0 := by omega
    have hok : ¬ (t.shared.activeConnections ≥ MAX_CONNECTIONS ∨
        t.shared.receiveTaskList.length ≥ MAX_TASKS) := by
      rw [hactive]
      simp only [MAX_CONNECTIONS]
      omega
    simp only [step, State.accept, if_neg hok, Option.map_some, State.running,
      List.length_append, List.length_singleton]
    unfold State.running at hidle
    rw [show t.control.length + 1 + t.sinking.length = 1 by omega]

/-- A session that uploads nothing but rubbish: accepted, started, ended by its magic number. -/
def badMagicRun : List Event := [.accept, .startSink 0, .endSink 0 (.error .wrongMagic)]

/-- Two connections are accepted; one session hands its payload over, and the other is cut off
    while it reads its upload. -/
def endedRun : List Event :=
  [.accept, .startSink 0, .accept, .endSink 0 (.ok (zeroPayload, ⟨some [], noArchive⟩)),
    .startSink 1, .endSink 1 (.error .exception)]

/-- Each session that ends is taken off the counter, in whatever way it ended. -/
theorem activeConnections_eq_running_accept :
    (∃ s, run step State.start endedRun = some s ∧ CountsRunning s ∧ s.running = 0) ∧
    ∃ s, run step State.start (endedRun.take 4) = some s ∧ CountsRunning s ∧ s.running = 1 := by
  have h : run step State.start endedRun = some _ := rfl
  have hcounts := (activeConnections_eq_running_iff h).mpr
    (by simp [endedRun, Event.leaks, returnsEarly])
  exact ⟨⟨_, rfl, hcounts endedRun [] _ rfl rfl, rfl⟩,
    ⟨_, rfl, hcounts (endedRun.take 4) (endedRun.drop 4) _ rfl rfl, rfl⟩⟩

/-- After one wrong magic number no session runs and one connection is still counted; after four
    the accept loop accepts no more. -/
theorem badMagicRun_leaks :
    (∃ s, run step State.start badMagicRun = some s ∧ s.running = 0 ∧
      s.shared.activeConnections = 1 ∧ ¬ CountsRunning s) ∧
    (∃ s, run step State.start [.accept, .startSink 0, .endSink 0 (.error .wrongMagic),
        .accept, .startSink 1, .endSink 1 (.error .wrongMagic),
        .accept, .startSink 2, .endSink 2 (.error .wrongMagic),
        .accept, .startSink 3, .endSink 3 (.error .wrongMagic)] = some s ∧
      s.running = 0 ∧ s.shared.receiveTaskList = [] ∧
      (step s .accept).map State.running = some 0) := by
  refine ⟨⟨_, rfl, rfl, rfl, ?_⟩, _, rfl, rfl, rfl, rfl⟩
  intro hcount
  exact absurd hcount.1 (by decide)

end CdsGuard.Gateway
