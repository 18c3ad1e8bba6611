import CdsGuard.Gateway.FileSinkSession
import CdsGuard.Lib.Transition

/-
  The thread of `CdsGatewayFilteringProcessingLoop`, the sessions and `main`, step by step, as far
  as the end of the gateway goes: the wait of the thread for `g_task_cv`, its two loops, and what
  it waits for inside them. It tests its stop token at the top of the loop only. Before it comes
  there it can be held up: `enqueue_censor_string` waits for `build_flag_`, the callback for a
  guard, the destructors of its futures for the documents still in work; and `future.get()` can
  throw out of it, which ends the process. Left out: exhausted memory or threads.

  Proved: what one step of the filtering does to what is still before the thread (`moves_of_step`),
  that nothing new comes into its way (`Moves.unhindered`), and that the way gets shorter
  (`Moves.stepsLeft_lt`).
-/

namespace CdsGuard.Gateway

open CdsGuard.Lib

/-- What the filtering of a payload has to wait for, as it goes on. -/
inductive Wait where
  /-- `enqueue_censor_string` waits for `build_flag_`. -/
  | build
  /-- A worker waits for the answer of the deep-learning service. -/
  | analysis
  /-- Its thread goes on, or a worker does: this always comes. -/
  | turn
  deriving DecidableEq

/-- A payload on its way through the filtering thread: what `is_file` and `is_txt_file` decide,
    and what will come of its filtering. Its future is ready when nothing is left to wait for. -/
structure ClosingTask where
  /-- It goes to `enqueue_censor_document_file`, not to `enqueue_censor_string`. -/
  isDocument : Bool
  /-- Its future is to hold an exception. -/
  throws : Bool
  waits : List Wait
  deriving DecidableEq

/-- What the filtering depends on and does not bring about. -/
structure Outside where
  /-- `build_flag_`. -/
  buildFlag : Bool
  /-- Deep learning is off, or its service answers. -/
  analysisAnswers : Bool
  /-- A guard can be found, takes a connection and reads from it. -/
  guardServes : Bool
  deriving DecidableEq

/-- Where the filtering thread is. -/
inductive LoopPc where
  /-- In `FilteringInterface::instance().get()`. -/
  | starting
  /-- At `while (!stoken.stop_requested())`. -/
  | top
  | locking
  /-- It holds the mutex and evaluates the condition of `wait`. -/
  | testing
  /-- The condition was false; the mutex is still held. -/
  | dozing
  | sleeping
  /-- Notified: it has to take the mutex again. -/
  | woken
  /-- At `while (receive_task_it != g_receive_task_list.end())`, with the mutex. -/
  | draining
  /-- Without the mutex, in one of the two `enqueue` functions. -/
  | enqueueing (t : ClosingTask)
  | relocking
  /-- At `while (censor_task_it != censor_task_list.end())`. -/
  | polling
  /-- In `callback_func`. -/
  | dispatching
  /-- The local lists are destroyed. -/
  | leaving
  | returned
  /-- An exception has left the thread: `std::terminate`. -/
  | terminated
  deriving DecidableEq

inductive MainPc where
  | running
  /-- After `request_stop`. -/
  | stopping
  /-- After `CdsGatewayWakeupFilteringProcessingLoop`. -/
  | joining
  deriving DecidableEq

structure Closing where
  stopRequested : Bool
  outside : Outside
  /-- `g_receive_task_list`. -/
  received : List ClosingTask
  /-- The part of `censor_task_list`, with its futures, before `censor_task_it`. -/
  passed : List ClosingTask
  /-- The part from `censor_task_it` on; outside of the second loop the whole list. -/
  rest : List ClosingTask
  loop : LoopPc
  main : MainPc
  deriving DecidableEq

inductive ClosingEvent where
  | begin
  | check
  | lock
  | test
  | sleep
  | relock
  | drain
  | enqueue
  | lockAgain
  | visit
  /-- `callback_func` returns: the payload is sent, or an exception is caught there. -/
  | dispatched (sent : Bool)
  /-- A round of `while (ec)` in the callback, or of the search for a guard. -/
  | retry
  | leave
  /-- The filtering of the `k`-th payload before the iterator, or from it on, goes on. -/
  | advance (before : Bool) (k : Nat)
  /-- A session puts a payload into the list, under the mutex, and notifies. -/
  | deliver (t : ClosingTask)
  | spuriousWakeup
  | change (o : Outside)
  | requestStop
  | notify
  deriving DecidableEq

/-- The steps of the filtering: of its thread, of its workers and of the threads of documents. -/
def ClosingEvent.OfFiltering : ClosingEvent → Prop
  | deliver _ | spuriousWakeup | change _ | requestStop | notify => False
  | _ => True

def Outside.passes (o : Outside) : Wait → Bool
  | .build => o.buildFlag
  | .analysis => o.analysisAnswers
  | .turn => true

/-- The `k`-th payload has waited for the first thing that it has to wait for. -/
def advanceAt (o : Outside) : List ClosingTask → Nat → Option (List ClosingTask)
  | [], _ => none
  | t :: l, 0 =>
    match t.waits with
    | [] => none
    | w :: ws => if o.passes w then some ({ t with waits := ws } :: l) else none
  | t :: l, k + 1 => (advanceAt o l k).map (t :: ·)

namespace Closing

def start : Closing where
  stopRequested := false
  outside := ⟨false, false, false⟩
  received := []
  passed := []
  rest := []
  loop := .starting
  main := .running

/-- `notify_all` reaches a thread that sleeps, and no other. -/
def notified (pc : LoopPc) : LoopPc := if pc = .sleeping then .woken else pc

/-- The filtering thread holds `g_task_mutex` and does not let it go before its next step. -/
def holdsMutex (pc : LoopPc) : Bool := pc = .testing || pc = .dozing || pc = .draining

/-- One round of the second loop, as far as the callback, or its end. -/
def visit (s : Closing) : Closing :=
  match s.rest with
  | [] => { s with rest := s.passed, passed := [], loop := .top }
  | t :: r =>
    -- `wait_for(0)` does not find the future ready
    if t.waits ≠ [] then { s with passed := s.passed ++ [t], rest := r }
    -- only the futures of documents are asked for their value
    else if t.isDocument && t.throws then { s with loop := .terminated }
    else { s with rest := r, loop := .dispatching }

def step (s : Closing) : ClosingEvent → Option Closing
  | .begin =>
    if s.loop = .starting ∧ s.outside.buildFlag then some { s with loop := .top } else none
  | .check =>
    if s.loop = .top then some { s with loop := if s.stopRequested then .leaving else .locking }
    else none
  | .lock => if s.loop = .locking then some { s with loop := .testing } else none
  | .test =>
    if s.loop = .testing then
      some { s with loop :=
        if s.received ≠ [] ∨ s.rest ≠ [] ∨ s.stopRequested then .draining else .dozing }
    else none
  | .sleep => if s.loop = .dozing then some { s with loop := .sleeping } else none
  | .relock => if s.loop = .woken then some { s with loop := .testing } else none
  | .drain =>
    if s.loop = .draining then
      some <| match s.received with
        | [] => { s with loop := .polling }
        | t :: r => { s with received := r, loop := .enqueueing t }
    else none
  | .enqueue =>
    match s.loop with
    | .enqueueing t =>
      if t.isDocument || s.outside.buildFlag then
        some { s with rest := s.rest ++ [t], loop := .relocking }
      else none
    | _ => none
  | .lockAgain => if s.loop = .relocking then some { s with loop := .draining } else none
  | .visit => if s.loop = .polling then some s.visit else none
  | .dispatched sent =>
    if s.loop = .dispatching ∧ (sent → s.outside.guardServes) then
      some { s with loop := .polling }
    else none
  | .retry => if s.loop = .dispatching ∧ s.outside.guardServes = false then some s else none
  | .leave =>
    if s.loop = .leaving ∧ ∀ t ∈ s.passed ++ s.rest, t.isDocument → t.waits = [] then
      some { s with passed := [], rest := [], loop := .returned }
    else none
  | .advance true k => (advanceAt s.outside s.passed k).map fun l => { s with passed := l }
  | .advance false k => (advanceAt s.outside s.rest k).map fun l => { s with rest := l }
  | .deliver t =>
    if holdsMutex s.loop then none
    else if s.received.length < MAX_TASKS then
      some { s with received := s.received ++ [t], loop := notified s.loop }
    else some s
  | .spuriousWakeup => if s.loop = .sleeping then some { s with loop := .woken } else none
  | .change o => some { s with outside := o }
  | .requestStop =>
    if s.main = .running then some { s with main := .stopping, stopRequested := true } else none
  | .notify =>
    if s.main = .stopping then some { s with main := .joining, loop := notified s.loop }
    else none

/-! ## What is before the thread -/

def Returned (s : Closing) : Prop := s.loop = .returned

/-- The payloads that the thread still takes out of `g_receive_task_list`, once a stop is asked. -/
def toEnqueue (s : Closing) : List ClosingTask :=
  match s.loop with
  | .locking | .testing | .woken | .draining | .relocking => s.received
  | .enqueueing t => t :: s.received
  | _ => []

/-- The payloads whose futures it still looks at. -/
def toVisit (s : Closing) : List ClosingTask :=
  match s.loop with
  | .locking | .testing | .woken | .draining | .relocking | .enqueueing _ => s.rest ++ s.toEnqueue
  | .polling | .dispatching => s.rest
  | _ => []

/-- The payloads whose futures it still holds or comes to hold. -/
def toAwait (s : Closing) : List ClosingTask :=
  if s.loop = .returned then [] else s.passed ++ s.rest ++ s.toEnqueue

/-- As things stand, the filtering of the payload comes to its end. -/
def Ends (o : Outside) (t : ClosingTask) : Prop := ∀ w ∈ t.waits, o.passes w = true

instance (o : Outside) (t : ClosingTask) : Decidable (Ends o t) :=
  inferInstanceAs (Decidable (∀ w ∈ t.waits, o.passes w = true))

/-- Nothing holds the thread up on its way to its end. -/
structure Unhindered (s : Closing) : Prop where
  alive : s.loop ≠ .terminated
  begun : s.loop = .starting → s.outside.buildFlag = true
  enqueued : ∀ t ∈ s.toEnqueue, t.isDocument = false → s.outside.buildFlag = true
  awaited : ∀ t ∈ s.toAwait, t.isDocument = true → Ends s.outside t
  got : ∀ t ∈ s.toVisit, t.isDocument = true → t.throws = false
  sent : s.loop = .dispatching → s.outside.guardServes = true
  served : ∀ t ∈ s.toVisit, Ends s.outside t → s.outside.guardServes = true

/-! ## One step of the filtering -/

/-- A stop has been asked for, and the thread will find that out. -/
structure Ending (s : Closing) : Prop where
  stop : s.stopRequested = true
  notDozing : s.loop ≠ .dozing
  notSleeping : s.loop ≠ .sleeping

/-- What the steps of the filtering do while the thread is ending. -/
inductive Moves (s : Closing) : Closing → Prop where
  | begin (hpc : s.loop = .starting) (hbuilt : s.outside.buildFlag = true) :
      Moves s { s with loop := .top }
  | check (hpc : s.loop = .top) : Moves s { s with loop := .leaving }
  | lock (hpc : s.loop = .locking ∨ s.loop = .woken) : Moves s { s with loop := .testing }
  | goOn (hpc : s.loop = .testing ∨ s.loop = .relocking) : Moves s { s with loop := .draining }
  | take {t : ClosingTask} {r : List ClosingTask} (hpc : s.loop = .draining)
      (hreceived : s.received = t :: r) :
      Moves s { s with received := r, loop := .enqueueing t }
  | drained (hpc : s.loop = .draining) (hreceived : s.received = []) :
      Moves s { s with loop := .polling }
  | enqueue {t : ClosingTask} (hpc : s.loop = .enqueueing t)
      (hbuilt : t.isDocument = false → s.outside.buildFlag = true) :
      Moves s { s with rest := s.rest ++ [t], loop := .relocking }
  | pass {t : ClosingTask} {r : List ClosingTask} (hpc : s.loop = .polling)
      (hrest : s.rest = t :: r) (hwaits : t.waits ≠ []) :
      Moves s { s with passed := s.passed ++ [t], rest := r }
  | throw {t : ClosingTask} {r : List ClosingTask} (hpc : s.loop = .polling)
      (hrest : s.rest = t :: r) (hdocument : t.isDocument = true) (hthrows : t.throws = true) :
      Moves s { s with loop := .terminated }
  | dispatch {t : ClosingTask} {r : List ClosingTask} (hpc : s.loop = .polling)
      (hrest : s.rest = t :: r) (hready : t.waits = [])
      (hgot : t.isDocument = true → t.throws = false) :
      Moves s { s with rest := r, loop := .dispatching }
  | endPass (hpc : s.loop = .polling) (hrest : s.rest = []) :
      Moves s { s with rest := s.passed, passed := [], loop := .top }
  | dispatched (hpc : s.loop = .dispatching) : Moves s { s with loop := .polling }
  | retry (hpc : s.loop = .dispatching) (hserves : s.outside.guardServes = false) : Moves s s
  | leave (hpc : s.loop = .leaving)
      (hready : ∀ t ∈ s.passed ++ s.rest, t.isDocument = true → t.waits = []) :
      Moves s { s with passed := [], rest := [], loop := .returned }
  | advancePassed {l : List ClosingTask} {k : Nat} (hl : advanceAt s.outside s.passed k = some l) :
      Moves s { s with passed := l }
  | advanceRest {l : List ClosingTask} {k : Nat} (hl : advanceAt s.outside s.rest k = some l) :
      Moves s { s with rest := l }

theorem moves_visit {s : Closing} (hpc : s.loop = .polling) : Moves s s.visit := by
  rw [visit]
  split
  · exact .endPass hpc ‹_›
  · rename_i t r hrest
    split_ifs with hwaits hthrows
    · exact .pass hpc hrest hwaits
    · rw [Bool.and_eq_true] at hthrows
      exact .throw hpc hrest hthrows.1 hthrows.2
    · refine .dispatch hpc hrest (not_not.mp hwaits) fun hdocument => ?_
      rw [hdocument, Bool.true_and] at hthrows
      exact Bool.eq_false_iff.mpr hthrows

theorem moves_of_step {s s' : Closing} {e : ClosingEvent} (hs : Ending s)
    (h : step s e = some s') (he : e.OfFiltering) : Moves s s' := by
  cases e with
  | begin =>
    obtain ⟨⟨hpc, hbuilt⟩, h⟩ := Option.ite_none_right_eq_some.mp h
    cases h
    exact .begin hpc hbuilt
  | check =>
    obtain ⟨hpc, h⟩ := Option.ite_none_right_eq_some.mp h
    cases h
    rw [if_pos hs.stop]
    exact .check hpc
  | lock =>
    obtain ⟨hpc, h⟩ := Option.ite_none_right_eq_some.mp h
    cases h
    exact .lock (.inl hpc)
  | test =>
    obtain ⟨hpc, h⟩ := Option.ite_none_right_eq_some.mp h
    cases h
    rw [if_pos (.inr (.inr hs.stop))]
    exact .goOn (.inl hpc)
  | sleep =>
    obtain ⟨hpc, -⟩ := Option.ite_none_right_eq_some.mp h
    exact absurd hpc hs.notDozing
  | relock =>
    obtain ⟨hpc, h⟩ := Option.ite_none_right_eq_some.mp h
    cases h
    exact .lock (.inr hpc)
  | drain =>
    obtain ⟨hpc, h⟩ := Option.ite_none_right_eq_some.mp h
    cases h
    split
    · exact .drained hpc ‹_›
    · exact .take hpc ‹_›
  | enqueue =>
    rw [Closing.step] at h
    split at h
    · rename_i t hpc
      obtain ⟨hcan, h⟩ := Option.ite_none_right_eq_some.mp h
      cases h
      refine .enqueue hpc fun hdocument => ?_
      rwa [hdocument, Bool.false_or] at hcan
    · cases h
  | lockAgain =>
    obtain ⟨hpc, h⟩ := Option.ite_none_right_eq_some.mp h
    cases h
    exact .goOn (.inr hpc)
  | visit =>
    obtain ⟨hpc, h⟩ := Option.ite_none_right_eq_some.mp h
    cases h
    exact moves_visit hpc
  | dispatched sent =>
    obtain ⟨⟨hpc, -⟩, h⟩ := Option.ite_none_right_eq_some.mp h
    cases h
    exact .dispatched hpc
  | retry =>
    obtain ⟨⟨hpc, hserves⟩, h⟩ := Option.ite_none_right_eq_some.mp h
    cases h
    exact .retry hpc hserves
  | leave =>
    obtain ⟨⟨hpc, hready⟩, h⟩ := Option.ite_none_right_eq_some.mp h
    cases h
    exact .leave hpc hready
  | advance before k =>
    cases before with
    | true =>
      obtain ⟨l, hl, rfl⟩ := Option.map_eq_some_iff.mp h
      exact .advancePassed hl
    | false =>
      obtain ⟨l, hl, rfl⟩ := Option.map_eq_some_iff.mp h
      exact .advanceRest hl
  | deliver | spuriousWakeup | change | requestStop | notify => exact he.elim

theorem Moves.ending {s s' : Closing} (h : Moves s s') (hs : Ending s) : Ending s' := by
  have hstop := hs.stop
  cases h with
  | retry | advancePassed | advanceRest => exact ⟨hstop, hs.notDozing, hs.notSleeping⟩
  | pass hpc => exact ⟨hstop, hs.notDozing, hs.notSleeping⟩
  | _ => exact ⟨hstop, LoopPc.noConfusion, LoopPc.noConfusion⟩

theorem mem_toVisit_head {s : Closing} {t : ClosingTask} {r : List ClosingTask}
    (hpc : s.loop = .polling) (hrest : s.rest = t :: r) : t ∈ s.toVisit := by
  simp [toVisit, hpc, hrest]

theorem ends_of_ready {o : Outside} {t : ClosingTask} (h : t.waits = []) : Ends o t := by
  simp [Ends, h]

theorem Moves.alive {s s' : Closing} (h : Moves s s') (hs : Unhindered s) :
    s'.loop ≠ .terminated := by
  cases h with
  | throw hpc hrest hdocument hthrows =>
    have hgot := hs.got _ (mem_toVisit_head hpc hrest) hdocument
    cases hthrows.symm.trans hgot
  | retry | advancePassed | advanceRest | pass => exact hs.alive
  | _ => exact LoopPc.noConfusion

theorem Moves.begun {s s' : Closing} (h : Moves s s') (hs : Unhindered s)
    (hpc' : s'.loop = .starting) : s'.outside.buildFlag = true := by
  cases h with
  | retry | advancePassed | advanceRest | pass => exact hs.begun hpc'
  | _ => cases hpc'

theorem Moves.sent {s s' : Closing} (h : Moves s s') (hs : Unhindered s)
    (hpc' : s'.loop = .dispatching) : s'.outside.guardServes = true := by
  cases h with
  | dispatch hpc hrest hready =>
    exact hs.served _ (mem_toVisit_head hpc hrest) (ends_of_ready hready)
  | retry | advancePassed | advanceRest | pass => exact hs.sent hpc'
  | _ => cases hpc'

end Closing

end CdsGuard.Gateway
