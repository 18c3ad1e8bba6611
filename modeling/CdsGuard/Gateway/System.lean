import CdsGuard.Gateway.DocumentFilter
import CdsGuard.Gateway.FileSinkSession
import CdsGuard.Lib.Transition

/-
  The gateway process as a transition system: the accept loop, one thread for each accepted
  connection (`ControlSession`, then `FileSinkSession`), `CdsGatewayFilteringProcessingLoop`
  and the filter tasks that its futures wait for. An event is one step of one thread; what a
  thread does under `g_task_mutex` is one event.

  A connection is accepted and counted in one event, and a session ends in one event with what
  it does to the list and to the counter. A payload carries the number of its session and how
  the filtering of it will turn out (`Work`), which nothing but its own filter task reads.

  A worker whose matching threw goes on to `set_value` on the promise that has its exception,
  and that ends the process. A run can stop after any event, so the runs here hold all that the
  other threads do until then.
-/

namespace CdsGuard.Gateway

open CdsGuard.Lib CdsGuard.Packet

/-! ## State -/

/-- How the filtering of a payload turns out, as a string and as a document. -/
structure Work where
  string : MatchOutcome
  doc : DocEnv

/-- Calls that all fail: minizip finds no archive in the bytes, and nothing matches. -/
def noArchive : DocEnv where
  streamOpens := true
  extracted := none
  inputOpens := false
  tempOpens := false
  outputOpens := false
  firstEntry := false
  entriesCopied := false
  matching := fun _ => some []
  gotoXml := false
  xmlWritten := false
  xmlClosed := false
  zipsClosed := false
  archive := id
  copiedBack := false
  partialCopy := []

/-- A completely read payload, under the number of the session that read it. -/
structure Job where
  id : Nat
  payload : ReceivedPayload
  work : Work

/-- An element of `censor_task_list`: the job as it was read, and the payload that the filter
    task works on in place. -/
structure Task where
  job : Job
  payload : ReceivedPayload

/-- The state behind a future. -/
inductive FutState (α : Type) where
  | pending
  | value (a : α)
  | exception
  deriving DecidableEq

/-- An element of `censor_future_result_list`, under the number of the job it belongs to. -/
inductive CensorFuture where
  | bool (owner : Nat) (st : FutState Bool)
  | size (owner : Nat) (st : FutState Nat)
  deriving DecidableEq

def CensorFuture.owner : CensorFuture → Nat
  | bool owner _ => owner
  | size owner _ => owner

/-- Where the processing loop stands: at the condition variable; with a task taken and the lock
    released, before the task is queued or before the lock is taken again (`atEnd` when the
    iterator is past the last element); at a position of the two lists; or gone, by an exception
    out of `future.get()`. -/
inductive Pc where
  | waiting
  | filtering (atEnd : Bool)
  | relocking (atEnd : Bool)
  | polling (i : Nat)
  | exited
  deriving DecidableEq

structure State where
  shared : GatewayState Job
  /-- Sessions still in `ControlSession`, and sessions in `FileSinkSession`. -/
  control : List Nat
  sinking : List Nat
  nextId : Nat
  buildFlag : Bool
  pc : Pc
  tasks : List Task
  futures : List CensorFuture
  /-- The calls of `callback_func`, in order. -/
  passed : List (Job × ReceivedPayload)

/-- The gateway before its first connection. -/
def State.start : State where
  shared := ⟨[], 0⟩
  control := []
  sinking := []
  nextId := 0
  buildFlag := false
  pc := .waiting
  tasks := []
  futures := []
  passed := []

/-- The number of `ControlSession` threads still running. -/
def State.running (s : State) : Nat := s.control.length + s.sinking.length

/-- The payloads inside the gateway and behind it: in `g_receive_task_list`, in
    `censor_task_list`, and passed to `callback_func`. -/
def State.jobs (s : State) : List Job :=
  s.shared.receiveTaskList ++ (s.tasks.map Task.job ++ s.passed.map Prod.fst)

/-! ## Events -/

inductive Event where
  /-- A connection reaches the accept loop. -/
  | accept
  /-- An exception in `ControlSession` before `FileSinkSession` is entered. -/
  | controlThrows (id : Nat)
  | startSink (id : Nat)
  /-- `FileSinkSession` ends, with a payload or with the reason there is none. -/
  | endSink (id : Nat) (r : Except SinkStop (ReceivedPayload × Work))
  | setBuildFlag (b : Bool)
  /-- The processing loop gets past its condition variable. -/
  | wake
  /-- The taken payload is given to its filter. -/
  | enqueue
  | relock
  /-- The filter task of a job completes. -/
  | taskDone (id : Nat)
  /-- One round of the loop over the two lists. -/
  | poll

/-- The loop body of `CdsGatewayConnectionAcceptLoop`: refused at either limit, otherwise counted
    and given a thread. -/
def State.accept (s : State) : State :=
  if s.shared.activeConnections ≥ MAX_CONNECTIONS ∨
      s.shared.receiveTaskList.length ≥ MAX_TASKS then s
  else
    { s with
      shared := { s.shared with activeConnections := s.shared.activeConnections + 1 }
      control := s.control ++ [s.nextId]
      nextId := s.nextId + 1 }

/-- `push_back` of the head of the receive list and its `erase`, under the lock. -/
def State.take (s : State) (job : Job) (rest : List Job) : State :=
  { s with
    shared := { s.shared with receiveTaskList := rest }
    tasks := s.tasks ++ [⟨job, job.payload⟩]
    pc := .filtering rest.isEmpty }

/-- A document is a file that is not a `.txt` file. -/
def ReceivedPayload.isDocument (p : ReceivedPayload) : Bool := !p.isTxtFile && p.isFile

/-- A pending future of the kind that the routing of the payload gives. -/
def newFuture (p : ReceivedPayload) (id : Nat) : CensorFuture :=
  if p.isDocument then .size id .pending else .bool id .pending

/-- A `.txt` file is marked as a file once it is queued as a string. -/
def markTxt (p : ReceivedPayload) : ReceivedPayload :=
  if p.isTxtFile then { p with isFile := true } else p

def Task.mark (t : Task) : Task := { t with payload := markTxt t.payload }

/-- What the filter task leaves in the payload's data. -/
def Job.filteredData (j : Job) (data : Bytes) : Bytes :=
  if j.payload.isDocument then
    match censorDocumentFile j.work.doc data with
    | .ok (_, buffer) => buffer
    | .error (.zero buffer) => buffer
    | .error .threw => data
  else censorTask j.work.string data

/-- What the filter task of a string leaves in its future. -/
def Job.stringResult (j : Job) : FutState Bool :=
  match j.work.string with
  | some infos => .value (!infos.isEmpty)
  | none => .exception

/-- What the filter task of a document leaves in its future. -/
def Job.documentResult (j : Job) (data : Bytes) : FutState Nat :=
  match censorDocumentFile j.work.doc data with
  | .ok (size, _) => .value size
  | .error (.zero _) => .value 0
  | .error .threw => .exception

/-- The filter task of a task is done: its data and its future, in place. -/
def Task.finish (t : Task) : Task :=
  { t with payload := { t.payload with data := t.job.filteredData t.payload.data } }

def CensorFuture.finish (t : Task) : CensorFuture → CensorFuture
  | bool owner _ => bool owner t.job.stringResult
  | size owner _ => size owner (t.job.documentResult t.payload.data)

def CensorFuture.isPending : CensorFuture → Bool
  | bool _ .pending => true
  | size _ .pending => true
  | _ => false

/-- The position of a pending future of a job. -/
def pendingAt (futures : List CensorFuture) (id : Nat) : Option Nat :=
  futures.findIdx? fun f => f.owner == id && f.isPending

/-- `data.resize(n)`: cut off, or filled up with zeros. -/
def resize (data : Bytes) (n : Nat) : Bytes :=
  data.take n ++ List.replicate (n - data.length) 0

/-- `callback_func` on the payload at position `i`, and both erases. -/
def State.callback (s : State) (i : Nat) (job : Job) (p : ReceivedPayload) : State :=
  { s with
    passed := s.passed ++ [(job, p)]
    tasks := s.tasks.eraseIdx i
    futures := s.futures.eraseIdx i }

/-- `visit_lambda` on position `i`. A string future only has to be ready; `get` on a document's
    future throws its exception out of the loop. -/
def State.visit (s : State) (i : Nat) (t : Task) : CensorFuture → State
  | .bool _ .pending => { s with pc := .polling (i + 1) }
  | .bool _ _ => s.callback i t.job t.payload
  | .size _ .pending => { s with pc := .polling (i + 1) }
  | .size _ (.value censoredSize) =>
    if 0 < censoredSize then
      s.callback i t.job { t.payload with data := resize t.payload.data censoredSize }
    else s.callback i t.job t.payload
  | .size _ .exception => { s with pc := .exited }

/-- One event, when it can happen. -/
def step (s : State) : Event → Option State
  | .accept => some s.accept
  | .controlThrows id =>
    if id ∈ s.control then some { s with control := s.control.erase id } else none
  | .startSink id =>
    if id ∈ s.control then
      some { s with control := s.control.erase id, sinking := s.sinking ++ [id] }
    else none
  | .endSink id r =>
    if id ∈ s.sinking then
      some { s with
        sinking := s.sinking.erase id
        shared := s.shared.endSession (r.map fun pw => ⟨id, pw.1, pw.2⟩) }
    else none
  | .setBuildFlag b => some { s with buildFlag := b }
  | .wake =>
    match s.pc, s.shared.receiveTaskList with
    | .waiting, job :: rest => some (s.take job rest)
    | .waiting, [] => if s.futures = [] then none else some { s with pc := .polling 0 }
    | _, _ => none
  | .enqueue =>
    match s.pc, s.tasks.getLast? with
    | .filtering atEnd, some t =>
      if t.payload.isDocument ∨ s.buildFlag then
        some { s with
          tasks := s.tasks.dropLast ++ [t.mark]
          futures := s.futures ++ [newFuture t.payload t.job.id]
          pc := .relocking atEnd }
      else none
    | _, _ => none
  | .relock =>
    match s.pc, s.shared.receiveTaskList with
    | .relocking true, _ => some { s with pc := .polling 0 }
    | .relocking false, job :: rest => some (s.take job rest)
    | _, _ => none
  | .taskDone id =>
    match pendingAt s.futures id with
    | none => none
    | some i =>
      match s.tasks[i]? with
      | none => none
      | some t =>
        some { s with
          tasks := s.tasks.set i t.finish
          futures := s.futures.modify i (CensorFuture.finish t) }
  | .poll =>
    match s.pc with
    | .polling i =>
      match s.tasks[i]? with
      | none => some { s with pc := .waiting }
      | some t => (s.futures[i]?).map (s.visit i t)
    | _ => none

/-- A state that some run from the start reaches. -/
def Reachable (s : State) : Prop := ∃ es, run step State.start es = some s

/-! ## What a step can do -/

/-- Every way a step can go, with its guards and the state it leads to. -/
inductive StepCase (s : State) : Event → State → Prop where
  | accept : StepCase s .accept s.accept
  | controlThrows (id : Nat) (h : id ∈ s.control) :
      StepCase s (.controlThrows id) { s with control := s.control.erase id }
  | startSink (id : Nat) (h : id ∈ s.control) :
      StepCase s (.startSink id)
        { s with control := s.control.erase id, sinking := s.sinking ++ [id] }
  | endSink (id : Nat) (r : Except SinkStop (ReceivedPayload × Work)) (h : id ∈ s.sinking) :
      StepCase s (.endSink id r)
        { s with
          sinking := s.sinking.erase id
          shared := s.shared.endSession (r.map fun pw => ⟨id, pw.1, pw.2⟩) }
  | setBuildFlag (b : Bool) : StepCase s (.setBuildFlag b) { s with buildFlag := b }
  | wakeTake (job : Job) (rest : List Job) (hpc : s.pc = .waiting)
      (hlist : s.shared.receiveTaskList = job :: rest) : StepCase s .wake (s.take job rest)
  | wakePoll (hpc : s.pc = .waiting) (hlist : s.shared.receiveTaskList = []) :
      StepCase s .wake { s with pc := .polling 0 }
  | enqueue (atEnd : Bool) (ts : List Task) (t : Task) (hpc : s.pc = .filtering atEnd)
      (htasks : s.tasks = ts ++ [t]) (hready : t.payload.isDocument ∨ s.buildFlag) :
      StepCase s .enqueue
        { s with
          tasks := ts ++ [t.mark]
          futures := s.futures ++ [newFuture t.payload t.job.id]
          pc := .relocking atEnd }
  | relockEnd (hpc : s.pc = .relocking true) : StepCase s .relock { s with pc := .polling 0 }
  | relockTake (job : Job) (rest : List Job) (hpc : s.pc = .relocking false)
      (hlist : s.shared.receiveTaskList = job :: rest) : StepCase s .relock (s.take job rest)
  | taskDone (id i : Nat) (t : Task) (hi : pendingAt s.futures id = some i)
      (ht : s.tasks[i]? = some t) :
      StepCase s (.taskDone id)
        { s with
          tasks := s.tasks.set i t.finish
          futures := s.futures.modify i (CensorFuture.finish t) }
  | pollEnd (i : Nat) (hpc : s.pc = .polling i) (ht : s.tasks[i]? = none) :
      StepCase s .poll { s with pc := .waiting }
  | pollVisit (i : Nat) (t : Task) (f : CensorFuture) (hpc : s.pc = .polling i)
      (ht : s.tasks[i]? = some t) (hf : s.futures[i]? = some f) :
      StepCase s .poll (s.visit i t f)

theorem step_cases {s s' : State} {e : Event} (h : step s e = some s') : StepCase s e s' := by
  cases e with
  | accept => cases h; exact .accept
  | controlThrows id =>
    simp only [step] at h
    split at h
    · rename_i hid; cases h; exact .controlThrows id hid
    · cases h
  | startSink id =>
    simp only [step] at h
    split at h
    · rename_i hid; cases h; exact .startSink id hid
    · cases h
  | endSink id r =>
    simp only [step] at h
    split at h
    · rename_i hid; cases h; exact .endSink id r hid
    · cases h
  | setBuildFlag b => cases h; exact .setBuildFlag b
  | wake =>
    simp only [step] at h
    split at h
    · rename_i job rest hpc hlist; cases h; exact .wakeTake job rest hpc hlist
    · rename_i hpc hlist
      split at h
      · cases h
      · cases h; exact .wakePoll hpc hlist
    · cases h
  | enqueue =>
    simp only [step] at h
    split at h
    · rename_i atEnd t hpc hlast
      obtain ⟨ts, hts⟩ := List.getLast?_eq_some_iff.mp hlast
      split at h
      · rename_i hready
        cases h
        have hdrop : s.tasks.dropLast = ts := by rw [hts, List.dropLast_concat]
        rw [hdrop]
        exact .enqueue atEnd ts t hpc hts hready
      · cases h
    · cases h
  | relock =>
    simp only [step] at h
    split at h
    · rename_i hpc; cases h; exact .relockEnd hpc
    · rename_i job rest hpc hlist; cases h; exact .relockTake job rest hpc hlist
    · cases h
  | taskDone id =>
    simp only [step] at h
    split at h
    · cases h
    · rename_i i hi
      split at h
      · cases h
      · rename_i t ht; cases h; exact .taskDone id i t hi ht
  | poll =>
    simp only [step] at h
    split at h
    · rename_i i hpc
      split at h
      · rename_i ht; cases h; exact .pollEnd i hpc ht
      · rename_i t ht
        obtain ⟨f, hf, rfl⟩ := Option.map_eq_some_iff.mp h
        exact .pollVisit i t f hpc ht hf
    · cases h

/-! ## Frame -/

/-- Visiting a position of the two lists leaves the shared state and the sessions alone. -/
theorem visit_frame (s : State) (i : Nat) (t : Task) (f : CensorFuture) :
    (s.visit i t f).shared = s.shared ∧ (s.visit i t f).control = s.control ∧
      (s.visit i t f).sinking = s.sinking ∧ (s.visit i t f).nextId = s.nextId := by
  unfold State.visit State.callback
  split
  · exact ⟨rfl, rfl, rfl, rfl⟩
  · exact ⟨rfl, rfl, rfl, rfl⟩
  · exact ⟨rfl, rfl, rfl, rfl⟩
  · split <;> exact ⟨rfl, rfl, rfl, rfl⟩
  · exact ⟨rfl, rfl, rfl, rfl⟩

end CdsGuard.Gateway
