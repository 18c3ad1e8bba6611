import CdsGuard.Client.TransferController
import CdsGuard.Lib.Heap
import CdsGuard.Lib.Transition
import Mathlib.Data.List.Nodup

/-
  The receiving side of `TransferController` as a whole: connections come and go in any order, and
  what arrives is kept in `received_data_map_` under the address of its socket. A socket that is
  disconnected is deleted later, by the event loop, and its address may be given out again.

  `stopListening` deletes all of `clients_`, where sockets are put and never taken out, and leaves
  the map as it is: a socket that is disconnected by its own destructor is no `QTcpSocket` any
  more, so `onSocketDisconnected` gets nothing for it.

  Proved: `stopListening` deletes a socket a second time exactly when one has been deleted by the
  event loop since the last time (`deletes_twice_iff`). A message is what its connection carried,
  and every connection that is closed has one, as long as no connection with bytes was cut off by
  `stopListening` (`messages_are_streams`); after one was, a later message can be read behind
  the bytes that were left (`cut_off_is_read_again`).
-/

namespace CdsGuard.Client

open CdsGuard.Lib

/-! ## Model -/

/-- A socket by the number of its connection. `deleteLater` has been called when it is
    disconnected. -/
structure Socket where
  connection : Nat
  isDisconnected : Bool

/-- An accepted connection: what the map held under the address of its socket, and what has been
    read since. -/
structure Accepted where
  leftover : Bytes
  stream : Bytes
  closed : Bool

def Accepted.read (c : Accepted) (data : Bytes) : Accepted := { c with stream := c.stream ++ data }

def Accepted.close (c : Accepted) : Accepted := { c with closed := true }

/-- What is in the map for the connection. -/
def Accepted.bytes (c : Accepted) : Bytes := c.leftover ++ c.stream

structure Listener (A : Type) where
  isListening : Bool
  sockets : Heap A Socket
  clients : List A
  receivedDataMap : Heap A Bytes
  connections : List Accepted
  /-- What `onSocketDisconnected` went on with, and whose it was. -/
  messages : List (Nat × Bytes)
  /-- Nothing is said about what happens then. -/
  deletedTwice : Bool

inductive ListenerEvent (A : Type) where
  /-- `listen` succeeds, or the server is listening. -/
  | startListening
  | stopListening
  | newConnection (a : A)
  | socketRead (a : A) (data : Bytes)
  | socketDisconnected (a : A)
  /-- The event loop deletes a socket after `deleteLater`. -/
  | deferredDelete (a : A)

def ListenerEvent.isStop {A : Type} : ListenerEvent A → Bool
  | .stopListening => true
  | _ => false

def ListenerEvent.isDeletion {A : Type} : ListenerEvent A → Bool
  | .deferredDelete _ => true
  | _ => false

namespace Listener

variable {A : Type}

def start : Listener A :=
  { isListening := false
    sockets := fun _ => none
    clients := []
    receivedDataMap := fun _ => none
    connections := []
    messages := []
    deletedTwice := false }

/-- The connection of a socket that is connected. -/
def connected (s : Listener A) (a : A) : Option Nat :=
  (s.sockets a).bind fun socket => if socket.isDisconnected then none else some socket.connection

def isDeletable (s : Listener A) (a : A) : Bool :=
  ((s.sockets a).map Socket.isDisconnected).getD false

section

variable [DecidableEq A]

/-- `qDeleteAll(clients_)` goes through the list as it is. -/
def stopListening (s : Listener A) : Listener A :=
  match s.sockets.freeAll s.clients with
  | some sockets => { s with isListening := false, sockets := sockets, clients := [] }
  | none => { s with deletedTwice := true }

def onNewConnection (s : Listener A) (a : A) : Listener A :=
  { s with
    sockets := s.sockets.put a ⟨s.connections.length, false⟩
    clients := s.clients ++ [a]
    connections := s.connections ++ [⟨(s.receivedDataMap a).getD [], [], false⟩] }

/-- `received_data_map_[sock].append(sock->readAll())`. -/
def onSocketRead (s : Listener A) (a : A) (i : Nat) (data : Bytes) : Listener A :=
  { s with
    receivedDataMap := s.receivedDataMap.put a ((s.receivedDataMap a).getD [] ++ data)
    connections := s.connections.modify i fun c => c.read data }

/-- `onSocketDisconnected` up to the tag, and `deleteLater`. -/
def onSocketDisconnected (s : Listener A) (a : A) (i : Nat) : Listener A :=
  { s with
    sockets := s.sockets.put a ⟨i, true⟩
    receivedDataMap := s.receivedDataMap.free a
    connections := s.connections.modify i Accepted.close
    messages := s.messages ++ ((s.receivedDataMap a).map fun bytes => (i, bytes)).toList }

def step (s : Listener A) (e : ListenerEvent A) : Option (Listener A) :=
  if s.deletedTwice then none
  else
    match e with
    | .startListening => some { s with isListening := true }
    | .stopListening => some s.stopListening
    | .newConnection a =>
      if s.isListening ∧ s.sockets a = none then some (s.onNewConnection a) else none
    | .socketRead a data => (s.connected a).map fun i => s.onSocketRead a i data
    | .socketDisconnected a => (s.connected a).map fun i => s.onSocketDisconnected a i
    | .deferredDelete a =>
      if s.isDeletable a then some { s with sockets := s.sockets.free a } else none

end

/-! ## What a step does -/

section

variable [DecidableEq A]

inductive Moves (s : Listener A) : ListenerEvent A → Listener A → Prop
  | startListening : Moves s .startListening { s with isListening := true }
  | stopListening (sockets : Heap A Socket) (h : s.sockets.freeAll s.clients = some sockets) :
      Moves s .stopListening { s with isListening := false, sockets := sockets, clients := [] }
  | deletedTwice (h : s.sockets.freeAll s.clients = none) :
      Moves s .stopListening { s with deletedTwice := true }
  | newConnection (a : A) (hlistening : s.isListening = true) (h : s.sockets a = none) :
      Moves s (.newConnection a) (s.onNewConnection a)
  | socketRead (a : A) (i : Nat) (data : Bytes) (h : s.sockets a = some ⟨i, false⟩) :
      Moves s (.socketRead a data) (s.onSocketRead a i data)
  | socketDisconnected (a : A) (i : Nat) (h : s.sockets a = some ⟨i, false⟩) :
      Moves s (.socketDisconnected a) (s.onSocketDisconnected a i)
  | deferredDelete (a : A) (i : Nat) (h : s.sockets a = some ⟨i, true⟩) :
      Moves s (.deferredDelete a) { s with sockets := s.sockets.free a }

end

theorem connected_eq_some_iff {s : Listener A} {a : A} {i : Nat} :
    s.connected a = some i ↔ s.sockets a = some ⟨i, false⟩ := by
  unfold connected
  cases s.sockets a with
  | none => simp
  | some socket =>
    obtain ⟨j, isDisconnected⟩ := socket
    cases isDisconnected <;> simp

theorem isDeletable_iff {s : Listener A} {a : A} :
    s.isDeletable a = true ↔ ∃ i, s.sockets a = some ⟨i, true⟩ := by
  unfold isDeletable
  cases s.sockets a with
  | none => simp
  | some socket =>
    obtain ⟨j, isDisconnected⟩ := socket
    cases isDisconnected <;> simp

theorem step_iff [DecidableEq A] {s s' : Listener A} {e : ListenerEvent A} :
    step s e = some s' ↔ s.deletedTwice = false ∧ Moves s e s' := by
  constructor
  · intro h
    obtain ⟨htwice, h⟩ := Option.ite_none_left_eq_some.mp h
    refine ⟨Bool.eq_false_of_not_eq_true htwice, ?_⟩
    cases e with
    | startListening =>
      cases h
      exact .startListening
    | stopListening =>
      cases h
      unfold stopListening
      split
      · next sockets hfree => exact .stopListening sockets hfree
      · next hfree => exact .deletedTwice hfree
    | newConnection a =>
      obtain ⟨hnew, h⟩ := Option.ite_none_right_eq_some.mp h
      cases h
      exact .newConnection a hnew.1 hnew.2
    | socketRead a data =>
      obtain ⟨i, hi, rfl⟩ := Option.map_eq_some_iff.mp h
      exact .socketRead a i data (connected_eq_some_iff.mp hi)
    | socketDisconnected a =>
      obtain ⟨i, hi, rfl⟩ := Option.map_eq_some_iff.mp h
      exact .socketDisconnected a i (connected_eq_some_iff.mp hi)
    | deferredDelete a =>
      obtain ⟨hdel, h⟩ := Option.ite_none_right_eq_some.mp h
      cases h
      obtain ⟨i, hi⟩ := isDeletable_iff.mp hdel
      exact .deferredDelete a i hi
  · rintro ⟨hlive, hmoves⟩
    have hnot : ¬s.deletedTwice = true := by
      rw [hlive]
      exact Bool.false_ne_true
    refine (if_neg hnot).trans ?_
    cases hmoves with
    | startListening => rfl
    | stopListening sockets hfree =>
      show some s.stopListening = _
      rw [stopListening, hfree]
    | deletedTwice hfree =>
      show some s.stopListening = _
      rw [stopListening, hfree]
    | newConnection a hlistening hnone => exact if_pos ⟨hlistening, hnone⟩
    | socketRead a i data hopen =>
      exact Option.map_eq_some_iff.mpr ⟨i, connected_eq_some_iff.mpr hopen, rfl⟩
    | socketDisconnected a i hopen =>
      exact Option.map_eq_some_iff.mpr ⟨i, connected_eq_some_iff.mpr hopen, rfl⟩
    | deferredDelete a i hclosed => exact if_pos (isDeletable_iff.mpr ⟨i, hclosed⟩)

/-! ## Sockets that are deleted twice -/

/-- How many sockets the event loop has deleted since `stopListening` was last called. -/
def deletedSinceStop (es : List (ListenerEvent A)) : Nat :=
  es.foldl (fun n e => if e.isStop then 0 else if e.isDeletion then n + 1 else n) 0

/-- The last event is `stopListening`, and the event loop deleted a socket since the one before. -/
def StopsAfterDeletion (es : List (ListenerEvent A)) : Prop :=
  ∃ es', es = es' ++ [.stopListening] ∧ 0 < deletedSinceStop es'

theorem deletedSinceStop_snoc (es : List (ListenerEvent A)) (e : ListenerEvent A) :
    deletedSinceStop (es ++ [e]) = if e.isStop then 0
      else if e.isDeletion then deletedSinceStop es + 1 else deletedSinceStop es := by
  rw [deletedSinceStop, List.foldl_append]
  rfl

theorem not_stopsAfterDeletion {e : ListenerEvent A} (h : e ≠ .stopListening)
    (es : List (ListenerEvent A)) : ¬StopsAfterDeletion (es ++ [e]) := by
  rintro ⟨es', heq, -⟩
  exact h (List.cons.inj (List.append_inj_right' heq rfl)).1

theorem stopsAfterDeletion_stop (es : List (ListenerEvent A)) :
    StopsAfterDeletion (es ++ [.stopListening]) ↔ 0 < deletedSinceStop es := by
  constructor
  · rintro ⟨es', heq, hpos⟩
    rwa [List.append_inj_left' heq rfl]
  · exact fun hpos => ⟨es, rfl, hpos⟩

section

variable [DecidableEq A]

/-- `clients_` and the sockets there are, after the events `es`. -/
structure ClientsInv (es : List (ListenerEvent A)) (s : Listener A) : Prop where
  known : ∀ a, (s.sockets a).isSome → a ∈ s.clients
  sound : s.deletedTwice = false →
    ((s.sockets.freeAll s.clients).isSome ↔ deletedSinceStop es = 0)
  twice : s.deletedTwice = true ↔ StopsAfterDeletion es

theorem ClientsInv.step {es : List (ListenerEvent A)} {s s' : Listener A} {e : ListenerEvent A}
    (hs : ClientsInv es s) (h : Listener.step s e = some s') : ClientsInv (es ++ [e]) s' := by
  obtain ⟨hlive, hmoves⟩ := step_iff.mp h
  have hsound := hs.sound hlive
  -- no other event than `stopListening` deletes a socket twice
  have htwice : e ≠ .stopListening → (s.deletedTwice = true ↔ StopsAfterDeletion (es ++ [e])) := by
    intro he
    rw [hlive]
    exact ⟨fun hfalse => absurd hfalse Bool.false_ne_true,
      fun hstop => absurd hstop (not_stopsAfterDeletion he es)⟩
  cases hmoves with
  | startListening =>
    refine ⟨hs.known, fun _ => ?_, htwice (by simp)⟩
    rw [deletedSinceStop_snoc]
    exact hsound
  | stopListening sockets hfree =>
    have hzero : deletedSinceStop es = 0 := hsound.mp (by rw [hfree]; rfl)
    refine ⟨fun a ha => ?_, fun _ => ?_, ?_⟩
    · replace ha : (sockets a).isSome := ha
      rw [Heap.freeAll_apply hfree] at ha
      by_cases hmem : a ∈ s.clients
      · rw [if_pos hmem] at ha
        cases ha
      · rw [if_neg hmem] at ha
        exact absurd (hs.known a ha) hmem
    · rw [deletedSinceStop_snoc]
      exact ⟨fun _ => rfl, fun _ => rfl⟩
    · rw [stopsAfterDeletion_stop, hzero]
      show s.deletedTwice = true ↔ _
      rw [hlive]
      exact ⟨fun hfalse => absurd hfalse Bool.false_ne_true, fun hlt => absurd hlt (by omega)⟩
  | deletedTwice hfree =>
    refine ⟨hs.known, fun htrue => (by cases htrue), ?_⟩
    rw [stopsAfterDeletion_stop]
    refine ⟨fun _ => Nat.pos_of_ne_zero fun hzero => ?_, fun _ => rfl⟩
    have hsome := hsound.mpr hzero
    rw [hfree] at hsome
    cases hsome
  | newConnection a _ hnone =>
    refine ⟨fun b hb => ?_, fun _ => ?_, htwice (by simp)⟩
    · by_cases hba : b = a
      · subst hba
        exact List.mem_append_right _ (List.mem_singleton_self b)
      · replace hb : (s.sockets.put a _ b).isSome := hb
        rw [s.sockets.put_of_ne _ hba] at hb
        exact List.mem_append_left _ (hs.known b hb)
    · rw [deletedSinceStop_snoc]
      exact (Heap.freeAll_put_new hnone _ _).trans hsound
  | socketRead a i data hopen =>
    refine ⟨hs.known, fun _ => ?_, htwice (by simp)⟩
    rw [deletedSinceStop_snoc]
    exact hsound
  | socketDisconnected a i hopen =>
    have hsome : (s.sockets a).isSome := by rw [hopen]; rfl
    refine ⟨fun b hb => ?_, fun _ => ?_, htwice (by simp)⟩
    · replace hb : (s.sockets.put a _ b).isSome := hb
      rw [Heap.isSome_put hsome] at hb
      exact hs.known b hb
    · rw [deletedSinceStop_snoc]
      exact (Heap.freeAll_put hsome _ _).trans hsound
  | deferredDelete a i hclosed =>
    have hmem : a ∈ s.clients := hs.known a (by rw [hclosed]; rfl)
    refine ⟨fun b hb => ?_, fun _ => ?_, htwice (by simp)⟩
    · by_cases hba : b = a
      · exact hba ▸ hmem
      · replace hb : (s.sockets.free a b).isSome := hb
        rw [s.sockets.free_of_ne hba] at hb
        exact hs.known b hb
    · rw [deletedSinceStop_snoc]
      exact ⟨fun hfree => absurd hfree (Heap.freeAll_free hmem _),
        fun hzero => absurd hzero (Nat.succ_ne_zero _)⟩

theorem start_clientsInv : ClientsInv [] (start : Listener A) where
  known a ha := by cases ha
  sound _ := ⟨fun _ => rfl, fun _ => rfl⟩
  twice := by
    refine ⟨fun htrue => (by cases htrue), fun hstop => ?_⟩
    obtain ⟨es', heq, -⟩ := hstop
    exact absurd heq (by simp)

theorem run_clientsInv {es : List (ListenerEvent A)} {s : Listener A}
    (h : run step start es = some s) : ClientsInv es s :=
  run_history h start_clientsInv fun _ _ _ _ hs hstep => hs.step hstep

/-- **When a socket is deleted twice**: when `stopListening` is called after the event loop has
    deleted one of those accepted since the last call. -/
theorem deletes_twice_iff {es : List (ListenerEvent A)} {s : Listener A}
    (h : run step start es = some s) : s.deletedTwice = true ↔ StopsAfterDeletion es :=
  (run_clientsInv h).twice

/-- One message is received, and the button is pressed. -/
theorem deletes_twice_iff_button : ∃ s : Listener Nat,
    run step start [.startListening, .newConnection 7, .socketRead 7 [0x54],
      .socketDisconnected 7, .deferredDelete 7, .stopListening] = some s ∧
    s.deletedTwice = true :=
  ⟨_, rfl, (deletes_twice_iff rfl).mpr ⟨[.startListening, .newConnection 7, .socketRead 7 [0x54],
    .socketDisconnected 7, .deferredDelete 7], rfl, by decide⟩⟩

/-! ## Messages -/

/-- The open sockets, their bytes in the map, and the messages, one at most for a connection. -/
structure MessagesInv (s : Listener A) : Prop where
  holds : ∀ a i, s.sockets a = some ⟨i, false⟩ → ∃ c, s.connections[i]? = some c ∧
    c.closed = false ∧ (s.receivedDataMap a).getD [] = c.bytes
  below : ∀ a socket, s.sockets a = some socket → socket.connection < s.connections.length
  own : ∀ a b socket socket', s.sockets a = some socket → s.sockets b = some socket' →
    socket.connection = socket'.connection → a = b
  messages : ∀ m ∈ s.messages, ∃ c, s.connections[m.1]? = some c ∧ c.closed = true ∧ m.2 = c.bytes
  nodup : (s.messages.map Prod.fst).Nodup
  handed : ∀ i c, s.connections[i]? = some c → c.closed = true → c.bytes ≠ [] →
    (i, c.bytes) ∈ s.messages

omit [DecidableEq A] in
/-- Sockets may be deleted. -/
theorem MessagesInv.of_sockets {s : Listener A} (hs : MessagesInv s) {s' : Listener A}
    (hsockets : ∀ a socket, s'.sockets a = some socket → s.sockets a = some socket)
    (hmap : s'.receivedDataMap = s.receivedDataMap) (hconn : s'.connections = s.connections)
    (hmess : s'.messages = s.messages) : MessagesInv s' := by
  obtain ⟨holds, below, own, messages, nodup, handed⟩ := hs
  refine ⟨?_, ?_, ?_, ?_, ?_, ?_⟩
  · rw [hmap, hconn]
    exact fun a i ha => holds a i (hsockets a _ ha)
  · rw [hconn]
    exact fun a socket ha => below a socket (hsockets a socket ha)
  · exact fun a b socket socket' ha hb => own a b socket socket' (hsockets a _ ha) (hsockets b _ hb)
  · rw [hmess, hconn]
    exact messages
  · rw [hmess]
    exact nodup
  · rw [hmess, hconn]
    exact handed

omit [DecidableEq A] in
/-- A closed connection is not the one of an open socket. -/
theorem MessagesInv.ne_of_closed {s : Listener A} (hs : MessagesInv s) {a : A} {i : Nat}
    (hopen : s.sockets a = some ⟨i, false⟩) (j : Nat) (d : Accepted)
    (hd : s.connections[j]? = some d) (hdc : d.closed = true) : j ≠ i := by
  rintro rfl
  obtain ⟨c, hc, hclosed, -⟩ := hs.holds a j hopen
  rw [hc] at hd
  cases hd
  rw [hclosed] at hdc
  cases hdc

theorem MessagesInv.onNewConnection {s : Listener A} (hs : MessagesInv s) {a : A}
    (hnone : s.sockets a = none) : MessagesInv (s.onNewConnection a) := by
  have hold : ∀ i c, s.connections[i]? = some c →
      (s.onNewConnection a).connections[i]? = some c := fun i c hc => by
    obtain ⟨hlt, -⟩ := List.getElem?_eq_some_iff.mp hc
    exact (List.getElem?_append_left hlt).trans hc
  have hsockets : ∀ b, b ≠ a → (s.onNewConnection a).sockets b = s.sockets b := fun b hb =>
    s.sockets.put_of_ne _ hb
  have hself : (s.onNewConnection a).sockets a = some ⟨s.connections.length, false⟩ :=
    s.sockets.put_self a _
  refine ⟨fun b i hb => ?_, fun b socket hb => ?_, fun b b' socket socket' hb hb' heq => ?_,
    fun m hm => ?_, hs.nodup, fun i c hc hclosed hne => ?_⟩
  · by_cases hba : b = a
    · subst hba
      rw [hself] at hb
      cases hb
      exact ⟨_, List.getElem?_concat_length .., rfl, (List.append_nil _).symm⟩
    · rw [hsockets b hba] at hb
      obtain ⟨c, hc, hopen, hbytes⟩ := hs.holds b i hb
      exact ⟨c, hold i c hc, hopen, hbytes⟩
  · show socket.connection < (s.connections ++ [_]).length
    rw [List.length_append]
    by_cases hba : b = a
    · subst hba
      rw [hself] at hb
      cases hb
      exact Nat.lt_succ_self _
    · rw [hsockets b hba] at hb
      exact Nat.lt_succ_of_lt (hs.below b socket hb)
  · by_cases hba : b = a
    · by_cases hba' : b' = a
      · exact hba.trans hba'.symm
      · subst hba
        rw [hself] at hb
        cases hb
        rw [hsockets b' hba'] at hb'
        have := hs.below b' socket' hb'
        exact absurd heq (Nat.ne_of_gt this)
    · by_cases hba' : b' = a
      · subst hba'
        rw [hself] at hb'
        cases hb'
        rw [hsockets b hba] at hb
        have := hs.below b socket hb
        exact absurd heq (Nat.ne_of_lt this)
      · rw [hsockets b hba] at hb
        rw [hsockets b' hba'] at hb'
        exact hs.own b b' socket socket' hb hb' heq
  · obtain ⟨c, hc, hclosed, hbytes⟩ := hs.messages m hm
    exact ⟨c, hold m.1 c hc, hclosed, hbytes⟩
  · rcases Nat.lt_trichotomy i s.connections.length with hlt | rfl | hgt
    · exact hs.handed i c ((List.getElem?_append_left hlt).symm.trans hc) hclosed hne
    · cases (List.getElem?_concat_length ..).symm.trans hc
      cases hclosed
    · have hlen := (List.getElem?_eq_some_iff.mp hc).1
      replace hlen : i < (s.connections ++ [_]).length := hlen
      rw [List.length_append, List.length_singleton] at hlen
      omega

theorem MessagesInv.onSocketRead {s : Listener A} (hs : MessagesInv s) {a : A} {i : Nat}
    (hopen : s.sockets a = some ⟨i, false⟩) (data : Bytes) :
    MessagesInv (s.onSocketRead a i data) := by
  obtain ⟨c, hc, hclosed, hbytes⟩ := hs.holds a i hopen
  have hself : (s.onSocketRead a i data).connections[i]? = some (c.read data) := by
    show (s.connections.modify i _)[i]? = _
    rw [List.getElem?_modify_eq, hc]
    rfl
  have hothers : ∀ j, j ≠ i → (s.onSocketRead a i data).connections[j]? = s.connections[j]? :=
    fun j hj => List.getElem?_modify_ne _ _ (Ne.symm hj)
  have hne := hs.ne_of_closed hopen
  refine ⟨fun b j hb => ?_, fun b socket hb => ?_, hs.own, fun m hm => ?_, hs.nodup,
    fun j d hd hdc hdne => ?_⟩
  · by_cases hba : b = a
    · subst hba
      obtain rfl : i = j := by
        have heq := hopen.symm.trans hb
        cases heq
        rfl
      refine ⟨c.read data, hself, hclosed, ?_⟩
      show (s.receivedDataMap.put b _ b).getD [] = _
      rw [Heap.put_self, Option.getD_some, hbytes]
      exact List.append_assoc ..
    · have hji : j ≠ i := fun hji => hba (hs.own b a _ _ hb hopen hji)
      obtain ⟨d, hd, hdopen, hdbytes⟩ := hs.holds b j hb
      refine ⟨d, (hothers j hji).trans hd, hdopen, ?_⟩
      show (s.receivedDataMap.put a _ b).getD [] = _
      rw [Heap.put_of_ne _ _ hba, hdbytes]
  · show socket.connection < (s.connections.modify i _).length
    rw [List.length_modify]
    exact hs.below b socket hb
  · obtain ⟨d, hd, hdc, hdbytes⟩ := hs.messages m hm
    exact ⟨d, (hothers m.1 (hne m.1 d hd hdc)).trans hd, hdc, hdbytes⟩
  · by_cases hji : j = i
    · subst hji
      rw [hself] at hd
      cases hd
      rw [show (c.read data).closed = c.closed from rfl, hclosed] at hdc
      cases hdc
    · exact hs.handed j d ((hothers j hji).symm.trans hd) hdc hdne

theorem MessagesInv.onSocketDisconnected {s : Listener A} (hs : MessagesInv s) {a : A} {i : Nat}
    (hopen : s.sockets a = some ⟨i, false⟩) : MessagesInv (s.onSocketDisconnected a i) := by
  obtain ⟨c, hc, hclosed, hbytes⟩ := hs.holds a i hopen
  have hself : (s.onSocketDisconnected a i).connections[i]? = some c.close := by
    show (s.connections.modify i _)[i]? = _
    rw [List.getElem?_modify_eq, hc]
    rfl
  have hothers : ∀ j, j ≠ i →
      (s.onSocketDisconnected a i).connections[j]? = s.connections[j]? :=
    fun j hj => List.getElem?_modify_ne _ _ (Ne.symm hj)
  have hne := hs.ne_of_closed hopen
  have hsockets : ∀ b socket, (s.onSocketDisconnected a i).sockets b = some socket →
      ∃ socket', s.sockets b = some socket' ∧ socket'.connection = socket.connection ∧
        (socket.isDisconnected = false → b ≠ a ∧ socket' = socket) := by
    intro b socket hb
    replace hb : s.sockets.put a ⟨i, true⟩ b = some socket := hb
    by_cases hba : b = a
    · subst hba
      rw [Heap.put_self] at hb
      cases hb
      exact ⟨_, hopen, rfl, fun hfalse => by cases hfalse⟩
    · rw [Heap.put_of_ne _ _ hba] at hb
      exact ⟨socket, hb, rfl, fun _ => ⟨hba, rfl⟩⟩
  have hmap : ∀ b, b ≠ a → (s.onSocketDisconnected a i).receivedDataMap b = s.receivedDataMap b :=
    fun b hb => Heap.free_of_ne _ hb
  refine ⟨fun b j hb => ?_, fun b socket hb => ?_, fun b b' socket socket' hb hb' heq => ?_,
    fun m hm => ?_, ?_, fun j d hd hdc hdne => ?_⟩
  · obtain ⟨socket', hb', -, hsame⟩ := hsockets b _ hb
    obtain ⟨hba, rfl⟩ := hsame rfl
    have hji : j ≠ i := fun hji => hba (hs.own b a _ _ hb' hopen hji)
    obtain ⟨d, hd, hdopen, hdbytes⟩ := hs.holds b j hb'
    exact ⟨d, (hothers j hji).trans hd, hdopen, by rw [hmap b hba, hdbytes]⟩
  · obtain ⟨socket', hb', hconn, -⟩ := hsockets b _ hb
    show socket.connection < (s.connections.modify i _).length
    rw [List.length_modify, ← hconn]
    exact hs.below b socket' hb'
  · obtain ⟨t, ht, htc, -⟩ := hsockets b _ hb
    obtain ⟨t', ht', htc', -⟩ := hsockets b' _ hb'
    exact hs.own b b' t t' ht ht' (htc.trans (heq.trans htc'.symm))
  · rcases List.mem_append.mp hm with hm | hm
    · obtain ⟨d, hd, hdc, hdbytes⟩ := hs.messages m hm
      exact ⟨d, (hothers m.1 (hne m.1 d hd hdc)).trans hd, hdc, hdbytes⟩
    · obtain ⟨bytes, hmapa, rfl⟩ := Option.map_eq_some_iff.mp (Option.mem_toList.mp hm)
      refine ⟨c.close, hself, rfl, ?_⟩
      rw [hmapa] at hbytes
      exact hbytes
  · show ((s.messages ++ _).map Prod.fst).Nodup
    rw [List.map_append, List.nodup_append]
    refine ⟨hs.nodup, ?_, fun j hj k hk => ?_⟩
    · cases s.receivedDataMap a <;> simp
    · obtain ⟨m, hm, rfl⟩ := List.mem_map.mp hj
      obtain ⟨m', hm', rfl⟩ := List.mem_map.mp hk
      obtain ⟨bytes, -, rfl⟩ := Option.map_eq_some_iff.mp (Option.mem_toList.mp hm')
      obtain ⟨d, hd, hdc, -⟩ := hs.messages m hm
      exact hne m.1 d hd hdc
  · by_cases hji : j = i
    · subst hji
      rw [hself] at hd
      cases hd
      refine List.mem_append_right _ (Option.mem_toList.mpr ?_)
      cases hmapa : s.receivedDataMap a with
      | none =>
        rw [hmapa] at hbytes
        exact absurd hbytes.symm hdne
      | some bytes =>
        rw [hmapa] at hbytes
        show some (j, bytes) = some (j, c.bytes)
        rw [← hbytes]
        rfl
    · exact List.mem_append_left _ (hs.handed j d ((hothers j hji).symm.trans hd) hdc hdne)

theorem MessagesInv.step {s s' : Listener A} {e : ListenerEvent A} (hs : MessagesInv s)
    (h : Listener.step s e = some s') : MessagesInv s' := by
  cases (step_iff.mp h).2 with
  | startListening => exact hs.of_sockets (fun _ _ ha => ha) rfl rfl rfl
  | stopListening sockets hfree =>
    refine hs.of_sockets (fun a socket ha => ?_) rfl rfl rfl
    replace ha : sockets a = some socket := ha
    rw [Heap.freeAll_apply hfree] at ha
    exact (Option.ite_none_left_eq_some.mp ha).2
  | deletedTwice _ => exact hs.of_sockets (fun _ _ ha => ha) rfl rfl rfl
  | newConnection a _ hnone => exact hs.onNewConnection hnone
  | socketRead a i data hopen => exact hs.onSocketRead hopen data
  | socketDisconnected a i hopen => exact hs.onSocketDisconnected hopen
  | deferredDelete a i _ =>
    refine hs.of_sockets (fun b socket hb => ?_) rfl rfl rfl
    replace hb : s.sockets.free a b = some socket := hb
    by_cases hba : b = a
    · subst hba
      rw [Heap.free_self] at hb
      cases hb
    · rwa [Heap.free_of_ne _ hba] at hb

omit [DecidableEq A] in
theorem start_messagesInv : MessagesInv (start : Listener A) where
  holds _ _ ha := by cases ha
  below _ _ ha := by cases ha
  own _ _ _ _ ha := by cases ha
  messages _ hm := absurd hm List.not_mem_nil
  nodup := List.nodup_nil
  handed _ _ hc := by cases hc

theorem run_messagesInv {es : List (ListenerEvent A)} {s : Listener A}
    (h : run step start es = some s) : MessagesInv s :=
  run_invariant (fun _ _ _ hs hstep => hs.step hstep) start_messagesInv h

/-- `stopListening` is called while a connection is open from which bytes have been read. -/
def CutsOff (s : Listener A) (e : ListenerEvent A) : Prop :=
  e = .stopListening ∧
    ∃ a i, s.sockets a = some ⟨i, false⟩ ∧ (s.receivedDataMap a).getD [] ≠ []

/-- The bytes in the map are those of open sockets, and no connection began with such. -/
structure NoLeftover (s : Listener A) : Prop where
  live : ∀ a, (s.receivedDataMap a).getD [] ≠ [] → ∃ i, s.sockets a = some ⟨i, false⟩
  none : ∀ c ∈ s.connections, c.leftover = []

theorem NoLeftover.step {s s' : Listener A} {e : ListenerEvent A} (hs : NoLeftover s)
    (hcut : ¬CutsOff s e) (h : Listener.step s e = some s') : NoLeftover s' := by
  have hmodify : ∀ i f, (∀ c : Accepted, (f c).leftover = c.leftover) →
      ∀ c ∈ s.connections.modify i f, c.leftover = [] := by
    intro i f hf c hc
    obtain ⟨j, hj⟩ := List.mem_iff_getElem?.mp hc
    rw [List.getElem?_modify] at hj
    obtain ⟨d, hd, rfl⟩ := Option.map_eq_some_iff.mp hj
    have hnil := hs.none d (List.mem_of_getElem? hd)
    split
    · rw [hf, hnil]
    · exact hnil
  cases (step_iff.mp h).2 with
  | startListening => exact ⟨hs.live, hs.none⟩
  | deletedTwice _ => exact ⟨hs.live, hs.none⟩
  | stopListening sockets hfree =>
    refine ⟨fun a ha => absurd ?_ hcut, hs.none⟩
    obtain ⟨i, hi⟩ := hs.live a ha
    exact ⟨rfl, a, i, hi, ha⟩
  | newConnection a _ hnone =>
    have hempty : (s.receivedDataMap a).getD [] = [] := by
      by_contra hne
      obtain ⟨i, hi⟩ := hs.live a hne
      rw [hnone] at hi
      cases hi
    refine ⟨fun b hb => ?_, fun c hc => ?_⟩
    · obtain ⟨i, hi⟩ := hs.live b hb
      have hba : b ≠ a := by
        rintro rfl
        exact hb hempty
      exact ⟨i, (s.sockets.put_of_ne _ hba).trans hi⟩
    · rcases List.mem_append.mp hc with hc | hc
      · exact hs.none c hc
      · rw [List.mem_singleton.mp hc]
        exact hempty
  | socketRead a i data hopen =>
    refine ⟨fun b hb => ?_, hmodify i _ fun _ => rfl⟩
    by_cases hba : b = a
    · exact ⟨i, hba ▸ hopen⟩
    · replace hb : (s.receivedDataMap.put a _ b).getD [] ≠ [] := hb
      rw [Heap.put_of_ne _ _ hba] at hb
      exact hs.live b hb
  | socketDisconnected a i hopen =>
    refine ⟨fun b hb => ?_, hmodify i _ fun _ => rfl⟩
    replace hb : (s.receivedDataMap.free a b).getD [] ≠ [] := hb
    by_cases hba : b = a
    · subst hba
      rw [Heap.free_self] at hb
      exact absurd rfl hb
    · rw [Heap.free_of_ne _ hba] at hb
      obtain ⟨j, hj⟩ := hs.live b hb
      exact ⟨j, (s.sockets.put_of_ne _ hba).trans hj⟩
  | deferredDelete a i hclosed =>
    refine ⟨fun b hb => ?_, hs.none⟩
    obtain ⟨j, hj⟩ := hs.live b hb
    have hba : b ≠ a := by
      rintro rfl
      rw [hclosed] at hj
      cases hj
    exact ⟨j, (s.sockets.free_of_ne hba).trans hj⟩

/-- **Every closed connection has its message, and no other**: as long as `stopListening` cuts off
    no connection with bytes, what is handed over is what was read from one connection, once, and
    nothing that was read from a closed connection is missing. -/
theorem messages_are_streams {es : List (ListenerEvent A)} {s : Listener A}
    (h : run step start es = some s) (hcuts : Along step (fun s e => ¬CutsOff s e) start es) :
    (∀ m ∈ s.messages, ∃ c, s.connections[m.1]? = some c ∧ c.closed = true ∧ m.2 = c.stream) ∧
      (s.messages.map Prod.fst).Nodup ∧
      ∀ i c, s.connections[i]? = some c → c.closed = true → c.stream ≠ [] →
        (i, c.stream) ∈ s.messages := by
  have hmess := run_messagesInv h
  have hnone : NoLeftover s := run_invariant_along (fun _ _ _ hs hcut hstep => hs.step hcut hstep)
    ⟨fun _ ha => absurd rfl ha, fun _ hc => absurd hc List.not_mem_nil⟩ hcuts h
  have hbytes : ∀ (i : Nat) (c : Accepted), s.connections[i]? = some c → c.bytes = c.stream := by
    intro i c hc
    rw [Accepted.bytes, hnone.none c (List.mem_of_getElem? hc), List.nil_append]
  refine ⟨fun m hm => ?_, hmess.nodup, fun i c hc hclosed hne => ?_⟩
  · obtain ⟨c, hc, hclosed, hm⟩ := hmess.messages m hm
    exact ⟨c, hc, hclosed, hm.trans (hbytes m.1 c hc)⟩
  · rw [← hbytes i c hc] at hne ⊢
    exact hmess.handed i c hc hclosed hne

/-- Two connections at a time, and a third one at the address of the first. -/
def interleaved : List (ListenerEvent Nat) :=
  [.startListening, .newConnection 7, .newConnection 8, .socketRead 7 [1], .socketRead 8 [2],
    .socketRead 7 [3], .socketDisconnected 7, .deferredDelete 7, .newConnection 7,
    .socketRead 7 [4], .socketDisconnected 8, .socketDisconnected 7]

theorem messages_are_streams_interleaved : ∃ s, run step start interleaved = some s ∧
    s.messages = [(0, [1, 3]), (1, [2]), (2, [4])] ∧
    ∀ m ∈ s.messages, ∃ c, s.connections[m.1]? = some c ∧ c.closed = true ∧ m.2 = c.stream := by
  have hmess : (run step start interleaved).map messages =
      some [(0, [1, 3]), (1, [2]), (2, [4])] := rfl
  obtain ⟨s, hs, hm⟩ := Option.map_eq_some_iff.mp hmess
  have hstops : ∀ e ∈ interleaved, e.isStop = false := by decide
  have hcuts : Along step (fun s e => ¬CutsOff s e) start interleaved :=
    (along_of_forall hstops).mono fun _ _ he hcut => by
      rw [hcut.1] at he
      cases he
  exact ⟨s, hs, hm, (messages_are_streams hs hcuts).1⟩

/-- After `stopListening`, which left these sockets, and a new start. -/
def restarted (s : Listener A) (sockets : Heap A Socket) : Listener A :=
  { s with isListening := true, sockets := sockets, clients := [] }

/-- A connection comes, with the address `a` for its socket. -/
def reconnected (s : Listener A) (sockets : Heap A Socket) (a : A) : Listener A :=
  (s.restarted sockets).onNewConnection a

/-- Data comes over it. -/
def reread (s : Listener A) (sockets : Heap A Socket) (a : A) (data : Bytes) : Listener A :=
  (s.reconnected sockets a).onSocketRead a s.connections.length data

theorem reconnected_socket (s : Listener A) (sockets : Heap A Socket) (a : A) :
    (s.reconnected sockets a).sockets a = some ⟨s.connections.length, false⟩ :=
  Heap.put_self ..

theorem reread_receivedDataMap {s : Listener A} {a : A} {old : Bytes}
    (hold : s.receivedDataMap a = some old) (sockets : Heap A Socket) (data : Bytes) :
    (s.reread sockets a data).receivedDataMap a = some (old ++ data) := by
  show s.receivedDataMap.put a ((s.receivedDataMap a).getD [] ++ data) a = _
  rw [Heap.put_self, hold]
  rfl

theorem reread_connection {s : Listener A} {a : A} {old : Bytes}
    (hold : s.receivedDataMap a = some old) (sockets : Heap A Socket) (data : Bytes) :
    (s.reread sockets a data).connections[s.connections.length]? = some ⟨old, data, false⟩ := by
  show ((s.connections ++ [(⟨(s.receivedDataMap a).getD [], [], false⟩ : Accepted)]).modify
    s.connections.length _)[s.connections.length]? = _
  rw [List.getElem?_modify_eq, List.getElem?_concat_length, hold]
  rfl

/-- The events lead through these states, to the end of the connection. -/
theorem run_reread {s : Listener A} (htwice : s.deletedTwice = false) {sockets : Heap A Socket}
    {a : A} (hnone : sockets a = none) (data : Bytes) :
    run step { s with isListening := false, sockets := sockets, clients := [] }
        [.startListening, .newConnection a, .socketRead a data, .socketDisconnected a] =
      some ((s.reread sockets a data).onSocketDisconnected a s.connections.length) := by
  have hstart : step { s with isListening := false, sockets := sockets, clients := [] }
      .startListening = some (s.restarted sockets) := step_iff.mpr ⟨htwice, .startListening⟩
  have hnew : step (s.restarted sockets) (.newConnection a) = some (s.reconnected sockets a) :=
    step_iff.mpr ⟨htwice, .newConnection a rfl hnone⟩
  have hsocket := reconnected_socket s sockets a
  have hread : step (s.reconnected sockets a) (.socketRead a data) =
      some (s.reread sockets a data) := step_iff.mpr ⟨htwice, .socketRead a _ data hsocket⟩
  have hclose : step (s.reread sockets a data) (.socketDisconnected a) =
      some ((s.reread sockets a data).onSocketDisconnected a s.connections.length) :=
    step_iff.mpr ⟨htwice, .socketDisconnected a _ hsocket⟩
  rw [run_step hstart, run_step hnew, run_step hread, run_singleton, hclose]

/-- **What is cut off comes back**: after `stopListening` the bytes of an open connection are still
    in the map, and a later connection whose socket gets the same address is read behind them. -/
theorem cut_off_is_read_again {es : List (ListenerEvent A)} {s t : Listener A}
    (h : run step start es = some s) (hstop : step s .stopListening = some t)
    (htwice : t.deletedTwice = false) {a : A} {i : Nat} {old : Bytes}
    (hopen : s.sockets a = some ⟨i, false⟩) (hold : s.receivedDataMap a = some old)
    (data : Bytes) :
    ∃ u, run step t [.startListening, .newConnection a, .socketRead a data,
        .socketDisconnected a] = some u ∧
      ∃ n c, u.connections[n]? = some c ∧ c.stream = data ∧ (n, old ++ data) ∈ u.messages := by
  have hmem : a ∈ s.clients := (run_clientsInv h).known a (by rw [hopen]; rfl)
  cases (step_iff.mp hstop).2 with
  | deletedTwice _ => cases htwice
  | stopListening sockets hfree =>
    have hnone : sockets a = none := (Heap.freeAll_apply hfree a).trans (if_pos hmem)
    refine ⟨_, run_reread (s := s) htwice hnone data, s.connections.length, ⟨old, data, true⟩, ?_,
      rfl, ?_⟩
    · show ((s.reread sockets a data).connections.modify _ _)[s.connections.length]? = _
      rw [List.getElem?_modify_eq, reread_connection hold]
      rfl
    · refine List.mem_append_right _ (Option.mem_toList.mpr ?_)
      rw [reread_receivedDataMap hold]
      rfl

/-- A connection is cut off after its first byte. -/
theorem cut_off_is_read_again_sample : ∃ s t u : Listener Nat,
    run step start [.startListening, .newConnection 7, .socketRead 7 [1]] = some s ∧
    step s .stopListening = some t ∧
    run step t [.startListening, .newConnection 7, .socketRead 7 [2], .socketDisconnected 7] =
      some u ∧
    ∃ n c, u.connections[n]? = some c ∧ c.stream = [2] ∧ (n, [1, 2]) ∈ u.messages := by
  let s : Listener Nat :=
    ({ (start : Listener Nat) with isListening := true }.onNewConnection 7).onSocketRead 7 0 [1]
  have hrun : run step start [.startListening, .newConnection 7, .socketRead 7 [1]] = some s := rfl
  have hopen : s.sockets 7 = some ⟨0, false⟩ := rfl
  have hold : s.receivedDataMap 7 = some [1] := rfl
  obtain ⟨u, hu, hread⟩ := cut_off_is_read_again hrun rfl rfl hopen hold [2]
  exact ⟨s, _, u, hrun, rfl, hu, hread⟩

end

end Listener

end CdsGuard.Client
