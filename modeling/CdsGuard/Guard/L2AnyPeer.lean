import CdsGuard.Guard.L2Receiver
import CdsGuard.Lib.Transition

/-
  The receive loop against any peer: one call of `receive_reliable_data`, whatever frames the
  socket delivers. `Observed` keeps, beside the state of the call, the DATA frames of the current
  session that came inside the window since its START, and the acknowledgements since then.

  Proved, while fewer than 2 ^ 32 - 1 frames of the session have been accepted
  (`receiver_window`): the buffer holds numbers strictly inside the window, the window that is
  advertised is never closed, and the reassembled data is that of the first frame in the window
  for each number below the base. The buffer that a call starts with is arbitrary.
-/

namespace CdsGuard.Guard

open CdsGuard.Lib

/-! ## Observation -/

/-- The START frame of a session. -/
def ReceivedFrame.Starts (f : ReceivedFrame) : Prop :=
  f.type = FrameType.START.code ∧ f.seqNum = 0

instance (f : ReceivedFrame) : Decidable f.Starts := inferInstanceAs (Decidable (_ ∧ _))

/-- A DATA frame of the current session that is inside the receive window. -/
structure Receiver.Takes (r : Receiver) (f : ReceivedFrame) : Prop where
  type : f.type = FrameType.DATA.code
  active : r.sessionActive = true
  session : r.currentSessionId = f.sessionId
  ge : r.receiveWindowBase ≤ f.seqNum
  lt : f.seqNum < r.receiveWindowBase + RECEIVER_WINDOW_CAPACITY

instance (r : Receiver) (f : ReceivedFrame) : Decidable (r.Takes f) :=
  decidable_of_iff (f.type = FrameType.DATA.code ∧ r.sessionActive = true ∧
    r.currentSessionId = f.sessionId ∧ r.receiveWindowBase ≤ f.seqNum ∧
    f.seqNum < r.receiveWindowBase + RECEIVER_WINDOW_CAPACITY)
    ⟨fun h => ⟨h.1, h.2.1, h.2.2.1, h.2.2.2.1, h.2.2.2.2⟩,
      fun h => ⟨h.1, h.2, h.3, h.4, h.5⟩⟩

structure Observed where
  receiver : Receiver
  /-- Number and payload of the frames taken since the last START, in order. -/
  taken : List (Nat × Bytes)
  /-- The acknowledgements sent since the last START, in order. -/
  acks : List Bytes

namespace Observed

/-- When `receive_reliable_data` is entered. -/
def start (outOfOrderBuffer : PieceMap UInt8) : Observed := ⟨.call outOfOrderBuffer, [], []⟩

/-- What a round of the loop leaves to be observed of a frame that passed the checks. -/
def record (s : Observed) (f : ReceivedFrame) (p : Receiver × List Bytes × Option CallResult) :
    Observed :=
  if f.Starts then ⟨p.1, [], p.2.1⟩
  else if s.receiver.Takes f then ⟨p.1, s.taken ++ [(f.seqNum, f.payload)], s.acks ++ p.2.1⟩
  else ⟨p.1, s.taken, s.acks ++ p.2.1⟩

/-- One round of the loop, on what the socket delivers; none when the call has returned. -/
def step (myMac : Mac) (s : Observed) (frame : Bytes) : Option Observed :=
  if s.receiver.finish.isSome then none
  else
    match checkFrame myMac frame with
    | none => some s
    | some f => some (s.record f (s.receiver.process myMac f))

end Observed

/-! ## One round -/

/-- An acknowledgement that advertises an open window. -/
def IsOpenAck (myMac : Mac) (a : Bytes) : Prop :=
  ∃ dst sessionId seqNum w, 1 ≤ w ∧ w ≤ RECEIVER_WINDOW_CAPACITY ∧
    a = ackFrame dst myMac sessionId seqNum w

namespace Receiver

variable {myMac : Mac} {r : Receiver} {f : ReceivedFrame}

/-- The window that is advertised while fewer than 512 frames are kept. -/
theorem sendAck_open (h : r.outOfOrderBuffer.entries.length < RECEIVER_WINDOW_CAPACITY) (dst : Mac)
    (seqNum : Nat) : IsOpenAck myMac (r.sendAck myMac dst seqNum) := by
  refine ⟨dst, r.currentSessionId, seqNum, r.availableWindow, ?_, ?_, rfl⟩
  · rw [availableWindow, if_pos h]
    omega
  · rw [availableWindow, if_pos h]
    omega

/-- The START frame of a session. -/
theorem process_starts (myMac : Mac) (h : f.Starts) :
    (r.process myMac f).1.window = ⟨1, [], ∅⟩ ∧
      ∀ a ∈ (r.process myMac f).2.1, IsOpenAck myMac a := by
  unfold process
  rw [if_pos h.1]
  unfold onStart
  rw [if_pos h.2]
  refine ⟨rfl, fun a ha => ?_⟩
  rw [List.mem_singleton.mp ha]
  refine sendAck_open ?_ f.senderMac f.seqNum
  exact (by decide : 0 < RECEIVER_WINDOW_CAPACITY)

/-- A frame that is taken. -/
theorem process_takes (myMac : Mac) (h : r.Takes f) :
    (r.process myMac f).1 = (r.onData myMac f).1 ∧
      ∀ a ∈ (r.process myMac f).2.1, a = r.sendAck myMac f.senderMac f.seqNum := by
  have hne : ¬f.type = FrameType.START.code := by
    rw [h.type]
    decide
  have hsession : ¬(¬r.sessionActive = true ∨ r.currentSessionId ≠ f.sessionId) := by
    simp [h.active, h.session]
  unfold process
  rw [if_neg hne, if_pos h.type, if_neg hsession]
  exact ⟨rfl, onData_acks myMac r f⟩

/-- Every other frame leaves the session and the data alone. -/
theorem process_other (myMac : Mac) (hs : ¬f.Starts) (ht : ¬r.Takes f) :
    (r.process myMac f).1.window = r.window ∧
      (r.process myMac f).1.sessionActive = r.sessionActive ∧
      ∀ a ∈ (r.process myMac f).2.1,
        r.sessionActive = true ∧ a = r.sendAck myMac f.senderMac f.seqNum := by
  unfold process
  split
  · rename_i hstart
    have hseq : f.seqNum ≠ 0 := fun h0 => hs ⟨hstart, h0⟩
    unfold onStart
    rw [if_neg hseq]
    exact ⟨rfl, rfl, fun a ha => absurd ha (by simp)⟩
  · split
    · rename_i hdata
      split
      · exact ⟨rfl, rfl, fun a ha => absurd ha (by simp)⟩
      · rename_i hsession
        obtain ⟨hactive, hid⟩ := not_or.mp hsession
        rw [not_not] at hactive
        have hout : ¬(f.seqNum ≥ r.receiveWindowBase ∧
            f.seqNum < r.receiveWindowBase + RECEIVER_WINDOW_CAPACITY) :=
          fun hin => ht ⟨hdata, hactive, not_not.mp hid, hin.1, hin.2⟩
        have hsame := onData_outside myMac r f hout
        dsimp only
        rw [hsame]
        exact ⟨rfl, rfl, fun a ha => ⟨hactive, onData_acks myMac r f a ha⟩⟩
    · split
      · unfold onEnd
        split
        · rename_i hend
          exact ⟨rfl, rfl, fun a ha => ⟨hend.1, List.mem_singleton.mp ha⟩⟩
        · exact ⟨rfl, rfl, fun a ha => absurd ha (by simp)⟩
      · exact ⟨rfl, rfl, fun a ha => absurd ha (by simp)⟩

end Receiver

/-! ## A peer -/

/-- The two ends of the sample. -/
def peerMac : Mac := ⟨[2, 0, 0, 0, 0, 3], rfl⟩
def ownMac : Mac := ⟨[2, 0, 0, 0, 0, 4], rfl⟩

/-- A frame of session 7. -/
def peerFrame (type : FrameType) (seqNum : Nat) (payload : Bytes) : Bytes :=
  buildFrame ownMac peerMac 7 9 type seqNum payload

/-- Packet 2 comes early, a second time with another payload, and packet 1 last. -/
def peerFrames : List Bytes :=
  [peerFrame .START 0 [], peerFrame .DATA 2 [0x42], peerFrame .DATA 2 [0x43],
    peerFrame .DATA 1 [0x41]]

/-! ## Invariant -/

/-- What holds in a session. -/
structure Observed.Good (myMac : Mac) (s : Observed) : Prop where
  firsts : s.receiver.window.Firsts (2 ^ 32 - 1) RECEIVER_WINDOW_CAPACITY s.taken
  acks : ∀ a ∈ s.acks, IsOpenAck myMac a

/-- It holds as long as the session has not accepted 2 ^ 32 - 1 frames. -/
def Observed.Inv (myMac : Mac) (s : Observed) : Prop :=
  s.receiver.sessionActive = true → arrivedCount s.taken < 2 ^ 32 - 1 → s.Good myMac

namespace Observed

variable {myMac : Mac} {s s' : Observed} {f : ReceivedFrame}

theorem Good.sendAck (h : Good myMac s) (dst : Mac) (seqNum : Nat) :
    IsOpenAck myMac (s.receiver.sendAck myMac dst seqNum) := by
  have hlen : s.receiver.outOfOrderBuffer.entries.length ≤ RECEIVER_WINDOW_CAPACITY - 1 :=
    h.firsts.kept_length
  have hcap : RECEIVER_WINDOW_CAPACITY = 512 := rfl
  exact Receiver.sendAck_open (by omega) dst seqNum

theorem Good.acks_append (h : Good myMac s) {acks : List Bytes} {dst : Mac} {seqNum : Nat}
    (hacks : ∀ a ∈ acks, a = s.receiver.sendAck myMac dst seqNum) :
    ∀ a ∈ s.acks ++ acks, IsOpenAck myMac a := by
  intro a ha
  rcases List.mem_append.mp ha with ha | ha
  · exact h.acks a ha
  · rw [hacks a ha]
    exact h.sendAck dst seqNum

theorem arrivedCount_append_le (taken more : List (Nat × Bytes)) :
    arrivedCount taken ≤ arrivedCount (taken ++ more) := by
  unfold arrivedCount
  refine (List.subperm_of_subset (List.nodup_dedup _) fun k hk => ?_).length_le
  rw [List.map_append]
  exact List.mem_dedup.mpr (List.mem_append_left _ (List.mem_dedup.mp hk))

/-- A round of the loop on a frame that passed the checks. -/
theorem Inv.record (h : Inv myMac s) (hseq : f.seqNum < 2 ^ 32) :
    Inv myMac (s.record f (s.receiver.process myMac f)) := by
  unfold Observed.record
  split
  · -- START: a new session
    rename_i hstart
    obtain ⟨hwindow, hacks⟩ := s.receiver.process_starts myMac hstart
    intro _ _
    refine ⟨?_, hacks⟩
    show Window.Firsts _ _ [] (s.receiver.process myMac f).1.window
    rw [hwindow]
    exact Window.firsts_nil _ _
  · split
    · -- DATA inside the window
      rename_i htakes
      obtain ⟨hr, hacks⟩ := s.receiver.process_takes myMac htakes
      intro _ hfew
      have hgood := h htakes.active ((arrivedCount_append_le s.taken _).trans_lt hfew)
      have hput := hgood.firsts.put (d := f.payload) htakes.ge htakes.lt (by omega)
      have hbase := hput.base_le
      refine ⟨?_, hgood.acks_append hacks⟩
      show Window.Firsts _ _ (s.taken ++ [(f.seqNum, f.payload)])
        (s.receiver.process myMac f).1.window
      rw [hr, Receiver.onData_put myMac s.receiver f _ htakes.ge htakes.lt]
      · exact hput
      · -- the base stays below 2 ^ 32, so it does not wrap
        intro k _ hlt
        have hfew' : arrivedCount (s.taken ++ [(f.seqNum, f.payload)]) < 2 ^ 32 - 1 := hfew
        omega
    · rename_i hstart htakes
      obtain ⟨hwindow, hactive, hacks⟩ := s.receiver.process_other myMac hstart htakes
      intro hactive' hfew
      have hgood := h (hactive.symm.trans hactive') hfew
      refine ⟨?_, hgood.acks_append fun a ha => (hacks a ha).2⟩
      show Window.Firsts _ _ s.taken (s.receiver.process myMac f).1.window
      rw [hwindow]
      exact hgood.firsts

/-- One round of the loop. -/
theorem Inv.step {frame : Bytes} (h : Inv myMac s) (hs : step myMac s frame = some s') :
    Inv myMac s' := by
  unfold Observed.step at hs
  obtain ⟨-, hs⟩ := Option.ite_none_left_eq_some.mp hs
  split at hs
  · cases hs
    exact h
  · rename_i f hf
    cases hs
    exact h.record (checkFrame_seqNum_lt hf)

/-- In every state of a call with an active session, while fewer than 2 ^ 32 - 1 frames of the
    session have been accepted. -/
theorem receiver_window (myMac : Mac) (outOfOrderBuffer : PieceMap UInt8) (frames : List Bytes)
    (s : Observed) (hrun : run (Observed.step myMac) (start outOfOrderBuffer) frames = some s)
    (hactive : s.receiver.sessionActive = true) (hfew : arrivedCount s.taken < 2 ^ 32 - 1) :
    (∀ k ∈ s.receiver.outOfOrderBuffer, s.receiver.receiveWindowBase < k ∧
      k < s.receiver.receiveWindowBase + 512) ∧
    s.receiver.outOfOrderBuffer.entries.length ≤ 511 ∧
    (∀ a ∈ s.acks, IsOpenAck myMac a) ∧
    (∀ k, 1 ≤ k → k < s.receiver.receiveWindowBase → k ∈ s.taken.map Prod.fst) ∧
    s.receiver.reassembledData = (List.range (s.receiver.receiveWindowBase - 1)).flatMap
      fun i => firstPiece s.taken (i + 1) := by
  have hstart : Inv myMac (start outOfOrderBuffer) :=
    fun h => absurd h (by simp [start, Receiver.call])
  have hinv : Inv myMac s := run_invariant (fun _ _ _ h hs => h.step hs) hstart hrun
  obtain ⟨hfirsts, hacks⟩ := hinv hactive hfew
  refine ⟨fun k hk => hfirsts.kept hk, hfirsts.kept_length, hacks, fun k h1 hk => ?_,
    hfirsts.holds.joined_eq⟩
  exact (hfirsts.arrived k).mpr ⟨h1, .inl hk⟩

theorem receiver_window_sample :
    ∃ s, run (Observed.step ownMac) (start ∅) peerFrames = some s ∧
      s.receiver.reassembledData = [0x41, 0x42] ∧
      (∀ a ∈ s.acks, IsOpenAck ownMac a) ∧
      s.receiver.reassembledData = (List.range (s.receiver.receiveWindowBase - 1)).flatMap
        fun i => firstPiece s.taken (i + 1) := by
  have hres : (run (Observed.step ownMac) (start ∅) peerFrames).map
      (fun s => (s.receiver.sessionActive, s.receiver.reassembledData, arrivedCount s.taken)) =
        some (true, [0x41, 0x42], 2) := by decide +kernel
  obtain ⟨s, hs, heq⟩ := Option.map_eq_some_iff.mp hres
  obtain ⟨hactive, hdata, hcount⟩ : s.receiver.sessionActive = true ∧
      s.receiver.reassembledData = [0x41, 0x42] ∧ arrivedCount s.taken = 2 := by simpa using heq
  obtain ⟨-, -, hacks, -, hjoined⟩ := receiver_window ownMac ∅ peerFrames s hs hactive
    (by rw [hcount]; decide)
  exact ⟨s, hs, hdata, hacks, hjoined⟩

end Observed

end CdsGuard.Guard
