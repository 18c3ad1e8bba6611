import CdsGuard.Guard.L2Frame
import CdsGuard.Lib.Reassembly

/-
  `GuardL2Receiver::receive_reliable_data`: one pass of its loop for each frame that `recv`
  delivers. The locals of the call and the member `out_of_order_buffer_` are one state; when the
  call ends, the next one starts with fresh locals and the same buffer. A 30-second silence, or
  an allocation that fails, ends the call with nothing.

  The reassembly is `Lib.Window` as long as the 32-bit base does not wrap (`onData_put`).
-/

namespace CdsGuard.Guard

open CdsGuard.Lib

/-- `1400`, the payload of a full DATA frame. -/
def maxPayloadSize : Nat := 1400

def RECEIVER_WINDOW_CAPACITY : Nat := 512

structure Receiver where
  currentSessionId : Nat
  sessionActive : Bool
  totalDataSize : Nat
  totalPackets : Nat
  receiveWindowBase : Nat
  endPacketReceived : Bool
  reassembledData : Bytes
  outOfOrderBuffer : PieceMap UInt8

/-- The state when `receive_reliable_data` is entered. -/
def Receiver.call (outOfOrderBuffer : PieceMap UInt8) : Receiver where
  currentSessionId := 0
  sessionActive := false
  totalDataSize := 0
  totalPackets := 0
  receiveWindowBase := 0
  endPacketReceived := false
  reassembledData := []
  outOfOrderBuffer

/-- How a call ends: by a timeout, with the data, or at END with the wrong number of bytes. -/
inductive CallResult where
  | timedOut
  | complete (data : Bytes)
  | sizeMismatch
  deriving DecidableEq

/-- The vector that the call returns. -/
def CallResult.vector : CallResult → Bytes
  | timedOut => []
  | complete data => data
  | sizeMismatch => []

namespace Receiver

variable (myMac : Mac) (r : Receiver) (f : ReceivedFrame)

/-- The window that `send_ack` advertises. -/
def availableWindow : Nat :=
  if RECEIVER_WINDOW_CAPACITY > r.outOfOrderBuffer.entries.length then
    RECEIVER_WINDOW_CAPACITY - r.outOfOrderBuffer.entries.length
  else 0

/-- `send_ack` for the session of the call. -/
def sendAck (dst : Mac) (seqNum : Nat) : Bytes :=
  ackFrame dst myMac r.currentSessionId seqNum r.availableWindow

/-- `total_packets`, as the receiver computes it from a START frame. -/
def packetsOf (totalDataSize : Nat) : Nat :=
  if totalDataSize = 0 then 0 else u32 (u64 (totalDataSize + 1400 - 1) / 1400)

/-- `end_seq_num`. -/
def endSeqNum : Nat := u32 (r.totalPackets + 1)

def onStart : Receiver × List Bytes :=
  if f.seqNum = 0 then
    let r' : Receiver := {
      currentSessionId := f.sessionId
      sessionActive := true
      totalDataSize := f.totalSize
      totalPackets := packetsOf f.totalSize
      receiveWindowBase := 1
      endPacketReceived := false
      reassembledData := []
      outOfOrderBuffer := ∅ }
    (r', [r'.sendAck myMac f.senderMac f.seqNum])
  else (r, [])

/-- The `while` loop behind an in-order piece. Each round takes one entry out of the buffer, so
    the number of entries is enough `fuel`. -/
def takeBuffered : Nat → Receiver → Receiver
  | 0, r => r
  | fuel + 1, r =>
    match r.outOfOrderBuffer.lookup r.receiveWindowBase with
    | none => r
    | some buffered => takeBuffered fuel
        { r with
          reassembledData := r.reassembledData ++ buffered
          outOfOrderBuffer := r.outOfOrderBuffer.erase r.receiveWindowBase
          receiveWindowBase := u32 (r.receiveWindowBase + 1) }

/-- The branch for a DATA frame of the session; the base is a `uint32_t`, the end of the window
    a `size_t`. -/
def onData : Receiver × List Bytes :=
  if f.seqNum ≥ r.receiveWindowBase ∧
      f.seqNum < r.receiveWindowBase + RECEIVER_WINDOW_CAPACITY then
    let ack := r.sendAck myMac f.senderMac f.seqNum
    if f.seqNum = r.receiveWindowBase then
      let r' : Receiver := { r with
        reassembledData := r.reassembledData ++ f.payload
        receiveWindowBase := u32 (r.receiveWindowBase + 1) }
      (takeBuffered r'.outOfOrderBuffer.entries.length r', [ack])
    else if f.seqNum ∈ r.outOfOrderBuffer then (r, [ack])
    else ({ r with outOfOrderBuffer := r.outOfOrderBuffer.insert f.seqNum f.payload }, [ack])
  else if f.seqNum < r.receiveWindowBase then (r, [r.sendAck myMac f.senderMac f.seqNum])
  else (r, [])

def onEnd : Receiver × List Bytes :=
  if r.sessionActive ∧ r.currentSessionId = f.sessionId ∧ f.seqNum = r.endSeqNum then
    ({ r with endPacketReceived := true }, [r.sendAck myMac f.senderMac f.seqNum])
  else (r, [])

/-- The test after each frame. -/
def finish : Option CallResult :=
  if r.sessionActive ∧ r.endPacketReceived ∧ r.receiveWindowBase = r.endSeqNum then
    if r.reassembledData.length = r.totalDataSize then some (.complete r.reassembledData)
    else some .sizeMismatch
  else none

/-- One round of the loop, for a frame that passed the checks: the state behind it, the
    acknowledgements sent, and the result if the call ends. A DATA frame of no current session
    skips the last test. -/
def process : Receiver × List Bytes × Option CallResult :=
  let checked (p : Receiver × List Bytes) := (p.1, p.2, p.1.finish)
  if f.type = FrameType.START.code then checked (r.onStart myMac f)
  else if f.type = FrameType.DATA.code then
    if ¬r.sessionActive ∨ r.currentSessionId ≠ f.sessionId then (r, [], none)
    else checked (r.onData myMac f)
  else if f.type = FrameType.END.code then checked (r.onEnd myMac f)
  else checked (r, [])

/-- One round of the loop on what the socket delivers. -/
def receive (frame : Bytes) : Receiver × List Bytes × Option CallResult :=
  match checkFrame myMac frame with
  | none => (r, [], none)
  | some f => r.process myMac f

/-! ## The window -/

/-- The part of the state that holds data. -/
def window : Window UInt8 := ⟨r.receiveWindowBase, r.reassembledData, r.outOfOrderBuffer⟩

/-- What neither DATA nor END frames change. -/
structure SameSession (r r' : Receiver) : Prop where
  currentSessionId : r'.currentSessionId = r.currentSessionId
  sessionActive : r'.sessionActive = r.sessionActive
  totalDataSize : r'.totalDataSize = r.totalDataSize
  totalPackets : r'.totalPackets = r.totalPackets

theorem SameSession.refl : SameSession r r := ⟨rfl, rfl, rfl, rfl⟩

theorem takeBuffered_session (fuel : Nat) :
    SameSession r (takeBuffered fuel r) ∧
      (takeBuffered fuel r).endPacketReceived = r.endPacketReceived := by
  induction fuel generalizing r with
  | zero => exact ⟨.refl r, rfl⟩
  | succ fuel ih =>
    unfold takeBuffered
    split
    · exact ⟨.refl r, rfl⟩
    · rename_i buffered _
      obtain ⟨hs, he⟩ := ih { r with
        reassembledData := r.reassembledData ++ buffered
        outOfOrderBuffer := r.outOfOrderBuffer.erase r.receiveWindowBase
        receiveWindowBase := u32 (r.receiveWindowBase + 1) }
      exact ⟨⟨hs.1, hs.2, hs.3, hs.4⟩, he⟩

theorem onData_session :
    SameSession r (r.onData myMac f).1 ∧
      (r.onData myMac f).1.endPacketReceived = r.endPacketReceived := by
  unfold onData
  split
  · dsimp only
    split
    · obtain ⟨hs, he⟩ := takeBuffered_session { r with
        reassembledData := r.reassembledData ++ f.payload
        receiveWindowBase := u32 (r.receiveWindowBase + 1) } r.outOfOrderBuffer.entries.length
      exact ⟨⟨hs.1, hs.2, hs.3, hs.4⟩, he⟩
    · split
      · exact ⟨.refl r, rfl⟩
      · exact ⟨⟨rfl, rfl, rfl, rfl⟩, rfl⟩
  · split <;> exact ⟨.refl r, rfl⟩

/-- While the numbers it passes are below 2 ^ 32 - 1 the 32-bit base counts like the window's. -/
theorem takeBuffered_window (fuel : Nat)
    (hlt : ∀ k ∈ r.outOfOrderBuffer, k < (r.window.drain fuel).base → k < 2 ^ 32 - 1) :
    (takeBuffered fuel r).window = r.window.drain fuel := by
  induction fuel generalizing r with
  | zero => rfl
  | succ fuel ih =>
    have hw : r.window.ahead.lookup r.window.base =
        r.outOfOrderBuffer.lookup r.receiveWindowBase := rfl
    unfold takeBuffered
    unfold Window.drain at hlt ⊢
    rw [hw] at hlt ⊢
    cases hsome : r.outOfOrderBuffer.lookup r.receiveWindowBase with
    | none => rfl
    | some buffered =>
      rw [hsome] at hlt
      dsimp only at hlt ⊢
      have hmem : r.receiveWindowBase ∈ r.outOfOrderBuffer :=
        AList.lookup_isSome.mp (by rw [hsome]; rfl)
      have hbase : u32 (r.receiveWindowBase + 1) = r.receiveWindowBase + 1 :=
        u32_of_lt (by
          have hle := Window.drain_base_le (w := ⟨r.receiveWindowBase + 1,
            r.reassembledData ++ buffered, r.outOfOrderBuffer.erase r.receiveWindowBase⟩) fuel
          have := hlt _ hmem hle
          omega)
      have hnext : Receiver.window { r with
          reassembledData := r.reassembledData ++ buffered
          outOfOrderBuffer := r.outOfOrderBuffer.erase r.receiveWindowBase
          receiveWindowBase := u32 (r.receiveWindowBase + 1) } =
          ⟨r.receiveWindowBase + 1, r.reassembledData ++ buffered,
            r.outOfOrderBuffer.erase r.receiveWindowBase⟩ := by
        rw [hbase]
        rfl
      rw [ih, hnext]
      · rfl
      · intro k hk hlast
        rw [hnext] at hlast
        exact hlt k (AList.mem_erase.mp hk).2 hlast

/-- A DATA frame in the receive window is put into the window. -/
theorem onData_put
    (hlt : ∀ k, k = f.seqNum ∨ k ∈ r.outOfOrderBuffer →
      k < (r.window.put f.seqNum f.payload).base → k < 2 ^ 32 - 1)
    (hge : r.receiveWindowBase ≤ f.seqNum)
    (hin : f.seqNum < r.receiveWindowBase + RECEIVER_WINDOW_CAPACITY) :
    (r.onData myMac f).1.window = r.window.put f.seqNum f.payload := by
  have hbw : r.window.base = r.receiveWindowBase := rfl
  have haw : r.window.ahead = r.outOfOrderBuffer := rfl
  unfold onData
  unfold Window.put at hlt ⊢
  rw [if_pos ⟨hge, hin⟩]
  rw [hbw, haw] at hlt ⊢
  dsimp only
  by_cases heq : f.seqNum = r.receiveWindowBase
  · rw [if_pos heq] at hlt ⊢
    have hbase : u32 (r.receiveWindowBase + 1) = r.receiveWindowBase + 1 :=
      u32_of_lt (by
        have hle := Window.drain_base_le (w := r.window.extend f.payload)
          r.outOfOrderBuffer.entries.length
        have := hlt _ (.inl heq.symm) hle
        omega)
    have hnext : (⟨u32 (r.receiveWindowBase + 1), r.reassembledData ++ f.payload,
        r.outOfOrderBuffer⟩ : Window UInt8) = r.window.extend f.payload := by
      rw [hbase]
      rfl
    rw [if_pos heq]
    dsimp only
    rw [takeBuffered_window]
    · exact congrArg (Window.drain _) hnext
    · intro k hk hlast
      refine hlt k (.inr hk) ?_
      rw [← hnext]
      exact hlast
  · rw [if_neg heq, if_neg heq]
    split <;> rfl

/-- So is every DATA frame while all numbers are below 2 ^ 32 - 1. -/
theorem onData_window (hlt : ∀ k ∈ r.outOfOrderBuffer, k < 2 ^ 32 - 1)
    (hseq : f.seqNum < 2 ^ 32 - 1) (hge : r.receiveWindowBase ≤ f.seqNum)
    (hin : f.seqNum < r.receiveWindowBase + RECEIVER_WINDOW_CAPACITY) :
    (r.onData myMac f).1.window = r.window.put f.seqNum f.payload := by
  refine onData_put myMac r f (fun k hk _ => ?_) hge hin
  rcases hk with rfl | hk
  · exact hseq
  · exact hlt k hk

/-- Whatever a DATA frame does, the acknowledgement is one of its number. -/
theorem onData_acks : ∀ a ∈ (r.onData myMac f).2, a = r.sendAck myMac f.senderMac f.seqNum := by
  have hone : ∀ a ∈ [r.sendAck myMac f.senderMac f.seqNum],
      a = r.sendAck myMac f.senderMac f.seqNum := fun a ha => List.mem_singleton.mp ha
  unfold onData
  split
  · dsimp only
    split
    · exact hone
    · split <;> exact hone
  · split
    · exact hone
    · exact fun a ha => absurd ha (by simp)

/-- A DATA frame beyond the receive window is not acknowledged. -/
theorem onData_beyond (h : r.receiveWindowBase + RECEIVER_WINDOW_CAPACITY ≤ f.seqNum) :
    r.onData myMac f = (r, []) := by
  unfold onData
  rw [if_neg (by omega), if_neg (by omega)]

/-- A DATA frame outside the receive window changes nothing. -/
theorem onData_outside (h : ¬(f.seqNum ≥ r.receiveWindowBase ∧
    f.seqNum < r.receiveWindowBase + RECEIVER_WINDOW_CAPACITY)) :
    (r.onData myMac f).1 = r := by
  unfold onData
  rw [if_neg h]
  split <;> rfl

end Receiver

end CdsGuard.Guard
