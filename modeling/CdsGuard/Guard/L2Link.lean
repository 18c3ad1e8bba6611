import CdsGuard.Guard.L2Sender
import CdsGuard.Lib.Transition

/-
  Senders and one receiver of `GuardL2` on a shared medium. `air` holds every frame sent so far,
  in either direction; any party may be given any of them at any time. So a frame can be lost,
  duplicated, delayed and overtaken, but not altered or invented. `receive_reliable_data` is
  called again as soon as it has returned.

  The lemmas say what the receiver does with each kind of frame of a session, and what it keeps
  while it follows one (`Tracks`).
-/

namespace CdsGuard.Guard

open CdsGuard.Lib

/-! ## The system -/

structure Link (ι : Type) where
  senders : ι → Sender
  receiver : Receiver
  air : List Bytes
  /-- How the calls of `receive_reliable_data` ended, in order. -/
  results : List CallResult

inductive LinkEvent (ι : Type) where
  /-- A step of a sending thread. -/
  | send (i : ι) (a : SendAction)
  /-- A listener thread is given a frame. -/
  | hear (i : ι) (frame : Bytes)
  /-- The receiver is given a frame. -/
  | receive (frame : Bytes)
  /-- The receiver's call ends for lack of frames. -/
  | timeout

namespace Link

variable {ι : Type} [DecidableEq ι] (sessions : ι → Session) (myMac : Mac)

/-- Before any call, with an empty medium. -/
def start : Link ι where
  senders := fun _ => .fresh
  receiver := .call ∅
  air := []
  results := []

/-- The receiver after a frame; when the call ended, after the next call. -/
def received (s : Link ι) (p : Receiver × List Bytes × Option CallResult) : Link ι :=
  { s with
    receiver := if p.2.2.isSome then .call p.1.outOfOrderBuffer else p.1
    air := s.air ++ p.2.1
    results := s.results ++ p.2.2.toList }

def step (s : Link ι) : LinkEvent ι → Option (Link ι)
  | .send i a =>
    ((s.senders i).step (sessions i) a).map fun p =>
      { s with senders := Function.update s.senders i p.1, air := s.air ++ p.2 }
  | .hear i frame =>
    if frame ∈ s.air then
      some { s with senders := Function.update s.senders i ((s.senders i).hear (sessions i) frame) }
    else none
  | .receive frame =>
    if frame ∈ s.air then some (s.received (s.receiver.receive myMac frame)) else none
  | .timeout => some { s with
      receiver := .call s.receiver.outOfOrderBuffer
      results := s.results ++ [.timedOut] }

end Link

/-! ## Frames of a session at the receiver -/

namespace Session

variable (c : Session) {myMac : Mac}

/-- What the receiver reads of a frame of the session. -/
def received (type : FrameType) (seqNum : Nat) (payload : Bytes) : ReceivedFrame where
  senderMac := c.srcMac
  type := type.code
  sessionId := c.sessionId
  seqNum
  totalSize := c.data.length
  payload

/-- The payload of DATA packet `k`. -/
def chunk (k : Nat) : Bytes := piece maxPayloadSize c.data (k - 1)

variable {c}

theorem fits (hfit : c.data.length < 2 ^ 64) (type : FrameType) {seqNum : Nat}
    (hseq : seqNum < 2 ^ 32) {payload : Bytes} (hpay : payload.length ≤ maxPayloadSize) :
    GuardL2Header.Fits
      { type := type.code, sessionId := c.sessionId, sequenceNumber := seqNum
        totalSize := c.data.length, payloadLength := payload.length, receiveWindow := 0
        crc32 := 0 } := by
  have hmax : maxPayloadSize = 1400 := rfl
  refine ⟨c.sessionId_lt, hseq, hfit, ?_, Nat.two_pow_pos 16⟩
  show payload.length < 2 ^ 16
  omega

theorem checkFrame_build (hfit : c.data.length < 2 ^ 64) (type : FrameType)
    {seqNum : Nat} (hseq : seqNum < 2 ^ 32) {payload : Bytes}
    (hpay : payload.length ≤ maxPayloadSize) :
    checkFrame myMac (c.build type seqNum payload) =
      if c.dstMac = myMac then some (c.received type seqNum payload) else none := by
  have hmax : maxPayloadSize = 1400 := rfl
  rw [build, buildFrame, checkFrame_sealFrame _ _ _ _ _ (fits hfit type hseq hpay) rfl (by omega)]
  rfl

/-- The listener does not take a frame of a sender for an acknowledgement. -/
theorem readAck_build (hfit : c.data.length < 2 ^ 64) {type : FrameType}
    (htype : type ≠ .ACK) {seqNum : Nat} (hseq : seqNum < 2 ^ 32) {payload : Bytes}
    (hpay : payload.length ≤ maxPayloadSize) (srcMac : Mac) (sessionId : Nat) :
    readAck srcMac sessionId (c.build type seqNum payload) = none := by
  have hmax : maxPayloadSize = 1400 := rfl
  rw [build, buildFrame, readAck_sealFrame _ _ _ _ _ _ (fits hfit type hseq hpay) (by omega)]
  exact if_neg fun h => htype (FrameType.code_inj h.2.2)

theorem dataFrame_eq (c : Session) (k : Nat) : c.dataFrame k = c.build .DATA k (c.chunk k) := by
  have htake : (c.data.drop ((k - 1) * maxPayloadSize)).take
      (min maxPayloadSize (c.data.length - (k - 1) * maxPayloadSize)) = c.chunk k := by
    rw [chunk, piece, ← List.take_take, ← List.length_drop, List.take_length]
  rw [dataFrame, htake]

theorem chunk_length (c : Session) (k : Nat) : (c.chunk k).length ≤ maxPayloadSize :=
  piece_length_le _ _ _

theorem readAck_frame (hfit : c.data.length < 2 ^ 64) (k : Nat) (srcMac : Mac)
    (sessionId : Nat) : readAck srcMac sessionId (c.frame k) = none := by
  have hmax := c.totalPackets_lt
  unfold frame
  split
  · exact readAck_build hfit (by decide) (by decide) (by simp) _ _
  · split
    · rw [dataFrame_eq]
      exact readAck_build hfit (by decide) (by omega) (c.chunk_length k) _ _
    · exact readAck_build hfit (by decide) c.endSeq_lt (by simp) _ _

end Session

/-! ## Acknowledgements -/

/-- An acknowledgement from the receiver at `myMac`. -/
def IsAck (myMac : Mac) (f : Bytes) : Prop :=
  ∃ dst sessionId seqNum w, sessionId < 2 ^ 32 ∧ seqNum < 2 ^ 32 ∧ w < 2 ^ 16 ∧
    f = ackFrame dst myMac sessionId seqNum w

/-- Packet `k` of the session has been acknowledged. -/
def Session.Acked (c : Session) (myMac : Mac) (air : List Bytes) (k : Nat) : Prop :=
  ∃ w < 2 ^ 16, ackFrame c.srcMac myMac c.sessionId k w ∈ air

theorem Session.Acked.mono {c : Session} {myMac : Mac} {air more : List Bytes} {k : Nat}
    (h : c.Acked myMac air k) : c.Acked myMac (air ++ more) k := by
  obtain ⟨w, hw, hmem⟩ := h
  exact ⟨w, hw, List.mem_append_left _ hmem⟩

theorem fits_ack {sessionId seqNum w : Nat} (h1 : sessionId < 2 ^ 32) (h2 : seqNum < 2 ^ 32)
    (h3 : w < 2 ^ 16) :
    GuardL2Header.Fits
      { type := FrameType.ACK.code, sessionId, sequenceNumber := seqNum, totalSize := 0
        payloadLength := 0, receiveWindow := w, crc32 := 0 } :=
  ⟨h1, h2, Nat.two_pow_pos 64, Nat.two_pow_pos 16, h3⟩

theorem readAck_ackFrame (dst myMac srcMac : Mac) (own : Nat) {sessionId seqNum w : Nat}
    (h1 : sessionId < 2 ^ 32) (h2 : seqNum < 2 ^ 32) (h3 : w < 2 ^ 16) :
    readAck srcMac own (ackFrame dst myMac sessionId seqNum w) =
      if dst = srcMac ∧ sessionId = own then some (seqNum, w) else none := by
  rw [ackFrame, readAck_sealFrame _ _ _ _ _ _ (fits_ack h1 h2 h3) (by simp)]
  simp only [and_true]

/-- What the listener takes for an acknowledgement of packet `k` is one. -/
theorem Session.acked_of_readAck {c : Session} {myMac : Mac} {air : List Bytes} {f : Bytes}
    {k w : Nat} (hf : f ∈ air) (hack : IsAck myMac f)
    (h : readAck c.srcMac c.sessionId f = some (k, w)) : c.Acked myMac air k := by
  obtain ⟨dst, sid, seq, v, h1, h2, h3, rfl⟩ := hack
  rw [readAck_ackFrame _ _ _ _ h1 h2 h3] at h
  split at h
  · rename_i hc
    cases h
    obtain ⟨rfl, rfl⟩ := hc
    exact ⟨w, h3, hf⟩
  · exact absurd h (by simp)

namespace Receiver

variable {myMac : Mac} {c : Session} {r : Receiver}

theorem availableWindow_lt (r : Receiver) : r.availableWindow < 2 ^ 16 := by
  unfold availableWindow RECEIVER_WINDOW_CAPACITY
  split <;> omega

/-- The receiver has no use for an acknowledgement. -/
theorem receive_ack (r : Receiver) {f : Bytes} (hf : IsAck myMac f) :
    r.receive myMac f = (r, [], none) ∨ r.receive myMac f = (r, [], r.finish) := by
  obtain ⟨dst, sid, seq, w, h1, h2, h3, rfl⟩ := hf
  unfold receive
  rw [ackFrame, checkFrame_sealFrame _ _ _ _ _ (fits_ack h1 h2 h3) rfl (by simp)]
  by_cases hm : dst = myMac
  · rw [if_pos hm]
    exact .inr rfl
  · rw [if_neg hm]
    exact .inl rfl

/-! ## What the receiver keeps -/

/-- The receiver is in a call that follows session `c`, and all its data is from there. -/
structure Tracks (c : Session) (r : Receiver) : Prop where
  active : r.sessionActive = true
  session : r.currentSessionId = c.sessionId
  size : r.totalDataSize = c.data.length
  packets : r.totalPackets = c.totalPackets
  holds : r.window.Holds c.chunk c.totalPackets

/-- The state that a START frame of `c` leaves. -/
def started (c : Session) : Receiver where
  currentSessionId := c.sessionId
  sessionActive := true
  totalDataSize := c.data.length
  totalPackets := packetsOf c.data.length
  receiveWindowBase := 1
  endPacketReceived := false
  reassembledData := []
  outOfOrderBuffer := ∅

theorem tracks_started (c : Session) : Tracks c (started c) where
  active := rfl
  session := rfl
  size := rfl
  packets := Session.packetsOf_eq c
  holds := {
    base_pos := Nat.le_refl 1
    base_le := by show 1 ≤ _; omega
    joined_eq := rfl
    ahead_eq := fun k d hk => by
      have hk' : (∅ : PieceMap UInt8).lookup k = some d := hk
      simp at hk' }

theorem Tracks.same (h : Tracks c r) {r' : Receiver} (hs : SameSession r r')
    (hw : r'.window.Holds c.chunk c.totalPackets) : Tracks c r' :=
  ⟨hs.sessionActive.trans h.active, hs.currentSessionId.trans h.session,
    hs.totalDataSize.trans h.size, hs.totalPackets.trans h.packets, hw⟩

/-- The END flag is no part of what is kept. -/
theorem Tracks.markEnd (h : Tracks c r) : Tracks c { r with endPacketReceived := true } :=
  h.same ⟨rfl, rfl, rfl, rfl⟩ h.holds

theorem Tracks.endSeqNum (hsize : c.data.length < 1400 * (2 ^ 32 - 2)) (h : Tracks c r) :
    r.endSeqNum = c.totalPackets + 1 := by
  rw [Receiver.endSeqNum, h.packets]
  exact Session.endSeq_eq hsize

theorem Tracks.keys_lt (hsize : c.data.length < 1400 * (2 ^ 32 - 2)) (h : Tracks c r) :
    ∀ k ∈ r.outOfOrderBuffer, k < 2 ^ 32 - 1 := by
  intro k hk
  obtain ⟨d, hd⟩ := Option.isSome_iff_exists.mp (AList.lookup_isSome.mpr hk)
  have hn := (h.holds.ahead_eq k d hd).2.1
  have := Session.totalPackets_le hsize
  omega

/-- A DATA packet of the session keeps the receiver on it. -/
theorem Tracks.onData (h : Tracks c r) (hkeys : ∀ k ∈ r.outOfOrderBuffer, k < 2 ^ 32 - 1)
    {k : Nat} (hk : k ≤ c.totalPackets) (hlt : k < 2 ^ 32 - 1) :
    Tracks c (r.onData myMac (c.received .DATA k (c.chunk k))).1 := by
  refine h.same (onData_session myMac r _).1 ?_
  by_cases hin : k ≥ r.receiveWindowBase ∧ k < r.receiveWindowBase + RECEIVER_WINDOW_CAPACITY
  · rw [onData_window _ _ _ hkeys hlt hin.1 hin.2]
    exact h.holds.put hin.1 hk
  · rw [onData_outside myMac r _ hin]
    exact h.holds

/-- A DATA packet of the session loses no packet, and is kept itself if it is acknowledged. -/
theorem onData_held (hkeys : ∀ k ∈ r.outOfOrderBuffer, k < 2 ^ 32 - 1) {k : Nat}
    (hlt : k < 2 ^ 32 - 1) {j : Nat}
    (hj : r.window.Held j ∨
      (j = k ∧ (r.onData myMac (c.received .DATA k (c.chunk k))).2 ≠ [])) :
    (r.onData myMac (c.received .DATA k (c.chunk k))).1.window.Held j := by
  by_cases hin : k ≥ r.receiveWindowBase ∧ k < r.receiveWindowBase + RECEIVER_WINDOW_CAPACITY
  · rw [onData_window _ _ _ hkeys hlt hin.1 hin.2]
    exact Window.put_held (hj.imp_right fun h => h.1)
  · rw [onData_outside myMac r _ hin]
    rcases hj with hj | ⟨rfl, hack⟩
    · exact hj
    · left
      show j < r.receiveWindowBase
      by_contra hge
      apply hack
      rw [onData_beyond myMac r (c.received .DATA j (c.chunk j)) (by show _ ≤ j; omega)]

/-- What `send_ack` sends for the session. -/
theorem sendAck_eq (myMac : Mac) (hs : r.currentSessionId = c.sessionId) (k : Nat) :
    ∃ w < 2 ^ 16, r.sendAck myMac c.srcMac k = ackFrame c.srcMac myMac c.sessionId k w :=
  ⟨r.availableWindow, availableWindow_lt r, by rw [sendAck, hs]⟩

theorem Tracks.onData_acks (h : Tracks c r) (k : Nat) :
    ∀ a ∈ (r.onData myMac (c.received .DATA k (c.chunk k))).2,
      ∃ w < 2 ^ 16, a = ackFrame c.srcMac myMac c.sessionId k w := by
  intro a ha
  rw [Receiver.onData_acks myMac r _ a ha]
  exact sendAck_eq myMac h.session k

/-- The call can only end with the data of the session. -/
theorem Tracks.finish (hsize : c.data.length < 1400 * (2 ^ 32 - 2)) (h : Tracks c r) :
    r.finish = if r.endPacketReceived = true ∧ r.receiveWindowBase = c.totalPackets + 1 then
      some (.complete c.data) else none := by
  unfold Receiver.finish
  rw [h.active, h.endSeqNum hsize, h.size]
  by_cases hc : r.endPacketReceived = true ∧ r.receiveWindowBase = c.totalPackets + 1
  · have hjoin : r.reassembledData = c.data := by
      have hj : r.reassembledData = (List.range (r.receiveWindowBase - 1)).flatMap
          fun i => c.chunk (i + 1) := h.holds.joined_eq
      have hchunk : (fun i => c.chunk (i + 1)) = piece maxPayloadSize c.data := by
        funext i
        rfl
      rw [hj, hc.2, Nat.add_sub_cancel, hchunk, range_flatMap_piece, Session.totalPackets_eq hsize]
      exact take_of_covered (by decide) c.data
    rw [if_pos ⟨rfl, hc⟩, if_pos (by rw [hjoin]), if_pos hc, hjoin]
  · rw [if_neg fun hcc => hc hcc.2, if_neg hc]

/-! ## What the receiver does with a frame -/

/-- A frame to another machine. -/
theorem receive_elsewhere (hfit : c.data.length < 2 ^ 64) (hdst : c.dstMac ≠ myMac)
    (k : Nat) : r.receive myMac (c.frame k) = (r, [], none) := by
  have hmax := c.totalPackets_lt
  have hnone : checkFrame myMac (c.frame k) = none := by
    unfold Session.frame
    split
    · rw [Session.startFrame, Session.checkFrame_build hfit _ (by decide) (by simp), if_neg hdst]
    · split
      · rw [Session.dataFrame_eq, Session.checkFrame_build hfit _ (by omega) (c.chunk_length k),
          if_neg hdst]
      · rw [Session.endFrame, Session.checkFrame_build hfit _ c.endSeq_lt (by simp), if_neg hdst]
  rw [receive, hnone]

theorem receive_start (hfit : c.data.length < 2 ^ 64) (hdst : c.dstMac = myMac) :
    r.receive myMac c.startFrame =
      (started c, [(started c).sendAck myMac c.srcMac 0], none) := by
  rw [receive, Session.startFrame, Session.checkFrame_build hfit _ (by decide) (by simp),
    if_pos hdst]
  rfl

theorem receive_data (hfit : c.data.length < 2 ^ 64) (hdst : c.dstMac = myMac)
    {k : Nat} (hk : k ≤ c.totalPackets) :
    r.receive myMac (c.dataFrame k) =
      if r.sessionActive = true ∧ r.currentSessionId = c.sessionId then
        ((r.onData myMac (c.received .DATA k (c.chunk k))).1,
          (r.onData myMac (c.received .DATA k (c.chunk k))).2,
          (r.onData myMac (c.received .DATA k (c.chunk k))).1.finish)
      else (r, [], none) := by
  have hmax := c.totalPackets_lt
  rw [receive, Session.dataFrame_eq, Session.checkFrame_build hfit _ (by omega) (c.chunk_length k),
    if_pos hdst]
  dsimp only
  unfold process
  have htype : (c.received .DATA k (c.chunk k)).type = FrameType.DATA.code := rfl
  rw [htype, if_neg (by decide), if_pos rfl]
  by_cases hc : r.sessionActive = true ∧ r.currentSessionId = c.sessionId
  · rw [if_neg (by simp [hc.1, hc.2, Session.received]), if_pos hc]
  · rw [if_pos, if_neg hc]
    by_contra hcon
    rw [not_or, not_not, not_ne_iff] at hcon
    exact hc hcon

theorem receive_end (hfit : c.data.length < 2 ^ 64) (hdst : c.dstMac = myMac) :
    r.receive myMac c.endFrame =
      ((r.onEnd myMac (c.received .END c.endSeq [])).1,
        (r.onEnd myMac (c.received .END c.endSeq [])).2,
        (r.onEnd myMac (c.received .END c.endSeq [])).1.finish) := by
  rw [receive, Session.endFrame, Session.checkFrame_build hfit _ c.endSeq_lt (by simp),
    if_pos hdst]
  rfl

end Receiver

end CdsGuard.Guard
