import CdsGuard.Guard.L2Receiver

/-
  `GuardL2Sender::send_reliable_data` with its two threads. The sending thread is a state
  machine whose steps are what it does between two points where it holds no lock or waits; the
  listener thread takes one acknowledgement at a time under `buffer_mutex_` (`hear`).

  Time is left out: which packets are past their timeout when the window loop wakes up is a
  choice (`wake`), and so is when a handshake gives up waiting (`expire`). The double `cwnd_`
  counts in steps of 1 and is a natural number.

  Proved: the machine sends no frame but those of its session, and END only when every DATA
  frame has been acknowledged (`step_inv`); it returns true only when END has been (`Inv.done`).
-/

namespace CdsGuard.Guard

open CdsGuard.Lib

/-- A sender object and the data of its one call. -/
structure Session where
  srcMac : Mac
  dstMac : Mac
  sessionId : Nat
  sessionId_lt : sessionId < 2 ^ 32
  data : Bytes

namespace Session

variable (c : Session)

/-- `build_frame`, with `total_data_size_` set from the data. -/
def build (type : FrameType) (seqNum : Nat) (payload : Bytes) : Bytes :=
  buildFrame c.dstMac c.srcMac c.sessionId c.data.length type seqNum payload

/-- `total_packets`, as the sender computes it. -/
def totalPackets : Nat := u32 (u64 (c.data.length + maxPayloadSize - 1) / maxPayloadSize)

def endSeq : Nat := u32 (c.totalPackets + 1)

def startFrame : Bytes := c.build .START 0 []

/-- The DATA frame of the window loop: `data.subspan(offset, chunk_size)`. -/
def dataFrame (seq : Nat) : Bytes :=
  let offset := (seq - 1) * maxPayloadSize
  let chunkSize := min maxPayloadSize (c.data.length - offset)
  c.build .DATA seq ((c.data.drop offset).take chunkSize)

def endFrame : Bytes := c.build .END c.endSeq []

end Session

structure SentPacketInfo where
  frameData : Bytes
  acked : Bool
  deriving DecidableEq

abbrev SendBuffer := AList fun _ : Nat => SentPacketInfo

/-- Where the sending thread stands. -/
inductive SendPc where
  /-- Before the call. -/
  | idle
  /-- In the START handshake, after so many tries: about to send, and waiting. -/
  | startSend (tries : Nat)
  | startWait (tries : Nat)
  /-- At the head of the window loop; with `cwnd_` read; with `frames_to_send` filled. -/
  | window
  | fill (currentCwnd : Nat)
  | transmit (framesToSend : List (Nat × Bytes))
  /-- After the transmission, and inside the wait of the loop. -/
  | await
  | blocked
  /-- In the END handshake. -/
  | endSend (tries : Nat)
  | endWait (tries : Nat)
  /-- Returned. -/
  | done (ok : Bool)
  deriving DecidableEq

structure Sender where
  pc : SendPc
  sendBuffer : SendBuffer
  cwnd : Nat
  ssthresh : Nat
  ackCount : Nat
  rwnd : Nat
  sendWindowBase : Nat
  nextSeqNum : Nat

/-- A new sender object. -/
def Sender.fresh : Sender where
  pc := .idle
  sendBuffer := ∅
  cwnd := 1
  ssthresh := 64
  ackCount := 0
  rwnd := 64
  sendWindowBase := 1
  nextSeqNum := 1

/-- What happens to the sending thread: it goes on, a handshake wait times out, or the wait of
    the window loop ends while the given packets are past their timeout. -/
inductive SendAction where
  | go
  | expire
  | wake (expired : List Nat)

namespace Sender

variable (c : Session) (s : Sender)

/-- `send_buffer_.contains(k) && send_buffer_[k].acked`. -/
def isAcked (k : Nat) : Bool :=
  match s.sendBuffer.lookup k with
  | some p => p.acked
  | none => false

/-- `send_buffer_.contains(k) && !send_buffer_[k].acked`. -/
def inFlight (k : Nat) : Bool :=
  match s.sendBuffer.lookup k with
  | some p => !p.acked
  | none => false

/-- The start of `send_reliable_data`, up to the START frame in the buffer. -/
def call : Sender where
  pc := .startSend 0
  sendBuffer := AList.singleton 0 ⟨c.startFrame, false⟩
  cwnd := 1
  ssthresh := 64
  ackCount := 0
  rwnd := 64
  sendWindowBase := 1
  nextSeqNum := 1

/-- The numbers of the `for` loop that fills `frames_to_send`; the end of the window is a
    `uint32_t`. -/
def windowSeqs (currentCwnd : Nat) : List Nat :=
  let effectiveWindow := min currentCwnd s.rwnd
  let windowEnd := min (u32 (s.sendWindowBase + effectiveWindow)) (c.totalPackets + 1)
  List.range' s.nextSeqNum (windowEnd - s.nextSeqNum)

/-- One round of the loop over `frames_to_send`. -/
def transmitOne (kf : Nat × Bytes) : Sender :=
  { s with
    sendBuffer := s.sendBuffer.insert kf.1 ⟨kf.2, false⟩
    nextSeqNum := if kf.1 ≥ s.nextSeqNum then u32 (kf.1 + 1) else s.nextSeqNum }

/-- `on_packet_loss`. -/
def onPacketLoss : Sender :=
  { s with ssthresh := max 2 (s.cwnd / 2), cwnd := 1, ackCount := 0 }

/-- The sent packets that are not acknowledged. -/
def outstanding : List Nat :=
  (List.range' s.sendWindowBase (s.nextSeqNum - s.sendWindowBase)).filter fun k => s.inFlight k

/-- Sliding the window over the acknowledged packets. Each round takes one entry out of the
    buffer, so the number of entries is enough `fuel`. -/
def slide : Nat → Sender → Sender
  | 0, s => s
  | fuel + 1, s =>
    if s.isAcked s.sendWindowBase then
      slide fuel { s with
        sendBuffer := s.sendBuffer.erase s.sendWindowBase
        sendWindowBase := u32 (s.sendWindowBase + 1) }
    else s

/-- The rest of the window loop behind its wait: retransmission, then the slide. -/
def afterWait (expired : List Nat) : Sender × List Bytes :=
  let retransmitSeqs := s.outstanding.filter fun k => k ∈ expired
  let s' := if retransmitSeqs.isEmpty then s else s.onPacketLoss
  ({ slide s.sendBuffer.entries.length s' with pc := .window },
    retransmitSeqs.filterMap fun k => (s.sendBuffer.lookup k).map SentPacketInfo.frameData)

/-- One try of a handshake on packet `k`: after five the call fails, otherwise the frame of the
    buffer is sent. -/
def tryHandshake (k tries : Nat) (wait : SendPc) : Option (Sender × List Bytes) :=
  if tries < 5 then
    (s.sendBuffer.lookup k).map fun p => ({ s with pc := wait }, [p.frameData])
  else some ({ s with pc := .done false }, [])

/-- A step of the sending thread: the state behind it and the frames sent. -/
def step : SendAction → Option (Sender × List Bytes)
  | .go =>
    match s.pc with
    | .idle => some (call c, [])
    | .startSend tries => s.tryHandshake 0 tries (.startWait tries)
    | .startWait _ =>
      if s.isAcked 0 then some ({ s with pc := .window, sendWindowBase := 1, nextSeqNum := 1 }, [])
      else none
    | .window =>
      if s.sendWindowBase ≤ c.totalPackets then some ({ s with pc := .fill (u32 s.cwnd) }, [])
      else some ({ s with
        pc := .endSend 0
        sendBuffer := s.sendBuffer.insert c.endSeq ⟨c.endFrame, false⟩ }, [])
    | .fill currentCwnd =>
      some ({ s with
        pc := .transmit ((s.windowSeqs c currentCwnd).map fun k => (k, c.dataFrame k)) }, [])
    | .transmit framesToSend =>
      some ({ framesToSend.foldl transmitOne s with pc := .await }, framesToSend.map Prod.snd)
    | .await =>
      if s.outstanding ≠ [] ∨ s.nextSeqNum ≤ c.totalPackets then
        some ({ s with pc := .blocked }, [])
      else some (s.afterWait [])
    | .blocked => none
    | .endSend tries => s.tryHandshake c.endSeq tries (.endWait tries)
    | .endWait _ => if s.isAcked c.endSeq then some ({ s with pc := .done true }, []) else none
    | .done _ => none
  | .expire =>
    match s.pc with
    | .startWait tries =>
      if s.isAcked 0 then none else some ({ s with pc := .startSend (tries + 1) }, [])
    | .endWait tries =>
      if s.isAcked c.endSeq then none else some ({ s with pc := .endSend (tries + 1) }, [])
    | _ => none
  | .wake expired =>
    match s.pc with
    | .blocked => some (s.afterWait expired)
    | _ => none

/-- `on_ack_received`. -/
def onAckReceived (ackSeq advertisedWindow : Nat) : Sender :=
  let s := { s with rwnd := advertisedWindow }
  if ackSeq = 0 ∨ ackSeq > u64 (c.data.length + 1400 - 1) / 1400 then s
  else if s.cwnd < s.ssthresh then { s with cwnd := s.cwnd + 1 }
  else if u32 (s.ackCount + 1) ≥ u32 s.cwnd then { s with cwnd := s.cwnd + 1, ackCount := 0 }
  else { s with ackCount := u32 (s.ackCount + 1) }

/-- One round of `ack_listener_thread` on what the socket delivers. -/
def hear (frame : Bytes) : Sender :=
  match readAck c.srcMac c.sessionId frame with
  | none => s
  | some (ackSeq, advertisedWindow) =>
    match s.sendBuffer.lookup ackSeq with
    | none => s
    | some p =>
      if p.acked then s
      else
        { s with sendBuffer := s.sendBuffer.insert ackSeq { p with acked := true } }.onAckReceived c
          ackSeq advertisedWindow

end Sender

/-! ## Packet numbers -/

namespace Session

variable {c : Session}

theorem totalPackets_eq (hsize : c.data.length < 1400 * (2 ^ 32 - 2)) :
    c.totalPackets = pieceCount maxPayloadSize c.data.length := by
  have hle := pieceCount_le (show 0 < maxPayloadSize by decide) hsize
  have hcount : u64 (c.data.length + maxPayloadSize - 1) / maxPayloadSize =
      pieceCount maxPayloadSize c.data.length := by
    rw [u64_of_lt (by unfold maxPayloadSize; omega)]
    rfl
  rw [totalPackets, hcount, u32_of_lt (by omega)]

theorem totalPackets_le (hsize : c.data.length < 1400 * (2 ^ 32 - 2)) :
    c.totalPackets ≤ 2 ^ 32 - 2 := by
  rw [totalPackets_eq hsize]
  exact pieceCount_le (by decide) hsize

theorem totalPackets_lt (c : Session) : c.totalPackets < 2 ^ 32 :=
  Nat.mod_lt _ (Nat.two_pow_pos 32)

theorem endSeq_lt (c : Session) : c.endSeq < 2 ^ 32 := Nat.mod_lt _ (Nat.two_pow_pos 32)

/-- The size of the data fits its header field. -/
theorem length_lt (hsize : c.data.length < 1400 * (2 ^ 32 - 2)) : c.data.length < 2 ^ 64 :=
  hsize.trans (by decide)

theorem endSeq_eq_of_lt (h : c.totalPackets < 2 ^ 32 - 1) : c.endSeq = c.totalPackets + 1 :=
  u32_of_lt (by omega)

theorem endSeq_eq (hsize : c.data.length < 1400 * (2 ^ 32 - 2)) :
    c.endSeq = c.totalPackets + 1 :=
  endSeq_eq_of_lt (by have := totalPackets_le hsize; omega)

/-- Sender and receiver count the same packets. -/
theorem packetsOf_eq (c : Session) : Receiver.packetsOf c.data.length = c.totalPackets := by
  unfold Receiver.packetsOf
  split
  · rename_i h
    rw [totalPackets, h]
    rfl
  · rfl

/-- The frame with sequence number `k`. -/
def frame (c : Session) (k : Nat) : Bytes :=
  if k = 0 then c.startFrame else if k ≤ c.totalPackets then c.dataFrame k else c.endFrame

theorem frame_zero (c : Session) : c.frame 0 = c.startFrame := rfl

theorem frame_data {k : Nat} (h1 : 1 ≤ k) (hk : k ≤ c.totalPackets) :
    c.frame k = c.dataFrame k := by
  rw [frame, if_neg (by omega), if_pos hk]

theorem frame_end (c : Session) : c.frame (c.totalPackets + 1) = c.endFrame := by
  rw [frame, if_neg (by omega), if_neg (by omega)]

/-- Every DATA frame has been acknowledged. -/
def AllAcked (c : Session) (acked : Nat → Prop) : Prop :=
  ∀ k, 1 ≤ k → k ≤ c.totalPackets → acked k

/-- A frame that the sender may send when the packets in `acked` have been acknowledged. -/
def Emits (c : Session) (acked : Nat → Prop) (f : Bytes) : Prop :=
  ∃ k ≤ c.totalPackets + 1, f = c.frame k ∧ (k = c.totalPackets + 1 → c.AllAcked acked)

theorem Emits.frame {acked : Nat → Prop} {f : Bytes} (h : c.Emits acked f) :
    ∃ k, f = c.frame k := by
  obtain ⟨k, -, hf, -⟩ := h
  exact ⟨k, hf⟩

theorem Emits.mono {A B : Nat → Prop} {f : Bytes} (h : c.Emits A f) (hAB : ∀ k, A k → B k) :
    c.Emits B f := by
  obtain ⟨k, hk, hf, hend⟩ := h
  exact ⟨k, hk, hf, fun he j h1 hj => hAB j (hend he j h1 hj)⟩

end Session

/-! ## Invariant -/

namespace Sender

variable {c : Session} {s : Sender} {acked : Nat → Prop}

/-- The window and the buffer. The END frame enters the buffer when the base is past the last
    packet. -/
structure Buffered (c : Session) (acked : Nat → Prop) (s : Sender) : Prop where
  base_pos : 1 ≤ s.sendWindowBase
  base_le : s.sendWindowBase ≤ c.totalPackets + 1
  next_pos : 1 ≤ s.nextSeqNum
  slid : ∀ k, 1 ≤ k → k < s.sendWindowBase → acked k
  buffer : ∀ k p, s.sendBuffer.lookup k = some p →
    p.frameData = c.frame k ∧ (p.acked = true → acked k) ∧
      (k ≤ c.totalPackets ∨ (k = c.totalPackets + 1 ∧ c.totalPackets < s.sendWindowBase))

/-- What holds where the sending thread stands: the window has not moved before the loop, is open
    inside a round of it, and is past the last packet behind it. -/
def AtPc (c : Session) (acked : Nat → Prop) (base : Nat) : SendPc → Prop
  | .idle | .startSend _ | .startWait _ => base = 1
  | .window | .done false => True
  | .fill _ | .await | .blocked => base ≤ c.totalPackets
  | .transmit fs => base ≤ c.totalPackets ∧
      ∀ kf ∈ fs, 1 ≤ kf.1 ∧ kf.1 ≤ c.totalPackets ∧ kf.2 = c.dataFrame kf.1
  | .endSend _ | .endWait _ => c.totalPackets < base
  | .done true => c.totalPackets < base ∧ acked (c.totalPackets + 1)

/-- What holds of the sender when the packets in `acked` have been acknowledged. -/
structure Inv (c : Session) (acked : Nat → Prop) (s : Sender) : Prop
    extends Buffered c acked s where
  at_pc : AtPc c acked s.sendWindowBase s.pc

theorem Buffered.mono {B : Nat → Prop} (h : Buffered c acked s) (hB : ∀ k, acked k → B k) :
    Buffered c B s :=
  { h with
    slid := fun k h1 hk => hB k (h.slid k h1 hk)
    buffer := fun k p hp => by
      obtain ⟨hf, ha, hk⟩ := h.buffer k p hp
      exact ⟨hf, fun h => hB k (ha h), hk⟩ }

theorem Inv.mono {B : Nat → Prop} (h : Inv c acked s) (hB : ∀ k, acked k → B k) : Inv c B s :=
  { h with
    toBuffered := h.toBuffered.mono hB
    at_pc := by
      have hpc := h.at_pc
      revert hpc
      cases s.pc with
      | done ok =>
        cases ok with
        | true => exact fun hd => ⟨hd.1, hB _ hd.2⟩
        | false => exact id
      | _ => exact id }

theorem inv_fresh (c : Session) (acked : Nat → Prop) : Inv c acked fresh where
  base_pos := Nat.le_refl 1
  base_le := by show 1 ≤ _; omega
  next_pos := Nat.le_refl 1
  slid := fun k h1 hk => absurd hk (by show ¬k < 1; omega)
  buffer := fun k p hp => by
    have hp' : (∅ : SendBuffer).lookup k = some p := hp
    simp at hp'
  at_pc := rfl

theorem inv_call (c : Session) (acked : Nat → Prop) : Inv c acked (call c) where
  base_pos := Nat.le_refl 1
  base_le := by show 1 ≤ _; omega
  next_pos := Nat.le_refl 1
  slid := fun k h1 hk => absurd hk (by show ¬k < 1; omega)
  buffer := fun k p hp => by
    have hp' : (AList.singleton 0 ⟨c.startFrame, false⟩ : SendBuffer).lookup k = some p := hp
    have hk : k = 0 := by
      have hmem := AList.lookup_isSome.mp (show (AList.lookup k _).isSome by rw [hp']; rfl)
      simpa [AList.mem_keys] using hmem
    subst hk
    have : p = ⟨c.startFrame, false⟩ := by simpa [AList.lookup] using hp'.symm
    subst this
    exact ⟨rfl, fun h => absurd h (by simp), .inl (Nat.zero_le _)⟩
  at_pc := rfl

/-- A frame of the buffer may be sent. -/
theorem Buffered.emits (h : Buffered c acked s) {k : Nat} {p : SentPacketInfo}
    (hp : s.sendBuffer.lookup k = some p) : c.Emits acked p.frameData := by
  obtain ⟨hf, -, hk⟩ := h.buffer k p hp
  rcases hk with hk | ⟨hk, hbase⟩
  · exact ⟨k, by omega, hf, fun he => absurd he (by omega)⟩
  · exact ⟨k, by omega, hf, fun _ j h1 hj => h.slid j h1 (by omega)⟩

theorem Buffered.of_acked (h : Buffered c acked s) {k : Nat} (hk : s.isAcked k = true) :
    acked k := by
  unfold isAcked at hk
  split at hk
  · rename_i p hp
    exact (h.buffer k p hp).2.1 hk
  · exact absurd hk (by decide)

/-- Sending a packet of the data for the first time. -/
theorem Buffered.transmitOne (h : Buffered c acked s) {k : Nat} (h1 : 1 ≤ k)
    (hk : k ≤ c.totalPackets) (hlt : k < 2 ^ 32 - 1) :
    Buffered c acked (s.transmitOne (k, c.dataFrame k)) := by
  refine { h with next_pos := ?_, buffer := fun j p hp => ?_ }
  · show 1 ≤ if k ≥ s.nextSeqNum then u32 (k + 1) else s.nextSeqNum
    split
    · rw [u32_of_lt (by omega)]
      omega
    · exact h.next_pos
  · have hp' : (s.sendBuffer.insert k ⟨c.dataFrame k, false⟩).lookup j = some p := hp
    by_cases hj : j = k
    · subst hj
      rw [AList.lookup_insert] at hp'
      obtain rfl := Option.some.inj hp'
      exact ⟨(Session.frame_data h1 hk).symm, fun h => absurd h (by simp), .inl hk⟩
    · rw [AList.lookup_insert_ne hj] at hp'
      exact h.buffer j p hp'

theorem foldl_transmitOne_base (fs : List (Nat × Bytes)) (s : Sender) :
    (fs.foldl Sender.transmitOne s).sendWindowBase = s.sendWindowBase := by
  induction fs generalizing s with
  | nil => rfl
  | cons kf fs ih => exact ih _

theorem Buffered.transmit (hsize : c.data.length < 1400 * (2 ^ 32 - 2))
    (fs : List (Nat × Bytes)) (h : Buffered c acked s)
    (hfs : ∀ kf ∈ fs, 1 ≤ kf.1 ∧ kf.1 ≤ c.totalPackets ∧ kf.2 = c.dataFrame kf.1) :
    Buffered c acked (fs.foldl Sender.transmitOne s) := by
  induction fs generalizing s with
  | nil => exact h
  | cons kf fs ih =>
    obtain ⟨k, f⟩ := kf
    obtain ⟨h1, hk, hf⟩ := hfs (k, f) List.mem_cons_self
    have hf' : f = c.dataFrame k := hf
    subst hf'
    have hmax := Session.totalPackets_le hsize
    exact ih (h.transmitOne h1 hk (by omega)) fun kf hkf => hfs kf (List.mem_cons_of_mem _ hkf)

/-- One round of the slide. -/
def slideOne (s : Sender) : Sender :=
  { s with
    sendBuffer := s.sendBuffer.erase s.sendWindowBase
    sendWindowBase := u32 (s.sendWindowBase + 1) }

theorem slide_succ (fuel : Nat) (s : Sender) :
    slide (fuel + 1) s = if s.isAcked s.sendWindowBase then slide fuel s.slideOne else s :=
  rfl

theorem mem_of_isAcked {k : Nat} (h : s.isAcked k = true) : k ∈ s.sendBuffer := by
  apply AList.lookup_isSome.mp
  unfold isAcked at h
  split at h
  · rename_i p hp
    rw [hp]
    rfl
  · exact absurd h (by decide)

/-- The slide passes an acknowledged packet, which is not the END frame. -/
theorem Buffered.slideOne (h : Buffered c acked s) (hdata : ∀ k ∈ s.sendBuffer, k ≤ c.totalPackets)
    (hlt : s.sendWindowBase < 2 ^ 32 - 1) (hacked : s.isAcked s.sendWindowBase = true) :
    Buffered c acked s.slideOne := by
  have hle := hdata _ (mem_of_isAcked hacked)
  have hnext : u32 (s.sendWindowBase + 1) = s.sendWindowBase + 1 := u32_of_lt (by omega)
  unfold Sender.slideOne
  rw [hnext]
  refine { h with base_pos := ?_, base_le := ?_, slid := ?_, buffer := ?_ }
  · show 1 ≤ s.sendWindowBase + 1
    omega
  · show s.sendWindowBase + 1 ≤ c.totalPackets + 1
    omega
  · intro k h1 hk
    have hk' : k < s.sendWindowBase + 1 := hk
    by_cases heq : k = s.sendWindowBase
    · rw [heq]
      exact h.of_acked hacked
    · exact h.slid k h1 (by omega)
  · intro k p hp
    have hp' : (s.sendBuffer.erase s.sendWindowBase).lookup k = some p := hp
    have hne : k ≠ s.sendWindowBase := by
      intro heq
      rw [heq, AList.lookup_erase] at hp'
      exact absurd hp' (by simp)
    rw [AList.lookup_erase_ne hne] at hp'
    obtain ⟨hf, ha, -⟩ := h.buffer k p hp'
    have hmem' : k ∈ s.sendBuffer := AList.lookup_isSome.mp (by rw [hp']; rfl)
    exact ⟨hf, ha, .inl (hdata k hmem')⟩

theorem Buffered.slide (hsize : c.data.length < 1400 * (2 ^ 32 - 2)) (fuel : Nat)
    (h : Buffered c acked s) (hdata : ∀ k ∈ s.sendBuffer, k ≤ c.totalPackets) :
    Buffered c acked (slide fuel s) := by
  induction fuel generalizing s with
  | zero => exact h
  | succ fuel ih =>
    rw [slide_succ]
    split
    · rename_i hacked
      have hle := hdata _ (mem_of_isAcked hacked)
      have hmax := Session.totalPackets_le hsize
      exact ih (h.slideOne hdata (by omega) hacked) fun k hk => hdata k (AList.mem_erase.mp hk).2
    · exact h

/-- Inside the loop the buffer holds no END frame. -/
theorem Buffered.data_of_le (h : Buffered c acked s) (hle : s.sendWindowBase ≤ c.totalPackets) :
    ∀ k ∈ s.sendBuffer, k ≤ c.totalPackets := by
  intro k hk
  obtain ⟨p, hp⟩ := Option.isSome_iff_exists.mp (AList.lookup_isSome.mpr hk)
  obtain ⟨-, -, hk | ⟨-, hlt⟩⟩ := h.buffer k p hp
  · exact hk
  · omega

/-- The buffer does not depend on where the thread stands. -/
theorem Buffered.goto (h : Buffered c acked s) (pc : SendPc)
    (hpc : AtPc c acked s.sendWindowBase pc) : Inv c acked { s with pc := pc } :=
  { h with at_pc := hpc }

theorem Buffered.onPacketLoss (h : Buffered c acked s) : Buffered c acked s.onPacketLoss :=
  { h with }

/-- The step sends nothing. -/
theorem Inv.quiet (h : Inv c acked s) :
    Inv c acked s ∧ ∀ f ∈ ([] : List Bytes), c.Emits acked f :=
  ⟨h, fun _ hf => absurd hf (by simp)⟩

theorem Buffered.afterWait (hsize : c.data.length < 1400 * (2 ^ 32 - 2))
    (h : Buffered c acked s) (hle : s.sendWindowBase ≤ c.totalPackets) (expired : List Nat) :
    Inv c acked (s.afterWait expired).1 ∧
      ∀ f ∈ (s.afterWait expired).2, c.Emits acked f := by
  have hdata := h.data_of_le hle
  refine ⟨?_, ?_⟩
  · unfold Sender.afterWait
    refine Buffered.goto (Buffered.slide hsize _ ?_ ?_) .window trivial
    · split
      · exact h
      · exact h.onPacketLoss
    · split
      · exact hdata
      · exact hdata
  · intro f hf
    obtain ⟨k, -, hk⟩ := List.mem_filterMap.mp hf
    obtain ⟨p, hp, rfl⟩ := Option.map_eq_some_iff.mp hk
    exact h.emits hp

theorem Buffered.tryHandshake (h : Buffered c acked s) {k tries : Nat} (wait : SendPc)
    (hw : AtPc c acked s.sendWindowBase wait) {s' : Sender} {out : List Bytes}
    (hs : s.tryHandshake k tries wait = some (s', out)) :
    Inv c acked s' ∧ ∀ f ∈ out, c.Emits acked f := by
  unfold Sender.tryHandshake at hs
  split at hs
  · obtain ⟨p, hp, heq⟩ := Option.map_eq_some_iff.mp hs
    cases heq
    refine ⟨h.goto wait hw, fun f hf => ?_⟩
    rw [List.mem_singleton.mp hf]
    exact h.emits hp
  · cases hs
    exact (h.goto (.done false) trivial).quiet

/-- END enters the buffer. -/
theorem Buffered.insertEnd (h : Buffered c acked s) (hmax : c.totalPackets < 2 ^ 32 - 1)
    (hlt : c.totalPackets < s.sendWindowBase) :
    Buffered c acked
      { s with sendBuffer := s.sendBuffer.insert c.endSeq ⟨c.endFrame, false⟩ } := by
  refine { h with buffer := fun k p hp => ?_ }
  have hp' : (s.sendBuffer.insert c.endSeq ⟨c.endFrame, false⟩).lookup k = some p := hp
  by_cases hk : k = c.endSeq
  · subst hk
    rw [AList.lookup_insert] at hp'
    obtain rfl := Option.some.inj hp'
    rw [Session.endSeq_eq_of_lt hmax]
    exact ⟨(Session.frame_end c).symm, fun h => absurd h (by simp), .inr ⟨rfl, hlt⟩⟩
  · rw [AList.lookup_insert_ne hk] at hp'
    exact h.buffer k p hp'

/-- The numbers to send are those of DATA packets. -/
theorem windowSeqs_mem {currentCwnd k : Nat} (hnext : 1 ≤ s.nextSeqNum)
    (hk : k ∈ s.windowSeqs c currentCwnd) : 1 ≤ k ∧ k ≤ c.totalPackets := by
  obtain ⟨hge, hlt⟩ := List.mem_range'_1.mp hk
  omega

/-- A step of the sending thread keeps the invariant and sends frames of the session only. -/
theorem step_inv (hsize : c.data.length < 1400 * (2 ^ 32 - 2)) (h : Inv c acked s)
    {a : SendAction} {s' : Sender} {out : List Bytes} (hs : s.step c a = some (s', out)) :
    Inv c acked s' ∧ ∀ f ∈ out, c.Emits acked f := by
  obtain ⟨hbuf, hpc⟩ := h
  cases a with
  | go =>
    unfold Sender.step at hs
    dsimp only at hs
    split at hs <;> rename_i heq <;> rw [heq] at hpc
    · -- idle
      cases hs
      exact (inv_call c acked).quiet
    · -- startSend
      rename_i tries
      exact hbuf.tryHandshake (.startWait tries) hpc hs
    · -- startWait
      split at hs
      · cases hs
        have hone : s.sendWindowBase = 1 := hpc
        have hreset : Buffered c acked { s with sendWindowBase := 1, nextSeqNum := 1 } := by
          rw [← hone]
          exact { hbuf with next_pos := by rw [hone] }
        exact (hreset.goto .window trivial).quiet
      · exact absurd hs (by simp)
    · -- window
      split at hs
      · rename_i hle
        cases hs
        exact (hbuf.goto (.fill (u32 s.cwnd)) hle).quiet
      · rename_i hgt
        have hlt : c.totalPackets < s.sendWindowBase := by omega
        cases hs
        have hmax := Session.totalPackets_le hsize
        exact ((hbuf.insertEnd (by omega) hlt).goto (.endSend 0) hlt).quiet
    · -- fill
      rename_i currentCwnd
      cases hs
      refine (hbuf.goto (.transmit _) ⟨hpc, fun kf hkf => ?_⟩).quiet
      obtain ⟨k, hk, rfl⟩ := List.mem_map.mp hkf
      obtain ⟨h1, hle⟩ := windowSeqs_mem hbuf.next_pos hk
      exact ⟨h1, hle, rfl⟩
    · -- transmit
      rename_i fs
      cases hs
      obtain ⟨hle, hplan⟩ := hpc
      refine ⟨(hbuf.transmit hsize fs hplan).goto .await ?_, fun f hf => ?_⟩
      · rw [foldl_transmitOne_base]
        exact hle
      · obtain ⟨kf, hkf, rfl⟩ := List.mem_map.mp hf
        obtain ⟨h1, hk, hframe⟩ := hplan kf hkf
        exact ⟨kf.1, by omega, by rw [hframe, Session.frame_data h1 hk],
          fun he => absurd he (by omega)⟩
    · -- await
      split at hs
      · cases hs
        exact (hbuf.goto .blocked hpc).quiet
      · have := hbuf.afterWait hsize hpc []
        rwa [Option.some.inj hs] at this
    · -- blocked
      exact absurd hs (by simp)
    · -- endSend
      rename_i tries
      exact hbuf.tryHandshake (.endWait tries) hpc hs
    · -- endWait
      split at hs
      · rename_i hacked
        have hend := hbuf.of_acked hacked
        rw [Session.endSeq_eq hsize] at hend
        cases hs
        exact (hbuf.goto (.done true) ⟨hpc, hend⟩).quiet
      · exact absurd hs (by simp)
    · -- done
      exact absurd hs (by simp)
  | expire =>
    unfold Sender.step at hs
    dsimp only at hs
    split at hs
    · rename_i tries heq
      rw [heq] at hpc
      obtain ⟨-, hs⟩ := Option.ite_none_left_eq_some.mp hs
      cases hs
      exact (hbuf.goto (.startSend (tries + 1)) hpc).quiet
    · rename_i tries heq
      rw [heq] at hpc
      obtain ⟨-, hs⟩ := Option.ite_none_left_eq_some.mp hs
      cases hs
      exact (hbuf.goto (.endSend (tries + 1)) hpc).quiet
    · exact absurd hs (by simp)
  | wake expired =>
    unfold Sender.step at hs
    dsimp only at hs
    split at hs
    · rename_i heq
      rw [heq] at hpc
      have := hbuf.afterWait hsize hpc expired
      rwa [Option.some.inj hs] at this
    · exact absurd hs (by simp)

/-- The congestion window is no part of the invariant. -/
theorem onAckReceived_frame (c : Session) (s : Sender) (ackSeq advertisedWindow : Nat) :
    (s.onAckReceived c ackSeq advertisedWindow).pc = s.pc ∧
      (s.onAckReceived c ackSeq advertisedWindow).sendBuffer = s.sendBuffer ∧
      (s.onAckReceived c ackSeq advertisedWindow).sendWindowBase = s.sendWindowBase ∧
      (s.onAckReceived c ackSeq advertisedWindow).nextSeqNum = s.nextSeqNum := by
  unfold onAckReceived
  dsimp only
  split
  · exact ⟨rfl, rfl, rfl, rfl⟩
  · split
    · exact ⟨rfl, rfl, rfl, rfl⟩
    · split <;> exact ⟨rfl, rfl, rfl, rfl⟩

theorem Buffered.congr {t : Sender} (h : Buffered c acked s)
    (hbuf : t.sendBuffer = s.sendBuffer) (hbase : t.sendWindowBase = s.sendWindowBase)
    (hnext : t.nextSeqNum = s.nextSeqNum) : Buffered c acked t := by
  obtain ⟨h1, h2, h3, h4, h5⟩ := h
  rw [← hbase] at h1 h2 h4 h5
  rw [← hnext] at h3
  rw [← hbuf] at h5
  exact ⟨h1, h2, h3, h4, h5⟩

/-- A packet of the buffer is marked as acknowledged. -/
theorem Buffered.mark (h : Buffered c acked s) {k : Nat} {p : SentPacketInfo}
    (hp : s.sendBuffer.lookup k = some p) (hk : acked k) :
    Buffered c acked { s with sendBuffer := s.sendBuffer.insert k { p with acked := true } } := by
  refine { h with buffer := fun j q hq => ?_ }
  have hq' : (s.sendBuffer.insert k { p with acked := true }).lookup j = some q := hq
  by_cases hj : j = k
  · subst hj
    rw [AList.lookup_insert] at hq'
    obtain rfl := Option.some.inj hq'
    obtain ⟨hf, -, hle⟩ := h.buffer j p hp
    exact ⟨hf, fun _ => hk, hle⟩
  · rw [AList.lookup_insert_ne hj] at hq'
    exact h.buffer j q hq'

/-- The listener keeps the invariant if what it takes for an acknowledgement is one. -/
theorem hear_inv (h : Inv c acked s) {frame : Bytes}
    (hack : ∀ k w, readAck c.srcMac c.sessionId frame = some (k, w) → acked k) :
    Inv c acked (s.hear c frame) := by
  unfold hear
  split
  · exact h
  · rename_i k w hread
    split
    · exact h
    · rename_i p hp
      split
      · exact h
      · have hmark := h.toBuffered.mark hp (hack k w hread)
        obtain ⟨e1, e2, e3, e4⟩ := onAckReceived_frame c
          { s with sendBuffer := s.sendBuffer.insert k { p with acked := true } } k w
        refine { hmark.congr e2 e3 e4 with at_pc := ?_ }
        rw [e1, e3]
        exact h.at_pc

end Sender

end CdsGuard.Guard
