import CdsGuard.Guard.L2AnyPeer

/-
  The admission of a datagram by `receive_reliable_data`, on the level of its 2048-byte
  `recv_buffer`. `recv` writes what it received over the front of the buffer and the rest stays
  what it was; when it fails it writes nothing and returns -1, which the length tests, done in
  `size_t`, take for 2 ^ 64 - 1. `admission` lists the bytes that the loop reads. The vectors of the
  call throw `std::length_error` when they are asked to grow beyond `vectorMaxSize`.

  Proved: a round is robust (`Robust`: it reads what `recv` wrote and no more, and throws nothing)
  exactly when `recv` did not fail and no vector is asked for more than its maximum
  (`robust_iff`). In that case it is the round of `Receiver.receive`.
-/

namespace CdsGuard.Guard

open CdsGuard.Lib

/-! ## Memory -/

/-- What a call of `recv` comes to. -/
inductive RecvResult where
  | error
  | datagram (bytes : Bytes) (fits : bytes.length ≤ 2048)

/-- The bytes at `recv_buffer.data()`. The array has 2048 of them, what follows is the stack. -/
abbrev Memory := Nat → UInt8

namespace RecvResult

/-- `bytes_received` as it is compared, and as it is meant. -/
def bytesReceived : RecvResult → Nat
  | error => 2 ^ 64 - 1
  | datagram bytes _ => bytes.length

def length : RecvResult → Nat
  | error => 0
  | datagram bytes _ => bytes.length

/-- The buffer after the call. -/
def store (m : Memory) : RecvResult → Memory
  | error => m
  | datagram bytes _ => fun i => bytes.getD i (m i)

/-- The frame that was received. -/
def frame (myMac : Mac) : RecvResult → Option ReceivedFrame
  | error => none
  | datagram bytes _ => checkFrame myMac bytes

end RecvResult

/-- The bytes from an offset on. -/
def Memory.read (m : Memory) (off len : Nat) : Bytes := (List.range' off len).map m

/-! ## Admission -/

structure Admission where
  /-- Offset and length of the reads of the buffer. -/
  reads : List (Nat × Nat)
  frame : Option ReceivedFrame

/-- The loop from the length test to the switch, and the payload that the switch reads. -/
def admission (myMac : Mac) (bytesReceived : Nat) (m : Memory) : Admission :=
  let payloadLen := beVal (m.read 31 2)
  let header := [(0, 6), (12, 2), (31, 2)]
  if bytesReceived < etherSize + guardSize then ⟨[], none⟩
  else if m.read 0 6 ≠ myMac.bytes then ⟨[(0, 6)], none⟩
  else if beVal (m.read 12 2) ≠ ETHERTYPE_GUARDL2 then ⟨[(0, 6), (12, 2)], none⟩
  else if bytesReceived < etherSize + guardSize + payloadLen then ⟨header, none⟩
  else if beVal (m.read 35 4) ≠
      (computeCrc32 (m.read 14 21 ++ ([0, 0, 0, 0] ++ m.read 39 payloadLen))).toNat then
    ⟨header ++ [(14, guardSize + payloadLen)], none⟩
  else
    ⟨header ++ [(14, guardSize + payloadLen), (6, 6)], some {
      senderMac := Mac.copy (m.read 6 6)
      type := m 14
      sessionId := beVal (m.read 15 4)
      seqNum := beVal (m.read 19 4)
      totalSize := beVal (m.read 23 8)
      payload := m.read 39 payloadLen }⟩

/-! ## Vectors -/

/-- `max_size()` of a vector of bytes, `PTRDIFF_MAX`. -/
def vectorMaxSize : Nat := 2 ^ 63 - 1

/-- `std::length_error`. -/
structure LengthError where

/-- `insert` at the end of `reassembled_data`. -/
def appendVector (xs ys : Bytes) : Except LengthError Bytes :=
  if vectorMaxSize < xs.length + ys.length then .error ⟨⟩ else .ok (xs ++ ys)

namespace Receiver

variable (myMac : Mac) (r : Receiver) (f : ReceivedFrame)

/-- `takeBuffered`, with its insertions. -/
def tryTakeBuffered : Nat → Receiver → Except LengthError Receiver
  | 0, r => .ok r
  | fuel + 1, r =>
    match r.outOfOrderBuffer.lookup r.receiveWindowBase with
    | none => .ok r
    | some buffered => do
      let data ← appendVector r.reassembledData buffered
      tryTakeBuffered fuel { r with
        reassembledData := data
        outOfOrderBuffer := r.outOfOrderBuffer.erase r.receiveWindowBase
        receiveWindowBase := u32 (r.receiveWindowBase + 1) }

/-- The switch of the loop. START reserves the announced size, a DATA frame that is the next
    one is appended, with those that were waiting for it. -/
def tryProcess : Except LengthError (Receiver × List Bytes × Option CallResult) :=
  if f.Starts ∧ vectorMaxSize < f.totalSize then .error ⟨⟩
  else if r.Takes f ∧ f.seqNum = r.receiveWindowBase then do
    let data ← appendVector r.reassembledData f.payload
    let r' ← tryTakeBuffered r.outOfOrderBuffer.entries.length { r with
      reassembledData := data
      receiveWindowBase := u32 (r.receiveWindowBase + 1) }
    .ok (r', [r.sendAck myMac f.senderMac f.seqNum], r'.finish)
  else .ok (r.process myMac f)

/-- The buffered payloads with consecutive numbers from `k` on. -/
def following : Nat → PieceMap UInt8 → Nat → Bytes
  | 0, _, _ => []
  | fuel + 1, m, k =>
    match m.lookup k with
    | none => []
    | some buffered => buffered ++ following fuel (m.erase k) (u32 (k + 1))

/-- No vector grows beyond its maximum: the announced size, and the reassembled data with the
    payload and those that follow it. -/
structure GrowthFits (r : Receiver) (f : ReceivedFrame) : Prop where
  start : f.Starts → f.totalSize ≤ vectorMaxSize
  data : r.Takes f → f.seqNum = r.receiveWindowBase →
    r.reassembledData.length + f.payload.length +
      (following r.outOfOrderBuffer.entries.length r.outOfOrderBuffer
        (u32 (r.receiveWindowBase + 1))).length ≤ vectorMaxSize

variable {r f}

theorem appendVector_ok {xs ys : Bytes} (h : xs.length + ys.length ≤ vectorMaxSize) :
    appendVector xs ys = .ok (xs ++ ys) := if_neg (by omega)

theorem appendVector_error {xs ys : Bytes} (h : ¬xs.length + ys.length ≤ vectorMaxSize) :
    appendVector xs ys = .error ⟨⟩ := if_pos (by omega)

/-- The loop behind an insertion throws exactly when it takes too much. -/
theorem tryTakeBuffered_spec (fuel : Nat) (r : Receiver) :
    (r.reassembledData.length +
        (following fuel r.outOfOrderBuffer r.receiveWindowBase).length ≤ vectorMaxSize →
      tryTakeBuffered fuel r = .ok (takeBuffered fuel r)) ∧
    (r.reassembledData.length ≤ vectorMaxSize →
      ¬r.reassembledData.length +
        (following fuel r.outOfOrderBuffer r.receiveWindowBase).length ≤ vectorMaxSize →
      tryTakeBuffered fuel r = .error ⟨⟩) := by
  induction fuel generalizing r with
  | zero =>
    refine ⟨fun _ => rfl, fun hle hgt => ?_⟩
    exact absurd hle (by simpa [following] using hgt)
  | succ fuel ih =>
    unfold tryTakeBuffered takeBuffered following
    cases hsome : r.outOfOrderBuffer.lookup r.receiveWindowBase with
    | none =>
      refine ⟨fun _ => rfl, fun hle hgt => ?_⟩
      exact absurd hle (by simpa using hgt)
    | some buffered =>
      dsimp only
      rw [List.length_append]
      obtain ⟨hok, herror⟩ := ih { r with
        reassembledData := r.reassembledData ++ buffered
        outOfOrderBuffer := r.outOfOrderBuffer.erase r.receiveWindowBase
        receiveWindowBase := u32 (r.receiveWindowBase + 1) }
      simp only [List.length_append] at hok herror
      refine ⟨fun hfits => ?_, fun hle hgt => ?_⟩
      · rw [appendVector_ok (by omega)]
        exact hok (by omega)
      · by_cases hstep : r.reassembledData.length + buffered.length ≤ vectorMaxSize
        · rw [appendVector_ok hstep]
          exact herror hstep (by omega)
        · rw [appendVector_error hstep]
          rfl

/-- A frame that is taken and is the next one. -/
theorem process_next (h : r.Takes f) (hseq : f.seqNum = r.receiveWindowBase) :
    r.process myMac f =
      (takeBuffered r.outOfOrderBuffer.entries.length { r with
          reassembledData := r.reassembledData ++ f.payload
          receiveWindowBase := u32 (r.receiveWindowBase + 1) },
        [r.sendAck myMac f.senderMac f.seqNum],
        (takeBuffered r.outOfOrderBuffer.entries.length { r with
          reassembledData := r.reassembledData ++ f.payload
          receiveWindowBase := u32 (r.receiveWindowBase + 1) }).finish) := by
  have hne : ¬f.type = FrameType.START.code := by
    rw [h.type]
    decide
  have hsession : ¬(¬r.sessionActive = true ∨ r.currentSessionId ≠ f.sessionId) := by
    simp [h.active, h.session]
  unfold process onData
  rw [if_neg hne, if_pos h.type, if_neg hsession, if_pos ⟨h.ge, h.lt⟩, if_pos hseq]

/-- The switch throws exactly when a vector grows too much, and else does what `process` does. -/
theorem tryProcess_spec (r : Receiver) (f : ReceivedFrame) :
    (r.GrowthFits f → r.tryProcess myMac f = .ok (r.process myMac f)) ∧
      (¬r.GrowthFits f → r.tryProcess myMac f = .error ⟨⟩) := by
  unfold tryProcess
  by_cases hstart : f.Starts ∧ vectorMaxSize < f.totalSize
  · rw [if_pos hstart]
    refine ⟨fun hfits => ?_, fun _ => rfl⟩
    have := hfits.start hstart.1
    omega
  rw [if_neg hstart]
  have hstart' : f.Starts → f.totalSize ≤ vectorMaxSize := fun h => by
    by_contra hlt
    exact hstart ⟨h, by omega⟩
  by_cases hnext : r.Takes f ∧ f.seqNum = r.receiveWindowBase
  swap
  · rw [if_neg hnext]
    exact ⟨fun _ => rfl, fun hnot => absurd ⟨hstart', fun h h' => absurd ⟨h, h'⟩ hnext⟩ hnot⟩
  rw [if_pos hnext, process_next myMac hnext.1 hnext.2]
  obtain ⟨hok, herror⟩ := tryTakeBuffered_spec r.outOfOrderBuffer.entries.length { r with
    reassembledData := r.reassembledData ++ f.payload
    receiveWindowBase := u32 (r.receiveWindowBase + 1) }
  simp only [List.length_append] at hok herror
  refine ⟨fun hfits => ?_, fun hnot => ?_⟩
  · have hdata := hfits.data hnext.1 hnext.2
    rw [appendVector_ok (by omega)]
    show (tryTakeBuffered _ _ >>= _) = _
    rw [hok hdata]
    rfl
  · have hdata : ¬r.reassembledData.length + f.payload.length +
        (following r.outOfOrderBuffer.entries.length r.outOfOrderBuffer
          (u32 (r.receiveWindowBase + 1))).length ≤ vectorMaxSize :=
      fun hdata => hnot ⟨hstart', fun _ _ => hdata⟩
    by_cases hstep : r.reassembledData.length + f.payload.length ≤ vectorMaxSize
    · rw [appendVector_ok hstep]
      show (tryTakeBuffered _ _ >>= _) = _
      rw [herror hstep hdata]
      rfl
    · rw [appendVector_error hstep]
      rfl

end Receiver

/-! ## Reading what was received -/

theorem Memory.read_store {m : Memory} {bytes : Bytes} {fits : bytes.length ≤ 2048} {off len : Nat}
    (h : off + len ≤ bytes.length) :
    ((RecvResult.datagram bytes fits).store m : Memory).read off len =
      (bytes.drop off).take len := by
  refine List.ext_getElem ?_ fun i h1 h2 => ?_
  · simp only [Memory.read, List.length_map, List.length_range', List.length_take,
      List.length_drop]
    omega
  · have hi : i < len := by simpa [Memory.read] using h1
    have hbound : off + i < bytes.length := by omega
    simp only [Memory.read, List.getElem_map, List.getElem_range', List.getElem_take,
      List.getElem_drop, RecvResult.store, Nat.one_mul]
    rw [List.getD_eq_getElem?_getD, List.getElem?_eq_getElem hbound]
    rfl

theorem Mac.copy_take (bs : Bytes) (h : 6 ≤ bs.length) : Mac.copy (bs.take 6) = Mac.copy bs := by
  refine Mac.eq_of_bytes ?_
  show (bs.take 6 ++ List.replicate 6 0).take 6 = (bs ++ List.replicate 6 0).take 6
  rw [List.take_append_of_le_length (by simp; omega), List.take_append_of_le_length h,
    List.take_take]
  rfl

/-- A datagram is admitted as `checkFrame` says, from its own bytes. -/
theorem admission_datagram (myMac : Mac) (m : Memory) (bytes : Bytes) (fits : bytes.length ≤ 2048) :
    (admission myMac bytes.length ((RecvResult.datagram bytes fits).store m)).frame =
      checkFrame myMac bytes ∧
    ∀ p ∈ (admission myMac bytes.length ((RecvResult.datagram bytes fits).store m)).reads,
      p.1 + p.2 ≤ bytes.length := by
  have hether : etherSize = 14 := rfl
  have hguard : guardSize = 25 := rfl
  unfold admission checkFrame
  rw [List.take_of_length_le fits]
  dsimp only
  by_cases hlen : bytes.length < etherSize + guardSize
  · rw [if_pos hlen, if_pos hlen]
    exact ⟨rfl, fun p hp => absurd hp (by simp)⟩
  have hread : ∀ off len, off + len ≤ 39 →
      ((RecvResult.datagram bytes fits).store m : Memory).read off len =
        (bytes.drop off).take len := fun off len h => Memory.read_store (by omega)
  have hfield : ∀ off len, field (bytes.drop etherSize) off len =
      beVal ((bytes.drop (14 + off)).take len) := by
    intro off len
    rw [field, List.drop_drop, hether]
  have hpay : (readHeader (bytes.drop etherSize)).payloadLength =
      beVal ((bytes.drop 31).take 2) := hfield 17 2
  have hcrc : (readHeader (bytes.drop etherSize)).crc32 = beVal ((bytes.drop 35).take 4) :=
    hfield 21 4
  rw [if_neg hlen, if_neg hlen, hread 0 6 (by omega), hread 12 2 (by omega), hread 31 2 (by omega),
    hread 35 4 (by omega), hread 14 21 (by omega), hpay, hcrc]
  generalize hp : beVal ((bytes.drop 31).take 2) = payloadLen
  by_cases hmac : bytes.take 6 ≠ myMac.bytes
  · rw [if_pos hmac, List.drop_zero, if_pos hmac]
    refine ⟨rfl, fun p hp => ?_⟩
    rw [List.mem_singleton.mp hp]
    omega
  rw [if_neg hmac, List.drop_zero, if_neg hmac]
  have htype : field bytes 12 2 = beVal ((bytes.drop 12).take 2) := rfl
  rw [htype]
  by_cases hguardl2 : beVal ((bytes.drop 12).take 2) ≠ ETHERTYPE_GUARDL2
  · rw [if_pos hguardl2, if_pos hguardl2]
    refine ⟨rfl, fun p hp => ?_⟩
    simp only [List.mem_cons, List.not_mem_nil, or_false] at hp
    rcases hp with rfl | rfl <;> omega
  rw [if_neg hguardl2, if_neg hguardl2]
  by_cases hshort : bytes.length < etherSize + guardSize + payloadLen
  · rw [if_pos hshort, if_pos hshort]
    refine ⟨rfl, fun p hp => ?_⟩
    simp only [List.mem_cons, List.not_mem_nil, or_false] at hp
    rcases hp with rfl | rfl | rfl <;> omega
  rw [if_neg hshort, if_neg hshort]
  have hpayload : ((RecvResult.datagram bytes fits).store m : Memory).read 39 payloadLen =
      ((bytes.drop etherSize).drop guardSize).take payloadLen := by
    rw [Memory.read_store (by omega), List.drop_drop]
    rfl
  have hheader : (bytes.drop 14).take 21 = (bytes.drop etherSize).take 21 := rfl
  rw [hpayload, hheader]
  by_cases hsum : beVal ((bytes.drop 35).take 4) ≠
      (computeCrc32 ((bytes.drop etherSize).take 21 ++
        ([0, 0, 0, 0] ++ ((bytes.drop etherSize).drop guardSize).take payloadLen))).toNat
  · rw [if_pos hsum, if_pos hsum]
    refine ⟨rfl, fun p hp => ?_⟩
    simp only [List.cons_append, List.nil_append, List.mem_cons, List.not_mem_nil, or_false] at hp
    rcases hp with rfl | rfl | rfl | rfl <;> dsimp only <;> omega
  rw [if_neg hsum, if_neg hsum]
  refine ⟨?_, fun p hp => ?_⟩
  · have htag : ((RecvResult.datagram bytes fits).store m : Memory) 14 =
        (readHeader (bytes.drop etherSize)).type := by
      have hbound : 14 < bytes.length := by omega
      simp only [RecvResult.store, readHeader, List.getD_eq_getElem?_getD, List.getElem?_drop,
        hether, List.getElem?_eq_getElem hbound, Option.getD_some]
    dsimp only
    rw [htag, hread 6 6 (by omega), hread 15 4 (by omega), hread 19 4 (by omega),
      hread 23 8 (by omega), Mac.copy_take _ (by rw [List.length_drop]; omega)]
    have h1 : (readHeader (bytes.drop etherSize)).sessionId = beVal ((bytes.drop 15).take 4) :=
      hfield 1 4
    have h2 : (readHeader (bytes.drop etherSize)).sequenceNumber =
        beVal ((bytes.drop 19).take 4) := hfield 5 4
    have h3 : (readHeader (bytes.drop etherSize)).totalSize = beVal ((bytes.drop 23).take 8) :=
      hfield 9 8
    rw [h1, h2, h3]
  · simp only [List.cons_append, List.nil_append, List.mem_cons, List.not_mem_nil, or_false] at hp
    rcases hp with rfl | rfl | rfl | rfl | rfl <;> dsimp only <;> omega

/-! ## Rounds of the loop -/

/-- A call of `receive_reliable_data`: its variables and its buffer. -/
structure RecvCall where
  receiver : Receiver
  memory : Memory

/-- What the round reads and processes after an outcome of `recv`. -/
def RecvCall.admitted (myMac : Mac) (s : RecvCall) (o : RecvResult) : Admission :=
  admission myMac o.bytesReceived (o.store s.memory)

/-- One round; none when the call has returned or an exception has left it. -/
def RecvCall.step (myMac : Mac) (s : RecvCall) (o : RecvResult) : Option RecvCall :=
  match (s.admitted myMac o).frame with
  | none => some ⟨s.receiver, o.store s.memory⟩
  | some f =>
    match s.receiver.tryProcess myMac f with
    | .error _ => none
    | .ok (r, _, result) => if result.isSome then none else some ⟨r, o.store s.memory⟩

/-- The round reads bytes that `recv` returned and no others, what it processes is the frame that
    was received, if one was, and it throws nothing. -/
structure RecvCall.Robust (myMac : Mac) (s : RecvCall) (o : RecvResult) : Prop where
  reads : ∀ p ∈ (s.admitted myMac o).reads, p.1 + p.2 ≤ o.length
  frame : (s.admitted myMac o).frame = o.frame myMac
  runs : ∀ f, (s.admitted myMac o).frame = some f → ∃ p, s.receiver.tryProcess myMac f = .ok p

/-- `recv` did not fail, and no vector is asked for more than its maximum size. -/
def RecvCall.Benign (myMac : Mac) (s : RecvCall) (o : RecvResult) : Prop :=
  o ≠ .error ∧ ∀ f, o.frame myMac = some f → s.receiver.GrowthFits f

namespace RecvCall

variable {myMac : Mac}

/-- After a failed `recv` the round reads at least the address. -/
theorem not_robust_error (s : RecvCall) : ¬Robust myMac s .error := by
  intro h
  have hether : etherSize = 14 := rfl
  have hguard : guardSize = 25 := rfl
  have hmem : ((0, 6) : Nat × Nat) ∈ (s.admitted myMac .error).reads := by
    have hlong : ¬RecvResult.error.bytesReceived < etherSize + guardSize := by
      show ¬2 ^ 64 - 1 < etherSize + guardSize
      omega
    unfold admitted admission
    dsimp only
    rw [if_neg hlong]
    split
    · simp
    · split
      · simp
      · split
        · simp
        · split <;> simp
  have := h.reads _ hmem
  exact absurd this (by decide)

/-- A round is robust exactly when it is benign. -/
theorem robust_iff (s : RecvCall) (o : RecvResult) : s.Robust myMac o ↔ s.Benign myMac o := by
  cases o with
  | error => exact iff_of_false (not_robust_error s) fun h => h.1 rfl
  | datagram bytes fits =>
    obtain ⟨hframe, hreads⟩ := admission_datagram myMac s.memory bytes fits
    constructor
    · intro h
      refine ⟨nofun, fun f hf => ?_⟩
      obtain ⟨p, hp⟩ := h.runs f (hframe.trans hf)
      by_contra hnot
      rw [(s.receiver.tryProcess_spec myMac f).2 hnot] at hp
      exact absurd hp (by simp)
    · rintro ⟨-, hfits⟩
      refine ⟨hreads, hframe, fun f hf => ?_⟩
      exact ⟨_, (s.receiver.tryProcess_spec myMac f).1 (hfits f (hframe.symm.trans hf))⟩

/-- A benign round does what `Receiver.receive` does with the bytes received. -/
theorem step_benign {s : RecvCall} {bytes : Bytes} {fits : bytes.length ≤ 2048}
    (h : s.Benign myMac (.datagram bytes fits)) :
    s.step myMac (.datagram bytes fits) =
      if (s.receiver.receive myMac bytes).2.2.isSome then none
      else some ⟨(s.receiver.receive myMac bytes).1,
        (RecvResult.datagram bytes fits).store s.memory⟩ := by
  obtain ⟨hframe, -⟩ := admission_datagram myMac s.memory bytes fits
  have hframe' : (s.admitted myMac (.datagram bytes fits)).frame = checkFrame myMac bytes := hframe
  unfold RecvCall.step Receiver.receive
  rw [hframe']
  cases hf : checkFrame myMac bytes with
  | none => rfl
  | some f =>
    dsimp only
    rw [(s.receiver.tryProcess_spec myMac f).1 (h.2 f hf)]

/-- For every sequence of outcomes of `recv`, all rounds of the call are robust exactly when all
    are benign. -/
theorem receive_robust_iff (myMac : Mac) (outOfOrderBuffer : PieceMap UInt8) (memory : Memory)
    (os : List RecvResult) :
    Along (RecvCall.step myMac) (Robust myMac) ⟨.call outOfOrderBuffer, memory⟩ os ↔
      Along (RecvCall.step myMac) (Benign myMac) ⟨.call outOfOrderBuffer, memory⟩ os :=
  ⟨Along.mono fun s o => (robust_iff s o).mp, Along.mono fun s o => (robust_iff s o).mpr⟩

/-- A START frame of session 7. -/
def startDatagram : RecvResult :=
  .datagram (peerFrame .START 0 []) (by decide)

/-- When `recv` fails after it, it is processed a second time. -/
theorem failedRecv_processed :
    (run (RecvCall.step ownMac) ⟨.call ∅, fun _ => 0⟩ [startDatagram]).map
      (fun s => (s.admitted ownMac .error).frame) =
        some (startDatagram.frame ownMac) ∧
    (startDatagram.frame ownMac).isSome ∧
    ¬Along (RecvCall.step ownMac) (Robust ownMac) ⟨.call ∅, fun _ => 0⟩
      [startDatagram, .error] := by
  refine ⟨by decide +kernel, by decide +kernel, fun h => ?_⟩
  have hstep : ((⟨.call ∅, fun _ => 0⟩ : RecvCall).step ownMac startDatagram).isSome := by
    decide +kernel
  obtain ⟨s, hs⟩ := Option.isSome_iff_exists.mp hstep
  exact not_robust_error s (h.2 s hs).1

end RecvCall

end CdsGuard.Guard
