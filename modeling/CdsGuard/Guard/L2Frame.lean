import CdsGuard.Lib.Bytes

/-
  The frames of `GuardL2`: an Ethernet header, the packed 25-byte `GuardL2Header` in network
  byte order, and the payload of a DATA frame. `buildFrame` is the sender's constructor and
  `ackFrame` the receiver's; `checkFrame` is the check of the receive loop and `readAck` the shorter
  one of the sender's listener, which does not look at the checksum.

  Proved: what either constructor writes, the receiver admits with the same fields
  (`checkFrame_sealFrame`), and the listener takes the acknowledgements of its own session and no
  other frame (`readAck_sealFrame`).
-/

namespace CdsGuard.Guard

open CdsGuard.Lib

/-- `std::array<uint8_t, 6>`, a hardware address. -/
structure Mac where
  bytes : Bytes
  length_eq : bytes.length = 6
  deriving DecidableEq

namespace Mac

theorem eq_of_bytes {a b : Mac} (h : a.bytes = b.bytes) : a = b := by
  obtain ⟨x, hx⟩ := a
  obtain ⟨y, hy⟩ := b
  subst h
  rfl

/-- `std::memcpy` of six bytes into an array. -/
def copy (bs : Bytes) : Mac := ⟨(bs ++ List.replicate 6 0).take 6, by simp⟩

theorem copy_append (m : Mac) (rest : Bytes) : copy (m.bytes ++ rest) = m := by
  refine eq_of_bytes ?_
  show (m.bytes ++ rest ++ List.replicate 6 0).take 6 = m.bytes
  rw [List.append_assoc]
  exact List.take_left' m.length_eq

end Mac

/-! ## Checksum -/

/-- `crc32_single`: eight rounds on the index of a table entry. -/
def crc32Single (i : UInt32) : UInt32 :=
  let round (c : UInt32) : UInt32 := if c &&& 1 ≠ 0 then (c >>> 1) ^^^ 0xEDB88320 else c >>> 1
  round (round (round (round (round (round (round (round i)))))))

/-- `kCrcTable[i]`. -/
def kCrcTable (i : UInt32) : UInt32 := crc32Single i

def computeCrc32 (data : Bytes) : UInt32 :=
  ~~~(data.foldl (fun crc b => (crc >>> 8) ^^^ kCrcTable ((crc ^^^ b.toUInt32) &&& 0xFF))
    0xFFFFFFFF)

/-! ## Header -/

inductive FrameType where
  | START
  | DATA
  | ACK
  | END
  deriving DecidableEq

/-- The value of the enumerator. -/
def FrameType.code : FrameType → UInt8
  | START => 0x01
  | DATA => 0x02
  | ACK => 0x03
  | END => 0x04

theorem FrameType.code_inj {a b : FrameType} (h : a.code = b.code) : a = b := by
  cases a <;> cases b <;> first | rfl | exact absurd h (by decide)

/-- The fields in host byte order. The type is the raw byte: a received one need not be an
    enumerator. -/
structure GuardL2Header where
  type : UInt8
  sessionId : Nat
  sequenceNumber : Nat
  totalSize : Nat
  payloadLength : Nat
  receiveWindow : Nat
  crc32 : Nat
  deriving DecidableEq

/-- The fields fit their widths. -/
structure GuardL2Header.Fits (h : GuardL2Header) : Prop where
  sessionId : h.sessionId < 2 ^ 32
  sequenceNumber : h.sequenceNumber < 2 ^ 32
  totalSize : h.totalSize < 2 ^ 64
  payloadLength : h.payloadLength < 2 ^ 16
  receiveWindow : h.receiveWindow < 2 ^ 16

/-- The packed header as it is stored, after `htonl`, `htonll` and `htons`. -/
def GuardL2Header.bytes (h : GuardL2Header) : Bytes :=
  [h.type] ++ (beBytes 4 h.sessionId ++ (beBytes 4 h.sequenceNumber ++ (beBytes 8 h.totalSize ++
    (beBytes 2 h.payloadLength ++ (beBytes 2 h.receiveWindow ++ beBytes 4 h.crc32)))))

/-- `sizeof(ether_header)` and `sizeof(GuardL2Header)`. -/
def etherSize : Nat := 14
def guardSize : Nat := 25

def ETHERTYPE_GUARDL2 : Nat := 0x88B5

/-- `ether_header`: destination, source, type. -/
def etherHeader (dst src : Mac) : Bytes := dst.bytes ++ src.bytes ++ beBytes 2 ETHERTYPE_GUARDL2

@[simp] theorem GuardL2Header.bytes_length (h : GuardL2Header) : h.bytes.length = guardSize := by
  simp [GuardL2Header.bytes, guardSize]

@[simp] theorem etherHeader_length (dst src : Mac) :
    (etherHeader dst src).length = etherSize := by
  simp [etherHeader, dst.length_eq, src.length_eq, etherSize]

/-- The frame of a header and a payload, with the checksum computed over both while its own
    field is zero. -/
def sealFrame (dst src : Mac) (h : GuardL2Header) (payload : Bytes) : Bytes :=
  etherHeader dst src ++
    ({ h with crc32 := (computeCrc32 ({ h with crc32 := 0 }.bytes ++ payload)).toNat }.bytes ++
      payload)

/-- `GuardL2Sender::build_frame`. -/
def buildFrame (dstMac srcMac : Mac) (sessionId totalDataSize : Nat) (type : FrameType)
    (seqNum : Nat) (payload : Bytes) : Bytes :=
  sealFrame dstMac srcMac
    { type := type.code, sessionId, sequenceNumber := seqNum, totalSize := totalDataSize
      payloadLength := payload.length, receiveWindow := 0, crc32 := 0 } payload

/-- The frame of `GuardL2Receiver::send_ack`. -/
def ackFrame (dstMac myMac : Mac) (sessionId seqNum availableWindow : Nat) : Bytes :=
  sealFrame dstMac myMac
    { type := FrameType.ACK.code, sessionId, sequenceNumber := seqNum, totalSize := 0
      payloadLength := 0, receiveWindow := availableWindow, crc32 := 0 } []

/-! ## Reading a frame -/

/-- The big-endian field of `n` bytes at offset `off`. -/
def field (bs : Bytes) (off n : Nat) : Nat := beVal ((bs.drop off).take n)

/-- The fields of the header at `guard_header_ptr`. -/
def readHeader (guard : Bytes) : GuardL2Header where
  type := guard.getD 0 0
  sessionId := field guard 1 4
  sequenceNumber := field guard 5 4
  totalSize := field guard 9 8
  payloadLength := field guard 17 2
  receiveWindow := field guard 19 2
  crc32 := field guard 21 4

/-- What the receive loop reads of a frame that passed its checks. -/
structure ReceivedFrame where
  senderMac : Mac
  type : UInt8
  sessionId : Nat
  seqNum : Nat
  totalSize : Nat
  payload : Bytes
  deriving DecidableEq

/-- The checks of the receive loop on what `recv` stored in its 2048 bytes: length, address,
    type, announced payload, checksum. -/
def checkFrame (myMac : Mac) (frame : Bytes) : Option ReceivedFrame :=
  let recvBuffer := frame.take 2048
  let guard := recvBuffer.drop etherSize
  let gh := readHeader guard
  let payload := (guard.drop guardSize).take gh.payloadLength
  if recvBuffer.length < etherSize + guardSize then none
  else if recvBuffer.take 6 ≠ myMac.bytes then none
  else if field recvBuffer 12 2 ≠ ETHERTYPE_GUARDL2 then none
  else if recvBuffer.length < etherSize + guardSize + gh.payloadLength then none
  else if gh.crc32 ≠ (computeCrc32 (guard.take 21 ++ ([0, 0, 0, 0] ++ payload))).toNat then none
  else some {
    senderMac := Mac.copy (recvBuffer.drop 6)
    type := gh.type
    sessionId := gh.sessionId
    seqNum := gh.sequenceNumber
    totalSize := gh.totalSize
    payload }

/-- The checks of `ack_listener_thread` on what `recv` stored in its 1518 bytes: the sequence
    number and the window of an acknowledgement of this session. -/
def readAck (srcMac : Mac) (sessionId : Nat) (frame : Bytes) : Option (Nat × Nat) :=
  let recvBuffer := frame.take 1518
  let gh := readHeader (recvBuffer.drop etherSize)
  if recvBuffer.length < etherSize + guardSize then none
  else if recvBuffer.take 6 ≠ srcMac.bytes ∨ field recvBuffer 12 2 ≠ ETHERTYPE_GUARDL2 then none
  else if gh.sessionId ≠ sessionId ∨ gh.type ≠ FrameType.ACK.code then none
  else some (gh.sequenceNumber, gh.receiveWindow)

theorem field_lt (bs : Bytes) (off n : Nat) : field bs off n < 256 ^ n := by
  have hlen : ((bs.drop off).take n).length ≤ n := List.length_take_le n _
  exact (beVal_lt _).trans_le (Nat.pow_le_pow_right (by decide) hlen)

theorem checkFrame_seqNum_lt {myMac : Mac} {frame : Bytes} {f : ReceivedFrame}
    (h : checkFrame myMac frame = some f) : f.seqNum < 2 ^ 32 := by
  unfold checkFrame at h
  dsimp only at h
  iterate 5 obtain ⟨-, h⟩ := Option.ite_none_left_eq_some.mp h
  cases h
  exact field_lt _ 5 4

/-! ## Round trips -/

theorem field_append (pre mid rest : Bytes) (off n v : Nat) (hoff : pre.length = off)
    (hmid : mid = beBytes n v) (hv : v < 256 ^ n) : field (pre ++ (mid ++ rest)) off n = v := by
  subst hoff hmid
  have htake : (beBytes n v ++ rest).take n = beBytes n v := by
    rw [List.take_append_of_le_length (by simp), List.take_of_length_le (by simp)]
  rw [field, List.drop_left, htake, beVal_beBytes_of_lt hv]

theorem field_split {bs : Bytes} (pre : Bytes) {mid : Bytes} (rest : Bytes) {off n v : Nat}
    (hbs : bs = pre ++ (mid ++ rest)) (hoff : pre.length = off) (hmid : mid = beBytes n v)
    (hv : v < 256 ^ n) : field bs off n = v := by
  rw [hbs]
  exact field_append pre mid rest off n v hoff hmid hv

/-- The header reads back from its bytes. -/
theorem readHeader_bytes (h : GuardL2Header) (hf : h.Fits) (hcrc : h.crc32 < 2 ^ 32)
    (rest : Bytes) : readHeader (h.bytes ++ rest) = h := by
  generalize hs : beBytes 4 h.sessionId = s
  generalize hq : beBytes 4 h.sequenceNumber = q
  generalize ht : beBytes 8 h.totalSize = t
  generalize hp : beBytes 2 h.payloadLength = p
  generalize hw : beBytes 2 h.receiveWindow = w
  generalize hc : beBytes 4 h.crc32 = c
  have ls : s.length = 4 := by rw [← hs]; simp
  have lq : q.length = 4 := by rw [← hq]; simp
  have lt : t.length = 8 := by rw [← ht]; simp
  have lp : p.length = 2 := by rw [← hp]; simp
  have lw : w.length = 2 := by rw [← hw]; simp
  have hbytes : h.bytes ++ rest =
      [h.type] ++ (s ++ (q ++ (t ++ (p ++ (w ++ (c ++ rest)))))) := by
    rw [GuardL2Header.bytes, hs, hq, ht, hp, hw, hc]
    simp
  have e1 : field (h.bytes ++ rest) 1 4 = h.sessionId :=
    field_split [h.type] _ hbytes rfl hs.symm hf.sessionId
  have e2 : field (h.bytes ++ rest) 5 4 = h.sequenceNumber :=
    field_split ([h.type] ++ s) (t ++ (p ++ (w ++ (c ++ rest)))) (by rw [hbytes]; simp)
      (by simp [ls]) hq.symm hf.sequenceNumber
  have e3 : field (h.bytes ++ rest) 9 8 = h.totalSize :=
    field_split ([h.type] ++ s ++ q) (p ++ (w ++ (c ++ rest))) (by rw [hbytes]; simp)
      (by simp [ls, lq]) ht.symm hf.totalSize
  have e4 : field (h.bytes ++ rest) 17 2 = h.payloadLength :=
    field_split ([h.type] ++ s ++ q ++ t) (w ++ (c ++ rest)) (by rw [hbytes]; simp)
      (by simp [ls, lq, lt]) hp.symm hf.payloadLength
  have e5 : field (h.bytes ++ rest) 19 2 = h.receiveWindow :=
    field_split ([h.type] ++ s ++ q ++ t ++ p) (c ++ rest) (by rw [hbytes]; simp)
      (by simp [ls, lq, lt, lp]) hw.symm hf.receiveWindow
  have e6 : field (h.bytes ++ rest) 21 4 = h.crc32 :=
    field_split ([h.type] ++ s ++ q ++ t ++ p ++ w) rest (by rw [hbytes]; simp)
      (by simp [ls, lq, lt, lp, lw]) hc.symm hcrc
  have e0 : (h.bytes ++ rest).getD 0 0 = h.type := by rw [hbytes]; rfl
  simp only [readHeader, e0, e1, e2, e3, e4, e5, e6]

/-- The bytes that the checksum covers do not depend on the checksum field. -/
theorem crc_input (h : GuardL2Header) (rest : Bytes) :
    (h.bytes ++ rest).take 21 ++ [0, 0, 0, 0] = { h with crc32 := 0 }.bytes := by
  have hz : beBytes 4 0 = [0, 0, 0, 0] := by decide
  have hpre : h.bytes ++ rest = ([h.type] ++ (beBytes 4 h.sessionId ++
      (beBytes 4 h.sequenceNumber ++ (beBytes 8 h.totalSize ++ (beBytes 2 h.payloadLength ++
        beBytes 2 h.receiveWindow))))) ++ (beBytes 4 h.crc32 ++ rest) := by
    simp [GuardL2Header.bytes]
  have htake : (h.bytes ++ rest).take 21 = [h.type] ++ (beBytes 4 h.sessionId ++
      (beBytes 4 h.sequenceNumber ++ (beBytes 8 h.totalSize ++ (beBytes 2 h.payloadLength ++
        beBytes 2 h.receiveWindow)))) := by
    rw [hpre]
    exact List.take_left' (by simp)
  rw [htake]
  simp [GuardL2Header.bytes, hz]

section Sealed

variable (dst src : Mac) (h : GuardL2Header) (payload : Bytes)

/-- The header that `sealFrame` writes. -/
def sealedHeader : GuardL2Header :=
  { h with crc32 := (computeCrc32 ({ h with crc32 := 0 }.bytes ++ payload)).toNat }

theorem sealFrame_eq :
    sealFrame dst src h payload =
      etherHeader dst src ++ ((sealedHeader h payload).bytes ++ payload) :=
  rfl

theorem sealFrame_length :
    (sealFrame dst src h payload).length = etherSize + guardSize + payload.length := by
  simp [sealFrame_eq]
  omega

theorem sealFrame_drop : (sealFrame dst src h payload).drop etherSize =
    (sealedHeader h payload).bytes ++ payload := by
  rw [sealFrame_eq]
  exact List.drop_left' (etherHeader_length dst src)

theorem sealFrame_dst : (sealFrame dst src h payload).take 6 = dst.bytes := by
  rw [sealFrame_eq, etherHeader, List.append_assoc, List.append_assoc]
  exact List.take_left' dst.length_eq

theorem sealFrame_src : Mac.copy ((sealFrame dst src h payload).drop 6) = src := by
  rw [sealFrame_eq, etherHeader, List.append_assoc, List.append_assoc,
    List.drop_left' dst.length_eq]
  exact Mac.copy_append src _

theorem sealFrame_etherType :
    field (sealFrame dst src h payload) 12 2 = ETHERTYPE_GUARDL2 := by
  rw [sealFrame_eq, etherHeader, List.append_assoc (dst.bytes ++ src.bytes)]
  exact field_append _ _ _ 12 2 _ (by simp [dst.length_eq, src.length_eq]) rfl (by decide)

theorem readHeader_sealFrame (hf : h.Fits) :
    readHeader ((sealFrame dst src h payload).drop etherSize) = sealedHeader h payload := by
  rw [sealFrame_drop]
  exact readHeader_bytes (sealedHeader h payload)
    ⟨hf.sessionId, hf.sequenceNumber, hf.totalSize, hf.payloadLength, hf.receiveWindow⟩
    (UInt32.toNat_lt _) payload

/-- A frame of the constructors passes the checks of the machine it is addressed to, with the
    fields it was built from. -/
theorem checkFrame_sealFrame (myMac : Mac) (hf : h.Fits) (hlen : h.payloadLength = payload.length)
    (hsize : payload.length ≤ 2009) :
    checkFrame myMac (sealFrame dst src h payload) =
      if dst = myMac then some {
        senderMac := src
        type := h.type
        sessionId := h.sessionId
        seqNum := h.sequenceNumber
        totalSize := h.totalSize
        payload }
      else none := by
  have hframe := sealFrame_length dst src h payload
  have htake : (sealFrame dst src h payload).take 2048 = sealFrame dst src h payload :=
    List.take_of_length_le (by rw [hframe]; unfold etherSize guardSize; omega)
  have hpay : (((sealFrame dst src h payload).drop etherSize).drop guardSize).take
      payload.length = payload := by
    rw [sealFrame_drop, List.drop_left' (GuardL2Header.bytes_length _), List.take_length]
  have hcrc : (computeCrc32 (((sealFrame dst src h payload).drop etherSize).take 21 ++
      ([0, 0, 0, 0] ++ payload))).toNat = (sealedHeader h payload).crc32 := by
    rw [sealFrame_drop, ← List.append_assoc, crc_input]
    rfl
  have hplen : (sealedHeader h payload).payloadLength = payload.length := hlen
  unfold checkFrame
  simp only [htake, readHeader_sealFrame dst src h payload hf, hplen, hpay, hcrc,
    sealFrame_etherType, sealFrame_dst, sealFrame_src, hframe, ne_eq, not_true_eq_false, if_false]
  rw [if_neg (by omega)]
  by_cases hm : dst = myMac
  · rw [if_neg (by simp [hm]), if_neg (by omega), if_pos hm]
    rfl
  · have hb : dst.bytes ≠ myMac.bytes := fun hb => hm (Mac.eq_of_bytes hb)
    rw [if_pos hb, if_neg hm]

/-- The listener takes exactly the acknowledgements of its own session to its own address. -/
theorem readAck_sealFrame (srcMac : Mac) (sessionId : Nat) (hf : h.Fits)
    (hsize : payload.length ≤ 1479) :
    readAck srcMac sessionId (sealFrame dst src h payload) =
      if dst = srcMac ∧ h.sessionId = sessionId ∧ h.type = FrameType.ACK.code then
        some (h.sequenceNumber, h.receiveWindow)
      else none := by
  have hframe := sealFrame_length dst src h payload
  have htake : (sealFrame dst src h payload).take 1518 = sealFrame dst src h payload :=
    List.take_of_length_le (by rw [hframe]; unfold etherSize guardSize; omega)
  unfold readAck
  simp only [htake, readHeader_sealFrame dst src h payload hf, sealFrame_etherType, sealFrame_dst,
    hframe, ne_eq, not_true_eq_false, or_false]
  rw [if_neg (by omega)]
  show (if ¬dst.bytes = srcMac.bytes then none
    else if ¬h.sessionId = sessionId ∨ ¬h.type = FrameType.ACK.code then none
    else some (h.sequenceNumber, h.receiveWindow)) = _
  have hmac : dst.bytes = srcMac.bytes ↔ dst = srcMac :=
    ⟨Mac.eq_of_bytes, fun h => congrArg Mac.bytes h⟩
  by_cases hm : dst = srcMac <;> by_cases hs : h.sessionId = sessionId <;>
    by_cases ht : h.type = FrameType.ACK.code <;> simp [hmac, hm, hs, ht]

end Sealed

end CdsGuard.Guard
