import CdsGuard.Lib.ByteOrder
import CdsGuard.Guard.L2Receiver

/-
  The frames of `GuardL2` on hosts of either byte order: the packed header as it lies in the memory
  of the host that builds the frame, and the conversions of the host that reads it.

  Proved: no host builds or reads a frame in another way than `L2Frame` says
  (`buildFrameOn_eq`, `checkFrameOn_eq`, `readAckOn_eq`), so a frame reads back between any two
  hosts with the fields it was built from (`frame_round_trip`).
-/

namespace CdsGuard.Guard

open CdsGuard.Lib

section Host

variable (host : ByteOrder)

/-! ## Conversions -/

def htons (x : Nat) : Nat := host.hton 2 x
def htonl (x : Nat) : Nat := host.hton 4 x
def ntohs (x : Nat) : Nat := host.ntoh 2 x
def ntohl (x : Nat) : Nat := host.ntoh 4 x

def htonll (x : Nat) : Nat := host.convert64 (htonl host) x
def ntohll (x : Nat) : Nat := host.convert64 (ntohl host) x

/-! ## Building -/

/-- The packed header in the memory of the host; the fields are what the members hold. -/
def GuardL2Header.image (gh : GuardL2Header) : Bytes :=
  [gh.type] ++ (host.store 4 gh.sessionId ++ (host.store 4 gh.sequenceNumber ++
    (host.store 8 gh.totalSize ++ (host.store 2 gh.payloadLength ++
      (host.store 2 gh.receiveWindow ++ host.store 4 gh.crc32)))))

/-- `ether_header` in the memory of the host. -/
def etherImage (dst src : Mac) : Bytes :=
  dst.bytes ++ src.bytes ++ host.store 2 (htons host ETHERTYPE_GUARDL2)

/-- The end of either constructor: the checksum is computed while its member is zero, converted
    and stored. -/
def sealImage (dst src : Mac) (gh : GuardL2Header) (payload : Bytes) : Bytes :=
  let crc := computeCrc32 (gh.image host ++ payload)
  let gh' : GuardL2Header := { gh with crc32 := htonl host crc.toNat }
  etherImage host dst src ++ (gh'.image host ++ payload)

/-- `GuardL2Sender::build_frame`. -/
def buildFrameOn (dstMac srcMac : Mac) (sessionId totalDataSize : Nat) (type : FrameType)
    (seqNum : Nat) (payload : Bytes) : Bytes :=
  sealImage host dstMac srcMac
    { type := type.code
      sessionId := htonl host sessionId
      sequenceNumber := htonl host seqNum
      totalSize := htonll host totalDataSize
      payloadLength := htons host payload.length
      receiveWindow := 0
      crc32 := 0 } payload

/-- `GuardL2Receiver::send_ack`. -/
def sendAckOn (myMac : Mac) (r : Receiver) (dstMac : Mac) (sessionId seqNum : Nat) : Bytes :=
  sealImage host dstMac myMac
    { type := FrameType.ACK.code
      sessionId := htonl host sessionId
      sequenceNumber := htonl host seqNum
      totalSize := 0
      payloadLength := 0
      receiveWindow := htons host r.availableWindow
      crc32 := 0 } []

/-! ## Reading -/

/-- The members of the header at `guard_header_ptr`. -/
def loadHeader (guard : Bytes) : GuardL2Header where
  type := guard.getD 0 0
  sessionId := host.load ((guard.drop 1).take 4)
  sequenceNumber := host.load ((guard.drop 5).take 4)
  totalSize := host.load ((guard.drop 9).take 8)
  payloadLength := host.load ((guard.drop 17).take 2)
  receiveWindow := host.load ((guard.drop 19).take 2)
  crc32 := host.load ((guard.drop 21).take 4)

/-- `eh->ether_type`. -/
def loadEtherType (recvBuffer : Bytes) : Nat := host.load ((recvBuffer.drop 12).take 2)

/-- The checks of the receive loop. The checksum is computed with its own member zero. -/
def checkFrameOn (myMac : Mac) (frame : Bytes) : Option ReceivedFrame :=
  let recvBuffer := frame.take 2048
  let guard := recvBuffer.drop etherSize
  let gh := loadHeader host guard
  let payloadLen := ntohs host gh.payloadLength
  let payload := (guard.drop guardSize).take payloadLen
  if recvBuffer.length < etherSize + guardSize then none
  else if recvBuffer.take 6 ≠ myMac.bytes then none
  else if ntohs host (loadEtherType host recvBuffer) ≠ ETHERTYPE_GUARDL2 then none
  else if recvBuffer.length < etherSize + guardSize + payloadLen then none
  else if ntohl host gh.crc32 ≠
      (computeCrc32 (guard.take 21 ++ (host.store 4 0 ++ payload))).toNat then none
  else some {
    senderMac := Mac.copy (recvBuffer.drop 6)
    type := gh.type
    sessionId := ntohl host gh.sessionId
    seqNum := ntohl host gh.sequenceNumber
    totalSize := ntohll host gh.totalSize
    payload }

/-- The checks of `ack_listener_thread`. -/
def readAckOn (srcMac : Mac) (sessionId : Nat) (frame : Bytes) : Option (Nat × Nat) :=
  let recvBuffer := frame.take 1518
  let gh := loadHeader host (recvBuffer.drop etherSize)
  if recvBuffer.length < etherSize + guardSize then none
  else if recvBuffer.take 6 ≠ srcMac.bytes ∨
      ntohs host (loadEtherType host recvBuffer) ≠ ETHERTYPE_GUARDL2 then none
  else if ntohl host gh.sessionId ≠ sessionId ∨ gh.type ≠ FrameType.ACK.code then none
  else some (ntohl host gh.sequenceNumber, ntohs host gh.receiveWindow)

/-! ## The byte order does not matter -/

/-- The members that hold the given fields. -/
def GuardL2Header.hton (h : GuardL2Header) : GuardL2Header where
  type := h.type
  sessionId := htonl host h.sessionId
  sequenceNumber := htonl host h.sequenceNumber
  totalSize := htonll host h.totalSize
  payloadLength := htons host h.payloadLength
  receiveWindow := htons host h.receiveWindow
  crc32 := htonl host h.crc32

theorem htonll_eq {x : Nat} (hx : x < 2 ^ 64) : htonll host x = host.hton 8 x :=
  host.convert64_eq hx

theorem image_hton {h : GuardL2Header} (ht : h.totalSize < 2 ^ 64) :
    (h.hton host).image host = h.bytes := by
  unfold GuardL2Header.hton GuardL2Header.image
  rw [htonll_eq host ht]
  simp only [htonl, htons, ByteOrder.store_hton]
  rfl

theorem etherImage_eq (dst src : Mac) : etherImage host dst src = etherHeader dst src := by
  rw [etherImage, htons, host.store_hton]
  rfl

/-- What either constructor builds is the sealed frame of its fields. -/
theorem sealImage_eq (dst src : Mac) {h : GuardL2Header} (payload : Bytes)
    (ht : h.totalSize < 2 ^ 64) (hcrc : h.crc32 = 0) :
    sealImage host dst src (h.hton host) payload = sealFrame dst src h payload := by
  have hzero : { h with crc32 := 0 } = h := by rw [← hcrc]
  have himage := @image_hton host (sealedHeader h payload) ht
  rw [sealFrame_eq, sealImage, etherImage_eq, image_hton host ht, ← himage]
  unfold sealedHeader
  rw [hzero]
  rfl

theorem buildFrameOn_eq (dstMac srcMac : Mac) (sessionId : Nat) {totalDataSize : Nat}
    (htotal : totalDataSize < 2 ^ 64) (type : FrameType) (seqNum : Nat) (payload : Bytes) :
    buildFrameOn host dstMac srcMac sessionId totalDataSize type seqNum payload =
      buildFrame dstMac srcMac sessionId totalDataSize type seqNum payload := by
  rw [buildFrame, ← sealImage_eq host dstMac srcMac payload htotal rfl]
  simp only [GuardL2Header.hton, htons, htonl, ByteOrder.hton_zero]
  rfl

theorem sendAckOn_eq (myMac : Mac) (r : Receiver) (dstMac : Mac) (sessionId seqNum : Nat) :
    sendAckOn host myMac r dstMac sessionId seqNum =
      ackFrame dstMac myMac sessionId seqNum r.availableWindow := by
  rw [ackFrame, ← sealImage_eq host dstMac myMac [] (Nat.two_pow_pos 64) rfl]
  simp only [GuardL2Header.hton, htons, htonl, ByteOrder.hton_zero,
    htonll_eq host (Nat.two_pow_pos 64)]
  rfl

/-- A member that lies within the frame is read in network order. -/
theorem ntoh_field {bs : Bytes} {off n : Nat} (h : off + n ≤ bs.length) :
    host.ntoh n (host.load ((bs.drop off).take n)) = field bs off n := by
  refine host.ntoh_load ?_
  rw [List.length_take, List.length_drop]
  omega

theorem ntohll_field {bs : Bytes} {off : Nat} (h : off + 8 ≤ bs.length) :
    ntohll host (host.load ((bs.drop off).take 8)) = field bs off 8 := by
  have hlen : ((bs.drop off).take 8).length = 8 := by
    rw [List.length_take, List.length_drop]
    omega
  have hlt := host.load_lt ((bs.drop off).take 8)
  rw [hlen] at hlt
  rw [ntohll]
  exact (host.convert64_eq hlt).trans (ntoh_field host h)

/-- The fields that the members hold. -/
def GuardL2Header.ntoh (gh : GuardL2Header) : GuardL2Header where
  type := gh.type
  sessionId := ntohl host gh.sessionId
  sequenceNumber := ntohl host gh.sequenceNumber
  totalSize := ntohll host gh.totalSize
  payloadLength := ntohs host gh.payloadLength
  receiveWindow := ntohs host gh.receiveWindow
  crc32 := ntohl host gh.crc32

theorem loadHeader_ntoh {guard : Bytes} (h : guardSize ≤ guard.length) :
    (loadHeader host guard).ntoh host = readHeader guard := by
  unfold guardSize at h
  simp only [GuardL2Header.ntoh, loadHeader, readHeader, ntohl, ntohs]
  rw [ntoh_field host (by omega), ntoh_field host (by omega), ntohll_field host (by omega),
    ntoh_field host (by omega), ntoh_field host (by omega), ntoh_field host (by omega)]

theorem loadEtherType_ntoh {recvBuffer : Bytes} (h : etherSize ≤ recvBuffer.length) :
    ntohs host (loadEtherType host recvBuffer) = field recvBuffer 12 2 := ntoh_field host h

theorem checkFrameOn_eq (myMac : Mac) (frame : Bytes) :
    checkFrameOn host myMac frame = checkFrame myMac frame := by
  unfold checkFrameOn checkFrame
  dsimp only
  generalize frame.take 2048 = recvBuffer
  by_cases hlen : recvBuffer.length < etherSize + guardSize
  · rw [if_pos hlen, if_pos hlen]
  · have hread := @loadHeader_ntoh host (recvBuffer.drop etherSize)
      (by rw [List.length_drop]; omega)
    have hzero : host.store 4 0 = [0, 0, 0, 0] := by cases host <;> rfl
    rw [← hread, hzero, loadEtherType_ntoh host (by omega)]
    rfl

theorem readAckOn_eq (srcMac : Mac) (sessionId : Nat) (frame : Bytes) :
    readAckOn host srcMac sessionId frame = readAck srcMac sessionId frame := by
  unfold readAckOn readAck
  dsimp only
  generalize frame.take 1518 = recvBuffer
  by_cases hlen : recvBuffer.length < etherSize + guardSize
  · rw [if_pos hlen, if_pos hlen]
  · have hread := @loadHeader_ntoh host (recvBuffer.drop etherSize)
      (by rw [List.length_drop]; omega)
    rw [← hread, loadEtherType_ntoh host (by omega)]
    rfl

end Host

/-! ## Round trip -/

theorem availableWindow_lt (r : Receiver) : r.availableWindow < 2 ^ 16 := by
  unfold Receiver.availableWindow RECEIVER_WINDOW_CAPACITY
  split <;> omega

/-- A frame of `build_frame` passes the checks of the receiver it is addressed to, on any host, with
    the fields it was built from; an acknowledgement of `send_ack` is taken by the listener of the
    session it names, with its number and its window. -/
theorem frame_round_trip (sender receiver : ByteOrder) (srcMac myMac : Mac) :
    (∀ (sessionId totalDataSize : Nat) (type : FrameType) (seqNum : Nat) (payload : Bytes),
      sessionId < 2 ^ 32 → totalDataSize < 2 ^ 64 → seqNum < 2 ^ 32 →
      payload.length ≤ maxPayloadSize →
      checkFrameOn receiver myMac
          (buildFrameOn sender myMac srcMac sessionId totalDataSize type seqNum payload) =
        some {
          senderMac := srcMac
          type := type.code
          sessionId
          seqNum
          totalSize := totalDataSize
          payload }) ∧
    ∀ (r : Receiver) (sessionId seqNum : Nat), sessionId < 2 ^ 32 → seqNum < 2 ^ 32 →
      ∀ session, readAckOn sender srcMac session
          (sendAckOn receiver myMac r srcMac sessionId seqNum) =
        if sessionId = session then some (seqNum, r.availableWindow) else none := by
  refine ⟨?_, ?_⟩
  · intro sessionId totalDataSize type seqNum payload hid htotal hseq hlen
    unfold maxPayloadSize at hlen
    have hcheck := checkFrame_sealFrame myMac srcMac
      { type := type.code, sessionId, sequenceNumber := seqNum, totalSize := totalDataSize,
        payloadLength := payload.length, receiveWindow := 0, crc32 := 0 } payload myMac
      ⟨hid, hseq, htotal, show payload.length < 2 ^ 16 by omega, Nat.two_pow_pos 16⟩ rfl
      (by omega)
    rw [if_pos rfl] at hcheck
    rw [checkFrameOn_eq, buildFrameOn_eq sender myMac srcMac sessionId htotal]
    exact hcheck
  · intro r sessionId seqNum hid hseq session
    have hread := readAck_sealFrame srcMac myMac
      { type := FrameType.ACK.code, sessionId, sequenceNumber := seqNum, totalSize := 0,
        payloadLength := 0, receiveWindow := r.availableWindow, crc32 := 0 } [] srcMac session
      ⟨hid, hseq, Nat.two_pow_pos 64, Nat.two_pow_pos 16, availableWindow_lt r⟩ (by decide)
    rw [readAckOn_eq, sendAckOn_eq, ackFrame, hread]
    by_cases hs : sessionId = session
    · rw [if_pos ⟨rfl, hs, rfl⟩, if_pos hs]
    · rw [if_neg (fun hand => hs hand.2.1), if_neg hs]

/-- From a little-endian sender to a big-endian receiver and back. -/
theorem frame_round_trip_sample :
    let mac := Mac.copy [2, 0, 0, 0, 0, 1]
    checkFrameOn .big mac (buildFrameOn .little mac mac 7 1 .DATA 1 [65]) =
        some ⟨mac, FrameType.DATA.code, 7, 1, 1, [65]⟩ ∧
      readAckOn .little mac 7 (sendAckOn .big mac (Receiver.call ∅) mac 7 1) = some (1, 512) := by
  intro mac
  obtain ⟨hframe, hack⟩ := frame_round_trip .little .big mac mac
  exact ⟨hframe 7 1 .DATA 1 [65] (by decide) (by decide) (by decide) (by decide),
    hack (Receiver.call ∅) 7 1 (by decide) (by decide) 7⟩

end CdsGuard.Guard
