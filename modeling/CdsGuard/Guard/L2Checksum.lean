import CdsGuard.Lib.Crc
import CdsGuard.Guard.L2Receiver

/-
  The CRC-32 of the frames of `GuardL2`, computed from a generated table of 256 entries.

  Proved: the table computes the bit-serial reflected CRC-32 (`computeCrc32_eq`), so the receiver
  drops a frame of which at most four consecutive bytes behind the Ethernet header were altered
  (`crc_detects_burst`). The announced length and the checksum itself are not among them: the first
  says how much the checksum covers, the second is not covered.
-/

namespace CdsGuard.Guard

open CdsGuard.Lib

/-! ## The table -/

/-- The polynomial of CRC-32, reflected. -/
def crcPoly : BitVec 32 := 0xEDB88320

/-- The reflected CRC-32, bit by bit: all ones to begin with, all ones in the end. -/
def bitSerialCrc32 (data : Bytes) : BitVec 32 :=
  crcBytes crcPoly (BitVec.allOnes 32) data ^^^ BitVec.allOnes 32

theorem crcPoly_msb : crcPoly.msb = true := by decide

theorem and_one_ne_zero (c : UInt32) : c &&& 1 ≠ 0 ↔ c.toBitVec.getLsbD 0 = true := by
  have hone : c.toBitVec &&& 1#32 = (BitVec.ofBool (c.toBitVec.getLsbD 0)).setWidth 32 :=
    BitVec.and_one_eq_setWidth_ofBool_getLsbD
  rw [ne_eq, ← UInt32.toBitVec_inj, UInt32.toBitVec_and]
  show ¬c.toBitVec &&& 1#32 = 0#32 ↔ _
  rw [hone]
  cases c.toBitVec.getLsbD 0 <;> decide

/-- One round of `crc32_single` is a step without a bit of the message. -/
theorem round_toBitVec (c : UInt32) :
    (if c &&& 1 ≠ 0 then (c >>> 1) ^^^ 0xEDB88320 else c >>> 1).toBitVec =
      crcBit crcPoly c.toBitVec false := by
  rw [crcBit, Bool.xor_false]
  by_cases hbit : c &&& 1 ≠ 0
  · rw [if_pos hbit, if_pos ((and_one_ne_zero c).mp hbit)]
    rfl
  · rw [if_neg hbit, if_neg (mt (and_one_ne_zero c).mpr hbit), BitVec.xor_zero]
    rfl

theorem kCrcTable_toBitVec (i : UInt32) :
    (kCrcTable i).toBitVec = crcShifts crcPoly 8 i.toBitVec := by
  unfold kCrcTable crc32Single
  simp only [round_toBitVec]
  rfl

/-- The register behind any number of bytes. -/
theorem crcFold_toBitVec (data : Bytes) (crc : UInt32) :
    (data.foldl (fun (crc : UInt32) (b : UInt8) =>
      (crc >>> 8) ^^^ kCrcTable ((crc ^^^ b.toUInt32) &&& 0xFF)) crc).toBitVec =
      crcBytes crcPoly crc.toBitVec data := by
  induction data generalizing crc with
  | nil => rfl
  | cons b data ih =>
    have hstep : ((crc >>> 8) ^^^ kCrcTable ((crc ^^^ b.toUInt32) &&& 0xFF)).toBitVec =
        crcBits crcPoly crc.toBitVec (byteBits b) := by
      have hbyte : b.toUInt32.toBitVec = BitVec.ofNat 32 b.toNat := by
        apply BitVec.eq_of_toNat_eq
        rw [BitVec.toNat_ofNat, Nat.mod_eq_of_lt (b.toNat_lt.trans (by decide))]
        rfl
      rw [crcBits_byte (by decide), UInt32.toBitVec_xor, kCrcTable_toBitVec, UInt32.toBitVec_and,
        UInt32.toBitVec_xor, hbyte]
      rfl
    rw [List.foldl_cons, ih, hstep, crcBytes, crcBytes, List.flatMap_cons, crcBits_append]

/-- `compute_crc32` with the table is the bit-serial CRC-32. -/
theorem computeCrc32_eq (data : Bytes) : (computeCrc32 data).toBitVec = bitSerialCrc32 data := by
  rw [computeCrc32, UInt32.toBitVec_not, crcFold_toBitVec, ← BitVec.xor_allOnes]
  rfl

/-! ## Altered frames -/

/-- `altered` is `frame` with bytes of one window of four changed, all of them behind the Ethernet
    header and none of them in the announced length or the checksum. -/
structure Burst (frame altered : Bytes) : Prop where
  ne : altered ≠ frame
  length : altered.length = frame.length
  window : ∃ lo, ∀ i, altered[i]? ≠ frame[i]? → lo ≤ i ∧ i < lo + 4
  etherHeader : ∀ i < etherSize, altered[i]? = frame[i]?
  payloadLength : ∀ i, etherSize + 17 ≤ i → i < etherSize + 19 → altered[i]? = frame[i]?
  crc32 : ∀ i, etherSize + 21 ≤ i → i < etherSize + 25 → altered[i]? = frame[i]?

theorem burst_set {frame : Bytes} {i : Nat} {b : UInt8} (hlen : i < frame.length)
    (hb : frame[i]? ≠ some b) (hether : etherSize ≤ i)
    (hlength : ¬(etherSize + 17 ≤ i ∧ i < etherSize + 19))
    (hcrc : ¬(etherSize + 21 ≤ i ∧ i < etherSize + 25)) : Burst frame (frame.set i b) := by
  have hother : ∀ j, j ≠ i → (frame.set i b)[j]? = frame[j]? := fun j hj =>
    List.getElem?_set_ne hj.symm
  refine ⟨?_, List.length_set, ⟨i, ?_⟩, ?_, ?_, ?_⟩
  · intro heq
    apply hb
    rw [← heq, List.getElem?_set_self hlen]
  · intro j hj
    by_contra hout
    exact hj (hother j (by omega))
  · intro j hj
    exact hother j (by omega)
  · intro j hlo hhi
    exact hother j (by omega)
  · intro j hlo hhi
    exact hother j (by omega)

theorem field_congr {xs ys : Bytes} {off n : Nat}
    (h : ∀ i, off ≤ i → i < off + n → xs[i]? = ys[i]?) : field xs off n = field ys off n := by
  have hsame : (xs.drop off).take n = (ys.drop off).take n := by
    apply List.ext_getElem?
    intro i
    rw [List.getElem?_take, List.getElem?_take]
    split
    · rw [List.getElem?_drop, List.getElem?_drop]
      exact h _ (Nat.le_add_right off i) (by omega)
    · rfl
  rw [field, field, hsame]

/-- The bytes behind the Ethernet header that the checksum covers, its own field zero. -/
def covered (guard : Bytes) : Bytes := guard.take 21 ++ ([0, 0, 0, 0] ++ guard.drop guardSize)

theorem covered_length {guard : Bytes} (h : guardSize ≤ guard.length) :
    (covered guard).length = guard.length := by
  unfold guardSize at h
  simp only [covered, guardSize, List.length_append, List.length_take, List.length_drop,
    List.length_cons, List.length_nil]
  omega

theorem covered_getElem? {guard : Bytes} (h : guardSize ≤ guard.length) (i : Nat)
    (hi : ¬(21 ≤ i ∧ i < 25)) : (covered guard)[i]? = guard[i]? := by
  unfold guardSize at h
  have hlen : (guard.take 21).length = 21 := by rw [List.length_take]; omega
  unfold covered
  rcases Nat.lt_or_ge i 21 with hlow | hhigh
  · rw [List.getElem?_append_left (by omega), List.getElem?_take, if_pos hlow]
  · rw [List.getElem?_append_right (by omega), hlen, List.getElem?_append_right (by simp; omega),
      List.getElem?_drop]
    congr 1
    simp only [guardSize, List.length_cons, List.length_nil]
    omega

theorem covered_zero {guard : Bytes} (h : guardSize ≤ guard.length) (i : Nat)
    (hi : 21 ≤ i ∧ i < 25) : (covered guard)[i]? = some 0 := by
  unfold guardSize at h
  have hlen : (guard.take 21).length = 21 := by rw [List.length_take]; omega
  obtain ⟨k, rfl⟩ := Nat.exists_eq_add_of_le hi.1
  have hk : k < 4 := by omega
  rw [covered, List.getElem?_append_right (by omega), hlen, Nat.add_sub_cancel_left,
    List.getElem?_append_left (by simpa using hk)]
  interval_cases k <;> rfl

section Sealed

variable {dst src : Mac} {h : GuardL2Header} {payload : Bytes}

/-- The checksum of a frame is that of the bytes it covers. -/
theorem sealedHeader_crc32 : (sealedHeader h payload).crc32 =
    (computeCrc32 (covered ((sealFrame dst src h payload).drop etherSize))).toNat := by
  have hdrop : ((sealedHeader h payload).bytes ++ payload).drop guardSize = payload :=
    List.drop_left' (GuardL2Header.bytes_length _)
  rw [covered, sealFrame_drop, hdrop, ← List.append_assoc, crc_input]
  rfl

/-- The checksum of what a burst leaves is another one. -/
theorem covered_burst {frame altered : Bytes} (hb : Burst frame altered)
    (hsize : etherSize + guardSize ≤ frame.length) :
    computeCrc32 (covered (altered.drop etherSize)) ≠
      computeCrc32 (covered (frame.drop etherSize)) := by
  intro hcrc
  have hlen := hb.length
  have hf : guardSize ≤ (frame.drop etherSize).length := by rw [List.length_drop]; omega
  have ha : guardSize ≤ (altered.drop etherSize).length := by rw [List.length_drop]; omega
  obtain ⟨lo, hlo⟩ := hb.window
  have hreg : crcBytes crcPoly (BitVec.allOnes 32) (covered (altered.drop etherSize)) =
      crcBytes crcPoly (BitVec.allOnes 32) (covered (frame.drop etherSize)) := by
    have hbits := congrArg UInt32.toBitVec hcrc
    rw [computeCrc32_eq, computeCrc32_eq, bitSerialCrc32, bitSerialCrc32] at hbits
    exact (BitVec.xor_left_inj _).mp hbits
  have hcov : covered (altered.drop etherSize) = covered (frame.drop etherSize) := by
    refine @crcBytes_window _ _ crcPoly_msb _ _ _ (lo - etherSize) 4 ?_ (by decide) ?_ hreg
    · rw [covered_length ha, covered_length hf, List.length_drop, List.length_drop, hlen]
    · intro i hi
      by_cases hfield : 21 ≤ i ∧ i < 25
      · rw [covered_zero ha i hfield, covered_zero hf i hfield]
      · rw [covered_getElem? ha i hfield, covered_getElem? hf i hfield, List.getElem?_drop,
          List.getElem?_drop]
        by_contra hne
        have := hlo _ hne
        omega
  -- outside the field of the checksum, the frames are what is covered
  apply hb.ne
  apply List.ext_getElem?
  intro i
  rcases Nat.lt_or_ge i etherSize with hi | hi
  · exact hb.etherHeader i hi
  obtain ⟨k, rfl⟩ := Nat.exists_eq_add_of_le hi
  by_cases hfield : 21 ≤ k ∧ k < 25
  · exact hb.crc32 _ (by omega) (by omega)
  · rw [← List.getElem?_drop, ← List.getElem?_drop, ← covered_getElem? ha k hfield, hcov,
      covered_getElem? hf k hfield]

/-- A frame of the constructors with a burst does not pass the checks of the receive loop. -/
theorem checkFrame_burst (myMac : Mac) (hf : h.Fits) (hlen : h.payloadLength = payload.length)
    {altered : Bytes} (hb : Burst (sealFrame dst src h payload) altered) :
    checkFrame myMac altered = none := by
  have hframe := sealFrame_length dst src h payload
  have hread := readHeader_sealFrame dst src h payload hf
  have hplen : (readHeader ((altered.take 2048).drop etherSize)).payloadLength =
      payload.length := by
    calc field ((altered.take 2048).drop etherSize) 17 2
      _ = field ((sealFrame dst src h payload).drop etherSize) 17 2 := by
        apply field_congr
        intro i hlo hhi
        rw [List.getElem?_drop, List.getElem?_drop, List.getElem?_take,
          if_pos (by unfold etherSize; omega)]
        exact hb.payloadLength _ (by omega) (by omega)
      _ = (sealedHeader h payload).payloadLength := congrArg GuardL2Header.payloadLength hread
      _ = payload.length := hlen
  rw [Option.eq_none_iff_forall_not_mem]
  intro f hmem
  have hcheck : checkFrame myMac altered = some f := hmem
  unfold checkFrame at hcheck
  dsimp only at hcheck
  iterate 3 obtain ⟨-, hcheck⟩ := Option.ite_none_left_eq_some.mp hcheck
  obtain ⟨hfits, hcheck⟩ := Option.ite_none_left_eq_some.mp hcheck
  obtain ⟨hcrc, -⟩ := Option.ite_none_left_eq_some.mp hcheck
  -- the whole frame was received, so the checksum covers what it covered before
  have htake : altered.take 2048 = altered := by
    apply List.take_of_length_le
    rw [hplen, List.length_take, hb.length, hframe] at hfits
    rw [hb.length, hframe]
    omega
  rw [htake] at hplen hcrc
  have hpay : ((altered.drop etherSize).drop guardSize).take payload.length =
      (altered.drop etherSize).drop guardSize := by
    apply List.take_of_length_le
    rw [List.length_drop, List.length_drop, hb.length, hframe]
    omega
  rw [hplen, hpay] at hcrc
  have hfield : (readHeader (altered.drop etherSize)).crc32 =
      (computeCrc32 (covered ((sealFrame dst src h payload).drop etherSize))).toNat := by
    calc field (altered.drop etherSize) 21 4
      _ = field ((sealFrame dst src h payload).drop etherSize) 21 4 := by
        apply field_congr
        intro i hlo hhi
        rw [List.getElem?_drop, List.getElem?_drop]
        exact hb.crc32 _ (by omega) (by omega)
      _ = (sealedHeader h payload).crc32 := congrArg GuardL2Header.crc32 hread
      _ = _ := sealedHeader_crc32
  rw [hfield] at hcrc
  apply covered_burst hb (by rw [hframe]; omega)
  exact (UInt32.toNat.inj (not_not.mp hcrc)).symm

end Sealed

/-- `compute_crc32` is the bit-serial CRC-32 of every byte string, and the receiver drops every
    frame of `build_frame` with a burst of at most four bytes, in any state and under any
    address. -/
theorem crc_detects_burst :
    (∀ data, (computeCrc32 data).toBitVec = bitSerialCrc32 data) ∧
    ∀ (dstMac srcMac : Mac) (sessionId totalDataSize : Nat) (type : FrameType) (seqNum : Nat)
      (payload altered : Bytes), sessionId < 2 ^ 32 → totalDataSize < 2 ^ 64 → seqNum < 2 ^ 32 →
      payload.length < 2 ^ 16 →
      Burst (buildFrame dstMac srcMac sessionId totalDataSize type seqNum payload) altered →
      ∀ (myMac : Mac) (r : Receiver), r.receive myMac altered = (r, [], none) := by
  refine ⟨computeCrc32_eq, ?_⟩
  intro dstMac srcMac sessionId totalDataSize type seqNum payload altered hid htotal hseq hlen hb
    myMac r
  have hnone : checkFrame myMac altered = none :=
    checkFrame_burst myMac ⟨hid, hseq, htotal, hlen, Nat.two_pow_pos 16⟩ rfl hb
  rw [Receiver.receive, hnone]

/-- A DATA frame of one byte that becomes an END frame on the way. -/
theorem crc_detects_burst_sample :
    let mac := Mac.copy [2, 0, 0, 0, 0, 1]
    let frame := buildFrame mac mac 7 1 .DATA 1 [65]
    (Receiver.call ∅).receive mac (frame.set 14 FrameType.END.code) =
      (Receiver.call ∅, [], none) :=
  crc_detects_burst.2 _ _ 7 1 .DATA 1 [65] _ (by decide) (by decide) (by decide) (by decide)
    (burst_set (by decide) (by decide) (by decide) (by decide) (by decide)) _ _

end CdsGuard.Guard
