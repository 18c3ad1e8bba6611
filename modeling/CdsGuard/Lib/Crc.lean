import CdsGuard.Lib.Bytes

/-
  Reflected cyclic redundancy checks: a register of `w` bits from which one bit is shifted out for
  each bit of the message, and into which the polynomial is fed back.

  Proved: with a polynomial whose top bit is set, the register forgets nothing (`crcBits_inj`), and
  messages that differ inside one window of `w` bits leave different registers
  (`crcBytes_window`). A byte is taken in by a table of eight steps (`crcBits_byte`).
-/

namespace CdsGuard.Lib

variable {w : Nat} (poly : BitVec w)

/-- One bit of the message. -/
def crcBit (c : BitVec w) (b : Bool) : BitVec w :=
  (c >>> 1) ^^^ if (c.getLsbD 0 ^^ b) = true then poly else 0#w

/-- The register behind a message. -/
def crcBits (c : BitVec w) (bits : List Bool) : BitVec w := bits.foldl (crcBit poly) c

/-- The bits of a byte, least significant first. -/
def byteBits (b : UInt8) : List Bool := (List.range 8).map b.toNat.testBit

def crcBytes (c : BitVec w) (bytes : Bytes) : BitVec w := crcBits poly c (bytes.flatMap byteBits)

theorem crcBits_cons (c : BitVec w) (b : Bool) (bits : List Bool) :
    crcBits poly c (b :: bits) = crcBits poly (crcBit poly c b) bits := rfl

theorem crcBits_append (c : BitVec w) (xs ys : List Bool) :
    crcBits poly c (xs ++ ys) = crcBits poly (crcBits poly c xs) ys := List.foldl_append

theorem crcBytes_append (c : BitVec w) (xs ys : Bytes) :
    crcBytes poly c (xs ++ ys) = crcBytes poly (crcBytes poly c xs) ys := by
  rw [crcBytes, List.flatMap_append, crcBits_append]
  rfl

/-! ## Nothing is forgotten -/

section

variable {poly}

/-- The top bit behind a step tells what was fed back. -/
theorem crcBit_msb (hpoly : poly.msb = true) (c : BitVec w) (b : Bool) :
    (crcBit poly c b).msb = (c.getLsbD 0 ^^ b) := by
  rw [crcBit, BitVec.msb_xor, BitVec.msb_ushiftRight]
  cases c.getLsbD 0 ^^ b with
  | false => simp
  | true => simp [hpoly]

/-- Steps with the same feedback differ as far as the registers shifted once do. -/
theorem crcBit_shift {c c' : BitVec w} {b b' : Bool}
    (hfeed : (c.getLsbD 0 ^^ b) = (c'.getLsbD 0 ^^ b')) (k : Nat) :
    crcBit poly c b >>> k = crcBit poly c' b' >>> k ↔ c >>> (1 + k) = c' >>> (1 + k) := by
  rw [crcBit, crcBit, hfeed, BitVec.ushiftRight_xor_distrib, BitVec.ushiftRight_xor_distrib,
    BitVec.xor_left_inj, BitVec.shiftRight_add, BitVec.shiftRight_add]

theorem msb_of_shift {c c' : BitVec w} {k : Nat} (hk : k < w) (h : c >>> k = c' >>> k) :
    c.msb = c'.msb := by
  have hbit := congrArg (fun x : BitVec w => x.getLsbD (w - 1 - k)) h
  simp only [BitVec.getLsbD_ushiftRight] at hbit
  rw [show k + (w - 1 - k) = w - 1 by omega] at hbit
  rw [BitVec.msb_eq_getLsbD_last, BitVec.msb_eq_getLsbD_last, hbit]

/-- Registers that agree behind two messages agreed before, but for as many low bits as the
    messages are long. -/
theorem crcBits_shift (hpoly : poly.msb = true) {c c' : BitVec w} {bits bits' : List Bool}
    (hlen : bits.length = bits'.length) (h : crcBits poly c bits = crcBits poly c' bits') :
    c >>> bits.length = c' >>> bits.length := by
  induction bits generalizing c c' bits' with
  | nil =>
    obtain rfl := List.eq_nil_of_length_eq_zero hlen.symm
    rw [List.length_nil, BitVec.ushiftRight_zero, BitVec.ushiftRight_zero]
    exact h
  | cons b bits ih =>
    cases bits' with
    | nil => cases hlen
    | cons b' bits' =>
      have hrest := ih (Nat.succ.inj hlen) h
      rcases Nat.lt_or_ge bits.length w with hk | hk
      · have hfeed := msb_of_shift hk hrest
        rw [crcBit_msb hpoly, crcBit_msb hpoly] at hfeed
        rw [List.length_cons, Nat.add_comm]
        exact (crcBit_shift hfeed _).mp hrest
      · rw [List.length_cons, BitVec.ushiftRight_eq_zero (by omega),
          BitVec.ushiftRight_eq_zero (by omega)]

/-- The same message leads different registers to different ones. -/
theorem crcBits_inj (hpoly : poly.msb = true) {c c' : BitVec w} {bits : List Bool}
    (h : crcBits poly c bits = crcBits poly c' bits) : c = c' := by
  induction bits generalizing c c' with
  | nil => exact h
  | cons b bits ih =>
    have hstep := ih h
    have hfeed : (c.getLsbD 0 ^^ b) = (c'.getLsbD 0 ^^ b) := by
      rw [← crcBit_msb hpoly, hstep, crcBit_msb hpoly]
    have hshift := (@crcBit_shift _ poly _ _ _ _ hfeed 0).mp (by rw [hstep])
    -- the lowest bit is in the feedback, the others are in the register
    have hlow : c.getLsbD 0 = c'.getLsbD 0 := Bool.xor_left_inj.mp hfeed
    apply BitVec.eq_of_getLsbD_eq
    intro i _
    cases i with
    | zero => exact hlow
    | succ i =>
      have hbit := congrArg (fun x : BitVec w => x.getLsbD i) hshift
      simp only [BitVec.getLsbD_ushiftRight, Nat.add_zero] at hbit
      rwa [Nat.add_comm 1 i] at hbit

/-- From one register, messages of at most `w` bits lead to different ones. -/
theorem crcBits_short (hpoly : poly.msb = true) {c : BitVec w} {bits bits' : List Bool}
    (hlen : bits.length = bits'.length) (hw : bits.length ≤ w)
    (h : crcBits poly c bits = crcBits poly c bits') : bits = bits' := by
  induction bits generalizing c bits' with
  | nil => exact (List.eq_nil_of_length_eq_zero hlen.symm).symm
  | cons b bits ih =>
    cases bits' with
    | nil => cases hlen
    | cons b' bits' =>
      have hlen' : bits.length = bits'.length := Nat.succ.inj hlen
      have hrest := crcBits_shift hpoly hlen' h
      have hfeed := msb_of_shift (Nat.lt_of_succ_le hw) hrest
      rw [crcBit_msb hpoly, crcBit_msb hpoly] at hfeed
      obtain rfl : b = b' := Bool.xor_right_inj.mp hfeed
      rw [ih hlen' (Nat.le_of_succ_le hw) h]

end

/-! ## Bursts -/

theorem byteBits_length (b : UInt8) : (byteBits b).length = 8 := by
  rw [byteBits, List.length_map, List.length_range]

theorem bytesBits_length (bytes : Bytes) : (bytes.flatMap byteBits).length = 8 * bytes.length := by
  induction bytes with
  | nil => rfl
  | cons b bytes ih =>
    rw [List.flatMap_cons, List.length_append, byteBits_length, ih, List.length_cons]
    omega

theorem byteBits_inj {a b : UInt8} (h : byteBits a = byteBits b) : a = b := by
  apply UInt8.toNat.inj
  apply Nat.eq_of_testBit_eq
  intro i
  rcases Nat.lt_or_ge i 8 with hi | hi
  · exact List.map_inj_left.mp h i (List.mem_range.mpr hi)
  · have ha : a.toNat < 2 ^ i := a.toNat_lt.trans_le (Nat.pow_le_pow_right (by decide) hi)
    have hb : b.toNat < 2 ^ i := b.toNat_lt.trans_le (Nat.pow_le_pow_right (by decide) hi)
    rw [Nat.testBit_lt_two_pow ha, Nat.testBit_lt_two_pow hb]

theorem bytesBits_inj {xs ys : Bytes} (h : xs.flatMap byteBits = ys.flatMap byteBits) :
    xs = ys := by
  induction xs generalizing ys with
  | nil =>
    have hlen := bytesBits_length ys
    rw [← h] at hlen
    exact (List.eq_nil_of_length_eq_zero (by simpa using hlen.symm)).symm
  | cons x xs ih =>
    cases ys with
    | nil =>
      have hlen := bytesBits_length (x :: xs)
      rw [h] at hlen
      cases hlen
    | cons y ys =>
      rw [List.flatMap_cons, List.flatMap_cons] at h
      have hlen : (byteBits x).length = (byteBits y).length := by
        rw [byteBits_length, byteBits_length]
      obtain ⟨hhead, htail⟩ := List.append_inj h hlen
      rw [byteBits_inj hhead, ih htail]

variable {poly}

/-- Messages that differ in a burst of at most `w` bits leave different registers. -/
theorem crcBytes_burst (hpoly : poly.msb = true) {c : BitVec w} {pre mid mid' post : Bytes}
    (hlen : mid.length = mid'.length) (hw : 8 * mid.length ≤ w)
    (h : crcBytes poly c (pre ++ (mid ++ post)) = crcBytes poly c (pre ++ (mid' ++ post))) :
    mid = mid' := by
  rw [crcBytes_append, crcBytes_append, crcBytes_append, crcBytes_append] at h
  have hmid := crcBits_inj hpoly h
  apply bytesBits_inj
  refine crcBits_short hpoly ?_ ?_ hmid
  · rw [bytesBits_length, bytesBits_length, hlen]
  · rwa [bytesBits_length]

/-- Messages of one length with one checksum do not differ inside one window of `w` bits only. -/
theorem crcBytes_window (hpoly : poly.msb = true) {c : BitVec w} {xs ys : Bytes} {lo k : Nat}
    (hlen : xs.length = ys.length) (hw : 8 * k ≤ w)
    (hsame : ∀ i, ¬(lo ≤ i ∧ i < lo + k) → xs[i]? = ys[i]?)
    (h : crcBytes poly c xs = crcBytes poly c ys) : xs = ys := by
  have hpre : xs.take lo = ys.take lo := by
    apply List.ext_getElem?
    intro i
    rw [List.getElem?_take, List.getElem?_take]
    split
    · exact hsame i (by omega)
    · rfl
  have hpost : (xs.drop lo).drop k = (ys.drop lo).drop k := by
    apply List.ext_getElem?
    intro i
    rw [List.drop_drop, List.drop_drop, List.getElem?_drop, List.getElem?_drop]
    exact hsame _ (by omega)
  have hsplit (zs : Bytes) : zs = zs.take lo ++ ((zs.drop lo).take k ++ (zs.drop lo).drop k) := by
    rw [List.take_append_drop, List.take_append_drop]
  have hmid : (xs.drop lo).take k = (ys.drop lo).take k := by
    refine @crcBytes_burst _ _ hpoly c (xs.take lo) _ _ ((xs.drop lo).drop k) ?_ ?_ ?_
    · rw [List.length_take, List.length_take, List.length_drop, List.length_drop, hlen]
    · exact le_trans (Nat.mul_le_mul_left 8 (List.length_take_le _ _)) hw
    · rw [← hsplit, h, hpre, hpost, ← hsplit]
  rw [hsplit xs, hsplit ys, hpre, hmid, hpost]

/-! ## A byte at a time -/

/-- `n` steps without a message. -/
def crcShifts (poly : BitVec w) : Nat → BitVec w → BitVec w
  | 0, c => c
  | n + 1, c => crcShifts poly n (crcBit poly c false)

theorem feed_xor (b b' : Bool) : (if (b ^^ b') = true then poly else 0#w) =
    (if b = true then poly else 0#w) ^^^ (if b' = true then poly else 0#w) := by
  cases b <;> cases b' <;> simp

/-- A bit of the message may as well be in the register. -/
theorem crcBit_absorb (c x : BitVec w) :
    crcBit poly (c ^^^ x) false = crcBit poly c (x.getLsbD 0) ^^^ (x >>> 1) := by
  rw [crcBit, crcBit, BitVec.ushiftRight_xor_distrib, BitVec.getLsbD_xor, Bool.xor_false,
    BitVec.xor_assoc, BitVec.xor_assoc, BitVec.xor_comm (x >>> 1)]

theorem crcBit_xor (a b : BitVec w) :
    crcBit poly (a ^^^ b) false = crcBit poly a false ^^^ crcBit poly b false := by
  unfold crcBit
  rw [BitVec.ushiftRight_xor_distrib, BitVec.getLsbD_xor, Bool.xor_false, Bool.xor_false,
    Bool.xor_false, feed_xor]
  ac_rfl

theorem crcShifts_xor (n : Nat) (a b : BitVec w) :
    crcShifts poly n (a ^^^ b) = crcShifts poly n a ^^^ crcShifts poly n b := by
  induction n generalizing a b with
  | zero => rfl
  | succ n ih => rw [crcShifts, crcBit_xor, ih, crcShifts, crcShifts]

/-- Without low bits nothing is fed back. -/
theorem crcShifts_high {n : Nat} {c : BitVec w} (h : ∀ i < n, c.getLsbD i = false) :
    crcShifts poly n c = c >>> n := by
  induction n generalizing c with
  | zero => exact (BitVec.ushiftRight_zero c).symm
  | succ n ih =>
    have hbit : crcBit poly c false = c >>> 1 := by
      rw [crcBit, h 0 (Nat.succ_pos n)]
      exact BitVec.xor_zero
    rw [crcShifts, hbit, ih, Nat.add_comm, BitVec.shiftRight_add]
    intro i hi
    rw [BitVec.getLsbD_ushiftRight]
    exact h (1 + i) (by omega)

/-- The bits of a number that fits the register, taken in at once. -/
theorem crcBits_nat {n v : Nat} (hn : n ≤ w) (hv : v < 2 ^ n) (c : BitVec w) :
    crcBits poly c ((List.range n).map v.testBit) =
      crcShifts poly n (c ^^^ BitVec.ofNat w v) := by
  induction n generalizing v c with
  | zero =>
    obtain rfl : v = 0 := by simpa using hv
    exact (BitVec.xor_zero).symm
  | succ n ih =>
    have hbits : (List.range (n + 1)).map v.testBit =
        v.testBit 0 :: (List.range n).map (v / 2).testBit := by
      rw [List.range_succ_eq_map, List.map_cons, List.map_map]
      refine congrArg _ (List.map_congr_left fun i _ => ?_)
      exact Nat.testBit_succ v i
    have hlow : (BitVec.ofNat w v).getLsbD 0 = v.testBit 0 := by
      rw [BitVec.getLsbD_ofNat, decide_eq_true (by omega), Bool.true_and]
    have hhigh : BitVec.ofNat w v >>> 1 = BitVec.ofNat w (v / 2) := by
      have hvw : v < 2 ^ w := hv.trans_le (Nat.pow_le_pow_right (by decide) hn)
      apply BitVec.eq_of_toNat_eq
      rw [BitVec.toNat_ushiftRight, BitVec.toNat_ofNat, BitVec.toNat_ofNat,
        Nat.mod_eq_of_lt hvw, Nat.mod_eq_of_lt ((Nat.div_le_self v 2).trans_lt hvw),
        Nat.shiftRight_one]
    rw [hbits, crcBits_cons, ih (Nat.le_of_succ_le hn) (by rw [Nat.pow_succ] at hv; omega),
      crcShifts, crcBit_absorb, hlow, hhigh]

/-- A byte is taken in by a table of 256 entries. -/
theorem crcBits_byte (hw : 8 ≤ w) (c : BitVec w) (b : UInt8) :
    crcBits poly c (byteBits b) =
      (c >>> 8) ^^^ crcShifts poly 8 ((c ^^^ BitVec.ofNat w b.toNat) &&& 255#w) := by
  have hbw : b.toNat < 2 ^ w := b.toNat_lt.trans_le (Nat.pow_le_pow_right (by decide) hw)
  generalize hx : c ^^^ BitVec.ofNat w b.toNat = x
  have hmask (i : Nat) : (255#w).getLsbD i = decide (i < 8) := by
    rw [BitVec.getLsbD_ofNat, show 255 = 2 ^ 8 - 1 from rfl, Nat.testBit_two_pow_sub_one]
    by_cases hi : i < 8
    · rw [decide_eq_true (by omega : i < w), Bool.true_and]
    · rw [decide_eq_false hi, Bool.and_false]
  have hsplit : x = (x &&& 255#w) ^^^ (x ^^^ (x &&& 255#w)) := by
    rw [BitVec.xor_comm x, ← BitVec.xor_assoc, BitVec.xor_self, BitVec.zero_xor]
  have hhigh : ∀ i < 8, (x ^^^ (x &&& 255#w)).getLsbD i = false := by
    intro i hi
    rw [BitVec.getLsbD_xor, BitVec.getLsbD_and, hmask, decide_eq_true hi, Bool.and_true,
      Bool.xor_self]
  have hshift : (x ^^^ (x &&& 255#w)) >>> 8 = c >>> 8 := by
    apply BitVec.eq_of_getLsbD_eq
    intro i _
    have hb : b.toNat < 2 ^ (8 + i) :=
      b.toNat_lt.trans_le (Nat.pow_le_pow_right (by decide) (Nat.le_add_right 8 i))
    rw [BitVec.getLsbD_ushiftRight, BitVec.getLsbD_ushiftRight, BitVec.getLsbD_xor,
      BitVec.getLsbD_and, hmask, decide_eq_false (by omega), Bool.and_false, Bool.xor_false, ← hx,
      BitVec.getLsbD_xor, BitVec.getLsbD_ofNat, Nat.testBit_lt_two_pow hb, Bool.and_false,
      Bool.xor_false]
  have habsorb : crcBits poly c (byteBits b) = crcShifts poly 8 x := by
    rw [← hx]
    exact crcBits_nat hw b.toNat_lt c
  calc crcBits poly c (byteBits b)
    _ = crcShifts poly 8 ((x &&& 255#w) ^^^ (x ^^^ (x &&& 255#w))) := by rw [habsorb, ← hsplit]
    _ = crcShifts poly 8 (x &&& 255#w) ^^^ (c >>> 8) := by
      rw [crcShifts_xor, crcShifts_high hhigh, hshift]
    _ = (c >>> 8) ^^^ crcShifts poly 8 (x &&& 255#w) := BitVec.xor_comm _ _

end CdsGuard.Lib
