import Mathlib.Tactic

/-
  Byte strings: little-endian and big-endian fields of a fixed width, the UTF-8 bytes of a text,
  and reading a given number of bytes off the front of a stream. `leVal_leBytes` and
  `beVal_beBytes` are the round trips; a stream that starts with a field is read by
  `readN_append`.
-/

namespace CdsGuard.Lib

/-- A byte string. -/
abbrev Bytes := List UInt8

/-! ## Fixed-width fields -/

/-- The low `n` bytes of `v`, least significant first. -/
def leBytes : Nat → Nat → Bytes
  | 0, _ => []
  | n + 1, v => UInt8.ofNat v :: leBytes n (v / 256)

/-- The value of a byte string, least significant byte first. -/
def leVal : Bytes → Nat
  | [] => 0
  | b :: bs => b.toNat + 256 * leVal bs

/-- The low `n` bytes of `v`, most significant first. -/
def beBytes (n v : Nat) : Bytes := (leBytes n v).reverse

/-- The value of a byte string, most significant byte first. -/
def beVal (bs : Bytes) : Nat := leVal bs.reverse

@[simp] theorem leBytes_length (n v : Nat) : (leBytes n v).length = n := by
  induction n generalizing v with
  | zero => rfl
  | succ n ih => simp [leBytes, ih]

@[simp] theorem beBytes_length (n v : Nat) : (beBytes n v).length = n := by
  simp [beBytes]

theorem leVal_leBytes (n v : Nat) : leVal (leBytes n v) = v % 256 ^ n := by
  induction n generalizing v with
  | zero => simp [leBytes, leVal, Nat.mod_one]
  | succ n ih =>
    have h : v % 256 ^ (n + 1) = v % 256 + 256 * (v / 256 % 256 ^ n) := by
      rw [Nat.pow_succ', Nat.mod_mul]
    rw [leBytes, leVal, ih, h]
    simp

theorem leVal_leBytes_of_lt {n v : Nat} (h : v < 256 ^ n) : leVal (leBytes n v) = v := by
  rw [leVal_leBytes, Nat.mod_eq_of_lt h]

theorem beVal_beBytes (n v : Nat) : beVal (beBytes n v) = v % 256 ^ n := by
  rw [beVal, beBytes, List.reverse_reverse, leVal_leBytes]

theorem beVal_beBytes_of_lt {n v : Nat} (h : v < 256 ^ n) : beVal (beBytes n v) = v := by
  rw [beVal_beBytes, Nat.mod_eq_of_lt h]

theorem leBytes_leVal (bs : Bytes) : leBytes bs.length (leVal bs) = bs := by
  induction bs with
  | nil => rfl
  | cons b bs ih =>
    have hb := b.toNat_lt
    have hhead : UInt8.ofNat (b.toNat + 256 * leVal bs) = b := by
      rw [← UInt8.ofNat_mod_size, show 2 ^ 8 = 256 from rfl, Nat.add_mul_mod_self_left,
        Nat.mod_eq_of_lt hb, UInt8.ofNat_toNat]
    have htail : (b.toNat + 256 * leVal bs) / 256 = leVal bs := by omega
    rw [List.length_cons, leVal, leBytes, hhead, htail, ih]

theorem beBytes_beVal (bs : Bytes) : beBytes bs.length (beVal bs) = bs := by
  have h := leBytes_leVal bs.reverse
  rw [List.length_reverse] at h
  rw [beBytes, beVal, h, List.reverse_reverse]

theorem leVal_lt (bs : Bytes) : leVal bs < 256 ^ bs.length := by
  induction bs with
  | nil => exact Nat.one_pos
  | cons b bs ih =>
    have hb := b.toNat_lt
    rw [leVal, List.length_cons, Nat.pow_succ]
    omega

theorem beVal_lt (bs : Bytes) : beVal bs < 256 ^ bs.length := by
  have h := leVal_lt bs.reverse
  rwa [List.length_reverse] at h

/-! ## Fixed-width values -/

/-- A value stored in a `uint32_t`, and in a `uint64_t`. -/
def u32 (n : Nat) : Nat := n % 2 ^ 32
def u64 (n : Nat) : Nat := n % 2 ^ 64

theorem u32_of_lt {n : Nat} (h : n < 2 ^ 32) : u32 n = n := Nat.mod_eq_of_lt h
theorem u64_of_lt {n : Nat} (h : n < 2 ^ 64) : u64 n = n := Nat.mod_eq_of_lt h

/-- A value narrowed to an `int32_t`. -/
def i32 (n : Int) : Int := n.bmod (2 ^ 32)

theorem i32_def (n : Int) :
    i32 n = if n % 2 ^ 32 < 2 ^ 31 then n % 2 ^ 32 else n % 2 ^ 32 - 2 ^ 32 := by
  rw [i32, Int.bmod_def]
  push_cast
  split_ifs <;> omega

theorem i32_of_range {n : Int} (hlo : -2 ^ 31 ≤ n) (hhi : n < 2 ^ 31) : i32 n = n := by
  rw [i32_def]
  split <;> omega

/-! ## Texts -/

/-- The UTF-8 bytes of a text. -/
def utf8 (cs : List Char) : Bytes := cs.flatMap String.utf8EncodeChar

theorem utf8_cons (c : Char) (cs : List Char) :
    utf8 (c :: cs) = String.utf8EncodeChar c ++ utf8 cs :=
  rfl

theorem utf8_append (cs ds : List Char) : utf8 (cs ++ ds) = utf8 cs ++ utf8 ds := by
  simp [utf8]

theorem utf8_cons_length (c : Char) (cs : List Char) :
    (utf8 (c :: cs)).length = c.utf8Size + (utf8 cs).length := by
  rw [utf8_cons, List.length_append, String.length_utf8EncodeChar]

theorem length_le_utf8_length (cs : List Char) : cs.length ≤ (utf8 cs).length := by
  induction cs with
  | nil => exact Nat.zero_le _
  | cons c cs ih =>
    have hpos := c.utf8Size_pos
    rw [utf8_cons_length, List.length_cons]
    omega

/-! ## Reading from a stream -/

/-- Read exactly `n` bytes: the bytes and the rest of the stream, or nothing when the stream
    ends first. -/
def readN (n : Nat) (s : Bytes) : Option (Bytes × Bytes) :=
  if n ≤ s.length then some (s.take n, s.drop n) else none

theorem readN_append {n : Nat} (xs rest : Bytes) (h : xs.length = n) :
    readN n (xs ++ rest) = some (xs, rest) := by
  subst h
  simp [readN]

theorem readN_some {n : Nat} {s xs rest : Bytes} (h : readN n s = some (xs, rest)) :
    s = xs ++ rest ∧ xs.length = n := by
  unfold readN at h
  split at h
  · rename_i hn
    simp only [Option.some.injEq, Prod.mk.injEq] at h
    obtain ⟨rfl, rfl⟩ := h
    exact ⟨(List.take_append_drop n s).symm, by simp [hn]⟩
  · exact absurd h (by simp)

end CdsGuard.Lib
