import CdsGuard.Lib.Bytes

/-
  Characters of the keyword trie: the UTF-8 decoding of `DoubleArrayTrie.hpp`, which trusts the
  first byte of a character for its length, and `char_code`, which numbers ASCII, Hangul jamo
  and Hangul syllables and sends every other character to 0.

  Proved: on a valid text the decoding gives back the characters (`readChar_encode`), and a
  nonzero code determines the length of its character (`utf8Size_eq_codeSize`).
-/

namespace CdsGuard.DoubleArray

open CdsGuard.Lib

/-! ## Decoding -/

def getUtf8CharLength (byte : UInt8) : Nat :=
  if byte &&& 0b10000000 = 0 then 1
  else if byte &&& 0b11100000 = 0b11000000 then 2
  else if byte &&& 0b11110000 = 0b11100000 then 3
  else if byte &&& 0b11111000 = 0b11110000 then 4
  else 0

def decodeUtf8_2b (byte1 byte2 : UInt8) : Nat :=
  (byte1.toNat &&& 0b00011111) <<< 6 ||| (byte2.toNat &&& 0b00111111)

def decodeUtf8_3b (byte1 byte2 byte3 : UInt8) : Nat :=
  (byte1.toNat &&& 0b00001111) <<< 12 ||| (byte2.toNat &&& 0b00111111) <<< 6 |||
    (byte3.toNat &&& 0b00111111)

def decodeUtf8_4b (byte1 byte2 byte3 byte4 : UInt8) : Nat :=
  (byte1.toNat &&& 0b00000111) <<< 18 ||| (byte2.toNat &&& 0b00111111) <<< 12 |||
    (byte3.toNat &&& 0b00111111) <<< 6 ||| (byte4.toNat &&& 0b00111111)

/-- What stands at a position of a string: a character that does not fit in what is left, a byte
    that starts no character, or a character with its number of bytes. -/
inductive ReadStep where
  | truncated
  | bad
  | char (len ch : Nat)
  deriving DecidableEq

/-- The head of the loops of `build` and `search`, on the rest of the string. -/
def readChar (rest : Bytes) : ReadStep :=
  let utf8CharLength := getUtf8CharLength (rest.headD 0)
  if utf8CharLength > rest.length then .truncated
  else
    match utf8CharLength, rest with
    | 1, b1 :: _ => .char 1 b1.toNat
    | 2, b1 :: b2 :: _ => .char 2 (decodeUtf8_2b b1 b2)
    | 3, b1 :: b2 :: b3 :: _ => .char 3 (decodeUtf8_3b b1 b2 b3)
    | 4, b1 :: b2 :: b3 :: b4 :: _ => .char 4 (decodeUtf8_4b b1 b2 b3 b4)
    | _, _ => .bad

/-! ## Codes -/

inductive LanguageType where
  | asciiWithoutAlphabet
  | upperAlphabet
  | lowerAlphabet
  | hangulJamo
  | hangulSyllable
  | undefined
  deriving DecidableEq

/-- The flags of the enumerator. -/
def LanguageType.bits : LanguageType → Nat
  | asciiWithoutAlphabet => 0b00000001
  | upperAlphabet => 0b00000010
  | lowerAlphabet => 0b00000100
  | hangulJamo => 0b00100000
  | hangulSyllable => 0b01000000
  | undefined => 0b10000000

/-- `static_cast<bool>(l & flags)`. -/
def LanguageType.has (l : LanguageType) (flags : Nat) : Bool := l.bits &&& flags != 0

def kAscii : Nat := 0b00000111
def kHangul : Nat := 0b01100000

def getCharLanguageType (ch : Nat) : LanguageType :=
  if ch < 128 then
    if ch ≥ 0x41 ∧ ch ≤ 0x5A then .upperAlphabet
    else if ch ≥ 0x61 ∧ ch ≤ 0x7A then .lowerAlphabet
    else .asciiWithoutAlphabet
  else if ch ≥ 0x1100 ∧ ch ≤ 0x11FF then .hangulJamo
  else if ch ≥ 0xAC00 ∧ ch ≤ 0xD7A3 then .hangulSyllable
  else .undefined

/-- `char_code`, under `ignore_case_flag_`. -/
def charCode (ignoreCase : Bool) (ch : Nat) : Nat :=
  let chLanguageType := getCharLanguageType ch
  if chLanguageType.has kAscii then
    if ignoreCase && chLanguageType.has LanguageType.upperAlphabet.bits then ch + (0x61 - 0x41)
    else ch
  else if chLanguageType.has kHangul then
    if chLanguageType.has LanguageType.hangulJamo.bits then ch - 0x1100 + 0x100
    else if chLanguageType.has LanguageType.hangulSyllable.bits then ch - 0xAC00 + 0x200
    else 0
  else 0

/-- `k_max_val_of_char_code_`. -/
def kMaxValOfCharCode : Nat := 0x02DA3

/-- `char_code` by ranges of characters. -/
theorem charCode_eq (ignoreCase : Bool) (ch : Nat) :
    charCode ignoreCase ch =
      if ch < 128 then if ignoreCase = true ∧ 0x41 ≤ ch ∧ ch ≤ 0x5A then ch + 0x20 else ch
      else if 0x1100 ≤ ch ∧ ch ≤ 0x11FF then ch - 0x1100 + 0x100
      else if 0xAC00 ≤ ch ∧ ch ≤ 0xD7A3 then ch - 0xAC00 + 0x200
      else 0 := by
  unfold charCode getCharLanguageType
  by_cases h1 : ch < 128
  · simp only [h1, if_true]
    by_cases h2 : 0x41 ≤ ch ∧ ch ≤ 0x5A
    · cases ignoreCase <;> simp [h2, LanguageType.has, LanguageType.bits, kAscii]
    · by_cases h3 : 0x61 ≤ ch ∧ ch ≤ 0x7A
      · cases ignoreCase <;> simp [h2, h3, LanguageType.has, LanguageType.bits, kAscii]
      · cases ignoreCase <;> simp [h2, h3, LanguageType.has, LanguageType.bits, kAscii]
  · simp only [h1, if_false]
    by_cases h2 : 0x1100 ≤ ch ∧ ch ≤ 0x11FF
    · simp [h2, LanguageType.has, LanguageType.bits, kAscii, kHangul]
    · by_cases h3 : 0xAC00 ≤ ch ∧ ch ≤ 0xD7A3
      · simp [h2, h3, LanguageType.has, LanguageType.bits, kAscii, kHangul]
      · simp [h2, h3, LanguageType.has, LanguageType.bits, kAscii, kHangul]

theorem charCode_le (ignoreCase : Bool) (ch : Nat) :
    charCode ignoreCase ch ≤ kMaxValOfCharCode := by
  rw [charCode_eq]
  unfold kMaxValOfCharCode
  split
  · split <;> omega
  · split
    · omega
    · split <;> omega

/-! ## Valid texts -/

/-- The code of a character of a text. -/
def codeOf (ignoreCase : Bool) (c : Char) : Nat := charCode ignoreCase c.val.toNat

/-- The number of bytes of a character with a given code. -/
def codeSize (code : Nat) : Nat := if code < 0x80 then 1 else 3

/-- Characters with a code have one byte, or three. -/
theorem utf8Size_eq_codeSize (ignoreCase : Bool) (c : Char) (h : codeOf ignoreCase c ≠ 0) :
    c.utf8Size = codeSize (codeOf ignoreCase c) := by
  unfold codeOf at *
  rw [charCode_eq] at *
  unfold codeSize Char.utf8Size
  simp only [UInt32.le_iff_toNat_le, UInt32.toNat_ofNatLT]
  grind

/-- The lead bytes. -/
theorem charLength_lead :
    (∀ m < 128, getUtf8CharLength (UInt8.ofNat m) = 1) ∧
      (∀ m < 32, getUtf8CharLength (UInt8.ofNat (m + 0xc0)) = 2) ∧
      (∀ m < 16, getUtf8CharLength (UInt8.ofNat (m + 0xe0)) = 3) ∧
      (∀ m < 8, getUtf8CharLength (UInt8.ofNat (m + 0xf0)) = 4) := by
  decide +kernel

/-- The bits that the bytes carry. -/
theorem byte_bits :
    (∀ m < 32, (UInt8.ofNat (m + 0xc0)).toNat &&& 0b00011111 = m) ∧
      (∀ m < 16, (UInt8.ofNat (m + 0xe0)).toNat &&& 0b00001111 = m) ∧
      (∀ m < 8, (UInt8.ofNat (m + 0xf0)).toNat &&& 0b00000111 = m) ∧
      (∀ m < 64, (UInt8.ofNat (m + 0x80)).toNat &&& 0b00111111 = m) := by
  decide +kernel

/-- The groups of bits are put together. -/
theorem shift_or (a b : Nat) (n : Nat) (h : b < 2 ^ n) : a <<< n ||| b = a * 2 ^ n + b := by
  rw [← Nat.shiftLeft_add_eq_or_of_lt h, Nat.shiftLeft_eq]

/-- The groups of bits, by the length of the character. -/
theorem decode_groups (v : Nat) (hv : v < 0x110000) :
    (v ≤ 0x7ff → decodeUtf8_2b (UInt8.ofNat (v / 64 % 0x20 + 0xc0))
      (UInt8.ofNat (v % 0x40 + 0x80)) = v) ∧
    (v ≤ 0xffff → decodeUtf8_3b (UInt8.ofNat (v / 4096 % 0x10 + 0xe0))
      (UInt8.ofNat (v / 64 % 0x40 + 0x80)) (UInt8.ofNat (v % 0x40 + 0x80)) = v) ∧
    decodeUtf8_4b (UInt8.ofNat (v / 262144 % 0x08 + 0xf0))
      (UInt8.ofNat (v / 4096 % 0x40 + 0x80)) (UInt8.ofNat (v / 64 % 0x40 + 0x80))
      (UInt8.ofNat (v % 0x40 + 0x80)) = v := by
  obtain ⟨b2, b3, b4, bt⟩ := byte_bits
  have t0 : (UInt8.ofNat (v % 0x40 + 0x80)).toNat &&& 0b00111111 = v % 0x40 := bt _ (by omega)
  have t1 : (UInt8.ofNat (v / 64 % 0x40 + 0x80)).toNat &&& 0b00111111 = v / 64 % 0x40 :=
    bt _ (by omega)
  have t2 : (UInt8.ofNat (v / 4096 % 0x40 + 0x80)).toNat &&& 0b00111111 = v / 4096 % 0x40 :=
    bt _ (by omega)
  refine ⟨fun h => ?_, fun h => ?_, ?_⟩
  · unfold decodeUtf8_2b
    rw [b2 _ (by omega), t0, shift_or _ _ 6 (by omega)]
    omega
  · unfold decodeUtf8_3b
    rw [b3 _ (by omega), t1, t0, Nat.shiftLeft_eq (v / 64 % 0x40), shift_or _ _ 12 (by omega),
      show v / 4096 % 0x10 * 2 ^ 12 + v / 64 % 0x40 * 2 ^ 6 =
        (v / 4096 % 0x10 * 2 ^ 6 + v / 64 % 0x40) * 2 ^ 6 by omega,
      ← Nat.shiftLeft_eq, shift_or _ _ 6 (by omega)]
    omega
  · unfold decodeUtf8_4b
    rw [b4 _ (by omega), t2, t1, t0, Nat.shiftLeft_eq (v / 4096 % 0x40),
      shift_or _ _ 18 (by omega), Nat.shiftLeft_eq (v / 64 % 0x40),
      show v / 262144 % 0x08 * 2 ^ 18 + v / 4096 % 0x40 * 2 ^ 12 =
        (v / 262144 % 0x08 * 2 ^ 6 + v / 4096 % 0x40) * 2 ^ 12 by omega,
      ← Nat.shiftLeft_eq _ 12, shift_or _ _ 12 (by omega),
      show (v / 262144 % 0x08 * 2 ^ 6 + v / 4096 % 0x40) * 2 ^ 12 + v / 64 % 0x40 * 2 ^ 6 =
        ((v / 262144 % 0x08 * 2 ^ 6 + v / 4096 % 0x40) * 2 ^ 6 + v / 64 % 0x40) * 2 ^ 6 by omega,
      ← Nat.shiftLeft_eq _ 6, shift_or _ _ 6 (by omega)]
    omega

/-- The encoding of a character is read back. -/
theorem readChar_encode (c : Char) (rest : Bytes) :
    readChar (String.utf8EncodeChar c ++ rest) = .char c.utf8Size c.val.toNat := by
  have hv : c.val.toNat < 0x110000 := by
    rcases c.valid with h | ⟨-, h⟩
    · exact Nat.lt_of_lt_of_le h (by decide)
    · exact h
  obtain ⟨l1, l2, l3, l4⟩ := charLength_lead
  obtain ⟨d2, d3, d4⟩ := decode_groups c.val.toNat hv
  unfold String.utf8EncodeChar
  generalize hval : c.val.toNat = v at *
  have hsize : c.utf8Size =
      if v ≤ 0x7f then 1 else if v ≤ 0x7ff then 2 else if v ≤ 0xffff then 3 else 4 := by
    unfold Char.utf8Size
    simp only [UInt32.le_iff_toNat_le, UInt32.toNat_ofNatLT, hval]
  rw [hsize]
  by_cases h1 : v ≤ 0x7f
  · simp only [h1, if_true]
    unfold readChar
    simp only [List.cons_append, List.nil_append, List.headD_cons, l1 v (by omega)]
    rw [if_neg (by simp), UInt8.toNat_ofNat', Nat.mod_eq_of_lt (by omega)]
  · by_cases h2 : v ≤ 0x7ff
    · simp only [h1, h2, if_true, if_false]
      unfold readChar
      simp only [List.cons_append, List.nil_append, List.headD_cons, l2 (v / 64 % 0x20) (by omega)]
      rw [if_neg (by simp), d2 h2]
    · by_cases h3 : v ≤ 0xffff
      · simp only [h1, h2, h3, if_true, if_false]
        unfold readChar
        simp only [List.cons_append, List.nil_append, List.headD_cons,
          l3 (v / 4096 % 0x10) (by omega)]
        rw [if_neg (by simp), d3 h3]
      · simp only [h1, h2, h3, if_false]
        unfold readChar
        simp only [List.cons_append, List.nil_append, List.headD_cons,
          l4 (v / 262144 % 0x08) (by omega)]
        rw [if_neg (by simp), d4]

end CdsGuard.DoubleArray
