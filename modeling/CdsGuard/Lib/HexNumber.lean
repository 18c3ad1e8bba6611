import CdsGuard.Lib.Bytes
import Mathlib.Data.List.TakeWhile

/-
  Hexadecimal numbers in text as the C library reads them, `strtol` and `std::stoi` with base 16:
  blanks in front are skipped, then come a sign and the mark "0x", if they are there, then as many
  digits as there are; what stands behind the digits does not matter.

  Proved: which texts are read, and as which number (`strtolHex_eq_some_iff`).
-/

namespace CdsGuard.Lib

/-! ## Reading -/

/-- `isspace`. -/
def isSpace (b : UInt8) : Bool := b == 0x20 || (0x09 ≤ b && b ≤ 0x0d)

def hexDigit (b : UInt8) : Option Nat :=
  if 0x30 ≤ b ∧ b ≤ 0x39 then some (b.toNat - 0x30)
  else if 0x61 ≤ b ∧ b ≤ 0x66 then some (b.toNat - 0x57)
  else if 0x41 ≤ b ∧ b ≤ 0x46 then some (b.toNat - 0x37)
  else none

def isHexDigit (b : UInt8) : Bool := (hexDigit b).isSome

/-- The number that digits stand for, the first digit most significant. -/
def hexValue (digits : Bytes) : Nat :=
  digits.foldl (fun v b => 16 * v + (hexDigit b).getD 0) 0

inductive Sign where
  | none
  | plus
  | minus

def Sign.text : Sign → Bytes
  | none => []
  | plus => [0x2b]
  | minus => [0x2d]

def Sign.apply : Sign → Nat → Int
  | none, n | plus, n => n
  | minus, n => -n

/-- The sign, and what stands behind it. -/
def takeSign : Bytes → Sign × Bytes
  | 0x2d :: s => (.minus, s)
  | 0x2b :: s => (.plus, s)
  | s => (.none, s)

/-- The second character of the mark. -/
def isMark (b : UInt8) : Bool := b == 0x78 || b == 0x58

/-- "0x" is a mark only in front of a digit. -/
def dropMark : Bytes → Bytes
  | 0x30 :: x :: d :: s => if isMark x && isHexDigit d then d :: s else 0x30 :: x :: d :: s
  | s => s

/-- `strtol`; nothing if there are no digits. -/
def strtolHex (s : Bytes) : Option Int :=
  let signed := takeSign (s.dropWhile isSpace)
  let digits := (dropMark signed.2).takeWhile isHexDigit
  if digits = [] then none else some (signed.1.apply (hexValue digits))

/-- `std::stoi`; nothing if it throws. -/
def stoiHex (s : Bytes) : Option Int :=
  (strtolHex s).filter fun v => -2 ^ 31 ≤ v ∧ v < 2 ^ 31

/-! ## The form of the text -/

/-- A text in which a number is read. -/
structure HexText (s : Bytes) where
  blanks : Bytes
  sign : Sign
  mark : Bytes
  digits : Bytes
  rest : Bytes
  eq : s = blanks ++ (sign.text ++ (mark ++ (digits ++ rest)))
  allBlank : ∀ b ∈ blanks, isSpace b = true
  mark_eq : mark = [] ∨ ∃ x, isMark x = true ∧ mark = [0x30, x]
  digits_ne : digits ≠ []
  allDigits : ∀ b ∈ digits, isHexDigit b = true
  /-- All the digits are read. -/
  maximal : ∀ b ∈ rest.head?, isHexDigit b = false
  /-- "0x" is the mark where it can be. -/
  marked : mark = [] → digits = [0x30] → ∀ x d r, rest = x :: d :: r →
    (isMark x && isHexDigit d) = false

def HexText.value {s : Bytes} (t : HexText s) : Int := t.sign.apply (hexValue t.digits)

/-! ## Characters -/

theorem isHexDigit_iff {b : UInt8} : isHexDigit b = true ↔
    (0x30 ≤ b.toNat ∧ b.toNat ≤ 0x39) ∨ (0x61 ≤ b.toNat ∧ b.toNat ≤ 0x66) ∨
      (0x41 ≤ b.toNat ∧ b.toNat ≤ 0x46) := by
  unfold isHexDigit hexDigit
  simp only [UInt8.le_iff_toNat_le]
  split_ifs <;> simp_all

theorem isSpace_iff {b : UInt8} :
    isSpace b = true ↔ b.toNat = 0x20 ∨ 0x09 ≤ b.toNat ∧ b.toNat ≤ 0x0d := by
  simp [isSpace, UInt8.le_iff_toNat_le, ← UInt8.toNat_inj]

theorem isSpace_of_isHexDigit {b : UInt8} (h : isHexDigit b = true) : isSpace b = false := by
  rw [isHexDigit_iff] at h
  rw [Bool.eq_false_iff, ne_eq, isSpace_iff]
  omega

theorem isMark_of_isHexDigit {b : UInt8} (h : isHexDigit b = true) : isMark b = false := by
  rw [isHexDigit_iff] at h
  rw [isMark, Bool.or_eq_false_iff, beq_eq_false_iff_ne, beq_eq_false_iff_ne]
  refine ⟨fun heq => ?_, fun heq => ?_⟩
  · rw [heq] at h
    revert h
    decide
  · rw [heq] at h
    revert h
    decide

theorem hexDigit_ne {b c : UInt8} (hb : isHexDigit b = true) (hc : isHexDigit c = false) :
    b ≠ c := by
  intro heq
  rw [heq, hc] at hb
  cases hb

/-! ## Cutting -/

section

variable {α : Type} {q : α → Bool} {xs rest : List α}

theorem takeWhile_append_of_stop (h : ∀ x ∈ xs, q x = true)
    (hrest : ∀ x ∈ rest.head?, q x = false) : (xs ++ rest).takeWhile q = xs := by
  rw [List.takeWhile_append_of_pos h]
  cases rest with
  | nil => rw [List.takeWhile_nil, List.append_nil]
  | cons x rest =>
    have hx : ¬q x = true := by
      rw [hrest x rfl]
      exact Bool.false_ne_true
    rw [List.takeWhile_cons_of_neg hx, List.append_nil]

theorem dropWhile_append_of_stop (h : ∀ x ∈ xs, q x = true)
    (hrest : ∀ x ∈ rest.head?, q x = false) : (xs ++ rest).dropWhile q = rest := by
  rw [List.dropWhile_append_of_pos h]
  cases rest with
  | nil => rfl
  | cons x rest =>
    have hx : ¬q x = true := by
      rw [hrest x rfl]
      exact Bool.false_ne_true
    rw [List.dropWhile_cons_of_neg hx]

theorem dropWhile_head (q : α → Bool) (xs : List α) :
    ∀ x ∈ (xs.dropWhile q).head?, q x = false := by
  intro x hx
  have h := List.head?_dropWhile_not q xs
  rw [Option.mem_def.mp hx] at h
  exact h

end

theorem takeSign_text (sign : Sign) {s : Bytes} (hs : ∀ b ∈ s.head?, isHexDigit b = true) :
    takeSign (sign.text ++ s) = (sign, s) := by
  cases sign with
  | plus => rfl
  | minus => rfl
  | none =>
    rw [Sign.text, List.nil_append, takeSign]
    · intro t heq
      rw [heq] at hs
      exact hexDigit_ne (hs _ rfl) (by decide) rfl
    · intro t heq
      rw [heq] at hs
      exact hexDigit_ne (hs _ rfl) (by decide) rfl

theorem takeSign_append (s : Bytes) : s = (takeSign s).1.text ++ (takeSign s).2 := by
  unfold takeSign
  split <;> rfl

/-- What `dropMark` leaves out. -/
theorem dropMark_cases (s : Bytes) :
    dropMark s = s ∧ (∀ x d r, s = 0x30 :: x :: d :: r → (isMark x && isHexDigit d) = false) ∨
    ∃ x d r, (isMark x && isHexDigit d) = true ∧ s = 0x30 :: x :: d :: r ∧
      dropMark s = d :: r := by
  unfold dropMark
  split
  · rename_i x d r
    split
    · rename_i hmark
      exact .inr ⟨x, d, r, hmark, rfl, rfl⟩
    · rename_i hmark
      refine .inl ⟨rfl, fun x' d' r' heq => ?_⟩
      obtain ⟨rfl, rfl, -⟩ : x = x' ∧ d = d' ∧ r = r' := by simpa using heq
      exact Bool.eq_false_iff.mpr hmark
  · rename_i hother
    exact .inl ⟨rfl, fun x d r heq => absurd heq (hother x d r)⟩

/-- The mark, or nothing where there is none. -/
theorem dropMark_append (s : Bytes) : ∃ mark : Bytes,
    s = mark ++ dropMark s ∧ (mark = [] ∨ ∃ x, isMark x = true ∧ mark = [0x30, x]) ∧
      (mark = [] → ∀ x d r, s = 0x30 :: x :: d :: r → (isMark x && isHexDigit d) = false) := by
  rcases dropMark_cases s with ⟨hsame, hnone⟩ | ⟨x, d, r, hboth, hs, hcut⟩
  · exact ⟨[], hsame.symm, .inl rfl, fun _ => hnone⟩
  · refine ⟨[0x30, x], ?_, .inr ⟨x, (Bool.and_eq_true_iff.mp hboth).1, rfl⟩, ?_⟩
    · rw [hcut]
      exact hs
    · exact fun hnil => absurd hnil (List.cons_ne_nil _ _)

namespace HexText

variable {s : Bytes} (t : HexText s)

theorem dropMark_eq : dropMark (t.mark ++ (t.digits ++ t.rest)) = t.digits ++ t.rest := by
  obtain ⟨d, ds, hdigits⟩ := List.exists_cons_of_ne_nil t.digits_ne
  have hd : isHexDigit d = true := t.allDigits d (hdigits ▸ List.mem_cons_self)
  rcases t.mark_eq with hmark | ⟨x, hx, hmark⟩
  · rw [hmark, List.nil_append]
    rcases dropMark_cases (t.digits ++ t.rest) with ⟨hsame, -⟩ | ⟨x, e, r, hboth, htext, -⟩
    · exact hsame
    · rw [hdigits] at htext
      obtain ⟨rfl, htail⟩ := List.cons.inj htext
      cases ds with
      | nil =>
        rw [t.marked hmark hdigits x e r htail] at hboth
        cases hboth
      | cons y ds =>
        obtain ⟨rfl, -⟩ := List.cons.inj htail
        have hy := t.allDigits y (by simp [hdigits])
        rw [isMark_of_isHexDigit hy, Bool.false_and] at hboth
        cases hboth
  · rw [hmark, hdigits]
    show (if isMark x && isHexDigit d then _ else _) = _
    rw [hx, hd]
    rfl

/-- What begins behind the sign is a digit. -/
theorem head_digit : ∀ b ∈ (t.mark ++ (t.digits ++ t.rest)).head?, isHexDigit b = true := by
  obtain ⟨d, ds, hdigits⟩ := List.exists_cons_of_ne_nil t.digits_ne
  have hd : isHexDigit d = true := t.allDigits d (hdigits ▸ List.mem_cons_self)
  intro b hb
  rcases t.mark_eq with hmark | ⟨x, -, hmark⟩
  · rw [hmark, hdigits] at hb
    exact Option.some.inj hb ▸ hd
  · rw [hmark] at hb
    exact Option.some.inj hb ▸ by decide

theorem strtolHex_eq : strtolHex s = some t.value := by
  obtain ⟨d, ds, hdigits⟩ := List.exists_cons_of_ne_nil t.digits_ne
  have hnoBlank : ∀ b ∈ (t.sign.text ++ (t.mark ++ (t.digits ++ t.rest))).head?,
      isSpace b = false := by
    intro b hb
    cases hsign : t.sign with
    | none =>
      rw [hsign] at hb
      exact isSpace_of_isHexDigit (t.head_digit b hb)
    | plus =>
      rw [hsign] at hb
      exact Option.some.inj hb ▸ by decide
    | minus =>
      rw [hsign] at hb
      exact Option.some.inj hb ▸ by decide
  have hskip : s.dropWhile isSpace = t.sign.text ++ (t.mark ++ (t.digits ++ t.rest)) := by
    conv_lhs => rw [t.eq]
    exact dropWhile_append_of_stop t.allBlank hnoBlank
  rw [strtolHex, hskip, takeSign_text t.sign t.head_digit]
  dsimp only
  rw [t.dropMark_eq, takeWhile_append_of_stop t.allDigits t.maximal, if_neg t.digits_ne]
  rfl

end HexText

/-- What is read has the form, and what has the form is read. -/
theorem strtolHex_eq_some_iff {s : Bytes} {v : Int} :
    strtolHex s = some v ↔ ∃ t : HexText s, t.value = v := by
  constructor
  · intro h
    unfold strtolHex at h
    dsimp only at h
    split at h
    · cases h
    · rename_i hdigits
      obtain ⟨mark, hsplit, hmark, hmarked⟩ := dropMark_append (takeSign (s.dropWhile isSpace)).2
      have hall := @List.takeWhile_append_dropWhile _ isHexDigit
        (dropMark (takeSign (s.dropWhile isSpace)).2)
      refine ⟨{
        blanks := s.takeWhile isSpace
        sign := (takeSign (s.dropWhile isSpace)).1
        mark := mark
        digits := (dropMark (takeSign (s.dropWhile isSpace)).2).takeWhile isHexDigit
        rest := (dropMark (takeSign (s.dropWhile isSpace)).2).dropWhile isHexDigit
        eq := ?_
        allBlank := fun _ hb => List.mem_takeWhile_imp hb
        mark_eq := hmark
        digits_ne := hdigits
        allDigits := fun _ hb => List.mem_takeWhile_imp hb
        maximal := dropWhile_head _ _
        marked := ?_ }, Option.some.inj h⟩
      · rw [hall, ← hsplit, ← takeSign_append, List.takeWhile_append_dropWhile]
      · intro hnil hzero x d r hrest
        apply hmarked hnil x d r
        rw [hsplit, hnil, List.nil_append, ← hall, hzero, hrest]
        rfl
  · intro h
    obtain ⟨t, rfl⟩ := h
    exact t.strtolHex_eq

theorem stoiHex_eq_some_iff {s : Bytes} {v : Int} :
    stoiHex s = some v ↔ (∃ t : HexText s, t.value = v) ∧ -2 ^ 31 ≤ v ∧ v < 2 ^ 31 := by
  rw [stoiHex, Option.filter_eq_some_iff, strtolHex_eq_some_iff, decide_eq_true_iff]

/-! ## Digits alone -/

theorem hexDigit_lt (b : UInt8) : (hexDigit b).getD 0 < 16 := by
  have hnine : (0x39 : UInt8).toNat = 57 := rfl
  have hlower : (0x66 : UInt8).toNat = 102 := rfl
  have hupper : (0x46 : UInt8).toNat = 70 := rfl
  unfold hexDigit
  simp only [UInt8.le_iff_toNat_le]
  split_ifs
  · rw [Option.getD_some]
    omega
  · rw [Option.getD_some]
    omega
  · rw [Option.getD_some]
    omega
  · exact Nat.succ_pos 15

theorem hexValue_lt (digits : Bytes) : hexValue digits < 16 ^ digits.length := by
  unfold hexValue
  induction digits using List.reverseRecOn with
  | nil => exact Nat.one_pos
  | append_singleton ds d ih =>
    have hd := hexDigit_lt d
    rw [List.foldl_append, List.length_append, Nat.pow_add]
    simp only [List.foldl_cons, List.foldl_nil, List.length_singleton, Nat.pow_one]
    omega

/-- Up to seven digits alone are read as their number. -/
theorem stoiHex_digits {digits : Bytes} (hne : digits ≠ [])
    (hall : ∀ b ∈ digits, isHexDigit b = true) (hlen : digits.length ≤ 7) :
    stoiHex digits = some (hexValue digits) := by
  have hlt := hexValue_lt digits
  have hle : 16 ^ digits.length ≤ 16 ^ 7 := Nat.pow_le_pow_right (by omega) hlen
  refine stoiHex_eq_some_iff.mpr ⟨⟨{
    blanks := []
    sign := .none
    mark := []
    digits := digits
    rest := []
    eq := (List.append_nil digits).symm
    allBlank := fun _ hb => absurd hb List.not_mem_nil
    mark_eq := .inl rfl
    digits_ne := hne
    allDigits := hall
    maximal := fun _ hb => by cases hb
    marked := fun _ _ _ _ _ hrest => by cases hrest }, rfl⟩, by omega, by omega⟩

end CdsGuard.Lib
