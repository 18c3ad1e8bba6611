import CdsGuard.Lib.Lines
import CdsGuard.Lib.Bytes
import Mathlib.Data.Nat.Digits.Lemmas

/-
  HTTP/1.1 messages as bytes: a head of lines, each with CRLF behind it and an empty one at the end,
  and a body, whose size the field `Content-Length` gives or which comes in chunks.

  A head is read back line by line (`readHead_head`), and its end is the first place where two CRLF
  stand behind each other (`le_of_headEnd`), whatever the body holds.
-/

namespace CdsGuard.Lib.Http

def cr : UInt8 := 0x0d
def lf : UInt8 := 0x0a
def crlf : Bytes := [cr, lf]

/-- The end of the last line and the empty line. -/
def headEnd : Bytes := crlf ++ crlf

structure IsLine (line : Bytes) : Prop where
  ne_nil : line ≠ []
  no_cr : cr ∉ line
  no_lf : lf ∉ line

def head (lines : List Bytes) : Bytes := lines.flatMap (fun line => line ++ crlf) ++ crlf

/-- The lines up to the empty one and what is behind it; `line` is what has been read of the line
    at hand. -/
def readHead (line : Bytes) : Bytes → Option (List Bytes × Bytes)
  | [] => none
  | [_] => none
  | b :: c :: rest =>
    if b = cr ∧ c = lf then
      if line = [] then some ([], rest)
      else (readHead [] rest).map (Prod.map (line :: ·) id)
    else readHead (line ++ [b]) (c :: rest)

theorem head_cons (line : Bytes) (lines : List Bytes) :
    head (line :: lines) = line ++ (crlf ++ head lines) := by
  simp only [head, List.flatMap_cons, List.append_assoc]

theorem readHead_line {l : Bytes} (h : cr ∉ l) (line rest : Bytes) :
    readHead line (l ++ (crlf ++ rest)) = readHead (line ++ l) (crlf ++ rest) := by
  induction l generalizing line with
  | nil => rw [List.append_nil, List.nil_append]
  | cons b l ih =>
    have hb : b ≠ cr := fun hb => h (hb ▸ List.mem_cons_self)
    have hl : cr ∉ l := fun hmem => h (List.mem_cons_of_mem b hmem)
    obtain ⟨c, rest', hrest⟩ : ∃ c rest', l ++ (crlf ++ rest) = c :: rest' := by
      cases l with
      | nil => exact ⟨_, _, rfl⟩
      | cons c l => exact ⟨_, _, rfl⟩
    rw [List.cons_append, hrest, readHead, if_neg (fun hbc => hb hbc.1), ← hrest, ih hl,
      List.append_assoc, List.singleton_append]

theorem readHead_head {lines : List Bytes} (h : ∀ l ∈ lines, IsLine l) (body : Bytes) :
    readHead [] (head lines ++ body) = some (lines, body) := by
  induction lines with
  | nil => rfl
  | cons l lines ih =>
    have hl := h l List.mem_cons_self
    have hread : ∀ rest, readHead l (crlf ++ rest) =
        (readHead [] rest).map (Prod.map (l :: ·) id) := by
      intro rest
      show (if cr = cr ∧ lf = lf then _ else _) = _
      rw [if_pos ⟨rfl, rfl⟩, if_neg hl.ne_nil]
      rfl
    rw [head_cons, List.append_assoc, List.append_assoc, readHead_line hl.no_cr, List.nil_append,
      hread, ih fun l' hl' => h l' (List.mem_cons_of_mem l hl')]
    rfl

/-- **The end of a head**: two CRLF stand behind each other nowhere before it. -/
theorem le_of_headEnd {lines : List Bytes} (h : ∀ l ∈ lines, IsLine l) {body : Bytes} {i : Nat}
    (hi : headEnd <+: (head lines ++ body).drop i) : (head lines).length ≤ i + 4 := by
  induction lines generalizing i with
  | nil => exact Nat.le_trans (by decide) (Nat.le_add_left 4 i)
  | cons l lines ih =>
    have hl := h l List.mem_cons_self
    have hlines : ∀ l' ∈ lines, IsLine l' := fun l' hl' => h l' (List.mem_cons_of_mem l hl')
    have hlen : (head (l :: lines)).length = l.length + 2 + (head lines).length := by
      rw [head_cons, List.length_append, List.length_append]
      exact (Nat.add_assoc _ _ _).symm
    have hstart : ((head (l :: lines) ++ body).drop i).head? = some cr := by
      obtain ⟨rest, hrest⟩ := hi
      rw [← hrest]
      rfl
    rw [head_cons, List.append_assoc, List.append_assoc] at hi
    rw [head_cons, List.append_assoc, List.append_assoc, List.head?_drop] at hstart
    rcases Nat.lt_trichotomy i l.length with hlt | heq | hgt
    · -- inside of the line there is no CR
      rw [List.getElem?_append_left hlt] at hstart
      exact absurd (List.mem_of_getElem? hstart) hl.no_cr
    · subst heq
      rw [List.drop_left] at hi
      cases lines with
      | nil =>
        rw [hlen]
        exact Nat.le_of_eq rfl
      | cons l' lines =>
        -- the next line does not begin with CR
        have hl' := hlines l' List.mem_cons_self
        obtain ⟨b, rest, rfl⟩ := List.exists_cons_of_ne_nil hl'.ne_nil
        have hb : cr = b := by
          rw [head_cons] at hi
          exact (List.cons_prefix_cons.mp ((List.prefix_append_right_inj crlf).mp hi)).1
        exact absurd (hb ▸ List.mem_cons_self) hl'.no_cr
    · obtain ⟨j, rfl⟩ : ∃ j, i = l.length + (j + 1) := ⟨i - l.length - 1, by omega⟩
      rw [← List.drop_drop, List.drop_left] at hi
      rw [List.getElem?_append_right (Nat.le_add_right _ _), Nat.add_sub_cancel_left] at hstart
      cases j with
      | zero => exact absurd (Option.some.inj hstart) (by decide)
      | succ j =>
        have := ih hlines (i := j) hi
        omega

/-- And there it stands. -/
theorem headEnd_prefix {lines : List Bytes} (hne : lines ≠ []) :
    ∃ bs, head lines = bs ++ headEnd := by
  induction lines with
  | nil => exact absurd rfl hne
  | cons l lines ih =>
    rw [head_cons]
    by_cases hlines : lines = []
    · subst hlines
      exact ⟨l, rfl⟩
    · obtain ⟨bs, hbs⟩ := ih hlines
      exact ⟨l ++ (crlf ++ bs), by rw [hbs]; simp only [List.append_assoc]⟩

/-! ## Fields -/

def colon : UInt8 := 0x3a

def lower (b : UInt8) : UInt8 := if 0x41 ≤ b ∧ b ≤ 0x5a then b + 0x20 else b

def isBlank (b : UInt8) : Bool := b == 0x20 || b == 0x09

def fieldName (line : Bytes) : Bytes := (line.takeWhile (· != colon)).map lower

def fieldValue (line : Bytes) : Bytes := trim isBlank ((line.dropWhile (· != colon)).drop 1)

/-- The value of the first line with this name, given in small letters. -/
def field (name : Bytes) (lines : List Bytes) : Option Bytes :=
  (lines.find? fun line => fieldName line == name).map fieldValue

/-- A number in decimal digits. -/
def decimal (bs : Bytes) : Option Nat :=
  let cs := bs.map fun b => Char.ofNat b.toNat
  if cs ≠ [] ∧ cs.all Char.isDigit then some (Nat.ofDigitChars 10 cs 0) else none

/-- The lines of a message and as many bytes behind them as `Content-Length` says. -/
def readMessage (stream : Bytes) : Option (List Bytes × Bytes) := do
  let msg ← readHead [] stream
  let length ← (field (utf8 "content-length".toList) msg.1.tail).bind decimal
  let body ← readN length msg.2
  return (msg.1, body.1)

theorem readMessage_head {lines : List Bytes} (h : ∀ l ∈ lines, IsLine l) {value body : Bytes}
    (hfield : field (utf8 "content-length".toList) lines.tail = some value)
    (hvalue : decimal value = some body.length) :
    readMessage (head lines ++ body) = some (lines, body) := by
  have hbody : readN body.length body = some (body, []) := by
    rw [readN, if_pos (Nat.le_refl _), List.take_length, List.drop_length]
  rw [readMessage, readHead_head h]
  simp only [Option.bind_eq_bind, Option.bind_some, hfield, hvalue, hbody, Option.pure_def]

theorem field_cons_of_ne {name line : Bytes} (h : fieldName line ≠ name) (lines : List Bytes) :
    field name (line :: lines) = field name lines := by
  rw [field, List.find?_cons_of_neg (by simpa using h)]
  rfl

theorem field_cons_self {name line : Bytes} (h : fieldName line = name) (lines : List Bytes) :
    field name (line :: lines) = some (fieldValue line) := by
  rw [field, List.find?_cons_of_pos (by simpa using h)]
  rfl

theorem takeWhile_name {name : Bytes} (h : colon ∉ name) (value : Bytes) :
    (name ++ colon :: value).takeWhile (· != colon) = name := by
  induction name with
  | nil => rfl
  | cons b name ih =>
    have hb : b ≠ colon := fun hb => h (hb ▸ List.mem_cons_self)
    rw [List.cons_append, List.takeWhile_cons_of_pos (by simpa using hb),
      ih fun hmem => h (List.mem_cons_of_mem b hmem)]

theorem fieldName_append (name : Bytes) (h : colon ∉ name) (value : Bytes) :
    fieldName (name ++ colon :: value) = name.map lower := by
  rw [fieldName, takeWhile_name h]

theorem fieldValue_append (name : Bytes) (h : colon ∉ name) (value : Bytes) :
    fieldValue (name ++ colon :: value) = trim isBlank value := by
  have hdrop : (name ++ colon :: value).dropWhile (· != colon) = colon :: value := by
    have hsplit := List.takeWhile_append_dropWhile (p := (· != colon)) (l := name ++ colon :: value)
    rw [takeWhile_name h] at hsplit
    exact List.append_cancel_left hsplit
  rw [fieldValue, hdrop]
  rfl

/-! ## Numbers -/

/-- The bytes of ASCII characters are the characters. -/
theorem chars_utf8 {cs : List Char} (h : ∀ c ∈ cs, c.toNat < 128) :
    (utf8 cs).map (fun b => Char.ofNat b.toNat) = cs := by
  induction cs with
  | nil => rfl
  | cons c cs ih =>
    have hc := h c List.mem_cons_self
    have hsize : c.utf8Size = 1 := Char.utf8Size_eq_one_iff.mpr (by
      rw [UInt32.le_iff_toNat_le]
      exact Nat.le_of_lt_succ hc)
    have hbyte : (c.val.toUInt8).toNat = c.toNat := by
      rw [UInt32.toNat_toUInt8]
      exact Nat.mod_eq_of_lt (Nat.lt_trans hc (by decide))
    rw [utf8_cons, String.utf8EncodeChar_eq_singleton hsize, List.singleton_append, List.map_cons,
      ih fun d hd => h d (List.mem_cons_of_mem c hd), hbyte, Char.ofNat_toNat]

theorem map_toString (n : Nat) :
    (utf8 (toString n).toList).map (fun b => Char.ofNat b.toNat) = Nat.toDigits 10 n := by
  show (utf8 n.repr.toList).map _ = _
  rw [Nat.toList_repr]
  refine chars_utf8 fun c hc => Nat.lt_of_le_of_lt ?_ (by decide : '9'.toNat < 128)
  exact (Char.isDigit_iff_toNat.mp (Nat.isDigit_of_mem_toDigits (by decide) (by decide) hc)).2

theorem decimal_toString (n : Nat) : decimal (utf8 (toString n).toList) = some n := by
  have hdigits : (Nat.toDigits 10 n).all Char.isDigit := List.all_eq_true.mpr fun c hc =>
    Nat.isDigit_of_mem_toDigits (by decide) (by decide) hc
  rw [decimal, map_toString, if_pos ⟨Nat.toDigits_ne_nil, hdigits⟩, Nat.ofDigitChars_ten_toDigits]

/-- A number is written in digits. -/
theorem mem_toString {n : Nat} {b : UInt8} (h : b ∈ utf8 (toString n).toList) :
    0x30 ≤ b ∧ b ≤ 0x39 := by
  have hmem : Char.ofNat b.toNat ∈ Nat.toDigits 10 n :=
    map_toString n ▸ List.mem_map_of_mem h
  have hdigit := Char.isDigit_iff_toNat.mp
    (Nat.isDigit_of_mem_toDigits (by decide) (by decide) hmem)
  have hchar : (Char.ofNat b.toNat).toNat = b.toNat := by
    rw [Char.ofNat, dif_pos (.inl (Nat.lt_trans b.toNat_lt (by decide)))]
    rfl
  rw [hchar] at hdigit
  exact ⟨UInt8.le_iff_toNat_le.mpr hdigit.1, UInt8.le_iff_toNat_le.mpr hdigit.2⟩

/-! ## Chunks -/

def hexDigit (d : Nat) : UInt8 := if d < 10 then UInt8.ofNat (0x30 + d) else UInt8.ofNat (0x57 + d)

/-- A number in hexadecimal digits. -/
def hex (n : Nat) : Bytes :=
  if n = 0 then [hexDigit 0] else (Nat.digits 16 n).reverse.map hexDigit

def chunk (data : Bytes) : Bytes := hex data.length ++ (crlf ++ (data ++ crlf))

/-- A body in chunks, the empty one at its end. -/
def chunked (datas : List Bytes) : Bytes := datas.flatMap chunk ++ chunk []

/-- A body in chunks begins with the digit of a size. -/
theorem chunked_head (datas : List Bytes) :
    ∃ d rest, d < 16 ∧ chunked datas = hexDigit d :: rest := by
  have hhex : ∀ n, ∃ d rest, d < 16 ∧ hex n = hexDigit d :: rest := by
    intro n
    unfold hex
    split
    · exact ⟨0, [], by decide, rfl⟩
    · next hn =>
      have hne : (Nat.digits 16 n).reverse ≠ [] := by
        rw [Ne, List.reverse_eq_nil_iff, Nat.digits_eq_nil_iff_eq_zero]
        exact hn
      obtain ⟨d, rest, hd⟩ := List.exists_cons_of_ne_nil hne
      refine ⟨d, rest.map hexDigit, ?_, by rw [hd, List.map_cons]⟩
      have hmem : d ∈ (Nat.digits 16 n).reverse := hd ▸ List.mem_cons_self
      exact Nat.digits_lt_base (by decide) (List.mem_reverse.mp hmem)
  have hchunk : ∀ data, ∃ d rest, d < 16 ∧ chunk data = hexDigit d :: rest := by
    intro data
    obtain ⟨d, rest, hd, hrest⟩ := hhex data.length
    exact ⟨d, _, hd, by rw [chunk, hrest, List.cons_append]⟩
  cases datas with
  | nil =>
    obtain ⟨d, rest, hd, hrest⟩ := hchunk []
    exact ⟨d, rest, hd, hrest⟩
  | cons data datas =>
    obtain ⟨d, rest, hd, hrest⟩ := hchunk data
    exact ⟨d, _, hd, by rw [chunked, List.flatMap_cons, hrest]; rfl⟩

end CdsGuard.Lib.Http
