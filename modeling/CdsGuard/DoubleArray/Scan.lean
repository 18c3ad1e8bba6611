import CdsGuard.DoubleArray.Search

/-
  `search` on any bytes. The loop trusts the first byte of a character for its length, so what it
  reads is a list of characters that lie one behind the other (`readAll`), with gaps where a byte
  starts no character or a character does not fit in the text.

  Proved: a search in the arrays is a walk of the automaton over these characters
  (`search_eq_scan`). When no node has a size above the bytes of its codes, all ranges lie in the
  text and a byte is covered exactly if a pattern that ends at one of the characters reaches back
  to it (`search_bytes_spec`).
-/

namespace CdsGuard.DoubleArray

open CdsGuard.Lib DoubleArrayTrie

/-! ## Reading -/

/-- A character that the loops read: its first byte, its number of bytes and its code. -/
structure CharRead where
  start : Nat
  len : Nat
  code : Nat
  deriving DecidableEq

/-- The byte behind a character. -/
def CharRead.stop (c : CharRead) : Nat := c.start + c.len

/-- The characters that the loop of `search` reads from byte `pos` on. -/
def readFrom (ignoreCase : Bool) : Nat → Nat → Bytes → List CharRead
  | 0, _, _ => []
  | fuel + 1, pos, rest =>
    if rest.isEmpty then []
    else
      match readChar rest with
      | .truncated => readFrom ignoreCase fuel (pos + 1) (rest.drop 1)
      | .bad => readFrom ignoreCase fuel (pos + 1) (rest.drop 1)
      | .char len ch =>
        ⟨pos, len, charCode ignoreCase ch⟩ ::
          readFrom ignoreCase fuel (pos + len) (rest.drop len)

def readAll (ignoreCase : Bool) (text : Bytes) : List CharRead :=
  readFrom ignoreCase text.length 0 text

/-- The codes of characters. -/
def codesRead (cs : List CharRead) : Path := cs.map CharRead.code

theorem codesRead_cons (c : CharRead) (cs : List CharRead) :
    codesRead (c :: cs) = c.code :: codesRead cs :=
  rfl

theorem codesRead_append (cs ds : List CharRead) :
    codesRead (cs ++ ds) = codesRead cs ++ codesRead ds :=
  List.map_append ..

theorem decodeUtf8_2b_lt (b1 b2 : UInt8) : decodeUtf8_2b b1 b2 < 0x800 := by
  have h1 : (b1.toNat &&& 0b00011111) < 2 ^ 5 := Nat.and_lt_two_pow _ (by decide)
  have h2 : (b2.toNat &&& 0b00111111) < 2 ^ 6 := Nat.and_lt_two_pow _ (by decide)
  unfold decodeUtf8_2b
  rw [shift_or _ _ 6 h2]
  omega

/-- Below the jamo only characters of one byte have codes. -/
theorem codeSize_charCode {ignoreCase : Bool} {ch : Nat} (hch : ch < 0x1100)
    (h : charCode ignoreCase ch ≠ 0) : codeSize (charCode ignoreCase ch) = 1 := by
  rw [charCode_eq] at *
  unfold codeSize
  grind

/-- What a character that is read has: a byte at least, those that are left at most, and those
    that its code needs, even in a form longer than the shortest. -/
theorem readChar_char {rest : Bytes} {len ch : Nat} (h : readChar rest = .char len ch) :
    1 ≤ len ∧ len ≤ rest.length ∧ ∀ ignoreCase, charCode ignoreCase ch ≠ 0 →
      codeSize (charCode ignoreCase ch) ≤ len := by
  have hsize : ∀ code, codeSize code ≤ 3 := by
    intro code
    unfold codeSize
    split <;> omega
  unfold readChar at h
  dsimp only at h
  split at h
  · exact absurd h (by simp)
  · rename_i hfit
    split at h
    · rename_i b1 _ _
      injection h with hlen hch
      subst hlen hch
      have hb := b1.toNat_lt
      exact ⟨Nat.le_refl 1, by simp, fun _ hcode => (codeSize_charCode (by omega) hcode).le⟩
    · rename_i b1 b2 _ _
      injection h with hlen hch
      subst hlen hch
      have hb := decodeUtf8_2b_lt b1 b2
      refine ⟨by omega, by simp, fun _ hcode => ?_⟩
      rw [codeSize_charCode (by omega) hcode]
      omega
    · injection h with hlen hch
      subst hlen hch
      exact ⟨by omega, by simp, fun _ _ => hsize _⟩
    · injection h with hlen hch
      subst hlen hch
      exact ⟨by omega, by simp, fun _ _ => (hsize _).trans (by omega)⟩
    · exact absurd h (by simp)

/-- The characters lie one behind the other from one byte to another, each with the bytes that its
    code needs. -/
def Between (stop : Nat) : Nat → List CharRead → Prop
  | pos, [] => pos ≤ stop
  | pos, c :: cs => pos ≤ c.start ∧ 1 ≤ c.len ∧ (c.code ≠ 0 → codeSize c.code ≤ c.len) ∧
    Between stop c.stop cs

theorem Between.of_le {stop pos pos' : Nat} {cs : List CharRead} (h : Between stop pos' cs)
    (hle : pos ≤ pos') : Between stop pos cs := by
  cases cs with
  | nil => exact hle.trans h
  | cons c cs => exact ⟨hle.trans h.1, h.2⟩

theorem Between.le_stop {stop pos : Nat} {cs : List CharRead} (h : Between stop pos cs) :
    pos ≤ stop := by
  induction cs generalizing pos with
  | nil => exact h
  | cons c cs ih =>
    obtain ⟨hpos, -, -, hrest⟩ := h
    have hstop := ih hrest
    unfold CharRead.stop at hstop
    omega

/-- As many characters as bytes at most. -/
theorem Between.length_le {stop pos : Nat} {cs : List CharRead} (h : Between stop pos cs) :
    pos + cs.length ≤ stop := by
  induction cs generalizing pos with
  | nil => exact h
  | cons c cs ih =>
    obtain ⟨hpos, hlen, -, hrest⟩ := h
    have hstop := ih hrest
    unfold CharRead.stop at hstop
    rw [List.length_cons]
    omega

theorem readFrom_between (ignoreCase : Bool) (fuel pos : Nat) (rest : Bytes) :
    Between (pos + rest.length) pos (readFrom ignoreCase fuel pos rest) := by
  induction fuel generalizing pos rest with
  | zero => exact Nat.le_add_right pos rest.length
  | succ fuel ih =>
    rw [readFrom]
    split
    · exact Nat.le_add_right pos rest.length
    · rename_i hempty
      have hpos : 1 ≤ rest.length := by
        rw [Nat.succ_le_iff, List.length_pos_iff]
        simpa using hempty
      have hskip : Between (pos + rest.length) pos
          (readFrom ignoreCase fuel (pos + 1) (rest.drop 1)) := by
        have h := ih (pos + 1) (rest.drop 1)
        rw [List.length_drop, show pos + 1 + (rest.length - 1) = pos + rest.length by omega] at h
        exact h.of_le (Nat.le_succ pos)
      split
      · exact hskip
      · exact hskip
      · rename_i len ch hread
        obtain ⟨hlen, hle, hcode⟩ := readChar_char hread
        have h := ih (pos + len) (rest.drop len)
        have hend : pos + len + (rest.length - len) = pos + rest.length := by omega
        rw [List.length_drop, hend] at h
        exact ⟨Nat.le_refl pos, hlen, hcode ignoreCase, h⟩

/-- Every code that is read is the code of a character. -/
theorem exists_charCode {ignoreCase : Bool} {fuel pos : Nat} {rest : Bytes} {code : Nat}
    (h : code ∈ codesRead (readFrom ignoreCase fuel pos rest)) :
    ∃ ch, charCode ignoreCase ch = code := by
  induction fuel generalizing pos rest with
  | zero => exact absurd h (by simp [readFrom, codesRead])
  | succ fuel ih =>
    rw [readFrom] at h
    split at h
    · exact absurd h (by simp [codesRead])
    · split at h
      · exact ih h
      · exact ih h
      · rename_i len ch _
        rcases List.mem_cons.mp h with heq | hmem
        · exact ⟨ch, heq.symm⟩
        · exact ih hmem

/-! ## Valid texts -/

/-- The characters of a text from byte `pos` on. -/
def charsFrom (ignoreCase : Bool) : Nat → List Char → List CharRead
  | _, [] => []
  | pos, c :: cs =>
    ⟨pos, c.utf8Size, codeOf ignoreCase c⟩ :: charsFrom ignoreCase (pos + c.utf8Size) cs

theorem codesRead_charsFrom (ignoreCase : Bool) (pos : Nat) (cs : List Char) :
    codesRead (charsFrom ignoreCase pos cs) = codesOf ignoreCase cs := by
  induction cs generalizing pos with
  | nil => rfl
  | cons c cs ih =>
    rw [charsFrom, codesRead_cons, ih]
    rfl

theorem charsFrom_snoc (ignoreCase : Bool) (pos : Nat) (cs : List Char) (c : Char) :
    charsFrom ignoreCase pos (cs ++ [c]) = charsFrom ignoreCase pos cs ++
      [⟨pos + (utf8 cs).length, c.utf8Size, codeOf ignoreCase c⟩] := by
  induction cs generalizing pos with
  | nil => rfl
  | cons e cs ih =>
    rw [List.cons_append, charsFrom, ih, charsFrom, List.cons_append, utf8_cons_length,
      Nat.add_assoc]

/-- Characters in front are read as they are, whatever comes behind them. -/
theorem readFrom_utf8 (ignoreCase : Bool) (cs : List Char) (fuel pos : Nat) (rest : Bytes) :
    readFrom ignoreCase (cs.length + fuel) pos (utf8 cs ++ rest) =
      charsFrom ignoreCase pos cs ++ readFrom ignoreCase fuel (pos + (utf8 cs).length) rest := by
  induction cs generalizing pos with
  | nil => simp [charsFrom, utf8]
  | cons c cs ih =>
    have hpos := c.utf8Size_pos
    have hne : (utf8 (c :: cs) ++ rest).isEmpty = false := by
      rw [List.isEmpty_eq_false_iff, ← List.length_pos_iff, List.length_append, utf8_cons_length]
      omega
    have hdrop : (String.utf8EncodeChar c ++ (utf8 cs ++ rest)).drop c.utf8Size =
        utf8 cs ++ rest :=
      List.drop_left' (String.length_utf8EncodeChar c)
    rw [List.length_cons, show cs.length + 1 + fuel = cs.length + fuel + 1 by omega, readFrom, hne,
      if_neg (by simp), utf8_cons, List.append_assoc]
    simp only [readChar_encode]
    rw [hdrop, ih, charsFrom, List.cons_append, List.length_append, String.length_utf8EncodeChar,
      Nat.add_assoc]
    rfl

theorem readFrom_nil (ignoreCase : Bool) (fuel pos : Nat) :
    readFrom ignoreCase fuel pos [] = [] := by
  cases fuel <;> rfl

theorem readAll_utf8 (ignoreCase : Bool) (cs : List Char) :
    readAll ignoreCase (utf8 cs) = charsFrom ignoreCase 0 cs := by
  have hlen := length_le_utf8_length cs
  have h := readFrom_utf8 ignoreCase cs ((utf8 cs).length - cs.length) 0 []
  rw [List.append_nil, readFrom_nil, List.append_nil,
    show cs.length + ((utf8 cs).length - cs.length) = (utf8 cs).length by omega] at h
  exact h

/-! ## The walk of the automaton -/

/-- One round for a character, on nodes. -/
def scanStep (words : List Path) (size : Path → Nat) (s : Path × List MatchedInfo) (c : CharRead) :
    Path × List MatchedInfo :=
  let v := next (IsNode words) s.1 c.code
  (v, addMatch c.start c.len (size v) s.2)

/-- The ranges that are found in the characters, from the root. -/
def scan (words : List Path) (size : Path → Nat) (cs : List CharRead) : List MatchedInfo :=
  (cs.foldl (scanStep words size) ([], [])).2

section

variable {words : List Path} {d : DoubleArrayTrie} {datIndex : Path → Nat} {size : Path → Nat}

theorem next_length_le (words : List Path) (v : Path) (c : Nat) :
    (next (IsNode words) v c).length ≤ v.length + 1 := by
  have h := longest_length_le (T := IsNode words) (v ++ [c])
  rwa [List.length_append, List.length_singleton] at h

/-- The loop on cells is the walk on nodes. -/
theorem searchLoop_eq_scan (hd : Automaton words d datIndex)
    (hsize : ∀ v, IsNode words v → d.outputSizeVec (datIndex v) = size v) (ignoreCase : Bool)
    (depth fuel pos : Nat) (rest : Bytes) (v : Path) (infos : List MatchedInfo)
    (hv : IsNode words v) (hdepth : v.length + rest.length ≤ depth) :
    searchLoop d ignoreCase depth fuel rest pos (datIndex v) infos =
      some ((readFrom ignoreCase fuel pos rest).foldl (scanStep words size) (v, infos)).2 := by
  induction fuel generalizing pos rest v infos with
  | zero => rfl
  | succ fuel ih =>
    have hskip := ih (pos + 1) (rest.drop 1) v infos hv (by rw [List.length_drop]; omega)
    rw [searchLoop, readFrom]
    by_cases hempty : rest.isEmpty = true
    · rw [if_pos hempty, if_pos hempty]
      rfl
    · rw [if_neg hempty, if_neg hempty]
      cases hread : readChar rest with
      | truncated => exact hskip
      | bad => exact hskip
      | char len ch =>
        obtain ⟨hlen, hle, -⟩ := readChar_char hread
        have hnode : IsNode words (next (IsNode words) v (charCode ignoreCase ch)) :=
          longest_mem (isNode_prefixClosed words) _
        have hshort := next_length_le words v (charCode ignoreCase ch)
        dsimp only
        rw [hd.advance_spec (charCode_le ignoreCase ch) depth v hv (by omega)]
        dsimp only
        rw [hsize _ hnode]
        exact ih (pos + len) (rest.drop len) _ _ hnode (by rw [List.length_drop]; omega)

theorem search_eq_scan (hd : Automaton words d datIndex)
    (hsize : ∀ v, IsNode words v → d.outputSizeVec (datIndex v) = size v) (ignoreCase : Bool)
    (text : Bytes) :
    search d ignoreCase text = some (scan words size (readAll ignoreCase text)) := by
  have hnil : IsNode words [] := .inl rfl
  have h := searchLoop_eq_scan hd hsize ignoreCase text.length text.length 0 text [] [] hnil
    (by simp)
  rw [hd.root] at h
  exact h

/-! ## What the walk covers -/

theorem byteSize_append (u v : Path) : byteSize (u ++ v) = byteSize u + byteSize v := by
  unfold byteSize
  rw [List.map_append, List.sum_append]

theorem byteSize_le_of_suffix {u v : Path} (h : u <:+ v) : byteSize u ≤ byteSize v := by
  obtain ⟨p, rfl⟩ := h
  rw [byteSize_append]
  exact Nat.le_add_left _ _

/-- The bytes of the node after a character have all been read. -/
theorem byteSize_next_le (hwords : ∀ w ∈ words, Codes w) {v : Path} {pos : Nat} {c : CharRead}
    (hv : byteSize v ≤ pos) (hpos : pos ≤ c.start) (hcode : c.code ≠ 0 → codeSize c.code ≤ c.len) :
    byteSize (next (IsNode words) v c.code) ≤ c.stop := by
  have hnode : IsNode words (next (IsNode words) v c.code) :=
    longest_mem (isNode_prefixClosed words) _
  have hsuffix : next (IsNode words) v c.code <:+ v ++ [c.code] := longest_suffix _
  unfold CharRead.stop
  rcases List.eq_nil_or_concat' (next (IsNode words) v c.code) with hnil | ⟨u, b, hu⟩
  · rw [hnil]
    exact Nat.zero_le _
  · rw [hu] at hnode hsuffix ⊢
    obtain ⟨rfl, hsub⟩ := snoc_suffix_snoc_iff.mp hsuffix
    obtain ⟨w, hw, hpre⟩ := isNode_snoc_iff.mp hnode
    have hne : c.code ≠ 0 := Nat.pos_iff_ne_zero.mp (hwords w hw c.code (hpre.subset (by simp))).1
    have hle := byteSize_le_of_suffix hsub
    have hone : byteSize [c.code] = codeSize c.code := by simp [byteSize]
    have hlen := hcode hne
    rw [byteSize_append, hone]
    omega

/-- A place in a list is its head or a place in its tail. -/
theorem exists_split_cons {α : Type} {P : List α → α → Prop} {a : α} {xs : List α} :
    (∃ pre x post, a :: xs = pre ++ x :: post ∧ P pre x) ↔
      P [] a ∨ ∃ pre x post, xs = pre ++ x :: post ∧ P (a :: pre) x := by
  constructor
  · rintro ⟨pre, x, post, heq, h⟩
    cases pre with
    | nil =>
      obtain ⟨rfl, -⟩ := List.cons_eq_cons.mp heq
      exact .inl h
    | cons b pre =>
      obtain ⟨rfl, htail⟩ := List.cons_eq_cons.mp heq
      exact .inr ⟨pre, x, post, htail, h⟩
  · rintro (h | ⟨pre, x, post, rfl, h⟩)
    · exact ⟨[], a, xs, rfl, h⟩
    · exact ⟨a :: pre, x, post, rfl, h⟩

/-- The walk from a node, with the bytes of its codes read before `pos`. -/
theorem foldl_scanStep_spec (hwords : ∀ w ∈ words, Codes w)
    (hfit : ∀ v, IsNode words v → size v ≤ byteSize v) (stop : Nat) (hstop : stop < 2 ^ 64)
    (cs : List CharRead) (pos : Nat) (w : Path) (infos : List MatchedInfo)
    (hcs : Between stop pos cs) (hw : byteSize (longest (IsNode words) w) ≤ pos)
    (hinfos : Within infos pos) :
    Within (cs.foldl (scanStep words size) (longest (IsNode words) w, infos)).2 stop ∧
      ∀ i, Covers (cs.foldl (scanStep words size) (longest (IsNode words) w, infos)).2 i ↔
        Covers infos i ∨ ∃ pre c post, cs = pre ++ c :: post ∧
          (c.stop - size (longest (IsNode words) (w ++ codesRead (pre ++ [c]))) ≤ i ∧
            i < c.stop) := by
  have hT := isNode_prefixClosed words
  induction cs generalizing pos w infos with
  | nil => exact ⟨hinfos.mono hcs, fun i => by simp⟩
  | cons c cs ih =>
    obtain ⟨hpos, hlen, hcode, hrest⟩ := hcs
    have hnode : IsNode words (longest (IsNode words) (w ++ [c.code])) := longest_mem hT _
    have hbytes : byteSize (longest (IsNode words) (w ++ [c.code])) ≤ c.stop := by
      rw [longest_snoc hT]
      exact byteSize_next_le hwords hw hpos hcode
    have hsize := (hfit _ hnode).trans hbytes
    have hbound := hrest.le_stop
    have hstep : scanStep words size (longest (IsNode words) w, infos) c =
        (longest (IsNode words) (w ++ [c.code]), addMatch c.start c.len
          (size (longest (IsNode words) (w ++ [c.code]))) infos) := by
      rw [scanStep, ← longest_snoc hT]
    obtain ⟨hwithin, hcovers⟩ := addMatch_spec (hinfos.mono hpos) hlen hsize
      (hbound.trans_lt hstop)
    obtain ⟨hwithin', hcovers'⟩ := ih c.stop (w ++ [c.code]) _ hrest hbytes hwithin
    rw [List.foldl_cons, hstep]
    refine ⟨hwithin', fun i => ?_⟩
    rw [hcovers', hcovers, exists_split_cons, or_assoc]
    simp only [List.append_assoc, List.nil_append, List.cons_append,
      codesRead_cons]
    rfl

/-- The ranges that a search finds in any bytes. -/
theorem search_bytes_spec (hd : Automaton words d datIndex)
    (hsize : ∀ v, IsNode words v → d.outputSizeVec (datIndex v) = size v)
    (hwords : ∀ w ∈ words, Codes w) (hfit : ∀ v, IsNode words v → size v ≤ byteSize v)
    (ignoreCase : Bool) (text : Bytes) (htext : text.length < 2 ^ 64) :
    ∃ infos, search d ignoreCase text = some infos ∧ Within infos text.length ∧
      ∀ i, Covers infos i ↔ ∃ pre c post, readAll ignoreCase text = pre ++ c :: post ∧
        (c.stop - size (longest (IsNode words) (codesRead (pre ++ [c]))) ≤ i ∧ i < c.stop) := by
  have hbetween := readFrom_between ignoreCase text.length 0 text
  rw [Nat.zero_add] at hbetween
  have hnone : ∀ i, ¬Covers [] i := fun i => by simp [Covers]
  obtain ⟨hwithin, hcovers⟩ := foldl_scanStep_spec hwords hfit text.length htext
    (readAll ignoreCase text) 0 [] [] hbetween (Nat.zero_le _) (fun m hm => absurd hm (by simp))
  refine ⟨_, search_eq_scan hd hsize ignoreCase text, hwithin, fun i => ?_⟩
  exact (hcovers i).trans (or_iff_right (hnone i))

end

end CdsGuard.DoubleArray
