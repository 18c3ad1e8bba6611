import CdsGuard.DoubleArray.Build
import CdsGuard.DoubleArray.Scan

/-
  A pattern behind bytes that are no text. `search` takes the length of a character from its first
  byte and does not look at the others, so a character that starts before the pattern can take
  bytes of it.

  Proved: which bytes let no pattern behind them be missed (`evasion_iff`): those that end where a
  character ends, as the first bytes count (`Aligned`). One lead byte in front of a pattern is
  enough to hide it (`leadByte_hides`).
-/

namespace CdsGuard.DoubleArray

open CdsGuard.Lib

/-! ## Where the loop comes to -/

/-- The loop comes to the end of the bytes when `n` more follow: a byte that starts no character,
    or one that does not fit in the text, is passed over, and no other character goes on behind
    the end. -/
def alignedLoop (n : Nat) : Nat → Bytes → Bool
  | _, [] => true
  | 0, _ :: _ => false
  | fuel + 1, b :: u =>
    let len := getUtf8CharLength b
    if len = 0 ∨ u.length + 1 + n < len then alignedLoop n fuel u
    else decide (len ≤ u.length + 1) && alignedLoop n fuel ((b :: u).drop len)

/-- Each round takes at least a byte. -/
def Aligned (n : Nat) (u : Bytes) : Prop := alignedLoop n u.length u = true

instance (n : Nat) (u : Bytes) : Decidable (Aligned n u) :=
  inferInstanceAs (Decidable (_ = _))

/-- With nothing behind them, no character goes on behind the end. -/
theorem aligned_zero (u : Bytes) : Aligned 0 u := by
  have key : ∀ fuel, ∀ u : Bytes, u.length ≤ fuel → alignedLoop 0 fuel u = true := by
    intro fuel
    induction fuel with
    | zero =>
      intro u hu
      obtain rfl := List.length_eq_zero_iff.mp (Nat.le_zero.mp hu)
      rfl
    | succ fuel ih =>
      intro u hu
      cases u with
      | nil => rfl
      | cons b u =>
        rw [List.length_cons] at hu
        rw [alignedLoop]
        split
        · exact ih u (by omega)
        · rename_i hfit
          obtain ⟨hpos, hfits⟩ := not_or.mp hfit
          rw [decide_eq_true (by omega), Bool.true_and]
          exact ih _ (by rw [List.length_drop, List.length_cons]; omega)
  exact key u.length u (Nat.le_refl _)

/-- A byte that starts no character, or one that does not fit. -/
theorem readChar_skip {b : UInt8} {rest : Bytes}
    (h : getUtf8CharLength b = 0 ∨ rest.length + 1 < getUtf8CharLength b) :
    readChar (b :: rest) = .truncated ∨ readChar (b :: rest) = .bad := by
  unfold readChar
  by_cases hfit : rest.length + 1 < getUtf8CharLength b
  · exact .inl (if_pos hfit)
  · have hzero : getUtf8CharLength ((b :: rest).headD 0) = 0 := h.resolve_right hfit
    refine .inr ((if_neg hfit).trans ?_)
    rw [hzero]
    rfl

theorem getUtf8CharLength_le (b : UInt8) : getUtf8CharLength b ≤ 4 := by
  unfold getUtf8CharLength
  split_ifs <;> omega

/-- A character that fits is read with the length that its first byte says. -/
theorem readChar_fit (b : UInt8) (rest : Bytes) (hpos : getUtf8CharLength b ≠ 0)
    (hfit : getUtf8CharLength b ≤ rest.length + 1) :
    ∃ ch, readChar (b :: rest) = .char (getUtf8CharLength b) ch := by
  have hle := getUtf8CharLength_le b
  have hhead : getUtf8CharLength ((b :: rest).headD 0) = getUtf8CharLength b := rfl
  unfold readChar
  dsimp only
  rw [hhead, if_neg (by rw [List.length_cons]; omega)]
  generalize getUtf8CharLength b = len at *
  match len, rest with
  | 1, _ => exact ⟨_, rfl⟩
  | 2, b2 :: _ => exact ⟨_, rfl⟩
  | 3, b2 :: b3 :: _ => exact ⟨_, rfl⟩
  | 4, b2 :: b3 :: b4 :: _ => exact ⟨_, rfl⟩

/-- One round over a byte that is passed over, and over a character that fits. -/
theorem readFrom_skip {ignoreCase : Bool} {fuel pos : Nat} {b : UInt8} {rest : Bytes}
    (h : getUtf8CharLength b = 0 ∨ rest.length + 1 < getUtf8CharLength b) :
    readFrom ignoreCase (fuel + 1) pos (b :: rest) = readFrom ignoreCase fuel (pos + 1) rest := by
  rw [readFrom, if_neg (by simp)]
  rcases readChar_skip h with hread | hread
  · rw [hread]
    rfl
  · rw [hread]
    rfl

theorem readFrom_fit {ignoreCase : Bool} {fuel pos len ch : Nat} {rest : Bytes}
    (hne : rest ≠ []) (hread : readChar rest = .char len ch) :
    readFrom ignoreCase (fuel + 1) pos rest = ⟨pos, len, charCode ignoreCase ch⟩ ::
      readFrom ignoreCase fuel (pos + len) (rest.drop len) := by
  rw [readFrom, if_neg (by simpa using hne), hread]

/-! ## Aligned bytes -/

/-- Behind aligned bytes the text is read from its first byte. -/
theorem readFrom_aligned (ignoreCase : Bool) (rest : Bytes) (fuel : Nat) (u : Bytes)
    (h : alignedLoop rest.length fuel u = true) (rounds pos : Nat)
    (hrounds : u.length + rest.length ≤ rounds) :
    ∃ cs rounds', rest.length ≤ rounds' ∧
      readFrom ignoreCase rounds pos (u ++ rest) =
        cs ++ readFrom ignoreCase rounds' (pos + u.length) rest := by
  induction fuel generalizing u rounds pos with
  | zero =>
    cases u with
    | nil => exact ⟨[], rounds, by simpa using hrounds, rfl⟩
    | cons b u => exact absurd h (by simp [alignedLoop])
  | succ fuel ih =>
    cases u with
    | nil => exact ⟨[], rounds, by simpa using hrounds, rfl⟩
    | cons b u =>
      rw [List.length_cons] at hrounds
      obtain ⟨rounds, rfl⟩ : ∃ k, rounds = k + 1 := ⟨rounds - 1, by omega⟩
      rw [alignedLoop] at h
      split at h
      · rename_i hskip
        obtain ⟨cs, rounds', hle, hread⟩ := ih u h rounds (pos + 1) (by omega)
        refine ⟨cs, rounds', hle, ?_⟩
        rw [List.cons_append, readFrom_skip (by rw [List.length_append]; omega), hread,
          List.length_cons, Nat.add_right_comm, Nat.add_assoc]
      · rename_i hfit
        obtain ⟨hpos, hfits⟩ := not_or.mp hfit
        obtain ⟨hlen, hrest⟩ := Bool.and_eq_true_iff.mp h
        have hlen := of_decide_eq_true hlen
        obtain ⟨ch, hch⟩ : ∃ ch, readChar (b :: u ++ rest) = .char (getUtf8CharLength b) ch :=
          readChar_fit b (u ++ rest) hpos (by rw [List.length_append]; omega)
        have hdrop : (b :: u ++ rest).drop (getUtf8CharLength b) =
            (b :: u).drop (getUtf8CharLength b) ++ rest :=
          List.drop_append_of_le_length hlen
        obtain ⟨cs, rounds', hle, hread⟩ := ih ((b :: u).drop (getUtf8CharLength b)) hrest rounds
          (pos + getUtf8CharLength b) (by rw [List.length_drop, List.length_cons]; omega)
        have hstop : pos + getUtf8CharLength b + ((b :: u).drop (getUtf8CharLength b)).length =
            pos + (b :: u).length := by
          rw [List.length_drop, List.length_cons]
          omega
        refine ⟨⟨pos, getUtf8CharLength b, charCode ignoreCase ch⟩ :: cs, rounds', hle, ?_⟩
        rw [readFrom_fit (by simp) hch, hdrop, hread, hstop, List.cons_append]

/-! ## Bytes that are not aligned -/

/-- Of the last byte of a character only six bits count. -/
theorem readChar_congr {b b' : UInt8} (hbits : b.toNat &&& 0b00111111 = b'.toNat &&& 0b00111111)
    (lead : UInt8) (u rest : Bytes) (hlen : u.length + 1 < getUtf8CharLength lead) :
    readChar (lead :: u ++ b :: rest) = readChar (lead :: u ++ b' :: rest) := by
  have hle := getUtf8CharLength_le lead
  unfold readChar
  simp only [List.cons_append, List.headD_cons, List.length_cons, List.length_append]
  generalize getUtf8CharLength lead = len at *
  split
  · rfl
  · match len, u, rest with
    | 2, [], _ => simp only [List.nil_append, decodeUtf8_2b, hbits]
    | 3, [], [] => rfl
    | 3, [], _ :: _ => simp only [List.nil_append, decodeUtf8_3b, hbits]
    | 3, [_], _ => simp only [List.cons_append, List.nil_append, decodeUtf8_3b, hbits]
    | 4, [], [] => rfl
    | 4, [], [_] => rfl
    | 4, [], _ :: _ :: _ => simp only [List.nil_append, decodeUtf8_4b, hbits]
    | 4, [_], [] => rfl
    | 4, [_], _ :: _ => simp only [List.cons_append, List.nil_append, decodeUtf8_4b, hbits]
    | 4, [_, _], _ => simp only [List.cons_append, List.nil_append, decodeUtf8_4b, hbits]

theorem Between.lt_stop_of_mem {stop pos : Nat} {cs : List CharRead} (h : Between stop pos cs)
    {c : CharRead} (hc : c ∈ cs) : pos < c.stop := by
  induction cs generalizing pos with
  | nil => exact absurd hc (by simp)
  | cons e cs ih =>
    obtain ⟨hpos, hlen, -, hrest⟩ := h
    have he : pos < e.stop := by
      unfold CharRead.stop
      omega
    rcases List.mem_cons.mp hc with rfl | hmem
    · exact he
    · exact he.trans (ih hrest hmem)

/-- Behind bytes that are not aligned, a character that ends with the first byte of the text has a
    code that does not tell bytes apart with the same six bits. -/
theorem readFrom_misaligned (ignoreCase : Bool) (rest : Bytes) (fuel : Nat) (u : Bytes)
    (h : alignedLoop (rest.length + 1) fuel u = false) (hfuel : u.length ≤ fuel) (rounds pos : Nat)
    (bits : Nat) :
    ∃ code, ∀ b : UInt8, b.toNat &&& 0b00111111 = bits →
      ∀ c ∈ readFrom ignoreCase rounds pos (u ++ b :: rest), c.stop = pos + u.length + 1 →
        c.code = code := by
  induction fuel generalizing u rounds pos with
  | zero =>
    obtain rfl := List.length_eq_zero_iff.mp (Nat.le_zero.mp hfuel)
    exact absurd h (by simp [alignedLoop])
  | succ fuel ih =>
    cases u with
    | nil => exact absurd h (by simp [alignedLoop])
    | cons lead u =>
      cases rounds with
      | zero => exact ⟨0, fun b _ c hc => absurd hc (by simp [readFrom])⟩
      | succ rounds =>
        rw [List.length_cons] at hfuel
        rw [alignedLoop] at h
        split at h
        · rename_i hskip
          obtain ⟨code, hcode⟩ := ih u h (by omega) rounds (pos + 1)
          refine ⟨code, fun b hb c hc hstop => hcode b hb c ?_ ?_⟩
          · rwa [List.cons_append, readFrom_skip (by
              rw [List.length_append, List.length_cons]; omega)] at hc
          · rw [hstop, List.length_cons]
            omega
        · rename_i hfit
          obtain ⟨hpos, hfits⟩ := not_or.mp hfit
          have hread : ∀ b : UInt8, ∃ ch,
              readChar (lead :: u ++ b :: rest) = .char (getUtf8CharLength lead) ch := fun b =>
            readChar_fit lead (u ++ b :: rest) hpos
              (by rw [List.length_append, List.length_cons]; omega)
          by_cases hlen : getUtf8CharLength lead ≤ u.length + 1
          · -- the character ends in the bytes, and what follows it is not aligned
            have hrest : alignedLoop (rest.length + 1) fuel
                ((lead :: u).drop (getUtf8CharLength lead)) = false := by
              rwa [decide_eq_true hlen, Bool.true_and] at h
            have hdrop : ∀ b : UInt8, (lead :: u ++ b :: rest).drop (getUtf8CharLength lead) =
                (lead :: u).drop (getUtf8CharLength lead) ++ b :: rest := fun b =>
              List.drop_append_of_le_length hlen
            obtain ⟨code, hcode⟩ := ih _ hrest
              (by rw [List.length_drop, List.length_cons]; omega) rounds
              (pos + getUtf8CharLength lead)
            refine ⟨code, fun b hb c hc hstop => ?_⟩
            obtain ⟨ch, hch⟩ := hread b
            rw [readFrom_fit (by simp) hch, hdrop] at hc
            rw [List.length_cons] at hstop
            rcases List.mem_cons.mp hc with rfl | hmem
            · unfold CharRead.stop at hstop
              dsimp only at hstop
              omega
            · refine hcode b hb c hmem ?_
              rw [hstop, List.length_drop, List.length_cons]
              omega
          · -- the character takes the first byte of the text
            by_cases hbits : ∃ b₀ : UInt8, b₀.toNat &&& 0b00111111 = bits
            · obtain ⟨b₀, hb₀⟩ := hbits
              obtain ⟨ch, hch⟩ := hread b₀
              refine ⟨charCode ignoreCase ch, fun b hb c hc hstop => ?_⟩
              have hsame := readChar_congr (hb.trans hb₀.symm) lead u rest (by omega)
              rw [readFrom_fit (by simp) (hsame.trans hch)] at hc
              rcases List.mem_cons.mp hc with rfl | hmem
              · rfl
              · have hlt := (readFrom_between ignoreCase rounds _ _).lt_stop_of_mem hmem
                rw [List.length_cons] at hstop
                omega
            · exact ⟨0, fun b hb => absurd ⟨b, hb⟩ hbits⟩

/-! ## Coverage -/

section

variable {ignoreCase : Bool} {ps : List (List Char)} {d : DoubleArrayTrie} {datIndex : Path → Nat}

theorem best_patternSize_le (words : List Path) (v : Path) :
    best (patternSize words) v ≤ byteSize v := by
  obtain ⟨x, hx, hbest⟩ := exists_best (patternSize words) v
  have hown : patternSize words x ≤ byteSize x := by
    unfold patternSize
    split
    · exact Nat.mod_le _ _
    · exact Nat.zero_le _
  rw [hbest]
  exact hown.trans (byteSize_le_of_suffix hx)

/-- A search covers a byte exactly if a pattern with its codes ends behind it at a character, as
    the loop reads the text, and reaches back to it. -/
theorem Faithful.search_covers (hd : Faithful (wordsOf ignoreCase ps) d datIndex)
    (hps : ∀ p ∈ ps, Supported ignoreCase p) (text : Bytes) (htext : text.length < 2 ^ 64) :
    ∃ infos, search d ignoreCase text = some infos ∧
      ∀ i, Covers infos i ↔ ∃ pre c post, readAll ignoreCase text = pre ++ c :: post ∧
        (c.stop - best (patternSize (wordsOf ignoreCase ps)) (codesRead (pre ++ [c])) ≤ i ∧
          i < c.stop) := by
  obtain ⟨infos, hsearch, -, hcovers⟩ := search_bytes_spec hd.toAutomaton hd.output
    (wordsOf_codes hps) (fun v _ => best_patternSize_le _ v) ignoreCase text htext
  refine ⟨infos, hsearch, fun i => ?_⟩
  rw [hcovers]
  simp only [best_longest fun w => isNode_of_patternSize w]

/-- Behind aligned bytes a pattern is read as its characters. -/
theorem readAll_aligned (ignoreCase : Bool) (u : Bytes) (p : List Char) (v : Bytes)
    (h : Aligned ((utf8 p).length + v.length) u) :
    ∃ cs rest, readAll ignoreCase (u ++ utf8 p ++ v) =
      cs ++ charsFrom ignoreCase u.length p ++ rest := by
  have hlen := length_le_utf8_length p
  have htotal : (u ++ (utf8 p ++ v)).length = u.length + (utf8 p ++ v).length := List.length_append
  unfold Aligned at h
  rw [← List.length_append] at h
  obtain ⟨cs, rounds, hrounds, hread⟩ := readFrom_aligned ignoreCase (utf8 p ++ v) u.length u h
    (u ++ (utf8 p ++ v)).length 0 htotal.ge
  rw [List.length_append] at hrounds
  obtain ⟨rounds, rfl⟩ : ∃ k, rounds = p.length + k := ⟨rounds - p.length, by omega⟩
  rw [readFrom_utf8, Nat.zero_add, ← List.append_assoc] at hread
  refine ⟨cs, readFrom ignoreCase rounds (u.length + (utf8 p).length) v, ?_⟩
  rw [readAll, List.append_assoc cs]
  exact hread

/-- A pattern behind aligned bytes is covered. -/
theorem covers_of_aligned (h : Fit ignoreCase ps)
    (hd : Faithful (wordsOf ignoreCase ps) d datIndex) {u : Bytes} {p : List Char} (hp : p ∈ ps)
    (hne : p ≠ []) (v : Bytes) (htext : (u ++ utf8 p ++ v).length < 2 ^ 64)
    (haligned : Aligned ((utf8 p).length + v.length) u) :
    ∃ infos, search d ignoreCase (u ++ utf8 p ++ v) = some infos ∧
      ∀ i, u.length ≤ i → i < u.length + (utf8 p).length → Covers infos i := by
  obtain ⟨infos, hsearch, hcovers⟩ := hd.search_covers h.supported _ htext
  obtain ⟨cs, rest, hread⟩ := readAll_aligned ignoreCase u p v haligned
  have hsize := h.patternSize_eq hp
  obtain ⟨init, c, rfl⟩ := (List.eq_nil_or_concat' p).resolve_left hne
  have hlen : (utf8 (init ++ [c])).length = (utf8 init).length + c.utf8Size := by
    rw [utf8_append, List.length_append, utf8_cons_length]
    rfl
  -- the last character of the pattern ends where the pattern does
  rw [charsFrom_snoc, ← List.append_assoc, List.append_assoc _ [_] rest,
    List.singleton_append] at hread
  refine ⟨infos, hsearch, fun i hlo hhi => (hcovers i).mpr ⟨_, _, _, hread, ?_, ?_⟩⟩
  · have hsuffix : codesOf ignoreCase (init ++ [c]) <:+
        codesRead (cs ++ charsFrom ignoreCase u.length init ++
          [⟨u.length + (utf8 init).length, c.utf8Size, codeOf ignoreCase c⟩]) := by
      rw [List.append_assoc, ← charsFrom_snoc, codesRead_append, codesRead_charsFrom]
      exact List.suffix_append _ _
    have hle := le_best (patternSize (wordsOf ignoreCase ps)) hsuffix
    rw [hsize] at hle
    unfold CharRead.stop
    dsimp only
    omega
  · unfold CharRead.stop
    dsimp only
    omega

end

/-! ## Every pattern behind given bytes -/

/-- A trie of one character of ASCII. -/
theorem exists_faithful_char {x : Char} (hx : x = '!' ∨ x = 'a') :
    ∃ d datIndex, Faithful (wordsOf false [[x]]) d datIndex := by
  rcases hx with rfl | rfl
  · obtain ⟨d, datIndex, -, hd⟩ := construct_spec insertionOrder false [['!']] (by decide) 40
      (by decide) (by decide +kernel)
    exact ⟨d, datIndex, hd⟩
  · obtain ⟨d, datIndex, -, hd⟩ := construct_spec insertionOrder false [['a']] (by decide) 40
      (by decide) (by decide +kernel)
    exact ⟨d, datIndex, hd⟩

/-- A pattern of one byte ends where its character ends. -/
theorem ends_of_best_char {x : Char} (hx : x = '!' ∨ x = 'a') {cs : List CharRead} {c : CharRead}
    {i : Nat} (hlo : c.stop - best (patternSize (wordsOf false [[x]])) (codesRead (cs ++ [c])) ≤ i)
    (hhi : i < c.stop) : c.stop = i + 1 ∧ c.code = codeOf false x := by
  obtain ⟨y, hy, hbest⟩ := exists_best (patternSize (wordsOf false [[x]])) (codesRead (cs ++ [c]))
  rw [hbest] at hlo
  have hpos : patternSize (wordsOf false [[x]]) y ≠ 0 := by omega
  have hmem : y ∈ wordsOf false [[x]] := by
    by_contra hnot
    exact hpos (if_neg hnot)
  obtain rfl : y = [codeOf false x] := by simpa [wordsOf, codesOf] using hmem
  have hone : patternSize (wordsOf false [[x]]) [codeOf false x] = 1 := by
    rcases hx with rfl | rfl
    · decide
    · decide
  rw [codesRead_append] at hy
  obtain ⟨hcode, -⟩ := snoc_suffix_snoc_iff.mp (show [] ++ [codeOf false x] <:+
    codesRead cs ++ [c.code] from hy)
  exact ⟨by omega, hcode.symm⟩

/-- No pattern behind `u` is missed, whatever follows it up to `n` bytes, exactly if `u` is
    aligned. -/
theorem evasion_iff (u : Bytes) (n : Nat) (hbound : u.length + n < 2 ^ 64) :
    (∀ ignoreCase ps d datIndex, Fit ignoreCase ps →
      Faithful (wordsOf ignoreCase ps) d datIndex →
      ∀ p ∈ ps, p ≠ [] → ∀ v : Bytes, (utf8 p).length + v.length = n →
        ∃ infos, search d ignoreCase (u ++ utf8 p ++ v) = some infos ∧
          ∀ i, u.length ≤ i → i < u.length + (utf8 p).length → Covers infos i) ↔
    Aligned n u := by
  constructor
  · intro h
    by_contra hnot
    have hfalse : alignedLoop n u.length u = false := by simpa [Aligned] using hnot
    cases n with
    | zero => exact hnot (aligned_zero u)
    | succ n =>
      -- a character takes the byte behind `u`; one of two patterns has another code
      obtain ⟨code, hcode⟩ := readFrom_misaligned false (List.replicate n 0) u.length u
        (by rwa [List.length_replicate]) (Nat.le_refl _) (u.length + (n + 1)) 0 0b00100001
      obtain ⟨x, hx, hne⟩ : ∃ x, (x = '!' ∨ x = 'a') ∧ codeOf false x ≠ code := by
        by_cases hc : codeOf false '!' = code
        · exact ⟨'a', .inr rfl, fun heq => absurd (heq.trans hc.symm) (by decide)⟩
        · exact ⟨'!', .inl rfl, hc⟩
      obtain ⟨b, hb, hbits⟩ : ∃ b : UInt8,
          utf8 [x] = [b] ∧ b.toNat &&& 0b00111111 = 0b00100001 := by
        rcases hx with rfl | rfl
        · exact ⟨0x21, by decide, by decide⟩
        · exact ⟨0x61, by decide, by decide⟩
      have hfit : Fit false [[x]] := by
        rcases hx with rfl | rfl
        · exact ⟨by decide, by decide⟩
        · exact ⟨by decide, by decide⟩
      obtain ⟨d, datIndex, hd⟩ := exists_faithful_char hx
      obtain ⟨infos, hsearch, hall⟩ := h false [[x]] d datIndex hfit hd [x]
        List.mem_cons_self (by simp) (List.replicate n 0) (by
          rw [hb, List.length_singleton, List.length_replicate]
          omega)
      have hlen : (u ++ utf8 [x] ++ List.replicate n 0).length = u.length + (n + 1) := by
        rw [hb, List.append_assoc, List.length_append, List.singleton_append, List.length_cons,
          List.length_replicate]
      obtain ⟨infos', hsearch', hcovers⟩ := hd.search_covers hfit.supported
        (u ++ utf8 [x] ++ List.replicate n 0) (by rw [hlen]; exact hbound)
      obtain rfl := Option.some.inj (hsearch.symm.trans hsearch')
      obtain ⟨pre, c, post, hread, hlo, hhi⟩ := (hcovers u.length).mp
        (hall u.length (Nat.le_refl _) (by rw [hb, List.length_singleton]; omega))
      obtain ⟨hstop, hchar⟩ := ends_of_best_char hx hlo hhi
      rw [readAll, hlen, hb, List.append_assoc, List.singleton_append] at hread
      refine hne (hchar.symm.trans (hcode b hbits c ?_ (by omega)))
      rw [hread]
      simp
  · intro haligned ignoreCase ps d datIndex hfit hd p hp hne v hn
    subst hn
    refine covers_of_aligned hfit hd hp hne v ?_ haligned
    rw [List.append_assoc, List.length_append, List.length_append]
    exact hbound

theorem evasion_iff_bytes :
    (∀ ignoreCase ps d datIndex, Fit ignoreCase ps →
      Faithful (wordsOf ignoreCase ps) d datIndex →
      ∀ p ∈ ps, p ≠ [] → ∀ v : Bytes, (utf8 p).length + v.length = 5 →
        ∃ infos, search d ignoreCase ([0x80, 0xc3, 0xa9, 0xf0] ++ utf8 p ++ v) = some infos ∧
          ∀ i, 4 ≤ i → i < 4 + (utf8 p).length → Covers infos i) ↔
    Aligned 5 [0x80, 0xc3, 0xa9, 0xf0] :=
  evasion_iff [0x80, 0xc3, 0xa9, 0xf0] 5 (by decide)

/-- A lead byte in front of `abc` takes its first letter. -/
theorem leadByte_hides :
    ∃ d datIndex, Faithful (wordsOf false [['a', 'b', 'c']]) d datIndex ∧
      search d false ([0xc3] ++ utf8 ['a', 'b', 'c'] ++ []) = some [] := by
  obtain ⟨d, datIndex, hbuild, hd⟩ := construct_spec insertionOrder false [['a', 'b', 'c']]
    (by decide) 40 (by decide) (by decide +kernel)
  have hrun :
      (match construct insertionOrder 40 false ([['a', 'b', 'c']].map utf8) with
      | .ok d => search d false ([0xc3] ++ utf8 ['a', 'b', 'c'] ++ [])
      | .error _ => none) = some [] := by
    decide +kernel
  rw [hbuild] at hrun
  exact ⟨d, datIndex, hd, hrun⟩

end CdsGuard.DoubleArray
