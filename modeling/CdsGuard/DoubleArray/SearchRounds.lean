import CdsGuard.DoubleArray.Search

/-
  The rounds of `search` on a valid text. Before each of them the search is at the start of a
  character, in the cell of the longest suffix of the characters read that is a node, and its
  ranges cover the bytes of the occurrences in these characters and no others (`ReadUpTo`). One
  round keeps this (`searchRound_spec`), so it holds after all of them, whatever arrays represent
  the automaton (`search_represents`).
-/

namespace CdsGuard.DoubleArray

open CdsGuard.Lib

/-! ## Occurrences -/

/-- A byte of the text is in an occurrence of a nonempty pattern, characters being compared by
    their codes. -/
def InOccurrence (ignoreCase : Bool) (ps : List (List Char)) (text : List Char) (i : Nat) : Prop :=
  ∃ before m after p, text = before ++ m ++ after ∧ p ∈ ps ∧ p ≠ [] ∧
    codesOf ignoreCase m = codesOf ignoreCase p ∧
    (utf8 before).length ≤ i ∧ i < (utf8 before).length + (utf8 m).length

/-- The number of bytes of the longest pattern that ends the path; 0 if none does. -/
structure LongestEnding (ignoreCase : Bool) (ps : List (List Char)) (v : Path) (size : Nat) :
    Prop where
  le : ∀ p ∈ ps, codesOf ignoreCase p <:+ v → (utf8 p).length ≤ size
  eq : size = 0 ∨ ∃ p ∈ ps, codesOf ignoreCase p <:+ v ∧ (utf8 p).length = size

section

variable {ignoreCase : Bool} {ps : List (List Char)}

theorem mem_wordsOf {w : Path} :
    w ∈ wordsOf ignoreCase ps ↔ ∃ p ∈ ps, codesOf ignoreCase p = w := by
  rw [wordsOf, List.mem_reverse, List.mem_map]

theorem codesOf_snoc (text : List Char) (c : Char) :
    codesOf ignoreCase (text ++ [c]) = codesOf ignoreCase text ++ [codeOf ignoreCase c] :=
  List.map_append ..

/-- Characters with the codes of a pattern have its number of bytes. -/
theorem length_of_codes_eq {p m : List Char} (hp : Supported ignoreCase p)
    (heq : codesOf ignoreCase m = codesOf ignoreCase p) : (utf8 m).length = (utf8 p).length := by
  have hm : Supported ignoreCase m := by
    intro c hc
    have hmem : codeOf ignoreCase c ∈ codesOf ignoreCase p := by
      rw [← heq]
      exact List.mem_map_of_mem hc
    obtain ⟨e, he, hce⟩ := List.mem_map.mp hmem
    rw [← hce]
    exact hp e he
  rw [utf8_length_eq_byteSize hm, utf8_length_eq_byteSize hp, heq]

/-- The longest pattern that ends a path ends the longest of its suffixes that are nodes. -/
theorem LongestEnding.of_longest {v : Path} {size : Nat}
    (h : LongestEnding ignoreCase ps (longest (IsNode (wordsOf ignoreCase ps)) v) size) :
    LongestEnding ignoreCase ps v size where
  le := by
    intro p hp hsuffix
    have hnode : IsNode (wordsOf ignoreCase ps) (codesOf ignoreCase p) :=
      isNode_of_mem (mem_wordsOf.mpr ⟨p, hp, rfl⟩)
    exact h.le p hp (suffix_longest hnode hsuffix)
  eq := by
    rcases h.eq with hzero | ⟨p, hp, hsuffix, hlen⟩
    · exact .inl hzero
    · exact .inr ⟨p, hp, hsuffix.trans (longest_suffix v), hlen⟩

section

variable {text : List Char} {size : Nat}

theorem LongestEnding.exists_match (h : LongestEnding ignoreCase ps (codesOf ignoreCase text) size)
    (hps : ∀ p ∈ ps, Supported ignoreCase p) :
    size = 0 ∨ ∃ before m p, text = before ++ m ∧ p ∈ ps ∧ p ≠ [] ∧
      codesOf ignoreCase m = codesOf ignoreCase p ∧ (utf8 m).length = size := by
  by_cases hzero : size = 0
  · exact .inl hzero
  · obtain ⟨p, hp, ⟨pre, hpre⟩, hlen⟩ := h.eq.resolve_left hzero
    obtain ⟨before, m, rfl, -, hm⟩ := List.map_eq_append_iff.mp hpre.symm
    refine .inr ⟨before, m, p, rfl, hp, ?_, hm, (length_of_codes_eq (hps p hp) hm).trans hlen⟩
    rintro rfl
    exact hzero hlen.symm

theorem LongestEnding.size_le (h : LongestEnding ignoreCase ps (codesOf ignoreCase text) size)
    (hps : ∀ p ∈ ps, Supported ignoreCase p) : size ≤ (utf8 text).length := by
  rcases h.exists_match hps with hzero | ⟨before, m, p, rfl, -, -, -, hlen⟩
  · omega
  · rw [← hlen, utf8_append, List.length_append]
    omega

/-- The longest pattern that ends the text has the bytes of all that do. -/
theorem LongestEnding.ending_iff (h : LongestEnding ignoreCase ps (codesOf ignoreCase text) size)
    (hps : ∀ p ∈ ps, Supported ignoreCase p) (i : Nat) :
    (∃ before m p, text = before ++ m ∧ p ∈ ps ∧ p ≠ [] ∧
      codesOf ignoreCase m = codesOf ignoreCase p ∧
      (utf8 before).length ≤ i ∧ i < (utf8 before).length + (utf8 m).length) ↔
    (utf8 text).length - size ≤ i ∧ i < (utf8 text).length := by
  constructor
  · rintro ⟨before, m, p, rfl, hp, -, hm, hlo, hhi⟩
    have hsuffix : codesOf ignoreCase p <:+ codesOf ignoreCase (before ++ m) := by
      rw [← hm]
      exact ⟨codesOf ignoreCase before, (List.map_append ..).symm⟩
    have hle := h.le p hp hsuffix
    rw [← length_of_codes_eq (hps p hp) hm] at hle
    rw [utf8_append, List.length_append] at *
    omega
  · rintro ⟨hlo, hhi⟩
    rcases h.exists_match hps with hzero | ⟨before, m, p, rfl, hp, hne, hm, hlen⟩
    · omega
    · refine ⟨before, m, p, rfl, hp, hne, hm, ?_⟩
      rw [utf8_append, List.length_append] at *
      omega

theorem not_inOccurrence_nil (i : Nat) : ¬InOccurrence ignoreCase ps [] i := by
  rintro ⟨before, m, after, p, htext, -, hne, hm, -⟩
  obtain ⟨hbm, -⟩ := List.append_eq_nil_iff.mp htext.symm
  obtain ⟨-, rfl⟩ := List.append_eq_nil_iff.mp hbm
  exact hne (List.map_eq_nil_iff.mp hm.symm)

/-- The occurrences in a longer text end before its last character or with it. -/
theorem LongestEnding.inOccurrence_snoc {c : Char}
    (h : LongestEnding ignoreCase ps (codesOf ignoreCase (text ++ [c])) size)
    (hps : ∀ p ∈ ps, Supported ignoreCase p) (i : Nat) :
    InOccurrence ignoreCase ps (text ++ [c]) i ↔ InOccurrence ignoreCase ps text i ∨
      (utf8 (text ++ [c])).length - size ≤ i ∧ i < (utf8 (text ++ [c])).length := by
  rw [← h.ending_iff hps]
  constructor
  · rintro ⟨before, m, after, p, htext, hrest⟩
    rcases List.eq_nil_or_concat' after with rfl | ⟨after, e, rfl⟩
    · rw [List.append_nil] at htext
      exact .inr ⟨before, m, p, htext, hrest⟩
    · rw [← List.append_assoc] at htext
      exact .inl ⟨before, m, after, p, (List.append_inj' htext rfl).1, hrest⟩
  · rintro (⟨before, m, after, p, rfl, hrest⟩ | ⟨before, m, p, htext, hrest⟩)
    · exact ⟨before, m, after ++ [c], p, by simp, hrest⟩
    · exact ⟨before, m, [], p, by rw [htext, List.append_nil], hrest⟩

end

/-! ## Sizes of 32 bits -/

/-- The bytes of a pattern fit in the 32 bits of its size. -/
structure Fit (ignoreCase : Bool) (ps : List (List Char)) : Prop where
  supported : ∀ p ∈ ps, Supported ignoreCase p
  size_lt : ∀ p ∈ ps, (utf8 p).length < 2 ^ 32

theorem Fit.patternSize_eq (h : Fit ignoreCase ps) {p : List Char} (hp : p ∈ ps) :
    patternSize (wordsOf ignoreCase ps) (codesOf ignoreCase p) = (utf8 p).length := by
  have hsize := utf8_length_eq_byteSize (h.supported p hp)
  rw [patternSize, if_pos (mem_wordsOf.mpr ⟨p, hp, rfl⟩), ← hsize, u32_of_lt (h.size_lt p hp)]

theorem Fit.longestEnding (h : Fit ignoreCase ps) (v : Path) :
    LongestEnding ignoreCase ps v (best (patternSize (wordsOf ignoreCase ps)) v) where
  le := by
    intro p hp hsuffix
    rw [← h.patternSize_eq hp]
    exact le_best _ hsuffix
  eq := by
    obtain ⟨u, hu, hbest⟩ := Lib.exists_best (patternSize (wordsOf ignoreCase ps)) v
    rw [hbest]
    by_cases hmem : u ∈ wordsOf ignoreCase ps
    · obtain ⟨p, hp, rfl⟩ := mem_wordsOf.mp hmem
      exact .inr ⟨p, hp, hu, (h.patternSize_eq hp).symm⟩
    · exact .inl (if_neg hmem)

end

/-! ## Rounds -/

/-- The variables of the loop, with the bytes from `search_ch_i` on as `rest`. -/
structure SearchState where
  rest : Bytes
  searchChI : Nat
  curr : Nat
  infos : List MatchedInfo

/-- One round of the loop; at the end of the text nothing more happens. -/
def searchRound (d : DoubleArrayTrie) (ignoreCase : Bool) (depth : Nat) (s : SearchState) :
    Option SearchState :=
  if s.rest.isEmpty then some s
  else
    match readChar s.rest with
    | .truncated => some { s with rest := s.rest.drop 1, searchChI := s.searchChI + 1 }
    | .bad => some { s with rest := s.rest.drop 1, searchChI := s.searchChI + 1 }
    | .char len ch =>
      match d.advance (charCode ignoreCase ch) depth s.curr with
      | none => none
      | some curr => some
        { rest := s.rest.drop len
          searchChI := s.searchChI + len
          curr
          infos := addMatch s.searchChI len (d.outputSizeVec curr) s.infos }

def searchRounds (d : DoubleArrayTrie) (ignoreCase : Bool) (depth : Nat) :
    Nat → SearchState → Option SearchState
  | 0, s => some s
  | n + 1, s => (searchRound d ignoreCase depth s).bind (searchRounds d ignoreCase depth n)

/-- The start of the loop. -/
def searchStart (text : Bytes) : SearchState := ⟨text, 0, kRootIndex, []⟩

section

variable {ignoreCase : Bool} {d : DoubleArrayTrie} {depth : Nat}

theorem searchRounds_end (n : Nat) {s : SearchState} (h : s.rest.isEmpty = true) :
    searchRounds d ignoreCase depth n s = some s := by
  induction n with
  | zero => rfl
  | succ n ih =>
    rw [searchRounds, searchRound, if_pos h]
    exact ih

theorem searchRounds_succ (n : Nat) (s : SearchState) :
    searchRounds d ignoreCase depth (n + 1) s =
      (searchRounds d ignoreCase depth n s).bind (searchRound d ignoreCase depth) := by
  induction n generalizing s with
  | zero =>
    cases h : searchRound d ignoreCase depth s <;> simp [searchRounds, h]
  | succ n ih =>
    rw [searchRounds]
    cases h : searchRound d ignoreCase depth s with
    | none => simp [searchRounds, h]
    | some s' =>
      rw [Option.bind_some, ih]
      simp [searchRounds, h]

/-- The loop is its rounds. -/
theorem searchLoop_eq_rounds (fuel : Nat) (s : SearchState) :
    searchLoop d ignoreCase depth fuel s.rest s.searchChI s.curr s.infos =
      (searchRounds d ignoreCase depth fuel s).map SearchState.infos := by
  induction fuel generalizing s with
  | zero => rfl
  | succ fuel ih =>
    by_cases hempty : s.rest.isEmpty = true
    · rw [searchRounds_end _ hempty, searchLoop, if_pos hempty]
      rfl
    · rw [searchRounds, searchRound, searchLoop, if_neg hempty, if_neg hempty]
      cases hread : readChar s.rest with
      | truncated => exact ih { s with rest := s.rest.drop 1, searchChI := s.searchChI + 1 }
      | bad => exact ih { s with rest := s.rest.drop 1, searchChI := s.searchChI + 1 }
      | char len ch =>
        dsimp only
        cases hnext : d.advance (charCode ignoreCase ch) depth s.curr with
        | none => rfl
        | some curr => exact ih ⟨s.rest.drop len, s.searchChI + len, curr, _⟩

theorem search_eq_rounds (text : Bytes) :
    search d ignoreCase text =
      (searchRounds d ignoreCase text.length text.length (searchStart text)).map
        SearchState.infos :=
  searchLoop_eq_rounds text.length (searchStart text)

end

/-! ## The invariant -/

/-- The search has read the first `k` characters of the text. -/
structure ReadUpTo (ignoreCase : Bool) (ps : List (List Char)) (datIndex : Path → Nat)
    (text : List Char) (k : Nat) (s : SearchState) : Prop where
  rest : s.rest = utf8 (text.drop k)
  searchChI : s.searchChI = (utf8 (text.take k)).length
  curr : s.curr =
    datIndex (longest (IsNode (wordsOf ignoreCase ps)) (codesOf ignoreCase (text.take k)))
  within : Within s.infos s.searchChI
  covers : ∀ i, Covers s.infos i ↔ InOccurrence ignoreCase ps (text.take k) i

/-- The arrays hold the automaton of the patterns, and at each node the size of the longest that
    ends there. -/
structure Matching (ignoreCase : Bool) (ps : List (List Char)) (d : DoubleArrayTrie)
    (datIndex : Path → Nat) : Prop extends Automaton (wordsOf ignoreCase ps) d datIndex where
  supported : ∀ p ∈ ps, Supported ignoreCase p
  output : ∀ v, IsNode (wordsOf ignoreCase ps) v →
    LongestEnding ignoreCase ps v (d.outputSizeVec (datIndex v))

section

variable {ignoreCase : Bool} {ps : List (List Char)} {d : DoubleArrayTrie} {datIndex : Path → Nat}
  {text : List Char}

theorem readUpTo_start (hd : Matching ignoreCase ps d datIndex) (text : List Char) :
    ReadUpTo ignoreCase ps datIndex text 0 (searchStart (utf8 text)) where
  rest := rfl
  searchChI := rfl
  curr := hd.root.symm
  within := fun m hm => absurd hm (by simp [searchStart])
  covers := fun i => iff_of_false (by simp [searchStart, Covers]) (not_inOccurrence_nil i)

/-- One round reads a character. -/
theorem searchRound_spec (hd : Matching ignoreCase ps d datIndex) {depth k : Nat}
    (hk : k < text.length) (hdepth : text.length ≤ depth) (htext : (utf8 text).length < 2 ^ 64)
    {s : SearchState} (h : ReadUpTo ignoreCase ps datIndex text k s) :
    ∃ s', searchRound d ignoreCase depth s = some s' ∧
      ReadUpTo ignoreCase ps datIndex text (k + 1) s' := by
  have hT := isNode_prefixClosed (wordsOf ignoreCase ps)
  obtain ⟨c, hc⟩ : ∃ c, c = text[k] := ⟨_, rfl⟩
  have hdrop : text.drop k = c :: text.drop (k + 1) := by
    rw [hc]
    exact List.drop_eq_getElem_cons hk
  have htake : text.take (k + 1) = text.take k ++ [c] := by
    rw [hc]
    exact List.take_succ_eq_append_getElem hk
  have hpos := c.utf8Size_pos
  have hlen : (utf8 (text.take (k + 1))).length = s.searchChI + c.utf8Size := by
    rw [htake, utf8_append, List.length_append, h.searchChI, utf8_cons_length]
    rfl
  have hbound : s.searchChI + c.utf8Size < 2 ^ 64 := by
    rw [← hlen]
    refine Nat.lt_of_le_of_lt ?_ htext
    conv_rhs => rw [← List.take_append_drop (k + 1) text]
    rw [utf8_append, List.length_append]
    exact Nat.le_add_right _ _
  -- the cell after the character, and the longest pattern that ends there
  have hshort : (longest (IsNode (wordsOf ignoreCase ps))
      (codesOf ignoreCase (text.take k))).length ≤ depth := by
    have hle := longest_length_le (T := IsNode (wordsOf ignoreCase ps))
      (codesOf ignoreCase (text.take k))
    have htaken : (codesOf ignoreCase (text.take k)).length ≤ text.length :=
      (List.length_map ..).trans_le (List.length_take_le' k text)
    omega
  have hnext := hd.advance_spec (charCode_le ignoreCase c.val.toNat) depth _
    (longest_mem hT (codesOf ignoreCase (text.take k))) hshort
  rw [← longest_snoc hT, ← h.curr, show charCode ignoreCase c.val.toNat = codeOf ignoreCase c
    from rfl, ← codesOf_snoc, ← htake] at hnext
  have hending := (hd.output _ (longest_mem hT (codesOf ignoreCase (text.take (k + 1))))).of_longest
  have hsize := hending.size_le hd.supported
  rw [hlen] at hsize
  obtain ⟨hwithin, hcovers⟩ := addMatch_spec h.within hpos hsize hbound
  have hnonempty : s.rest.isEmpty = false := by
    rw [h.rest, hdrop, List.isEmpty_eq_false_iff, ← List.length_pos_iff, utf8_cons_length]
    omega
  have hread : readChar s.rest = .char c.utf8Size c.val.toNat := by
    rw [h.rest, hdrop, utf8_cons, readChar_encode]
  let v := longest (IsNode (wordsOf ignoreCase ps)) (codesOf ignoreCase (text.take (k + 1)))
  have hround : searchRound d ignoreCase depth s = some
      { rest := s.rest.drop c.utf8Size
        searchChI := s.searchChI + c.utf8Size
        curr := datIndex v
        infos := addMatch s.searchChI c.utf8Size (d.outputSizeVec (datIndex v)) s.infos } := by
    rw [searchRound, hnonempty, if_neg (by simp), hread]
    simp only [show charCode ignoreCase c.val.toNat = codeOf ignoreCase c from rfl, hnext]
    rfl
  refine ⟨_, hround, { rest := ?_, searchChI := hlen.symm, curr := rfl, within := hwithin
                       covers := fun i => ?_ }⟩
  · rw [h.rest, hdrop, utf8_cons]
    exact List.drop_left' (String.length_utf8EncodeChar c)
  · have hsnoc := (htake ▸ hending).inOccurrence_snoc hd.supported i
    rw [← htake, hlen] at hsnoc
    rw [hsnoc, ← h.covers]
    exact hcovers i

/-- After `k` rounds, `k` characters are read. -/
theorem searchRounds_spec (hd : Matching ignoreCase ps d datIndex) {depth : Nat}
    (hdepth : text.length ≤ depth) (htext : (utf8 text).length < 2 ^ 64) (k : Nat)
    (hk : k ≤ text.length) :
    ∃ s, searchRounds d ignoreCase depth k (searchStart (utf8 text)) = some s ∧
      ReadUpTo ignoreCase ps datIndex text k s := by
  induction k with
  | zero => exact ⟨_, rfl, readUpTo_start hd text⟩
  | succ k ih =>
    obtain ⟨s, hrun, h⟩ := ih (Nat.le_of_succ_le hk)
    obtain ⟨s', hround, h'⟩ := searchRound_spec hd hk hdepth htext h
    refine ⟨s', ?_, h'⟩
    rw [searchRounds_succ, hrun]
    exact hround

/-- The search ends, and its ranges cover the bytes of all occurrences of patterns and no
    others. -/
theorem Matching.search_spec (hd : Matching ignoreCase ps d datIndex)
    (htext : (utf8 text).length < 2 ^ 64) :
    ∃ infos, search d ignoreCase (utf8 text) = some infos ∧
      ∀ i, Covers infos i ↔ InOccurrence ignoreCase ps text i := by
  obtain ⟨s, hrun, h⟩ := searchRounds_spec hd (length_le_utf8_length text) htext text.length
    (Nat.le_refl _)
  have hempty : s.rest.isEmpty = true := by
    rw [h.rest, List.drop_length]
    rfl
  -- the bytes that are more than the characters leave rounds in which nothing happens
  have hlast : ∀ n, searchRounds d ignoreCase (utf8 text).length (text.length + n)
      (searchStart (utf8 text)) = some s := by
    intro n
    induction n with
    | zero => exact hrun
    | succ n ih =>
      rw [← Nat.add_assoc, searchRounds_succ, ih, Option.bind_some, searchRound, if_pos hempty]
  have hfuel := hlast ((utf8 text).length - text.length)
  rw [Nat.add_sub_cancel' (length_le_utf8_length text)] at hfuel
  refine ⟨s.infos, ?_, fun i => ?_⟩
  · rw [search_eq_rounds, hfuel]
    rfl
  · rw [h.covers, List.take_length]

/-- Where the sizes of 32 bits are enough, the arrays of the automaton do. -/
theorem Fit.matching (h : Fit ignoreCase ps) (hd : Faithful (wordsOf ignoreCase ps) d datIndex) :
    Matching ignoreCase ps d datIndex where
  toAutomaton := hd.toAutomaton
  supported := h.supported
  output := by
    intro v hv
    rw [hd.output v hv]
    exact h.longestEnding v

/-- On a valid text the search ends, and its ranges cover the bytes of all occurrences of
    patterns and no others. -/
theorem search_spec (h : Fit ignoreCase ps) (hd : Faithful (wordsOf ignoreCase ps) d datIndex)
    (text : List Char) (hbound : (utf8 text).length < 2 ^ 64) :
    ∃ infos, search d ignoreCase (utf8 text) = some infos ∧
      ∀ i, Covers infos i ↔ InOccurrence ignoreCase ps text i :=
  (h.matching hd).search_spec hbound

/-! ## Any arrays -/

/-- The arrays represent the automaton of the patterns: each node has a cell of its own, the
    root's is 1 and names itself, that of another node names its parent, and no other cell is in
    use; links and sizes are those of the nodes. -/
structure Represents (ignoreCase : Bool) (ps : List (List Char)) (d : DoubleArrayTrie)
    (datIndex : Path → Nat) : Prop where
  root : datIndex [] = kRootIndex
  rootCheck : d.checkVec kRootIndex = 1
  bound : ∀ v, IsNode (wordsOf ignoreCase ps) v → 1 ≤ datIndex v ∧ datIndex v < d.elementCapacity
  injective : ∀ u v, IsNode (wordsOf ignoreCase ps) u → IsNode (wordsOf ignoreCase ps) v →
    datIndex u = datIndex v → u = v
  child : ∀ v c, IsNode (wordsOf ignoreCase ps) (v ++ [c]) →
    u32 (d.baseVec (datIndex v) + c) = datIndex (v ++ [c]) ∧
      d.checkVec (datIndex (v ++ [c])) = datIndex v
  unused : ∀ i, (∀ v, IsNode (wordsOf ignoreCase ps) v → datIndex v ≠ i) → d.checkVec i = 0
  fail : ∀ v, IsNode (wordsOf ignoreCase ps) v → v ≠ [] →
    d.failVec (datIndex v) = datIndex (failOf (IsNode (wordsOf ignoreCase ps)) v)
  output : ∀ v, IsNode (wordsOf ignoreCase ps) v →
    LongestEnding ignoreCase ps v (d.outputSizeVec (datIndex v))

theorem code_le_of_isNode {v : Path} {c : Nat} (h : IsNode (wordsOf ignoreCase ps) (v ++ [c])) :
    c ≤ kMaxValOfCharCode := by
  obtain ⟨w, hw, hpre⟩ := isNode_snoc_iff.mp h
  obtain ⟨p, -, rfl⟩ := mem_wordsOf.mp hw
  obtain ⟨e, -, rfl⟩ := List.mem_map.mp (hpre.subset (by simp) : c ∈ codesOf ignoreCase p)
  exact charCode_le ignoreCase e.val.toNat

theorem Represents.matching (h : Represents ignoreCase ps d datIndex)
    (hps : ∀ p ∈ ps, Supported ignoreCase p) : Matching ignoreCase ps d datIndex := by
  have hroot : IsNode (wordsOf ignoreCase ps) [] := .inl rfl
  refine { root := h.root, root_iff := fun v hv heq => ?_, bound := fun v hv => (h.bound v hv).2
           child := h.child, other := ?_, fail := h.fail, supported := hps, output := h.output }
  · exact h.injective v [] hv hroot (heq.trans h.root.symm)
  · intro v c hv hc hnode hcheck
    -- a cell that names a parent is that of a node
    have hused : ∃ u, IsNode (wordsOf ignoreCase ps) u ∧
        datIndex u = u32 (d.baseVec (datIndex v) + c) := by
      by_contra hnone
      have hzero := h.unused _ fun u hu heq => hnone ⟨u, hu, heq⟩
      have := (h.bound v hv).1
      omega
    obtain ⟨u, hu, hcell⟩ := hused
    rcases List.eq_nil_or_concat' u with rfl | ⟨w, e, rfl⟩
    · rw [h.root] at hcell
      refine ⟨h.injective v [] hv hroot ?_, hcell.symm⟩
      rw [← hcheck, ← hcell, h.rootCheck, h.root]
      rfl
    · obtain ⟨hchild, hparent⟩ := h.child w e hu
      rw [hcell, hcheck] at hparent
      obtain rfl := h.injective v w hv ((isNode_prefixClosed _).init w e hu) hparent
      have he := code_le_of_isNode hu
      have hce : c = e := by
        rw [hcell] at hchild
        unfold u32 kMaxValOfCharCode at *
        omega
      rw [hce] at hnode
      exact absurd hu hnode

/-- On arrays that represent the automaton the search of a valid text is, after each character, in
    the cell of the longest suffix of the codes read that is a node; it ends, and its ranges cover
    the bytes of all occurrences of patterns and no others. -/
theorem search_represents (hps : ∀ p ∈ ps, Supported ignoreCase p)
    (h : Represents ignoreCase ps d datIndex) (text : List Char)
    (htext : (utf8 text).length < 2 ^ 64) :
    (∀ k ≤ text.length,
      ∃ s, searchRounds d ignoreCase (utf8 text).length k (searchStart (utf8 text)) = some s ∧
        s.rest = utf8 (text.drop k) ∧ s.searchChI = (utf8 (text.take k)).length ∧
        s.curr = datIndex
          (longest (IsNode (wordsOf ignoreCase ps)) (codesOf ignoreCase (text.take k)))) ∧
    ∃ infos, search d ignoreCase (utf8 text) = some infos ∧
      ∀ i, Covers infos i ↔ InOccurrence ignoreCase ps text i := by
  have hd := h.matching hps
  refine ⟨fun k hk => ?_, hd.search_spec htext⟩
  obtain ⟨s, hrun, hs⟩ := searchRounds_spec hd (length_le_utf8_length text) htext k hk
  exact ⟨s, hrun, hs.rest, hs.searchChI, hs.curr⟩

end

/-- The arrays of the pattern "a", with a base below 0. -/
def letterArrays : DoubleArrayTrie where
  baseVec := fun i => if i = 1 then 2 ^ 32 - 95 else 0
  checkVec := fun i => if i = 1 ∨ i = 2 then 1 else 0
  failVec := fun i => if i = 2 then 1 else 0
  outputSizeVec := fun i => if i = 2 then 1 else 0
  chainQueue := []
  denseChainQueue := []
  blockUsedSizeVec := fun b => if b = 0 then 2 else 0
  blockFailCountVec := fun _ => 0
  mapSize := 12
  elementCapacity := 12288
  maxChainNodeIndex := 605

def letterIndex (v : Path) : Nat := if v = [] then 1 else 2

theorem isNode_letter_iff {v : Path} :
    IsNode (wordsOf true [['a']]) v ↔ v = [] ∨ v = [97] := by
  have hwords : wordsOf true [['a']] = [[97]] := by decide
  rw [hwords, IsNode]
  constructor
  · intro h
    rcases h with hnil | ⟨w, hw, hpre⟩
    · exact .inl hnil
    · rw [List.mem_singleton.mp hw] at hpre
      rcases List.prefix_cons_iff.mp hpre with hnil | ⟨t, ht, hpre⟩
      · exact .inl hnil
      · rw [List.prefix_nil.mp hpre] at ht
        exact .inr ht
  · intro h
    rcases h with hnil | hone
    · exact .inl hnil
    · exact .inr ⟨[97], by simp, by rw [hone]⟩

theorem letterArrays_represents : Represents true [['a']] letterArrays letterIndex where
  root := rfl
  rootCheck := rfl
  bound := by
    intro v hv
    rcases isNode_letter_iff.mp hv with rfl | rfl <;> decide
  injective := by
    intro u v hu hv
    rcases isNode_letter_iff.mp hu with rfl | rfl <;>
      rcases isNode_letter_iff.mp hv with rfl | rfl <;> decide
  child := by
    intro v c hv
    rcases isNode_letter_iff.mp hv with hnil | hone
    · exact absurd hnil (by simp)
    · obtain ⟨rfl, hc⟩ := List.append_inj' (hone.trans (List.nil_append [97]).symm) rfl
      obtain rfl : c = 97 := by simpa using hc
      decide
  unused := by
    intro i hi
    have h1 := hi [] (isNode_letter_iff.mpr (.inl rfl))
    have h2 := hi [97] (isNode_letter_iff.mpr (.inr rfl))
    refine if_neg fun h => ?_
    rcases h with rfl | rfl
    · exact h1 rfl
    · exact h2 rfl
  fail := by
    intro v hv hne
    rcases isNode_letter_iff.mp hv with rfl | rfl
    · exact absurd rfl hne
    · decide
  output := by
    intro v hv
    rcases isNode_letter_iff.mp hv with rfl | rfl
    · refine ⟨fun p hp h => ?_, .inl rfl⟩
      rw [List.mem_singleton.mp hp] at h
      exact absurd (List.suffix_nil.mp h) (by decide)
    · refine ⟨fun p hp _ => ?_, .inr ⟨['a'], by simp, by decide, by decide⟩⟩
      rw [List.mem_singleton.mp hp]
      decide

theorem search_represents_letter :
    (∀ k ≤ ['\u00e9', 'A', '가'].length,
      ∃ s, searchRounds letterArrays true (utf8 ['\u00e9', 'A', '가']).length k
          (searchStart (utf8 ['\u00e9', 'A', '가'])) = some s ∧
        s.rest = utf8 (['\u00e9', 'A', '가'].drop k) ∧
        s.searchChI = (utf8 (['\u00e9', 'A', '가'].take k)).length ∧
        s.curr = letterIndex (longest (IsNode (wordsOf true [['a']]))
          (codesOf true (['\u00e9', 'A', '가'].take k)))) ∧
    ∃ infos, search letterArrays true (utf8 ['\u00e9', 'A', '가']) = some infos ∧
      ∀ i, Covers infos i ↔ InOccurrence true [['a']] ['\u00e9', 'A', '가'] i :=
  search_represents (by decide) letterArrays_represents _ (by decide +kernel)

end CdsGuard.DoubleArray
