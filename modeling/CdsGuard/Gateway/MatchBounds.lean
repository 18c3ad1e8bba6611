import CdsGuard.DoubleArray.BytePatterns
import CdsGuard.Gateway.DocumentFilter

/-
  The ranges that `search` gives to `censor`, for patterns and texts of any bytes. The start of a
  range is where its last character ends less the stored size of the pattern, in `size_t`: a size
  above the bytes that were read for the codes takes it below 0.

  Proved: for which patterns all ranges lie in the text, whatever the text is
  (`matches_inside_iff`), and that a stray byte in a pattern is enough for one that does not
  (`strayByte_outside`).
-/

namespace CdsGuard.Gateway

open CdsGuard.Lib CdsGuard.DoubleArray

/-! ## Writing -/

/-- The indices at which `censor` writes, in their order; `index + i` is a `size_t`. -/
def censorWrites (infos : List MatchedInfo) : List Nat :=
  infos.flatMap fun m => (List.range m.size).map fun i => u64 (m.index + i)

/-- The ranges are not empty and lie in the text, so that `censor` writes nowhere else and keeps
    the length. -/
structure MatchesInside (text : Bytes) (infos : List MatchedInfo) : Prop where
  within : Within infos text.length
  writes : ∀ i ∈ censorWrites infos, i < text.length
  length_eq : (censor text infos).length = text.length

theorem writes_length (f : Nat → Nat) (is : List Nat) (data : Bytes) :
    (is.foldl (fun d i => d.set (f i) 0x2a) data).length = data.length := by
  induction is generalizing data with
  | nil => rfl
  | cons i is ih => rw [List.foldl_cons, ih, List.length_set]

theorem censor_length (data : Bytes) (infos : List MatchedInfo) :
    (censor data infos).length = data.length := by
  unfold censor
  induction infos generalizing data with
  | nil => rfl
  | cons m infos ih => rw [List.foldl_cons, ih, writes_length]

theorem matchesInside_of_within {text : Bytes} {infos : List MatchedInfo}
    (h : Within infos text.length) (htext : text.length < 2 ^ 64) : MatchesInside text infos := by
  refine ⟨h, fun i hi => ?_, censor_length text infos⟩
  obtain ⟨m, hm, hi⟩ := List.mem_flatMap.mp hi
  obtain ⟨k, hk, rfl⟩ := List.mem_map.mp hi
  have hk := List.mem_range.mp hk
  have hm := (h m hm).2
  rw [u64_of_lt (by omega)]
  omega

/-! ## A size above the bytes read -/

/-- A match that is longer than what has been read is put before the start of the text. -/
theorem addMatch_overlong {searchChI len size : Nat} (hsize : searchChI + len < size)
    (infos : List MatchedInfo) :
    ∃ m ∈ addMatch searchChI len size infos, searchChI + len < m.index + m.size := by
  have hstart : searchChI + len < sizeSub (searchChI + (len - 1)) (size - 1) + size := by
    omega
  refine ⟨⟨sizeSub (searchChI + (len - 1)) (size - 1), size⟩, ?_, hstart⟩
  unfold addMatch
  rw [if_neg (by omega)]
  dsimp only
  split
  · simp
  · split <;> simp

/-- The node that a walk ends in. -/
theorem foldl_scanStep_fst (words : List Path) (size : Path → Nat) (cs : List CharRead) (w : Path)
    (infos : List MatchedInfo) :
    (cs.foldl (scanStep words size) (longest (IsNode words) w, infos)).1 =
      longest (IsNode words) (w ++ codesRead cs) := by
  induction cs generalizing w infos with
  | nil => simp [codesRead]
  | cons c cs ih =>
    have hstep : scanStep words size (longest (IsNode words) w, infos) c =
        (longest (IsNode words) (w ++ [c.code]), addMatch c.start c.len
          (size (longest (IsNode words) (w ++ [c.code]))) infos) := by
      rw [scanStep, ← longest_snoc (isNode_prefixClosed words)]
    rw [List.foldl_cons, hstep, ih, codesRead_cons, List.append_assoc, List.singleton_append]

/-- The text of a node with a size above its bytes leads to a range that is not in the text. -/
theorem scan_overlong {ignoreCase : Bool} {words : List Path} (size : Path → Nat) {cs : List Char}
    (hne : cs ≠ []) (hnode : IsNode words (codesOf ignoreCase cs))
    (hsize : (utf8 cs).length < size (codesOf ignoreCase cs)) :
    ∃ m ∈ scan words size (readAll ignoreCase (utf8 cs)), (utf8 cs).length < m.index + m.size := by
  obtain ⟨init, c, rfl⟩ := (List.eq_nil_or_concat' cs).resolve_left hne
  have hT := isNode_prefixClosed words
  have hlen : (utf8 (init ++ [c])).length = (utf8 init).length + c.utf8Size := by
    rw [utf8_append, List.length_append, utf8_cons_length]
    rfl
  have hcodes : codesOf ignoreCase init ++ [codeOf ignoreCase c] =
      codesOf ignoreCase (init ++ [c]) := by
    simp [codesOf]
  -- the last character is read from the node of those before it
  have hinit := foldl_scanStep_fst words size (charsFrom ignoreCase 0 init) [] []
  rw [List.nil_append, codesRead_charsFrom] at hinit
  have hlast : next (IsNode words) (longest (IsNode words) (codesOf ignoreCase init))
      (codeOf ignoreCase c) = codesOf ignoreCase (init ++ [c]) := by
    rw [← longest_snoc hT, hcodes, longest_of_mem hnode]
  rw [readAll_utf8, charsFrom_snoc, scan, List.foldl_append, List.foldl_cons, List.foldl_nil,
    scanStep]
  change (List.foldl (scanStep words size) ([], []) _).1 = _ at hinit
  dsimp only
  rw [hinit, hlast, Nat.zero_add, hlen]
  rw [hlen] at hsize
  exact addMatch_overlong hsize _

/-! ## Texts of given codes -/

/-- A code of a character is that of one that a text can have. -/
theorem exists_char {ignoreCase : Bool} {ch : Nat} (h : charCode ignoreCase ch ≠ 0) :
    ∃ c : Char, codeOf ignoreCase c = charCode ignoreCase ch := by
  have hch : ch < 0xd800 := by
    rw [charCode_eq] at h
    by_contra hlarge
    rw [if_neg (by omega), if_neg (by omega), if_neg (by omega)] at h
    exact h rfl
  have hsize : ch < UInt32.size := hch.trans (by decide)
  refine ⟨⟨UInt32.ofNatLT ch hsize, .inl ?_⟩, ?_⟩
  · rw [UInt32.toNat_ofNatLT]
    exact hch
  · unfold codeOf
    rw [UInt32.toNat_ofNatLT]

/-- The codes of a node are those of a text. -/
theorem exists_text {ignoreCase : Bool} {patterns : List Bytes}
    (hcodes : ∀ w ∈ patternWords ignoreCase patterns, DoubleArrayTrie.Codes w) {v : Path}
    (hv : IsNode (patternWords ignoreCase patterns) v) :
    ∃ cs : List Char, codesOf ignoreCase cs = v ∧ Supported ignoreCase cs := by
  have hcode : ∀ c ∈ v, c ≠ 0 ∧ c ∈ Set.range (codeOf ignoreCase) := by
    intro c hc
    rcases hv with rfl | ⟨w, hw, hpre⟩
    · exact absurd hc (by simp)
    · have hmem := hpre.subset hc
      have hne : c ≠ 0 := Nat.pos_iff_ne_zero.mp (hcodes w hw c hmem).1
      obtain ⟨p, -, rfl⟩ := mem_patternWords.mp hw
      obtain ⟨ch, rfl⟩ := exists_charCode hmem
      exact ⟨hne, exists_char hne⟩
  have hrange : v ∈ Set.range (List.map (codeOf ignoreCase)) := by
    rw [Set.range_list_map]
    exact fun c hc => (hcode c hc).2
  obtain ⟨cs, rfl⟩ := hrange
  exact ⟨cs, rfl, fun c hc => (hcode _ (List.mem_map_of_mem hc)).1⟩

/-! ## The patterns -/

/-- When the layout is clean, the ranges lie in every text exactly if the sizes of the patterns
    fit. -/
theorem matches_inside_iff (order : MapOrder) (ignoreCase : Bool) (patterns : List Bytes) (t : Trie)
    (haccept : insertAll ignoreCase patterns = .ok t) (fuel : Nat)
    (hfuel : bytesFuel patterns ≤ fuel)
    (hclean : cleanBuild order fuel ignoreCase patterns = true) :
    ∃ d, construct order fuel ignoreCase patterns = .ok d ∧
      ((∀ text : Bytes, text.length < 2 ^ 64 →
        ∃ infos, search d ignoreCase text = some infos ∧ MatchesInside text infos) ↔
      SizesFit ignoreCase patterns) := by
  obtain ⟨-, -, hcodes⟩ := insertAll_bytes haccept
  obtain ⟨d, datIndex, hbuild, hd, houtput⟩ := construct_bytes order haccept fuel hfuel hclean
  refine ⟨d, hbuild, ?_⟩
  rw [sizesFit_iff]
  constructor
  · intro h v hv hne
    by_contra hlarge
    obtain ⟨cs, rfl, hcs⟩ := exists_text hcodes hv
    rw [← utf8_length_eq_byteSize hcs] at hlarge
    obtain ⟨u, hu⟩ := exists_collected (T := IsNode (patternWords ignoreCase patterns))
      (storedSize ignoreCase patterns) (codesOf ignoreCase cs)
    have hlt := storedSize_lt ignoreCase patterns u
    obtain ⟨infos, hsearch, hinside⟩ := h (utf8 cs) (by omega)
    rw [search_eq_scan hd houtput] at hsearch
    obtain rfl := Option.some.inj hsearch
    obtain ⟨m, hm, hout⟩ := scan_overlong (fun v => if v = [] then 0 else collected
        (IsNode (patternWords ignoreCase patterns)) (storedSize ignoreCase patterns) v)
      (fun hnil => hne (by rw [hnil]; rfl)) hv (by rw [if_neg hne]; omega)
    have := (hinside.within m hm).2
    omega
  · intro h text htext
    obtain ⟨infos, hsearch, hwithin, -⟩ := search_bytes_spec hd houtput hcodes (fun v hv => by
      split
      · exact Nat.zero_le _
      · rename_i hne
        exact h v hv hne) ignoreCase text htext
    exact ⟨infos, hsearch, matchesInside_of_within hwithin htext⟩

theorem matches_inside_iff_cats :
    ∃ d, construct insertionOrder 40 true [[0x43, 0x61, 0x74], [0xc1, 0xa1, 0x80], [0x80]] = .ok d ∧
      ((∀ text : Bytes, text.length < 2 ^ 64 →
        ∃ infos, search d true text = some infos ∧ MatchesInside text infos) ↔
      SizesFit true [[0x43, 0x61, 0x74], [0xc1, 0xa1, 0x80], [0x80]]) := by
  cases haccept : insertAll true [[0x43, 0x61, 0x74], [0xc1, 0xa1, 0x80], [0x80]] with
  | error e =>
    have hok : (insertAll true [[0x43, 0x61, 0x74], [0xc1, 0xa1, 0x80], [0x80]]).isOk = true := by
      decide +kernel
    rw [haccept] at hok
    exact absurd hok (by simp [Except.isOk, Except.toBool])
  | ok t =>
    exact matches_inside_iff insertionOrder true _ t haccept 40 (by decide) (by decide +kernel)

/-- The pattern `\x80a` is stored with two bytes and found in the text `a`: its range starts one
    byte before the text. -/
theorem strayByte_outside :
    ∃ d, construct insertionOrder 40 false [[0x80, 0x61]] = .ok d ∧
      search d false [0x61] = some [⟨2 ^ 64 - 1, 2⟩] ∧
      ¬MatchesInside [0x61] [⟨2 ^ 64 - 1, 2⟩] := by
  have hrun :
      (match construct insertionOrder 40 false [[0x80, 0x61]] with
      | .ok d => search d false [0x61]
      | .error _ => none) = some [⟨2 ^ 64 - 1, 2⟩] := by
    decide +kernel
  cases hbuild : construct insertionOrder 40 false [[0x80, 0x61]] with
  | error e =>
    rw [hbuild] at hrun
    exact absurd hrun (by simp)
  | ok d =>
    rw [hbuild] at hrun
    refine ⟨d, rfl, hrun, fun h => ?_⟩
    have := (h.within _ List.mem_cons_self).2
    exact absurd this (by decide)

end CdsGuard.Gateway
