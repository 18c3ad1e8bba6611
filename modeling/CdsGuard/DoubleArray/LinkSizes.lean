import CdsGuard.DoubleArray.Build

/-
  What the first two stages of `build` leave in the pointer trie, in terms of its paths and of the
  bytes of the patterns: every failure link leads to the longest proper suffix that is a path, and
  every size is that of the longest pattern that ends the path.

  `matched_size_` has 32 bits and takes the `size()` of a pattern, which has 64. So the sizes are
  right exactly if no pattern has 2^32 bytes or more (`linksExact_iff`); the links and the end of
  the loops do not depend on it.
-/

namespace CdsGuard.DoubleArray

open CdsGuard.Lib

/-! ## Paths -/

/-- The path leads from node to child all the way. -/
def Trie.HasPath (t : Trie) (v : Path) : Prop := ∀ u c, u ++ [c] <+: v → c ∈ t.children u

/-- `u` is the longest proper suffix of `v` that is a path. -/
structure Trie.LongestSuffix (t : Trie) (v u : Path) : Prop where
  path : t.HasPath u
  suffix : u <:+ v
  proper : u ≠ v
  longest : ∀ x, t.HasPath x → x <:+ v → x ≠ v → x.length ≤ u.length

section

variable {t : Trie} {words : List Path}

theorem Trie.Edges.hasPath_iff (ht : t.Edges words) {v : Path} :
    t.HasPath v ↔ IsNode words v := by
  constructor
  · intro h
    rcases List.eq_nil_or_concat' v with rfl | ⟨u, c, rfl⟩
    · exact .inl rfl
    · exact ht.mem_children.mp (h u c List.prefix_rfl)
  · intro h u c hpre
    exact ht.mem_children.mpr (isNode_of_prefix_of h hpre)

/-- A proper suffix is one of the tail. -/
theorem suffix_tail_iff {u v : Path} (hv : v ≠ []) : u <:+ v.tail ↔ u <:+ v ∧ u ≠ v := by
  obtain ⟨a, v, rfl⟩ := List.exists_cons_of_ne_nil hv
  rw [List.tail_cons, List.suffix_cons_iff]
  constructor
  · intro h
    refine ⟨.inr h, ?_⟩
    rintro rfl
    have := h.length_le
    simp at this
  · rintro ⟨h, hne⟩
    exact h.resolve_left hne

theorem longestSuffix_failOf (ht : t.Edges words) {v : Path} (hv : v ≠ []) :
    t.LongestSuffix v (failOf (IsNode words) v) where
  path := ht.hasPath_iff.mpr (longest_mem (isNode_prefixClosed words) _)
  suffix := ((suffix_tail_iff hv).mp (longest_suffix _)).1
  proper := ((suffix_tail_iff hv).mp (longest_suffix _)).2
  longest := by
    intro x hx hsuffix hne
    have hx := suffix_longest (ht.hasPath_iff.mp hx) ((suffix_tail_iff hv).mpr ⟨hsuffix, hne⟩)
    exact hx.length_le

end

/-! ## Sizes -/

section

variable {ignoreCase : Bool} {ps : List (List Char)}

/-- A size never has more than 32 bits. -/
theorem best_patternSize_lt (words : List Path) (v : Path) :
    best (patternSize words) v < 2 ^ 32 := by
  obtain ⟨u, -, hbest⟩ := Lib.exists_best (patternSize words) v
  rw [hbest, patternSize]
  split
  · exact Nat.mod_lt _ (Nat.two_pow_pos 32)
  · exact Nat.two_pow_pos 32

/-! ## Both stages -/

/-- The insertion accepts the patterns, and in whatever order children are visited all loops over
    the failure links end, with the link of each node but the root and its size as they should
    be. -/
def LinksExact (ignoreCase : Bool) (ps : List (List Char)) : Prop :=
  ∃ t, insertAll ignoreCase (ps.map utf8) = .ok t ∧
    ∀ (order : MapOrder) (fuel : Nat),
      ((wordsOf ignoreCase ps).map fun w => w.length + 1).sum ≤ fuel →
      ∃ l, linkAll order t fuel = some l ∧
        ∀ v, t.HasPath v → v ≠ [] →
          t.LongestSuffix v (l.fail v) ∧ LongestEnding ignoreCase ps v (l.matched v)

theorem Fit.linksExact (h : Fit ignoreCase ps) : LinksExact ignoreCase ps := by
  obtain ⟨t, hinsert, ht⟩ := insertAll_spec ignoreCase ps h.supported
  refine ⟨t, hinsert, fun order fuel hfuel => ?_⟩
  obtain ⟨l, hrun, -, hall⟩ := linkAll_spec ht order fuel hfuel
  refine ⟨l, hrun, fun v hv hne => ?_⟩
  obtain ⟨hfail, hmatched⟩ := hall v (ht.hasPath_iff.mp hv) hne
  rw [hfail, hmatched]
  exact ⟨longestSuffix_failOf ht.toEdges hne, h.longestEnding v⟩

/-- A pattern with more bytes than a size can hold has not its own size at its end. -/
theorem length_lt_of_linksExact (hps : ∀ p ∈ ps, Supported ignoreCase p)
    (h : LinksExact ignoreCase ps) {p : List Char} (hp : p ∈ ps) : (utf8 p).length < 2 ^ 32 := by
  by_cases hnil : p = []
  · rw [hnil]
    exact Nat.two_pow_pos 32
  · obtain ⟨t, hinsert, hall⟩ := h
    obtain ⟨t', hinsert', ht⟩ := insertAll_spec ignoreCase ps hps
    obtain rfl : t' = t := Except.ok.inj (hinsert'.symm.trans hinsert)
    obtain ⟨l, hrun, hlinks⟩ := hall insertionOrder _ (Nat.le_refl _)
    obtain ⟨l', hrun', -, hfinal⟩ := linkAll_spec ht insertionOrder _ (Nat.le_refl _)
    obtain rfl : l' = l := Option.some.inj (hrun'.symm.trans hrun)
    have hnode : IsNode (wordsOf ignoreCase ps) (codesOf ignoreCase p) :=
      isNode_of_mem (mem_wordsOf.mpr ⟨p, hp, rfl⟩)
    have hne : codesOf ignoreCase p ≠ [] := fun h => hnil (List.map_eq_nil_iff.mp h)
    have hle := (hlinks _ (ht.hasPath_iff.mpr hnode) hne).2.le p hp List.suffix_rfl
    rw [(hfinal _ hnode hne).2] at hle
    exact hle.trans_lt (best_patternSize_lt _ _)

/-- The stages do what they are for exactly if every pattern has less than 2^32 bytes. -/
theorem linksExact_iff (ignoreCase : Bool) (ps : List (List Char))
    (hps : ∀ p ∈ ps, Supported ignoreCase p) :
    LinksExact ignoreCase ps ↔ ∀ p ∈ ps, (utf8 p).length < 2 ^ 32 :=
  ⟨fun h _ hp => length_lt_of_linksExact hps h hp, fun h => Fit.linksExact ⟨hps, h⟩⟩

theorem linksExact_iff_heShe :
    LinksExact true [['h', 'e'], ['S', 'H', 'E']] ↔
      ∀ p ∈ [['h', 'e'], ['S', 'H', 'E']], (utf8 p).length < 2 ^ 32 :=
  linksExact_iff true [['h', 'e'], ['S', 'H', 'E']] (by decide)

theorem utf8_replicate_length (n : Nat) : (utf8 (List.replicate n 'a')).length = n := by
  induction n with
  | zero => rfl
  | succ n ih =>
    rw [List.replicate_succ, utf8_cons, List.length_append, ih, Nat.add_comm]
    rfl

/-- One pattern of 2^32 letters gets the size 0. -/
theorem not_linksExact_long : ¬LinksExact true [List.replicate (2 ^ 32) 'a'] := by
  intro h
  have hps : ∀ p ∈ [List.replicate (2 ^ 32) 'a'], Supported true p := by
    intro p hp c hc
    rw [List.mem_singleton.mp hp] at hc
    rw [List.eq_of_mem_replicate hc]
    decide
  have hlt := length_lt_of_linksExact hps h List.mem_cons_self
  rw [utf8_replicate_length] at hlt
  exact Nat.lt_irrefl _ hlt

end

end CdsGuard.DoubleArray
