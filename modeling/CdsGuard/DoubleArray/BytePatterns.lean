import CdsGuard.DoubleArray.Build
import CdsGuard.DoubleArray.Scan

/-
  Patterns of any bytes. `build` takes the number of all bytes of a pattern for its size, those
  that start no character too, and a character in a longer form than the shortest with all its
  bytes; the trie knows only the codes.

  Proved: what the insertion leaves (`insertAll_bytes`), and that the sizes in the cells are within
  the bytes that the codes need exactly if those of the patterns are (`sizesFit_iff`).
-/

namespace CdsGuard.DoubleArray

open CdsGuard.Lib DoubleArrayTrie

/-! ## Insertion -/

/-- The codes of the characters in a pattern. -/
def patternCodes (ignoreCase : Bool) (pattern : Bytes) : Path :=
  codesRead (readAll ignoreCase pattern)

/-- The words that the patterns are inserted as, the last first. -/
def patternWords (ignoreCase : Bool) (patterns : List Bytes) : List Path :=
  (patterns.map (patternCodes ignoreCase)).reverse

/-- The size that the last pattern with given codes leaves at its node; 0 if there is none. -/
def storedSize (ignoreCase : Bool) (patterns : List Bytes) (v : Path) : Nat :=
  patterns.foldl (fun size p => if patternCodes ignoreCase p = v then u32 p.length else size) 0

theorem storedSize_snoc (ignoreCase : Bool) (patterns : List Bytes) (p : Bytes) (v : Path) :
    storedSize ignoreCase (patterns ++ [p]) v =
      if patternCodes ignoreCase p = v then u32 p.length
      else storedSize ignoreCase patterns v := by
  unfold storedSize
  rw [List.foldl_append]
  rfl

theorem exists_of_storedSize_ne_zero {ignoreCase : Bool} {patterns : List Bytes} {v : Path}
    (h : storedSize ignoreCase patterns v ≠ 0) :
    ∃ p ∈ patterns, patternCodes ignoreCase p = v := by
  induction patterns using List.reverseRecOn with
  | nil => exact absurd rfl h
  | append_singleton patterns p ih =>
    rw [storedSize_snoc] at h
    split at h
    · rename_i heq
      exact ⟨p, by simp, heq⟩
    · obtain ⟨q, hq, heq⟩ := ih h
      exact ⟨q, List.mem_append_left _ hq, heq⟩

theorem storedSize_lt (ignoreCase : Bool) (patterns : List Bytes) (v : Path) :
    storedSize ignoreCase patterns v < 2 ^ 32 := by
  induction patterns using List.reverseRecOn with
  | nil => exact Nat.two_pow_pos 32
  | append_singleton patterns p ih =>
    rw [storedSize_snoc]
    split
    · exact Nat.mod_lt _ (Nat.two_pow_pos 32)
    · exact ih

/-- The loop over the characters reads them as `search` does, and accepts only those with codes. -/
theorem insertLoop_bytes {ignoreCase : Bool} {words : List Path} (fuel pos : Nat) (rest : Bytes)
    (curr : Path) (t t' : Trie) (curr' : Path) (ht : t.Edges (curr :: words))
    (h : insertLoop ignoreCase fuel rest curr t = .ok (t', curr')) :
    curr' = curr ++ codesRead (readFrom ignoreCase fuel pos rest) ∧ t'.Edges (curr' :: words) ∧
      t'.matchedSize = t.matchedSize ∧ Codes (codesRead (readFrom ignoreCase fuel pos rest)) := by
  have hnone : Codes (codesRead []) := fun c hc => absurd hc (by simp [codesRead])
  induction fuel generalizing pos rest curr t with
  | zero =>
    obtain ⟨rfl, rfl⟩ := Prod.mk.injEq .. ▸ Except.ok.inj h
    exact ⟨by simp [readFrom, codesRead], ht, rfl, hnone⟩
  | succ fuel ih =>
    rw [insertLoop] at h
    rw [readFrom]
    by_cases hempty : rest.isEmpty = true
    · rw [if_pos hempty] at h ⊢
      obtain ⟨rfl, rfl⟩ := Prod.mk.injEq .. ▸ Except.ok.inj h
      exact ⟨by simp [codesRead], ht, rfl, hnone⟩
    · rw [if_neg hempty] at h ⊢
      cases hread : readChar rest with
      | truncated =>
        rw [hread] at h
        exact absurd h (by simp)
      | bad =>
        rw [hread] at h
        exact ih (pos + 1) (rest.drop 1) curr t ht h
      | char len ch =>
        rw [hread] at h
        dsimp only at h ⊢
        by_cases hcode : charCode ignoreCase ch = 0
        · rw [if_pos hcode] at h
          exact absurd h (by simp)
        · rw [if_neg hcode] at h
          obtain ⟨hcurr, hedges, hsize, hcodes⟩ := ih (pos + len) (rest.drop len)
            (curr ++ [charCode ignoreCase ch]) (t.addChild curr (charCode ignoreCase ch))
            (ht.addChild (charCode ignoreCase ch)) h
          refine ⟨?_, hedges, hsize.trans (t.addChild_matchedSize curr _), fun c hc => ?_⟩
          · rw [hcurr, codesRead_cons, List.append_assoc, List.singleton_append]
          · rcases List.mem_cons.mp hc with heq | hmem
            · rw [heq]
              exact ⟨Nat.pos_of_ne_zero hcode, charCode_le ignoreCase ch⟩
            · exact hcodes c hmem

/-- One pattern that is accepted. -/
theorem insertPattern_bytes {ignoreCase : Bool} {words : List Path} {t t' : Trie} {pattern : Bytes}
    (ht : t.Edges words) (h : insertPattern ignoreCase t pattern = .ok t') :
    t'.Edges (patternCodes ignoreCase pattern :: words) ∧
      t'.matchedSize = Function.update t.matchedSize (patternCodes ignoreCase pattern)
        (u32 pattern.length) ∧
      Codes (patternCodes ignoreCase pattern) := by
  have hstart : t.Edges ([] :: words) := by
    refine ⟨fun v c => ?_, ht.nodup⟩
    rw [ht.mem_iff, List.exists_mem_cons_iff]
    simp
  unfold insertPattern at h
  cases hloop : insertLoop ignoreCase pattern.length pattern [] t with
  | error e =>
    rw [hloop] at h
    exact absurd h (by simp)
  | ok r =>
    obtain ⟨t₁, curr⟩ := r
    rw [hloop] at h
    obtain rfl := Except.ok.inj h
    obtain ⟨hcurr, hedges, hsize, hcodes⟩ :=
      insertLoop_bytes pattern.length 0 pattern [] t t₁ curr hstart hloop
    have hword : curr = patternCodes ignoreCase pattern := hcurr
    rw [← hword]
    refine ⟨⟨hedges.mem_iff, hedges.nodup⟩, ?_, hword ▸ hcodes⟩
    show Function.update t₁.matchedSize curr (u32 pattern.length) = _
    rw [hsize]

/-- The insertion of patterns that are accepted. -/
theorem insertAll_bytes {ignoreCase : Bool} {patterns : List Bytes} {t : Trie}
    (h : insertAll ignoreCase patterns = .ok t) :
    t.Edges (patternWords ignoreCase patterns) ∧ t.matchedSize = storedSize ignoreCase patterns ∧
      ∀ w ∈ patternWords ignoreCase patterns, Codes w := by
  induction patterns using List.reverseRecOn generalizing t with
  | nil =>
    obtain rfl := Except.ok.inj h
    exact ⟨Trie.edges_empty, rfl, fun w hw => absurd hw (by simp [patternWords])⟩
  | append_singleton patterns p ih =>
    have hsnoc : patternWords ignoreCase (patterns ++ [p]) =
        patternCodes ignoreCase p :: patternWords ignoreCase patterns := by
      unfold patternWords
      rw [List.map_append, List.reverse_append]
      rfl
    unfold insertAll at h
    rw [List.foldlM_append] at h
    cases hinit : List.foldlM (insertPattern ignoreCase) Trie.empty patterns with
    | error e =>
      rw [hinit] at h
      exact absurd h (by simp [bind, Except.bind])
    | ok t₁ =>
      rw [hinit] at h
      change List.foldlM (insertPattern ignoreCase) t₁ [p] = .ok t at h
      rw [List.foldlM_cons] at h
      simp only [List.foldlM_nil, bind_pure] at h
      obtain ⟨hedges, hsize, hcodes⟩ := ih hinit
      obtain ⟨hedges', hsize', hcodes'⟩ := insertPattern_bytes hedges h
      rw [hsnoc]
      refine ⟨hedges', ?_, fun w hw => ?_⟩
      · funext v
        rw [storedSize_snoc, hsize', hsize]
        by_cases hv : patternCodes ignoreCase p = v
        · rw [if_pos hv, hv, Function.update_self]
        · rw [if_neg hv, Function.update_of_ne (Ne.symm hv)]
      · rcases List.mem_cons.mp hw with rfl | hmem
        · exact hcodes'
        · exact hcodes w hmem

/-! ## The sizes -/

section

variable {ignoreCase : Bool} {patterns : List Bytes}

theorem mem_patternWords {w : Path} :
    w ∈ patternWords ignoreCase patterns ↔ ∃ p ∈ patterns, patternCodes ignoreCase p = w := by
  rw [patternWords, List.mem_reverse, List.mem_map]

/-- The size of a pattern is within the bytes that its codes need; and so is that of the patterns
    without any character, wherever a pattern comes, in its second character or later, to a code
    that starts no pattern, for there the failure links lead to the root. -/
def SizesFit (ignoreCase : Bool) (patterns : List Bytes) : Prop :=
  (∀ p ∈ patterns, patternCodes ignoreCase p ≠ [] →
    storedSize ignoreCase patterns (patternCodes ignoreCase p) ≤
      byteSize (patternCodes ignoreCase p)) ∧
  ∀ p ∈ patterns, ∀ n < (patternCodes ignoreCase p).length, n ≠ 0 →
    (∀ q ∈ patterns, (patternCodes ignoreCase q).head? ≠ (patternCodes ignoreCase p)[n]?) →
    storedSize ignoreCase patterns [] ≤ byteSize ((patternCodes ignoreCase p).take (n + 1))

instance (ignoreCase : Bool) (patterns : List Bytes) : Decidable (SizesFit ignoreCase patterns) :=
  inferInstanceAs (Decidable (_ ∧ _))

/-- The codes that start a pattern. -/
theorem isNode_singleton_iff {c : Nat} :
    IsNode (patternWords ignoreCase patterns) [c] ↔
      ∃ q ∈ patterns, (patternCodes ignoreCase q).head? = some c := by
  have hsnoc : IsNode (patternWords ignoreCase patterns) [c] ↔
      ∃ w ∈ patternWords ignoreCase patterns, [c] <+: w :=
    isNode_snoc_iff (v := [])
  rw [hsnoc]
  have hhead : ∀ w : Path, [c] <+: w ↔ w.head? = some c := by
    intro w
    cases w with
    | nil => simp
    | cons a w => simp [List.cons_prefix_cons, eq_comm]
  constructor
  · rintro ⟨w, hw, hpre⟩
    obtain ⟨q, hq, rfl⟩ := mem_patternWords.mp hw
    exact ⟨q, hq, (hhead _).mp hpre⟩
  · rintro ⟨q, hq, hc⟩
    exact ⟨_, mem_patternWords.mpr ⟨q, hq, rfl⟩, (hhead _).mpr hc⟩

/-- The sizes that the walk over the failure links collects are within the bytes of the codes
    exactly if those of the patterns are. -/
theorem sizesFit_iff :
    SizesFit ignoreCase patterns ↔
      ∀ v, IsNode (patternWords ignoreCase patterns) v → v ≠ [] →
        collected (IsNode (patternWords ignoreCase patterns)) (storedSize ignoreCase patterns) v ≤
          byteSize v := by
  rw [collected_le_iff (isNode_prefixClosed _) fun u v h => byteSize_le_of_suffix h]
  refine and_congr ⟨fun h v _ hne => ?_, fun h p hp hne => ?_⟩
    ⟨fun h v c hnode hne hfirst => ?_, fun h p hp n hn h0 hfirst => ?_⟩
  · by_cases hzero : storedSize ignoreCase patterns v = 0
    · rw [hzero]
      exact Nat.zero_le _
    · obtain ⟨p, hp, rfl⟩ := exists_of_storedSize_ne_zero hzero
      exact h p hp hne
  · exact h _ (isNode_of_mem (mem_patternWords.mpr ⟨p, hp, rfl⟩)) hne
  · obtain ⟨w, hw, hpre⟩ := isNode_snoc_iff.mp hnode
    obtain ⟨p, hp, rfl⟩ := mem_patternWords.mp hw
    have hlen := hpre.length_le
    rw [List.length_append, List.length_singleton] at hlen
    have htake : (patternCodes ignoreCase p).take (v.length + 1) = v ++ [c] := by
      have h := List.prefix_iff_eq_take.mp hpre
      rw [List.length_append, List.length_singleton] at h
      exact h.symm
    have hget : (patternCodes ignoreCase p)[v.length]? = some c := by
      obtain ⟨rest, hrest⟩ := hpre
      rw [← hrest]
      simp
    have hle := h p hp v.length (by omega) (fun h0 => hne (List.length_eq_zero_iff.mp h0))
      fun q hq hhead => hfirst (isNode_singleton_iff.mpr ⟨q, hq, hhead.trans hget⟩)
    rwa [htake] at hle
  · have htake : (patternCodes ignoreCase p).take (n + 1) =
        (patternCodes ignoreCase p).take n ++ [(patternCodes ignoreCase p)[n]] :=
      List.take_succ_eq_append_getElem hn
    rw [htake]
    refine h _ _ ?_ ?_ ?_
    · rw [← htake]
      exact .inr ⟨_, mem_patternWords.mpr ⟨p, hp, rfl⟩, List.take_prefix _ _⟩
    · intro hnil
      have := congrArg List.length hnil
      rw [List.length_take, List.length_nil] at this
      omega
    · intro hnode
      obtain ⟨q, hq, hhead⟩ := isNode_singleton_iff.mp hnode
      exact hfirst q hq (hhead.trans (List.getElem?_eq_getElem hn).symm)

/-! ## The constructor -/

theorem patternCodes_length_le (ignoreCase : Bool) (p : Bytes) :
    (patternCodes ignoreCase p).length ≤ p.length := by
  have h := (readFrom_between ignoreCase p.length 0 p).length_le
  rw [Nat.zero_add, Nat.zero_add] at h
  exact (List.length_map ..).trans_le h

/-- Enough rounds for all loops of `build` over the nodes of these patterns. -/
def bytesFuel (patterns : List Bytes) : Nat := 2 * (patterns.map fun p => p.length + 1).sum + 1

theorem patternWords_fuel (ignoreCase : Bool) (patterns : List Bytes) :
    2 * ((patternWords ignoreCase patterns).map fun w => w.length + 1).sum + 1 ≤
      bytesFuel patterns := by
  have hsum : ((patternWords ignoreCase patterns).map fun w => w.length + 1).sum ≤
      (patterns.map fun p => p.length + 1).sum := by
    unfold patternWords
    rw [List.map_reverse, List.sum_reverse, List.map_map]
    exact List.sum_le_sum fun p _ => Nat.succ_le_succ (patternCodes_length_le ignoreCase p)
  unfold bytesFuel
  omega

/-- The constructor on patterns of any bytes. -/
theorem construct_bytes (order : MapOrder) {t : Trie}
    (haccept : insertAll ignoreCase patterns = .ok t) (fuel : Nat)
    (hfuel : bytesFuel patterns ≤ fuel)
    (hclean : cleanBuild order fuel ignoreCase patterns = true) :
    ∃ d datIndex, construct order fuel ignoreCase patterns = .ok d ∧
      Automaton (patternWords ignoreCase patterns) d datIndex ∧
      ∀ v, IsNode (patternWords ignoreCase patterns) v → d.outputSizeVec (datIndex v) =
        if v = [] then 0
        else collected (IsNode (patternWords ignoreCase patterns))
          (storedSize ignoreCase patterns) v := by
  obtain ⟨hedges, hsize, hcodes⟩ := insertAll_bytes haccept
  rw [← hsize]
  exact build_automaton order fresh_erased haccept hedges hcodes fuel
    ((patternWords_fuel ignoreCase patterns).trans hfuel) hclean

end

end CdsGuard.DoubleArray
