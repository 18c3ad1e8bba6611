import CdsGuard.Lib.AhoCorasick
import CdsGuard.DoubleArray.CharCode

/-
  The first two stages of `DoubleArrayTrie::build`: the patterns go into a pointer trie, and a
  breadth-first walk gives every node its failure link and the longest match that ends there.

  A node is named by the codes that lead to it, so `Trie` holds the children and sizes by path.
  The order in which an `unordered_map` visits its keys is a parameter.

  Proved: the trie of valid patterns has exactly their prefixes as nodes, and at the end of each
  pattern its number of bytes (`insertAll_spec`).
-/

namespace CdsGuard.DoubleArray

open CdsGuard.Lib

/-- The codes from the root to a node. -/
abbrev Path := List Nat

/-- The nodes that hang on `root`: the keys of `child_node_map_` in the order of insertion, and
    `matched_size_`. -/
structure Trie where
  children : Path → List Nat
  matchedSize : Path → Nat

/-- `new Trie{U'\0', 0, 0, nullptr}`. -/
def Trie.empty : Trie := ⟨fun _ => [], fun _ => 0⟩

/-- The exceptions of `build`. -/
inductive BuildError where
  | invalidPattern
  | unsupportedChar
  deriving DecidableEq

/-! ## Insertion -/

/-- `child_node_map_[code]`, with a new node if there is none. -/
def Trie.addChild (t : Trie) (curr : Path) (code : Nat) : Trie :=
  if code ∈ t.children curr then t
  else { t with children := Function.update t.children curr (t.children curr ++ [code]) }

/-- The loop over the characters of a pattern. Each round takes at least a byte, so the length of
    the pattern is enough `fuel`. -/
def insertLoop (ignoreCase : Bool) : Nat → Bytes → Path → Trie → Except BuildError (Trie × Path)
  | 0, _, curr, t => .ok (t, curr)
  | fuel + 1, rest, curr, t =>
    if rest.isEmpty then .ok (t, curr)
    else
      match readChar rest with
      | .truncated => .error .invalidPattern
      | .bad => insertLoop ignoreCase fuel (rest.drop 1) curr t
      | .char len ch =>
        let code := charCode ignoreCase ch
        if code = 0 then .error .unsupportedChar
        else insertLoop ignoreCase fuel (rest.drop len) (curr ++ [code]) (t.addChild curr code)

/-- One round of the loop over the patterns. -/
def insertPattern (ignoreCase : Bool) (t : Trie) (pattern : Bytes) : Except BuildError Trie :=
  match insertLoop ignoreCase pattern.length pattern [] t with
  | .error e => .error e
  | .ok (t, curr) =>
    .ok { t with matchedSize := Function.update t.matchedSize curr (u32 pattern.length) }

def insertAll (ignoreCase : Bool) (patterns : List Bytes) : Except BuildError Trie :=
  patterns.foldlM (insertPattern ignoreCase) Trie.empty

/-! ## Failure links -/

/-- In which order the children of a node are visited. -/
structure MapOrder where
  visit : Path → List Nat → List Nat
  perm : ∀ node keys, (visit node keys).Perm keys

/-- `fail_node_` and `matched_size_` of the nodes. -/
structure Links where
  fail : Path → Path
  matched : Path → Nat

/-- The inner `while`: up the failure links to a node with a child `code`, or to the root. -/
def chase (t : Trie) (fail : Path → Path) (code : Nat) : Nat → Path → Option Path
  | 0, dest => if dest = [] ∨ code ∈ t.children dest then some dest else none
  | fuel + 1, dest =>
    if dest = [] ∨ code ∈ t.children dest then some dest
    else chase t fail code fuel (fail dest)

/-- One round of the loop over the children of `curr`. A failure link leads to a shorter path,
    so the depth of `curr` is enough fuel. -/
def linkChild (t : Trie) (curr : Path) (l : Links) (code : Nat) : Option Links :=
  (chase t l.fail code curr.length (l.fail curr)).map fun dest =>
    let dest := if code ∈ t.children dest then dest ++ [code] else dest
    let child := curr ++ [code]
    { fail := Function.update l.fail child dest
      matched := Function.update l.matched child (max (l.matched child) (l.matched dest)) }

/-- The `while` over the queue. -/
def linkLoop (order : MapOrder) (t : Trie) : Nat → List Path → Links → Option Links
  | _, [], l => some l
  | 0, _ :: _, _ => none
  | fuel + 1, curr :: que, l =>
    let codes := order.visit curr (t.children curr)
    match codes.foldlM (linkChild t curr) l with
    | none => none
    | some l' => linkLoop order t fuel (que ++ codes.map fun code => curr ++ [code]) l'

/-- The whole stage. The failure links of the children of the root are the root; those of the
    other nodes are null until they are set. -/
def linkAll (order : MapOrder) (t : Trie) (fuel : Nat) : Option Links :=
  linkLoop order t fuel ((order.visit [] (t.children [])).map fun code => [code])
    ⟨fun _ => [], t.matchedSize⟩

/-! ## The words of the patterns -/

/-- The codes of a text. -/
def codesOf (ignoreCase : Bool) (cs : List Char) : Path := cs.map (codeOf ignoreCase)

/-- The words that the patterns are inserted as, the last first. -/
def wordsOf (ignoreCase : Bool) (ps : List (List Char)) : List Path :=
  (ps.map (codesOf ignoreCase)).reverse

/-- The number of bytes of a text with given codes, none of them 0. -/
def byteSize (w : Path) : Nat := (w.map codeSize).sum

/-- `build` accepts the pattern. -/
def Supported (ignoreCase : Bool) (p : List Char) : Prop := ∀ c ∈ p, codeOf ignoreCase c ≠ 0

instance (ignoreCase : Bool) : DecidablePred (Supported ignoreCase) := fun p =>
  List.decidableBAll _ p

theorem utf8_length_eq_byteSize {ignoreCase : Bool} {p : List Char} (h : Supported ignoreCase p) :
    (utf8 p).length = byteSize (codesOf ignoreCase p) := by
  induction p with
  | nil => rfl
  | cons c p ih =>
    have hc := utf8Size_eq_codeSize ignoreCase c (h c List.mem_cons_self)
    have hp := ih fun d hd => h d (List.mem_cons_of_mem c hd)
    rw [utf8_cons, List.length_append, String.length_utf8EncodeChar, hc, hp]
    rfl

/-- The edges of the trie are those of the given words. -/
structure Trie.Edges (t : Trie) (words : List Path) : Prop where
  mem_iff : ∀ v c, c ∈ t.children v ↔ ∃ w ∈ words, v ++ [c] <+: w
  nodup : ∀ v, (t.children v).Nodup

theorem Trie.edges_empty : Trie.empty.Edges [] where
  mem_iff := fun v c => by simp [Trie.empty]
  nodup := fun _ => List.nodup_nil

/-- Adding a child extends the word that leads to its parent. -/
theorem Trie.Edges.addChild {t : Trie} {words : List Path} {curr : Path}
    (h : t.Edges (curr :: words)) (code : Nat) :
    (t.addChild curr code).Edges ((curr ++ [code]) :: words) := by
  have hsnoc : ∀ v c, v ++ [c] <+: curr ++ [code] ↔ v ++ [c] = curr ++ [code] ∨ v ++ [c] <+: curr :=
    fun v c => List.prefix_concat_iff
  unfold Trie.addChild
  split
  · rename_i hmem
    obtain ⟨w, hw, hpre⟩ := (h.mem_iff curr code).mp hmem
    refine ⟨fun v c => ?_, h.nodup⟩
    rw [h.mem_iff, List.exists_mem_cons_iff, List.exists_mem_cons_iff, hsnoc]
    constructor
    · rintro (hv | hv)
      · exact .inl (.inr hv)
      · exact .inr hv
    · rintro ((hv | hv) | hv)
      · -- the edge is there already, on the word `w`
        rw [hv]
        rcases List.mem_cons.mp hw with rfl | hw
        · exact .inl hpre
        · exact .inr ⟨w, hw, hpre⟩
      · exact .inl hv
      · exact .inr hv
  · rename_i hnot
    refine ⟨fun v c => ?_, fun v => ?_⟩
    · by_cases hv : v = curr
      · subst hv
        have hself : c ∈ Function.update t.children v (t.children v ++ [code]) v ↔
            c ∈ t.children v ∨ c = code := by
          rw [Function.update_self, List.mem_append, List.mem_singleton]
        have heq : v ++ [c] = v ++ [code] ↔ c = code := by simp
        rw [hself, h.mem_iff, List.exists_mem_cons_iff, List.exists_mem_cons_iff, hsnoc, heq,
          or_assoc, or_assoc]
        exact or_rotate.symm
      · have hother : c ∈ Function.update t.children curr (t.children curr ++ [code]) v ↔
            c ∈ t.children v := by
          rw [Function.update_of_ne hv]
        have hne : v ++ [c] ≠ curr ++ [code] := by
          intro heq
          exact hv (List.append_inj_left' heq rfl)
        rw [hother, h.mem_iff, List.exists_mem_cons_iff, List.exists_mem_cons_iff, hsnoc,
          or_iff_right hne]
    · by_cases hv : v = curr
      · subst hv
        show (Function.update t.children v (t.children v ++ [code]) v).Nodup
        rw [Function.update_self]
        exact (h.nodup v).append (List.nodup_singleton code) (by simpa using hnot)
      · show (Function.update t.children curr _ v).Nodup
        rw [Function.update_of_ne hv]
        exact h.nodup v

theorem Trie.addChild_matchedSize (t : Trie) (curr : Path) (code : Nat) :
    (t.addChild curr code).matchedSize = t.matchedSize := by
  unfold Trie.addChild
  split <;> rfl

/-- The loop over a valid pattern adds its word. -/
theorem insertLoop_spec {ignoreCase : Bool} {words : List Path} (p : List Char)
    (hp : Supported ignoreCase p) (fuel : Nat) (hfuel : (utf8 p).length ≤ fuel) (curr : Path)
    (t : Trie) (ht : t.Edges (curr :: words)) :
    ∃ t', insertLoop ignoreCase fuel (utf8 p) curr t = .ok (t', curr ++ codesOf ignoreCase p) ∧
      t'.Edges ((curr ++ codesOf ignoreCase p) :: words) ∧ t'.matchedSize = t.matchedSize := by
  induction p generalizing fuel curr t with
  | nil =>
    refine ⟨t, ?_, by simpa [codesOf] using ht, rfl⟩
    cases fuel <;> simp [insertLoop, utf8, codesOf]
  | cons c p ih =>
    have hpos := c.utf8Size_pos
    have hlen : (utf8 (c :: p)).length = c.utf8Size + (utf8 p).length := by
      rw [utf8_cons, List.length_append, String.length_utf8EncodeChar]
    obtain ⟨fuel, rfl⟩ : ∃ n, fuel = n + 1 := ⟨fuel - 1, by omega⟩
    have hcode : charCode ignoreCase c.val.toNat ≠ 0 := hp c List.mem_cons_self
    have hne : (utf8 (c :: p)).isEmpty = false := by
      rw [List.isEmpty_eq_false_iff, ← List.length_pos_iff]
      omega
    have hdrop : (utf8 (c :: p)).drop c.utf8Size = utf8 p := by
      rw [utf8_cons]
      exact List.drop_left' (String.length_utf8EncodeChar c)
    obtain ⟨t', hrun, hedges, hsize⟩ := ih (fun d hd => hp d (List.mem_cons_of_mem c hd)) fuel
      (by omega) (curr ++ [codeOf ignoreCase c]) (t.addChild curr (codeOf ignoreCase c))
      (ht.addChild (codeOf ignoreCase c))
    have hword : curr ++ [codeOf ignoreCase c] ++ codesOf ignoreCase p =
        curr ++ codesOf ignoreCase (c :: p) := by
      simp [codesOf]
    rw [hword] at hrun hedges
    refine ⟨t', ?_, hedges, hsize.trans (t.addChild_matchedSize curr _)⟩
    rw [insertLoop, hne, if_neg (by simp)]
    simp only [utf8_cons, readChar_encode]
    rw [if_neg hcode, ← utf8_cons, hdrop]
    exact hrun

/-- The trie of a list of words: their edges, and the size of each of them at its end. -/
structure Trie.Holds (t : Trie) (words : List Path) : Prop extends t.Edges words where
  matched_eq : ∀ v, t.matchedSize v = if v ∈ words then u32 (byteSize v) else 0

theorem insertPattern_spec {ignoreCase : Bool} {words : List Path} {t : Trie}
    (ht : t.Holds words) (p : List Char) (hp : Supported ignoreCase p) :
    ∃ t', insertPattern ignoreCase t (utf8 p) = .ok t' ∧
      t'.Holds (codesOf ignoreCase p :: words) := by
  have hstart : t.Edges ([] :: words) := by
    refine ⟨fun v c => ?_, ht.nodup⟩
    rw [ht.mem_iff, List.exists_mem_cons_iff]
    simp
  obtain ⟨t', hrun, hedges, hsize⟩ := insertLoop_spec p hp _ (Nat.le_refl _) [] t hstart
  rw [List.nil_append] at hrun hedges
  refine ⟨⟨t'.children,
      Function.update t'.matchedSize (codesOf ignoreCase p) (u32 (utf8 p).length)⟩,
    by simp only [insertPattern, hrun], ⟨⟨hedges.mem_iff, hedges.nodup⟩, fun v => ?_⟩⟩
  show Function.update t'.matchedSize (codesOf ignoreCase p) (u32 (utf8 p).length) v = _
  by_cases hv : v = codesOf ignoreCase p
  · rw [hv, Function.update_self, if_pos List.mem_cons_self, utf8_length_eq_byteSize hp]
  · rw [Function.update_of_ne hv, hsize, ht.matched_eq]
    have hmem : v ∈ codesOf ignoreCase p :: words ↔ v ∈ words := by simp [hv]
    simp only [hmem]

/-- The trie of valid patterns. -/
theorem insertAll_spec (ignoreCase : Bool) (ps : List (List Char))
    (hps : ∀ p ∈ ps, Supported ignoreCase p) :
    ∃ t, insertAll ignoreCase (ps.map utf8) = .ok t ∧
      t.Holds (wordsOf ignoreCase ps) := by
  have key : ∀ (ps : List (List Char)) (words : List Path) (t : Trie), t.Holds words →
      (∀ p ∈ ps, Supported ignoreCase p) →
      ∃ t', (ps.map utf8).foldlM (insertPattern ignoreCase) t = .ok t' ∧
        t'.Holds ((ps.map (codesOf ignoreCase)).reverse ++ words) := by
    intro ps
    induction ps with
    | nil => exact fun words t ht _ => ⟨t, rfl, ht⟩
    | cons p ps ih =>
      intro words t ht hps
      obtain ⟨t', hstep, ht'⟩ := insertPattern_spec ht p (hps p List.mem_cons_self)
      obtain ⟨t'', hrun, ht''⟩ := ih _ t' ht' fun q hq => hps q (List.mem_cons_of_mem p hq)
      refine ⟨t'', ?_, by simpa using ht''⟩
      rw [List.map_cons, List.foldlM_cons, hstep]
      exact hrun
  have hempty : Trie.empty.Holds [] := ⟨Trie.edges_empty, fun v => by simp [Trie.empty]⟩
  simpa [insertAll, wordsOf] using key ps [] Trie.empty hempty hps

end CdsGuard.DoubleArray
