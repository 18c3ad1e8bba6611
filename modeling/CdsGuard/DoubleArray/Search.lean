import CdsGuard.DoubleArray.FailureLinks
import CdsGuard.DoubleArray.ProperBase

/-
  `DoubleArrayTrie::search`. A state of the automaton is a cell; the ranges that are found go to
  a vector, where a new one replaces the last if it covers it.

  Proved, for arrays that hold the automaton of a list of words (`Automaton`): each character
  takes the search to the cell of the longest suffix of the text that is a node
  (`advance_spec`). A range that is added covers its own bytes and takes none away, also where it
  replaces the last one (`addMatch_spec`).
-/

namespace CdsGuard.DoubleArray

open CdsGuard.Lib

structure MatchedInfo where
  index : Nat
  size : Nat
  deriving DecidableEq

/-- `size_t` subtraction. -/
def sizeSub (a b : Nat) : Nat := if b ≤ a then a - b else a + 2 ^ 64 - b

namespace DoubleArrayTrie

def rootIndex (index : Nat) : Bool := index == kRootIndex

/-- There is a cell under the base of `curr` for the code, and it is a child of `curr`. -/
def hasChild (d : DoubleArrayTrie) (curr code : Nat) : Bool :=
  let next := u32 (d.baseVec curr + code)
  decide (next < d.elementCapacity) && d.checkVec next == curr

/-- The inner `while`: over the failure links to a cell with a child, or to the root. -/
def failLoop (d : DoubleArrayTrie) (code : Nat) : Nat → Nat → Option Nat
  | 0, curr => if rootIndex curr || d.hasChild curr code then some curr else none
  | fuel + 1, curr =>
    if rootIndex curr || d.hasChild curr code then some curr
    else failLoop d code fuel (d.failVec curr)

/-- The cell after one more code. -/
def advance (d : DoubleArrayTrie) (code fuel curr : Nat) : Option Nat :=
  (d.failLoop code fuel curr).map fun curr =>
    if d.hasChild curr code then u32 (d.baseVec curr + code) else curr

end DoubleArrayTrie

/-- What a match of `size` bytes adds, when its last character has `len` bytes and starts at
    `searchChI`. -/
def addMatch (searchChI len size : Nat) (infos : List MatchedInfo) : List MatchedInfo :=
  if size = 0 then infos
  else
    let start := sizeSub (searchChI + (len - 1)) (size - 1)
    match infos.getLast? with
    | none => infos ++ [⟨start, size⟩]
    | some front =>
      if start ≤ front.index ∧ u64 (front.index + (front.size - 1)) ≤ searchChI then
        infos.dropLast ++ [⟨start, size⟩]
      else infos ++ [⟨start, size⟩]

/-- The loop over the text, at byte `searchChI` with `rest` to read. Each round takes at least a
    byte, so the length of the rest is enough for the first fuel; the second is that of the inner
    loop, which goes up at most one node for each character read. -/
def searchLoop (d : DoubleArrayTrie) (ignoreCase : Bool) (depth : Nat) :
    Nat → Bytes → Nat → Nat → List MatchedInfo → Option (List MatchedInfo)
  | 0, _, _, _, infos => some infos
  | fuel + 1, rest, searchChI, curr, infos =>
    if rest.isEmpty then some infos
    else
      match readChar rest with
      | .truncated => searchLoop d ignoreCase depth fuel (rest.drop 1) (searchChI + 1) curr infos
      | .bad => searchLoop d ignoreCase depth fuel (rest.drop 1) (searchChI + 1) curr infos
      | .char len ch =>
        match d.advance (charCode ignoreCase ch) depth curr with
        | none => none
        | some curr =>
          searchLoop d ignoreCase depth fuel (rest.drop len) (searchChI + len) curr
            (addMatch searchChI len (d.outputSizeVec curr) infos)

def search (d : DoubleArrayTrie) (ignoreCase : Bool) (text : Bytes) : Option (List MatchedInfo) :=
  searchLoop d ignoreCase text.length text.length text 0 kRootIndex []

/-! ## The automaton in the arrays -/

/-- The arrays hold the automaton of the words: a node is in the cell `datIndex` gives it, and no
    other cell names it as its parent, but that the root's names itself. -/
structure Automaton (words : List Path) (d : DoubleArrayTrie) (datIndex : Path → Nat) : Prop where
  root : datIndex [] = kRootIndex
  root_iff : ∀ v, IsNode words v → datIndex v = kRootIndex → v = []
  bound : ∀ v, IsNode words v → datIndex v < d.elementCapacity
  child : ∀ v c, IsNode words (v ++ [c]) →
    u32 (d.baseVec (datIndex v) + c) = datIndex (v ++ [c]) ∧
      d.checkVec (datIndex (v ++ [c])) = datIndex v
  other : ∀ v c, IsNode words v → c ≤ kMaxValOfCharCode → ¬IsNode words (v ++ [c]) →
    d.checkVec (u32 (d.baseVec (datIndex v) + c)) = datIndex v →
      v = [] ∧ u32 (d.baseVec (datIndex v) + c) = kRootIndex
  fail : ∀ v, IsNode words v → v ≠ [] → d.failVec (datIndex v) = datIndex (failOf (IsNode words) v)

/-- They hold the size of the longest word that ends at each node as well. -/
structure Faithful (words : List Path) (d : DoubleArrayTrie) (datIndex : Path → Nat) : Prop
    extends Automaton words d datIndex where
  output : ∀ v, IsNode words v → d.outputSizeVec (datIndex v) = best (patternSize words) v

section

variable {words : List Path} {d : DoubleArrayTrie} {datIndex : Path → Nat}

theorem Automaton.hasChild_of_node (h : Automaton words d datIndex) {v : Path} {c : Nat}
    (hc : IsNode words (v ++ [c])) : d.hasChild (datIndex v) c = true := by
  obtain ⟨hcell, hcheck⟩ := h.child v c hc
  unfold DoubleArrayTrie.hasChild
  dsimp only
  rw [hcell, hcheck]
  simpa using h.bound (v ++ [c]) hc

/-- Another child than those of the trie is only the root of itself. -/
theorem Automaton.node_of_hasChild (h : Automaton words d datIndex) {v : Path} {c : Nat}
    (hv : IsNode words v) (hc : c ≤ kMaxValOfCharCode) (hchild : d.hasChild (datIndex v) c = true) :
    IsNode words (v ++ [c]) ∨ v = [] ∧ u32 (d.baseVec (datIndex v) + c) = kRootIndex := by
  by_cases hnode : IsNode words (v ++ [c])
  · exact .inl hnode
  · unfold DoubleArrayTrie.hasChild at hchild
    simp only [Bool.and_eq_true, decide_eq_true_eq, beq_iff_eq] at hchild
    exact .inr (h.other v c hv hc hnode hchild.2)

/-- Where the inner loop stops, the child or the root is where the automaton goes. -/
theorem Automaton.stop (h : Automaton words d datIndex) {v : Path} {c : Nat} (hv : IsNode words v)
    (hc : c ≤ kMaxValOfCharCode) (hstop : v = [] ∨ IsNode words (v ++ [c])) :
    (if d.hasChild (datIndex v) c then u32 (d.baseVec (datIndex v) + c) else datIndex v) =
      datIndex (next (IsNode words) v c) := by
  by_cases hnode : IsNode words (v ++ [c])
  · rw [if_pos (h.hasChild_of_node hnode), next_of_mem hnode, (h.child v c hnode).1]
  · obtain rfl : v = [] := hstop.resolve_right hnode
    rw [next_nil_of_not_mem hnode]
    split
    · rename_i hchild
      -- the root's own cell is taken for a child
      have hself := ((h.node_of_hasChild hv hc hchild).resolve_left hnode).2
      rw [hself, h.root]
    · rfl

theorem Automaton.advance_spec (h : Automaton words d datIndex) {c : Nat}
    (hc : c ≤ kMaxValOfCharCode) (fuel : Nat) (v : Path) (hv : IsNode words v)
    (hfuel : v.length ≤ fuel) :
    d.advance c fuel (datIndex v) = some (datIndex (next (IsNode words) v c)) := by
  have hT := isNode_prefixClosed words
  have hstop : ∀ v, IsNode words v → (v = [] ∨ IsNode words (v ++ [c])) →
      (DoubleArrayTrie.rootIndex (datIndex v) || d.hasChild (datIndex v) c) = true := by
    intro v _ hor
    rcases hor with rfl | hnode
    · rw [h.root]
      rfl
    · rw [h.hasChild_of_node hnode, Bool.or_true]
  unfold DoubleArrayTrie.advance
  induction fuel generalizing v with
  | zero =>
    have hnil : v = [] := List.length_eq_zero_iff.mp (Nat.le_zero.mp hfuel)
    rw [DoubleArrayTrie.failLoop, if_pos (hstop v hv (.inl hnil)), Option.map_some,
      h.stop hv hc (.inl hnil)]
  | succ fuel ih =>
    by_cases hor : v = [] ∨ IsNode words (v ++ [c])
    · rw [DoubleArrayTrie.failLoop, if_pos (hstop v hv hor), Option.map_some, h.stop hv hc hor]
    · obtain ⟨hne, hnode⟩ := not_or.mp hor
      have hgo : ¬(DoubleArrayTrie.rootIndex (datIndex v) || d.hasChild (datIndex v) c) = true := by
        intro hgo
        rcases Bool.or_eq_true_iff.mp hgo with hroot | hchild
        · exact hne (h.root_iff v hv (by simpa [DoubleArrayTrie.rootIndex] using hroot))
        · rcases h.node_of_hasChild hv hc hchild with hnode' | ⟨hnil, -⟩
          · exact hnode hnode'
          · exact hne hnil
      have hlt := failOf_length_lt (T := IsNode words) hne
      rw [DoubleArrayTrie.failLoop, if_neg hgo, h.fail v hv hne, next_of_not_mem hT hne hnode]
      exact ih _ (longest_mem hT _) (by omega)

end

/-! ## Ranges -/

/-- A byte is in one of the ranges. -/
def Covers (infos : List MatchedInfo) (i : Nat) : Prop :=
  ∃ m ∈ infos, m.index ≤ i ∧ i < m.index + m.size

/-- The ranges are not empty and end where the search is, or before. -/
def Within (infos : List MatchedInfo) (stop : Nat) : Prop :=
  ∀ m ∈ infos, 1 ≤ m.size ∧ m.index + m.size ≤ stop

theorem Within.mono {infos : List MatchedInfo} {m n : Nat} (h : Within infos m) (hmn : m ≤ n) :
    Within infos n := fun x hx => ⟨(h x hx).1, (h x hx).2.trans hmn⟩

theorem covers_append {xs ys : List MatchedInfo} {i : Nat} :
    Covers (xs ++ ys) i ↔ Covers xs i ∨ Covers ys i := by
  unfold Covers
  simp only [List.mem_append, or_and_right, exists_or]

theorem covers_singleton {m : MatchedInfo} {i : Nat} :
    Covers [m] i ↔ m.index ≤ i ∧ i < m.index + m.size := by
  simp [Covers]

/-- A match covers its own bytes and takes none away: it replaces a range only if it covers it. -/
theorem addMatch_spec {searchChI len size : Nat} {infos : List MatchedInfo}
    (h : Within infos searchChI) (hlen : 1 ≤ len) (hsize : size ≤ searchChI + len)
    (hbound : searchChI + len < 2 ^ 64) :
    Within (addMatch searchChI len size infos) (searchChI + len) ∧
      ∀ i, Covers (addMatch searchChI len size infos) i ↔
        Covers infos i ∨ searchChI + len - size ≤ i ∧ i < searchChI + len := by
  have hle := h.mono (Nat.le_add_right searchChI len)
  unfold addMatch
  by_cases hzero : size = 0
  · rw [if_pos hzero]
    refine ⟨hle, fun i => ⟨.inl, ?_⟩⟩
    rintro (hi | hi)
    · exact hi
    · omega
  · have hstart : sizeSub (searchChI + (len - 1)) (size - 1) = searchChI + len - size := by
      unfold sizeSub
      rw [if_pos (by omega)]
      omega
    rw [if_neg hzero, hstart]
    have hnew : ∀ i, Covers [⟨searchChI + len - size, size⟩] i ↔
        searchChI + len - size ≤ i ∧ i < searchChI + len := by
      intro i
      rw [covers_singleton]
      dsimp only
      omega
    have hwithin : ∀ xs, Within xs (searchChI + len) →
        Within (xs ++ [⟨searchChI + len - size, size⟩]) (searchChI + len) := by
      intro xs hxs m hm
      rcases List.mem_append.mp hm with hm | hm
      · exact hxs m hm
      · obtain rfl := List.mem_singleton.mp hm
        dsimp only
        omega
    cases hlast : infos.getLast? with
    | none =>
      refine ⟨hwithin infos hle, fun i => ?_⟩
      rw [covers_append, hnew]
    | some front =>
      obtain ⟨init, rfl⟩ := List.getLast?_eq_some_iff.mp hlast
      dsimp only
      split
      · rename_i hcover
        rw [List.dropLast_concat]
        refine ⟨hwithin init fun m hm => hle m (List.mem_append_left _ hm), fun i => ?_⟩
        have hfront := h front (by simp)
        rw [u64_of_lt (by omega)] at hcover
        rw [covers_append, covers_append, hnew, covers_singleton]
        constructor
        · rintro (hi | hi)
          · exact .inl (.inl hi)
          · exact .inr hi
        · rintro ((hi | hi) | hi)
          · exact .inl hi
          · exact .inr (by omega)
          · exact .inr hi
      · refine ⟨hwithin _ hle, fun i => ?_⟩
        rw [covers_append, hnew]

end CdsGuard.DoubleArray
