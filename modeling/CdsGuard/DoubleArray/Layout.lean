import CdsGuard.DoubleArray.FailureLinks
import CdsGuard.DoubleArray.ProperBase

/-
  The third stage of `DoubleArrayTrie::build`: a depth-first walk over the pointer trie places
  the children of each node under a base. An entry of the walk's stack holds a node and how many
  of its children were walked to; a base of 0 is taken to say that the children have no cells yet.

  But a base can be 0 for children that have cells. The walk then comes back to the node from its
  first child, appends all children to `child_vec_` once more and moves them to other cells, and
  of the children only the first half, each of them twice, is walked to. A step that finds such
  an entry on the stack is not `Clean`.

  Proved: what holds of the arrays while children are still to be placed (`Laid`) is kept when the
  children of a node get the cells of a base that the search found (`Laid.place`). `LayoutWalk`
  has the rounds of the walk.
-/

namespace CdsGuard.DoubleArray

open CdsGuard.Lib DoubleArrayTrie

structure SetIndexEntry where
  node : Path
  childIndex : Nat
  childVec : List Nat

/-- The arrays, `dat_index_` of the nodes, and `set_index_entry_stk` with its top first. -/
structure LayoutState where
  array : DoubleArrayTrie
  datIndex : Path → Nat
  stack : List SetIndexEntry

/-- One round of the loop that gives the children of `node` their cells. -/
def setChild (matched : Path → Nat) (node : Path) (index : Nat)
    (s : DoubleArrayTrie × (Path → Nat)) (code : Nat) : DoubleArrayTrie × (Path → Nat) :=
  let next := u32 (s.1.baseVec index + code)
  let array := { s.1 with
    checkVec := Function.update s.1.checkVec next index
    outputSizeVec := Function.update s.1.outputSizeVec next (matched (node ++ [code])) }
  (array.increaseBlockUsedCount next, Function.update s.2 (node ++ [code]) next)

/-- The branch for a base of 0, with the search for a base cut off after `tries` rounds. -/
def setChildrenWithin (tries : Nat) (order : MapOrder) (t : Trie) (matched : Path → Nat)
    (s : LayoutState) (entry : SetIndexEntry) :
    Option (DoubleArrayTrie × (Path → Nat) × SetIndexEntry) :=
  let index := s.datIndex entry.node
  let childVec := (entry.childVec ++ order.visit entry.node (t.children entry.node)).insertionSort
    (· ≤ ·)
  match s.array.getProperBase childVec tries with
  | none => none
  | some (base, array) =>
    let array := { array with baseVec := Function.update array.baseVec index base }
    let (array, datIndex) := childVec.foldl (setChild matched entry.node index) (array, s.datIndex)
    some (array, datIndex, { entry with childVec })

/-- One round of the walk, with an entry on top of the rest of the stack. -/
def layoutStepWithin (tries : Nat) (order : MapOrder) (t : Trie) (matched : Path → Nat)
    (s : LayoutState) (entry : SetIndexEntry) (rest : List SetIndexEntry) : Option LayoutState :=
  if entry.childIndex ≠ (t.children entry.node).length then
    let set :=
      if s.array.baseVec (s.datIndex entry.node) = 0 then
        setChildrenWithin tries order t matched s entry
      else some (s.array, s.datIndex, entry)
    match set with
    | none => none
    | some (array, datIndex, entry) =>
      match entry.childVec[entry.childIndex]? with
      | none => none
      | some code => some
        { array
          datIndex
          stack := ⟨entry.node ++ [code], 0, []⟩ ::
            { entry with childIndex := entry.childIndex + 1 } :: rest }
  else some { s with stack := rest }

/-- As long as cells are numbered by 32 bits, a search for a base never takes more than four
    rounds. -/
def setChildren (order : MapOrder) (t : Trie) (matched : Path → Nat) (s : LayoutState)
    (entry : SetIndexEntry) : Option (DoubleArrayTrie × (Path → Nat) × SetIndexEntry) :=
  setChildrenWithin 4 order t matched s entry

def layoutStep (order : MapOrder) (t : Trie) (matched : Path → Nat) (s : LayoutState)
    (entry : SetIndexEntry) (rest : List SetIndexEntry) : Option LayoutState :=
  layoutStepWithin 4 order t matched s entry rest

/-- The walk, cut off after `fuel` rounds. -/
def layoutLoop (order : MapOrder) (t : Trie) (matched : Path → Nat) :
    Nat → LayoutState → Option LayoutState
  | 0, s => if s.stack.isEmpty then some s else none
  | fuel + 1, s =>
    match s.stack with
    | [] => some s
    | entry :: rest =>
      match layoutStep order t matched s entry rest with
      | none => none
      | some s' => layoutLoop order t matched fuel s'

/-- The arrays with the root in its cell. -/
def placeRoot (d : DoubleArrayTrie) : DoubleArrayTrie :=
  { d with
    checkVec := Function.update d.checkVec kRootIndex 1
    failVec := Function.update d.failVec kRootIndex 0
    blockUsedSizeVec := Function.update d.blockUsedSizeVec 0 (u32 (d.blockUsedSizeVec 0 + 1)) }

/-- The start of the walk. -/
def layoutStart (d : DoubleArrayTrie) : LayoutState where
  array := placeRoot d
  datIndex := Function.update (fun _ => 0) [] kRootIndex
  stack := [⟨[], 0, []⟩]

/-- The step does not place the children of a node again, and the cells stay numbered by
    32 bits. -/
def Clean (t : Trie) (s : LayoutState) (entry : SetIndexEntry) : Prop :=
  s.array.elementCapacity + 12288 ≤ 2 ^ 32 ∧
    (0 < entry.childIndex → entry.childIndex < (t.children entry.node).length →
      s.array.baseVec (s.datIndex entry.node) ≠ 0)

instance (t : Trie) (s : LayoutState) (entry : SetIndexEntry) : Decidable (Clean t s entry) :=
  inferInstanceAs (Decidable (_ ∧ (_ → _ → _)))

/-- The steps of the walk are clean. -/
def cleanLayout (order : MapOrder) (t : Trie) (matched : Path → Nat) : Nat → LayoutState → Bool
  | 0, _ => true
  | fuel + 1, s =>
    match s.stack with
    | [] => true
    | entry :: rest =>
      decide (Clean t s entry) &&
        match layoutStep order t matched s entry rest with
        | none => true
        | some s' => cleanLayout order t matched fuel s'

/-! ## The cells of the children -/

section

variable {matched : Path → Nat} {node : Path} {index base : Nat}

/-- The children of a node are in the cells under its base, and all else is as before. -/
structure Placed (matched : Path → Nat) (node : Path) (index base : Nat) (codes : List Nat)
    (s s' : DoubleArrayTrie × (Path → Nat)) : Prop where
  members : s'.1 = { s.1 with
    checkVec := s'.1.checkVec
    outputSizeVec := s'.1.outputSizeVec
    blockUsedSizeVec := s'.1.blockUsedSizeVec }
  child : ∀ c ∈ codes, s'.1.checkVec (u32 (base + c)) = index ∧
    s'.1.outputSizeVec (u32 (base + c)) = matched (node ++ [c]) ∧
    s'.2 (node ++ [c]) = u32 (base + c)
  cell : ∀ i, (∀ c ∈ codes, i ≠ u32 (base + c)) →
    s'.1.checkVec i = s.1.checkVec i ∧ s'.1.outputSizeVec i = s.1.outputSizeVec i
  block : ∀ b, (∀ c ∈ codes, b ≠ getBlockIndex (u32 (base + c))) →
    s'.1.blockUsedSizeVec b = s.1.blockUsedSizeVec b
  other : ∀ v, (∀ c ∈ codes, v ≠ node ++ [c]) → s'.2 v = s.2 v

theorem setChild_foldl (codes : List Nat) (hcells : (codes.map fun c => u32 (base + c)).Nodup)
    (s : DoubleArrayTrie × (Path → Nat)) (hbase : s.1.baseVec index = base) :
    Placed matched node index base codes s (codes.foldl (setChild matched node index) s) := by
  induction codes generalizing s with
  | nil =>
    exact ⟨rfl, fun c hc => absurd hc (by simp), fun _ _ => ⟨rfl, rfl⟩, fun _ _ => rfl,
      fun _ _ => rfl⟩
  | cons code codes ih =>
    obtain ⟨hcode, hcells⟩ := List.nodup_cons.mp hcells
    have hne : ∀ c ∈ codes, u32 (base + code) ≠ u32 (base + c) := by
      intro c hc heq
      exact hcode (List.mem_map.mpr ⟨c, hc, heq.symm⟩)
    have h := ih hcells (setChild matched node index s code) hbase
    rw [List.foldl_cons]
    generalize codes.foldl (setChild matched node index) (setChild matched node index s code) = s'
      at h
    constructor
    · exact h.members
    · intro c hc
      rcases List.mem_cons.mp hc with rfl | hc
      · obtain ⟨hcheck, houtput⟩ := h.cell (u32 (base + c)) hne
        have hdat := h.other (node ++ [c]) fun d hd heq =>
          hne d hd (by rw [show c = d by simpa using heq])
        rw [hcheck, houtput, hdat]
        unfold setChild
        rw [hbase]
        exact ⟨Function.update_self .., Function.update_self .., Function.update_self ..⟩
      · exact h.child c hc
    · intro i hi
      obtain ⟨hcheck, houtput⟩ := h.cell i fun c hc => hi c (List.mem_cons_of_mem code hc)
      rw [hcheck, houtput]
      unfold setChild
      rw [hbase]
      have hi := hi code List.mem_cons_self
      exact ⟨Function.update_of_ne hi .., Function.update_of_ne hi ..⟩
    · intro b hb
      rw [h.block b fun c hc => hb c (List.mem_cons_of_mem code hc)]
      unfold setChild
      rw [hbase]
      exact Function.update_of_ne (hb code List.mem_cons_self) ..
    · intro v hv
      rw [h.other v fun c hc => hv c (List.mem_cons_of_mem code hc)]
      exact Function.update_of_ne (hv code List.mem_cons_self) ..

end

/-! ## The arrays during the walk -/

section

variable {words : List Path} {matched : Path → Nat}

/-- The arrays when the children of the nodes in `todo` are still to be placed. A node without a
    cell has `dat_index_` 0. -/
structure Laid (words : List Path) (matched : Path → Nat) (d : DoubleArrayTrie)
    (datIndex : Path → Nat) (todo : List Path) : Prop where
  wf : d.Wf
  root : datIndex [] = kRootIndex
  rootCheck : d.checkVec kRootIndex = kRootIndex
  rootOutput : d.outputSizeVec kRootIndex = 0
  node : ∀ v, datIndex v ≠ 0 → IsNode words v
  bound : ∀ v, datIndex v < d.elementCapacity
  inj : ∀ u v, datIndex u ≠ 0 → datIndex u = datIndex v → u = v
  child : ∀ v c, datIndex (v ++ [c]) ≠ 0 → datIndex v ≠ 0 ∧
    u32 (d.baseVec (datIndex v) + c) = datIndex (v ++ [c]) ∧
    d.checkVec (datIndex (v ++ [c])) = datIndex v ∧
    d.outputSizeVec (datIndex (v ++ [c])) = matched (v ++ [c])
  used : ∀ i, d.checkVec i ≠ 0 → i = kRootIndex ∨ i ≠ 0 ∧ ∃ v c, datIndex (v ++ [c]) = i
  empty : ∀ i, d.checkVec i = 0 → d.baseVec i = 0
  bare : ∀ v, datIndex v ≠ 0 → (∀ c, datIndex (v ++ [c]) = 0) → d.baseVec (datIndex v) = 0
  nodup : todo.Nodup
  waiting : ∀ v ∈ todo, datIndex v ≠ 0 ∧ ∀ c, datIndex (v ++ [c]) = 0
  complete : ∀ v c, datIndex v ≠ 0 → v ∉ todo → IsNode words (v ++ [c]) → datIndex (v ++ [c]) ≠ 0

variable {d : DoubleArrayTrie} {datIndex : Path → Nat} {v : Path} {todo : List Path}

theorem Laid.inUse (h : Laid words matched d datIndex todo) {u : Path} (hu : datIndex u ≠ 0) :
    d.checkVec (datIndex u) ≠ 0 := by
  rcases List.eq_nil_or_concat' u with rfl | ⟨w, c, rfl⟩
  · rw [h.root, h.rootCheck]
    decide
  · obtain ⟨hw, -, hcheck, -⟩ := h.child w c hu
    rwa [hcheck]

/-- A node without children needs no base. -/
theorem Laid.leaf (h : Laid words matched d datIndex (v :: todo))
    (hleaf : ∀ c, ¬IsNode words (v ++ [c])) : Laid words matched d datIndex todo :=
  { h with
    nodup := (List.nodup_cons.mp h.nodup).2
    waiting := fun u hu => h.waiting u (List.mem_cons_of_mem v hu)
    complete := by
      intro u c hdat hu hnode
      refine h.complete u c hdat (fun hmem => ?_) hnode
      rcases List.mem_cons.mp hmem with rfl | hmem
      · exact hleaf c hnode
      · exact hu hmem }

theorem Placed.wf {codes : List Nat} (hcodes : Codes codes) {d₁ : DoubleArrayTrie} {base : Nat}
    (hproper : Proper codes d d₁ base) {baseVec : Nat → Nat} {index : Nat}
    {s' : DoubleArrayTrie × (Path → Nat)}
    (hs' : Placed matched v index base codes ({ d₁ with baseVec := baseVec }, datIndex) s') :
    s'.1.Wf := by
  have hw := hproper.wf
  have hcap : s'.1.elementCapacity = d₁.elementCapacity := by rw [hs'.members]
  rw [hs'.members]
  refine { hw with root := ?_, freshCheck := ?_, freshUsed := ?_ }
  · show s'.1.checkVec kRootIndex ≠ 0
    rw [(hs'.cell kRootIndex fun c hc heq => ?_).1]
    · exact hw.root
    · have := (hproper.cell hcodes hc).1
      rw [← heq] at this
      exact absurd this (by decide)
  · intro i hi
    show s'.1.checkVec i = 0
    rw [(hs'.cell i fun c hc heq => ?_).1]
    · exact hw.freshCheck i hi
    · have := (hproper.cell hcodes hc).2.1
      rw [← heq] at this
      exact absurd hi (Nat.not_le.mpr this)
  · intro b hb
    show s'.1.blockUsedSizeVec b = 0
    rw [hs'.block b fun c hc heq => ?_]
    · exact hw.freshUsed b hb
    · have hlt := (hproper.cell hcodes hc).2.1
      rw [hw.capacity] at hlt
      have := getBlockIndex_lt hlt
      rw [← heq] at this
      exact absurd hb (Nat.not_le.mpr this)

/-- The children of a node, in the cells of a base that the search found. -/
theorem Laid.place (h : Laid words matched d datIndex (v :: todo)) {codes : List Nat}
    (hcodes : Codes codes) (hnodup : codes.Nodup) (hne : codes ≠ [])
    (hmem : ∀ c, c ∈ codes ↔ IsNode words (v ++ [c])) {d₁ : DoubleArrayTrie} {base : Nat}
    (hproper : Proper codes d d₁ base) {d' : DoubleArrayTrie} {datIndex' : Path → Nat}
    (hs' : Placed matched v (datIndex v) base codes
      ({ d₁ with baseVec := Function.update d₁.baseVec (datIndex v) base }, datIndex)
      (d', datIndex')) :
    Laid words matched d' datIndex' ((codes.map fun c => v ++ [c]) ++ todo) := by
  have hg := hproper.grown
  obtain ⟨hvtodo, htodo⟩ := List.nodup_cons.mp h.nodup
  obtain ⟨hv, hbare⟩ := h.waiting v List.mem_cons_self
  have hwf : d'.Wf := hs'.wf hcodes hproper
  have hcap : d'.elementCapacity = d₁.elementCapacity := by
    have := congrArg DoubleArrayTrie.elementCapacity hs'.members
    exact this
  have hbaseVec : d'.baseVec = Function.update d.baseVec (datIndex v) base := by
    have := congrArg DoubleArrayTrie.baseVec hs'.members
    rw [← hg.base]
    exact this
  -- the new cells are not those of placed nodes
  have hcell : ∀ c ∈ codes, 2 ≤ u32 (base + c) ∧ u32 (base + c) < d₁.elementCapacity ∧
      d.checkVec (u32 (base + c)) = 0 := fun c hc => hproper.cell hcodes hc
  have hfree : ∀ u, datIndex u ≠ 0 → ∀ c ∈ codes, datIndex u ≠ u32 (base + c) := by
    intro u hu c hc heq
    exact h.inUse hu (by rw [heq]; exact (hcell c hc).2.2)
  have hroot : ∀ c ∈ codes, kRootIndex ≠ u32 (base + c) := by
    intro c hc heq
    have := (hcell c hc).1
    rw [← heq] at this
    exact absurd this (by decide)
  -- what the placing wrote
  have hnew : ∀ c ∈ codes, d'.checkVec (u32 (base + c)) = datIndex v ∧
      d'.outputSizeVec (u32 (base + c)) = matched (v ++ [c]) ∧
      datIndex' (v ++ [c]) = u32 (base + c) := hs'.child
  have hkeep : ∀ u, datIndex u ≠ 0 → datIndex' u = datIndex u := by
    intro u hu
    refine hs'.other u fun c _ heq => hu ?_
    rw [heq]
    exact hbare c
  have hcases : ∀ u, (∃ c ∈ codes, u = v ++ [c] ∧ datIndex' u = u32 (base + c)) ∨
      ((∀ c ∈ codes, u ≠ v ++ [c]) ∧ datIndex' u = datIndex u) := by
    intro u
    by_cases hu : ∀ c ∈ codes, u ≠ v ++ [c]
    · exact .inr ⟨hu, hs'.other u hu⟩
    · obtain ⟨c, hc⟩ := not_forall.mp hu
      obtain ⟨hcm, hu'⟩ := Classical.not_imp.mp hc
      obtain rfl := not_not.mp hu'
      exact .inl ⟨c, hcm, rfl, (hnew c hcm).2.2⟩
  have hcheck : ∀ i, (∀ c ∈ codes, i ≠ u32 (base + c)) → d'.checkVec i = d.checkVec i ∧
      d'.outputSizeVec i = d.outputSizeVec i := by
    intro i hi
    rw [← hg.check, ← hg.output]
    exact hs'.cell i hi
  have hbase : ∀ i, i ≠ datIndex v → d'.baseVec i = d.baseVec i := by
    intro i hi
    rw [hbaseVec, Function.update_of_ne hi]
  have hself : d'.baseVec (datIndex v) = base := by rw [hbaseVec, Function.update_self]
  refine { wf := hwf, root := ?_, rootCheck := ?_, rootOutput := ?_, node := ?_, bound := ?_
           inj := ?_, child := ?_, used := ?_, empty := ?_, bare := ?_, nodup := ?_
           waiting := ?_, complete := ?_ }
  · rw [hkeep [] (by rw [h.root]; decide), h.root]
  · rw [(hcheck _ hroot).1, h.rootCheck]
  · rw [(hcheck _ hroot).2, h.rootOutput]
  · intro u hu
    rcases hcases u with ⟨c, hc, rfl, -⟩ | ⟨-, heq⟩
    · exact (hmem c).mp hc
    · rw [heq] at hu
      exact h.node u hu
  · intro u
    rw [hcap]
    rcases hcases u with ⟨c, hc, rfl, heq⟩ | ⟨-, heq⟩
    · rw [heq]
      exact (hcell c hc).2.1
    · rw [heq]
      exact Nat.lt_of_lt_of_le (h.bound u) hg.capacity
  · intro u w hu huw
    rcases hcases u with ⟨c, hc, rfl, hu'⟩ | ⟨-, hu'⟩ <;>
      rcases hcases w with ⟨e, he, rfl, hw'⟩ | ⟨-, hw'⟩
    · rw [hu', hw'] at huw
      rw [hproper.cell_inj hcodes hc he huw]
    · rw [hu', hw'] at huw
      rw [hu', huw] at hu
      exact absurd huw.symm (hfree w hu c hc)
    · rw [hu', hw'] at huw
      rw [hu'] at hu
      exact absurd huw (hfree u hu e he)
    · rw [hu', hw'] at huw
      rw [hu'] at hu
      exact h.inj u w hu huw
  · intro u c hu
    rcases hcases (u ++ [c]) with ⟨e, he, heq, hu'⟩ | ⟨-, hu'⟩
    · obtain ⟨rfl, hce⟩ := List.append_inj' heq rfl
      obtain rfl : c = e := by simpa using hce
      obtain ⟨h1, h2, h3⟩ := hnew c he
      rw [hkeep u hv, h3, hself]
      exact ⟨hv, rfl, h1, h2⟩
    · rw [hu'] at hu ⊢
      obtain ⟨h1, h2, h3, h4⟩ := h.child u c hu
      have huv : datIndex u ≠ datIndex v := by
        intro heq
        rw [h.inj u v h1 heq] at hu
        exact hu (hbare c)
      obtain ⟨h5, h6⟩ := hcheck _ (hfree _ hu)
      rw [hkeep u h1, hbase _ huv, h5, h6]
      exact ⟨h1, h2, h3, h4⟩
  · intro i hi
    by_cases hcell' : ∃ c ∈ codes, i = u32 (base + c)
    · obtain ⟨c, hc, rfl⟩ := hcell'
      refine .inr ⟨?_, v, c, (hnew c hc).2.2⟩
      have := (hcell c hc).1
      omega
    · rw [(hcheck i fun c hc heq => hcell' ⟨c, hc, heq⟩).1] at hi
      rcases h.used i hi with hi | ⟨hi, u, c, hu⟩
      · exact .inl hi
      · refine .inr ⟨hi, u, c, ?_⟩
        rw [hkeep _ (by rw [hu]; exact hi), hu]
  · intro i hi
    by_cases hcell' : ∃ c ∈ codes, i = u32 (base + c)
    · obtain ⟨c, hc, rfl⟩ := hcell'
      rw [(hnew c hc).1] at hi
      exact absurd hi hv
    · rw [(hcheck i fun c hc heq => hcell' ⟨c, hc, heq⟩).1] at hi
      rw [hbase i, h.empty i hi]
      rintro rfl
      exact h.inUse hv hi
  · intro u hu hchildren
    rcases hcases u with ⟨c, hc, rfl, heq⟩ | ⟨-, heq⟩
    · rw [heq, hbase _ fun hcv => hfree v hv c hc hcv.symm]
      exact h.empty _ (hcell c hc).2.2
    · rw [heq] at hu ⊢
      rcases eq_or_ne u v with rfl | huv
      · obtain ⟨c, hc⟩ := List.exists_mem_of_ne_nil codes hne
        have := hchildren c
        rw [(hnew c hc).2.2] at this
        have := (hcell c hc).1
        omega
      · rw [hbase _ fun heq' => huv (h.inj u v hu heq')]
        refine h.bare u hu fun c => ?_
        by_contra hc
        exact hc (by rw [← hkeep _ hc]; exact hchildren c)
  · refine List.Nodup.append ?_ htodo ?_
    · exact hnodup.map fun c e heq => by simpa using heq
    · intro u hu hu'
      obtain ⟨c, hc, rfl⟩ := List.mem_map.mp hu
      exact (h.waiting _ (List.mem_cons_of_mem v hu')).1 (hbare c)
  · intro u hu
    have hnochild : ∀ c, datIndex (u ++ [c]) = 0 ∧ u ≠ v → datIndex' (u ++ [c]) = 0 := by
      rintro c ⟨hzero, huv⟩
      exact (hs'.other (u ++ [c]) fun e _ heq => huv (List.append_inj' heq rfl).1).trans hzero
    rcases List.mem_append.mp hu with hu₁ | hu₁
    · obtain ⟨c, hc, rfl⟩ := List.mem_map.mp hu₁
      refine ⟨?_, fun e => hnochild e ⟨?_, by simp⟩⟩
      · have := (hcell c hc).1
        rw [(hnew c hc).2.2]
        omega
      · by_contra he
        exact (h.child _ e he).1 (hbare c)
    · obtain ⟨hplaced, hnone⟩ := h.waiting u (List.mem_cons_of_mem v hu₁)
      refine ⟨by rwa [hkeep u hplaced], fun e => hnochild e ⟨hnone e, ?_⟩⟩
      rintro rfl
      exact hvtodo hu₁
  · intro u c hu hutodo hnode
    rcases hcases u with ⟨e, he, rfl, -⟩ | ⟨-, heq⟩
    · exact absurd (List.mem_append_left _ (List.mem_map_of_mem he)) hutodo
    · rw [heq] at hu
      rcases eq_or_ne u v with rfl | huv
      · have hc := (hmem c).mpr hnode
        have := (hcell c hc).1
        rw [(hnew c hc).2.2]
        omega
      · have := h.complete u c hu (fun hmem' => ?_) hnode
        · rwa [hkeep _ this]
        · rcases List.mem_cons.mp hmem' with heq' | hmem'
          · exact huv heq'
          · exact hutodo (List.mem_append_right _ hmem')

end

end CdsGuard.DoubleArray
