import CdsGuard.DoubleArray.Layout

/-
  The rounds of the walk that places the nodes. The stack says which nodes still have children to
  be placed (`SetIndexEntry.pending`): the node of an entry that is new, or the children that the
  walk has yet to come to.

  Proved: a clean round keeps the invariant and lowers a bound on the rounds left
  (`layoutStep_spec`), so that a walk of clean rounds ends and leaves every node of the trie in a
  cell of its own, with no other cell in use than these and the root's (`layoutLoop_spec`).
-/

namespace CdsGuard.DoubleArray

open CdsGuard.Lib DoubleArrayTrie

section

variable {words : List Path} {matched : Path → Nat}

/-! ## One round -/

/-- The children of the entry's node that the walk has yet to come to. -/
def SetIndexEntry.remaining (t : Trie) (e : SetIndexEntry) : List Nat :=
  if e.childIndex = 0 then t.children e.node else e.childVec.drop e.childIndex

/-- The nodes at the entry whose children are to be placed. -/
def SetIndexEntry.pending (e : SetIndexEntry) : List Path :=
  if e.childIndex = 0 then [e.node]
  else (e.childVec.drop e.childIndex).map fun c => e.node ++ [c]

/-- A bound on the rounds that an entry is still good for. -/
def SetIndexEntry.rounds (words : List Path) (t : Trie) (e : SetIndexEntry) : Nat :=
  1 + ((e.remaining t).map fun c => 2 * weight words (e.node ++ [c])).sum

/-- `child_vec_` has the children of the node once the first was walked to. -/
structure SetIndexEntry.Ok (t : Trie) (e : SetIndexEntry) : Prop where
  index_le : e.childIndex ≤ (t.children e.node).length
  start : e.childIndex = 0 → e.childVec = []
  perm : e.childIndex ≠ 0 → e.childVec.Perm (t.children e.node)

/-- What holds before each round of the walk. -/
structure LayoutInv (words : List Path) (t : Trie) (matched : Path → Nat) (s : LayoutState) :
    Prop where
  laid : Laid words matched s.array s.datIndex (s.stack.flatMap SetIndexEntry.pending)
  entry : ∀ e ∈ s.stack, e.Ok t

variable {t : Trie}

theorem Trie.Edges.codes (ht : t.Edges words) (hwords : ∀ w ∈ words, Codes w) (v : Path) :
    Codes (t.children v) := by
  intro c hc
  obtain ⟨w, hw, hpre⟩ := (ht.mem_iff v c).mp hc
  exact hwords w hw c (hpre.subset (by simp))

/-- An entry for a child that is pushed costs less than the child is counted for. -/
theorem rounds_child (ht : t.Edges words) {v : Path} {c : Nat} (hc : c ∈ t.children v) :
    SetIndexEntry.rounds words t ⟨v ++ [c], 0, []⟩ < 2 * weight words (v ++ [c]) := by
  have hlt := children_weight_lt words (ht.nodup (v ++ [c])) ((ht.mem_iff v c).mp hc)
  unfold SetIndexEntry.rounds SetIndexEntry.remaining
  rw [if_pos rfl, List.sum_map_mul_left]
  show 1 + 2 * ((t.children (v ++ [c])).map fun d => weight words (v ++ [c] ++ [d])).sum < _
  omega

/-- The first time at a node, its children are placed. -/
theorem setChildren_spec (ht : t.Edges words) (hwords : ∀ w ∈ words, Codes w) (order : MapOrder)
    {s : LayoutState} {entry : SetIndexEntry} {todo : List Path}
    (h : Laid words matched s.array s.datIndex (entry.node :: todo))
    (hroom : s.array.elementCapacity + 12288 ≤ 2 ^ 32) (hvec : entry.childVec = [])
    (hne : t.children entry.node ≠ []) :
    ∃ array datIndex childVec,
      setChildren order t matched s entry = some (array, datIndex, { entry with childVec }) ∧
      childVec.Perm (t.children entry.node) ∧
      Laid words matched array datIndex
        ((childVec.map fun c => entry.node ++ [c]) ++ todo) := by
  have hperm : ((entry.childVec ++ order.visit entry.node (t.children entry.node)).insertionSort
      (· ≤ ·)).Perm (t.children entry.node) := by
    rw [hvec, List.nil_append]
    exact (List.perm_insertionSort _ _).trans (order.perm _ _)
  unfold setChildren setChildrenWithin
  dsimp only
  generalize (entry.childVec ++ order.visit entry.node (t.children entry.node)).insertionSort
    (· ≤ ·) = childVec at hperm
  have hcodes : Codes childVec := fun c hc =>
    ht.codes hwords entry.node c (hperm.mem_iff.mp hc)
  have hnodup : childVec.Nodup := hperm.nodup_iff.mpr (ht.nodup _)
  obtain ⟨base, d₁, hfound, hproper⟩ := getProperBase_spec hcodes h.wf hroom
  rw [hfound]
  dsimp only
  have hcells : (childVec.map fun c => u32 (base + c)).Nodup :=
    hnodup.map_on fun c hc e he heq => hproper.cell_inj hcodes hc he heq
  have hself : Function.update d₁.baseVec (s.datIndex entry.node) base (s.datIndex entry.node) =
    base := Function.update_self ..
  refine ⟨_, _, childVec, rfl, hperm, ?_⟩
  refine h.place hcodes hnodup ?_ (fun c => ?_) hproper (setChild_foldl childVec hcells _ hself)
  · intro hnil
    rw [hnil] at hperm
    exact hne (List.nil_perm.mp hperm)
  · rw [hperm.mem_iff, ht.mem_children]

/-- The walk goes on to the next child. -/
theorem push_spec (ht : t.Edges words) {entry : SetIndexEntry} {childVec : List Nat}
    (hperm : childVec.Perm (t.children entry.node))
    (hlt : entry.childIndex < (t.children entry.node).length) {array : DoubleArrayTrie}
    {datIndex : Path → Nat} {rest : List SetIndexEntry}
    (hlaid : Laid words matched array datIndex
      (((childVec.drop entry.childIndex).map fun c => entry.node ++ [c]) ++
        rest.flatMap SetIndexEntry.pending))
    (hrest : ∀ e ∈ rest, e.Ok t) :
    ∃ code, childVec[entry.childIndex]? = some code ∧
      let stack := ⟨entry.node ++ [code], 0, []⟩ ::
        { entry with childVec, childIndex := entry.childIndex + 1 } :: rest
      LayoutInv words t matched ⟨array, datIndex, stack⟩ ∧
      (stack.map (SetIndexEntry.rounds words t)).sum <
        1 +
          ((childVec.drop entry.childIndex).map fun c => 2 * weight words (entry.node ++ [c])).sum +
          (rest.map (SetIndexEntry.rounds words t)).sum := by
  have hlen : entry.childIndex < childVec.length := by rwa [hperm.length_eq]
  have hdrop : childVec.drop entry.childIndex =
      childVec[entry.childIndex] :: childVec.drop (entry.childIndex + 1) :=
    List.drop_eq_getElem_cons hlen
  refine ⟨childVec[entry.childIndex], List.getElem?_eq_getElem hlen, ⟨?_, ?_⟩, ?_⟩
  · rw [hdrop] at hlaid
    exact hlaid
  · intro e he
    rcases List.mem_cons.mp he with rfl | he
    · exact ⟨Nat.zero_le _, fun _ => rfl, fun hne => absurd rfl hne⟩
    · rcases List.mem_cons.mp he with rfl | he
      · exact ⟨hlt, fun hzero => absurd hzero (Nat.succ_ne_zero _), fun _ => hperm⟩
      · exact hrest e he
  · have hchild := rounds_child ht (v := entry.node)
      (hperm.mem_iff.mp (List.getElem_mem hlen))
    rw [hdrop, List.map_cons, List.map_cons, List.map_cons, List.sum_cons, List.sum_cons,
      List.sum_cons]
    have hself : SetIndexEntry.rounds words t
        { entry with childVec, childIndex := entry.childIndex + 1 } =
        1 + ((childVec.drop (entry.childIndex + 1)).map fun c =>
          2 * weight words (entry.node ++ [c])).sum := rfl
    rw [hself]
    omega

theorem layoutStep_spec (ht : t.Edges words) (hwords : ∀ w ∈ words, Codes w) (order : MapOrder)
    {s : LayoutState} {entry : SetIndexEntry} {rest : List SetIndexEntry}
    (hstack : s.stack = entry :: rest) (h : LayoutInv words t matched s)
    (hclean : Clean t s entry) :
    ∃ s', layoutStep order t matched s entry rest = some s' ∧ LayoutInv words t matched s' ∧
      (s'.stack.map (SetIndexEntry.rounds words t)).sum <
        (s.stack.map (SetIndexEntry.rounds words t)).sum := by
  obtain ⟨hroom, hplaced⟩ := hclean
  have hlaid := h.laid
  rw [hstack, List.flatMap_cons] at hlaid
  obtain ⟨hle, hstart, hperm⟩ := h.entry entry (by rw [hstack]; exact List.mem_cons_self)
  have hrest : ∀ e ∈ rest, e.Ok t := fun e he =>
    h.entry e (by rw [hstack]; exact List.mem_cons_of_mem entry he)
  rw [hstack, List.map_cons, List.sum_cons]
  unfold layoutStep layoutStepWithin
  by_cases hlast : entry.childIndex = (t.children entry.node).length
  · -- all children were walked to
    rw [if_neg (not_not.mpr hlast)]
    refine ⟨_, rfl, ⟨?_, hrest⟩, ?_⟩
    · unfold SetIndexEntry.pending at hlaid
      split at hlaid
      · rename_i hzero
        have hnil : t.children entry.node = [] :=
          List.length_eq_zero_iff.mp (hlast.symm.trans hzero)
        refine hlaid.leaf fun c hnode => ?_
        have := ht.mem_children.mpr hnode
        rw [hnil] at this
        exact absurd this (by simp)
      · rename_i hne
        rw [List.drop_of_length_le (by rw [(hperm hne).length_eq, hlast])] at hlaid
        exact hlaid
    · have : 0 < entry.rounds words t := by
        unfold SetIndexEntry.rounds
        omega
      show (rest.map _).sum < _
      omega
  · have hlt : entry.childIndex < (t.children entry.node).length := by omega
    rw [if_pos hlast]
    dsimp only
    rcases Nat.eq_zero_or_pos entry.childIndex with hzero | hpos
    · have hpending : entry.pending = [entry.node] := if_pos hzero
      have hremaining : entry.remaining t = t.children entry.node := if_pos hzero
      rw [hpending] at hlaid
      obtain ⟨hput, hbare⟩ := hlaid.waiting entry.node List.mem_cons_self
      have hne : t.children entry.node ≠ [] := List.ne_nil_of_length_pos (by omega)
      obtain ⟨array, datIndex, childVec, hset, hvec, hlaid'⟩ :=
        setChildren_spec ht hwords order hlaid hroom (hstart hzero) hne
      obtain ⟨code, hcode, hinv, hrounds⟩ := push_spec ht hvec hlt
        (by rw [hzero, List.drop_zero]; exact hlaid') hrest
      rw [if_pos (hlaid.bare entry.node hput hbare), ← setChildren, hset]
      dsimp only
      rw [hcode]
      refine ⟨_, rfl, hinv, Nat.lt_of_lt_of_eq hrounds ?_⟩
      rw [SetIndexEntry.rounds, hremaining, hzero, List.drop_zero, (hvec.map _).sum_eq]
    · have hne : entry.childIndex ≠ 0 := Nat.pos_iff_ne_zero.mp hpos
      have hpending : entry.pending =
        (entry.childVec.drop entry.childIndex).map fun c => entry.node ++ [c] := if_neg hne
      have hremaining : entry.remaining t = entry.childVec.drop entry.childIndex := if_neg hne
      rw [hpending] at hlaid
      obtain ⟨code, hcode, hinv, hrounds⟩ := push_spec ht (hperm hne) hlt hlaid hrest
      rw [if_neg (hplaced hpos hlt)]
      dsimp only
      rw [hcode]
      refine ⟨_, rfl, hinv, Nat.lt_of_lt_of_eq hrounds ?_⟩
      rw [SetIndexEntry.rounds, hremaining]

/-! ## The walk -/

theorem layoutLoop_nil (order : MapOrder) (fuel : Nat) {s : LayoutState} (h : s.stack = []) :
    layoutLoop order t matched fuel s = some s := by
  cases fuel <;> simp [layoutLoop, h]

theorem layoutLoop_cons (order : MapOrder) (fuel : Nat) {s : LayoutState} {entry : SetIndexEntry}
    {rest : List SetIndexEntry} (h : s.stack = entry :: rest) :
    layoutLoop order t matched (fuel + 1) s =
      (layoutStep order t matched s entry rest).bind (layoutLoop order t matched fuel) := by
  rw [layoutLoop, h]
  dsimp only
  cases layoutStep order t matched s entry rest <;> rfl

theorem cleanLayout_cons {order : MapOrder} {fuel : Nat} {s : LayoutState}
    {entry : SetIndexEntry} {rest : List SetIndexEntry} (h : s.stack = entry :: rest)
    (hclean : cleanLayout order t matched (fuel + 1) s = true) :
    Clean t s entry ∧ ∀ s', layoutStep order t matched s entry rest = some s' →
      cleanLayout order t matched fuel s' = true := by
  rw [cleanLayout, h] at hclean
  simp only [Bool.and_eq_true, decide_eq_true_eq] at hclean
  refine ⟨hclean.1, fun s' hstep => ?_⟩
  rw [hstep] at hclean
  exact hclean.2

theorem layoutLoop_inv (ht : t.Edges words) (hwords : ∀ w ∈ words, Codes w) (order : MapOrder)
    (fuel : Nat) (s : LayoutState) (h : LayoutInv words t matched s)
    (hfuel : (s.stack.map (SetIndexEntry.rounds words t)).sum ≤ fuel)
    (hclean : cleanLayout order t matched fuel s = true) :
    ∃ s', layoutLoop order t matched fuel s = some s' ∧
      Laid words matched s'.array s'.datIndex [] := by
  induction fuel generalizing s with
  | zero =>
    cases hstack : s.stack with
    | nil =>
      have hlaid := h.laid
      rw [hstack] at hlaid
      exact ⟨s, layoutLoop_nil order 0 hstack, hlaid⟩
    | cons entry rest =>
      rw [hstack, List.map_cons, List.sum_cons] at hfuel
      unfold SetIndexEntry.rounds at hfuel
      omega
  | succ fuel ih =>
    cases hstack : s.stack with
    | nil =>
      have hlaid := h.laid
      rw [hstack] at hlaid
      exact ⟨s, layoutLoop_nil order (fuel + 1) hstack, hlaid⟩
    | cons entry rest =>
      obtain ⟨hnow, hlater⟩ := cleanLayout_cons hstack hclean
      obtain ⟨s₁, hstep, hinv, hless⟩ := layoutStep_spec ht hwords order hstack h hnow
      obtain ⟨s', hrun, hlaid⟩ := ih s₁ hinv (by omega) (hlater s₁ hstep)
      refine ⟨s', ?_, hlaid⟩
      rw [layoutLoop_cons order fuel hstack, hstep]
      exact hrun

/-- The constructor reserves twelve blocks and writes no cell. -/
theorem fresh_eq : fresh = { blank with
    chainQueue := (List.range' 1 605).map u32
    mapSize := 12
    elementCapacity := 12288
    maxChainNodeIndex := 605 } := by
  have hloop : reserveLoop 3 blank = { blank with
      mapSize := 12
      elementCapacity := 12288
      maxChainNodeIndex := 605 } := by
    simp [reserveLoop, reserveRound, blank, kMapIncreaseSize, kBlockSize, kMaxValOfCharCode]
  unfold fresh reserveTrie
  rw [hloop]
  show DoubleArrayTrie.mk .. = DoubleArrayTrie.mk ..
  congr 1
  funext block
  show 0 / 2 = 0
  decide

/-- The cells from 1 on, as queue entries. -/
theorem mem_range_u32 {last index : Nat} (hlast : last < 2 ^ 32) :
    index ∈ (List.range' 1 last).map u32 ↔ 1 ≤ index ∧ index ≤ last := by
  rw [List.mem_map]
  constructor
  · rintro ⟨i, hi, rfl⟩
    rw [List.mem_range'_1] at hi
    rw [u32_of_lt (by omega)]
    omega
  · rintro ⟨hlow, hhigh⟩
    exact ⟨index, List.mem_range'_1.mpr (by omega), u32_of_lt (by omega)⟩

/-- The members when `build` is called: no cell is in use, and every queued cell leaves room for a
    window of all codes. -/
structure Erased (d : DoubleArrayTrie) : Prop where
  base : d.baseVec = fun _ => 0
  check : d.checkVec = fun _ => 0
  output : d.outputSizeVec = fun _ => 0
  used : d.blockUsedSizeVec = fun _ => 0
  failCount : d.blockFailCountVec = fun _ => 0
  capacity : d.elementCapacity = kBlockSize * d.mapSize
  room : kMaxValOfCharCode < d.elementCapacity
  small : d.elementCapacity ≤ 2 ^ 32
  last : d.maxChainNodeIndex = d.elementCapacity - kMaxValOfCharCode
  chain : ∀ index ∈ d.chainQueue, 1 ≤ index ∧ index ≤ d.maxChainNodeIndex
  dense : ∀ index ∈ d.denseChainQueue, 1 ≤ index ∧ index ≤ d.maxChainNodeIndex

theorem fresh_erased : Erased fresh := by
  rw [fresh_eq]
  have hque : ∀ index ∈ (List.range' 1 605).map u32, 1 ≤ index ∧ index ≤ 605 :=
    fun _ hi => (mem_range_u32 (by decide)).mp hi
  have hroom : kMaxValOfCharCode < 12288 := by decide
  have hsmall : 12288 ≤ 2 ^ 32 := by decide
  have hlast : 605 = 12288 - kMaxValOfCharCode := by decide
  exact ⟨rfl, rfl, rfl, rfl, rfl, rfl, hroom, hsmall, hlast, hque,
    fun _ hi => absurd hi List.not_mem_nil⟩

theorem Erased.placeRoot_check {d : DoubleArrayTrie} (h : Erased d) (i : Nat) :
    (placeRoot d).checkVec i = if i = kRootIndex then 1 else 0 := by
  show Function.update d.checkVec kRootIndex 1 i = _
  rw [h.check]
  exact Function.update_apply ..

theorem Erased.placeRoot_wf {d : DoubleArrayTrie} (h : Erased d) : (placeRoot d).Wf := by
  have hroom := h.room
  have hmax : kMaxValOfCharCode = 11683 := rfl
  constructor
  · exact h.capacity
  · exact h.room
  · exact h.small
  · exact h.last
  · exact h.chain
  · exact h.dense
  · rw [h.placeRoot_check, if_pos rfl]
    decide
  · intro index (hi : d.elementCapacity ≤ index)
    rw [h.placeRoot_check, if_neg (by unfold kRootIndex; omega)]
  · intro block (hb : d.mapSize ≤ block)
    have hpos : 0 < d.mapSize := by
      by_contra hzero
      have hcap := h.capacity
      rw [Nat.le_zero.mp (Nat.not_lt.mp hzero)] at hcap
      omega
    show Function.update d.blockUsedSizeVec 0 (u32 (d.blockUsedSizeVec 0 + 1)) block = 0
    rw [Function.update_of_ne (by omega), h.used]
  · intro block _
    show d.blockFailCountVec block = 0
    rw [h.failCount]

theorem layoutStart_datIndex (d : DoubleArrayTrie) (v : Path) :
    (layoutStart d).datIndex v = if v = [] then kRootIndex else 0 := by
  show Function.update (fun _ => 0) [] kRootIndex v = _
  rw [Function.update_apply]

/-- The start of the walk: the root is placed, and its children are to be. -/
theorem Erased.layoutStart_inv {d : DoubleArrayTrie} (h : Erased d) :
    LayoutInv words t matched (layoutStart d) := by
  have hdat : ∀ v, (layoutStart d).datIndex v ≠ 0 → v = [] := by
    intro v hv
    rw [layoutStart_datIndex] at hv
    by_contra hne
    exact hv (if_neg hne)
  have hroot : (layoutStart d).datIndex [] = kRootIndex := layoutStart_datIndex d []
  have hchild : ∀ v c, (layoutStart d).datIndex (v ++ [c]) = 0 := by
    intro v c
    rw [layoutStart_datIndex, if_neg (by simp)]
  have harray : (layoutStart d).array = placeRoot d := rfl
  have hroom : kMaxValOfCharCode < (placeRoot d).elementCapacity := h.room
  have hmax : kMaxValOfCharCode = 11683 := rfl
  have hbase : (placeRoot d).baseVec = fun _ => 0 := h.base
  have houtput : (placeRoot d).outputSizeVec = fun _ => 0 := h.output
  constructor
  · refine { wf := h.placeRoot_wf, root := hroot, rootCheck := ?_, rootOutput := ?_
             node := ?_, bound := ?_, inj := ?_, child := ?_, used := ?_, empty := ?_, bare := ?_
             nodup := List.nodup_singleton _, waiting := ?_, complete := ?_ }
    · rw [harray, h.placeRoot_check]
      rfl
    · rw [harray, houtput]
    · exact fun v hv => .inl (hdat v hv)
    · intro v
      rw [harray, layoutStart_datIndex]
      unfold kRootIndex
      split <;> omega
    · intro u v hu heq
      rw [hdat u hu, hdat v (by rwa [← heq])]
    · exact fun v c hne => absurd (hchild v c) hne
    · intro i hi
      rw [harray, h.placeRoot_check] at hi
      by_contra hne
      exact hi (if_neg fun h => hne (.inl h))
    · intro i _
      rw [harray, hbase]
    · intro v _ _
      rw [harray, hbase]
    · intro v hv
      obtain rfl : v = [] := List.mem_singleton.mp hv
      exact ⟨by rw [hroot]; decide, hchild _⟩
    · intro v c hv hnot _
      exact absurd (List.mem_singleton.mpr (hdat v hv)) hnot
  · intro e he
    obtain rfl := List.mem_singleton.mp he
    exact ⟨Nat.zero_le _, fun _ => rfl, fun hne => absurd rfl hne⟩

/-- The walk from its start: it ends, and no node is left out. -/
theorem layoutLoop_spec {d : DoubleArrayTrie} (hd : Erased d) (ht : t.Edges words)
    (hwords : ∀ w ∈ words, Codes w) (order : MapOrder) (fuel : Nat)
    (hfuel : 2 * (words.map fun w => w.length + 1).sum + 1 ≤ fuel)
    (hclean : cleanLayout order t matched fuel (layoutStart d) = true) :
    ∃ s, layoutLoop order t matched fuel (layoutStart d) = some s ∧
      Laid words matched s.array s.datIndex [] ∧ ∀ v, IsNode words v → s.datIndex v ≠ 0 := by
  have hweight := children_weight_le words [] (t.children []) (ht.nodup [])
  have hall : 2 * weight words [] + 1 ≤ fuel := by
    rw [weight_nil]
    exact hfuel
  have hrounds : ((layoutStart d).stack.map (SetIndexEntry.rounds words t)).sum =
      1 + 2 * ((t.children []).map fun c => weight words ([] ++ [c])).sum := by
    show SetIndexEntry.rounds words t ⟨[], 0, []⟩ + 0 = _
    unfold SetIndexEntry.rounds SetIndexEntry.remaining
    rw [if_pos rfl, List.sum_map_mul_left, Nat.add_zero]
  obtain ⟨s, hrun, hlaid⟩ := layoutLoop_inv ht hwords order fuel _ hd.layoutStart_inv
    (hrounds.trans_le (by omega)) hclean
  refine ⟨s, hrun, hlaid, fun v => ?_⟩
  -- from the root down, every node is placed
  induction v using List.reverseRecOn with
  | nil =>
    intro _
    rw [hlaid.root]
    decide
  | append_singleton v c ih =>
    intro hv
    exact hlaid.complete v c (ih (isNode_of_prefix_of hv (List.prefix_append v [c]))) (by simp) hv

end

end CdsGuard.DoubleArray
