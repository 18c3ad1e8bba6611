import CdsGuard.DoubleArray.LayoutRuns

/-
  `rebuild`: the arrays are cleared, every cell is queued again and the front of the queue is
  dropped as the sentinel 0, and `build` runs. Only a build that returns empties the queues. So
  after a call that threw, the queue that the next call finds still has its cells, the front that
  is dropped is cell 1, and cell 0 stays.

  Proved: as long as no call that comes to its layout follows a call that threw without one between
  them that returned, and the layouts are clean or the arrays never grew, each call finds its
  queues as it should and leaves a trie that answers every search as a new one
  (`rebuild_like_new`). After one call that threw it is not so (`thrown_leaves_sentinel`).
-/

namespace CdsGuard.DoubleArray

open CdsGuard.Lib DoubleArrayTrie

/-! ## Calls -/

def DoubleArrayTrie.eraseAll (d : DoubleArrayTrie) : DoubleArrayTrie :=
  { d with
    baseVec := fun _ => 0
    checkVec := fun _ => 0
    failVec := fun _ => 0
    outputSizeVec := fun _ => 0
    blockUsedSizeVec := fun _ => 0
    blockFailCountVec := fun _ => 0
    chainQueue := (d.chainQueue ++ (List.range (d.maxChainNodeIndex + 1)).map u32).tail }

/-- An object of the class. -/
structure TrieObject where
  ignoreCaseFlag : Bool
  array : DoubleArrayTrie

/-- The arguments of a call of `rebuild`. -/
structure RebuildCall where
  patterns : List Bytes
  ignoreCaseFlag : Bool

/-- A call of `rebuild`. The insertion, which alone throws, does not touch the arrays. -/
def rebuild (order : MapOrder) (fuel : Nat) (s : TrieObject) (call : RebuildCall) :
    Option TrieObject :=
  match build order fuel call.ignoreCaseFlag call.patterns s.array.eraseAll with
  | .ok d => some ⟨call.ignoreCaseFlag, d⟩
  | .error (.thrown _) => some ⟨call.ignoreCaseFlag, s.array.eraseAll⟩
  | .error .stuck => none

/-- A call that comes to its layout finds every unused cell in the queues, from 2 on, and not the
    sentinel; and if it returns, searches are answered as by a new trie. -/
structure NoTrace (order : MapOrder) (fuel : Nat) (s : TrieObject) (call : RebuildCall) : Prop where
  queued : ∀ t, insertAll call.ignoreCaseFlag call.patterns = .ok t →
    (∀ i, 2 ≤ i → i ≤ s.array.eraseAll.maxChainNodeIndex →
      (layoutStart s.array.eraseAll).array.checkVec i = 0 →
      i ∈ s.array.eraseAll.chainQueue ∨ i ∈ s.array.eraseAll.denseChainQueue) ∧
    0 ∉ s.array.eraseAll.chainQueue ∧ 0 ∉ s.array.eraseAll.denseChainQueue
  same : ∀ d, build order fuel call.ignoreCaseFlag call.patterns s.array.eraseAll = .ok d →
    ∃ d', construct order fuel call.ignoreCaseFlag call.patterns = .ok d' ∧
      ∀ text, search d call.ignoreCaseFlag text = search d' call.ignoreCaseFlag text

/-- A call that comes to its layout finds the queue empty, as a build that returned leaves it; and
    the arrays have their first size, or the steps of the layout are clean, in the call and in a
    constructor. -/
def Untainted (order : MapOrder) (fuel : Nat) (s : TrieObject) (call : RebuildCall) : Prop :=
  ∀ t, insertAll call.ignoreCaseFlag call.patterns = .ok t →
    s.array.chainQueue = [] ∧
      (s.array.elementCapacity = 12288 ∨
        cleanFrom order fuel call.ignoreCaseFlag call.patterns s.array.eraseAll = true ∧
        cleanBuild order fuel call.ignoreCaseFlag call.patterns = true)

/-! ## The shape of the arrays -/

/-- What holds of the object between calls. -/
structure ObjectInv (s : TrieObject) : Prop where
  shape : s.array.Shape
  dense : s.array.denseChainQueue = []

section

variable {order : MapOrder} {t : Trie} {matched : Path → Nat}

theorem Erased.shape {d : DoubleArrayTrie} (h : Erased d) : d.Shape :=
  ⟨h.capacity, h.room, h.last⟩

theorem setChild_foldl_shape (matched : Path → Nat) (node : Path) (index : Nat)
    (codes : List Nat)
    {s : DoubleArrayTrie × (Path → Nat)} (h : s.1.Shape) :
    (codes.foldl (setChild matched node index) s).1.Shape := by
  induction codes generalizing s with
  | nil => exact h
  | cons code codes ih => exact ih ⟨h.capacity, h.room, h.last⟩

theorem layoutStepWithin_shape {tries : Nat} {s s' : LayoutState} {entry : SetIndexEntry}
    {rest : List SetIndexEntry} (hs : s.array.Shape)
    (h : layoutStepWithin tries order t matched s entry rest = some s') : s'.array.Shape := by
  rcases layoutStepWithin_cases h with rfl | ⟨array, datIndex, entry', code, hset, rfl⟩
  · exact hs
  · rcases hset with hset | ⟨rfl, -, -⟩
    · obtain ⟨childVec, base, d₁, -, hfound, harray, -⟩ := setChildrenWithin_cases hset
      have hd₁ := (getProperBase_keeps hs hfound).shape hs
      have hplaced := setChild_foldl_shape matched entry.node (s.datIndex entry.node) childVec
        (s := ({ d₁ with baseVec := Function.update d₁.baseVec (s.datIndex entry.node) base },
          s.datIndex)) ⟨hd₁.capacity, hd₁.room, hd₁.last⟩
      rw [← harray] at hplaced
      exact hplaced
    · exact hs

theorem layoutLoop_shape {fuel : Nat} {s s' : LayoutState} (hs : s.array.Shape)
    (h : layoutLoop order t matched fuel s = some s') : s'.array.Shape := by
  induction fuel generalizing s with
  | zero =>
    rw [layoutLoop] at h
    split at h
    · obtain rfl := Option.some.inj h
      exact hs
    · exact absurd h (by simp)
  | succ fuel ih =>
    cases hstack : s.stack with
    | nil =>
      rw [layoutLoop_nil order (fuel + 1) hstack] at h
      obtain rfl := Option.some.inj h
      exact hs
    | cons entry rest =>
      rw [layoutLoop_cons order fuel hstack] at h
      obtain ⟨s₁, hstep, hrun⟩ := Option.bind_eq_some_iff.mp h
      exact ih (layoutStepWithin_shape hs hstep) hrun

/-- A build that returns leaves both queues empty. -/
theorem build_keeps {fuel : Nat} {ignoreCase : Bool} {patterns : List Bytes}
    {d d' : DoubleArrayTrie} (hd : d.Shape)
    (h : build order fuel ignoreCase patterns d = .ok d') :
    d'.Shape ∧ d'.denseChainQueue = [] := by
  unfold build at h
  cases hinsert : insertAll ignoreCase patterns with
  | error e => simp [hinsert] at h
  | ok t =>
    cases hlink : linkAll order t fuel with
    | none => simp [hinsert, hlink] at h
    | some l =>
      cases hlayout : layoutLoop order t l.matched fuel (layoutStart d) with
      | none => simp [hinsert, hlink, hlayout] at h
      | some s =>
        have hs := layoutLoop_shape (s := layoutStart d) ⟨hd.capacity, hd.room, hd.last⟩ hlayout
        cases hfail : setFailLoop order t l s.datIndex fuel [[]] s.array.failVec with
        | none => simp [hinsert, hlink, hlayout, hfail] at h
        | some failVec =>
          simp only [hinsert, hlink, hlayout, hfail, Except.ok.injEq] at h
          rw [← h]
          exact ⟨⟨hs.capacity, hs.room, hs.last⟩, rfl⟩

theorem eraseAll_shape {d : DoubleArrayTrie} (h : d.Shape) : d.eraseAll.Shape :=
  ⟨h.capacity, h.room, h.last⟩

theorem rebuild_inv {fuel : Nat} {s s' : TrieObject} {call : RebuildCall} (h : ObjectInv s)
    (hstep : rebuild order fuel s call = some s') : ObjectInv s' := by
  unfold rebuild at hstep
  split at hstep
  · rename_i d hbuild
    obtain rfl := Option.some.inj hstep
    obtain ⟨hshape, hdense⟩ := build_keeps (eraseAll_shape h.shape) hbuild
    exact ⟨hshape, hdense⟩
  · obtain rfl := Option.some.inj hstep
    exact ⟨eraseAll_shape h.shape, h.dense⟩
  · exact absurd hstep (by simp)

/-! ## A queue that was empty -/

theorem eraseAll_chainQueue {d : DoubleArrayTrie} (h : d.chainQueue = []) :
    d.eraseAll.chainQueue = (List.range' 1 d.maxChainNodeIndex).map u32 := by
  show (d.chainQueue ++ (List.range (d.maxChainNodeIndex + 1)).map u32).tail = _
  rw [h, List.nil_append, List.range_eq_range', List.range'_succ]
  rfl

theorem ObjectInv.erased {s : TrieObject} (h : ObjectInv s) (hempty : s.array.chainQueue = [])
    (hsmall : s.array.elementCapacity ≤ 2 ^ 32) : Erased s.array.eraseAll where
  base := rfl
  check := rfl
  output := rfl
  used := rfl
  failCount := rfl
  capacity := h.shape.capacity
  room := h.shape.room
  small := hsmall
  last := h.shape.last
  chain := by
    intro index hi
    have hlast := h.shape.last
    have hmax : kMaxValOfCharCode = 11683 := rfl
    rw [eraseAll_chainQueue hempty] at hi
    have hsmall' : s.array.maxChainNodeIndex < 2 ^ 32 := by omega
    exact (mem_range_u32 hsmall').mp hi
  dense := by
    intro index hi
    rw [show s.array.eraseAll.denseChainQueue = [] from h.dense] at hi
    exact absurd hi (by simp)

/-- Arrays of the first size are cleared to what the constructor starts from. -/
theorem ObjectInv.eraseAll_eq_fresh {s : TrieObject} (h : ObjectInv s)
    (hempty : s.array.chainQueue = []) (hfirst : s.array.elementCapacity = 12288) :
    s.array.eraseAll = fresh := by
  have hcap := h.shape.capacity
  have hlast := h.shape.last
  have hmax : s.array.maxChainNodeIndex = 605 := by
    rw [hlast, hfirst]
    rfl
  have hmap : s.array.mapSize = 12 := by
    rw [hfirst] at hcap
    unfold kBlockSize at hcap
    omega
  have hque := eraseAll_chainQueue hempty
  have hdense := h.dense
  rw [hmax] at hque
  rw [fresh_eq]
  unfold eraseAll at *
  dsimp only at hque
  rw [hque, hdense, hmap, hmax, hfirst]
  rfl

/-! ## One call -/

/-- The first step of a clean layout has 32 bits for its cells. -/
theorem small_of_cleanFrom {fuel : Nat} {ignoreCase : Bool} {patterns : List Bytes}
    (hinsert : insertAll ignoreCase patterns = .ok t) (hfuel : bytesFuel patterns ≤ fuel)
    {d : DoubleArrayTrie} (hclean : cleanFrom order fuel ignoreCase patterns d = true) :
    d.elementCapacity + 12288 ≤ 2 ^ 32 := by
  obtain ⟨hedges, -, -⟩ := insertAll_bytes hinsert
  have hrounds := (patternWords_fuel ignoreCase patterns).trans hfuel
  obtain ⟨l, hlink, -, -⟩ := linkAll_linked hedges order fuel (by omega)
  unfold cleanFrom at hclean
  rw [hinsert] at hclean
  simp only [hlink] at hclean
  obtain ⟨fuel, rfl⟩ : ∃ n, fuel = n + 1 := ⟨fuel - 1, by omega⟩
  have hstack : (layoutStart d).stack = [⟨[], 0, []⟩] := rfl
  exact (cleanLayout_cons hstack hclean).1.1

/-- Two builds with clean layouts answer every search alike. -/
theorem search_eq_of_clean {fuel : Nat} {ignoreCase : Bool} {patterns : List Bytes}
    (hinsert : insertAll ignoreCase patterns = .ok t) (hfuel : bytesFuel patterns ≤ fuel)
    {d₁ d₂ : DoubleArrayTrie} (hd₁ : Erased d₁) (hd₂ : Erased d₂)
    (hclean₁ : cleanFrom order fuel ignoreCase patterns d₁ = true)
    (hclean₂ : cleanFrom order fuel ignoreCase patterns d₂ = true) :
    ∃ e₁ e₂, build order fuel ignoreCase patterns d₁ = .ok e₁ ∧
      build order fuel ignoreCase patterns d₂ = .ok e₂ ∧
      ∀ text, search e₁ ignoreCase text = search e₂ ignoreCase text := by
  obtain ⟨hedges, -, hwords⟩ := insertAll_bytes hinsert
  have hrounds := (patternWords_fuel ignoreCase patterns).trans hfuel
  obtain ⟨e₁, datIndex₁, hbuild₁, hauto₁, hsize₁⟩ :=
    build_automaton order hd₁ hinsert hedges hwords fuel hrounds hclean₁
  obtain ⟨e₂, datIndex₂, hbuild₂, hauto₂, hsize₂⟩ :=
    build_automaton order hd₂ hinsert hedges hwords fuel hrounds hclean₂
  refine ⟨e₁, e₂, hbuild₁, hbuild₂, fun text => ?_⟩
  rw [search_eq_scan hauto₁ hsize₁, search_eq_scan hauto₂ hsize₂]

theorem ObjectInv.noTrace {fuel : Nat} {s : TrieObject} {call : RebuildCall} (h : ObjectInv s)
    (hfuel : bytesFuel call.patterns ≤ fuel) (hok : Untainted order fuel s call) :
    NoTrace order fuel s call where
  queued := by
    intro t hinsert
    obtain ⟨hempty, hor⟩ := hok t hinsert
    have hsmall : s.array.elementCapacity ≤ 2 ^ 32 := by
      rcases hor with hfirst | ⟨hclean, -⟩
      · omega
      · have hroom := small_of_cleanFrom hinsert hfuel hclean
        have : s.array.elementCapacity + 12288 ≤ 2 ^ 32 := hroom
        omega
    have hlast := h.shape.last
    have hmax : kMaxValOfCharCode = 11683 := rfl
    have hmem : ∀ i, i ∈ s.array.eraseAll.chainQueue ↔ 1 ≤ i ∧ i ≤ s.array.maxChainNodeIndex := by
      intro i
      rw [eraseAll_chainQueue hempty]
      exact mem_range_u32 (by omega)
    have hdense : s.array.eraseAll.denseChainQueue = [] := h.dense
    refine ⟨fun i hlow hhigh _ => .inl ((hmem i).mpr ⟨by omega, hhigh⟩), fun hzero => ?_, ?_⟩
    · exact absurd ((hmem 0).mp hzero).1 (by decide)
    · rw [hdense]
      exact List.not_mem_nil
  same := by
    intro d hbuild
    cases hinsert : insertAll call.ignoreCaseFlag call.patterns with
    | error e =>
      unfold build at hbuild
      simp [hinsert] at hbuild
    | ok t =>
      obtain ⟨hempty, hor⟩ := hok t hinsert
      rcases hor with hfirst | ⟨hclean, hnew⟩
      · rw [h.eraseAll_eq_fresh hempty hfirst] at hbuild
        exact ⟨d, hbuild, fun _ => rfl⟩
      · have hroom := small_of_cleanFrom hinsert hfuel hclean
        have hsmall : s.array.elementCapacity + 12288 ≤ 2 ^ 32 := hroom
        obtain ⟨e₁, e₂, hbuild₁, hbuild₂, hsame⟩ := search_eq_of_clean hinsert hfuel
          (h.erased hempty (by omega)) fresh_erased hclean hnew
        obtain rfl : d = e₁ := Except.ok.inj (hbuild.symm.trans hbuild₁)
        exact ⟨e₂, hbuild₂, hsame⟩

/-! ## Runs of calls -/

/-- Calls that are untainted, each where it comes, leave no trace. -/
theorem rebuild_like_new (order : MapOrder) (fuel : Nat) (first : RebuildCall)
    {d : DoubleArrayTrie}
    (hfirst : construct order fuel first.ignoreCaseFlag first.patterns = .ok d)
    (calls : List RebuildCall) (hfuel : ∀ call ∈ calls, bytesFuel call.patterns ≤ fuel)
    (hok : Along (rebuild order fuel) (Untainted order fuel) ⟨first.ignoreCaseFlag, d⟩ calls) :
    Along (rebuild order fuel) (NoTrace order fuel) ⟨first.ignoreCaseFlag, d⟩ calls := by
  obtain ⟨hshape, hdense⟩ := build_keeps fresh_erased.shape hfirst
  have hinv : ObjectInv ⟨first.ignoreCaseFlag, d⟩ := ⟨hshape, hdense⟩
  refine Along.of_invariant (fun s call s' h _ hstep => rebuild_inv h hstep)
    (fun s call h hP => h.noTrace hP.1 hP.2) hinv ((along_of_forall hfuel).and hok)

/-- Two calls that return, after a constructor. -/
theorem rebuild_like_new_twice :
    ∃ d, construct insertionOrder 20 true [[0x61]] = .ok d ∧
      Along (rebuild insertionOrder 20) (NoTrace insertionOrder 20) ⟨true, d⟩
        [⟨[[0x62], [0x62, 0x43]], false⟩, ⟨[[0x63]], true⟩] := by
  have hcheck : ∀ d ∈ (construct insertionOrder 20 true [[0x61]]).toOption,
      d.chainQueue = [] ∧ d.elementCapacity = 12288 ∧
        ∀ s ∈ rebuild insertionOrder 20 ⟨true, d⟩ ⟨[[0x62], [0x62, 0x43]], false⟩,
          s.array.chainQueue = [] ∧ s.array.elementCapacity = 12288 := by
    decide +kernel
  obtain ⟨d, hbuild⟩ := exists_ok
    (show (construct insertionOrder 20 true [[0x61]]).toOption.isSome = true by decide +kernel)
  obtain ⟨hque, hcap, hnext⟩ := hcheck d (by rw [hbuild]; rfl)
  refine ⟨d, hbuild, rebuild_like_new insertionOrder 20 ⟨[[0x61]], true⟩ hbuild _ (by decide) ?_⟩
  refine ⟨fun t _ => ⟨hque, .inl hcap⟩, fun s hs => ⟨fun t _ => ?_, fun _ _ => trivial⟩⟩
  exact ⟨(hnext s hs).1, .inl (hnext s hs).2⟩

/-- In a queue that is not empty, another cell is dropped for the sentinel. -/
theorem zero_mem_eraseAll {d : DoubleArrayTrie} (h : d.chainQueue ≠ []) :
    0 ∈ d.eraseAll.chainQueue := by
  obtain ⟨front, que, hque⟩ := List.exists_cons_of_ne_nil h
  show 0 ∈ (d.chainQueue ++ (List.range (d.maxChainNodeIndex + 1)).map u32).tail
  rw [hque, List.cons_append, List.tail_cons]
  exact List.mem_append_right _ (List.mem_map.mpr ⟨0, by simp, rfl⟩)

/-- After a call that throws on "é", the next call comes to its layout with the sentinel in the
    queue. -/
theorem thrown_leaves_sentinel :
    ∃ d, construct insertionOrder 10 true [[0x61]] = .ok d ∧
      ¬Along (rebuild insertionOrder 10) (NoTrace insertionOrder 10) ⟨true, d⟩
        [⟨[[0xc3, 0xa9]], true⟩, ⟨[[0x62]], true⟩] := by
  have hcheck : ∀ d ∈ (construct insertionOrder 10 true [[0x61]]).toOption,
      ∃ s ∈ rebuild insertionOrder 10 ⟨true, d⟩ ⟨[[0xc3, 0xa9]], true⟩,
        s.array.chainQueue ≠ [] := by
    decide +kernel
  obtain ⟨d, hbuild⟩ := exists_ok
    (show (construct insertionOrder 10 true [[0x61]]).toOption.isSome = true by decide +kernel)
  obtain ⟨t, hinsert⟩ := exists_ok
    (show (insertAll true [[0x62]]).toOption.isSome = true by decide +kernel)
  obtain ⟨s, hstep, hque⟩ := hcheck d (by rw [hbuild]; rfl)
  refine ⟨d, hbuild, fun h => ?_⟩
  exact ((h.2 s hstep).1.queued t hinsert).2.1 (zero_mem_eraseAll hque)

end

end CdsGuard.DoubleArray
