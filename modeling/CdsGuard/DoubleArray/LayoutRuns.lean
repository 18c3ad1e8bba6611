import CdsGuard.DoubleArray.BytePatterns
import CdsGuard.DoubleArray.LinkSizes
import CdsGuard.Lib.Transition

/-
  Runs of the walk that places the nodes, whether their steps are clean or not. The state before
  each step meets what the search for a base needs (`WalkInv`), as long as three reservations
  more stay within the 32 bits of `index_type`: then every search from it ends with a base whose
  cells are free (`properBase_of_run`).

  Without that bound it cannot be so: a chain of 2^32 nodes would have to get as many cells
  (`properBase_fails`).
-/

namespace CdsGuard.DoubleArray

open CdsGuard.Lib DoubleArrayTrie

/-! ## What a search keeps in any state -/

namespace DoubleArrayTrie

/-- The numbers of blocks and of cells belong together. -/
structure Shape (d : DoubleArrayTrie) : Prop where
  capacity : d.elementCapacity = kBlockSize * d.mapSize
  room : kMaxValOfCharCode < d.elementCapacity
  last : d.maxChainNodeIndex = d.elementCapacity - kMaxValOfCharCode

/-- No base and no parent of a cell changes. -/
structure Keeps (d d' : DoubleArrayTrie) : Prop where
  shape : d.Shape → d'.Shape
  base : d'.baseVec = d.baseVec
  check : d'.checkVec = d.checkVec

theorem Keeps.refl (d : DoubleArrayTrie) : Keeps d d := ⟨id, rfl, rfl⟩

theorem Keeps.trans {d₁ d₂ d₃ : DoubleArrayTrie} (h : Keeps d₁ d₂) (h' : Keeps d₂ d₃) :
    Keeps d₁ d₃ :=
  ⟨fun hs => h'.shape (h.shape hs), h'.base.trans h.base, h'.check.trans h.check⟩

/-- The members that a probe comes to. -/
def Probe.Keeps (d : DoubleArrayTrie) : Probe → Prop
  | .outOfRange => True
  | .notFound d' => DoubleArrayTrie.Keeps d d'
  | .found _ d' => DoubleArrayTrie.Keeps d d'

theorem Probe.Keeps.trans {d d' : DoubleArrayTrie} {p : Probe} (h : DoubleArrayTrie.Keeps d d')
    (hp : p.Keeps d') : p.Keeps d := by
  cases p with
  | outOfRange => trivial
  | notFound e => exact DoubleArrayTrie.Keeps.trans h hp
  | found base e => exact DoubleArrayTrie.Keeps.trans h hp

theorem keeps_queues (d : DoubleArrayTrie) (chain dense : List Nat) (failCount : Nat → Nat) :
    Keeps d { d with
      chainQueue := chain, denseChainQueue := dense, blockFailCountVec := failCount } :=
  ⟨fun h => ⟨h.capacity, h.room, h.last⟩, rfl, rfl⟩

theorem denseRound_keeps (d : DoubleArrayTrie) (low : Nat) (que : List Nat) :
    (d.denseRound low que).Keeps d := by
  induction que with
  | nil => exact keeps_queues d d.chainQueue [] d.blockFailCountVec
  | cons index que ih =>
    rw [denseRound]
    split
    · trivial
    · exact keeps_queues d d.chainQueue que d.blockFailCountVec
    · exact ih

theorem chainRound_keeps (codes : List Nat) (low n : Nat) (d : DoubleArrayTrie) :
    (d.chainRound codes low n).Keeps d := by
  induction n generalizing d with
  | zero => exact Keeps.refl d
  | succ n ih =>
    rw [chainRound]
    split
    · exact Keeps.refl d
    · rename_i index que _
      dsimp only
      split
      · trivial
      · exact (ih _).trans (keeps_queues d que d.denseChainQueue d.blockFailCountVec)
      · split
        · split
          · trivial
          · exact keeps_queues d que d.denseChainQueue _
          · exact (ih _).trans (keeps_queues d (que ++ [index]) d.denseChainQueue _)
        · exact (ih _).trans
            (keeps_queues d que (d.denseChainQueue ++ [index]) d.blockFailCountVec)

theorem probe_keeps (codes : List Nat) (d : DoubleArrayTrie) : (d.probe codes).Keeps d := by
  have hdense : (if codes.length = 1 then
      d.denseRound (minCharCode codes) d.denseChainQueue else .notFound d).Keeps d := by
    split
    · exact denseRound_keeps d _ _
    · exact Keeps.refl d
  unfold probe
  dsimp only
  split
  · rename_i e heq
    rw [heq] at hdense
    exact (chainRound_keeps codes _ _ e).trans hdense
  · exact hdense

theorem Shape.reserve_keeps {d : DoubleArrayTrie} (h : d.Shape) : Keeps d d.reserveTrie := by
  rw [reserveTrie_eq h.room]
  refine ⟨fun _ => ⟨?_, Nat.lt_add_right _ h.room, rfl⟩, rfl, rfl⟩
  show d.elementCapacity + _ = kBlockSize * (d.mapSize + kMapIncreaseSize)
  rw [h.capacity, Nat.mul_add, Nat.mul_comm kMapIncreaseSize]

theorem getProperBase_keeps {codes : List Nat} {fuel base : Nat} {d d' : DoubleArrayTrie}
    (hd : d.Shape) (h : d.getProperBase codes fuel = some (base, d')) : Keeps d d' := by
  induction fuel generalizing d with
  | zero => exact absurd h (by simp [getProperBase])
  | succ fuel ih =>
    have hprobe := probe_keeps codes d
    rw [getProperBase] at h
    cases hp : d.probe codes with
    | outOfRange => simp [hp] at h
    | found b e =>
      rw [hp] at h hprobe
      obtain ⟨-, rfl⟩ := Prod.mk.injEq .. ▸ Option.some.inj h
      exact hprobe
    | notFound e =>
      rw [hp] at h hprobe
      have he : Keeps d e := hprobe
      have hreserve := (he.shape hd).reserve_keeps
      exact (he.trans hreserve).trans (ih (hreserve.shape (he.shape hd)) h)

/-- More rounds than a search takes make no difference. -/
theorem getProperBase_mono {codes : List Nat} {n m : Nat} (hnm : n ≤ m) {d : DoubleArrayTrie}
    {r : Nat × DoubleArrayTrie} (h : d.getProperBase codes n = some r) :
    d.getProperBase codes m = some r := by
  induction n generalizing m d with
  | zero => exact absurd h (by simp [getProperBase])
  | succ n ih =>
    obtain ⟨m, rfl⟩ : ∃ k, m = k + 1 := ⟨m - 1, by omega⟩
    rw [getProperBase] at h ⊢
    cases hp : d.probe codes with
    | outOfRange => simp [hp] at h
    | found b e => simpa [hp] using h
    | notFound e =>
      simp only [hp] at h ⊢
      exact ih (by omega) h

/-- However many rounds a search is given, what it returns is proper. -/
theorem proper_of_getProperBase {codes : List Nat} (hcodes : Codes codes) {d d' : DoubleArrayTrie}
    (h : d.Wf) (hroom : d.elementCapacity + 12288 ≤ 2 ^ 32) {tries base : Nat}
    (hfound : d.getProperBase codes tries = some (base, d')) : Proper codes d d' base := by
  obtain ⟨base', e, hrun, hproper⟩ := getProperBase_spec hcodes h hroom
  have h1 := getProperBase_mono (Nat.le_max_left tries 4) hfound
  have h2 := getProperBase_mono (Nat.le_max_right tries 4) hrun
  obtain ⟨rfl, rfl⟩ := Prod.mk.injEq .. ▸ Option.some.inj (h1.symm.trans h2)
  exact hproper

/-- The search for a base ends, with free cells for all codes, and leaves the cells that are in use
    as they are. -/
def FindsBase (d : DoubleArrayTrie) (codes : List Nat) : Prop :=
  ∃ tries base d', d.getProperBase codes tries = some (base, d') ∧
    (∀ code ∈ codes, 2 ≤ u32 (base + code) ∧ u32 (base + code) < d'.elementCapacity ∧
      d.checkVec (u32 (base + code)) = 0 ∧ d'.checkVec (u32 (base + code)) = 0) ∧
    ∀ i, d.checkVec i ≠ 0 → d'.checkVec i = d.checkVec i

theorem Wf.findsBase {codes : List Nat} (hcodes : Codes codes) {d : DoubleArrayTrie} (h : d.Wf)
    (hroom : d.elementCapacity + 12288 ≤ 2 ^ 32) : d.FindsBase codes := by
  obtain ⟨base, d', hfound, hproper⟩ := getProperBase_spec hcodes h hroom
  refine ⟨4, base, d', hfound, fun code hc => ?_, fun i _ => by rw [hproper.grown.check]⟩
  obtain ⟨h2, hlt, hfree⟩ := hproper.cell hcodes hc
  exact ⟨h2, hlt, hfree, by rw [hproper.grown.check, hfree]⟩

end DoubleArrayTrie

/-! ## The steps of the walk -/

/-- One round of the walk, with the search for a base cut off after `tries` rounds. -/
def walkStep (order : MapOrder) (t : Trie) (matched : Path → Nat) (s : LayoutState) (tries : Nat) :
    Option LayoutState :=
  match s.stack with
  | [] => none
  | entry :: rest => layoutStepWithin tries order t matched s entry rest

/-- What holds before each step. -/
structure WalkInv (s : LayoutState) : Prop where
  wf : s.array.Wf
  codes : ∀ e ∈ s.stack, Codes e.childVec

/-- Three reservations more stay within 32 bits. -/
def Roomy (s : LayoutState) : Prop := s.array.elementCapacity + 12288 ≤ 2 ^ 32

section

variable {order : MapOrder} {t : Trie} {matched : Path → Nat}

theorem setChild_wf {node : Path} {index code : Nat} {s : DoubleArrayTrie × (Path → Nat)}
    (h : s.1.Wf) (hlow : 2 ≤ u32 (s.1.baseVec index + code))
    (hhigh : u32 (s.1.baseVec index + code) < s.1.elementCapacity) :
    (setChild matched node index s code).1.Wf := by
  refine { h with root := ?_, freshCheck := ?_, freshUsed := ?_ }
  · show Function.update s.1.checkVec _ index kRootIndex ≠ 0
    rw [Function.update_of_ne (by unfold kRootIndex; omega)]
    exact h.root
  · intro i (hi : s.1.elementCapacity ≤ i)
    show Function.update s.1.checkVec _ index i = 0
    rw [Function.update_of_ne (by omega)]
    exact h.freshCheck i hi
  · intro b (hb : s.1.mapSize ≤ b)
    have hblock : getBlockIndex (u32 (s.1.baseVec index + code)) < s.1.mapSize :=
      getBlockIndex_lt (by rwa [← h.capacity])
    show Function.update s.1.blockUsedSizeVec _ _ b = 0
    rw [Function.update_of_ne (by omega)]
    exact h.freshUsed b hb

/-- Children in cells below the capacity, a cell perhaps twice. -/
theorem setChild_foldl_wf (matched : Path → Nat) (node : Path) {index base : Nat}
    (codes : List Nat)
    {s : DoubleArrayTrie × (Path → Nat)} (h : s.1.Wf) (hbase : s.1.baseVec index = base)
    (hcells : ∀ c ∈ codes, 2 ≤ u32 (base + c) ∧ u32 (base + c) < s.1.elementCapacity) :
    (codes.foldl (setChild matched node index) s).1.Wf := by
  induction codes generalizing s with
  | nil => exact h
  | cons code codes ih =>
    obtain ⟨hlow, hhigh⟩ := hcells code List.mem_cons_self
    rw [← hbase] at hlow hhigh
    exact ih (setChild_wf h hlow hhigh) hbase fun c hc => hcells c (List.mem_cons_of_mem code hc)

/-- What a step with a base of 0 does. -/
theorem setChildrenWithin_cases {tries : Nat} {s : LayoutState} {entry entry' : SetIndexEntry}
    {array : DoubleArrayTrie} {datIndex : Path → Nat}
    (h : setChildrenWithin tries order t matched s entry = some (array, datIndex, entry')) :
    ∃ childVec base d₁,
      childVec.Perm (entry.childVec ++ order.visit entry.node (t.children entry.node)) ∧
      s.array.getProperBase childVec tries = some (base, d₁) ∧
      (array, datIndex) = childVec.foldl (setChild matched entry.node (s.datIndex entry.node))
        ({ d₁ with baseVec := Function.update d₁.baseVec (s.datIndex entry.node) base },
          s.datIndex) ∧
      entry' = { entry with childVec } := by
  unfold setChildrenWithin at h
  dsimp only at h
  have hperm := List.perm_insertionSort (· ≤ ·)
    (entry.childVec ++ order.visit entry.node (t.children entry.node))
  generalize (entry.childVec ++ order.visit entry.node (t.children entry.node)).insertionSort
    (· ≤ ·) = childVec at h hperm
  cases hfound : s.array.getProperBase childVec tries with
  | none => simp [hfound] at h
  | some r =>
    obtain ⟨base, d₁⟩ := r
    rw [hfound] at h
    injection h with h
    obtain ⟨harray, hrest⟩ := Prod.mk.injEq .. ▸ h
    obtain ⟨hdat, hentry⟩ := Prod.mk.injEq .. ▸ hrest
    refine ⟨childVec, base, d₁, hperm, hfound, ?_, hentry.symm⟩
    rw [← harray, ← hdat]

/-- What a step does: the entry is done, or the walk goes on to a child. -/
theorem layoutStepWithin_cases {tries : Nat} {s s' : LayoutState} {entry : SetIndexEntry}
    {rest : List SetIndexEntry}
    (h : layoutStepWithin tries order t matched s entry rest = some s') :
    s' = { s with stack := rest } ∨
      ∃ array datIndex entry' code,
        (setChildrenWithin tries order t matched s entry = some (array, datIndex, entry') ∨
          array = s.array ∧ datIndex = s.datIndex ∧ entry' = entry) ∧
        s' =
          { array
            datIndex
            stack := ⟨entry'.node ++ [code], 0, []⟩ ::
              { entry' with childIndex := entry'.childIndex + 1 } :: rest } := by
  unfold layoutStepWithin at h
  dsimp only at h
  split at h
  · split at h
    · exact absurd h (by simp)
    · rename_i array datIndex entry' hset
      split at h
      · exact absurd h (by simp)
      · rename_i code _
        refine .inr ⟨array, datIndex, entry', code, ?_, (Option.some.inj h).symm⟩
        split at hset
        · exact .inl hset
        · injection hset with hset
          obtain ⟨harray, hrest⟩ := Prod.mk.injEq .. ▸ hset
          obtain ⟨hdat, hentry⟩ := Prod.mk.injEq .. ▸ hrest
          exact .inr ⟨harray.symm, hdat.symm, hentry.symm⟩
  · exact .inl (Option.some.inj h).symm

/-- The children of a node, placed or placed once more. -/
theorem setChildrenWithin_wf (hchildren : ∀ v, Codes (t.children v)) {tries : Nat}
    {s : LayoutState} {entry entry' : SetIndexEntry} {array : DoubleArrayTrie}
    {datIndex : Path → Nat} (h : s.array.Wf) (hroom : Roomy s) (hcodes : Codes entry.childVec)
    (hset : setChildrenWithin tries order t matched s entry = some (array, datIndex, entry')) :
    array.Wf ∧ Codes entry'.childVec := by
  obtain ⟨childVec, base, d₁, hperm, hfound, harray, rfl⟩ := setChildrenWithin_cases hset
  have hall : Codes childVec := by
    intro c hc
    rcases List.mem_append.mp (hperm.mem_iff.mp hc) with hc | hc
    · exact hcodes c hc
    · exact hchildren _ c (order.mem_visit.mp hc)
  have hproper := proper_of_getProperBase hall h hroom hfound
  have hwf : ({ d₁ with baseVec := Function.update d₁.baseVec (s.datIndex entry.node) base } :
      DoubleArrayTrie).Wf := { hproper.wf with }
  have hplaced := setChild_foldl_wf matched entry.node childVec
    (s := ({ d₁ with baseVec := Function.update d₁.baseVec (s.datIndex entry.node) base },
      s.datIndex)) hwf (Function.update_self ..)
    fun c hc => ⟨(hproper.cell hall hc).1, (hproper.cell hall hc).2.1⟩
  rw [← harray] at hplaced
  exact ⟨hplaced, hall⟩

theorem walkStep_inv (hchildren : ∀ v, Codes (t.children v)) {s s' : LayoutState} {tries : Nat}
    (h : WalkInv s) (hroom : Roomy s) (hstep : walkStep order t matched s tries = some s') :
    WalkInv s' := by
  unfold walkStep at hstep
  cases hstack : s.stack with
  | nil => simp [hstack] at hstep
  | cons entry rest =>
    rw [hstack] at hstep
    have hentry : Codes entry.childVec := h.codes entry (by rw [hstack]; exact List.mem_cons_self)
    have hrest : ∀ e ∈ rest, Codes e.childVec := fun e he =>
      h.codes e (by rw [hstack]; exact List.mem_cons_of_mem entry he)
    rcases layoutStepWithin_cases hstep with rfl | ⟨array, datIndex, entry', code, hset, rfl⟩
    · exact ⟨h.wf, hrest⟩
    · have hnew : array.Wf ∧ Codes entry'.childVec := by
        rcases hset with hset | ⟨rfl, -, rfl⟩
        · exact setChildrenWithin_wf hchildren h.wf hroom hentry hset
        · exact ⟨h.wf, hentry⟩
      refine ⟨hnew.1, fun e he => ?_⟩
      rcases List.mem_cons.mp he with rfl | he
      · exact fun c hc => absurd hc (by simp)
      · rcases List.mem_cons.mp he with rfl | he
        · exact hnew.2
        · exact hrest e he

theorem Erased.walkInv {d : DoubleArrayTrie} (h : Erased d) :
    WalkInv (layoutStart d) := by
  refine ⟨h.placeRoot_wf, fun e he => ?_⟩
  rw [List.mem_singleton.mp he]
  exact fun c hc => absurd hc (by simp)

/-- In a build on a new trie, every search for a base does what it is for as long as three
    reservations more stay within 32 bits, before it and before the steps that led there. -/
theorem properBase_of_run {ignoreCase : Bool} {patterns : List Bytes}
    (hinsert : insertAll ignoreCase patterns = .ok t) {tries : List Nat} {s : LayoutState}
    (hrun : run (walkStep order t matched) (layoutStart fresh) tries = some s)
    (hroom : ∀ pre s', pre <+: tries →
      run (walkStep order t matched) (layoutStart fresh) pre = some s' →
      s'.array.elementCapacity + 12288 ≤ 2 ^ 32)
    {codes : List Nat} (hcodes : Codes codes) : s.array.FindsBase codes := by
  obtain ⟨hedges, -, hwords⟩ := insertAll_bytes hinsert
  have hinv : WalkInv s := run_invariant_along
    (fun s₁ _ s₂ h hP hstep => walkStep_inv (hedges.codes hwords) h hP hstep)
    fresh_erased.walkInv (along_of_reached hroom) hrun
  exact hinv.wf.findsBase hcodes (hroom tries s List.prefix_rfl hrun)

end

/-- A computation that returns. -/
theorem exists_ok {ε α : Type} {r : Except ε α} (h : r.toOption.isSome = true) :
    ∃ x, r = .ok x := by
  cases r with
  | error e => exact absurd h (by simp [Except.toOption])
  | ok x => exact ⟨x, rfl⟩

theorem properBase_of_run_ab :
    ∃ t s, insertAll false [[0x61, 0x62]] = .ok t ∧
      run (walkStep insertionOrder t t.matchedSize) (layoutStart fresh) [4, 4] = some s ∧
      s.array.FindsBase [1, kMaxValOfCharCode] := by
  have hcheck : ∀ t ∈ (insertAll false [[0x61, 0x62]]).toOption,
      (run (walkStep insertionOrder t t.matchedSize) (layoutStart fresh) [4, 4]).isSome = true ∧
        ∀ pre ∈ [4, 4].inits, ∀ s ∈
          run (walkStep insertionOrder t t.matchedSize) (layoutStart fresh) pre,
          s.array.elementCapacity + 12288 ≤ 2 ^ 32 := by
    decide +kernel
  obtain ⟨t, hinsert⟩ := exists_ok
    (show (insertAll false [[0x61, 0x62]]).toOption.isSome = true by decide +kernel)
  obtain ⟨hdone, hroom⟩ := hcheck t (by rw [hinsert]; rfl)
  obtain ⟨s, hrun⟩ := Option.isSome_iff_exists.mp hdone
  exact ⟨t, s, hinsert, hrun, properBase_of_run hinsert hrun
    (fun pre s' hpre hs' => hroom pre ((List.mem_inits _ _).mpr hpre) s' hs')
    (by unfold Codes; decide)⟩

/-! ## A chain of nodes -/

section

variable {order : MapOrder} {t : Trie} {matched : Path → Nat}


/-- The walk is at the `k`-th node of a chain, and as many cells below 2^32 are in use. -/
structure ChainInv (k : Nat) (s : LayoutState) : Prop where
  shape : s.array.Shape
  stack : ∃ rest, s.stack = ⟨List.replicate k 97, 0, []⟩ :: rest
  node : s.array.checkVec (s.datIndex (List.replicate k 97)) ≠ 0
  bare : s.array.baseVec (s.datIndex (List.replicate k 97)) = 0
  index : s.datIndex (List.replicate k 97) ≠ 0
  empty : ∀ i, s.array.checkVec i = 0 → s.array.baseVec i = 0
  used : ∃ cells : Finset Nat, cells.card = k + 1 ∧
    ∀ i ∈ cells, 0 < i ∧ i < 2 ^ 32 ∧ s.array.checkVec i ≠ 0

theorem Erased.chainInv {d : DoubleArrayTrie} (h : Erased d) : ChainInv 0 (layoutStart d) := by
  have hroot : (placeRoot d).checkVec kRootIndex ≠ 0 := by
    rw [h.placeRoot_check]
    decide
  refine { shape := ⟨h.capacity, h.room, h.last⟩, stack := ⟨[], rfl⟩, node := hroot
           bare := congrFun h.base _, index := Nat.one_ne_zero
           empty := fun i _ => congrFun h.base i
           used := ⟨{kRootIndex}, rfl, fun i hi => ?_⟩ }
  rw [Finset.mem_singleton.mp hi]
  exact ⟨by decide, by decide, hroot⟩

/-- A search that does what it is for brings the walk to the next node, with one more cell in
    use. -/
theorem ChainInv.step (order : MapOrder) (matched : Path → Nat) {k : Nat} {s : LayoutState}
    (h : ChainInv k s)
    (hone : t.children (List.replicate k 97) = [97]) (hfinds : s.array.FindsBase [97]) :
    ∃ tries s', walkStep order t matched s tries = some s' ∧ ChainInv (k + 1) s' := by
  obtain ⟨rest, hstack⟩ := h.stack
  obtain ⟨tries, base, d, hfound, hcells, hkept⟩ := hfinds
  obtain ⟨hlow, -, hfree, -⟩ := hcells 97 (List.mem_singleton.mpr rfl)
  have hkeeps := getProperBase_keeps h.shape hfound
  have hvisit : order.visit (List.replicate k 97) [97] = [97] :=
    List.perm_singleton.mp (order.perm _ _)
  have hnext : List.replicate k 97 ++ [97] = List.replicate (k + 1) 97 :=
    List.replicate_succ'.symm
  -- the only child, in the cell that the search found
  let next := u32 (base + 97)
  let index := s.datIndex (List.replicate k 97)
  let array := { d with
    baseVec := Function.update d.baseVec index base
    checkVec := Function.update d.checkVec next index
    outputSizeVec := Function.update d.outputSizeVec next (matched (List.replicate (k + 1) 97)) }
  let s' : LayoutState :=
    { array := array.increaseBlockUsedCount next
      datIndex := Function.update s.datIndex (List.replicate (k + 1) 97) next
      stack := ⟨List.replicate (k + 1) 97, 0, []⟩ :: ⟨List.replicate k 97, 1, [97]⟩ :: rest }
  have hset : setChildrenWithin tries order t matched s ⟨List.replicate k 97, 0, []⟩ =
      some (s'.array, s'.datIndex, ⟨List.replicate k 97, 0, [97]⟩) := by
    unfold setChildrenWithin
    dsimp only
    rw [hone, hvisit, List.nil_append, List.insertionSort_cons, List.insertionSort_nil,
      List.orderedInsert_nil, hfound]
    simp only [List.foldl_cons, List.foldl_nil, setChild, Function.update_self, hnext]
    rfl
  have hstep : walkStep order t matched s tries = some s' := by
    rw [walkStep, hstack]
    dsimp only
    rw [layoutStepWithin, hone, if_pos (by simp), if_pos h.bare, hset]
    simp [s', hnext]
  have hindex : index ≠ next := by
    intro heq
    exact h.node ((congrArg s.array.checkVec heq).trans hfree)
  have hbase : ∀ i, i ≠ index → s'.array.baseVec i = s.array.baseVec i := by
    intro i hi
    rw [← hkeeps.base]
    exact Function.update_of_ne hi ..
  have hcheck : ∀ i, i ≠ next → s'.array.checkVec i = s.array.checkVec i := by
    intro i hi
    rw [← hkeeps.check]
    exact Function.update_of_ne hi ..
  have hnew : s'.array.checkVec next = index := Function.update_self ..
  have hdat : s'.datIndex (List.replicate (k + 1) 97) = next := Function.update_self ..
  have hshape := hkeeps.shape h.shape
  refine ⟨tries, s', hstep, ⟨hshape.capacity, hshape.room, hshape.last⟩, ⟨_, rfl⟩,
    ?_, ?_, ?_, ?_, ?_⟩
  · rw [hdat, hnew]
    exact h.index
  · rw [hdat, hbase next hindex.symm]
    exact h.empty next hfree
  · rw [hdat]
    exact Nat.ne_of_gt (Nat.lt_of_lt_of_le Nat.two_pos hlow)
  · intro i hi
    by_cases hin : i = next
    · rw [hin, hnew] at hi
      exact absurd hi h.index
    · rw [hcheck i hin] at hi
      rw [hbase i fun heq => h.node ((congrArg s.array.checkVec heq.symm).trans hi)]
      exact h.empty i hi
  · obtain ⟨cells, hcard, hused⟩ := h.used
    have hfresh : next ∉ cells := fun hmem => (hused next hmem).2.2 hfree
    refine ⟨insert next cells, by rw [Finset.card_insert_of_notMem hfresh, hcard], fun i hi => ?_⟩
    rcases Finset.mem_insert.mp hi with rfl | hmem
    · refine ⟨by omega, Nat.mod_lt _ (Nat.two_pow_pos 32), ?_⟩
      rw [hnew]
      exact h.index
    · obtain ⟨hpos, hlt, hne⟩ := hused i hmem
      exact ⟨hpos, hlt, by rwa [hcheck i fun heq => hfresh (heq ▸ hmem)]⟩

/-- There are not 2^32 cells above cell 0 that 32 bits can tell apart. -/
theorem ChainInv.lt {k : Nat} {s : LayoutState} (h : ChainInv k s) : k + 1 < 2 ^ 32 := by
  obtain ⟨cells, hcard, hused⟩ := h.used
  have hsub : cells ⊆ Finset.Ico 1 (2 ^ 32) := by
    intro i hi
    rw [Finset.mem_Ico]
    exact ⟨(hused i hi).1, (hused i hi).2.1⟩
  have hle := Finset.card_le_card hsub
  rw [hcard, Nat.card_Ico] at hle
  omega

/-- If every search did what it is for, the walk would come to each node of the chain. -/
theorem chain_reached {d : DoubleArrayTrie} (hd : Erased d) {n : Nat}
    (hone : ∀ k < n, t.children (List.replicate k 97) = [97])
    (hfinds : ∀ tries s, run (walkStep order t matched) (layoutStart d) tries = some s →
      s.array.FindsBase [97]) (k : Nat) (hk : k ≤ n) :
    ∃ tries s, run (walkStep order t matched) (layoutStart d) tries = some s ∧ ChainInv k s := by
  induction k with
  | zero => exact ⟨[], _, rfl, hd.chainInv⟩
  | succ k ih =>
    obtain ⟨tries, s, hrun, hinv⟩ := ih (Nat.le_of_succ_le hk)
    obtain ⟨n', s', hstep, hinv'⟩ := hinv.step order matched
      (hone k hk) (hfinds tries s hrun)
    refine ⟨tries ++ [n'], s', run_append_of hrun ?_, hinv'⟩
    rw [run, hstep]
    rfl

theorem codesOf_replicate (n : Nat) :
    codesOf false (List.replicate n 'a') = List.replicate n 97 :=
  List.map_replicate

/-- The nodes of a chain have one child each. -/
theorem Trie.Edges.children_chain {n : Nat} (ht : t.Edges [List.replicate n 97]) {k : Nat}
    (hk : k < n) : t.children (List.replicate k 97) = [97] := by
  refine List.perm_singleton.mp ?_
  refine (List.perm_ext_iff_of_nodup (ht.nodup _) (List.nodup_singleton 97)).mpr fun c => ?_
  rw [ht.mem_iff, List.mem_singleton]
  constructor
  · rintro ⟨w, hw, hpre⟩
    rw [List.mem_singleton.mp hw] at hpre
    exact List.eq_of_mem_replicate (hpre.subset (by simp))
  · rintro rfl
    refine ⟨_, List.mem_singleton.mpr rfl, ?_⟩
    rw [← List.replicate_succ', List.prefix_replicate_iff, List.length_replicate]
    exact ⟨hk, rfl⟩

end

/-- For a pattern of 2^32 letters the walk comes to a state in which the search for a base fails. -/
theorem properBase_fails :
    ∃ t, insertAll false ([List.replicate (2 ^ 32) 'a'].map utf8) = .ok t ∧
      ¬∀ tries s,
        run (walkStep insertionOrder t t.matchedSize) (layoutStart fresh) tries = some s →
        ∀ codes, codes ≠ [] → Codes codes → s.array.FindsBase codes := by
  have hps : ∀ p ∈ [List.replicate (2 ^ 32) 'a'], Supported false p := by
    intro p hp c hc
    rw [List.mem_singleton.mp hp] at hc
    rw [List.eq_of_mem_replicate hc]
    decide
  obtain ⟨t, hinsert, ht⟩ := insertAll_spec false [List.replicate (2 ^ 32) 'a'] hps
  have hwords : wordsOf false [List.replicate (2 ^ 32) 'a'] = [List.replicate (2 ^ 32) 97] := by
    rw [← codesOf_replicate]
    rfl
  rw [hwords] at ht
  refine ⟨t, hinsert, fun h => ?_⟩
  have hcodes : Codes [97] := fun c hc => by
    rw [List.mem_singleton.mp hc]
    decide
  obtain ⟨-, s, -, hinv⟩ := chain_reached fresh_erased (fun k hk => ht.children_chain hk)
    (fun tries s hrun => h tries s hrun [97] (by simp) hcodes) (2 ^ 32) (Nat.le_refl _)
  exact absurd hinv.lt (Nat.not_lt.mpr (Nat.le_succ _))

end CdsGuard.DoubleArray
