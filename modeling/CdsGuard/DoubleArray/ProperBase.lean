import CdsGuard.DoubleArray.CharCode

/-
  The arrays of `DoubleArrayTrie`, and `get_proper_base`: the search for a base under which the
  cells of all children of a node are free, over a queue of free cells, with a count of the used
  cells and of the failed tries in each block of 1024.

  Vectors are functions that are 0 from the capacity on. Cells, bases and queue entries are
  `uint32_t`; a base below 0 is kept as its 32 bits. A read by `.at()` past the capacity gives
  nothing. The capacity itself and the counts of blocks are `size_t`, and stay far below 2^64.

  Proved: below 2^32 - 12288 cells the search ends after three reservations at the latest, makes
  no access out of range, changes no cell, and every cell of the base it finds is free, not the
  root's and inside the capacity (`getProperBase_spec`).
-/

namespace CdsGuard.DoubleArray

open CdsGuard.Lib

def kBlockSize : Nat := 1024
def kBlockThresholdSize : Nat := kBlockSize / 2
def kBlockThresholdFailConut : Nat := kBlockSize / 2
def kMapIncreaseSize : Nat := 4
def kRootIndex : Nat := 1

/-- The members of the class, less `ignore_case_flag_`. -/
structure DoubleArrayTrie where
  baseVec : Nat → Nat
  checkVec : Nat → Nat
  failVec : Nat → Nat
  outputSizeVec : Nat → Nat
  chainQueue : List Nat
  denseChainQueue : List Nat
  blockUsedSizeVec : Nat → Nat
  blockFailCountVec : Nat → Nat
  mapSize : Nat
  elementCapacity : Nat
  maxChainNodeIndex : Nat

namespace DoubleArrayTrie

/-- `uint32_t` subtraction. -/
def wrapSub (a b : Nat) : Nat := u32 (a + (2 ^ 32 - b))

def emptyNode (d : DoubleArrayTrie) (index : Nat) : Option Bool :=
  if index < d.elementCapacity then some (d.checkVec index == 0) else none

def getBlockIndex (nodeIndex : Nat) : Nat := nodeIndex / kBlockSize

def sparseBlock (d : DoubleArrayTrie) (nodeIndex : Nat) : Bool :=
  decide (d.blockUsedSizeVec (getBlockIndex nodeIndex) < kBlockThresholdSize) &&
    decide (d.blockFailCountVec (getBlockIndex nodeIndex) < kBlockThresholdFailConut)

def increaseBlockUsedCount (d : DoubleArrayTrie) (nodeIndex : Nat) : DoubleArrayTrie :=
  let block := getBlockIndex nodeIndex
  { d with blockUsedSizeVec :=
      Function.update d.blockUsedSizeVec block (u32 (d.blockUsedSizeVec block + 1)) }

def increaseBlockFailCount (d : DoubleArrayTrie) (nodeIndex : Nat) : DoubleArrayTrie :=
  let block := getBlockIndex nodeIndex
  let count := d.blockFailCountVec block
  let count' := if count < kBlockThresholdFailConut then count + 1 else count
  { d with blockFailCountVec := Function.update d.blockFailCountVec block count' }

def resetBlockFailCount (d : DoubleArrayTrie) (nodeIndex : Nat) : DoubleArrayTrie :=
  { d with blockFailCountVec := Function.update d.blockFailCountVec (getBlockIndex nodeIndex) 0 }

/-! ## Reservation -/

/-- One round of the `do while`. -/
def reserveRound (d : DoubleArrayTrie) : DoubleArrayTrie :=
  let capacity := d.elementCapacity + kMapIncreaseSize * kBlockSize
  { d with
    mapSize := d.mapSize + kMapIncreaseSize
    elementCapacity := capacity
    maxChainNodeIndex := if capacity > kMaxValOfCharCode then capacity - kMaxValOfCharCode else 0 }

/-- The `do while`: three rounds are more than `k_max_val_of_char_code_` cells. -/
def reserveLoop : Nat → DoubleArrayTrie → DoubleArrayTrie
  | 0, d => d
  | fuel + 1, d =>
    let d' := d.reserveRound
    if d'.maxChainNodeIndex = 0 then reserveLoop fuel d' else d'

def reserveTrie (d : DoubleArrayTrie) : DoubleArrayTrie :=
  let d' := reserveLoop 3 d
  let first := d.maxChainNodeIndex
  { d' with
    chainQueue := d.chainQueue ++ (List.range' first (d'.maxChainNodeIndex + 1 - first)).map u32
    blockFailCountVec := fun block => d.blockFailCountVec block / 2 }

/-- The members before the body of the constructor. -/
def blank : DoubleArrayTrie where
  baseVec := fun _ => 0
  checkVec := fun _ => 0
  failVec := fun _ => 0
  outputSizeVec := fun _ => 0
  chainQueue := []
  denseChainQueue := []
  blockUsedSizeVec := fun _ => 0
  blockFailCountVec := fun _ => 0
  mapSize := 0
  elementCapacity := 0
  maxChainNodeIndex := 0

/-- The members when the constructor calls `build`. -/
def fresh : DoubleArrayTrie :=
  let d := blank.reserveTrie
  { d with chainQueue := d.chainQueue.tail }

/-! ## The search for a base -/

/-- The loop over the codes at a candidate. -/
def candidateFits (d : DoubleArrayTrie) (base : Nat) : List Nat → Option Bool
  | [] => some true
  | code :: codes =>
    match d.emptyNode (u32 (base + code)) with
    | none => none
    | some false => some false
    | some true => candidateFits d base codes

/-- What a pass over a queue comes to. -/
inductive Probe where
  | outOfRange
  | notFound (d : DoubleArrayTrie)
  | found (base : Nat) (d : DoubleArrayTrie)

/-- The `while` over the dense queue, for a single code. -/
def denseRound (d : DoubleArrayTrie) (minCharCode : Nat) : List Nat → Probe
  | [] => .notFound { d with denseChainQueue := [] }
  | index :: que =>
    match d.emptyNode index with
    | none => .outOfRange
    | some true => .found (wrapSub index minCharCode) { d with denseChainQueue := que }
    | some false => denseRound d minCharCode que

/-- The `for` over the entries that the chain queue had. -/
def chainRound (codes : List Nat) (minCharCode : Nat) : Nat → DoubleArrayTrie → Probe
  | 0, d => .notFound d
  | n + 1, d =>
    match d.chainQueue with
    | [] => .notFound d
    | index :: que =>
      let d := { d with chainQueue := que }
      match d.emptyNode index with
      | none => .outOfRange
      | some false => chainRound codes minCharCode n d
      | some true =>
        if d.sparseBlock index then
          let base := wrapSub index minCharCode
          match d.candidateFits base codes with
          | none => .outOfRange
          | some true => .found base (d.resetBlockFailCount index)
          | some false =>
            let d := d.increaseBlockFailCount index
            chainRound codes minCharCode n { d with chainQueue := d.chainQueue ++ [index] }
        else
          chainRound codes minCharCode n
            { d with denseChainQueue := d.denseChainQueue ++ [index] }

/-- `*std::min_element`. -/
def minCharCode (codes : List Nat) : Nat := codes.min?.getD 0

/-- One round of the `while (true)`, without the reservation. -/
def probe (codes : List Nat) (d : DoubleArrayTrie) : Probe :=
  let size := d.chainQueue.length
  let dense :=
    if codes.length = 1 then d.denseRound (minCharCode codes) d.denseChainQueue else .notFound d
  match dense with
  | .notFound d => d.chainRound codes (minCharCode codes) size
  | found => found

/-- `get_proper_base`, cut off after `fuel` rounds. -/
def getProperBase (codes : List Nat) : Nat → DoubleArrayTrie → Option (Nat × DoubleArrayTrie)
  | 0, _ => none
  | fuel + 1, d =>
    match d.probe codes with
    | .outOfRange => none
    | .found base d => some (base, d)
    | .notFound d => getProperBase codes fuel d.reserveTrie

/-! ## What a pass keeps -/

/-- What holds of the members from the placing of the root on, as far as the search for a base
    needs it: every queued cell leaves room for a window of all codes, and nothing past the
    capacity is in use. -/
structure Wf (d : DoubleArrayTrie) : Prop where
  capacity : d.elementCapacity = kBlockSize * d.mapSize
  room : kMaxValOfCharCode < d.elementCapacity
  small : d.elementCapacity ≤ 2 ^ 32
  last : d.maxChainNodeIndex = d.elementCapacity - kMaxValOfCharCode
  chain : ∀ index ∈ d.chainQueue, 1 ≤ index ∧ index ≤ d.maxChainNodeIndex
  dense : ∀ index ∈ d.denseChainQueue, 1 ≤ index ∧ index ≤ d.maxChainNodeIndex
  root : d.checkVec kRootIndex ≠ 0
  freshCheck : ∀ index, d.elementCapacity ≤ index → d.checkVec index = 0
  freshUsed : ∀ block, d.mapSize ≤ block → d.blockUsedSizeVec block = 0
  freshFail : ∀ block, d.mapSize ≤ block → d.blockFailCountVec block = 0

/-- Only the queues and the counts of failed tries differ, and the counts only in blocks that
    a queued cell can be in. -/
structure Same (d d' : DoubleArrayTrie) : Prop where
  base : d'.baseVec = d.baseVec
  check : d'.checkVec = d.checkVec
  fail : d'.failVec = d.failVec
  output : d'.outputSizeVec = d.outputSizeVec
  used : d'.blockUsedSizeVec = d.blockUsedSizeVec
  mapSize : d'.mapSize = d.mapSize
  capacity : d'.elementCapacity = d.elementCapacity
  last : d'.maxChainNodeIndex = d.maxChainNodeIndex
  failCount : ∀ block, getBlockIndex d.maxChainNodeIndex < block →
    d'.blockFailCountVec block = d.blockFailCountVec block

theorem Same.refl (d : DoubleArrayTrie) : Same d d :=
  ⟨rfl, rfl, rfl, rfl, rfl, rfl, rfl, rfl, fun _ _ => rfl⟩

theorem Same.trans {d₁ d₂ d₃ : DoubleArrayTrie} (h : Same d₁ d₂) (h' : Same d₂ d₃) :
    Same d₁ d₃ where
  base := h'.base.trans h.base
  check := h'.check.trans h.check
  fail := h'.fail.trans h.fail
  output := h'.output.trans h.output
  used := h'.used.trans h.used
  mapSize := h'.mapSize.trans h.mapSize
  capacity := h'.capacity.trans h.capacity
  last := h'.last.trans h.last
  failCount := fun block hb => by
    rw [h'.failCount block (by rw [h.last]; exact hb), h.failCount block hb]

/-- The window of a list of codes at a cell: the smallest code falls on the cell. -/
structure Free (d : DoubleArrayTrie) (codes : List Nat) (index : Nat) : Prop where
  notRoot : 2 ≤ index
  le_last : index ≤ d.maxChainNodeIndex
  empty : ∀ code ∈ codes, d.checkVec (index + (code - minCharCode codes)) = 0

/-- A pass makes no access out of range and keeps the cells, and a base that it finds is free. -/
def Probe.Good (codes : List Nat) (d : DoubleArrayTrie) : Probe → Prop
  | .outOfRange => False
  | .notFound d' => Wf d' ∧ Same d d'
  | .found base d' =>
    Wf d' ∧ Same d d' ∧ ∃ index, Free d' codes index ∧ base = wrapSub index (minCharCode codes)

theorem Probe.Good.trans {codes : List Nat} {d d' : DoubleArrayTrie} {p : Probe}
    (h : Same d d') (hp : p.Good codes d') : p.Good codes d := by
  cases p with
  | outOfRange => exact hp
  | notFound e => exact ⟨hp.1, h.trans hp.2⟩
  | found base e => exact ⟨hp.1, h.trans hp.2.1, hp.2.2⟩

/-! ## Windows -/

/-- The codes of the children of a node. -/
def Codes (codes : List Nat) : Prop := ∀ code ∈ codes, 1 ≤ code ∧ code ≤ kMaxValOfCharCode

theorem minCharCode_bounds {codes : List Nat} (hcodes : Codes codes) {code : Nat}
    (h : code ∈ codes) : 1 ≤ minCharCode codes ∧ minCharCode codes ≤ code := by
  unfold minCharCode
  cases hmin : codes.min? with
  | none =>
    rw [List.min?_eq_none_iff.mp hmin] at h
    exact absurd h (by simp)
  | some low =>
    obtain ⟨hmem, hle⟩ := List.min?_eq_some_iff.mp hmin
    exact ⟨(hcodes low hmem).1, hle code h⟩

/-- A window stays inside the capacity. -/
theorem Wf.window {d : DoubleArrayTrie} (h : d.Wf) {codes : List Nat} (hcodes : Codes codes)
    {index : Nat} (hindex : index ≤ d.maxChainNodeIndex) {code : Nat} (hcode : code ∈ codes) :
    index + (code - minCharCode codes) < d.elementCapacity := by
  have hmin := minCharCode_bounds hcodes hcode
  have hmax := (hcodes code hcode).2
  have hlast := h.last
  have hroom := h.room
  omega

/-- The cells under the base that a queued cell gives. -/
theorem u32_wrapSub {index low code : Nat} (hlow : low ≤ code) (hcode : code ≤ kMaxValOfCharCode)
    (hindex : index + (code - low) < 2 ^ 32) :
    u32 (wrapSub index low + code) = index + (code - low) := by
  unfold u32 wrapSub u32 kMaxValOfCharCode at *
  omega

theorem Wf.cell {d : DoubleArrayTrie} (h : d.Wf) {codes : List Nat} (hcodes : Codes codes)
    {index : Nat} (hindex : index ≤ d.maxChainNodeIndex) {code : Nat} (hcode : code ∈ codes) :
    u32 (wrapSub index (minCharCode codes) + code) = index + (code - minCharCode codes) := by
  have hwindow := h.window hcodes hindex hcode
  have hsmall := h.small
  exact u32_wrapSub (minCharCode_bounds hcodes hcode).2 (hcodes code hcode).2 (by omega)

theorem emptyNode_of_lt {d : DoubleArrayTrie} {index : Nat} (h : index < d.elementCapacity) :
    d.emptyNode index = some (d.checkVec index == 0) := if_pos h

theorem candidateFits_spec (d : DoubleArrayTrie) (base : Nat) (codes : List Nat)
    (h : ∀ code ∈ codes, u32 (base + code) < d.elementCapacity) :
    d.candidateFits base codes =
      some (decide (∀ code ∈ codes, d.checkVec (u32 (base + code)) = 0)) := by
  induction codes with
  | nil => rfl
  | cons code codes ih =>
    rw [candidateFits, emptyNode_of_lt (h code List.mem_cons_self)]
    by_cases hempty : d.checkVec (u32 (base + code)) = 0
    · simp [hempty, ih fun c hc => h c (List.mem_cons_of_mem code hc)]
    · rw [beq_false_of_ne hempty]
      simp [hempty]

/-- The candidate at a queued cell fits when its window is free. -/
theorem Wf.candidateFits {d : DoubleArrayTrie} (h : d.Wf) {codes : List Nat}
    (hcodes : Codes codes) {index : Nat} (hindex : index ≤ d.maxChainNodeIndex) :
    d.candidateFits (wrapSub index (minCharCode codes)) codes =
      some (decide (∀ code ∈ codes, d.checkVec (index + (code - minCharCode codes)) = 0)) := by
  rw [candidateFits_spec]
  · congr 2
    refine propext (forall₂_congr fun code hc => ?_)
    rw [h.cell hcodes hindex hc]
  · intro code hc
    rw [h.cell hcodes hindex hc]
    exact h.window hcodes hindex hc

theorem Wf.emptyNode {d : DoubleArrayTrie} (h : d.Wf) {index : Nat}
    (hindex : index ≤ d.maxChainNodeIndex) :
    d.emptyNode index = some (d.checkVec index == 0) := by
  have hlast := h.last
  have hroom := h.room
  have hpos : 0 < kMaxValOfCharCode := by decide
  exact emptyNode_of_lt (by omega)

/-- A queued cell that is empty is not the root's. -/
theorem Wf.two_le {d : DoubleArrayTrie} (h : d.Wf) {index : Nat} (hindex : 1 ≤ index)
    (hempty : d.checkVec index = 0) : 2 ≤ index := by
  have hroot : index ≠ kRootIndex := by
    rintro rfl
    exact h.root hempty
  unfold kRootIndex at hroot
  omega

/-! ## One pass -/

theorem denseRound_good {d : DoubleArrayTrie} (h : d.Wf) (code : Nat) (que : List Nat)
    (hque : ∀ index ∈ que, 1 ≤ index ∧ index ≤ d.maxChainNodeIndex) :
    (d.denseRound (minCharCode [code]) que).Good [code] d := by
  induction que with
  | nil =>
    exact ⟨{ h with dense := fun _ hmem => absurd hmem (by simp) }, { Same.refl d with }⟩
  | cons index que ih =>
    obtain ⟨hpos, hlast⟩ := hque index List.mem_cons_self
    have hrest := fun i hi => hque i (List.mem_cons_of_mem index hi)
    rw [denseRound, h.emptyNode hlast]
    by_cases hempty : d.checkVec index = 0
    · rw [hempty]
      refine ⟨{ h with dense := hrest }, { Same.refl d with }, index,
        ⟨h.two_le hpos hempty, hlast, fun c hc => ?_⟩, rfl⟩
      obtain rfl := List.mem_singleton.mp hc
      simpa [minCharCode] using hempty
    · rw [beq_false_of_ne hempty]
      exact ih hrest

/-- A new count for the block of a queued cell. -/
theorem Wf.failCount_update {d : DoubleArrayTrie} (h : d.Wf) {index : Nat}
    (hindex : index ≤ d.maxChainNodeIndex) (count : Nat) :
    let d' := { d with
      blockFailCountVec := Function.update d.blockFailCountVec (getBlockIndex index) count }
    Wf d' ∧ Same d d' := by
  have hblock : getBlockIndex index < d.mapSize := by
    have hcap := h.capacity
    have hlast := h.last
    have hroom := h.room
    have hpos : 0 < kMaxValOfCharCode := by decide
    unfold getBlockIndex
    rw [Nat.div_lt_iff_lt_mul (by decide)]
    rw [Nat.mul_comm] at hcap
    omega
  constructor
  · refine { h with freshFail := fun block (hb : d.mapSize ≤ block) => ?_ }
    show Function.update _ _ _ _ = _
    rw [Function.update_of_ne (by omega)]
    exact h.freshFail block hb
  · refine { Same.refl d with failCount := fun block hb => Function.update_of_ne ?_ .. }
    rintro rfl
    exact absurd hb (Nat.not_lt.mpr (Nat.div_le_div_right hindex))

/-- The window of a cell is free and its block sparse. -/
def Takes (d : DoubleArrayTrie) (codes : List Nat) (index : Nat) : Prop :=
  d.checkVec index = 0 ∧ d.sparseBlock index = true ∧
    ∀ code ∈ codes, d.checkVec (index + (code - minCharCode codes)) = 0

/-- One entry of the chain queue: it is taken, or the pass goes on with it dropped, put back or
    moved to the dense queue. -/
theorem chainRound_cons {codes : List Nat} (hcodes : Codes codes) (n : Nat) {d : DoubleArrayTrie}
    (h : d.Wf) {index : Nat} {que : List Nat} (hque : d.chainQueue = index :: que) :
    (d.Takes codes index ∧ ∃ d', Wf d' ∧ Same d d' ∧
      d.chainRound codes (minCharCode codes) (n + 1) =
        .found (wrapSub index (minCharCode codes)) d') ∨
    (¬d.Takes codes index ∧ ∃ d' back, Wf d' ∧ Same d d' ∧ d'.chainQueue = que ++ back ∧
      (∀ block, block ≠ getBlockIndex index →
        d'.blockFailCountVec block = d.blockFailCountVec block) ∧
      d.chainRound codes (minCharCode codes) (n + 1) =
        d'.chainRound codes (minCharCode codes) n) := by
  obtain ⟨hpos, hlast⟩ := h.chain index (by rw [hque]; exact List.mem_cons_self)
  have hrest : ∀ i ∈ que, 1 ≤ i ∧ i ≤ d.maxChainNodeIndex := fun i hi =>
    h.chain i (by rw [hque]; exact List.mem_cons_of_mem index hi)
  have hback : ∀ que', (∀ i ∈ que', 1 ≤ i ∧ i ≤ d.maxChainNodeIndex) →
      ∀ i ∈ que' ++ [index], 1 ≤ i ∧ i ≤ d.maxChainNodeIndex := by
    intro que' hque' i hi
    rcases List.mem_append.mp hi with hi | hi
    · exact hque' i hi
    · rw [List.mem_singleton.mp hi]
      exact ⟨hpos, hlast⟩
  have hpop : Wf { d with chainQueue := que } := { h with chain := hrest }
  have hsame : Same d { d with chainQueue := que } := { Same.refl d with }
  rw [chainRound, hque]
  dsimp only
  rw [hpop.emptyNode hlast]
  by_cases hempty : d.checkVec index = 0
  · rw [show (d.checkVec index == 0) = true by simp [hempty]]
    have hblock : ({ d with chainQueue := que } : DoubleArrayTrie).sparseBlock index =
      d.sparseBlock index := rfl
    by_cases hsparse : d.sparseBlock index = true
    · dsimp only
      rw [hblock, if_pos hsparse, hpop.candidateFits hcodes hlast]
      by_cases hfits : ∀ code ∈ codes, d.checkVec (index + (code - minCharCode codes)) = 0
      · obtain ⟨hw, hs⟩ := hpop.failCount_update hlast 0
        rw [decide_eq_true hfits]
        exact .inl ⟨⟨hempty, hsparse, hfits⟩, _, hw, hsame.trans hs, rfl⟩
      · obtain ⟨hw, hs⟩ := hpop.failCount_update hlast
          (if d.blockFailCountVec (getBlockIndex index) < kBlockThresholdFailConut then
            d.blockFailCountVec (getBlockIndex index) + 1
          else d.blockFailCountVec (getBlockIndex index))
        rw [decide_eq_false hfits]
        refine .inr ⟨fun htakes => hfits htakes.2.2, _, [index], ?_, ?_, rfl, ?_, rfl⟩
        · exact { hw with chain := hback que hrest }
        · exact (hsame.trans hs).trans { Same.refl _ with }
        · exact fun block hb => Function.update_of_ne hb ..
    · dsimp only
      rw [hblock, if_neg hsparse]
      refine .inr ⟨fun htakes => hsparse htakes.2.1, _, [], ?_, ?_, ?_, ?_, rfl⟩
      · exact { hpop with dense := hback d.denseChainQueue h.dense }
      · exact hsame.trans { Same.refl _ with }
      · exact (List.append_nil que).symm
      · exact fun _ _ => rfl
  · rw [beq_false_of_ne hempty]
    exact .inr ⟨fun htakes => hempty htakes.1, _, [], hpop, hsame, (List.append_nil que).symm,
      fun _ _ => rfl, rfl⟩

theorem chainRound_good {codes : List Nat} (hcodes : Codes codes) (n : Nat)
    {d : DoubleArrayTrie} (h : d.Wf) : (d.chainRound codes (minCharCode codes) n).Good codes d := by
  induction n generalizing d with
  | zero => exact ⟨h, Same.refl d⟩
  | succ n ih =>
    cases hque : d.chainQueue with
    | nil =>
      rw [chainRound, hque]
      exact ⟨h, Same.refl d⟩
    | cons index que =>
      obtain ⟨hpos, hlast⟩ := h.chain index (by rw [hque]; exact List.mem_cons_self)
      rcases chainRound_cons hcodes n h hque with
        ⟨⟨hempty, -, hfits⟩, d', hw, hs, heq⟩ | ⟨-, d', back, hw, hs, -, -, heq⟩
      · rw [heq]
        refine ⟨hw, hs, index, ⟨h.two_le hpos hempty, ?_, ?_⟩, rfl⟩
        · rw [hs.last]
          exact hlast
        · rw [hs.check]
          exact hfits
      · rw [heq]
        exact (ih hw).trans hs

theorem probe_good {codes : List Nat} (hcodes : Codes codes) {d : DoubleArrayTrie} (h : d.Wf) :
    (d.probe codes).Good codes d := by
  unfold probe
  dsimp only
  by_cases hone : codes.length = 1
  · obtain ⟨code, rfl⟩ := List.length_eq_one_iff.mp hone
    have hdense := denseRound_good h code d.denseChainQueue h.dense
    rw [if_pos hone]
    cases hp : d.denseRound (minCharCode [code]) d.denseChainQueue with
    | outOfRange =>
      rw [hp] at hdense
      exact hdense
    | found base d' =>
      rw [hp] at hdense
      exact hdense
    | notFound d' =>
      rw [hp] at hdense
      exact Probe.Good.trans hdense.2 (chainRound_good hcodes _ hdense.1)
  · rw [if_neg hone]
    exact chainRound_good hcodes _ h

/-! ## The end of the search -/

/-- A block at whose start a search is sure to stop: nothing from there on is in use, and no try
    in it has failed. -/
structure Untouched (d : DoubleArrayTrie) (block : Nat) : Prop where
  check : ∀ index, kBlockSize * block ≤ index → d.checkVec index = 0
  used : d.blockUsedSizeVec block = 0
  failCount : d.blockFailCountVec block = 0

theorem getBlockIndex_start (block : Nat) : getBlockIndex (kBlockSize * block) = block :=
  Nat.mul_div_cancel_left block (by decide)

/-- A cell below the start of a block is in another block. -/
theorem getBlockIndex_lt {index block : Nat} (h : index < kBlockSize * block) :
    getBlockIndex index < block := by
  unfold getBlockIndex
  rw [Nat.div_lt_iff_lt_mul (by decide), Nat.mul_comm]
  exact h

theorem Untouched.takes {d : DoubleArrayTrie} {block : Nat} (h : d.Untouched block)
    (codes : List Nat) : d.Takes codes (kBlockSize * block) := by
  refine ⟨h.check _ (Nat.le_refl _), ?_, fun code _ => h.check _ (Nat.le_add_right _ _)⟩
  unfold sparseBlock
  rw [getBlockIndex_start, h.used, h.failCount]
  rfl

/-- A pass that comes to the start of an untouched block finds a base. -/
theorem chainRound_reaches {codes : List Nat} (hcodes : Codes codes) {block : Nat}
    (pre post : List Nat) (n : Nat) (hn : pre.length < n) {d : DoubleArrayTrie} (h : d.Wf)
    (hblock : d.Untouched block) (hque : d.chainQueue = pre ++ kBlockSize * block :: post)
    (hpre : ∀ index ∈ pre, index < kBlockSize * block) (d' : DoubleArrayTrie) :
    d.chainRound codes (minCharCode codes) n ≠ .notFound d' := by
  induction pre generalizing post n d with
  | nil =>
    obtain ⟨n, rfl⟩ : ∃ m, n = m + 1 := ⟨n - 1, by simp at hn; omega⟩
    rcases chainRound_cons hcodes n h hque with ⟨-, e, -, -, heq⟩ | ⟨hnot, -⟩
    · rw [heq]
      simp
    · exact absurd (hblock.takes codes) hnot
  | cons index pre ih =>
    obtain ⟨n, rfl⟩ : ∃ m, n = m + 1 := ⟨n - 1, by simp at hn; omega⟩
    rcases chainRound_cons hcodes n h hque with
      ⟨-, e, -, -, heq⟩ | ⟨-, e, back, hw, hs, hq, hf, heq⟩
    · rw [heq]
      simp
    · rw [heq]
      refine ih (post ++ back) n (by simpa using hn) hw ?_ (by rw [hq]; simp)
        fun i hi => hpre i (List.mem_cons_of_mem index hi)
      have hne := getBlockIndex_lt (hpre index List.mem_cons_self)
      refine ⟨fun i hi => ?_, ?_, ?_⟩
      · rw [hs.check]
        exact hblock.check i hi
      · rw [hs.used]
        exact hblock.used
      · rw [hf block (by omega)]
        exact hblock.failCount

/-- Cells are added, and those that were there are kept. -/
structure Grown (d d' : DoubleArrayTrie) : Prop where
  base : d'.baseVec = d.baseVec
  check : d'.checkVec = d.checkVec
  fail : d'.failVec = d.failVec
  output : d'.outputSizeVec = d.outputSizeVec
  used : d'.blockUsedSizeVec = d.blockUsedSizeVec
  capacity : d.elementCapacity ≤ d'.elementCapacity

theorem Grown.trans {d₁ d₂ d₃ : DoubleArrayTrie} (h : Grown d₁ d₂) (h' : Grown d₂ d₃) :
    Grown d₁ d₃ where
  base := h'.base.trans h.base
  check := h'.check.trans h.check
  fail := h'.fail.trans h.fail
  output := h'.output.trans h.output
  used := h'.used.trans h.used
  capacity := h.capacity.trans h'.capacity

theorem Same.grown {d d' : DoubleArrayTrie} (h : Same d d') : Grown d d' :=
  ⟨h.base, h.check, h.fail, h.output, h.used, h.capacity.ge⟩

/-- Past the first three, a reservation is one round. -/
theorem reserveTrie_eq {d : DoubleArrayTrie} (h : kMaxValOfCharCode < d.elementCapacity) :
    d.reserveTrie =
      let capacity := d.elementCapacity + kMapIncreaseSize * kBlockSize
      let last := capacity - kMaxValOfCharCode
      let first := d.maxChainNodeIndex
      { d with
        mapSize := d.mapSize + kMapIncreaseSize
        elementCapacity := capacity
        maxChainNodeIndex := last
        chainQueue := d.chainQueue ++ (List.range' first (last + 1 - first)).map u32
        blockFailCountVec := fun block => d.blockFailCountVec block / 2 } := by
  have hgt : d.elementCapacity + kMapIncreaseSize * kBlockSize > kMaxValOfCharCode :=
    Nat.lt_add_right _ h
  have hne : d.elementCapacity + kMapIncreaseSize * kBlockSize - kMaxValOfCharCode ≠ 0 := by
    omega
  have hround : d.reserveRound = { d with
      mapSize := d.mapSize + kMapIncreaseSize
      elementCapacity := d.elementCapacity + kMapIncreaseSize * kBlockSize
      maxChainNodeIndex :=
        d.elementCapacity + kMapIncreaseSize * kBlockSize - kMaxValOfCharCode } := by
    unfold reserveRound
    dsimp only
    rw [if_pos hgt]
  have hloop : reserveLoop 3 d = d.reserveRound := by
    rw [reserveLoop, hround]
    exact if_neg hne
  unfold reserveTrie
  rw [hloop, hround]

theorem Wf.reserve {d : DoubleArrayTrie} (h : d.Wf)
    (hroom : d.elementCapacity + kMapIncreaseSize * kBlockSize ≤ 2 ^ 32) : d.reserveTrie.Wf := by
  rw [reserveTrie_eq h.room]
  have hlast := h.last
  have hcap := h.room
  have hgrow : kMapIncreaseSize * kBlockSize = 4096 := rfl
  constructor
  · show d.elementCapacity + _ = kBlockSize * (d.mapSize + kMapIncreaseSize)
    rw [h.capacity, Nat.mul_add, Nat.mul_comm kMapIncreaseSize]
  · exact Nat.lt_add_right _ h.room
  · exact hroom
  · rfl
  · intro index hi
    show 1 ≤ index ∧ index ≤ d.elementCapacity + _ - kMaxValOfCharCode
    rcases List.mem_append.mp hi with hi | hi
    · have := h.chain index hi
      omega
    · obtain ⟨i, hmem, rfl⟩ := List.mem_map.mp hi
      rw [List.mem_range'_1] at hmem
      have hpos : 0 < kMaxValOfCharCode := by decide
      rw [u32_of_lt (by omega)]
      omega
  · intro index hi
    show 1 ≤ index ∧ index ≤ d.elementCapacity + _ - kMaxValOfCharCode
    have := h.dense index hi
    omega
  · exact h.root
  · exact fun index hi => h.freshCheck index ((Nat.le_add_right _ _).trans hi)
  · exact fun block hb => h.freshUsed block ((Nat.le_add_right _ _).trans hb)
  · intro block hb
    show d.blockFailCountVec block / 2 = 0
    rw [h.freshFail block ((Nat.le_add_right _ _).trans hb)]

theorem Wf.reserve_grown {d : DoubleArrayTrie} (h : d.Wf) : Grown d d.reserveTrie := by
  rw [reserveTrie_eq h.room]
  exact ⟨rfl, rfl, rfl, rfl, rfl, Nat.le_add_right _ _⟩

/-- A dense queue without an empty cell is used up. -/
theorem denseRound_notFound {d d' : DoubleArrayTrie} {low : Nat} {que : List Nat}
    (h : d.denseRound low que = .notFound d') : d' = { d with denseChainQueue := [] } := by
  induction que with
  | nil => exact (Probe.notFound.inj h).symm
  | cons index que ih =>
    rw [denseRound] at h
    split at h
    · exact absurd h (by simp)
    · exact absurd h (by simp)
    · exact ih h

theorem probe_reaches {codes : List Nat} (hcodes : Codes codes) {block : Nat}
    (pre post : List Nat) {d : DoubleArrayTrie} (h : d.Wf) (hblock : d.Untouched block)
    (hque : d.chainQueue = pre ++ kBlockSize * block :: post)
    (hpre : ∀ index ∈ pre, index < kBlockSize * block) (d' : DoubleArrayTrie) :
    d.probe codes ≠ .notFound d' := by
  have hlen : pre.length < d.chainQueue.length := by
    rw [hque, List.length_append, List.length_cons]
    omega
  unfold probe
  dsimp only
  split
  · rename_i e hdense
    have hdrop : e = d ∨ e = { d with denseChainQueue := [] } := by
      split at hdense
      · exact .inr (denseRound_notFound hdense)
      · exact .inl (Probe.notFound.inj hdense).symm
    rcases hdrop with rfl | rfl
    · exact chainRound_reaches hcodes pre post _ hlen h hblock hque hpre d'
    · refine chainRound_reaches (d := { d with denseChainQueue := [] }) hcodes pre post _ hlen ?_ ?_
        hque hpre d'
      · exact { h with dense := fun _ hmem => absurd hmem (by simp) }
      · exact ⟨hblock.check, hblock.used, hblock.failCount⟩
  · rename_i hnot
    exact hnot d'

/-- A range, cut at one of its members. -/
theorem range_cut {first n start : Nat} (hle : first ≤ start) (hlt : start < first + n) :
    List.range' first n =
      List.range' first (start - first) ++
        start :: List.range' (start + 1) (first + n - start - 1) := by
  have hn : n = start - first + (first + n - start - 1 + 1) := by omega
  rw [← List.range'_succ]
  conv_lhs => rw [hn, ← List.range'_append_1, Nat.add_sub_cancel' hle]

/-- The queue after a reservation that brings the start of a block into reach. -/
theorem reserve_queue {d : DoubleArrayTrie} (h : d.Wf) {start : Nat}
    (hroom : d.elementCapacity + kMapIncreaseSize * kBlockSize ≤ 2 ^ 32)
    (hlow : d.maxChainNodeIndex < start)
    (hhigh : start + kMaxValOfCharCode ≤ d.elementCapacity + kMapIncreaseSize * kBlockSize) :
    ∃ pre post, d.reserveTrie.chainQueue = pre ++ start :: post ∧ ∀ index ∈ pre, index < start := by
  have hpos : 0 < kMaxValOfCharCode := by decide
  have hu32 : ∀ i ≤ start, u32 i = i := fun i hi => u32_of_lt (by omega)
  rw [reserveTrie_eq h.room]
  dsimp only
  rw [range_cut (Nat.le_of_lt hlow) (by omega), List.map_append, List.map_cons,
    hu32 start (Nat.le_refl _), ← List.append_assoc]
  refine ⟨_, _, rfl, fun index hi => ?_⟩
  rcases List.mem_append.mp hi with hi | hi
  · exact Nat.lt_of_le_of_lt (h.chain index hi).2 hlow
  · obtain ⟨i, hmem, rfl⟩ := List.mem_map.mp hi
    rw [List.mem_range'_1] at hmem
    rw [hu32 i (by omega)]
    omega

/-- What the search returns. -/
structure Proper (codes : List Nat) (d d' : DoubleArrayTrie) (base : Nat) : Prop where
  wf : d'.Wf
  grown : Grown d d'
  window : ∃ index, Free d' codes index ∧ base = wrapSub index (minCharCode codes)

/-- A round finds a base, or reserves. -/
theorem getProperBase_succ {codes : List Nat} (hcodes : Codes codes) (fuel : Nat)
    {d : DoubleArrayTrie} (h : d.Wf) :
    (∃ base d', d.getProperBase codes (fuel + 1) = some (base, d') ∧ Proper codes d d' base) ∨
    (∃ d', d.probe codes = .notFound d' ∧ Wf d' ∧ Same d d' ∧
      d.getProperBase codes (fuel + 1) = d'.reserveTrie.getProperBase codes fuel) := by
  have hgood := probe_good hcodes h
  rw [getProperBase]
  cases hp : d.probe codes with
  | outOfRange =>
    rw [hp] at hgood
    exact absurd hgood id
  | found base d' =>
    rw [hp] at hgood
    exact .inl ⟨base, d', rfl, hgood.1, hgood.2.1.grown, hgood.2.2⟩
  | notFound d' =>
    rw [hp] at hgood
    exact .inr ⟨d', rfl, hgood.1, hgood.2, rfl⟩

/-- The rounds when the start of an unused block comes into reach after `n` reservations. -/
theorem getProperBase_rounds {codes : List Nat} (hcodes : Codes codes) (block : Nat) (n : Nat)
    {d : DoubleArrayTrie} (h : d.Wf) (hblock : d.Untouched block)
    (hcap : d.elementCapacity + 4096 * n = kBlockSize * block + 12288)
    (hroom : kBlockSize * block + 12288 ≤ 2 ^ 32)
    (hque : n = 0 → ∃ pre post, d.chainQueue = pre ++ kBlockSize * block :: post ∧
      ∀ index ∈ pre, index < kBlockSize * block) :
    ∃ base d', d.getProperBase codes (n + 1) = some (base, d') ∧ Proper codes d d' base := by
  induction n generalizing d with
  | zero =>
    obtain ⟨pre, post, hq, hpre⟩ := hque rfl
    rcases getProperBase_succ hcodes 0 h with hfound | ⟨d', hp, -⟩
    · exact hfound
    · exact absurd hp (probe_reaches hcodes pre post h hblock hq hpre d')
  | succ n ih =>
    rcases getProperBase_succ hcodes (n + 1) h with hfound | ⟨d₁, -, hw, hs, heq⟩
    · exact hfound
    · have hgrow : kMapIncreaseSize * kBlockSize = 4096 := rfl
      have hmax : kMaxValOfCharCode = 11683 := rfl
      have hcap₁ := hs.capacity
      have hroom₁ := hw.room
      have hlast₁ := hw.last
      have hmore : d₁.elementCapacity + kMapIncreaseSize * kBlockSize ≤ 2 ^ 32 := by omega
      have hlow : d₁.maxChainNodeIndex < kBlockSize * block := by omega
      have hgrown := hs.grown.trans hw.reserve_grown
      -- tries fail only in blocks that were in reach
      have hcount : d₁.blockFailCountVec block = 0 := by
        rw [hs.failCount block (getBlockIndex_lt (by rw [← hs.last]; exact hlow))]
        exact hblock.failCount
      have hblock₂ : d₁.reserveTrie.Untouched block := by
        refine ⟨fun index hi => ?_, ?_, ?_⟩
        · rw [hgrown.check]
          exact hblock.check index hi
        · rw [hgrown.used]
          exact hblock.used
        · rw [reserveTrie_eq hw.room]
          show d₁.blockFailCountVec block / 2 = 0
          rw [hcount]
      have hcap₂ : d₁.reserveTrie.elementCapacity =
          d₁.elementCapacity + kMapIncreaseSize * kBlockSize := by
        rw [reserveTrie_eq hw.room]
      obtain ⟨base, d', hrun, hproper⟩ := ih (hw.reserve hmore) hblock₂ (by omega)
        fun hn => reserve_queue hw hmore hlow (by omega)
      exact ⟨base, d', heq.trans hrun, hproper.wf, hgrown.trans hproper.grown, hproper.window⟩

/-- The search ends: no access is out of range, the cells are kept, and the base that it finds
    puts every code on a free cell. -/
theorem getProperBase_spec {codes : List Nat} (hcodes : Codes codes) {d : DoubleArrayTrie}
    (h : d.Wf) (hroom : d.elementCapacity + 12288 ≤ 2 ^ 32) :
    ∃ base d', d.getProperBase codes 4 = some (base, d') ∧ Proper codes d d' base := by
  have hcap := h.capacity
  refine getProperBase_rounds hcodes d.mapSize 3 h ?_ (by omega) (by omega)
    fun hn => absurd hn (by decide)
  refine ⟨fun index hi => h.freshCheck index (by omega), h.freshUsed _ (Nat.le_refl _),
    h.freshFail _ (Nat.le_refl _)⟩

/-- The cells under a base that the search found. -/
theorem Proper.cell {codes : List Nat} (hcodes : Codes codes) {d d' : DoubleArrayTrie} {base : Nat}
    (h : Proper codes d d' base) {code : Nat} (hcode : code ∈ codes) :
    2 ≤ u32 (base + code) ∧ u32 (base + code) < d'.elementCapacity ∧
      d.checkVec (u32 (base + code)) = 0 := by
  obtain ⟨index, hfree, rfl⟩ := h.window
  rw [h.wf.cell hcodes hfree.le_last hcode]
  refine ⟨hfree.notRoot.trans (Nat.le_add_right _ _), h.wf.window hcodes hfree.le_last hcode, ?_⟩
  rw [← h.grown.check]
  exact hfree.empty code hcode

theorem Proper.cell_inj {codes : List Nat} (hcodes : Codes codes) {d d' : DoubleArrayTrie}
    {base : Nat} (h : Proper codes d d' base) {c e : Nat} (hc : c ∈ codes) (he : e ∈ codes)
    (heq : u32 (base + c) = u32 (base + e)) : c = e := by
  obtain ⟨index, hfree, rfl⟩ := h.window
  rw [h.wf.cell hcodes hfree.le_last hc, h.wf.cell hcodes hfree.le_last he] at heq
  have hc' := (minCharCode_bounds hcodes hc).2
  have he' := (minCharCode_bounds hcodes he).2
  omega

end DoubleArrayTrie

end CdsGuard.DoubleArray
