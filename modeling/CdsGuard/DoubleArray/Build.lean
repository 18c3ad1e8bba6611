import CdsGuard.DoubleArray.LayoutWalk
import CdsGuard.DoubleArray.SearchRounds

/-
  `DoubleArrayTrie::build` put together: the failure links are copied from the nodes to their
  cells, and the queues are emptied.

  Proved: when every step of the layout is clean, the arrays hold the automaton of the patterns
  (`construct_spec`), so that a search finds the bytes of all occurrences and no others
  (`search_finds_all`). When one is not, occurrences can be missed (`search_misses`).
-/

namespace CdsGuard.DoubleArray

open CdsGuard.Lib DoubleArrayTrie

/-- One round of the loop over the children of `curr`. -/
def setFail (l : Links) (datIndex : Path → Nat) (curr : Path) (failVec : Nat → Nat) (code : Nat) :
    Nat → Nat :=
  Function.update failVec (datIndex (curr ++ [code])) (datIndex (l.fail (curr ++ [code])))

/-- The last `while` of `build`, over `entry_que`. -/
def setFailLoop (order : MapOrder) (t : Trie) (l : Links) (datIndex : Path → Nat) :
    Nat → List Path → (Nat → Nat) → Option (Nat → Nat)
  | _, [], failVec => some failVec
  | 0, _ :: _, _ => none
  | fuel + 1, curr :: que, failVec =>
    let codes := order.visit curr (t.children curr)
    setFailLoop order t l datIndex fuel (que ++ codes.map fun code => curr ++ [code])
      (codes.foldl (setFail l datIndex curr) failVec)

/-- Why there is no trie: an exception of `build`, or an access out of range or a loop that goes
    on for longer than the fuel. -/
inductive Stop where
  | thrown (e : BuildError)
  | stuck
  deriving DecidableEq

/-- `build`, called on the members `d`. -/
def build (order : MapOrder) (fuel : Nat) (ignoreCase : Bool) (patterns : List Bytes)
    (d : DoubleArrayTrie) : Except Stop DoubleArrayTrie :=
  match insertAll ignoreCase patterns with
  | .error e => .error (.thrown e)
  | .ok t =>
    match linkAll order t fuel with
    | none => .error .stuck
    | some l =>
      match layoutLoop order t l.matched fuel (layoutStart d) with
      | none => .error .stuck
      | some s =>
        match setFailLoop order t l s.datIndex fuel [[]] s.array.failVec with
        | none => .error .stuck
        | some failVec => .ok { s.array with failVec, chainQueue := [], denseChainQueue := [] }

/-- The constructor from a range of patterns. -/
def construct (order : MapOrder) (fuel : Nat) (ignoreCase : Bool) (patterns : List Bytes) :
    Except Stop DoubleArrayTrie :=
  build order fuel ignoreCase patterns fresh

/-- The steps of the layout are clean. -/
def cleanFrom (order : MapOrder) (fuel : Nat) (ignoreCase : Bool) (patterns : List Bytes)
    (d : DoubleArrayTrie) : Bool :=
  match insertAll ignoreCase patterns with
  | .error _ => true
  | .ok t =>
    match linkAll order t fuel with
    | none => true
    | some l => cleanLayout order t l.matched fuel (layoutStart d)

/-- The steps of the layout in the constructor are clean. -/
def cleanBuild (order : MapOrder) (fuel : Nat) (ignoreCase : Bool) (patterns : List Bytes) : Bool :=
  cleanFrom order fuel ignoreCase patterns fresh

/-! ## The failure links of the cells -/

section

variable {words : List Path} {t : Trie} {l : Links} {datIndex : Path → Nat}

theorem setFail_foldl {curr : Path} (codes : List Nat)
    (hinj : ∀ c ∈ codes, ∀ e ∈ codes, datIndex (curr ++ [c]) = datIndex (curr ++ [e]) → c = e)
    (failVec : Nat → Nat) :
    (∀ c ∈ codes, codes.foldl (setFail l datIndex curr) failVec (datIndex (curr ++ [c])) =
      datIndex (l.fail (curr ++ [c]))) ∧
    ∀ i, (∀ c ∈ codes, i ≠ datIndex (curr ++ [c])) →
      codes.foldl (setFail l datIndex curr) failVec i = failVec i := by
  induction codes generalizing failVec with
  | nil => exact ⟨fun c hc => absurd hc (by simp), fun _ _ => rfl⟩
  | cons code codes ih =>
    obtain ⟨hset, hkeep⟩ := ih (fun c hc e he => hinj c (List.mem_cons_of_mem code hc) e
      (List.mem_cons_of_mem code he)) (setFail l datIndex curr failVec code)
    rw [List.foldl_cons]
    refine ⟨fun c hc => ?_, fun i hi => ?_⟩
    · by_cases hmem : c ∈ codes
      · exact hset c hmem
      · obtain rfl : c = code := (List.mem_cons.mp hc).resolve_right hmem
        rw [hkeep _ fun e he heq => hmem ?_]
        · exact Function.update_self ..
        · rw [hinj c hc e (List.mem_cons_of_mem c he) heq]
          exact he
    · rw [hkeep i fun c hc => hi c (List.mem_cons_of_mem code hc)]
      exact Function.update_of_ne (hi code List.mem_cons_self) ..

/-- The cells of the nodes that do not wait have their links. -/
def FailInv (words : List Path) (l : Links) (datIndex : Path → Nat) (que : List Path)
    (failVec : Nat → Nat) : Prop :=
  ∀ v, IsNode words v → v ≠ [] → ¬Waiting que v → failVec (datIndex v) = datIndex (l.fail v)

theorem FailInv.step {curr : Path} {que : List Path} {failVec : Nat → Nat}
    (h : FailInv words l datIndex (curr :: que) failVec)
    (hinj : ∀ u v, IsNode words u → IsNode words v → datIndex u = datIndex v → u = v)
    {codes : List Nat} (hcodes : ∀ c, c ∈ codes ↔ IsNode words (curr ++ [c])) :
    FailInv words l datIndex (que ++ codes.map fun c => curr ++ [c])
      (codes.foldl (setFail l datIndex curr) failVec) := by
  obtain ⟨hset, hkeep⟩ := setFail_foldl (l := l) codes (fun c hc e he heq => by
    simpa using hinj _ _ ((hcodes c).mp hc) ((hcodes e).mp he) heq) failVec
  intro v hv hvne hw
  by_cases hchild : ∃ c ∈ codes, v = curr ++ [c]
  · obtain ⟨c, hc, rfl⟩ := hchild
    exact hset c hc
  · rw [hkeep _ fun c hc heq => hchild ⟨c, hc, hinj _ _ hv ((hcodes c).mp hc) heq⟩]
    refine h v hv hvne fun hw' => ?_
    exact (hw'.next hcodes hv).elim hchild hw

theorem setFailLoop_inv (ht : t.Edges words) (order : MapOrder)
    (hinj : ∀ u v, IsNode words u → IsNode words v → datIndex u = datIndex v → u = v)
    (fuel : Nat) (que : List Path) (failVec : Nat → Nat)
    (hque : ∀ q ∈ que, IsNode words q ∧ q ≠ []) (h : FailInv words l datIndex que failVec)
    (hfuel : (que.map (weight words)).sum ≤ fuel) :
    ∃ failVec', setFailLoop order t l datIndex fuel que failVec = some failVec' ∧
      FailInv words l datIndex [] failVec' := by
  induction fuel generalizing que failVec with
  | zero =>
    cases que with
    | nil => exact ⟨failVec, rfl, h⟩
    | cons curr que =>
      obtain ⟨hnode, hne⟩ := hque curr List.mem_cons_self
      have hlt := children_weight_lt words (v := curr) List.nodup_nil
        (hnode.resolve_left hne)
      rw [List.map_cons, List.sum_cons] at hfuel
      omega
  | succ fuel ih =>
    cases que with
    | nil => exact ⟨failVec, rfl, h⟩
    | cons curr que =>
      obtain ⟨hnode, hne⟩ := hque curr List.mem_cons_self
      have hcodes : ∀ c, c ∈ order.visit curr (t.children curr) ↔ IsNode words (curr ++ [c]) :=
        fun c => order.mem_visit.trans ht.mem_children
      have hweight := children_weight_lt words
        ((order.perm curr (t.children curr)).nodup_iff.mpr (ht.nodup curr)) (hnode.resolve_left hne)
      rw [List.map_cons, List.sum_cons] at hfuel
      refine ih _ _ (fun q hq => ?_) (h.step hinj hcodes) (by rw [queue_weight]; omega)
      rcases List.mem_append.mp hq with hq | hq
      · exact hque q (List.mem_cons_of_mem curr hq)
      · obtain ⟨c, hc, rfl⟩ := List.mem_map.mp hq
        exact ⟨(hcodes c).mp hc, by simp⟩

/-- The loop from its start: every cell of a node other than the root has its link. -/
theorem setFailLoop_spec (ht : t.Edges words) (order : MapOrder)
    (hinj : ∀ u v, IsNode words u → IsNode words v → datIndex u = datIndex v → u = v)
    (fuel : Nat) (failVec : Nat → Nat) (hfuel : (words.map fun w => w.length + 1).sum + 1 ≤ fuel) :
    ∃ failVec', setFailLoop order t l datIndex fuel [[]] failVec = some failVec' ∧
      ∀ v, IsNode words v → v ≠ [] → failVec' (datIndex v) = datIndex (l.fail v) := by
  obtain ⟨fuel, rfl⟩ : ∃ n, fuel = n + 1 := ⟨fuel - 1, by omega⟩
  have hcodes : ∀ c, c ∈ order.visit [] (t.children []) ↔ IsNode words ([] ++ [c]) :=
    fun c => order.mem_visit.trans ht.mem_children
  have hweight := children_weight_le words [] _
    ((order.perm [] (t.children [])).nodup_iff.mpr (ht.nodup []))
  have hall : weight words [] ≤ fuel := by
    rw [weight_nil]
    exact Nat.le_of_succ_le_succ hfuel
  -- at the start every node waits for the root
  have hstart : FailInv words l datIndex [[]] failVec := fun v _ hvne hw =>
    absurd ⟨[], List.mem_singleton.mpr rfl, List.nil_prefix, hvne.symm⟩ hw
  obtain ⟨failVec', hrun, hinv⟩ := setFailLoop_inv (l := l) ht order hinj fuel _ _ (fun q hq => by
    obtain ⟨c, hc, rfl⟩ := List.mem_map.mp hq
    exact ⟨(hcodes c).mp hc, by simp⟩) (hstart.step hinj hcodes)
    (by rw [queue_weight, List.map_nil, List.sum_nil]; omega)
  refine ⟨failVec', hrun, fun v hv hvne => hinv v hv hvne ?_⟩
  rintro ⟨q, hq, -⟩
  exact absurd hq (by simp)

/-! ## The arrays -/

/-- All nodes are placed and linked, so the arrays hold the automaton. -/
theorem Laid.automaton {matched : Path → Nat} {d : DoubleArrayTrie}
    (h : Laid words matched d datIndex []) (hwords : ∀ w ∈ words, Codes w)
    (hplaced : ∀ v, IsNode words v → datIndex v ≠ 0)
    {failVec : Nat → Nat} (hfail : ∀ v, IsNode words v → v ≠ [] →
      failVec (datIndex v) = datIndex (failOf (IsNode words) v)) :
    Automaton words { d with failVec, chainQueue := [], denseChainQueue := [] } datIndex := by
  have hcode : ∀ v c, IsNode words (v ++ [c]) → c ≤ kMaxValOfCharCode := by
    intro v c hv
    obtain ⟨w, hw, hpre⟩ := isNode_snoc_iff.mp hv
    exact (hwords w hw c (hpre.subset (by simp))).2
  refine { root := h.root, root_iff := ?_, bound := fun v _ => h.bound v, child := ?_, other := ?_
           fail := hfail }
  · intro v hv heq
    exact h.inj v [] (hplaced v hv) (heq.trans h.root.symm)
  · intro v c hv
    obtain ⟨-, hcell, hcheck, -⟩ := h.child v c (hplaced _ hv)
    exact ⟨hcell, hcheck⟩
  · intro v c hv hc hnode hcheck
    have hv0 := hplaced v hv
    rcases h.used _ (by rw [hcheck]; exact hv0) with hroot | ⟨hne, u, e, hu⟩
    · refine ⟨h.inj v [] hv0 ?_, hroot⟩
      rw [h.root, ← hcheck]
      show d.checkVec (u32 (d.baseVec (datIndex v) + c)) = kRootIndex
      rw [show u32 (d.baseVec (datIndex v) + c) = kRootIndex from hroot, h.rootCheck]
    · -- the cell is that of a child of `v`, so by another code, which cannot be
      have hue : datIndex (u ++ [e]) ≠ 0 := by rwa [hu]
      obtain ⟨hu0, hcell, hparent, -⟩ := h.child u e hue
      rw [hu] at hparent hcell
      obtain rfl := h.inj u v hu0 (hparent.symm.trans hcheck)
      have he := hcode u e (h.node _ hue)
      have hce : c = e := by
        have hcell' : u32 (d.baseVec (datIndex u) + e) = u32 (d.baseVec (datIndex u) + c) := hcell
        unfold u32 kMaxValOfCharCode at *
        omega
      rw [hce] at hnode
      exact absurd (h.node _ hue) hnode

/-- A node's cell has its size, and the root's has none. -/
theorem Laid.output {matched : Path → Nat} {d : DoubleArrayTrie}
    (h : Laid words matched d datIndex []) (hplaced : ∀ v, IsNode words v → datIndex v ≠ 0)
    {v : Path} (hv : IsNode words v) :
    d.outputSizeVec (datIndex v) = if v = [] then 0 else matched v := by
  rcases List.eq_nil_or_concat' v with rfl | ⟨u, c, rfl⟩
  · rw [h.root, h.rootOutput]
    rfl
  · rw [if_neg (by simp)]
    exact (h.child u c (hplaced _ hv)).2.2.2

end

/-- Enough rounds for all loops of `build` over the nodes. -/
def buildFuel (ps : List (List Char)) : Nat := 2 * (ps.map fun p => p.length + 1).sum + 1

theorem buildFuel_eq (ignoreCase : Bool) (ps : List (List Char)) :
    2 * ((wordsOf ignoreCase ps).map fun w => w.length + 1).sum + 1 = buildFuel ps := by
  unfold buildFuel wordsOf
  rw [List.map_reverse, List.sum_reverse, List.map_map]
  congr 2
  refine congrArg List.sum (List.map_congr_left fun p _ => ?_)
  exact congrArg (· + 1) (List.length_map ..)

theorem wordsOf_codes {ignoreCase : Bool} {ps : List (List Char)}
    (hps : ∀ p ∈ ps, Supported ignoreCase p) : ∀ w ∈ wordsOf ignoreCase ps, Codes w := by
  intro w hw c hc
  obtain ⟨p, hp, rfl⟩ := mem_wordsOf.mp hw
  obtain ⟨ch, hch, rfl⟩ := List.mem_map.mp hc
  exact ⟨Nat.pos_of_ne_zero (hps p hp ch hch), charCode_le ignoreCase ch.val.toNat⟩

/-- With clean steps of the layout `build` returns, whatever sizes the patterns have; the arrays
    hold the automaton, and in each cell what was collected for its node. -/
theorem build_automaton (order : MapOrder) {d : DoubleArrayTrie} (hd : Erased d)
    {ignoreCase : Bool} {patterns : List Bytes} {words : List Path} {t : Trie}
    (hinsert : insertAll ignoreCase patterns = .ok t)
    (ht : t.Edges words) (hwords : ∀ w ∈ words, Codes w) (fuel : Nat)
    (hfuel : 2 * (words.map fun w => w.length + 1).sum + 1 ≤ fuel)
    (hclean : cleanFrom order fuel ignoreCase patterns d = true) :
    ∃ d' datIndex, build order fuel ignoreCase patterns d = .ok d' ∧
      Automaton words d' datIndex ∧
      ∀ v, IsNode words v → d'.outputSizeVec (datIndex v) =
        if v = [] then 0 else collected (IsNode words) t.matchedSize v := by
  obtain ⟨l, hlink, -, hlinked⟩ := linkAll_linked ht order fuel (by omega)
  unfold cleanFrom at hclean
  rw [hinsert] at hclean
  simp only [hlink] at hclean
  obtain ⟨s, hlayout, hlaid, hplaced⟩ := layoutLoop_spec hd ht hwords order fuel hfuel hclean
  have hinj : ∀ u v, IsNode words u → IsNode words v → s.datIndex u = s.datIndex v → u = v :=
    fun u v hu _ => hlaid.inj u v (hplaced u hu)
  obtain ⟨failVec, hset, hfail⟩ := setFailLoop_spec (l := l) ht order hinj fuel s.array.failVec
    (by omega)
  have hlinks : ∀ v, IsNode words v → v ≠ [] →
      failVec (s.datIndex v) = s.datIndex (failOf (IsNode words) v) := by
    intro v hv hvne
    rw [hfail v hv hvne, (hlinked v hv hvne).1]
  refine ⟨_, s.datIndex, ?_, hlaid.automaton hwords hplaced hlinks, fun v hv => ?_⟩
  · unfold build
    rw [hinsert]
    simp only [hlink, hlayout]
    rw [hset]
  · refine (hlaid.output hplaced hv).trans ?_
    split
    · rfl
    · rename_i hne
      exact (hlinked v hv hne).2

/-- With clean steps of the layout the constructor returns, and the arrays hold the automaton. -/
theorem construct_spec (order : MapOrder) (ignoreCase : Bool) (ps : List (List Char))
    (hps : ∀ p ∈ ps, Supported ignoreCase p) (fuel : Nat) (hfuel : buildFuel ps ≤ fuel)
    (hclean : cleanBuild order fuel ignoreCase (ps.map utf8) = true) :
    ∃ d datIndex, construct order fuel ignoreCase (ps.map utf8) = .ok d ∧
      Faithful (wordsOf ignoreCase ps) d datIndex := by
  rw [← buildFuel_eq ignoreCase ps] at hfuel
  obtain ⟨t, hinsert, ht⟩ := insertAll_spec ignoreCase ps hps
  obtain ⟨d, datIndex, hbuild, hd, houtput⟩ := build_automaton order fresh_erased hinsert
    ht.toEdges (wordsOf_codes hps) fuel hfuel hclean
  have hsize : t.matchedSize = patternSize (wordsOf ignoreCase ps) := funext ht.matched_eq
  refine ⟨d, datIndex, hbuild, hd, fun v hv => ?_⟩
  rw [houtput v hv, hsize,
    collected_eq_best (fun w => isNode_of_patternSize w) (patternSize_nil _)]
  split
  · rename_i hnil
    rw [hnil]
    exact (patternSize_nil _).symm
  · rfl

/-- The ranges that a trie finds in a text cover the bytes of all occurrences of its patterns
    and no others, when every step of the layout is clean and sizes of patterns have 32 bits. -/
theorem search_finds_all (order : MapOrder) (ignoreCase : Bool) (ps : List (List Char))
    (hps : ∀ p ∈ ps, Supported ignoreCase p) (hsize : ∀ p ∈ ps, (utf8 p).length < 2 ^ 32)
    (fuel : Nat) (hfuel : buildFuel ps ≤ fuel)
    (hclean : cleanBuild order fuel ignoreCase (ps.map utf8) = true)
    (text : List Char) (htext : (utf8 text).length < 2 ^ 64) :
    ∃ d infos, construct order fuel ignoreCase (ps.map utf8) = .ok d ∧
      search d ignoreCase (utf8 text) = some infos ∧
      ∀ i, Covers infos i ↔ InOccurrence ignoreCase ps text i := by
  obtain ⟨d, datIndex, hbuild, hd⟩ := construct_spec order ignoreCase ps hps fuel hfuel hclean
  obtain ⟨infos, hsearch, hall⟩ := search_spec ⟨hps, hsize⟩ hd text htext
  exact ⟨d, infos, hbuild, hsearch, hall⟩

/-- The children in the order of their insertion. -/
def insertionOrder : MapOrder := ⟨fun _ keys => keys, fun _ keys => List.Perm.refl keys⟩

theorem search_finds_all_cats :
    ∃ d infos, construct insertionOrder 40 true ([['c', 'a', 't'], ['A', 'T', '가'], []].map utf8) =
        .ok d ∧
      search d true (utf8 ['C', 'a', 'T', '가', '\u00e9']) = some infos ∧
      ∀ i, Covers infos i ↔
        InOccurrence true [['c', 'a', 't'], ['A', 'T', '가'], []] ['C', 'a', 'T', '가', '\u00e9'] i :=
  search_finds_all insertionOrder true _ (by decide +kernel) (by decide +kernel)
    40 (by decide) (by decide +kernel) _ (by decide +kernel)

/-- The root of these patterns gets base 0 with its first child in cell 2. Back from that child
    the walk places both children again and goes down to the first of them once more, so that
    the second never gets its own. -/
theorem search_misses :
    ∃ d, construct insertionOrder 40 false ([['\x02', 'a'], ['\x03', 'b']].map utf8) = .ok d ∧
      search d false (utf8 ['\x03', 'b']) = some [] ∧
      InOccurrence false [['\x02', 'a'], ['\x03', 'b']] ['\x03', 'b'] 0 := by
  have hrun :
      (match construct insertionOrder 40 false ([['\x02', 'a'], ['\x03', 'b']].map utf8) with
      | .ok d => search d false (utf8 ['\x03', 'b'])
      | .error _ => none) = some [] := by
    decide +kernel
  cases hbuild : construct insertionOrder 40 false ([['\x02', 'a'], ['\x03', 'b']].map utf8) with
  | error e =>
    rw [hbuild] at hrun
    exact absurd hrun (by simp)
  | ok d =>
    rw [hbuild] at hrun
    exact ⟨d, rfl, hrun, [], ['\x03', 'b'], [], ['\x03', 'b'], rfl, by simp, by simp, rfl,
      by decide, by decide⟩

end CdsGuard.DoubleArray
