import CdsGuard.DoubleArray.PointerTrie
import CdsGuard.Lib.PrefixTree

/-
  The breadth-first walk of `build` computes the automaton of `Lib.AhoCorasick` over the prefixes
  of the patterns.

  A node waits while a proper prefix of it is in the queue; a node that does not wait has its
  final link and size (`LinkInv`). The queue is sorted by depth, so that everything as deep as
  its head is final, and no node in it is above another, so that a node stops waiting when its
  parent is taken out. Neither depends on the order in which children are visited.
-/

namespace CdsGuard.DoubleArray

open CdsGuard.Lib

/-- The size of the pattern with these codes, as `build` stores it; 0 if there is none. -/
def patternSize (words : List Path) (v : Path) : Nat := if v ∈ words then u32 (byteSize v) else 0

theorem isNode_of_patternSize {words : List Path} (v : Path) (h : patternSize words v ≠ 0) :
    IsNode words v := by
  by_contra hn
  exact h (if_neg fun hv => hn (isNode_of_mem hv))

section

variable {t : Trie} {words : List Path} {own : Path → Nat}

theorem Trie.Edges.mem_children (ht : t.Edges words) {v : Path} {c : Nat} :
    c ∈ t.children v ↔ IsNode words (v ++ [c]) := by
  rw [ht.mem_iff, isNode_snoc_iff]

/-! ## One child -/

/-- The link and the size of a node are final. -/
def Links.Final (words : List Path) (l : Links) (v : Path) : Prop :=
  l.fail v = failOf (IsNode words) v ∧ l.matched v = best (patternSize words) v

/-- The link and the size of a node are what the walk leaves there, from the sizes that the nodes
    have after the insertion. -/
def Links.Linked (words : List Path) (own : Path → Nat) (l : Links) (v : Path) : Prop :=
  l.fail v = failOf (IsNode words) v ∧ l.matched v = collected (IsNode words) own v

/-- Where the inner loop stops, the child or the root is where the automaton goes. -/
theorem chase_stop (ht : t.Edges words) {code : Nat} {dest : Path}
    (hor : dest = [] ∨ code ∈ t.children dest) :
    (if code ∈ t.children dest then dest ++ [code] else dest) = next (IsNode words) dest code := by
  split
  · rename_i hmem
    exact (next_of_mem (ht.mem_children.mp hmem)).symm
  · rename_i hmem
    obtain rfl : dest = [] := hor.resolve_right hmem
    exact (next_nil_of_not_mem fun h => hmem (ht.mem_children.mpr h)).symm

/-- The inner loop finds where the automaton goes from `dest`. -/
theorem chase_spec (ht : t.Edges words) (fail : Path → Path) (code fuel : Nat) (dest : Path)
    (hdest : IsNode words dest) (hfuel : dest.length ≤ fuel)
    (hfail : ∀ v, IsNode words v → v ≠ [] → v.length ≤ dest.length →
      fail v = failOf (IsNode words) v) :
    ∃ d, chase t fail code fuel dest = some d ∧
      (if code ∈ t.children d then d ++ [code] else d) = next (IsNode words) dest code := by
  have hT := isNode_prefixClosed words
  induction fuel generalizing dest with
  | zero =>
    have hnil : dest = [] := List.length_eq_zero_iff.mp (Nat.le_zero.mp hfuel)
    exact ⟨dest, if_pos (.inl hnil), chase_stop ht (.inl hnil)⟩
  | succ fuel ih =>
    by_cases hor : dest = [] ∨ code ∈ t.children dest
    · exact ⟨dest, if_pos hor, chase_stop ht hor⟩
    · obtain ⟨hne, hmem⟩ := not_or.mp hor
      have hlt := failOf_length_lt (T := IsNode words) hne
      have hnode : IsNode words (failOf (IsNode words) dest) := longest_mem hT _
      rw [next_of_not_mem hT hne fun h => hmem (ht.mem_children.mpr h), chase, if_neg hor,
        hfail dest hdest hne (Nat.le_refl _)]
      exact ih _ hnode (by omega) fun v hv hvne hvlen => hfail v hv hvne (by omega)

/-- Everything as deep as `curr` is final. -/
structure Links.FinalUpTo (words : List Path) (own : Path → Nat) (l : Links) (depth : Nat) :
    Prop where
  root : l.matched [] = own []
  final : ∀ v, IsNode words v → v ≠ [] → v.length ≤ depth → l.Linked words own v

theorem linkChild_spec (ht : t.Edges words) {l : Links} {curr : Path} {code : Nat}
    (hcurr : IsNode words curr) (hne : curr ≠ []) (hup : l.FinalUpTo words own curr.length)
    (hown : l.matched (curr ++ [code]) = own (curr ++ [code])) :
    ∃ l', linkChild t curr l code = some l' ∧ l'.Linked words own (curr ++ [code]) ∧
      ∀ v, v ≠ curr ++ [code] → l'.fail v = l.fail v ∧ l'.matched v = l.matched v := by
  have hT := isNode_prefixClosed words
  have hfail : l.fail curr = failOf (IsNode words) curr :=
    (hup.final curr hcurr hne (Nat.le_refl _)).1
  have hlt := failOf_length_lt (T := IsNode words) hne
  have hnode : IsNode words (failOf (IsNode words) curr) := longest_mem hT _
  obtain ⟨d, hchase, hdest⟩ := chase_spec ht l.fail code curr.length _ hnode (by omega)
    fun v hv hvne hvlen => (hup.final v hv hvne (by omega)).1
  rw [← failOf_snoc hT hne] at hdest
  refine ⟨_, by rw [linkChild, hfail, hchase, Option.map_some], ?_, fun v hv => ?_⟩
  · dsimp only
    rw [hdest]
    -- the size of the link's target is final, since it is no deeper than `curr`
    have hlink : l.matched (failOf (IsNode words) (curr ++ [code])) =
        collected (IsNode words) own (failOf (IsNode words) (curr ++ [code])) := by
      have hlen := failOf_length_lt (T := IsNode words) (v := curr ++ [code]) (by simp)
      rw [List.length_append, List.length_singleton] at hlen
      by_cases hroot : failOf (IsNode words) (curr ++ [code]) = []
      · rw [hroot, collected_nil]
        exact hup.root
      · exact (hup.final (failOf (IsNode words) (curr ++ [code])) (longest_mem hT _) hroot
          (by omega)).2
    refine ⟨Function.update_self .., ?_⟩
    show Function.update _ _ _ _ = _
    rw [Function.update_self, hown, hlink, collected_snoc own hne]
  · exact ⟨Function.update_of_ne hv .., Function.update_of_ne hv ..⟩

/-! ## All children of a node -/

theorem linkChildren_spec (ht : t.Edges words) {curr : Path} (hcurr : IsNode words curr)
    (hne : curr ≠ []) (codes : List Nat) (hnodup : codes.Nodup) (l : Links)
    (hup : l.FinalUpTo words own curr.length)
    (hown : ∀ c ∈ codes, l.matched (curr ++ [c]) = own (curr ++ [c])) :
    ∃ l', codes.foldlM (linkChild t curr) l = some l' ∧
      (∀ c ∈ codes, l'.Linked words own (curr ++ [c])) ∧
      ∀ v, (∀ c ∈ codes, v ≠ curr ++ [c]) → l'.fail v = l.fail v ∧ l'.matched v = l.matched v := by
  induction codes generalizing l with
  | nil => exact ⟨l, rfl, fun c hc => absurd hc (by simp), fun v _ => ⟨rfl, rfl⟩⟩
  | cons code codes ih =>
    obtain ⟨hcode, hnodup⟩ := List.nodup_cons.mp hnodup
    obtain ⟨l₁, hstep, hfinal, hframe⟩ := linkChild_spec ht hcurr hne hup
      (hown code List.mem_cons_self)
    have hother : ∀ c ∈ codes, curr ++ [c] ≠ curr ++ [code] := by
      intro c hc heq
      exact hcode (by simpa using (by simpa using heq : c = code) ▸ hc)
    have hlow : ∀ v, v.length ≤ curr.length → v ≠ curr ++ [code] := by
      rintro v hv rfl
      simp at hv
    have hup₁ : l₁.FinalUpTo words own curr.length := by
      refine ⟨?_, fun v hv hvne hvlen => ?_⟩
      · rw [(hframe [] (hlow [] (Nat.zero_le _))).2]
        exact hup.root
      · obtain ⟨hf, hm⟩ := hframe v (hlow v hvlen)
        obtain ⟨h1, h2⟩ := hup.final v hv hvne hvlen
        exact ⟨hf.trans h1, hm.trans h2⟩
    obtain ⟨l₂, hrun, hfinals, hframe₂⟩ := ih hnodup l₁ hup₁ fun c hc => by
      rw [(hframe _ (hother c hc)).2]
      exact hown c (List.mem_cons_of_mem code hc)
    refine ⟨l₂, by rw [List.foldlM_cons, hstep]; exact hrun, fun c hc => ?_, fun v hv => ?_⟩
    · rcases List.mem_cons.mp hc with rfl | hc
      · obtain ⟨hf, hm⟩ := hframe₂ (curr ++ [c]) fun d hd heq => hother d hd heq.symm
        exact ⟨hf.trans hfinal.1, hm.trans hfinal.2⟩
      · exact hfinals c hc
    · obtain ⟨hf, hm⟩ := hframe₂ v fun c hc => hv c (List.mem_cons_of_mem code hc)
      obtain ⟨hf₁, hm₁⟩ := hframe v (hv code List.mem_cons_self)
      exact ⟨hf.trans hf₁, hm.trans hm₁⟩

/-! ## The queue -/

/-- A proper prefix of the node is in the queue. -/
def Waiting (que : List Path) (v : Path) : Prop := ∃ q ∈ que, q <+: v ∧ q ≠ v

/-- When the head is taken out, its children wait no longer, and what is below them waits for
    them. -/
theorem Waiting.next {curr : Path} {que : List Path} {codes : List Nat}
    (hcodes : ∀ c, c ∈ codes ↔ IsNode words (curr ++ [c])) {v : Path}
    (h : Waiting (curr :: que) v) (hv : IsNode words v) :
    (∃ c ∈ codes, v = curr ++ [c]) ∨ Waiting (que ++ codes.map fun c => curr ++ [c]) v := by
  obtain ⟨q, hq, hpre, hne⟩ := h
  rcases List.mem_cons.mp hq with rfl | hq
  · obtain ⟨rest, rfl⟩ := hpre
    have hrest : rest ≠ [] := by
      rintro rfl
      exact hne (by simp)
    obtain ⟨c, rest, rfl⟩ := List.exists_cons_of_ne_nil hrest
    have hpre : q ++ [c] <+: q ++ c :: rest := ⟨rest, by simp⟩
    have hc := (hcodes c).mpr (isNode_of_prefix_of hv hpre)
    by_cases heq : q ++ c :: rest = q ++ [c]
    · exact .inl ⟨c, hc, heq⟩
    · exact .inr ⟨q ++ [c], List.mem_append_right _ (List.mem_map_of_mem hc), hpre,
        fun h => heq h.symm⟩
  · exact .inr ⟨q, List.mem_append_left _ hq, hpre, hne⟩

/-- What holds before each round of the loop. -/
structure LinkInv (words : List Path) (own : Path → Nat) (que : List Path) (l : Links) :
    Prop where
  node : ∀ q ∈ que, IsNode words q ∧ q ≠ []
  sorted : que.Pairwise fun a b => a.length ≤ b.length
  close : ∀ a ∈ que, ∀ b ∈ que, b.length ≤ a.length + 1
  apart : que.Pairwise fun a b => ¬a <+: b ∧ ¬b <+: a
  root : l.matched [] = own []
  waiting : ∀ v, IsNode words v → v ≠ [] → Waiting que v → l.matched v = own v
  final : ∀ v, IsNode words v → v ≠ [] → ¬Waiting que v → l.Linked words own v

/-- Everything as deep as the head of the queue is final. -/
theorem LinkInv.finalUpTo {curr : Path} {que : List Path} {l : Links}
    (h : LinkInv words own (curr :: que) l) : l.FinalUpTo words own curr.length := by
  refine ⟨h.root, fun v hv hvne hvlen => h.final v hv hvne ?_⟩
  rintro ⟨q, hq, hpre, hqv⟩
  have hle : curr.length ≤ q.length := by
    rcases List.mem_cons.mp hq with rfl | hq
    · exact Nat.le_refl _
    · exact (List.pairwise_cons.mp h.sorted).1 q hq
  have hlen := hpre.length_le
  exact hqv (hpre.eq_of_length (by omega))

/-- A prefix of a child is the child or a prefix of its parent. -/
theorem prefix_child_cases {q v : Path} {c : Nat} (h : q <+: v ++ [c]) :
    q = v ++ [c] ∨ q <+: v :=
  List.prefix_concat_iff.mp h

/-- One round keeps the invariant. -/
theorem LinkInv.step (ht : t.Edges words) {curr : Path} {que : List Path} {l l' : Links}
    (h : LinkInv words own (curr :: que) l) {codes : List Nat} (hcodes : codes.Nodup)
    (hmem : ∀ c, c ∈ codes ↔ c ∈ t.children curr)
    (hfinals : ∀ c ∈ codes, l'.Linked words own (curr ++ [c]))
    (hframe : ∀ v, (∀ c ∈ codes, v ≠ curr ++ [c]) →
      l'.fail v = l.fail v ∧ l'.matched v = l.matched v) :
    LinkInv words own (que ++ codes.map fun c => curr ++ [c]) l' := by
  obtain ⟨hapart, hrest⟩ := List.pairwise_cons.mp h.apart
  obtain ⟨hle, hsorted⟩ := List.pairwise_cons.mp h.sorted
  have hchild : ∀ c ∈ codes, IsNode words (curr ++ [c]) :=
    fun c hc => ht.mem_children.mp ((hmem c).mp hc)
  have hnew : ∀ {q}, q ∈ (codes.map fun c => curr ++ [c]) ↔ ∃ c ∈ codes, curr ++ [c] = q :=
    fun {q} => List.mem_map
  -- a child of `curr` waits no longer
  have hfree : ∀ c ∈ codes, ¬Waiting (que ++ codes.map fun c => curr ++ [c]) (curr ++ [c]) := by
    rintro c hc ⟨q, hq, hpre, hne⟩
    rcases List.mem_append.mp hq with hq | hq
    · rcases prefix_child_cases hpre with heq | hpre
      · exact hne heq
      · exact (hapart q hq).2 hpre
    · obtain ⟨d, hd, rfl⟩ := hnew.mp hq
      exact hne (hpre.eq_of_length (by simp))
  -- every other node waits as before
  have hsame : ∀ v, IsNode words v → (∀ c ∈ codes, v ≠ curr ++ [c]) →
      (Waiting (que ++ codes.map fun c => curr ++ [c]) v ↔ Waiting (curr :: que) v) := by
    intro v hv hvc
    constructor
    · rintro ⟨q, hq, hpre, hne⟩
      rcases List.mem_append.mp hq with hq | hq
      · exact ⟨q, List.mem_cons_of_mem _ hq, hpre, hne⟩
      · obtain ⟨c, hc, rfl⟩ := hnew.mp hq
        refine ⟨curr, List.mem_cons_self, (List.prefix_append curr [c]).trans hpre, ?_⟩
        rintro rfl
        have := hpre.length_le
        simp at this
    · intro hw
      rcases hw.next (fun c => (hmem c).trans ht.mem_children) hv with ⟨c, hc, heq⟩ | hw
      · exact absurd heq (hvc c hc)
      · exact hw
  refine { node := ?_, sorted := ?_, close := ?_, apart := ?_, root := ?_, waiting := ?_
           final := ?_ }
  · intro q hq
    rcases List.mem_append.mp hq with hq | hq
    · exact h.node q (List.mem_cons_of_mem _ hq)
    · obtain ⟨c, hc, rfl⟩ := hnew.mp hq
      exact ⟨hchild c hc, by simp⟩
  · refine List.pairwise_append.mpr ⟨hsorted, ?_, fun a ha b hb => ?_⟩
    · refine List.pairwise_map.mpr (List.Pairwise.imp ?_ hcodes)
      intro c d _
      simp
    · obtain ⟨c, hc, rfl⟩ := hnew.mp hb
      have := h.close curr List.mem_cons_self a (List.mem_cons_of_mem _ ha)
      simpa using this
  · intro a ha b hb
    have hlow : curr.length ≤ a.length := by
      rcases List.mem_append.mp ha with ha | ha
      · exact hle a ha
      · obtain ⟨c, hc, rfl⟩ := hnew.mp ha
        simp
    have hhigh : b.length ≤ curr.length + 1 := by
      rcases List.mem_append.mp hb with hb | hb
      · exact h.close curr List.mem_cons_self b (List.mem_cons_of_mem _ hb)
      · obtain ⟨c, hc, rfl⟩ := hnew.mp hb
        simp
    omega
  · refine List.pairwise_append.mpr ⟨hrest, ?_, fun a ha b hb => ?_⟩
    · refine List.pairwise_map.mpr (List.Pairwise.imp ?_ hcodes)
      intro c d hcd
      have hne : curr ++ [c] ≠ curr ++ [d] := by simpa using hcd
      exact ⟨fun hp => hne (hp.eq_of_length (by simp)),
        fun hp => hne (hp.eq_of_length (by simp)).symm⟩
    · obtain ⟨c, hc, rfl⟩ := hnew.mp hb
      constructor
      · intro hp
        rcases prefix_child_cases hp with heq | hp
        · exact (hapart a ha).1 (by rw [heq]; exact List.prefix_append _ _)
        · exact (hapart a ha).2 hp
      · intro hp
        exact (hapart a ha).1 ((List.prefix_append curr [c]).trans hp)
  · rw [(hframe [] fun c _ => by simp).2]
    exact h.root
  · intro v hv hvne hw
    have hvc : ∀ c ∈ codes, v ≠ curr ++ [c] := by
      rintro c hc rfl
      exact hfree c hc hw
    rw [(hframe v hvc).2]
    exact h.waiting v hv hvne ((hsame v hv hvc).mp hw)
  · intro v hv hvne hw
    by_cases hvc : ∀ c ∈ codes, v ≠ curr ++ [c]
    · obtain ⟨hf, hm⟩ := hframe v hvc
      obtain ⟨h1, h2⟩ := h.final v hv hvne fun hw' => hw ((hsame v hv hvc).mpr hw')
      exact ⟨hf.trans h1, hm.trans h2⟩
    · obtain ⟨c, hc⟩ := not_forall.mp hvc
      obtain ⟨hcm, hv'⟩ := Classical.not_imp.mp hc
      obtain rfl := not_not.mp hv'
      exact hfinals c hcm

/-! ## The walk -/

theorem MapOrder.mem_visit (order : MapOrder) {v : Path} {keys : List Nat} {c : Nat} :
    c ∈ order.visit v keys ↔ c ∈ keys :=
  (order.perm v keys).mem_iff

theorem queue_weight (words : List Path) (que : List Path) (curr : Path) (codes : List Nat) :
    ((que ++ codes.map fun c => curr ++ [c]).map (weight words)).sum =
      (que.map (weight words)).sum + (codes.map fun c => weight words (curr ++ [c])).sum := by
  rw [List.map_append, List.sum_append, List.map_map]
  rfl

/-- The walk ends, and every node is final. -/
theorem linkLoop_spec (ht : t.Edges words) (order : MapOrder) (fuel : Nat) (que : List Path)
    (l : Links) (h : LinkInv words own que l) (hfuel : (que.map (weight words)).sum ≤ fuel) :
    ∃ l', linkLoop order t fuel que l = some l' ∧ l'.matched [] = own [] ∧
      ∀ v, IsNode words v → v ≠ [] → l'.Linked words own v := by
  induction fuel generalizing que l with
  | zero =>
    cases que with
    | nil =>
      refine ⟨l, rfl, h.root, fun v hv hvne => h.final v hv hvne ?_⟩
      rintro ⟨q, hq, -⟩
      exact absurd hq (by simp)
    | cons curr que =>
      obtain ⟨hnode, hne⟩ := h.node curr List.mem_cons_self
      have hlt := children_weight_lt words (v := curr) List.nodup_nil
        (hnode.resolve_left hne)
      rw [List.map_cons, List.sum_cons] at hfuel
      omega
  | succ fuel ih =>
    cases que with
    | nil =>
      refine ⟨l, rfl, h.root, fun v hv hvne => h.final v hv hvne ?_⟩
      rintro ⟨q, hq, -⟩
      exact absurd hq (by simp)
    | cons curr que =>
      obtain ⟨hnode, hne⟩ := h.node curr List.mem_cons_self
      have hnodup : (order.visit curr (t.children curr)).Nodup :=
        (order.perm _ _).nodup_iff.mpr (ht.nodup curr)
      have hmem : ∀ c, c ∈ order.visit curr (t.children curr) ↔ c ∈ t.children curr :=
        fun c => order.mem_visit
      obtain ⟨l', hrun, hfinals, hframe⟩ := linkChildren_spec ht hnode hne _ hnodup l h.finalUpTo
        fun c hc => by
          have hchild := ht.mem_children.mp ((hmem c).mp hc)
          exact h.waiting _ hchild (by simp)
            ⟨curr, List.mem_cons_self, List.prefix_append _ _, by simp⟩
      have hweight := children_weight_lt words hnodup (hnode.resolve_left hne)
      rw [List.map_cons, List.sum_cons] at hfuel
      obtain ⟨l'', hloop, hroot, hall⟩ := ih _ l' (h.step ht hnodup hmem hfinals hframe) (by
        rw [queue_weight]
        omega)
      refine ⟨l'', ?_, hroot, hall⟩
      rw [linkLoop]
      simp only [hrun]
      exact hloop

/-- The stage from its start, whatever sizes the insertion left: every failure link is that of the
    automaton, and the sizes are collected over the links. -/
theorem linkAll_linked (ht : t.Edges words) (order : MapOrder) (fuel : Nat)
    (hfuel : (words.map fun w => w.length + 1).sum ≤ fuel) :
    ∃ l, linkAll order t fuel = some l ∧ l.matched [] = t.matchedSize [] ∧
      ∀ v, IsNode words v → v ≠ [] → l.Linked words t.matchedSize v := by
  have hnodup : (order.visit [] (t.children [])).Nodup :=
    (order.perm _ _).nodup_iff.mpr (ht.nodup [])
  have hmem : ∀ {q}, q ∈ ((order.visit [] (t.children [])).map fun code => [code]) ↔
      ∃ c, IsNode words [c] ∧ [c] = q := by
    intro q
    rw [List.mem_map]
    refine exists_congr fun c => and_congr_left fun _ => ?_
    rw [order.mem_visit, ht.mem_children, List.nil_append]
  refine linkLoop_spec ht order fuel _ _ ?_ ?_
  · refine { node := ?_, sorted := ?_, close := ?_, apart := ?_, root := rfl
             waiting := fun v _ _ _ => rfl, final := ?_ }
    · intro q hq
      obtain ⟨c, hc, rfl⟩ := hmem.mp hq
      exact ⟨hc, by simp⟩
    · refine List.pairwise_map.mpr (List.Pairwise.imp ?_ hnodup)
      intro c d _
      simp
    · intro a ha b hb
      obtain ⟨c, -, rfl⟩ := hmem.mp ha
      obtain ⟨d, -, rfl⟩ := hmem.mp hb
      simp
    · refine List.pairwise_map.mpr (List.Pairwise.imp ?_ hnodup)
      intro c d hcd
      have hne : [c] ≠ [d] := by simpa using hcd
      exact ⟨fun hp => hne (hp.eq_of_length rfl), fun hp => hne (hp.eq_of_length rfl).symm⟩
    · -- a node that does not wait is a child of the root
      intro v hv hvne hw
      obtain ⟨c, rest, rfl⟩ := List.exists_cons_of_ne_nil hvne
      have hpre : [c] <+: c :: rest := ⟨rest, rfl⟩
      have hin := hmem.mpr ⟨c, isNode_of_prefix_of hv hpre, rfl⟩
      have heq : [c] = c :: rest := by
        by_contra hne
        exact hw ⟨[c], hin, hpre, hne⟩
      obtain rfl : rest = [] := by simpa using heq.symm
      exact ⟨rfl, (collected_singleton t.matchedSize c).symm⟩
  · have hle := children_weight_le words [] _ hnodup
    have hall : weight words [] ≤ fuel := by
      rw [weight_nil]
      exact hfuel
    have hque := queue_weight words [] [] (order.visit [] (t.children []))
    rw [List.map_nil, List.sum_nil, Nat.zero_add] at hque
    exact hque.trans_le (by omega)

theorem patternSize_nil (words : List Path) : patternSize words [] = 0 := by
  unfold patternSize
  split <;> rfl

/-- With the sizes of the words, every size is that of the longest pattern that ends in the
    node. -/
theorem linkAll_spec (ht : t.Holds words) (order : MapOrder) (fuel : Nat)
    (hfuel : (words.map fun w => w.length + 1).sum ≤ fuel) :
    ∃ l, linkAll order t fuel = some l ∧ l.matched [] = best (patternSize words) [] ∧
      ∀ v, IsNode words v → v ≠ [] → l.Final words v := by
  obtain ⟨l, hrun, hroot, hall⟩ := linkAll_linked ht.toEdges order fuel hfuel
  have hsize : t.matchedSize = patternSize words := funext ht.matched_eq
  rw [hsize] at hroot hall
  refine ⟨l, hrun, hroot, fun v hv hne => ?_⟩
  obtain ⟨hfail, hmatched⟩ := hall v hv hne
  rw [collected_eq_best (fun w => isNode_of_patternSize w) (patternSize_nil words)] at hmatched
  exact ⟨hfail, hmatched⟩

end

end CdsGuard.DoubleArray
