import CdsGuard.Lib.AhoCorasick

/-
  The tree of the prefixes of a list of words, and what a walk over it costs. A walk that takes a
  node from its store and puts the children there ends, since the `weight` of what is stored goes
  down by at least one at each node (`children_weight_lt`).
-/

namespace CdsGuard.Lib

variable {α : Type}

/-- The empty word and the prefixes of the words. -/
def IsNode (words : List (List α)) (v : List α) : Prop := v = [] ∨ ∃ w ∈ words, v <+: w

theorem isNode_of_mem {words : List (List α)} {w : List α} (h : w ∈ words) : IsNode words w :=
  .inr ⟨w, h, List.prefix_rfl⟩

theorem isNode_of_prefix_of {words : List (List α)} {u v : List α} (h : IsNode words v)
    (hu : u <+: v) :
    IsNode words u := by
  rcases h with rfl | ⟨w, hw, hv⟩
  · exact .inl (List.prefix_nil.mp hu)
  · exact .inr ⟨w, hw, hu.trans hv⟩

theorem isNode_prefixClosed (words : List (List α)) : PrefixClosed (IsNode words) where
  nil := .inl rfl
  init := fun v a h => isNode_of_prefix_of h (List.prefix_append v [a])

theorem isNode_snoc_iff {words : List (List α)} {v : List α} {a : α} :
    IsNode words (v ++ [a]) ↔ ∃ w ∈ words, v ++ [a] <+: w := by
  unfold IsNode
  constructor
  · rintro (h | h)
    · exact absurd h (by simp)
    · exact h
  · exact .inr

variable [DecidableEq α]

instance (words : List (List α)) : DecidablePred (IsNode words) := fun v =>
  inferInstanceAs (Decidable (v = [] ∨ ∃ w ∈ words, v <+: w))

/-- What a word contributes to the weight of a node. -/
def wordWeight (v w : List α) : Nat := if v <+: w then w.length - v.length + 1 else 0

/-- A bound on the number of nodes below a node, itself included. -/
def weight (words : List (List α)) (v : List α) : Nat := (words.map (wordWeight v)).sum

/-- A word goes on from a node to one child at most. -/
theorem sum_wordWeight_snoc (v w : List α) (codes : List α) (h : codes.Nodup) :
    (codes.map fun c => wordWeight (v ++ [c]) w).sum + (if v <+: w then 1 else 0) ≤
      wordWeight v w := by
  induction codes with
  | nil =>
    unfold wordWeight
    simp only [List.map_nil, List.sum_nil]
    split <;> omega
  | cons c codes ih =>
    obtain ⟨hc, hnodup⟩ := List.nodup_cons.mp h
    have hrest := ih hnodup
    rw [List.map_cons, List.sum_cons]
    by_cases hpre : v ++ [c] <+: w
    · have hv : v <+: w := (List.prefix_append v [c]).trans hpre
      have hlen := hpre.length_le
      have hzero : (codes.map fun d => wordWeight (v ++ [d]) w).sum = 0 := by
        refine List.sum_eq_zero fun n hn => ?_
        obtain ⟨d, hd, rfl⟩ := List.mem_map.mp hn
        refine if_neg fun hpre' => hc ?_
        have heq : v ++ [c] = v ++ [d] :=
          (List.prefix_of_prefix_length_le hpre hpre' (by simp)).eq_of_length (by simp)
        have : c = d := by simpa using heq
        rwa [this]
      rw [hzero, wordWeight, wordWeight, if_pos hpre, if_pos hv, if_pos hv]
      rw [List.length_append, List.length_singleton] at hlen ⊢
      omega
    · rw [show wordWeight (v ++ [c]) w = 0 from if_neg hpre, Nat.zero_add]
      exact hrest

theorem children_weight_le (words : List (List α)) (v : List α) (codes : List α)
    (h : codes.Nodup) :
    (codes.map fun c => weight words (v ++ [c])).sum + words.countP (fun w => v <+: w) ≤
      weight words v := by
  induction words with
  | nil => simp [weight]
  | cons w words ih =>
    have hw := sum_wordWeight_snoc v w codes h
    have hsplit : (codes.map fun c => weight (w :: words) (v ++ [c])).sum =
        (codes.map fun c => wordWeight (v ++ [c]) w).sum +
          (codes.map fun c => weight words (v ++ [c])).sum := by
      rw [← List.sum_map_add]
      rfl
    have hself : weight (w :: words) v = wordWeight v w + weight words v := rfl
    rw [hsplit, hself, List.countP_cons]
    simp only [decide_eq_true_eq] at *
    omega

/-- The children of a node weigh less than the node. -/
theorem children_weight_lt (words : List (List α)) {v : List α} {codes : List α}
    (h : codes.Nodup) (hv : ∃ w ∈ words, v <+: w) :
    (codes.map fun c => weight words (v ++ [c])).sum < weight words v := by
  have hle := children_weight_le words v codes h
  have hpos : 0 < words.countP (fun w => v <+: w) := by
    rw [List.countP_pos_iff]
    obtain ⟨w, hw, hpre⟩ := hv
    exact ⟨w, hw, by simpa using hpre⟩
  omega

theorem weight_nil (words : List (List α)) :
    weight words [] = (words.map fun w => w.length + 1).sum := by
  refine congrArg List.sum (List.map_congr_left fun w _ => ?_)
  rw [wordWeight, if_pos List.nil_prefix, List.length_nil, Nat.sub_zero]

end CdsGuard.Lib
