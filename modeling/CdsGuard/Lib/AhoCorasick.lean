import Mathlib.Tactic

/-
  The Aho–Corasick automaton over a prefix-closed set `T` of words. Reading a word leads to the
  longest of its suffixes in `T` (`longest`); one letter more is read from there alone
  (`longest_snoc`), either by going down or over the failure link (`next_of_mem`,
  `next_of_not_mem`). The failure link of a word is found from that of its prefix
  (`failOf_snoc`).

  `best M w` is the largest weight of a suffix of `w`. When only words in `T` have a weight it
  can be read off the state (`best_longest`) and collected along failure links (`best_failOf`).
  What a walk collects that starts below the root is `collected`; when it stays within a bound is
  a matter of the weights alone (`collected_le_iff`).
-/

namespace CdsGuard.Lib

variable {α : Type}

/-- A set of words with the empty word and all prefixes. -/
structure PrefixClosed (T : List α → Prop) : Prop where
  nil : T []
  init : ∀ w a, T (w ++ [a]) → T w

section

variable (T : List α → Prop) [DecidablePred T]

/-- The longest suffix in `T`. -/
def longest : List α → List α
  | [] => []
  | a :: w => if T (a :: w) then a :: w else longest w

/-- The state after one more letter. -/
def next (v : List α) (a : α) : List α := longest T (v ++ [a])

/-- The failure link. -/
def failOf (v : List α) : List α := longest T v.tail

end

variable {T : List α → Prop} [DecidablePred T]

theorem longest_suffix (w : List α) : longest T w <:+ w := by
  induction w with
  | nil => exact List.suffix_rfl
  | cons a w ih =>
    unfold longest
    split
    · exact List.suffix_rfl
    · exact ih.trans (List.suffix_cons a w)

theorem longest_mem (hT : PrefixClosed T) (w : List α) : T (longest T w) := by
  induction w with
  | nil => exact hT.nil
  | cons a w ih =>
    unfold longest
    split
    · assumption
    · exact ih

/-- Every suffix in `T` is a suffix of the longest one. -/
theorem suffix_longest {v w : List α} (hv : T v) (h : v <:+ w) : v <:+ longest T w := by
  induction w with
  | nil => exact h
  | cons a w ih =>
    unfold longest
    split
    · exact h
    · rename_i hn
      rcases List.suffix_cons_iff.mp h with rfl | h'
      · exact absurd hv hn
      · exact ih h'

theorem longest_of_mem {w : List α} (h : T w) : longest T w = w := by
  cases w with
  | nil => rfl
  | cons a w => rw [longest, if_pos h]

/-- Words with the same suffixes in `T` have the same longest one. -/
theorem longest_congr (hT : PrefixClosed T) {x y : List α}
    (h : ∀ v, T v → (v <:+ x ↔ v <:+ y)) : longest T x = longest T y := by
  have hx := longest_mem hT x
  have hy := longest_mem hT y
  have hxy := suffix_longest hx ((h _ hx).mp (longest_suffix x))
  have hyx := suffix_longest hy ((h _ hy).mpr (longest_suffix y))
  exact hxy.eq_of_length (Nat.le_antisymm hxy.length_le hyx.length_le)

theorem longest_length_le (w : List α) : (longest T w).length ≤ w.length :=
  (longest_suffix w).length_le

/-- The suffixes of a longer word. -/
theorem snoc_suffix_snoc_iff {u w : List α} {a b : α} :
    u ++ [b] <:+ w ++ [a] ↔ b = a ∧ u <:+ w := by
  constructor
  · rintro ⟨p, hp⟩
    rw [← List.append_assoc] at hp
    obtain ⟨hw, hb⟩ := List.append_inj' hp rfl
    exact ⟨by simpa using hb, ⟨p, hw⟩⟩
  · rintro ⟨rfl, h⟩
    exact List.suffix_append_self_iff.mpr h

/-- One letter more is read from the state alone. -/
theorem longest_snoc (hT : PrefixClosed T) (w : List α) (a : α) :
    longest T (w ++ [a]) = next T (longest T w) a := by
  refine longest_congr hT fun v hv => ?_
  rcases List.eq_nil_or_concat' v with rfl | ⟨u, b, rfl⟩
  · simp
  · have hu := hT.init u b hv
    rw [snoc_suffix_snoc_iff, snoc_suffix_snoc_iff]
    constructor
    · rintro ⟨hb, h⟩
      exact ⟨hb, suffix_longest hu h⟩
    · rintro ⟨hb, h⟩
      exact ⟨hb, h.trans (longest_suffix w)⟩

theorem next_of_mem {v : List α} {a : α} (h : T (v ++ [a])) : next T v a = v ++ [a] :=
  longest_of_mem h

theorem next_nil_of_not_mem {a : α} (h : ¬T [a]) : next T [] a = [] := by
  rw [next, List.nil_append, longest, if_neg h, longest]

/-- With no way down, the state is that of the failure link. -/
theorem next_of_not_mem (hT : PrefixClosed T) {v : List α} {a : α} (hv : v ≠ [])
    (h : ¬T (v ++ [a])) : next T v a = next T (failOf T v) a := by
  obtain ⟨b, u, rfl⟩ := List.exists_cons_of_ne_nil hv
  rw [next, List.cons_append, longest, if_neg (by simpa using h), failOf, List.tail_cons,
    longest_snoc hT]

theorem failOf_length_lt {v : List α} (hv : v ≠ []) : (failOf T v).length < v.length := by
  obtain ⟨b, u, rfl⟩ := List.exists_cons_of_ne_nil hv
  have := longest_length_le (T := T) u
  rw [failOf, List.tail_cons, List.length_cons]
  omega

/-- The failure link of a longer word. -/
theorem failOf_snoc (hT : PrefixClosed T) {v : List α} (hv : v ≠ []) (a : α) :
    failOf T (v ++ [a]) = next T (failOf T v) a := by
  rw [failOf, List.tail_append_of_ne_nil hv, longest_snoc hT, failOf]

/-! ## Weights -/

/-- The largest weight of a suffix. -/
def best (M : List α → Nat) : List α → Nat
  | [] => M []
  | a :: w => max (M (a :: w)) (best M w)

theorem le_best (M : List α → Nat) {u w : List α} (h : u <:+ w) : M u ≤ best M w := by
  induction w with
  | nil =>
    rw [List.suffix_nil.mp h]
    exact Nat.le_refl _
  | cons a w ih =>
    rw [best]
    rcases List.suffix_cons_iff.mp h with rfl | h'
    · exact Nat.le_max_left _ _
    · exact Nat.le_trans (ih h') (Nat.le_max_right _ _)

theorem exists_best (M : List α → Nat) (w : List α) : ∃ u, u <:+ w ∧ best M w = M u := by
  induction w with
  | nil => exact ⟨[], List.suffix_rfl, rfl⟩
  | cons a w ih =>
    obtain ⟨u, hu, hbest⟩ := ih
    rw [best]
    rcases Nat.le_total (best M w) (M (a :: w)) with h | h
    · exact ⟨a :: w, List.suffix_rfl, Nat.max_eq_left h⟩
    · exact ⟨u, hu.trans (List.suffix_cons a w), by rw [Nat.max_eq_right h, hbest]⟩

/-- The largest weight can be read off the state. -/
theorem best_longest {M : List α → Nat} (hM : ∀ w, M w ≠ 0 → T w) (w : List α) :
    best M (longest T w) = best M w := by
  induction w with
  | nil => rfl
  | cons a w ih =>
    unfold longest
    split
    · rfl
    · rename_i hn
      have hzero : M (a :: w) = 0 := by
        by_contra h
        exact hn (hM _ h)
      rw [ih, best, hzero, Nat.zero_max]

/-- The largest weight is collected over failure links. -/
theorem best_failOf {M : List α → Nat} (hM : ∀ w, M w ≠ 0 → T w) {v : List α} (hv : v ≠ []) :
    best M v = max (M v) (best M (failOf T v)) := by
  obtain ⟨b, u, rfl⟩ := List.exists_cons_of_ne_nil hv
  rw [failOf, List.tail_cons, best_longest hM, best]

/-! ## Collecting over failure links -/

/-- The weight that a word gets when it takes the larger of its own and that of its failure link.
    Words of one letter take nothing, so that the weight of the empty word reaches only longer
    words. -/
def collected (T : List α → Prop) [DecidablePred T] (M : List α → Nat) (v : List α) : Nat :=
  if v.length ≤ 1 then M v else max (M v) (collected T M (failOf T v))
termination_by v.length
decreasing_by
  rename_i hlong
  refine failOf_length_lt fun hnil => hlong ?_
  rw [hnil]
  exact Nat.zero_le 1

theorem collected_nil (M : List α → Nat) : collected T M [] = M [] := by
  rw [collected]
  exact if_pos (Nat.zero_le 1)

theorem collected_singleton (M : List α → Nat) (a : α) : collected T M [a] = M [a] := by
  rw [collected]
  exact if_pos (Nat.le_refl 1)

theorem collected_snoc (M : List α → Nat) {v : List α} (hv : v ≠ []) (a : α) :
    collected T M (v ++ [a]) = max (M (v ++ [a])) (collected T M (failOf T (v ++ [a]))) := by
  have hpos := List.length_pos_iff.mpr hv
  rw [collected, if_neg (by rw [List.length_append, List.length_singleton]; omega)]

/-- The collected weight is that of a word. -/
theorem exists_collected (M : List α → Nat) (v : List α) : ∃ u, collected T M v = M u := by
  induction hn : v.length using Nat.strong_induction_on generalizing v with
  | _ n ih =>
    rcases List.eq_nil_or_concat' v with rfl | ⟨u, a, rfl⟩
    · exact ⟨[], collected_nil M⟩
    · by_cases hu : u = []
      · rw [hu, List.nil_append]
        exact ⟨[a], collected_singleton M a⟩
      · have hlt := failOf_length_lt (T := T) (v := u ++ [a]) (by simp)
        obtain ⟨w, hw⟩ := ih _ (hn ▸ hlt) _ rfl
        rw [collected_snoc M hu, hw]
        rcases Nat.le_total (M w) (M (u ++ [a])) with hle | hle
        · exact ⟨u ++ [a], Nat.max_eq_left hle⟩
        · exact ⟨w, Nat.max_eq_right hle⟩

/-- Without a weight of the empty word this is the largest weight of a suffix. -/
theorem collected_eq_best {M : List α → Nat} (hM : ∀ w, M w ≠ 0 → T w) (hnil : M [] = 0)
    (v : List α) : collected T M v = best M v := by
  induction hn : v.length using Nat.strong_induction_on generalizing v with
  | _ n ih =>
    rcases List.eq_nil_or_concat' v with rfl | ⟨u, a, rfl⟩
    · exact collected_nil M
    · by_cases hu : u = []
      · rw [hu, List.nil_append, collected_singleton, best, best, hnil, Nat.max_zero]
      · have hne : u ++ [a] ≠ [] := by simp
        rw [collected_snoc M hu, best_failOf hM hne,
          ih _ (hn ▸ failOf_length_lt hne) _ rfl]

/-- The failure link of a word ends as the word does. -/
theorem failOf_snoc_eq_nil_or (hT : PrefixClosed T) {v : List α} (hv : v ≠ []) {a : α}
    (ha : ¬T [a]) :
    failOf T (v ++ [a]) = [] ∨ ∃ u, u ≠ [] ∧ failOf T (v ++ [a]) = u ++ [a] := by
  have hsuffix : failOf T (v ++ [a]) <:+ v.tail ++ [a] := by
    rw [failOf, List.tail_append_of_ne_nil hv]
    exact longest_suffix _
  rcases List.eq_nil_or_concat' (failOf T (v ++ [a])) with hnil | ⟨u, b, hb⟩
  · exact .inl hnil
  · rw [hb, snoc_suffix_snoc_iff] at hsuffix
    obtain ⟨rfl, -⟩ := hsuffix
    refine .inr ⟨u, fun hu => ha ?_, hb⟩
    rw [hu, List.nil_append] at hb
    rw [← hb]
    exact longest_mem hT _

/-- When all collected weights are within a bound that grows with the word: the words' own are,
    and so is that of the empty word at every longer word whose last letter is no word. -/
theorem collected_le_iff (hT : PrefixClosed T) {M B : List α → Nat}
    (hB : ∀ u v, u <:+ v → B u ≤ B v) :
    (∀ v, T v → v ≠ [] → collected T M v ≤ B v) ↔
      (∀ v, T v → v ≠ [] → M v ≤ B v) ∧
        ∀ v a, T (v ++ [a]) → v ≠ [] → ¬T [a] → M [] ≤ B (v ++ [a]) := by
  constructor
  · intro h
    have hown : ∀ v : List α, v ≠ [] → M v ≤ collected T M v := by
      intro v hv
      obtain ⟨u, a, rfl⟩ := (List.eq_nil_or_concat' v).resolve_left hv
      by_cases hu : u = []
      · rw [hu, List.nil_append, collected_singleton]
      · rw [collected_snoc M hu]
        exact Nat.le_max_left _ _
    have hroot : ∀ n, ∀ v : List α, ∀ a, v.length = n → v ≠ [] → ¬T [a] →
        M [] ≤ collected T M (v ++ [a]) := by
      intro n
      induction n using Nat.strong_induction_on with
      | _ n ih =>
        intro v a hn hv ha
        rw [collected_snoc M hv]
        refine le_trans ?_ (Nat.le_max_right _ _)
        rcases failOf_snoc_eq_nil_or hT hv ha with hnil | ⟨u, hu, hlink⟩
        · rw [hnil, collected_nil]
        · have hlt := failOf_length_lt (T := T) (v := v ++ [a]) (by simp)
          rw [hlink, List.length_append, List.length_append, Nat.add_lt_add_iff_right] at hlt
          rw [hlink]
          exact ih u.length (hn ▸ hlt) u a rfl hu ha
    exact ⟨fun v hv hne => (hown v hne).trans (h v hv hne), fun v a hv hne ha =>
      (hroot _ v a rfl hne ha).trans (h _ hv (by simp))⟩
  · rintro ⟨hown, hroot⟩ v
    induction hn : v.length using Nat.strong_induction_on generalizing v with
    | _ n ih =>
      intro hv hne
      obtain ⟨u, a, rfl⟩ := (List.eq_nil_or_concat' v).resolve_left hne
      by_cases hu : u = []
      · rw [hu, List.nil_append] at hv ⊢
        rw [collected_singleton]
        exact hown [a] hv (by simp)
      · have hlink : failOf T (u ++ [a]) <:+ u ++ [a] :=
          (longest_suffix _).trans (List.tail_suffix _)
        rw [collected_snoc M hu]
        refine Nat.max_le.mpr ⟨hown _ hv hne, ?_⟩
        by_cases hnil : failOf T (u ++ [a]) = []
        · -- the link goes to the empty word, so the last letter alone is no word
          rw [hnil, collected_nil]
          refine hroot u a hv hu fun ha => ?_
          have hmem : [a] <:+ (u ++ [a]).tail := by
            rw [List.tail_append_of_ne_nil hu]
            exact List.suffix_append _ _
          have := suffix_longest ha hmem
          rw [show longest T (u ++ [a]).tail = [] from hnil] at this
          simp at this
        · exact (ih _ (hn ▸ failOf_length_lt hne) _ rfl (longest_mem hT _) hnil).trans
            (hB _ _ hlink)

end CdsGuard.Lib
