import Mathlib.Data.List.TakeWhile
import Mathlib.Tactic

/-
  A list of which only a part is shown: the elements whose numbers fall into a window, as a loop
  collects them one by one, and the elements in front of the first that does not qualify.
-/

namespace CdsGuard.Lib

variable {α : Type}

/-- The elements with the numbers from `start` to before `start + size`. -/
def window (start size : Nat) (xs : List α) : List α := (xs.drop start).take size

theorem window_nil (start size : Nat) : window start size ([] : List α) = [] := by
  rw [window, List.drop_nil, List.take_nil]

/-- The next element is in the window if its number is. -/
theorem window_concat (start size : Nat) (xs : List α) (x : α) :
    window start size (xs ++ [x]) =
      if start ≤ xs.length ∧ xs.length < start + size then window start size xs ++ [x]
      else window start size xs := by
  unfold window
  split
  · rename_i hin
    have hlen : (xs.drop start).length < size := by
      rw [List.length_drop]
      omega
    rw [List.drop_append_of_le_length hin.1, List.take_of_length_le (by simp; omega),
      List.take_of_length_le (Nat.le_of_lt hlen)]
  · rename_i hout
    rcases Nat.lt_or_ge xs.length start with hbefore | hbehind
    · rw [List.drop_eq_nil_of_le (by simp; omega), List.drop_eq_nil_of_le (by omega)]
    · rw [List.drop_append_of_le_length hbehind,
        List.take_append_of_le_length (by rw [List.length_drop]; omega)]

/-- A full window stays as it is. -/
theorem window_append_of_full {start size : Nat} {xs : List α}
    (h : size ≤ (window start size xs).length) (ys : List α) :
    window start size (xs ++ ys) = window start size xs := by
  unfold window at h ⊢
  rw [List.length_take, List.length_drop] at h
  rcases Nat.eq_zero_or_pos size with rfl | hpos
  · rw [List.take_zero, List.take_zero]
  · rw [List.drop_append_of_le_length (by omega),
      List.take_append_of_le_length (by rw [List.length_drop]; omega)]

/-- What stands in front of the first element that does not qualify stands in front of every one. -/
theorem rel_of_mem_takeWhile {R : α → α → Prop} {q : α → Bool} {xs : List α} (h : xs.Pairwise R)
    {v r : α} (hv : v ∈ xs.takeWhile q) (hr : r ∈ xs) (hq : q r = false) : R v r := by
  rw [← @List.takeWhile_append_dropWhile _ q xs] at h hr
  rcases List.mem_append.mp hr with hfront | hbehind
  · rw [List.mem_takeWhile_imp hfront] at hq
    cases hq
  · exact (List.pairwise_append.mp h).2.2 v hv r hbehind

/-- Stopping at the first element that does not qualify misses none, if all that do stand in front
    of it. -/
theorem takeWhile_eq_filter {q : α → Bool} {xs : List α}
    (h : xs.Pairwise fun a b => q b = true → q a = true) : xs.takeWhile q = xs.filter q := by
  induction xs with
  | nil => rfl
  | cons a xs ih =>
    obtain ⟨hhead, htail⟩ := List.pairwise_cons.mp h
    cases hq : q a with
    | true => rw [List.takeWhile_cons_of_pos hq, List.filter_cons_of_pos hq, ih htail]
    | false =>
      have hne : ¬q a = true := by rw [hq]; exact Bool.false_ne_true
      rw [List.takeWhile_cons_of_neg hne, List.filter_cons_of_neg hne, eq_comm,
        List.filter_eq_nil_iff]
      exact fun b hb hqb => hne (hhead b hb hqb)

end CdsGuard.Lib
