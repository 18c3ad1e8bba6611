import Mathlib.Data.List.DropRight
import Mathlib.Tactic

/-
  Files of lines: cutting a file at a separator, as a reader that takes line after line does,
  writing lines with a separator behind each, and trimming a line at both ends.

  Proved: lines without the separator are read back (`lines_unlines`, `lines_intercalate`), no line
  that is read has it (`not_mem_of_mem_lines`), reading one line after the other gives the lines
  (`lines_of_getline`), and trimming changes what begins or ends with a blank and nothing else
  (`trim_eq_self_iff`).
-/

namespace CdsGuard.Lib

variable {α : Type}

/-- The lines of a file; what stands behind the last separator is one if it is not empty. -/
def lines [DecidableEq α] (sep : α) : List α → List (List α)
  | [] => []
  | x :: xs =>
    if x = sep then [] :: lines sep xs
    else
      match lines sep xs with
      | [] => [[x]]
      | l :: ls => (x :: l) :: ls

/-- The next line and what stands behind its separator; nothing at the end of the file. -/
def getline [DecidableEq α] (sep : α) : List α → Option (List α × List α)
  | [] => none
  | x :: xs =>
    some ((x :: xs).takeWhile (· ≠ sep), ((x :: xs).dropWhile (· ≠ sep)).drop 1)

/-- Every line with a separator behind it. -/
def unlines (sep : α) (ls : List (List α)) : List α := ls.flatMap fun l => l ++ [sep]

def trim (blank : α → Bool) (l : List α) : List α := (l.dropWhile blank).rdropWhile blank

/-! ## Lines -/

section

variable {sep : α}

theorem unlines_cons (l : List α) (ls : List (List α)) :
    unlines sep (l :: ls) = l ++ sep :: unlines sep ls := by
  rw [unlines, List.flatMap_cons, List.append_assoc, List.singleton_append]
  rfl

theorem lines_append_cons [DecidableEq α] {l : List α} (h : sep ∉ l) (rest : List α) :
    lines sep (l ++ sep :: rest) = l :: lines sep rest := by
  induction l with
  | nil => rw [List.nil_append, lines, if_pos rfl]
  | cons x l ih =>
    have hx : x ≠ sep := fun heq => h (heq ▸ List.mem_cons_self)
    rw [List.cons_append, lines, if_neg hx, ih fun hmem => h (List.mem_cons_of_mem x hmem)]

theorem lines_eq_singleton [DecidableEq α] {l : List α} (h : sep ∉ l) (hne : l ≠ []) :
    lines sep l = [l] := by
  induction l with
  | nil => exact absurd rfl hne
  | cons x l ih =>
    have hx : x ≠ sep := fun heq => h (heq ▸ List.mem_cons_self)
    cases l with
    | nil => rw [lines, if_neg hx, lines]
    | cons y l =>
      rw [lines, if_neg hx, ih (fun hmem => h (List.mem_cons_of_mem x hmem)) (List.cons_ne_nil y l)]

theorem lines_eq_nil_iff [DecidableEq α] {xs : List α} : lines sep xs = [] ↔ xs = [] := by
  cases xs with
  | nil => exact iff_of_true rfl rfl
  | cons x xs =>
    refine iff_of_false ?_ (List.cons_ne_nil x xs)
    rw [lines]
    split
    · exact List.cons_ne_nil _ _
    · split <;> exact List.cons_ne_nil _ _

theorem getline_eq_none_iff [DecidableEq α] {xs : List α} : getline sep xs = none ↔ xs = [] := by
  cases xs with
  | nil => exact iff_of_true rfl rfl
  | cons x xs => exact iff_of_false (Option.some_ne_none _) (List.cons_ne_nil x xs)

/-- Reading line after line gives the lines. -/
theorem lines_of_getline [DecidableEq α] {xs l rest : List α}
    (h : getline sep xs = some (l, rest)) : lines sep xs = l :: lines sep rest := by
  induction xs generalizing l rest with
  | nil => cases h
  | cons x xs ih =>
    obtain ⟨rfl, rfl⟩ := Prod.mk.inj (Option.some.inj h)
    by_cases hx : x = sep
    · simp [lines, hx]
    · cases xs with
      | nil => simp [lines, hx]
      | cons y ys =>
        have hnext := ih rfl
        rw [lines, if_neg hx, hnext]
        simp [hx]

/-- Without a separator at its end a file is its lines, put together. -/
theorem intercalate_lines [DecidableEq α] {xs : List α} (h : sep ∉ xs.getLast?) :
    [sep].intercalate (lines sep xs) = xs := by
  induction xs with
  | nil => rfl
  | cons x xs ih =>
    cases xs with
    | nil =>
      have hx : x ≠ sep := fun heq => h (by simp [heq])
      simp [lines, hx]
    | cons y ys =>
      have hrest := ih (by simpa [List.getLast?_cons_cons] using h)
      rw [lines]
      split
      · rename_i hx
        rw [List.intercalate_cons_of_ne_nil (fun hnil => List.cons_ne_nil y ys
          (lines_eq_nil_iff.mp hnil)), hrest, hx]
        rfl
      · split
        · rename_i hnil
          exact absurd (lines_eq_nil_iff.mp hnil) (List.cons_ne_nil y ys)
        · rename_i l ls hlines
          rw [hlines] at hrest
          rw [List.intercalate_cons_cons_left, hrest]

theorem lines_intercalate [DecidableEq α] {ls : List (List α)}
    (h : ∀ l ∈ ls, sep ∉ l ∧ l ≠ []) : lines sep ([sep].intercalate ls) = ls := by
  induction ls with
  | nil => rfl
  | cons l ls ih =>
    obtain ⟨⟨hl, hne⟩, hls⟩ := List.forall_mem_cons.mp h
    cases ls with
    | nil =>
      rw [List.intercalate_singleton]
      exact lines_eq_singleton hl hne
    | cons m ms =>
      rw [List.intercalate_cons_cons, List.append_assoc, List.singleton_append,
        lines_append_cons hl, ih hls]

theorem getLast?_intercalate {ls : List (List α)} {l : List α} (h : ls.getLast? = some l)
    (hne : l ≠ []) : ([sep].intercalate ls).getLast? = l.getLast? := by
  induction ls with
  | nil => cases h
  | cons m ms ih =>
    cases ms with
    | nil =>
      rw [List.getLast?_singleton] at h
      rw [List.intercalate_singleton, Option.some.inj h]
    | cons n ns =>
      obtain ⟨x, hx⟩ := Option.ne_none_iff_exists'.mp (mt List.getLast?_eq_none_iff.mp hne)
      rw [List.intercalate_cons_cons, List.getLast?_append, ih h, hx, Option.some_or]

/-- Lines without the separator are read back. -/
theorem lines_unlines [DecidableEq α] {ls : List (List α)} (h : ∀ l ∈ ls, sep ∉ l) :
    lines sep (unlines sep ls) = ls := by
  induction ls with
  | nil => rfl
  | cons l ls ih =>
    obtain ⟨hl, hls⟩ := List.forall_mem_cons.mp h
    rw [unlines_cons, lines_append_cons hl, ih hls]

theorem not_mem_of_mem_lines [DecidableEq α] {xs l : List α} (h : l ∈ lines sep xs) : sep ∉ l := by
  induction xs generalizing l with
  | nil => cases h
  | cons x xs ih =>
    rw [lines] at h
    split at h
    · obtain rfl | h := List.mem_cons.mp h
      · exact List.not_mem_nil
      · exact ih h
    · rename_i hx
      have hcons : ∀ m, sep ∉ m → sep ∉ x :: m := fun m hm hmem =>
        (List.mem_cons.mp hmem).elim (fun heq => hx heq.symm) hm
      cases hlines : lines sep xs with
      | nil =>
        rw [hlines] at h
        obtain rfl := List.mem_singleton.mp h
        exact hcons [] List.not_mem_nil
      | cons m ms =>
        rw [hlines] at h ih
        obtain rfl | h := List.mem_cons.mp h
        · exact hcons m (ih List.mem_cons_self)
        · exact ih (List.mem_cons_of_mem m h)

/-- What has no separator begins a file of lines if it begins the first one. -/
theorem prefix_append_cons_iff {p l rest : List α} (h : sep ∉ p) :
    p <+: l ++ sep :: rest ↔ p <+: l := by
  induction p generalizing l with
  | nil => simp
  | cons x p ih =>
    have hx : x ≠ sep := fun heq => h (heq ▸ List.mem_cons_self)
    cases l with
    | nil => simp [List.cons_prefix_cons, hx]
    | cons y l =>
      rw [List.cons_append, List.cons_prefix_cons, List.cons_prefix_cons,
        ih fun hmem => h (List.mem_cons_of_mem x hmem)]

end

/-! ## Trimming -/

variable {blank : α → Bool}

theorem trim_sublist (l : List α) : (trim blank l).Sublist l :=
  (List.rdropWhile_prefix blank _).sublist.trans (List.dropWhile_sublist blank)

theorem trim_length_le (l : List α) : (trim blank l).length ≤ l.length :=
  (trim_sublist l).length_le

theorem dropWhile_eq_self {l : List α} :
    l.dropWhile blank = l ↔ ∀ x ∈ l.head?, blank x = false := by
  cases l with
  | nil => simp
  | cons a l =>
    have hshort : l.dropWhile blank ≠ a :: l := fun heq => by
      have hle := (List.dropWhile_sublist (l := l) blank).length_le
      rw [heq, List.length_cons] at hle
      omega
    rw [List.dropWhile_cons]
    cases hblank : blank a with
    | false => simp [hblank]
    | true => simp [hblank, hshort]

theorem rdropWhile_eq_self {l : List α} :
    l.rdropWhile blank = l ↔ ∀ x ∈ l.getLast?, blank x = false := by
  rw [List.rdropWhile_eq_self_iff]
  cases l using List.reverseRecOn with
  | nil => simp
  | append_singleton l a => simp

/-- Trimming leaves alone what neither begins nor ends with a blank. -/
theorem trim_eq_self_iff {l : List α} :
    trim blank l = l ↔
      (∀ x ∈ l.head?, blank x = false) ∧ ∀ x ∈ l.getLast?, blank x = false := by
  rw [← dropWhile_eq_self, ← rdropWhile_eq_self]
  constructor
  · intro h
    have hdrop : l.dropWhile blank = l := by
      apply (List.dropWhile_sublist blank).eq_of_length_le
      calc l.length
        _ = (trim blank l).length := by rw [h]
        _ ≤ (l.dropWhile blank).length := (List.rdropWhile_prefix blank _).length_le
    exact ⟨hdrop, by rwa [trim, hdrop] at h⟩
  · intro h
    rw [trim, h.1, h.2]

theorem trim_trim (l : List α) : trim blank (trim blank l) = trim blank l := by
  have hhead : ∀ x ∈ (trim blank l).head?, blank x = false := by
    obtain ⟨rest, hrest⟩ := List.rdropWhile_prefix blank (l.dropWhile blank)
    have hdrop := dropWhile_eq_self.mp (List.dropWhile_idempotent blank l)
    intro x hx
    apply hdrop x
    rw [← hrest, List.head?_append]
    show ((trim blank l).head?.or rest.head?) = some x
    rw [hx]
    rfl
  rw [trim, dropWhile_eq_self.mpr hhead, trim, List.rdropWhile_idempotent]

end CdsGuard.Lib
