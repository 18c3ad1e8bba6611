import Mathlib.Data.List.Nodup
import Mathlib.Logic.Function.Basic

/-
  Objects by their address. An address can be freed once and is then free to be given out again;
  `freeAll` frees a list of addresses one after the other and stops at one that holds no object.
  It gets through exactly when all of them hold one and none is named twice (`freeAll_isSome_iff`).
-/

namespace CdsGuard.Lib

/-- The object at an address, or nothing there. -/
abbrev Heap (A V : Type) : Type := A → Option V

namespace Heap

variable {A V : Type} [DecidableEq A]

def put (h : Heap A V) (a : A) (v : V) : Heap A V := Function.update h a (some v)

def free (h : Heap A V) (a : A) : Heap A V := Function.update h a none

/-- Nothing when an address is freed that holds no object. -/
def freeAll : Heap A V → List A → Option (Heap A V)
  | h, [] => some h
  | h, a :: as => if (h a).isSome then freeAll (h.free a) as else none

@[simp] theorem put_self (h : Heap A V) (a : A) (v : V) : h.put a v a = some v :=
  Function.update_self ..

theorem put_of_ne (h : Heap A V) {a b : A} (v : V) (hne : b ≠ a) : h.put a v b = h b :=
  Function.update_of_ne hne ..

@[simp] theorem free_self (h : Heap A V) (a : A) : h.free a a = none :=
  Function.update_self ..

theorem free_of_ne (h : Heap A V) {a b : A} (hne : b ≠ a) : h.free a b = h b :=
  Function.update_of_ne hne ..

theorem freeAll_isSome_iff (h : Heap A V) (as : List A) :
    (h.freeAll as).isSome ↔ as.Nodup ∧ ∀ a ∈ as, (h a).isSome := by
  induction as generalizing h with
  | nil => simp [freeAll]
  | cons a as ih =>
    rw [freeAll, List.nodup_cons, List.forall_mem_cons]
    by_cases ha : (h a).isSome
    · rw [if_pos ha, ih]
      constructor
      · rintro ⟨hnodup, hall⟩
        have hmem : a ∉ as := by
          intro hmem
          have hfreed := hall a hmem
          rw [free_self] at hfreed
          cases hfreed
        refine ⟨⟨hmem, hnodup⟩, ha, fun b hb => ?_⟩
        have hne : b ≠ a := fun heq => hmem (heq ▸ hb)
        rw [← h.free_of_ne hne]
        exact hall b hb
      · rintro ⟨⟨hmem, hnodup⟩, -, hall⟩
        refine ⟨hnodup, fun b hb => ?_⟩
        have hne : b ≠ a := fun heq => hmem (heq ▸ hb)
        rw [h.free_of_ne hne]
        exact hall b hb
    · rw [if_neg ha]
      simp [ha]

/-- What is left: the addresses that were not freed. -/
theorem freeAll_apply {h h' : Heap A V} {as : List A} (hfree : h.freeAll as = some h') (b : A) :
    h' b = if b ∈ as then none else h b := by
  induction as generalizing h with
  | nil =>
    cases hfree
    rw [if_neg List.not_mem_nil]
  | cons a as ih =>
    obtain ⟨-, hfree⟩ := Option.ite_none_right_eq_some.mp hfree
    rw [ih hfree]
    by_cases hb : b ∈ as
    · rw [if_pos hb, if_pos (List.mem_cons_of_mem a hb)]
    · rw [if_neg hb]
      by_cases hba : b = a
      · subst hba
        rw [free_self, if_pos List.mem_cons_self]
      · rw [h.free_of_ne hba, if_neg fun hmem => (List.mem_cons.mp hmem).elim hba hb]

/-- An object at a free address, named behind the others. -/
theorem freeAll_put_new {h : Heap A V} {a : A} (ha : h a = none) (v : V) (as : List A) :
    ((h.put a v).freeAll (as ++ [a])).isSome ↔ (h.freeAll as).isSome := by
  rw [freeAll_isSome_iff, freeAll_isSome_iff, List.nodup_append, List.forall_mem_append,
    List.forall_mem_singleton, put_self]
  constructor
  · rintro ⟨⟨hnodup, -, hdisj⟩, hall, -⟩
    refine ⟨hnodup, fun b hb => ?_⟩
    rw [← h.put_of_ne v (hdisj b hb a (List.mem_singleton_self a))]
    exact hall b hb
  · rintro ⟨hnodup, hall⟩
    have hne : ∀ b ∈ as, b ≠ a := by
      rintro b hb rfl
      have hb' := hall b hb
      rw [ha] at hb'
      cases hb'
    refine ⟨⟨hnodup, List.nodup_singleton a, fun b hb c hc => ?_⟩, fun b hb => ?_, rfl⟩
    · rw [List.mem_singleton.mp hc]
      exact hne b hb
    · rw [h.put_of_ne v (hne b hb)]
      exact hall b hb

theorem isSome_put {h : Heap A V} {a : A} (ha : (h a).isSome) (v : V) (b : A) :
    (h.put a v b).isSome = (h b).isSome := by
  by_cases hb : b = a
  · subst hb
    rw [put_self, ha]
    rfl
  · rw [h.put_of_ne v hb]

theorem freeAll_put {h : Heap A V} {a : A} (ha : (h a).isSome) (v : V) (as : List A) :
    ((h.put a v).freeAll as).isSome ↔ (h.freeAll as).isSome := by
  simp only [freeAll_isSome_iff, isSome_put ha]

theorem freeAll_free {a : A} {as : List A} (ha : a ∈ as) (h : Heap A V) :
    ¬((h.free a).freeAll as).isSome := by
  rw [freeAll_isSome_iff]
  rintro ⟨-, hall⟩
  have hfreed := hall a ha
  rw [free_self] at hfreed
  cases hfreed

end Heap

end CdsGuard.Lib
