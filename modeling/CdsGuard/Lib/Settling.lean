import Mathlib.Order.Filter.AtTopBot.Basic

/-
  Sequences of natural numbers that go down to a bound and stay there. The condition on them is
  required from some point on only, so that what came before does not matter.
-/

namespace CdsGuard.Lib

open Filter

/-- What is lowered by each step while it is above `b`, and never raised above `b` again, is at
    most `b` from some point on. -/
theorem eventually_le_of_lowered {f : Nat → Nat} {b : Nat}
    (h : ∀ᶠ n in atTop, f (n + 1) ≤ max b (f n - 1)) : ∀ᶠ n in atTop, f n ≤ b := by
  obtain ⟨N, hN⟩ := eventually_atTop.mp h
  have hdown : ∀ k, f (N + k) ≤ max b (f N - k) := by
    intro k
    induction k with
    | zero => exact le_max_right _ _
    | succ k ih =>
      have hstep := hN (N + k) (Nat.le_add_right N k)
      rw [← Nat.add_assoc]
      omega
  refine eventually_atTop.mpr ⟨N + f N, fun n hn => ?_⟩
  obtain ⟨k, rfl⟩ := Nat.exists_eq_add_of_le (show N ≤ n by omega)
  have hk := hdown k
  omega

/-- What is raised by each step while it is below `a` is at least `a` from some point on. -/
theorem eventually_ge_of_raised {f : Nat → Nat} {a : Nat}
    (h : ∀ᶠ n in atTop, min a (f n + 1) ≤ f (n + 1)) : ∀ᶠ n in atTop, a ≤ f n := by
  have hgap : ∀ᶠ n in atTop, a - f (n + 1) ≤ max 0 (a - f n - 1) := by
    filter_upwards [h] with n hn
    omega
  filter_upwards [eventually_le_of_lowered (f := fun n => a - f n) hgap] with n hn
  omega

end CdsGuard.Lib
