import CdsGuard.Lib.Transition

/-
  A cache of one value, as it should behave however many threads use it: each use is one event.
  A value is stored only when there is none, a hit returns the value there is, and a drop empties
  the cache only of the value it names.
-/

namespace CdsGuard.Lib

inductive CacheEvent (T V : Type) where
  | hit (t : T) (v : V)
  | store (t : T) (v : V)
  | drop (t : T) (v : V)

namespace CacheEvent

variable {T V : Type}

def isStore : CacheEvent T V → Bool
  | store _ _ => true
  | _ => false

def isDrop : CacheEvent T V → Bool
  | drop _ _ => true
  | _ => false

variable [DecidableEq V]

def step : Option V → CacheEvent T V → Option (Option V)
  | c, hit _ v => if c = some v then some c else none
  | c, store _ v => if c = none then some (some v) else none
  | c, drop _ v => some (if c = some v then none else c)

/-- Between two stores the value has been dropped. -/
theorem stores_le {c c' : Option V} {es : List (CacheEvent T V)} (h : run step c es = some c') :
    es.countP isStore + c.toList.length ≤ es.countP isDrop + c'.toList.length := by
  induction es generalizing c with
  | nil =>
    cases h
    exact le_rfl
  | cons e es ih =>
    obtain ⟨d, hd, hr⟩ := run_cons h
    have hes := ih hr
    cases e with
    | hit t v =>
      obtain ⟨-, hd⟩ := Option.ite_none_right_eq_some.mp hd
      cases hd
      rw [List.countP_cons_of_neg Bool.false_ne_true, List.countP_cons_of_neg Bool.false_ne_true]
      exact hes
    | store t v =>
      obtain ⟨rfl, hd⟩ := Option.ite_none_right_eq_some.mp hd
      cases hd
      rw [List.countP_cons_of_pos rfl, List.countP_cons_of_neg Bool.false_ne_true]
      exact hes
    | drop t v =>
      cases hd
      rw [List.countP_cons_of_neg Bool.false_ne_true, List.countP_cons_of_pos rfl]
      have hc : c.toList.length ≤ 1 + (if c = some v then none else c).toList.length := by
        split
        · next hv => simp [hv]
        · exact Nat.le_add_left _ 1
      omega

end CacheEvent

end CdsGuard.Lib
