import Mathlib.Data.Finset.Card
import Mathlib.Logic.Function.Basic

/-
  A readers-writer lock, such as `std::shared_mutex`. Its value says who holds it, and it is a
  value of a type in which no one reads while another writes. `RwLock.mode` is what one thread
  holds; taking and releasing the lock change it for that thread and no other.

  `Counted D pc n` says that `n` threads are at a place with `D`, however many threads there are.
-/

namespace CdsGuard.Lib

/-- What a thread holds of a lock. -/
inductive Mode where
  | none
  | shared
  | unique
  deriving DecidableEq

inductive RwLock (T : Type) where
  | shared (readers : Finset T)
  | unique (writer : T)

variable {T : Type} [DecidableEq T]

namespace RwLock

def free : RwLock T := shared ∅

/-- What thread `t` holds. -/
def mode : RwLock T → T → Mode
  | shared readers, t => if t ∈ readers then .shared else .none
  | unique writer, t => if t = writer then .unique else .none

/-- The lock after `t` has taken it, if `t` need not wait. -/
def lockShared (t : T) : RwLock T → Option (RwLock T)
  | shared readers => some (shared (insert t readers))
  | unique _ => none

def lock (t : T) : RwLock T → Option (RwLock T)
  | shared readers => if readers = ∅ then some (unique t) else none
  | unique _ => none

/-- The lock after `t` has given up what it holds. -/
def release (t : T) : RwLock T → RwLock T
  | shared readers => shared (readers.erase t)
  | unique writer => if t = writer then free else unique writer

@[simp] theorem mode_free (t : T) : (free : RwLock T).mode t = .none := rfl

theorem mode_lockShared {t : T} {l l' : RwLock T} (h : l.lockShared t = some l') :
    l'.mode = Function.update l.mode t .shared := by
  cases l with
  | unique writer => cases h
  | shared readers =>
    cases h
    funext u
    by_cases hu : u = t
    · subst hu
      simp [mode]
    · simp [mode, hu]

theorem mode_lock {t : T} {l l' : RwLock T} (h : l.lock t = some l') :
    l'.mode = Function.update l.mode t .unique := by
  cases l with
  | unique writer => cases h
  | shared readers =>
    obtain ⟨rfl, h⟩ := Option.ite_none_right_eq_some.mp h
    cases h
    funext u
    by_cases hu : u = t
    · subst hu
      simp [mode]
    · simp [mode, hu]

theorem mode_release (t : T) (l : RwLock T) :
    (l.release t).mode = Function.update l.mode t .none := by
  funext u
  by_cases hu : u = t
  · subst hu
    rw [Function.update_self]
    cases l with
    | shared readers => simp [release, mode]
    | unique writer =>
      by_cases hw : u = writer
      · rw [release, if_pos hw]
        rfl
      · rw [release, if_neg hw]
        exact if_neg hw
  · rw [Function.update_of_ne hu]
    cases l with
    | shared readers => simp [release, mode, hu]
    | unique writer =>
      by_cases hw : t = writer
      · subst hw
        rw [release, if_pos rfl, mode_free, mode, if_neg hu]
      · rw [release, if_neg hw]

/-- While one thread holds the lock as a writer, no other holds it at all. -/
theorem mode_eq_none_of_unique {l : RwLock T} {t u : T} (h : l.mode t = .unique) (hu : u ≠ t) :
    l.mode u = .none := by
  cases l with
  | shared readers =>
    rw [mode] at h
    split at h <;> cases h
  | unique writer =>
    by_cases hw : t = writer
    · subst hw
      exact if_neg hu
    · rw [mode, if_neg hw] at h
      cases h

/-- The lock is free, or somebody holds it. -/
theorem eq_free_or_held (l : RwLock T) : l = free ∨ ∃ t, l.mode t ≠ .none := by
  cases l with
  | shared readers =>
    rcases readers.eq_empty_or_nonempty with rfl | ⟨t, ht⟩
    · exact .inl rfl
    · exact .inr ⟨t, by simp [mode, ht]⟩
  | unique writer => exact .inr ⟨writer, by simp [mode]⟩

/-- How many threads hold the lock. -/
def holders : RwLock T → Nat
  | shared readers => readers.card
  | unique _ => 1

theorem holders_release {l : RwLock T} {t : T} (h : l.mode t ≠ .none) :
    (l.release t).holders < l.holders := by
  cases l with
  | shared readers =>
    have ht : t ∈ readers := by
      by_contra hn
      exact h (if_neg hn)
    exact Finset.card_erase_lt_of_mem ht
  | unique writer =>
    have ht : t = writer := by
      by_contra hn
      exact h (if_neg hn)
    rw [release, if_pos ht]
    exact Nat.zero_lt_one

end RwLock

/-! ## How many threads are at a place -/

section

variable {P : Type}

def Counted (D : P → Bool) (pc : T → P) (n : Nat) : Prop :=
  ∃ at_place : Finset T, (∀ t, t ∈ at_place ↔ D (pc t) = true) ∧ at_place.card = n

variable {D : P → Bool} {pc : T → P} {n : Nat}

omit [DecidableEq T] in
theorem counted_zero (h : ∀ t, D (pc t) = false) : Counted D pc 0 :=
  ⟨∅, fun t => by simp [h t], rfl⟩

omit [DecidableEq T] in
theorem Counted.exists_of_pos (h : Counted D pc n) (hn : 0 < n) : ∃ t, D (pc t) = true := by
  obtain ⟨F, hF, rfl⟩ := h
  obtain ⟨t, ht⟩ := Finset.card_pos.mp hn
  exact ⟨t, (hF t).mp ht⟩

omit [DecidableEq T] in
theorem Counted.le_one (h : Counted D pc n)
    (hone : ∀ t u, D (pc t) = true → D (pc u) = true → t = u) : n ≤ 1 := by
  obtain ⟨F, hF, rfl⟩ := h
  exact Finset.card_le_one.mpr fun t ht u hu => hone t u ((hF t).mp ht) ((hF u).mp hu)

/-- One thread goes on. -/
theorem Counted.update (h : Counted D pc n) (t : T) (p : P) :
    ∃ n', Counted D (Function.update pc t p) n' ∧
      n' + (D (pc t)).toNat = n + (D p).toNat := by
  obtain ⟨F, hF, rfl⟩ := h
  have hothers : ∀ u, u ≠ t → (u ∈ F ↔ D (Function.update pc t p u) = true) := by
    intro u hu
    rw [Function.update_of_ne hu]
    exact hF u
  cases hp : D p with
  | true =>
    refine ⟨(insert t F).card, ⟨insert t F, fun u => ?_, rfl⟩, ?_⟩
    · by_cases hu : u = t
      · subst hu
        simp [hp]
      · simp only [Finset.mem_insert, hu, false_or]
        exact hothers u hu
    · cases ht : D (pc t) with
      | true => rw [Finset.insert_eq_of_mem ((hF t).mpr ht)]
      | false =>
        have hnot : t ∉ F := fun hmem => Bool.false_ne_true (ht.symm.trans ((hF t).mp hmem))
        rw [Finset.card_insert_of_notMem hnot]
        rfl
  | false =>
    refine ⟨(F.erase t).card, ⟨F.erase t, fun u => ?_, rfl⟩, ?_⟩
    · by_cases hu : u = t
      · subst hu
        simp [hp]
      · simp only [Finset.mem_erase, hu, ne_eq, not_false_eq_true, true_and]
        exact hothers u hu
    · cases ht : D (pc t) with
      | true => exact Finset.card_erase_add_one ((hF t).mpr ht)
      | false =>
        have hnot : t ∉ F := fun hmem => Bool.false_ne_true (ht.symm.trans ((hF t).mp hmem))
        rw [Finset.erase_eq_of_notMem hnot]

end

end CdsGuard.Lib
