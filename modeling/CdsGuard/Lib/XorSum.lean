import Mathlib.Data.List.Perm.Basic

/-
  Sums of a family over a list of indices, in a commutative operation whose every element is
  its own inverse (the xor of bytes, the symmetric difference of sets). Only the parity of
  each index counts: `xsum_reduce` replaces the list by the indices of odd multiplicity.
  A map given by index rows is composed with another by `xsum_flatMap`, so an identity between
  two such maps is a computation on index lists.
-/

namespace CdsGuard.Lib

variable {ι G : Type}

/-- A commutative operation with a unit in which every element cancels itself. -/
structure XorLike (op : G → G → G) (e : G) : Prop where
  assoc : ∀ x y z, op (op x y) z = op x (op y z)
  comm : ∀ x y, op x y = op y x
  unit : ∀ x, op x e = x
  self : ∀ x, op x x = e

namespace XorLike

variable {op : G → G → G} {e : G}

theorem unit_left (h : XorLike op e) (x : G) : op e x = x := by
  rw [h.comm, h.unit]

theorem cancel_left (h : XorLike op e) (x y : G) : op x (op x y) = y := by
  rw [← h.assoc, h.self, h.unit_left]

theorem left_comm (h : XorLike op e) (x y z : G) : op x (op y z) = op y (op x z) := by
  rw [← h.assoc, h.comm x y, h.assoc]

end XorLike

/-- The sum of `f` over the indices of `l`. -/
def xsum (op : G → G → G) (e : G) (f : ι → G) (l : List ι) : G :=
  l.foldr (fun k acc => op (f k) acc) e

/-- Add one index: it cancels an earlier occurrence, if there is one. -/
def toggle [DecidableEq ι] (k : ι) (l : List ι) : List ι :=
  if k ∈ l then l.erase k else k :: l

/-- The indices of odd multiplicity. -/
def reduce [DecidableEq ι] (l : List ι) : List ι := l.foldr toggle []

section

variable {op : G → G → G} {e : G} (f : ι → G)

@[simp] theorem xsum_nil : xsum op e f [] = e := rfl

@[simp] theorem xsum_cons (k : ι) (l : List ι) :
    xsum op e f (k :: l) = op (f k) (xsum op e f l) := rfl

theorem xsum_append (h : XorLike op e) (l m : List ι) :
    xsum op e f (l ++ m) = op (xsum op e f l) (xsum op e f m) := by
  induction l with
  | nil => simp [h.unit_left]
  | cons k l ih => rw [List.cons_append, xsum_cons, xsum_cons, ih, h.assoc]

theorem xsum_perm (h : XorLike op e) {l m : List ι} (hp : l.Perm m) :
    xsum op e f l = xsum op e f m := by
  induction hp with
  | nil => rfl
  | cons k _ ih => rw [xsum_cons, xsum_cons, ih]
  | swap a b l => rw [xsum_cons, xsum_cons, xsum_cons, xsum_cons, h.left_comm]
  | trans _ _ ih1 ih2 => rw [ih1, ih2]

theorem xsum_toggle [DecidableEq ι] (h : XorLike op e) (k : ι) (l : List ι) :
    xsum op e f (toggle k l) = op (f k) (xsum op e f l) := by
  unfold toggle
  split
  · rename_i hk
    rw [xsum_perm f h (List.perm_cons_erase hk), xsum_cons, h.cancel_left]
  · rfl

/-- Only the indices of odd multiplicity contribute. -/
theorem xsum_reduce [DecidableEq ι] (h : XorLike op e) (l : List ι) :
    xsum op e f (reduce l) = xsum op e f l := by
  induction l with
  | nil => rfl
  | cons k l ih =>
    have hr : reduce (k :: l) = toggle k (reduce l) := rfl
    rw [hr, xsum_toggle f h, ih, xsum_cons]

/-- Two row maps composed: a sum of row sums is the sum over all the rows' indices. -/
theorem xsum_flatMap (h : XorLike op e) (row : ι → List ι) (l : List ι) :
    xsum op e (fun k => xsum op e f (row k)) l = xsum op e f (l.flatMap row) := by
  induction l with
  | nil => rfl
  | cons k l ih => rw [xsum_cons, ih, List.flatMap_cons, xsum_append f h]

/-- A row map commutes with the operation. -/
theorem xsum_op (h : XorLike op e) (g : ι → G) (l : List ι) :
    xsum op e (fun k => op (f k) (g k)) l = op (xsum op e f l) (xsum op e g l) := by
  induction l with
  | nil => simp [h.unit]
  | cons k l ih =>
    rw [xsum_cons, xsum_cons, xsum_cons, ih, h.assoc, h.assoc, h.left_comm (g k)]

end

end CdsGuard.Lib
