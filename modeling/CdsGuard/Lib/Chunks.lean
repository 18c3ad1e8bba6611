import Mathlib.Tactic

/-
  A list cut into pieces of a fixed size, and its reassembly: the first `k` pieces put together
  are the list's prefix of `k * size` elements (`take_append_piece`), and once the pieces cover
  the list they are the list (`take_of_covered`).
-/

namespace CdsGuard.Lib

variable {α : Type}

/-- Piece number `k` of `xs`, counted from 0. The last piece may be shorter. -/
def piece (size : Nat) (xs : List α) (k : Nat) : List α := (xs.drop (k * size)).take size

/-- The number of pieces that cover `n` elements. -/
def pieceCount (size n : Nat) : Nat := (n + (size - 1)) / size

theorem piece_length_le (size : Nat) (xs : List α) (k : Nat) : (piece size xs k).length ≤ size := by
  rw [piece, List.length_take]
  exact Nat.min_le_left _ _

/-- Appending the next piece to a reassembled prefix. -/
theorem take_append_piece (size : Nat) (xs : List α) (k : Nat) :
    xs.take (k * size) ++ piece size xs k = xs.take ((k + 1) * size) := by
  rw [piece, Nat.add_one_mul, List.take_add]

/-- The first `k` pieces, put together. -/
theorem pieces_flatten (size : Nat) (xs : List α) (k : Nat) :
    ((List.range k).map (piece size xs)).flatten = xs.take (k * size) := by
  induction k with
  | zero => rw [Nat.zero_mul, List.take_zero, List.range_zero, List.map_nil, List.flatten_nil]
  | succ k ih =>
    rw [List.range_succ, List.map_append, List.flatten_append, ih, List.map_singleton,
      List.flatten_singleton, take_append_piece]

theorem le_pieceCount_mul {size : Nat} (hsize : 0 < size) (n : Nat) :
    n ≤ pieceCount size n * size := by
  have h := Nat.div_add_mod (n + (size - 1)) size
  have hlt := Nat.mod_lt (n + (size - 1)) hsize
  rw [pieceCount, Nat.mul_comm]
  omega

/-- A list of fewer than `m * size` elements has at most `m` pieces. -/
theorem pieceCount_le {size n m : Nat} (hsize : 0 < size) (hn : n < size * m) :
    pieceCount size n ≤ m := by
  have hlt : (n + (size - 1)) / size < m + 1 := by
    rw [Nat.div_lt_iff_lt_mul hsize, Nat.add_one_mul, Nat.mul_comm m size]
    omega
  exact Nat.le_of_lt_succ hlt

/-- All the pieces together are the list. -/
theorem take_of_covered {size : Nat} (hsize : 0 < size) (xs : List α) :
    xs.take (pieceCount size xs.length * size) = xs :=
  List.take_of_length_le (le_pieceCount_mul hsize xs.length)

end CdsGuard.Lib
