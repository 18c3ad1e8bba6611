import Mathlib.Tactic

/-
  A buffer that is filled from the front, a chunk at a time, and that may be resized in between.
  `Filled buf off data` says that the first `off` elements are the data so far; a write behind
  them appends to the data (`Filled.overwriteAt`), a resize that keeps them keeps it
  (`Filled.resizeTo`), and cutting the buffer off there leaves the data (`Filled.cut`).
-/

namespace CdsGuard.Lib

variable {α : Type}

/-- Cut off at `n`, or filled up to `n`. -/
def resizeTo (fill : α) (buf : List α) (n : Nat) : List α :=
  buf.take n ++ List.replicate (n - buf.length) fill

/-- The chunk takes the place of the elements from `off` on. -/
def overwriteAt (buf : List α) (off : Nat) (chunk : List α) : List α :=
  buf.take off ++ (chunk ++ buf.drop (off + chunk.length))

@[simp] theorem resizeTo_length (fill : α) (buf : List α) (n : Nat) :
    (resizeTo fill buf n).length = n := by
  rw [resizeTo, List.length_append, List.length_take, List.length_replicate]
  omega

theorem resizeTo_of_le (fill : α) {buf : List α} {n : Nat} (h : n ≤ buf.length) :
    resizeTo fill buf n = buf.take n := by
  rw [resizeTo, Nat.sub_eq_zero_of_le h, List.replicate_zero, List.append_nil]

theorem resizeTo_take (fill : α) {buf : List α} {n k : Nat} (hk : k ≤ buf.length) (hn : k ≤ n) :
    (resizeTo fill buf n).take k = buf.take k := by
  rw [resizeTo, List.take_append_of_le_length (by rw [List.length_take]; omega), List.take_take,
    Nat.min_eq_left hn]

theorem overwriteAt_length {buf : List α} {off : Nat} {chunk : List α}
    (h : off + chunk.length ≤ buf.length) : (overwriteAt buf off chunk).length = buf.length := by
  simp only [overwriteAt, List.length_append, List.length_take, List.length_drop]
  omega

/-- The first `off` elements of the buffer are the data so far. -/
structure Filled (buf : List α) (off : Nat) (data : List α) : Prop where
  front : buf.take off = data
  inside : off ≤ buf.length

namespace Filled

variable {buf data : List α} {off : Nat}

theorem length_eq (h : Filled buf off data) : data.length = off := by
  rw [← h.front, List.length_take, Nat.min_eq_left h.inside]

theorem empty (buf : List α) : Filled buf 0 [] := ⟨List.take_zero, Nat.zero_le _⟩

/-- What is written behind the data is appended to it; nothing of it is overwritten. -/
theorem overwriteAt (h : Filled buf off data) {chunk : List α}
    (hroom : off + chunk.length ≤ buf.length) :
    Filled (overwriteAt buf off chunk) (off + chunk.length) (data ++ chunk) where
  front := by
    have hlen : (buf.take off ++ chunk).length = off + chunk.length := by
      rw [h.front, List.length_append, h.length_eq]
    rw [Lib.overwriteAt, ← List.append_assoc, List.take_left' hlen, h.front]
  inside := by rwa [overwriteAt_length hroom]

theorem resizeTo (h : Filled buf off data) (fill : α) {n : Nat} (hn : off ≤ n) :
    Filled (resizeTo fill buf n) off data where
  front := by rw [resizeTo_take fill h.inside hn, h.front]
  inside := by rwa [resizeTo_length]

theorem cut (h : Filled buf off data) (fill : α) : Lib.resizeTo fill buf off = data := by
  rw [resizeTo_of_le fill h.inside, h.front]

end Filled

end CdsGuard.Lib
