import Mathlib.Data.List.AList
import CdsGuard.Lib.Chunks

/-
  Reassembly of numbered pieces that arrive in any order, as the receiving half of a
  selective-repeat protocol does it: `base` is the next number wanted, `joined` what the numbers
  below it carried, `ahead` the pieces that came early. Numbers start at 1.

  `Holds f n w` says that everything in `w` comes from the pieces `f 1 .. f n`. It is kept by
  every piece that is put in (`Holds.put`), and once all numbers have been put in the base is
  past the last one (`Holds.base_eq`), with all pieces joined. `Firsts` says it of pieces that
  may arrive again with other contents: the first one counts.
-/

namespace CdsGuard.Lib

variable {α : Type}

/-- A map from numbers to pieces. -/
abbrev PieceMap (α : Type) := AList fun _ : Nat => List α

theorem PieceMap.length_erase {m : PieceMap α} {k : Nat} (h : k ∈ m) :
    (m.erase k).entries.length + 1 = m.entries.length := by
  have hkeys : (m.erase k).keys.length = m.keys.length - 1 := by
    rw [AList.keys_erase]
    exact List.length_erase_of_mem h
  have hpos : 0 < m.keys.length := List.length_pos_of_mem h
  have h1 : (m.erase k).keys.length = (m.erase k).entries.length := List.length_map _
  have h2 : m.keys.length = m.entries.length := List.length_map _
  omega

/-- A map has no more pieces than its numbers have room for. -/
theorem PieceMap.length_le {m : PieceMap α} {a n : Nat} (h : ∀ k ∈ m, a ≤ k ∧ k < a + n) :
    m.entries.length ≤ n := by
  have hsub : m.keys ⊆ List.range' a n := fun k hk => List.mem_range'_1.mpr (h k hk)
  have hle := (List.subperm_of_subset m.keys_nodup hsub).length_le
  rw [List.length_range'] at hle
  exact (List.length_map _).symm.le.trans hle

structure Window (α : Type) where
  base : Nat
  joined : List α
  ahead : PieceMap α

namespace Window

/-- Append the piece that was wanted. -/
def extend (w : Window α) (d : List α) : Window α :=
  ⟨w.base + 1, w.joined ++ d, w.ahead⟩

/-- Move the pieces that came early and are now wanted, at most `fuel` of them. -/
def drain : Nat → Window α → Window α
  | 0, w => w
  | fuel + 1, w =>
    match w.ahead.lookup w.base with
    | none => w
    | some d => drain fuel ⟨w.base + 1, w.joined ++ d, w.ahead.erase w.base⟩

/-- A piece with a number that is wanted now or later. -/
def put (w : Window α) (k : Nat) (d : List α) : Window α :=
  if k = w.base then (w.extend d).drain w.ahead.entries.length
  else if k ∈ w.ahead then w
  else { w with ahead := w.ahead.insert k d }

/-- Piece `k` has arrived. -/
def Held (w : Window α) (k : Nat) : Prop := k < w.base ∨ k ∈ w.ahead

/-- Everything comes from the pieces 1 to `n` of `f`, and those kept for later are not wanted
    yet, except perhaps the very next (`slack = 0`). -/
structure HoldsFrom (slack : Nat) (f : Nat → List α) (n : Nat) (w : Window α) : Prop where
  base_pos : 1 ≤ w.base
  base_le : w.base ≤ n + 1
  joined_eq : w.joined = (List.range (w.base - 1)).flatMap fun i => f (i + 1)
  ahead_eq : ∀ k d, w.ahead.lookup k = some d → w.base + slack ≤ k ∧ k ≤ n ∧ d = f k

/-- The invariant between two arrivals. -/
abbrev Holds (f : Nat → List α) (n : Nat) (w : Window α) : Prop := HoldsFrom 1 f n w

variable {f : Nat → List α} {n : Nat} {w : Window α}

theorem HoldsFrom.joined_step {slack : Nat} (h : HoldsFrom slack f n w) :
    w.joined ++ f w.base = (List.range (w.base + 1 - 1)).flatMap fun i => f (i + 1) := by
  have hpos := h.base_pos
  have hsucc : w.base + 1 - 1 = (w.base - 1) + 1 := by omega
  have hbase : w.base - 1 + 1 = w.base := by omega
  rw [hsucc, List.range_succ, List.flatMap_append, ← h.joined_eq, List.flatMap_singleton, hbase]

/-- Draining, with fuel for every piece kept, ends with the next number not kept. -/
theorem HoldsFrom.drain (fuel : Nat) (h : HoldsFrom 0 f n w)
    (hfuel : w.ahead.entries.length ≤ fuel) : Holds f n (w.drain fuel) := by
  induction fuel generalizing w with
  | zero =>
    have hnil : w.ahead.entries = [] := List.length_eq_zero_iff.mp (Nat.le_zero.mp hfuel)
    refine ⟨h.base_pos, h.base_le, h.joined_eq, fun k d hk => ?_⟩
    exfalso
    have hk' : w.ahead.lookup k = some d := hk
    have hmem : k ∈ w.ahead := AList.lookup_isSome.mp (by rw [hk']; rfl)
    have hkeys : k ∈ w.ahead.keys := hmem
    rw [AList.keys, hnil] at hkeys
    exact absurd hkeys (by simp)
  | succ fuel ih =>
    unfold Window.drain
    split
    · rename_i hnone
      refine ⟨h.base_pos, h.base_le, h.joined_eq, fun k d hk => ?_⟩
      obtain ⟨hle, hn, hd⟩ := h.ahead_eq k d hk
      have hne : k ≠ w.base := by
        intro heq
        rw [heq, hnone] at hk
        exact absurd hk (by simp)
      exact ⟨by omega, hn, hd⟩
    · rename_i d hsome
      obtain ⟨-, hn, hd⟩ := h.ahead_eq _ _ hsome
      have hmem : w.base ∈ w.ahead := AList.lookup_isSome.mp (by rw [hsome]; rfl)
      refine ih ⟨?_, ?_, ?_, ?_⟩ ?_
      · show 1 ≤ w.base + 1
        omega
      · show w.base + 1 ≤ n + 1
        omega
      · subst hd
        exact h.joined_step
      · intro k e hk
        have hk' : (w.ahead.erase w.base).lookup k = some e := hk
        have hne : k ≠ w.base := by
          intro heq
          rw [heq, AList.lookup_erase] at hk'
          exact absurd hk' (by simp)
        rw [AList.lookup_erase_ne hne] at hk'
        obtain ⟨hle, hkn, he⟩ := h.ahead_eq k e hk'
        refine ⟨?_, hkn, he⟩
        show w.base + 1 + 0 ≤ k
        omega
      · have := PieceMap.length_erase hmem
        show (w.ahead.erase w.base).entries.length ≤ fuel
        omega

/-- Putting in a piece of the data keeps the invariant. -/
theorem HoldsFrom.put {k : Nat} (h : Holds f n w) (hk : w.base ≤ k) (hn : k ≤ n) :
    Holds f n (w.put k (f k)) := by
  unfold Window.put
  split
  · rename_i heq
    subst heq
    refine HoldsFrom.drain _ ⟨?_, ?_, h.joined_step, ?_⟩ (Nat.le_refl _)
    · show 1 ≤ w.base + 1
      omega
    · show w.base + 1 ≤ n + 1
      omega
    · intro k d hkd
      obtain ⟨hle, hkn, hd⟩ := h.ahead_eq k d hkd
      exact ⟨hle, hkn, hd⟩
  · rename_i hne
    split
    · exact h
    · refine ⟨h.base_pos, h.base_le, h.joined_eq, fun j d hj => ?_⟩
      by_cases hjk : j = k
      · subst hjk
        have hj' : (w.ahead.insert j (f j)).lookup j = some d := hj
        rw [AList.lookup_insert] at hj'
        refine ⟨?_, hn, (Option.some.inj hj').symm⟩
        show w.base + 1 ≤ j
        omega
      · have hj' : (w.ahead.insert k (f k)).lookup j = some d := hj
        rw [AList.lookup_insert_ne hjk] at hj'
        exact h.ahead_eq j d hj'

theorem drain_held (fuel : Nat) {k : Nat} (h : w.Held k) : (w.drain fuel).Held k := by
  induction fuel generalizing w with
  | zero => exact h
  | succ fuel ih =>
    unfold Window.drain
    split
    · exact h
    · apply ih
      rcases h with h | h
      · exact .inl (Nat.lt_succ_of_lt h)
      · by_cases hk : k = w.base
        · exact .inl (by rw [hk]; exact Nat.lt_succ_self _)
        · exact .inr (AList.mem_erase.mpr ⟨hk, h⟩)

/-- Nothing that has arrived is lost, and the new piece has arrived. -/
theorem put_held {j k : Nat} {d : List α} (h : w.Held j ∨ j = k) : (w.put k d).Held j := by
  unfold Window.put
  split
  · rename_i heq
    apply drain_held
    rcases h with (h | h) | h
    · exact .inl (Nat.lt_succ_of_lt h)
    · exact .inr h
    · exact .inl (by rw [h, heq]; exact Nat.lt_succ_self _)
  · split
    · rename_i hmem
      rcases h with h | h
      · exact h
      · exact .inr (by rw [h]; exact hmem)
    · rcases h with (h | h) | h
      · exact .inl h
      · exact .inr ((AList.mem_insert _).mpr (.inr h))
      · exact .inr ((AList.mem_insert _).mpr (.inl h))

/-- `Holds` looks at no other pieces than those that have arrived. -/
theorem HoldsFrom.congr {slack : Nat} {g : Nat → List α} (h : HoldsFrom slack f n w)
    (hfg : ∀ k, w.Held k → 1 ≤ k → g k = f k) : HoldsFrom slack g n w := by
  refine ⟨h.base_pos, h.base_le, ?_, fun k d hk => ?_⟩
  · rw [h.joined_eq, List.flatMap, List.flatMap]
    congr 1
    refine List.map_congr_left fun i hi => ?_
    have hi' := List.mem_range.mp hi
    exact (hfg (i + 1) (.inl (by omega)) (by omega)).symm
  · obtain ⟨hle, hn, hd⟩ := h.ahead_eq k d hk
    have hpos := h.base_pos
    have hmem : k ∈ w.ahead := AList.lookup_isSome.mp (by rw [hk]; rfl)
    exact ⟨hle, hn, hd.trans (hfg k (.inr hmem) (by omega)).symm⟩

theorem drain_base_le (fuel : Nat) : w.base ≤ (w.drain fuel).base := by
  induction fuel generalizing w with
  | zero => exact Nat.le_refl _
  | succ fuel ih =>
    unfold Window.drain
    split
    · exact Nat.le_refl _
    · rename_i d _
      have hnext := ih (w := ⟨w.base + 1, w.joined ++ d, w.ahead.erase w.base⟩)
      exact Nat.le_of_succ_le hnext

theorem mem_of_mem_drain (fuel : Nat) {k : Nat} (h : k ∈ (w.drain fuel).ahead) : k ∈ w.ahead := by
  induction fuel generalizing w with
  | zero => exact h
  | succ fuel ih =>
    unfold Window.drain at h
    split at h
    · exact h
    · exact (AList.mem_erase.mp (ih h)).2

theorem put_base_le (k : Nat) (d : List α) : w.base ≤ (w.put k d).base := by
  unfold Window.put
  split
  · exact (Nat.le_succ _).trans (drain_base_le (w := w.extend d) _)
  · split <;> exact Nat.le_refl _

theorem mem_of_mem_put {j k : Nat} {d : List α} (h : j ∈ (w.put k d).ahead) :
    j = k ∨ j ∈ w.ahead := by
  unfold Window.put at h
  split at h
  · exact .inr (mem_of_mem_drain (w := w.extend d) _ h)
  · split at h
    · exact .inr h
    · exact (AList.mem_insert _).mp h

/-- What has been joined arrived before, or now. -/
theorem held_of_drain (fuel : Nat) {k : Nat} (h : (w.drain fuel).Held k) : w.Held k := by
  induction fuel generalizing w with
  | zero => exact h
  | succ fuel ih =>
    unfold Window.drain at h
    split at h
    · exact h
    · rename_i d hsome
      have hmem : w.base ∈ w.ahead := AList.lookup_isSome.mp (by rw [hsome]; rfl)
      rcases ih h with hlt | hk
      · have hlt' : k < w.base + 1 := hlt
        by_cases heq : k = w.base
        · exact .inr (by rw [heq]; exact hmem)
        · exact .inl (by omega)
      · exact .inr (AList.mem_erase.mp hk).2

theorem held_of_put {j k : Nat} {d : List α} (h : (w.put k d).Held j) : w.Held j ∨ j = k := by
  unfold Window.put at h
  split at h
  · rename_i heq
    rcases held_of_drain (w := w.extend d) _ h with hlt | hj
    · have hlt' : j < w.base + 1 := hlt
      by_cases hjb : j = w.base
      · exact .inr (by rw [hjb, heq])
      · exact .inl (.inl (by omega))
    · exact .inl (.inr hj)
  · split at h
    · exact .inl h
    · rcases h with h | h
      · exact .inl (.inl h)
      · rcases (AList.mem_insert _).mp h with rfl | h
        · exact .inr rfl
        · exact .inl (.inr h)

/-- When every piece has arrived, every piece has been joined. -/
theorem HoldsFrom.base_eq (h : Holds f n w) (hall : ∀ k, 1 ≤ k → k ≤ n → w.Held k) :
    w.base = n + 1 := by
  by_contra hne
  have hle : w.base ≤ n := by
    have := h.base_le
    omega
  rcases hall w.base h.base_pos hle with hlt | hmem
  · omega
  · obtain ⟨d, hd⟩ := Option.isSome_iff_exists.mp (AList.lookup_isSome.mpr hmem)
    have := (h.ahead_eq _ _ hd).1
    omega

end Window

/-! ## First arrivals -/

/-- The first piece that arrived under a number. -/
def firstPiece (arrivals : List (Nat × List α)) (k : Nat) : List α :=
  (arrivals.lookup k).getD []

/-- How many numbers have arrived. -/
def arrivedCount (arrivals : List (Nat × List α)) : Nat := (arrivals.map Prod.fst).dedup.length

theorem lookup_isSome_iff_mem {arrivals : List (Nat × List α)} {k : Nat} :
    (arrivals.lookup k).isSome ↔ k ∈ arrivals.map Prod.fst := by
  rw [List.lookup_isSome_iff, List.mem_map]
  constructor
  · rintro ⟨p, hp, hk⟩
    exact ⟨p, hp, (by simpa using hk : k = p.1).symm⟩
  · rintro ⟨p, hp, rfl⟩
    exact ⟨p, hp, by simp⟩

/-- A piece that arrives later is not the first one. -/
theorem firstPiece_concat (arrivals : List (Nat × List α)) (j k : Nat) (d : List α) :
    firstPiece (arrivals ++ [(j, d)]) k =
      if k ∈ arrivals.map Prod.fst then firstPiece arrivals k else if k = j then d else [] := by
  unfold firstPiece
  rw [List.lookup_append]
  split
  · rename_i hmem
    obtain ⟨e, he⟩ := Option.isSome_iff_exists.mp (lookup_isSome_iff_mem.mpr hmem)
    rw [he]
    rfl
  · rename_i hmem
    have hnone : arrivals.lookup k = none := by
      by_contra hne
      exact hmem (lookup_isSome_iff_mem.mp (Option.isSome_iff_ne_none.mpr hne))
    rw [hnone, Option.none_or]
    by_cases hkj : k = j
    · subst hkj
      simp
    · have hbeq : (k == j) = false := by simpa using hkj
      rw [List.lookup_cons, hbeq, if_neg hkj]
      rfl

namespace Window

/-- The window of all that has arrived, with the first piece of each number, none of them beyond
    the capacity. Numbers go up to `n`. -/
structure Firsts (n capacity : Nat) (arrivals : List (Nat × List α)) (w : Window α) : Prop where
  holds : w.Holds (firstPiece arrivals) n
  arrived : ∀ k, k ∈ arrivals.map Prod.fst ↔ 1 ≤ k ∧ w.Held k
  near : ∀ k ∈ w.ahead, k < w.base + capacity

variable {n capacity : Nat} {arrivals : List (Nat × List α)} {w : Window α}

theorem firsts_nil (n capacity : Nat) : Firsts n capacity [] (⟨1, [], ∅⟩ : Window α) where
  holds := {
    base_pos := Nat.le_refl 1
    base_le := by show 1 ≤ n + 1; omega
    joined_eq := rfl
    ahead_eq := fun k d hk => by
      have hk' : (∅ : PieceMap α).lookup k = some d := hk
      simp at hk' }
  arrived := fun k => by
    constructor
    · intro hk
      exact absurd hk (by simp)
    · rintro ⟨h1, hlt | hmem⟩
      · have hlt' : k < 1 := hlt
        omega
      · exact absurd hmem (AList.notMem_empty k)
  near := fun k hk => absurd hk (AList.notMem_empty k)

/-- Every number below the base has arrived. -/
theorem Firsts.base_le (h : Firsts n capacity arrivals w) : w.base ≤ arrivedCount arrivals + 1 := by
  have hsub : List.range' 1 (w.base - 1) ⊆ (arrivals.map Prod.fst).dedup := by
    intro k hk
    obtain ⟨h1, hlt⟩ := List.mem_range'_1.mp hk
    exact List.mem_dedup.mpr ((h.arrived k).mpr ⟨h1, .inl (by omega)⟩)
  have hle := (List.subperm_of_subset List.nodup_range' hsub).length_le
  rw [List.length_range'] at hle
  unfold arrivedCount
  omega

theorem Firsts.kept (h : Firsts n capacity arrivals w) {k : Nat} (hk : k ∈ w.ahead) :
    w.base < k ∧ k < w.base + capacity := by
  obtain ⟨d, hd⟩ := Option.isSome_iff_exists.mp (AList.lookup_isSome.mpr hk)
  exact ⟨(h.holds.ahead_eq k d hd).1, h.near k hk⟩

theorem Firsts.kept_length (h : Firsts n capacity arrivals w) :
    w.ahead.entries.length ≤ capacity - 1 := by
  refine PieceMap.length_le (a := w.base + 1) fun k hk => ?_
  have := h.kept hk
  omega

/-- A piece that is inside the window when it arrives. -/
theorem Firsts.put (h : Firsts n capacity arrivals w) {k : Nat} {d : List α} (hk : w.base ≤ k)
    (hcap : k < w.base + capacity) (hn : k ≤ n) :
    Firsts n capacity (arrivals ++ [(k, d)]) (w.put k d) := by
  have hpos := h.holds.base_pos
  have hfirst : ∀ j, w.Held j → 1 ≤ j →
      firstPiece (arrivals ++ [(k, d)]) j = firstPiece arrivals j := by
    intro j hj h1
    rw [firstPiece_concat, if_pos ((h.arrived j).mpr ⟨h1, hj⟩)]
  have hholds := h.holds.congr hfirst
  have hput : (w.put k d).Holds (firstPiece (arrivals ++ [(k, d)])) n := by
    by_cases hmem : k ∈ arrivals.map Prod.fst
    · -- it has arrived before, so it is kept and nothing happens
      have hahead : k ∈ w.ahead := by
        rcases ((h.arrived k).mp hmem).2 with hlt | hahead
        · omega
        · exact hahead
      have hne : k ≠ w.base := by
        have := (h.kept hahead).1
        omega
      rw [Window.put, if_neg hne, if_pos hahead]
      exact hholds
    · have hd : firstPiece (arrivals ++ [(k, d)]) k = d := by
        rw [firstPiece_concat, if_neg hmem, if_pos rfl]
      have := hholds.put hk hn
      rwa [hd] at this
  refine ⟨hput, fun j => ?_, fun j hj => ?_⟩
  · rw [List.map_append, List.mem_append, h.arrived]
    constructor
    · rintro (⟨h1, hj⟩ | hj)
      · exact ⟨h1, put_held (.inl hj)⟩
      · obtain rfl : j = k := by simpa using hj
        exact ⟨by omega, put_held (.inr rfl)⟩
    · rintro ⟨h1, hj⟩
      rcases held_of_put hj with hj | rfl
      · exact .inl ⟨h1, hj⟩
      · exact .inr (by simp)
  · have hle := put_base_le (w := w) k d
    rcases mem_of_mem_put hj with rfl | hj
    · omega
    · have := h.near j hj
      omega

end Window

/-- The pieces of a list, numbered from 1, are joined to its prefixes. -/
theorem range_flatMap_piece (size : Nat) (xs : List α) (m : Nat) :
    (List.range m).flatMap (piece size xs) = xs.take (m * size) := by
  induction m with
  | zero => simp
  | succ m ih =>
    rw [List.range_succ, List.flatMap_append, ih, List.flatMap_singleton, take_append_piece]

end CdsGuard.Lib
