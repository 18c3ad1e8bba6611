import Mathlib.Tactic

/-
  Regular expressions as a backtracking matcher takes them (the ECMAScript rules, without
  anchors, look-ahead and back references). `r.rests s` are the rests of `s` behind the matches
  of `r` at its front, in the order in which the matcher tries them: of an alternation the left
  side first, of a repetition the longer one first. `r.search s` is the leftmost match, and there
  the first one.

  `rests_spec`: a match takes at least `r.minLength` symbols off the front. `search_eq_none_iff`
  and `search_spec`: what a search finds. Rules: what the steps over one symbol do, a match does
  (`Classes.rests`); a match stays in a list that agrees on the symbols that the classes take
  (`Classes.rests_agree`); whether there is a match is up to `front` (`rests_front_eq_nil_iff`);
  what the first match leaves (`KeepsFirst`).
-/

namespace CdsGuard.Lib

variable {α : Type}

/-- `group` is a capture group; `rep r min extra` is `r` at least `min` times and, greedily, up to
    `extra` times more, or without bound. -/
inductive Regex (α : Type) where
  | empty
  | cls (p : α → Bool)
  | seq (r t : Regex α)
  | alt (r t : Regex α)
  | group (r : Regex α)
  | rep (r : Regex α) (min : Nat) (extra : Option Nat)

namespace Regex

/-! ## Matching -/

/-- `n` matches of `m` in a row. -/
def times (m : List α → List (List α)) : Nat → List α → List (List α)
  | 0, s => [s]
  | n + 1, s => (m s).flatMap (times m n)

/-- Up to `n` matches of `m` in a row, more of them first; one that takes nothing does not
    count. -/
def upTo (m : List α → List (List α)) : Nat → List α → List (List α)
  | 0, s => [s]
  | n + 1, s => ((m s).filter fun t => t.length < s.length).flatMap (upTo m n) ++ [s]

/-- What the matches at the front leave, in the order in which they are tried. -/
def rests : Regex α → List α → List (List α)
  | empty, s => [s]
  | cls _, [] => []
  | cls p, a :: s => if p a then [s] else []
  | seq r t, s => (r.rests s).flatMap t.rests
  | alt r t, s => r.rests s ++ t.rests s
  | group r, s => r.rests s
  | rep r min extra, s =>
    -- each further match takes a symbol, so what is left bounds them
    (times r.rests min s).flatMap fun t => upTo r.rests (extra.getD t.length) t

/-- The number of symbols that a match takes at least. -/
def minLength : Regex α → Nat
  | empty => 0
  | cls _ => 1
  | seq r t => r.minLength + t.minLength
  | alt r t => min r.minLength t.minLength
  | group r => r.minLength
  | rep r min _ => min * r.minLength

/-- The number of capture groups. -/
def markCount : Regex α → Nat
  | empty => 0
  | cls _ => 0
  | seq r t => r.markCount + t.markCount
  | alt r t => r.markCount + t.markCount
  | group r => r.markCount + 1
  | rep r _ _ => r.markCount

/-- The leftmost match: its position, and the rest behind it. -/
def search (r : Regex α) : List α → Option (Nat × List α)
  | [] => (r.rests []).head?.map fun t => (0, t)
  | a :: s =>
    match (r.rests (a :: s)).head? with
    | some t => some (0, t)
    | none => (r.search s).map fun (i, t) => (i + 1, t)

/-! ## Usual forms -/

def seqs : List (Regex α) → Regex α
  | [] => empty
  | r :: rs => seq r (seqs rs)

/-- The alternation of `r` and more, in this order. -/
def alts (r : Regex α) : List (Regex α) → Regex α
  | [] => r
  | t :: rs => alt r (alts t rs)

def opt (r : Regex α) : Regex α := rep r 0 (some 1)
def star (r : Regex α) : Regex α := rep r 0 none
def plus (r : Regex α) : Regex α := rep r 1 none
def exactly (n : Nat) (r : Regex α) : Regex α := rep r n (some 0)
def between (n k : Nat) (r : Regex α) : Regex α := rep r n (some (k - n))
def atLeast (n : Nat) (r : Regex α) : Regex α := rep r n none

/-! ## What a match takes -/

theorem times_spec {m : List α → List (List α)} {k : Nat}
    (hm : ∀ s, ∀ t ∈ m s, ∃ u, s = u ++ t ∧ k ≤ u.length) (n : Nat) {s t : List α}
    (h : t ∈ times m n s) : ∃ u, s = u ++ t ∧ n * k ≤ u.length := by
  induction n generalizing s with
  | zero =>
    rw [times, List.mem_singleton] at h
    exact ⟨[], by rw [h, List.nil_append], by simp⟩
  | succ n ih =>
    obtain ⟨s', hs', ht⟩ := List.mem_flatMap.mp h
    obtain ⟨u, rfl, hu⟩ := hm s s' hs'
    obtain ⟨v, rfl, hv⟩ := ih ht
    refine ⟨u ++ v, by rw [List.append_assoc], ?_⟩
    rw [List.length_append, Nat.succ_mul]
    omega

theorem upTo_spec {m : List α → List (List α)} (hm : ∀ s, ∀ t ∈ m s, ∃ u, s = u ++ t) (n : Nat)
    {s t : List α} (h : t ∈ upTo m n s) : ∃ u, s = u ++ t := by
  induction n generalizing s with
  | zero =>
    rw [upTo, List.mem_singleton] at h
    exact ⟨[], by rw [h, List.nil_append]⟩
  | succ n ih =>
    obtain h | h := List.mem_append.mp h
    · obtain ⟨s', hs', ht⟩ := List.mem_flatMap.mp h
      obtain ⟨u, rfl⟩ := hm s s' (List.mem_filter.mp hs').1
      obtain ⟨v, rfl⟩ := ih ht
      exact ⟨u ++ v, by rw [List.append_assoc]⟩
    · rw [List.mem_singleton.mp h]
      exact ⟨[], rfl⟩

/-- A match takes at least `minLength` symbols off the front. -/
theorem rests_spec (r : Regex α) {s t : List α} (h : t ∈ r.rests s) :
    ∃ u, s = u ++ t ∧ r.minLength ≤ u.length := by
  induction r generalizing s t with
  | empty =>
    rw [rests, List.mem_singleton] at h
    exact ⟨[], by rw [h, List.nil_append], Nat.le_refl 0⟩
  | cls p =>
    cases s with
    | nil => exact absurd h (by simp [rests])
    | cons a s =>
      rw [rests] at h
      split at h
      · rw [List.mem_singleton] at h
        exact ⟨[a], by rw [h]; rfl, Nat.le_refl 1⟩
      · exact absurd h (by simp)
  | seq r t ihr iht =>
    obtain ⟨s', hs', ht⟩ := List.mem_flatMap.mp h
    obtain ⟨u, rfl, hu⟩ := ihr hs'
    obtain ⟨v, rfl, hv⟩ := iht ht
    refine ⟨u ++ v, by rw [List.append_assoc], ?_⟩
    rw [List.length_append, minLength]
    omega
  | alt r t ihr iht =>
    obtain h | h := List.mem_append.mp h
    · obtain ⟨u, hs, hu⟩ := ihr h
      exact ⟨u, hs, (Nat.min_le_left _ _).trans hu⟩
    · obtain ⟨u, hs, hu⟩ := iht h
      exact ⟨u, hs, (Nat.min_le_right _ _).trans hu⟩
  | group r ih => exact ih h
  | rep r min extra ih =>
    obtain ⟨s', hs', ht⟩ := List.mem_flatMap.mp h
    obtain ⟨u, rfl, hu⟩ := times_spec (fun s t hmem => ih hmem) min hs'
    obtain ⟨v, rfl⟩ := upTo_spec (fun s t hmem => (ih hmem).imp fun u hu => hu.1) _ ht
    refine ⟨u ++ v, by rw [List.append_assoc], ?_⟩
    rw [List.length_append, minLength]
    omega

/-! ## What a search finds -/

theorem search_eq_none_iff {r : Regex α} {s : List α} :
    r.search s = none ↔ ∀ p ≤ s.length, r.rests (s.drop p) = [] := by
  induction s with
  | nil => simp [search]
  | cons a s ih =>
    rw [search]
    cases hfirst : (r.rests (a :: s)).head? with
    | some t =>
      refine iff_of_false (by simp) fun hnone => ?_
      have h0 := hnone 0 (Nat.zero_le _)
      rw [List.drop_zero] at h0
      simp [h0] at hfirst
    | none =>
      rw [Option.map_eq_none_iff, ih]
      constructor
      · intro h p hp
        cases p with
        | zero => exact List.head?_eq_none_iff.mp hfirst
        | succ p => exact h p (Nat.le_of_succ_le_succ hp)
      · intro h p hp
        exact h (p + 1) (Nat.succ_le_succ hp)

/-- The match that is found is the first one at its position, and there is none before. -/
theorem search_spec {r : Regex α} {s t : List α} {i : Nat} (h : r.search s = some (i, t)) :
    i ≤ s.length ∧ t ∈ r.rests (s.drop i) ∧ ∀ p < i, r.rests (s.drop p) = [] := by
  induction s generalizing i with
  | nil =>
    obtain ⟨t', ht', heq⟩ := Option.map_eq_some_iff.mp h
    cases heq
    exact ⟨Nat.le_refl 0, List.mem_of_head? ht', fun p hp => absurd hp (Nat.not_lt_zero p)⟩
  | cons a s ih =>
    rw [search] at h
    cases hfirst : (r.rests (a :: s)).head? with
    | some t' =>
      rw [hfirst] at h
      cases h
      exact ⟨Nat.zero_le _, List.mem_of_head? hfirst, fun p hp => absurd hp (Nat.not_lt_zero p)⟩
    | none =>
      rw [hfirst] at h
      obtain ⟨⟨i', t'⟩, hrest, heq⟩ := Option.map_eq_some_iff.mp h
      cases heq
      obtain ⟨hi, hmem, hbefore⟩ := ih hrest
      refine ⟨Nat.succ_le_succ hi, hmem, fun p hp => ?_⟩
      cases p with
      | zero => exact List.head?_eq_none_iff.mp hfirst
      | succ p => exact hbefore p (Nat.lt_of_succ_lt_succ hp)

/-- It is the first match at its position. -/
theorem search_first {r : Regex α} {s t : List α} {i : Nat} (h : r.search s = some (i, t)) :
    (r.rests (s.drop i)).head? = some t := by
  induction s generalizing i with
  | nil =>
    obtain ⟨t', ht', heq⟩ := Option.map_eq_some_iff.mp h
    cases heq
    exact ht'
  | cons a s ih =>
    rw [search] at h
    cases hfirst : (r.rests (a :: s)).head? with
    | some t' =>
      rw [hfirst] at h
      cases h
      exact hfirst
    | none =>
      rw [hfirst] at h
      obtain ⟨⟨i', t'⟩, hrest, heq⟩ := Option.map_eq_some_iff.mp h
      cases heq
      exact ih hrest

/-! ## Alternations -/

theorem alts_rests (r : Regex α) (rs : List (Regex α)) (s : List α) :
    (alts r rs).rests s = (r :: rs).flatMap fun t => t.rests s := by
  induction rs generalizing r with
  | nil => simp [alts]
  | cons t rs ih =>
    rw [alts, rests, ih]
    rfl

theorem alts_minLength_pos {r : Regex α} {rs : List (Regex α)}
    (h : ∀ t ∈ r :: rs, 0 < t.minLength) : 0 < (alts r rs).minLength := by
  induction rs generalizing r with
  | nil => exact h r List.mem_cons_self
  | cons t rs ih =>
    rw [alts, minLength, Nat.lt_min]
    exact ⟨h r List.mem_cons_self, ih fun u hu => h u (List.mem_cons_of_mem _ hu)⟩

theorem markCount_le_alts (r : Regex α) (rs : List (Regex α)) :
    r.markCount ≤ (alts r rs).markCount := by
  cases rs with
  | nil => exact Nat.le_refl _
  | cons t rs => exact Nat.le_add_right _ _

/-! ## Classes -/

/-- `C` holds of every class. -/
def Classes (C : (α → Bool) → Prop) : Regex α → Prop
  | empty => True
  | cls p => C p
  | seq r t => r.Classes C ∧ t.Classes C
  | alt r t => r.Classes C ∧ t.Classes C
  | group r => r.Classes C
  | rep r _ _ => r.Classes C

instance decidableClasses (C : (α → Bool) → Prop) [DecidablePred C] :
    (r : Regex α) → Decidable (r.Classes C)
  | empty => .isTrue trivial
  | cls p => inferInstanceAs (Decidable (C p))
  | seq r t =>
    have := decidableClasses C r
    have := decidableClasses C t
    inferInstanceAs (Decidable (r.Classes C ∧ t.Classes C))
  | alt r t =>
    have := decidableClasses C r
    have := decidableClasses C t
    inferInstanceAs (Decidable (r.Classes C ∧ t.Classes C))
  | group r => decidableClasses C r
  | rep r _ _ => decidableClasses C r

theorem Classes.mono {C D : (α → Bool) → Prop} (hCD : ∀ p, C p → D p) {r : Regex α}
    (h : r.Classes C) : r.Classes D := by
  induction r with
  | empty => trivial
  | cls p => exact hCD p h
  | seq r t ihr iht => exact ⟨ihr h.1, iht h.2⟩
  | alt r t ihr iht => exact ⟨ihr h.1, iht h.2⟩
  | group r ih => exact ih h
  | rep r min extra ih => exact ih h

section

variable {Q : List α → List α → Prop}

theorem times_rel (hrefl : ∀ s, Q s s) (htrans : ∀ s t u, Q s t → Q t u → Q s u)
    {m : List α → List (List α)} (hm : ∀ s, ∀ t ∈ m s, Q s t) (n : Nat) {s t : List α}
    (h : t ∈ times m n s) : Q s t := by
  induction n generalizing s with
  | zero =>
    rw [times, List.mem_singleton] at h
    rw [h]
    exact hrefl s
  | succ n ih =>
    obtain ⟨s', hs', ht⟩ := List.mem_flatMap.mp h
    exact htrans s s' t (hm s s' hs') (ih ht)

theorem upTo_rel (hrefl : ∀ s, Q s s) (htrans : ∀ s t u, Q s t → Q t u → Q s u)
    {m : List α → List (List α)} (hm : ∀ s, ∀ t ∈ m s, Q s t) (n : Nat) {s t : List α}
    (h : t ∈ upTo m n s) : Q s t := by
  induction n generalizing s with
  | zero =>
    rw [upTo, List.mem_singleton] at h
    rw [h]
    exact hrefl s
  | succ n ih =>
    obtain h | h := List.mem_append.mp h
    · obtain ⟨s', hs', ht⟩ := List.mem_flatMap.mp h
      exact htrans s s' t (hm s s' (List.mem_filter.mp hs').1) (ih ht)
    · rw [List.mem_singleton.mp h]
      exact hrefl s

/-- What a step over a symbol of a class does, in any number, a match does. -/
theorem Classes.rests {C : (α → Bool) → Prop} (hrefl : ∀ s, Q s s)
    (htrans : ∀ s t u, Q s t → Q t u → Q s u)
    (hcls : ∀ p, C p → ∀ a s, p a = true → Q (a :: s) s) {r : Regex α} (h : r.Classes C)
    {s t : List α} (ht : t ∈ r.rests s) : Q s t := by
  induction r generalizing s t with
  | empty =>
    rw [Regex.rests, List.mem_singleton] at ht
    rw [ht]
    exact hrefl s
  | cls p =>
    cases s with
    | nil => exact absurd ht (by simp [Regex.rests])
    | cons a s =>
      rw [Regex.rests] at ht
      split at ht
      · rename_i hp
        rw [List.mem_singleton.mp ht]
        exact hcls p h a s hp
      · exact absurd ht (by simp)
  | seq r r' ihr ihr' =>
    obtain ⟨s', hs', ht⟩ := List.mem_flatMap.mp ht
    exact htrans s s' t (ihr h.1 hs') (ihr' h.2 ht)
  | alt r r' ihr ihr' =>
    obtain ht | ht := List.mem_append.mp ht
    · exact ihr h.1 ht
    · exact ihr' h.2 ht
  | group r ih => exact ih h ht
  | rep r min extra ih =>
    obtain ⟨s', hs', ht⟩ := List.mem_flatMap.mp ht
    exact htrans s s' t (times_rel hrefl htrans (fun s t hmem => ih h hmem) min hs')
      (upTo_rel hrefl htrans (fun s t hmem => ih h hmem) _ ht)

end

/-- Every class takes only symbols of `P`. -/
def TakesOnly (P : α → Prop) (r : Regex α) : Prop := r.Classes fun p => ∀ a, p a = true → P a

instance (P : α → Prop) [DecidablePred fun p : α → Bool => ∀ a, p a = true → P a] (r : Regex α) :
    Decidable (r.TakesOnly P) :=
  decidableClasses _ r

theorem TakesOnly.rests {P : α → Prop} {r : Regex α} (h : r.TakesOnly P) {s t : List α}
    (ht : t ∈ r.rests s) : ∃ u, s = u ++ t ∧ r.minLength ≤ u.length ∧ ∀ a ∈ u, P a := by
  obtain ⟨u, hu, hlen⟩ := r.rests_spec ht
  have hrel := Classes.rests (Q := fun s t => ∃ u, s = u ++ t ∧ ∀ a ∈ u, P a)
    (fun s => ⟨[], rfl, by simp⟩)
    (fun s t w ⟨u, hu, hP⟩ ⟨v, hv, hP'⟩ => ⟨u ++ v, by rw [hu, hv, List.append_assoc],
      fun a ha => (List.mem_append.mp ha).elim (hP a) (hP' a)⟩)
    (fun p hp a s hpa => ⟨[a], rfl, fun b hb => by rw [List.mem_singleton.mp hb]; exact hp a hpa⟩)
    h ht
  obtain ⟨v, hv, hP⟩ := hrel
  obtain rfl : v = u := List.append_cancel_right (hv.symm.trans hu)
  exact ⟨v, hu, hlen, hP⟩

/-! ## Lists that agree -/

/-- The lists have one length and agree where the first has a symbol of `P`. -/
def Agree (P : α → Prop) : List α → List α → Prop := List.Forall₂ fun a b => P a → a = b

section

variable {P : α → Prop}

theorem times_agree {m : List α → List (List α)}
    (hm : ∀ s s' t, Agree P s s' → t ∈ m s → ∃ t' ∈ m s', Agree P t t') (n : Nat)
    {s s' t : List α} (hs : Agree P s s') (h : t ∈ times m n s) :
    ∃ t' ∈ times m n s', Agree P t t' := by
  induction n generalizing s s' with
  | zero =>
    rw [times, List.mem_singleton] at h
    exact ⟨s', List.mem_singleton_self s', h ▸ hs⟩
  | succ n ih =>
    obtain ⟨u, hu, ht⟩ := List.mem_flatMap.mp h
    obtain ⟨u', hu', hagree⟩ := hm s s' u hs hu
    obtain ⟨t', ht', hagree'⟩ := ih hagree ht
    exact ⟨t', List.mem_flatMap.mpr ⟨u', hu', ht'⟩, hagree'⟩

theorem upTo_agree {m : List α → List (List α)}
    (hm : ∀ s s' t, Agree P s s' → t ∈ m s → ∃ t' ∈ m s', Agree P t t') (n : Nat)
    {s s' t : List α} (hs : Agree P s s') (h : t ∈ upTo m n s) :
    ∃ t' ∈ upTo m n s', Agree P t t' := by
  induction n generalizing s s' with
  | zero =>
    rw [upTo, List.mem_singleton] at h
    exact ⟨s', List.mem_singleton_self s', h ▸ hs⟩
  | succ n ih =>
    obtain h | h := List.mem_append.mp h
    · obtain ⟨u, hu, ht⟩ := List.mem_flatMap.mp h
      obtain ⟨hu, hlt⟩ := List.mem_filter.mp hu
      obtain ⟨u', hu', hagree⟩ := hm s s' u hs hu
      obtain ⟨t', ht', hagree'⟩ := ih hagree ht
      rw [hagree.length_eq, hs.length_eq] at hlt
      exact ⟨t', List.mem_append_left _
        (List.mem_flatMap.mpr ⟨u', List.mem_filter.mpr ⟨hu', hlt⟩, ht'⟩), hagree'⟩
    · rw [List.mem_singleton.mp h]
      exact ⟨s', List.mem_append_right _ (List.mem_singleton_self s'), hs⟩

/-- A match that takes only symbols of `P` is one of every list that agrees on them. -/
theorem TakesOnly.rests_agree {r : Regex α} (h : r.TakesOnly P) {s s' t : List α}
    (hs : Agree P s s') (ht : t ∈ r.rests s) : ∃ t' ∈ r.rests s', Agree P t t' := by
  induction r generalizing s s' t with
  | empty =>
    rw [Regex.rests, List.mem_singleton] at ht
    exact ⟨s', List.mem_singleton_self s', ht ▸ hs⟩
  | cls p =>
    cases hs with
    | nil => exact absurd ht (by simp [Regex.rests])
    | @cons a b s s' hab hs =>
      rw [Regex.rests] at ht
      split at ht
      · rename_i hp
        obtain rfl := hab (h a hp)
        rw [List.mem_singleton.mp ht, Regex.rests, if_pos hp]
        exact ⟨s', List.mem_singleton_self s', hs⟩
      · exact absurd ht (by simp)
  | seq r r' ihr ihr' =>
    obtain ⟨u, hu, ht⟩ := List.mem_flatMap.mp ht
    obtain ⟨u', hu', hagree⟩ := ihr h.1 hs hu
    obtain ⟨t', ht', hagree'⟩ := ihr' h.2 hagree ht
    exact ⟨t', List.mem_flatMap.mpr ⟨u', hu', ht'⟩, hagree'⟩
  | alt r r' ihr ihr' =>
    obtain ht | ht := List.mem_append.mp ht
    · obtain ⟨t', ht', hagree⟩ := ihr h.1 hs ht
      exact ⟨t', List.mem_append_left _ ht', hagree⟩
    · obtain ⟨t', ht', hagree⟩ := ihr' h.2 hs ht
      exact ⟨t', List.mem_append_right _ ht', hagree⟩
  | group r ih => exact ih h hs ht
  | rep r min extra ih =>
    obtain ⟨u, hu, ht⟩ := List.mem_flatMap.mp ht
    obtain ⟨u', hu', hagree⟩ := times_agree (fun s s' t hs ht => ih h hs ht) min hs hu
    obtain ⟨t', ht', hagree'⟩ := upTo_agree (fun s s' t hs ht => ih h hs ht) _ hagree ht
    rw [hagree.length_eq] at ht'
    exact ⟨t', List.mem_flatMap.mpr ⟨u', hu', ht'⟩, hagree'⟩

end

/-! ## Whether there is a match -/

/-- Without what may match nothing at the end. -/
def front : Regex α → Regex α
  | empty => empty
  | cls p => cls p
  | seq r t =>
    match t.front with
    | empty => r.front
    | t' => seq r t'
  | alt r t => alt r.front t.front
  | group r => group r.front
  | rep _ 0 _ => empty
  | rep r (min + 1) extra => rep r (min + 1) extra

theorem upTo_ne_nil (m : List α → List (List α)) (n : Nat) (s : List α) : upTo m n s ≠ [] := by
  cases n with
  | zero => simp [upTo]
  | succ n => simp [upTo]

theorem rests_front_eq_nil_iff (r : Regex α) (s : List α) :
    r.front.rests s = [] ↔ r.rests s = [] := by
  induction r generalizing s with
  | empty => rfl
  | cls p => rfl
  | seq r t ihr iht =>
    have hseq : (seq r t).rests s = [] ↔ ∀ u ∈ r.rests s, t.front.rests u = [] := by
      rw [rests, List.flatMap_eq_nil_iff]
      exact forall₂_congr fun u _ => (iht u).symm
    rw [hseq, front]
    cases hfront : t.front with
    | empty =>
      -- nothing is left to match behind `r`
      simp only [rests, List.cons_ne_nil, imp_false, ihr]
      exact List.eq_nil_iff_forall_not_mem
    | _ => exact List.flatMap_eq_nil_iff
  | alt r t ihr iht => rw [front, rests, rests, List.append_eq_nil_iff, List.append_eq_nil_iff,
      ihr, iht]
  | group r ih => exact ih s
  | rep r min extra =>
    cases min with
    | zero =>
      refine iff_of_false (List.cons_ne_nil _ _) fun hnil => ?_
      rw [rests, times, List.flatMap_singleton] at hnil
      exact upTo_ne_nil _ _ s hnil
    | succ min => rfl

/-! ## The first match -/

/-- From a list of `P` the first match leaves a list of `P`. -/
def KeepsFirst (P : List α → Prop) (r : Regex α) : Prop :=
  ∀ s t, P s → (r.rests s).head? = some t → P t

section

variable {P : List α → Prop} {r : Regex α}

/-- All matches do if the steps over a symbol do. -/
theorem Classes.keeps (h : Classes (fun p => ∀ a s, p a = true → P (a :: s) → P s) r)
    {s t : List α} (hs : P s) (ht : t ∈ r.rests s) : P t :=
  Classes.rests (Q := fun s t => P s → P t) (fun _ hs => hs) (fun _ _ _ h h' hs => h' (h hs))
    (fun _ hp a s hpa => hp a s hpa) h ht hs

theorem KeepsFirst.of_classes
    (h : Classes (fun p => ∀ a s, p a = true → P (a :: s) → P s) r) : r.KeepsFirst P :=
  fun _ _ hs ht => h.keeps hs (List.mem_of_head? ht)

theorem KeepsFirst.seq (hr : Classes (fun p => ∀ a s, p a = true → P (a :: s) → P s) r)
    {t : Regex α} (ht : t.KeepsFirst P) : (seq r t).KeepsFirst P := by
  intro s s' hs hfirst
  rw [rests, List.head?_flatMap] at hfirst
  obtain ⟨u, hu, hfirst⟩ := List.exists_of_findSome?_eq_some hfirst
  exact ht u s' (hr.keeps hs hu) hfirst

/-- Of a sequence only the last part need look at the first match. -/
theorem KeepsFirst.seqs (rs : List (Regex α))
    (hrs : ∀ r ∈ rs, Classes (fun p => ∀ a s, p a = true → P (a :: s) → P s) r) {t : Regex α}
    (ht : t.KeepsFirst P) : (seqs (rs ++ [t])).KeepsFirst P := by
  induction rs with
  | nil =>
    intro s s' hs hfirst
    refine ht s s' hs ?_
    rwa [List.nil_append, Regex.seqs, Regex.seqs, rests,
      show Regex.rests empty = fun u : List α => [u] from rfl, List.flatMap_singleton'] at hfirst
  | cons r rs ih =>
    rw [List.cons_append, Regex.seqs]
    exact (ih fun t ht => hrs t (List.mem_cons_of_mem _ ht)).seq (hrs r List.mem_cons_self)

theorem KeepsFirst.alts {rs : List (Regex α)}
    (h : ∀ t ∈ r :: rs, t.KeepsFirst P) : (alts r rs).KeepsFirst P := by
  intro s s' hs hfirst
  rw [alts_rests, List.head?_flatMap] at hfirst
  obtain ⟨t, ht, hfirst⟩ := List.exists_of_findSome?_eq_some hfirst
  exact h t ht s s' hs hfirst

theorem KeepsFirst.opt (hmin : 0 < r.minLength) (h : r.KeepsFirst P) :
    (opt r).KeepsFirst P := by
  intro s t hs hfirst
  have htakes : (r.rests s).filter (fun t => t.length < s.length) = r.rests s := by
    refine List.filter_eq_self.mpr fun t ht => decide_eq_true ?_
    obtain ⟨u, rfl, hu⟩ := r.rests_spec ht
    rw [List.length_append]
    omega
  rw [Regex.opt, rests, times, List.flatMap_singleton, Option.getD_some, upTo, htakes,
    show upTo r.rests 0 = fun u : List α => [u] from rfl, List.flatMap_singleton',
    List.head?_append] at hfirst
  cases hr : (r.rests s).head? with
  | none =>
    rw [hr] at hfirst
    cases hfirst
    exact hs
  | some u =>
    rw [hr] at hfirst
    cases hfirst
    exact h s _ hs hr

end

/-- The longest run of a class comes first. -/
theorem star_cls_head? (p : α → Bool) (s : List α) :
    ((star (cls p)).rests s).head? = some (s.dropWhile p) := by
  have key : ∀ n (s : List α), s.length ≤ n →
      (upTo (cls p).rests n s).head? = some (s.dropWhile p) := by
    intro n
    induction n with
    | zero =>
      intro s hs
      rw [List.length_eq_zero_iff.mp (Nat.le_zero.mp hs)]
      rfl
    | succ n ih =>
      intro s hs
      cases s with
      | nil => rfl
      | cons a s =>
        by_cases hp : p a = true
        · have hlast := ih s (Nat.le_of_succ_le_succ hs)
          simp [upTo, rests, hp, hlast]
        · simp [upTo, rests, hp]
  rw [star, rests, times, List.flatMap_singleton]
  exact key s.length s (Nat.le_refl _)

theorem KeepsFirst.star_cls {P : List α → Prop} {p : α → Bool}
    (h : ∀ s, P s → P (s.dropWhile p)) : (star (cls p)).KeepsFirst P := by
  intro s t hs hfirst
  rw [star_cls_head?] at hfirst
  cases hfirst
  exact h s hs

end Regex

end CdsGuard.Lib
