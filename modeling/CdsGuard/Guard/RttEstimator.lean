import CdsGuard.Lib.Settling

/-
  The retransmission timeout of `GuardL2Sender`: `update_rtt` smooths the round-trip times that it
  samples and takes the timeout from them, in whole microseconds.

  Proved: the estimator forgets. Whatever it has sampled before, once all samples lie between `a`
  and `b` the timeout settles between what `a` and `b` ask for, up to the rounding
  (`rto_settles`), and it never leaves its limits (`getRto_in_limits`).
-/

namespace CdsGuard.Guard

open CdsGuard.Lib Filter

/-- `srtt_`, `rttvar_` and `rto_`, in microseconds. The times that a sample can take stay far
    below what 64 bits hold. -/
structure RttEstimate where
  srtt : Nat
  rttvar : Nat
  rto : Nat

def rtoMin : Nat := 200000
def rtoMax : Nat := 3000000

/-- `std::clamp(new_rto, RTO_MIN, RTO_MAX)`. -/
def clampRto (newRto : Nat) : Nat := max rtoMin (min newRto rtoMax)

namespace RttEstimate

/-- The members of a new `GuardL2Sender`. -/
def initial : RttEstimate := ⟨0, 0, 200000⟩

/-- `update_rtt`; the sample is a duration of the steady clock, in nanoseconds. -/
def updateRtt (r : RttEstimate) (sampleRtt : Nat) : RttEstimate :=
  let samp := sampleRtt / 1000
  let rttvar := if r.srtt = 0 then samp / 2
    else (3 * r.rttvar + ((r.srtt : Int) - samp).natAbs) / 4
  let srtt := if r.srtt = 0 then samp else (7 * r.srtt + samp) / 8
  ⟨srtt, rttvar, clampRto (srtt + rttvar * 4)⟩

/-- `get_rto`, in milliseconds. -/
def getRto (r : RttEstimate) : Nat := r.rto / 1000

/-- The estimate before the `n`-th sample. -/
def after (r : RttEstimate) (samples : Nat → Nat) : Nat → RttEstimate
  | 0 => r
  | n + 1 => (r.after samples n).updateRtt (samples n)

/-! ## One sample -/

/-- The sample lies between `a` and `b` microseconds. -/
def Within (a b sampleRtt : Nat) : Prop := a ≤ sampleRtt / 1000 ∧ sampleRtt / 1000 ≤ b

variable {r : RttEstimate} {a b sampleRtt : Nat}

theorem srtt_lowered (h : Within a b sampleRtt) :
    (r.updateRtt sampleRtt).srtt ≤ max b (r.srtt - 1) := by
  obtain ⟨-, hb⟩ := h
  simp only [updateRtt]
  split <;> omega

/-- The division rounds down: a rise ends up to 7 microseconds below the sample. -/
theorem srtt_raised (h : Within a b sampleRtt) :
    min (a - 7) (r.srtt + 1) ≤ (r.updateRtt sampleRtt).srtt := by
  obtain ⟨ha, -⟩ := h
  simp only [updateRtt]
  split <;> omega

theorem rttvar_lowered (h : Within a b sampleRtt) (hlow : a - 7 ≤ r.srtt) (hhigh : r.srtt ≤ b) :
    (r.updateRtt sampleRtt).rttvar ≤ max (b - a + 7) (r.rttvar - 1) := by
  obtain ⟨ha, hb⟩ := h
  simp only [updateRtt]
  split <;> omega

theorem rto_updateRtt (r : RttEstimate) (sampleRtt : Nat) :
    (r.updateRtt sampleRtt).rto =
      clampRto ((r.updateRtt sampleRtt).srtt + (r.updateRtt sampleRtt).rttvar * 4) := rfl

theorem clampRto_mono {m n : Nat} (h : m ≤ n) : clampRto m ≤ clampRto n := by
  simp only [clampRto]
  omega

/-! ## All samples -/

variable {samples : Nat → Nat}

theorem srtt_settles (h : ∀ᶠ n in atTop, Within a b (samples n)) (r : RttEstimate) :
    ∀ᶠ n in atTop, a - 7 ≤ (r.after samples n).srtt ∧ (r.after samples n).srtt ≤ b := by
  have hlow : ∀ᶠ n in atTop, a - 7 ≤ (r.after samples n).srtt :=
    eventually_ge_of_raised (h.mono fun n hn => srtt_raised hn)
  have hhigh : ∀ᶠ n in atTop, (r.after samples n).srtt ≤ b :=
    eventually_le_of_lowered (h.mono fun n hn => srtt_lowered hn)
  exact hlow.and hhigh

theorem rttvar_settles (h : ∀ᶠ n in atTop, Within a b (samples n)) (r : RttEstimate) :
    ∀ᶠ n in atTop, (r.after samples n).rttvar ≤ b - a + 7 := by
  refine eventually_le_of_lowered ?_
  filter_upwards [h, srtt_settles h r] with n hn hsrtt
  exact rttvar_lowered hn hsrtt.1 hsrtt.2

/-- Once the samples lie between `a` and `b`, the timeout comes to lie between what these ask for,
    whatever was sampled before. -/
theorem rto_settles (h : ∀ᶠ n in atTop, Within a b (samples n)) (r : RttEstimate) :
    ∀ᶠ n in atTop, clampRto (a - 7) ≤ (r.after samples n).rto ∧
      (r.after samples n).rto ≤ clampRto (b + (b - a + 7) * 4) := by
  have hnext : ∀ᶠ n in atTop, clampRto (a - 7) ≤ (r.after samples (n + 1)).rto ∧
      (r.after samples (n + 1)).rto ≤ clampRto (b + (b - a + 7) * 4) := by
    filter_upwards [(tendsto_add_atTop_nat 1).eventually (srtt_settles h r),
      (tendsto_add_atTop_nat 1).eventually (rttvar_settles h r)] with n hsrtt hrttvar
    rw [show (r.after samples (n + 1)).rto = clampRto ((r.after samples (n + 1)).srtt +
      (r.after samples (n + 1)).rttvar * 4) from rto_updateRtt _ _]
    exact ⟨clampRto_mono (by omega), clampRto_mono (by omega)⟩
  obtain ⟨N, hN⟩ := eventually_atTop.mp hnext
  refine eventually_atTop.mpr ⟨N + 1, fun n hn => ?_⟩
  obtain ⟨m, rfl⟩ : ∃ m, n = m + 1 := ⟨n - 1, by omega⟩
  exact hN m (by omega)

/-- A path that takes 300 milliseconds, after three samples of 5 seconds. -/
theorem rto_settles_slow_start :
    ∀ᶠ n in atTop, clampRto 299993 ≤
        (initial.after (fun n => if n < 3 then 5000000000 else 300000000) n).rto ∧
      (initial.after (fun n => if n < 3 then 5000000000 else 300000000) n).rto ≤
        clampRto 300028 := by
  refine rto_settles (a := 300000) (b := 300000) (eventually_atTop.mpr ⟨3, fun n hn => ?_⟩) initial
  rw [if_neg (by omega)]
  exact ⟨by decide, by decide⟩

/-- `get_rto` stays within its limits from the start on. -/
theorem getRto_in_limits (samples : Nat → Nat) (n : Nat) :
    200 ≤ (initial.after samples n).getRto ∧ (initial.after samples n).getRto ≤ 3000 := by
  have hrto : rtoMin ≤ (initial.after samples n).rto ∧ (initial.after samples n).rto ≤ rtoMax := by
    cases n with
    | zero => exact ⟨le_rfl, (by decide : 200000 ≤ rtoMax)⟩
    | succ n =>
      rw [show (initial.after samples (n + 1)).rto = clampRto _ from rto_updateRtt _ _, clampRto]
      exact ⟨le_max_left _ _, max_le (by decide) (min_le_right _ _)⟩
  simp only [getRto, rtoMin, rtoMax] at *
  omega

end RttEstimate

end CdsGuard.Guard
