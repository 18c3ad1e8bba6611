import CdsGuard.Lib.Cache
import CdsGuard.Lib.RwLock

/-
  The endpoint of the guard, which every `DispatchFilteredPayloadTcp` asks for: it is kept in
  `g_guard_endpoint` under `g_guard_mutex`, searched for when it is not there
  (`GetCurrentGuardEndpoint`, with the double check) and dropped when a connection to it fails
  (`InvalidateGuardEndpoint`). Any number of threads dispatch at once; one step is one thread's
  test, read, write, search or wait for the lock.

  Proved: the threads together do to the endpoint what a cache with one event for each use does,
  and none reads it while it is empty (`run_is_cache`); the guard is looked for at most once more
  than connections have failed (`searches_le_failures`); a thread whose connection failed does not
  try that endpoint again unless a search has found it anew (`retried_is_found_again`); and every
  dispatch can come to its connection, whatever the others are doing (`dispatch_can_connect`).
-/

namespace CdsGuard.Gateway

open CdsGuard.Lib

/-! ## The threads -/

/-- Where a thread is in `DispatchFilteredPayloadTcp`. -/
inductive DispatchPc (E : Type) where
  /-- There is no payload to dispatch. -/
  | idle
  /-- At the `shared_lock` of `GetCurrentGuardEndpoint`. -/
  | entered
  | testingShared
  | returningShared
  /-- There was no endpoint: at the `unique_lock`. -/
  | missed
  | testingUnique
  /-- In the loop around `CdsGatewayDiscorverGuard`. -/
  | searching
  | returningUnique
  | connecting (guardEndpoint : E)
  /-- At the `unique_lock` of `InvalidateGuardEndpoint`. -/
  | failed (failedEndpoint : E)
  | invalidating (failedEndpoint : E)
  | connected (guardEndpoint : E)
  /-- After `*g_guard_endpoint` of an empty `std::optional`. -/
  | undefined
  deriving DecidableEq

namespace DispatchPc

variable {E : Type}

/-- What the thread holds of `g_guard_mutex`. -/
def mode : DispatchPc E → Mode
  | testingShared | returningShared => .shared
  | testingUnique | searching | returningUnique | invalidating _ => .unique
  | _ => .none

/-- The test has found a value, and `*g_guard_endpoint` is next. -/
def Returning (p : DispatchPc E) : Prop := p = returningShared ∨ p = returningUnique

theorem Returning.mode_ne {p : DispatchPc E} (h : p.Returning) : p.mode ≠ .none := by
  rcases h with rfl | rfl <;> exact nofun

def isSearching : DispatchPc E → Bool
  | searching => true
  | _ => false

theorem eq_searching {p : DispatchPc E} (h : p.isSearching = true) : p = searching := by
  cases p <;> first | rfl | cases h

/-- A connection has failed and its endpoint is not invalidated yet. -/
def owes : DispatchPc E → Bool
  | failed _ | invalidating _ => true
  | _ => false

/-- The thread is not about to get `e`: it has still to invalidate it, or `e` is neither the
    endpoint `g` that is kept nor in its hands. -/
def Avoids (e : E) (g : Option E) (p : DispatchPc E) : Prop :=
  p = failed e ∨ p = invalidating e ∨ (g ≠ some e ∧ p ≠ connecting e)

end DispatchPc

structure Dispatchers (T E : Type) where
  gGuardEndpoint : Option E
  gGuardMutex : RwLock T
  pc : T → DispatchPc E

inductive DispatchEvent (T E : Type) where
  | dispatch (t : T)
  | lockShared (t : T)
  | testShared (t : T) (hasValue : Bool)
  | lockUnique (t : T)
  | testUnique (t : T) (hasValue : Bool)
  /-- A call of `CdsGatewayDiscorverGuard` and what it found. -/
  | discover (t : T) (discoveredEndpoint : Option E)
  /-- `return *g_guard_endpoint`, with what is read. -/
  | give (t : T) (value : Option E)
  | connect (t : T) (guardEndpoint : E) (ok : Bool)
  | lockInvalidate (t : T)
  | invalidate (t : T) (failedEndpoint : E)
  /-- The payload is written, or an exception ends the dispatch. -/
  | leave (t : T)

/-- The use of the cache that an event is. -/
def DispatchEvent.atomic {T E : Type} : DispatchEvent T E → Option (CacheEvent T E)
  | .give t (some e) => some (.hit t e)
  | .discover t (some e) => some (.store t e)
  | .invalidate t e => some (.drop t e)
  | _ => none

namespace DispatchEvent

variable {T E : Type}

/-- `GetCurrentGuardEndpoint` finds no endpoint and starts to look for the guard. -/
def searches : DispatchEvent T E → Bool
  | testUnique _ false => true
  | _ => false

def finds : DispatchEvent T E → Bool
  | discover _ (some _) => true
  | _ => false

def fails : DispatchEvent T E → Bool
  | connect _ _ false => true
  | _ => false

def invalidates : DispatchEvent T E → Bool
  | invalidate _ _ => true
  | _ => false

theorem isStore_atomic (e : DispatchEvent T E) :
    (e.atomic.map CacheEvent.isStore).getD false = e.finds := by
  rcases e with _ | _ | _ | _ | _ | ⟨_, _ | _⟩ | ⟨_, _ | _⟩ | _ | _ | _ | _ <;> rfl

theorem isDrop_atomic (e : DispatchEvent T E) :
    (e.atomic.map CacheEvent.isDrop).getD false = e.invalidates := by
  rcases e with _ | _ | _ | _ | _ | ⟨_, _ | _⟩ | ⟨_, _ | _⟩ | _ | _ | _ | _ <;> rfl

end DispatchEvent

/-- What one thread does in one event: from where to where it goes, and the endpoint before and
    after. -/
inductive DispatchEvent.Moves {T E : Type} [DecidableEq E] (t : T) :
    DispatchEvent T E → Option E → DispatchPc E → DispatchPc E → Option E → Prop
  | dispatch (g) : Moves t (.dispatch t) g .idle .entered g
  | lockShared (g) : Moves t (.lockShared t) g .entered .testingShared g
  | hitShared (g) (h : g ≠ none) :
    Moves t (.testShared t true) g .testingShared .returningShared g
  | missShared : Moves t (.testShared t false) none .testingShared .missed none
  | lockUnique (g) : Moves t (.lockUnique t) g .missed .testingUnique g
  | hitUnique (g) (h : g ≠ none) :
    Moves t (.testUnique t true) g .testingUnique .returningUnique g
  | missUnique : Moves t (.testUnique t false) none .testingUnique .searching none
  | timeout (g) : Moves t (.discover t none) g .searching .searching g
  | found (g) (e) : Moves t (.discover t (some e)) g .searching .returningUnique (some e)
  | give (p) (e) (h : p.Returning) :
    Moves t (.give t (some e)) (some e) p (.connecting e) (some e)
  | giveEmpty (p) (h : p.Returning) : Moves t (.give t none) none p .undefined none
  | connect (g) (e) : Moves t (.connect t e true) g (.connecting e) (.connected e) g
  | fail (g) (e) : Moves t (.connect t e false) g (.connecting e) (.failed e) g
  | lockInvalidate (g) (e) : Moves t (.lockInvalidate t) g (.failed e) (.invalidating e) g
  | invalidate (g) (e) :
    Moves t (.invalidate t e) g (.invalidating e) .entered (if g = some e then none else g)
  | giveUp (g) (e) : Moves t (.leave t) g (.connecting e) .idle g
  | finish (g) (e) : Moves t (.leave t) g (.connected e) .idle g

namespace DispatchEvent.Moves

variable {T E : Type} [DecidableEq E] {t : T} {ev : DispatchEvent T E} {g g' : Option E}
  {p p' : DispatchPc E}

/-- Only a thread that holds the lock alone changes the endpoint. -/
theorem writes (h : Moves t ev g p p' g') : g' = g ∨ p.mode = .unique := by
  cases h with
  | found | invalidate => exact .inr rfl
  | _ => exact .inl rfl

theorem full (h : Moves t ev g p p' g') (hp : p'.Returning) : g' ≠ none := by
  cases h with
  | hitShared _ h => exact h
  | hitUnique _ h => exact h
  | found => exact nofun
  | _ => rcases hp with hp | hp <;> cases hp

theorem empty (h : Moves t ev g p p' g') (hg : p = .searching → g = none) (hp : p' = .searching) :
    g' = none := by
  cases h with
  | missUnique => rfl
  | timeout => exact hg rfl
  | _ => cases hp

theorem defined (h : Moves t ev g p p' g') (hg : p.Returning → g ≠ none) : p' ≠ .undefined := by
  cases h with
  | giveEmpty p hp => exact absurd rfl (hg hp)
  | _ => exact nofun

/-- A move is one use of the cache, or leaves it as it is. -/
theorem atomic (h : Moves t ev g p p' g') (hg : p = .searching → g = none) :
    run CacheEvent.step g ev.atomic.toList = some g' := by
  cases h with
  | found g e =>
    rw [hg rfl]
    exact run_singleton none (CacheEvent.store t e)
  | give p e hp => exact (run_singleton (some e) (CacheEvent.hit t e)).trans (if_pos rfl)
  | invalidate g e => exact run_singleton g (CacheEvent.drop t e)
  | _ => rfl

/-- A thread starts to search in one kind of event and ends in another. -/
theorem searching_iff (h : Moves t ev g p p' g') :
    p.isSearching.toNat + ev.searches.toNat = p'.isSearching.toNat + ev.finds.toNat := by
  cases h with
  | give p e hp | giveEmpty p hp => rcases hp with rfl | rfl <;> rfl
  | _ => rfl

/-- So does the time between a failed connection and the invalidation. -/
theorem owes_iff (h : Moves t ev g p p' g') :
    p.owes.toNat + ev.fails.toNat = p'.owes.toNat + ev.invalidates.toNat := by
  cases h with
  | give p e hp | giveEmpty p hp => rcases hp with rfl | rfl <;> rfl
  | _ => rfl

/-- A connection is tried to the endpoint that is kept. -/
theorem gets {e : E} (h : Moves t ev g p p' g') (hp : p' = .connecting e) : g = some e := by
  cases h <;> cases hp
  rfl

/-- Only a search puts an endpoint there. -/
theorem stays_out {e : E} (h : Moves t ev g p p' g') (hnot : ∀ u, ev ≠ .discover u (some e))
    (hg : g ≠ some e) : g' ≠ some e := by
  cases h with
  | found g d =>
    rintro ⟨⟩
    exact hnot t rfl
  | invalidate g d =>
    split
    · exact nofun
    · exact hg
  | _ => exact hg

/-- An endpoint that failed for the thread is kept out of its hands. -/
theorem avoids {e : E} (h : Moves t ev g p p' g') (hnot : ∀ u, ev ≠ .discover u (some e))
    (hp : p.Avoids e g) : p'.Avoids e g' := by
  rcases hp with rfl | rfl | ⟨hg, hp⟩
  · cases h with
    | lockInvalidate => exact .inr (.inl rfl)
    | give _ _ h | giveEmpty _ h => rcases h with h | h <;> cases h
  · cases h with
    | invalidate =>
      refine .inr (.inr ⟨?_, nofun⟩)
      split
      · exact nofun
      · next hg => exact hg
    | give _ _ h | giveEmpty _ h => rcases h with h | h <;> cases h
  · exact .inr (.inr ⟨h.stays_out hnot hg, fun hp' => hg (h.gets hp')⟩)

end DispatchEvent.Moves

namespace Dispatchers

variable {T E : Type} [DecidableEq T] [DecidableEq E]

def start : Dispatchers T E := ⟨none, .free, fun _ => .idle⟩

/-- Thread `t` goes on at `p`. -/
def goTo (s : Dispatchers T E) (t : T) (p : DispatchPc E) : Dispatchers T E :=
  { s with pc := Function.update s.pc t p }

def unlock (s : Dispatchers T E) (t : T) : Dispatchers T E :=
  { s with gGuardMutex := s.gGuardMutex.release t }

def step (s : Dispatchers T E) : DispatchEvent T E → Option (Dispatchers T E)
  | .dispatch t => if s.pc t = .idle then some (s.goTo t .entered) else none
  | .lockShared t =>
    if s.pc t = .entered then
      (s.gGuardMutex.lockShared t).map fun l =>
        { s.goTo t .testingShared with gGuardMutex := l }
    else none
  | .testShared t hasValue =>
    if s.pc t = .testingShared ∧ s.gGuardEndpoint.isSome = hasValue then
      some (if hasValue then s.goTo t .returningShared else (s.goTo t .missed).unlock t)
    else none
  | .lockUnique t =>
    if s.pc t = .missed then
      (s.gGuardMutex.lock t).map fun l => { s.goTo t .testingUnique with gGuardMutex := l }
    else none
  | .testUnique t hasValue =>
    if s.pc t = .testingUnique ∧ s.gGuardEndpoint.isSome = hasValue then
      some (s.goTo t (if hasValue then .returningUnique else .searching))
    else none
  | .discover t discoveredEndpoint =>
    if s.pc t = .searching then
      some (match discoveredEndpoint with
        | none => s
        | some e => { s.goTo t .returningUnique with gGuardEndpoint := some e })
    else none
  | .give t value =>
    if (s.pc t = .returningShared ∨ s.pc t = .returningUnique) ∧ s.gGuardEndpoint = value then
      some ((s.goTo t (match value with
        | none => .undefined
        | some e => .connecting e)).unlock t)
    else none
  | .connect t e ok =>
    if s.pc t = .connecting e then some (s.goTo t (if ok then .connected e else .failed e))
    else none
  | .lockInvalidate t =>
    match s.pc t with
    | .failed e =>
      (s.gGuardMutex.lock t).map fun l => { s.goTo t (.invalidating e) with gGuardMutex := l }
    | _ => none
  | .invalidate t e =>
    if s.pc t = .invalidating e then
      some { (s.goTo t .entered).unlock t with
        gGuardEndpoint := if s.gGuardEndpoint = some e then none else s.gGuardEndpoint }
    else none
  | .leave t =>
    match s.pc t with
    | .connecting _ | .connected _ => some (s.goTo t .idle)
    | _ => none

/-! ## The lock protects the endpoint -/

structure Inv (s : Dispatchers T E) : Prop where
  /-- The threads hold of the lock what their place in the code says. -/
  mutex : ∀ t, s.gGuardMutex.mode t = (s.pc t).mode
  full : ∀ t, (s.pc t).Returning → s.gGuardEndpoint ≠ none
  empty : ∀ t, s.pc t = .searching → s.gGuardEndpoint = none
  defined : ∀ t, s.pc t ≠ .undefined

omit [DecidableEq E] in
theorem inv_start : Inv (start : Dispatchers T E) where
  mutex _ := rfl
  full _ h := by
    rcases h with h | h <;> cases h
  empty _ h := by cases h
  defined _ h := by cases h

omit [DecidableEq E] in
/-- A thread goes on at `p`. It may have changed the endpoint if it held the lock alone: then no
    other thread is at a place where it relies on the endpoint. -/
theorem Inv.move {s : Dispatchers T E} (hs : Inv s) {t : T} {p : DispatchPc E} {g : Option E}
    {l : RwLock T} (hl : l.mode = Function.update s.gGuardMutex.mode t p.mode)
    (hg : g = s.gGuardEndpoint ∨ (s.pc t).mode = .unique) (hfull : p.Returning → g ≠ none)
    (hempty : p = .searching → g = none) (hdef : p ≠ .undefined) :
    Inv ⟨g, l, Function.update s.pc t p⟩ := by
  have hothers : ∀ u, u ≠ t → (s.pc u).mode ≠ .none → g = s.gGuardEndpoint := by
    intro u hu hmode
    rcases hg with hg | hg
    · exact hg
    · rw [← hs.mutex] at hg hmode
      exact absurd (RwLock.mode_eq_none_of_unique hg hu) hmode
  refine ⟨fun u => ?_, fun u hu => ?_, fun u hu => ?_, fun u => ?_⟩
  · show l.mode u = _
    rw [hl]
    by_cases hut : u = t
    · subst hut
      simp only [Function.update_self]
    · simp only [Function.update_of_ne hut]
      exact hs.mutex u
  · by_cases hut : u = t
    · subst hut
      simp only [Function.update_self] at hu
      exact hfull hu
    · simp only [Function.update_of_ne hut] at hu
      exact hothers u hut hu.mode_ne ▸ hs.full u hu
  · by_cases hut : u = t
    · subst hut
      simp only [Function.update_self] at hu
      exact hempty hu
    · simp only [Function.update_of_ne hut] at hu
      have hmode : (s.pc u).mode ≠ .none := by
        rw [hu]
        intro hnone
        cases hnone
      exact (hothers u hut hmode).trans (hs.empty u hu)
  · by_cases hut : u = t
    · subst hut
      simp only [Function.update_self]
      exact hdef
    · simp only [Function.update_of_ne hut]
      exact hs.defined u

/-- A step is the move of one thread, and the lock is then as its new place says. -/
theorem step_moves {s s' : Dispatchers T E} {e : DispatchEvent T E} (hs : Inv s)
    (h : step s e = some s') :
    ∃ t p, DispatchEvent.Moves t e s.gGuardEndpoint (s.pc t) p s'.gGuardEndpoint ∧
      s'.pc = Function.update s.pc t p ∧
      s'.gGuardMutex.mode = Function.update s.gGuardMutex.mode t p.mode := by
  have hkeep : ∀ (t : T) (p : DispatchPc E), (s.pc t).mode = p.mode →
      s.gGuardMutex.mode = Function.update s.gGuardMutex.mode t p.mode := by
    intro t p hp
    rw [← hp, ← hs.mutex, Function.update_eq_self]
  cases e with
  | dispatch t =>
    obtain ⟨ht, h⟩ := Option.ite_none_right_eq_some.mp h
    cases h
    exact ⟨t, _, ht ▸ .dispatch _, rfl, hkeep t _ (by rw [ht]; rfl)⟩
  | lockShared t =>
    obtain ⟨ht, h⟩ := Option.ite_none_right_eq_some.mp h
    obtain ⟨l, hl, rfl⟩ := Option.map_eq_some_iff.mp h
    exact ⟨t, _, ht ▸ .lockShared _, rfl, RwLock.mode_lockShared hl⟩
  | testShared t hasValue =>
    obtain ⟨⟨ht, hv⟩, h⟩ := Option.ite_none_right_eq_some.mp h
    cases h
    cases hasValue with
    | true =>
      have hfull : s.gGuardEndpoint ≠ none := Option.isSome_iff_ne_none.mp hv
      exact ⟨t, _, ht ▸ .hitShared _ hfull, rfl, hkeep t _ (by rw [ht]; rfl)⟩
    | false =>
      have hempty : s.gGuardEndpoint = none :=
        Option.isNone_iff_eq_none.mp (Option.isSome_eq_false_iff.mp hv)
      refine ⟨t, .missed, ?_, rfl, RwLock.mode_release t _⟩
      show DispatchEvent.Moves t _ s.gGuardEndpoint (s.pc t) _ s.gGuardEndpoint
      rw [ht, hempty]
      exact .missShared
  | lockUnique t =>
    obtain ⟨ht, h⟩ := Option.ite_none_right_eq_some.mp h
    obtain ⟨l, hl, rfl⟩ := Option.map_eq_some_iff.mp h
    exact ⟨t, _, ht ▸ .lockUnique _, rfl, RwLock.mode_lock hl⟩
  | testUnique t hasValue =>
    obtain ⟨⟨ht, hv⟩, h⟩ := Option.ite_none_right_eq_some.mp h
    cases h
    cases hasValue with
    | true =>
      have hfull : s.gGuardEndpoint ≠ none := Option.isSome_iff_ne_none.mp hv
      exact ⟨t, _, ht ▸ .hitUnique _ hfull, rfl, hkeep t _ (by rw [ht]; rfl)⟩
    | false =>
      have hempty : s.gGuardEndpoint = none :=
        Option.isNone_iff_eq_none.mp (Option.isSome_eq_false_iff.mp hv)
      refine ⟨t, .searching, ?_, rfl, hkeep t _ (by rw [ht]; rfl)⟩
      show DispatchEvent.Moves t _ s.gGuardEndpoint (s.pc t) _ s.gGuardEndpoint
      rw [ht, hempty]
      exact .missUnique
  | discover t discoveredEndpoint =>
    obtain ⟨ht, h⟩ := Option.ite_none_right_eq_some.mp h
    cases h
    cases discoveredEndpoint with
    | none =>
      refine ⟨t, .searching, ?_, ?_, hkeep t _ (by rw [ht])⟩
      · rw [ht]
        exact .timeout _
      · rw [← ht, Function.update_eq_self]
    | some e => exact ⟨t, _, ht ▸ .found _ e, rfl, hkeep t _ (by rw [ht]; rfl)⟩
  | give t value =>
    obtain ⟨⟨ht, hv⟩, h⟩ := Option.ite_none_right_eq_some.mp h
    cases h
    cases value with
    | none =>
      refine ⟨t, .undefined, ?_, rfl, RwLock.mode_release t _⟩
      show DispatchEvent.Moves t _ s.gGuardEndpoint (s.pc t) _ s.gGuardEndpoint
      rw [hv]
      exact .giveEmpty _ ht
    | some e =>
      refine ⟨t, .connecting e, ?_, rfl, RwLock.mode_release t _⟩
      show DispatchEvent.Moves t _ s.gGuardEndpoint (s.pc t) _ s.gGuardEndpoint
      rw [hv]
      exact .give _ e ht
  | connect t e ok =>
    obtain ⟨ht, h⟩ := Option.ite_none_right_eq_some.mp h
    cases h
    cases ok with
    | true => exact ⟨t, _, ht ▸ .connect _ e, rfl, hkeep t _ (by rw [ht]; rfl)⟩
    | false => exact ⟨t, _, ht ▸ .fail _ e, rfl, hkeep t _ (by rw [ht]; rfl)⟩
  | lockInvalidate t =>
    rw [Dispatchers.step] at h
    split at h
    · next e ht =>
      obtain ⟨l, hl, rfl⟩ := Option.map_eq_some_iff.mp h
      exact ⟨t, _, ht ▸ .lockInvalidate _ e, rfl, RwLock.mode_lock hl⟩
    · cases h
  | invalidate t e =>
    obtain ⟨ht, h⟩ := Option.ite_none_right_eq_some.mp h
    cases h
    exact ⟨t, _, ht ▸ .invalidate _ e, rfl, RwLock.mode_release t _⟩
  | leave t =>
    rw [Dispatchers.step] at h
    split at h
    · next e ht =>
      cases h
      exact ⟨t, _, ht ▸ .giveUp _ e, rfl, hkeep t _ (by rw [ht]; rfl)⟩
    · next e ht =>
      cases h
      exact ⟨t, _, ht ▸ .finish _ e, rfl, hkeep t _ (by rw [ht]; rfl)⟩
    · cases h

theorem Inv.step {s s' : Dispatchers T E} {e : DispatchEvent T E} (hs : Inv s)
    (h : step s e = some s') : Inv s' := by
  obtain ⟨t, p, hmoves, hpc, hmode⟩ := step_moves hs h
  obtain ⟨g, l, pc⟩ := s'
  obtain rfl : pc = _ := hpc
  exact hs.move hmode hmoves.writes hmoves.full (hmoves.empty (hs.empty t))
    (hmoves.defined (hs.full t))

theorem run_inv {s : Dispatchers T E} {es : List (DispatchEvent T E)}
    (h : run step start es = some s) : Inv s :=
  run_invariant (fun _ _ _ hs hstep => hs.step hstep) inv_start h

/-! ## What the threads do to the endpoint -/

theorem run_atomic {s : Dispatchers T E} {es : List (DispatchEvent T E)}
    (h : run step start es = some s) :
    run CacheEvent.step none (es.filterMap DispatchEvent.atomic) = some s.gGuardEndpoint := by
  refine (run_history (I := fun hist s => Inv s ∧ run CacheEvent.step none
    (hist.filterMap DispatchEvent.atomic) = some s.gGuardEndpoint) h ⟨inv_start, rfl⟩ ?_).2
  rintro hist s e s' ⟨hs, hrun⟩ hstep
  refine ⟨hs.step hstep, ?_⟩
  have hlast : [e].filterMap DispatchEvent.atomic = e.atomic.toList := by
    cases he : e.atomic <;> simp [he]
  rw [List.filterMap_append, hlast]
  obtain ⟨t, p, hmoves, -, -⟩ := step_moves hs hstep
  exact run_append_of hrun (hmoves.atomic (hs.empty t))

/-- However many threads dispatch, the endpoint goes through what a cache goes through that is
    used once at a time, and it is never read while it is empty. -/
theorem run_is_cache {s : Dispatchers T E} {es : List (DispatchEvent T E)}
    (h : run step start es = some s) :
    run CacheEvent.step none (es.filterMap DispatchEvent.atomic) = some s.gGuardEndpoint ∧
      ∀ t, s.pc t ≠ .undefined :=
  ⟨run_atomic h, (run_inv h).defined⟩

/-- Two threads find no endpoint. One looks for the guard and finds it at 7, the other waits for
    the lock and gets what was found. -/
def firstSearch : List (DispatchEvent Bool Nat) :=
  [.dispatch true, .dispatch false, .lockShared true, .lockShared false, .testShared false false,
    .testShared true false, .lockUnique true, .testUnique true false, .discover true none,
    .discover true (some 7), .give true (some 7), .lockUnique false, .testUnique false true,
    .give false (some 7)]

/-- The guard is looked for and found again. -/
def secondSearch : List (DispatchEvent Bool Nat) :=
  [.lockInvalidate true, .invalidate true 7, .lockShared true, .testShared true false,
    .lockUnique true, .testUnique true false, .discover true (some 7), .give true (some 7)]

def retry : List (DispatchEvent Bool Nat) :=
  firstSearch ++ .connect true 7 false :: (secondSearch ++ [.connect true 7 true])

theorem retry_runs : (run step start retry).isSome = true := by decide

theorem run_is_cache_retry : ∃ s, run step start retry = some s ∧
    run CacheEvent.step none (retry.filterMap DispatchEvent.atomic) = some s.gGuardEndpoint ∧
      ∀ t, s.pc t ≠ .undefined := by
  obtain ⟨s, hs⟩ := Option.isSome_iff_exists.mp retry_runs
  exact ⟨s, hs, run_is_cache hs⟩

/-! ## How often the guard is looked for -/

/-- The events so far, and the threads that are searching and that have yet to invalidate. -/
theorem run_counts {s : Dispatchers T E} {es : List (DispatchEvent T E)}
    (h : run step start es = some s) :
    ∃ n m, Counted DispatchPc.isSearching s.pc n ∧ Counted DispatchPc.owes s.pc m ∧
      es.countP DispatchEvent.searches = es.countP DispatchEvent.finds + n ∧
      es.countP DispatchEvent.fails = es.countP DispatchEvent.invalidates + m := by
  refine (run_history (I := fun hist s => Inv s ∧ ∃ n m, Counted DispatchPc.isSearching s.pc n ∧
    Counted DispatchPc.owes s.pc m ∧
      hist.countP DispatchEvent.searches = hist.countP DispatchEvent.finds + n ∧
      hist.countP DispatchEvent.fails = hist.countP DispatchEvent.invalidates + m) h
    ⟨inv_start, 0, 0, counted_zero fun _ => rfl, counted_zero fun _ => rfl, rfl, rfl⟩ ?_).2
  rintro hist s e s' ⟨hs, n, m, hn, hm, hsearch, hfail⟩ hstep
  obtain ⟨t, p, hmoves, hpc, -⟩ := step_moves hs hstep
  have hss := hmoves.searching_iff
  have hoo := hmoves.owes_iff
  obtain ⟨n', hn', hcn⟩ := hn.update t p
  obtain ⟨m', hm', hcm⟩ := hm.update t p
  have hlast : ∀ D : DispatchEvent T E → Bool,
      (hist ++ [e]).countP D = hist.countP D + (D e).toNat := by
    intro D
    rw [List.countP_append, List.countP_singleton, Bool.toNat]
    cases D e <;> rfl
  rw [hpc]
  refine ⟨hs.step hstep, n', m', hn', hm', ?_, ?_⟩
  · rw [hlast, hlast]
    omega
  · rw [hlast, hlast]
    omega

omit [DecidableEq E] in
/-- One thread at most is searching, for it holds the lock alone. -/
theorem Inv.searching_unique {s : Dispatchers T E} (hs : Inv s) {t u : T}
    (ht : s.pc t = .searching) (hu : s.pc u = .searching) : t = u := by
  by_contra hne
  have hmode : s.gGuardMutex.mode t = .unique := by
    rw [hs.mutex, ht]
    rfl
  have hnone := RwLock.mode_eq_none_of_unique hmode (Ne.symm hne)
  rw [hs.mutex, hu] at hnone
  cases hnone

/-- The double check: in any run, the threads start to look for the guard at most once more than
    their connections have failed. -/
theorem searches_le_failures {s : Dispatchers T E} {es : List (DispatchEvent T E)}
    (h : run step start es = some s) :
    es.countP DispatchEvent.searches ≤ es.countP DispatchEvent.fails + 1 := by
  have hs := run_inv h
  obtain ⟨n, m, hn, hm, hsearch, hfail⟩ := run_counts h
  have hstores : es.countP DispatchEvent.finds ≤
      es.countP DispatchEvent.invalidates + s.gGuardEndpoint.toList.length := by
    have hcache := CacheEvent.stores_le (run_atomic h)
    rw [List.countP_filterMap, List.countP_filterMap] at hcache
    simp only [DispatchEvent.isStore_atomic, DispatchEvent.isDrop_atomic, Option.toList_none,
      List.length_nil, Nat.add_zero] at hcache
    exact hcache
  have hone : s.gGuardEndpoint.toList.length ≤ 1 := by
    cases s.gGuardEndpoint with
    | none => exact Nat.zero_le 1
    | some e => exact le_rfl
  rcases Nat.eq_zero_or_pos n with rfl | hpos
  · omega
  · -- while one searches there is no endpoint
    obtain ⟨t, ht⟩ := hn.exists_of_pos hpos
    have hn1 : n ≤ 1 := hn.le_one fun t u ht hu =>
      hs.searching_unique (DispatchPc.eq_searching ht) (DispatchPc.eq_searching hu)
    have hempty := hs.empty t (DispatchPc.eq_searching ht)
    rw [hempty] at hstores
    simp only [Option.toList_none, List.length_nil] at hstores
    omega

/-- The bound is reached. -/
theorem searches_le_failures_retry :
    retry.countP DispatchEvent.searches = 2 ∧ retry.countP DispatchEvent.fails = 1 ∧
      retry.countP DispatchEvent.searches ≤ retry.countP DispatchEvent.fails + 1 := by
  obtain ⟨s, hs⟩ := Option.isSome_iff_exists.mp retry_runs
  exact ⟨rfl, rfl, searches_le_failures hs⟩

/-! ## No endpoint is tried again that has failed -/

theorem step_avoids {s s' : Dispatchers T E} {ev : DispatchEvent T E} {t : T} {e : E}
    (hs : Inv s) (hstep : step s ev = some s') (hnot : ∀ u, ev ≠ .discover u (some e))
    (h : (s.pc t).Avoids e s.gGuardEndpoint) : (s'.pc t).Avoids e s'.gGuardEndpoint := by
  obtain ⟨u, p, hmoves, hpc, -⟩ := step_moves hs hstep
  by_cases hut : t = u
  · subst hut
    rw [hpc, Function.update_self]
    exact hmoves.avoids hnot h
  · rw [hpc, Function.update_of_ne hut]
    rcases h with h | h | ⟨hg, h⟩
    · exact .inl h
    · exact .inr (.inl h)
    · exact .inr (.inr ⟨hmoves.stays_out hnot hg, h⟩)

/-- When a connection of a thread to `e` has failed and it tries `e` again, for this payload or a
    later one, then `e` has been found anew in between. -/
theorem retried_is_found_again {pre mid : List (DispatchEvent T E)} {t : T} {e : E} {ok : Bool}
    {s : Dispatchers T E}
    (h : run step start (pre ++ .connect t e false :: (mid ++ [.connect t e ok])) = some s) :
    ∃ u, .discover u (some e) ∈ mid := by
  rw [run_append] at h
  obtain ⟨a, ha, h⟩ := Option.bind_eq_some_iff.mp h
  obtain ⟨b, hb, h⟩ := run_cons h
  rw [run_append] at h
  obtain ⟨c, hc, h⟩ := Option.bind_eq_some_iff.mp h
  by_contra hnone
  have hmid : ∀ ev ∈ mid, ∀ u, ev ≠ .discover u (some e) := by
    rintro ev hev u rfl
    exact hnone ⟨u, hev⟩
  have hfailed : b.pc t = .failed e := by
    obtain ⟨-, hb⟩ := Option.ite_none_right_eq_some.mp hb
    cases hb
    exact Function.update_self _ _ _
  have havoids : Inv c ∧ (c.pc t).Avoids e c.gGuardEndpoint := by
    refine run_invariant_along (I := fun s : Dispatchers T E =>
      Inv s ∧ (s.pc t).Avoids e s.gGuardEndpoint) ?_
      ⟨(run_inv ha).step hb, .inl hfailed⟩ (along_of_forall hmid) hc
    exact fun s ev s' hs hnot hstep => ⟨hs.1.step hstep, step_avoids hs.1 hstep hnot hs.2⟩
  obtain ⟨d, hd, -⟩ := run_cons h
  obtain ⟨hconnecting, -⟩ := Option.ite_none_right_eq_some.mp hd
  rcases havoids.2 with h | h | ⟨-, h⟩
  · rw [hconnecting] at h
    cases h
  · rw [hconnecting] at h
    cases h
  · exact h hconnecting

theorem retried_is_found_again_retry : ∃ u, .discover u (some 7) ∈ secondSearch := by
  obtain ⟨s, hs⟩ := Option.isSome_iff_exists.mp retry_runs
  exact retried_is_found_again hs

/-! ## Every dispatch can come to its connection -/

/-- Thread `u` has given up the lock, in the middle of its dispatch, and nobody else has moved. -/
structure Released (u : T) (s s' : Dispatchers T E) : Prop where
  inv : Inv s'
  mutex : s'.gGuardMutex = s.gGuardMutex.release u
  busy : s'.pc u ≠ .idle
  others : ∀ v, v ≠ u → s'.pc v = s.pc v

omit [DecidableEq E] in
theorem Released.after_goTo {u : T} {s s' : Dispatchers T E} {p : DispatchPc E} {g : Option E}
    (h : Released u { s.goTo u p with gGuardEndpoint := g } s') : Released u s s' where
  inv := h.inv
  mutex := h.mutex
  busy := h.busy
  others v hv := (h.others v hv).trans (Function.update_of_ne hv _ _)

theorem returning_releases {s : Dispatchers T E} {u : T} (hs : Inv s) (hu : (s.pc u).Returning) :
    Reaches step s (Released u s) := by
  obtain ⟨e, he⟩ := Option.ne_none_iff_exists'.mp (hs.full u hu)
  have hstep : step s (.give u (some e)) = some ((s.goTo u (.connecting e)).unlock u) :=
    if_pos ⟨hu, he⟩
  refine .after hstep (.here ⟨hs.step hstep, rfl, ?_, fun v hv => Function.update_of_ne hv _ _⟩)
  show Function.update s.pc u _ u ≠ _
  rw [Function.update_self]
  exact nofun

theorem searching_releases [Nonempty E] {s : Dispatchers T E} {u : T} (hs : Inv s)
    (hu : s.pc u = .searching) : Reaches step s (Released u s) := by
  obtain ⟨e⟩ := ‹Nonempty E›
  have hstep : step s (.discover u (some e)) =
      some { s.goTo u .returningUnique with gGuardEndpoint := some e } := if_pos hu
  refine .after hstep ((returning_releases (hs.step hstep) (.inr ?_)).trans fun s' h =>
    .here h.after_goTo)
  exact Function.update_self _ _ _

theorem holder_can_release [Nonempty E] {s : Dispatchers T E} {u : T} (hs : Inv s)
    (hu : s.gGuardMutex.mode u ≠ .none) : Reaches step s (Released u s) := by
  rw [hs.mutex] at hu
  cases hpc : s.pc u with
  | testingShared =>
    cases hv : s.gGuardEndpoint.isSome with
    | true =>
      have hstep : step s (.testShared u true) = some (s.goTo u .returningShared) :=
        if_pos ⟨hpc, hv⟩
      refine .after hstep ((returning_releases (hs.step hstep) (.inl ?_)).trans fun s' h =>
        .here h.after_goTo)
      exact Function.update_self _ _ _
    | false =>
      have hstep : step s (.testShared u false) = some ((s.goTo u .missed).unlock u) :=
        if_pos ⟨hpc, hv⟩
      refine .after hstep (.here ⟨hs.step hstep, rfl, ?_, fun v hv => Function.update_of_ne hv _ _⟩)
      show Function.update s.pc u _ u ≠ _
      rw [Function.update_self]
      exact nofun
  | returningShared => exact returning_releases hs (.inl hpc)
  | testingUnique =>
    cases hv : s.gGuardEndpoint.isSome with
    | true =>
      have hstep : step s (.testUnique u true) = some (s.goTo u .returningUnique) :=
        if_pos ⟨hpc, hv⟩
      refine .after hstep ((returning_releases (hs.step hstep) (.inr ?_)).trans fun s' h =>
        .here h.after_goTo)
      exact Function.update_self _ _ _
    | false =>
      have hstep : step s (.testUnique u false) = some (s.goTo u .searching) :=
        if_pos ⟨hpc, hv⟩
      refine .after hstep ((searching_releases (hs.step hstep) ?_).trans fun s' h =>
        .here h.after_goTo)
      exact Function.update_self _ _ _
  | searching => exact searching_releases hs hpc
  | returningUnique => exact returning_releases hs (.inr hpc)
  | invalidating e =>
    have hstep : step s (.invalidate u e) = some { (s.goTo u .entered).unlock u with
        gGuardEndpoint := if s.gGuardEndpoint = some e then none else s.gGuardEndpoint } :=
      if_pos hpc
    refine .after hstep (.here ⟨hs.step hstep, rfl, ?_, fun v hv => Function.update_of_ne hv _ _⟩)
    show Function.update s.pc u _ u ≠ _
    rw [Function.update_self]
    exact nofun
  | _ =>
    rw [hpc] at hu
    exact absurd rfl hu

/-- Those who hold the lock can finish with it, one after another. -/
theorem lock_can_be_free [Nonempty E] {s : Dispatchers T E} {t : T} (hs : Inv s)
    (ht : s.pc t ≠ .idle) :
    Reaches step s fun s' => s'.gGuardMutex = .free ∧ Inv s' ∧ s'.pc t ≠ .idle := by
  refine reaches_of_measure (I := fun s' => Inv s' ∧ s'.pc t ≠ .idle)
    (fun s' => s'.gGuardMutex.holders) ?_ ⟨hs, ht⟩
  rintro a ⟨ha, hat⟩
  rcases a.gGuardMutex.eq_free_or_held with hfree | ⟨u, hu⟩
  · exact .here (.inl ⟨hfree, ha, hat⟩)
  · refine (holder_can_release ha hu).trans fun b hb => .here (.inr ⟨⟨hb.inv, ?_⟩, ?_⟩)
    · by_cases hut : t = u
      · exact hut ▸ hb.busy
      · exact hb.others t hut ▸ hat
    · rw [hb.mutex]
      exact RwLock.holders_release hu

/-- Thread `t` has its connection. -/
def Connects (t : T) (s : Dispatchers T E) : Prop := ∃ e, s.pc t = .connected e

section

variable {s : Dispatchers T E} {t : T}

theorem returning_connects (hs : Inv s) (ht : (s.pc t).Returning) :
    Reaches step s (Connects t) := by
  obtain ⟨e, he⟩ := Option.ne_none_iff_exists'.mp (hs.full t ht)
  have hgive : step s (.give t (some e)) = some ((s.goTo t (.connecting e)).unlock t) :=
    if_pos ⟨ht, he⟩
  have hconnect : step ((s.goTo t (.connecting e)).unlock t) (.connect t e true) =
      some (((s.goTo t (.connecting e)).unlock t).goTo t (.connected e)) :=
    if_pos (Function.update_self _ _ _)
  exact .after hgive (.after hconnect (.here ⟨e, Function.update_self _ _ _⟩))

variable [Nonempty E]

theorem testingUnique_connects (hs : Inv s) (ht : s.pc t = .testingUnique) :
    Reaches step s (Connects t) := by
  cases hv : s.gGuardEndpoint.isSome with
  | true =>
    have htest : step s (.testUnique t true) = some (s.goTo t .returningUnique) :=
      if_pos ⟨ht, hv⟩
    exact .after htest (returning_connects (hs.step htest) (.inr (Function.update_self _ _ _)))
  | false =>
    obtain ⟨e⟩ := ‹Nonempty E›
    have htest : step s (.testUnique t false) = some (s.goTo t .searching) := if_pos ⟨ht, hv⟩
    have hfound : step (s.goTo t .searching) (.discover t (some e)) =
        some { (s.goTo t .searching).goTo t .returningUnique with gGuardEndpoint := some e } :=
      if_pos (Function.update_self _ _ _)
    exact .after htest (.after hfound
      (returning_connects ((hs.step htest).step hfound) (.inr (Function.update_self _ _ _))))

theorem missed_connects (hs : Inv s) (hfree : s.gGuardMutex = .free) (ht : s.pc t = .missed) :
    Reaches step s (Connects t) := by
  have hlock : step s (.lockUnique t) =
      some { s.goTo t .testingUnique with gGuardMutex := .unique t } := by
    rw [step, if_pos ht, hfree]
    rfl
  exact .after hlock (testingUnique_connects (hs.step hlock) (Function.update_self _ _ _))

theorem testingShared_connects (hs : Inv s) (halone : s.gGuardMutex = .shared {t})
    (ht : s.pc t = .testingShared) : Reaches step s (Connects t) := by
  cases hv : s.gGuardEndpoint.isSome with
  | true =>
    have htest : step s (.testShared t true) = some (s.goTo t .returningShared) :=
      if_pos ⟨ht, hv⟩
    exact .after htest (returning_connects (hs.step htest) (.inl (Function.update_self _ _ _)))
  | false =>
    have htest : step s (.testShared t false) = some ((s.goTo t .missed).unlock t) :=
      if_pos ⟨ht, hv⟩
    refine .after htest (missed_connects (hs.step htest) ?_ (Function.update_self _ _ _))
    show s.gGuardMutex.release t = .free
    rw [halone, RwLock.release, Finset.erase_singleton]
    rfl

theorem entered_connects (hs : Inv s) (hfree : s.gGuardMutex = .free) (ht : s.pc t = .entered) :
    Reaches step s (Connects t) := by
  have hlock : step s (.lockShared t) =
      some { s.goTo t .testingShared with gGuardMutex := .shared {t} } := by
    rw [step, if_pos ht, hfree]
    rfl
  exact .after hlock (testingShared_connects (hs.step hlock) rfl (Function.update_self _ _ _))

theorem failed_connects {e : E} (hs : Inv s) (hfree : s.gGuardMutex = .free)
    (ht : s.pc t = .failed e) : Reaches step s (Connects t) := by
  have hlock : step s (.lockInvalidate t) =
      some { s.goTo t (.invalidating e) with gGuardMutex := .unique t } := by
    rw [step, ht, hfree]
    rfl
  have hs' := hs.step hlock
  have hinvalidate : step { s.goTo t (.invalidating e) with gGuardMutex := .unique t }
      (.invalidate t e) = some ⟨if s.gGuardEndpoint = some e then none else s.gGuardEndpoint,
        (RwLock.unique t).release t,
        Function.update (Function.update s.pc t (.invalidating e)) t .entered⟩ :=
    if_pos (Function.update_self _ _ _)
  exact .after hlock (.after hinvalidate (entered_connects (hs'.step hinvalidate) (if_pos rfl)
    (Function.update_self _ _ _)))

end

/-- Whatever the other threads are doing, a thread that has a payload to dispatch can come to its
    connection: there is no deadlock. -/
theorem dispatch_can_connect [Nonempty E] {s : Dispatchers T E} {es : List (DispatchEvent T E)}
    {t : T} (h : run step start es = some s) (ht : s.pc t ≠ .idle) :
    Reaches step s (Connects t) := by
  refine (lock_can_be_free (run_inv h) ht).trans ?_
  rintro a ⟨hfree, ha, hat⟩
  have hmode : (a.pc t).mode = .none := by
    rw [← ha.mutex, hfree]
    rfl
  cases hpc : a.pc t with
  | idle => exact absurd hpc hat
  | undefined => exact absurd hpc (ha.defined t)
  | entered => exact entered_connects ha hfree hpc
  | missed => exact missed_connects ha hfree hpc
  | failed e => exact failed_connects ha hfree hpc
  | connected e => exact .here ⟨e, hpc⟩
  | connecting e =>
    have hconnect : step a (.connect t e true) = some (a.goTo t (.connected e)) := if_pos hpc
    exact .after hconnect (.here ⟨e, Function.update_self _ _ _⟩)
  | _ =>
    rw [hpc] at hmode
    cases hmode

/-- One thread searches and holds the lock, the other waits for it. -/
theorem dispatch_can_connect_waiting : ∃ s, run step start (firstSearch.take 9) = some s ∧
    s.pc true = .searching ∧ s.pc false = .missed ∧ Reaches step s (Connects false) := by
  have hruns : (run step start (firstSearch.take 9)).isSome = true := by decide
  obtain ⟨s, hs⟩ := Option.isSome_iff_exists.mp hruns
  have hpc : (run step start (firstSearch.take 9)).map (fun s => (s.pc true, s.pc false)) =
      some (.searching, .missed) := by decide
  rw [hs, Option.map_some, Option.some.injEq, Prod.mk.injEq] at hpc
  exact ⟨s, hs, hpc.1, hpc.2, dispatch_can_connect hs (by rw [hpc.2]; exact nofun)⟩

end Dispatchers

end CdsGuard.Gateway
