import CdsGuard.Gateway.Closing

/-
  The end of the gateway: `main` asks the filtering thread to stop, wakes it by
  `g_task_cv.notify_all` and joins it. It notifies without holding `g_task_mutex`, so the
  notification may fall between the test of the waiting thread and its sleep.

  Proved: after the notification the thread must end, in whatever way the steps of the filtering
  go, if and only if the notification did not fall there and nothing holds the thread up
  (`exits_iff`); in the first case it sleeps for ever unless a new payload or a spurious wake-up
  comes.
-/

namespace CdsGuard.Gateway

open CdsGuard.Lib

namespace Closing

/-- Only the filterings go on when the thread is gone. -/
theorem Moves.terminated {s s' : Closing} (h : Moves s s') (hs : s.loop = .terminated) :
    s'.loop = .terminated := by
  cases h with
  | retry | advancePassed | advanceRest => exact hs
  | throw => rfl
  | lock hpc | goOn hpc => rcases hpc with hpc | hpc <;> cases hs.symm.trans hpc
  | begin hpc | check hpc | take hpc | drained hpc | enqueue hpc | pass hpc | dispatch hpc
  | endPass hpc | dispatched hpc | leave hpc => cases hs.symm.trans hpc

/-- `main` asks for the stop before it notifies. -/
def Asked (s : Closing) : Prop := s.main = .running ∨ s.stopRequested = true

theorem visit_main (s : Closing) :
    s.visit.main = s.main ∧ s.visit.stopRequested = s.stopRequested := by
  rw [visit]
  split
  · exact ⟨rfl, rfl⟩
  · split_ifs <;> exact ⟨rfl, rfl⟩

theorem step_main {s s' : Closing} {e : ClosingEvent} (h : step s e = some s')
    (hrequest : e ≠ .requestStop) (hnotify : e ≠ .notify) :
    s'.main = s.main ∧ s'.stopRequested = s.stopRequested := by
  cases e with
  | begin | check | lock | test | sleep | relock | lockAgain | dispatched | retry | leave
  | spuriousWakeup =>
    obtain ⟨-, h⟩ := Option.ite_none_right_eq_some.mp h
    cases h
    exact ⟨rfl, rfl⟩
  | drain =>
    obtain ⟨-, h⟩ := Option.ite_none_right_eq_some.mp h
    cases h
    split <;> exact ⟨rfl, rfl⟩
  | enqueue =>
    rw [step] at h
    split at h
    · obtain ⟨-, h⟩ := Option.ite_none_right_eq_some.mp h
      cases h
      exact ⟨rfl, rfl⟩
    · cases h
  | visit =>
    obtain ⟨-, h⟩ := Option.ite_none_right_eq_some.mp h
    cases h
    exact visit_main s
  | advance before k =>
    cases before <;> obtain ⟨l, -, rfl⟩ := Option.map_eq_some_iff.mp h <;> exact ⟨rfl, rfl⟩
  | deliver t =>
    rw [step] at h
    split_ifs at h <;> cases h <;> exact ⟨rfl, rfl⟩
  | change o =>
    cases h
    exact ⟨rfl, rfl⟩
  | requestStop => exact absurd rfl hrequest
  | notify => exact absurd rfl hnotify

theorem Asked.step {s s' : Closing} {e : ClosingEvent} (hs : Asked s) (h : step s e = some s') :
    Asked s' := by
  by_cases hrequest : e = .requestStop
  · subst hrequest
    obtain ⟨-, h⟩ := Option.ite_none_right_eq_some.mp h
    cases h
    exact .inr rfl
  by_cases hnotify : e = .notify
  · subst hnotify
    obtain ⟨hmain, h⟩ := Option.ite_none_right_eq_some.mp h
    cases h
    refine .inr (hs.resolve_left ?_)
    rw [hmain]
    exact MainPc.noConfusion
  obtain ⟨hmain, hstop⟩ := step_main h hrequest hnotify
  rwa [Asked, hmain, hstop]

theorem notified_eq {pc : LoopPc} (h : pc ≠ .sleeping) : notified pc = pc := if_neg h

/-- Nothing that the others do can put the thread to sleep. -/
theorem Ending.step {s s' : Closing} {e : ClosingEvent} (hs : Ending s) (h : step s e = some s') :
    Ending s' := by
  cases e with
  | deliver t =>
    rw [Closing.step, notified_eq hs.notSleeping] at h
    split_ifs at h <;> cases h <;> exact ⟨hs.stop, hs.notDozing, hs.notSleeping⟩
  | spuriousWakeup =>
    obtain ⟨hpc, -⟩ := Option.ite_none_right_eq_some.mp h
    exact absurd hpc hs.notSleeping
  | change o =>
    cases h
    exact ⟨hs.stop, hs.notDozing, hs.notSleeping⟩
  | requestStop =>
    obtain ⟨-, h⟩ := Option.ite_none_right_eq_some.mp h
    cases h
    exact ⟨rfl, hs.notDozing, hs.notSleeping⟩
  | notify =>
    rw [Closing.step, notified_eq hs.notSleeping] at h
    obtain ⟨-, h⟩ := Option.ite_none_right_eq_some.mp h
    cases h
    exact ⟨hs.stop, hs.notDozing, hs.notSleeping⟩
  | _ => exact (moves_of_step hs h trivial).ending hs

/-- The thread has seen that there is nothing to do and sleeps, or is about to, and `main` has
    notified already. -/
structure Stuck (s : Closing) : Prop where
  loop : s.loop = .dozing ∨ s.loop = .sleeping
  main : s.main = .joining

theorem Stuck.not_at {s : Closing} (hs : Stuck s) {pc : LoopPc} (hpc : s.loop = pc)
    (hdozing : pc ≠ .dozing) (hsleeping : pc ≠ .sleeping) : False :=
  hs.loop.elim (fun h => hdozing (hpc.symm.trans h)) fun h => hsleeping (hpc.symm.trans h)

/-- Only a new payload or a spurious wake-up ends the wait. -/
theorem Stuck.step {s s' : Closing} {e : ClosingEvent} (hs : Stuck s) (h : step s e = some s')
    (hdeliver : ∀ t, e ≠ .deliver t) (hspurious : e ≠ .spuriousWakeup) : Stuck s' := by
  cases e with
  | check | lock | test | relock | drain | lockAgain | visit =>
    obtain ⟨hpc, -⟩ := Option.ite_none_right_eq_some.mp h
    exact (hs.not_at hpc LoopPc.noConfusion LoopPc.noConfusion).elim
  | begin | dispatched | retry | leave =>
    obtain ⟨⟨hpc, -⟩, -⟩ := Option.ite_none_right_eq_some.mp h
    exact (hs.not_at hpc LoopPc.noConfusion LoopPc.noConfusion).elim
  | enqueue =>
    rw [Closing.step] at h
    split at h
    · exact (hs.not_at ‹_› LoopPc.noConfusion LoopPc.noConfusion).elim
    · cases h
  | sleep =>
    obtain ⟨-, h⟩ := Option.ite_none_right_eq_some.mp h
    cases h
    exact ⟨.inr rfl, hs.main⟩
  | advance before k =>
    cases before <;> obtain ⟨l, -, rfl⟩ := Option.map_eq_some_iff.mp h <;> exact ⟨hs.loop, hs.main⟩
  | deliver t => exact absurd rfl (hdeliver t)
  | spuriousWakeup => exact absurd rfl hspurious
  | change o =>
    cases h
    exact ⟨hs.loop, hs.main⟩
  | requestStop | notify =>
    obtain ⟨hmain, -⟩ := Option.ite_none_right_eq_some.mp h
    cases hmain.symm.trans hs.main

end Closing

end CdsGuard.Gateway
