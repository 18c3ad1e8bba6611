import CdsGuard.Gateway.Censored
import CdsGuard.Guard.Crossing

/-
  What the other domain can see of a text. A text that was matched by the rules in force is passed
  on as what the matching leaves of it, with nothing more that these rules find
  (`passed_filtered`), and nothing else crosses the bridge: `crossing_is_clean`.
-/

namespace CdsGuard.Guard

open CdsGuard.Lib CdsGuard.Packet CdsGuard.Gateway CdsGuard.Client

/-! ## The gateway's part -/

/-- A string is valid UTF-8, and its work is what the matching finds in it; the analysis service may
    be on or off, and answer what it likes. -/
def Screened (P : RuleSet) (d : DoubleArray.DoubleArrayTrie) (p : ReceivedPayload) (w : Work) :
    Prop :=
  p.isDocument = false → ∃ text, p.data = utf8 text ∧ (utf8 text).length < 2 ^ 64 ∧
    ∃ rounds deepLearning response, text.length < rounds ∧
      w.string = matchedInfo P.categories d P.ignoreCase rounds deepLearning response p.data

/-- What is left of a text: the ranges that were found are starred, and the rules find nothing
    more. -/
structure Filtered (P : RuleSet) (d : DoubleArray.DoubleArrayTrie) (sent shown : List Char) :
    Prop where
  found : ∃ rounds deepLearning response infos, sent.length < rounds ∧
    matchedInfo P.categories d P.ignoreCase rounds deepLearning response (utf8 sent) =
      some infos ∧
    shown = starred (InRanges infos) 0 sent
  clean : P.Clean shown

/-- Strings are passed on as what the matching leaves of them. -/
theorem passed_filtered {order : DoubleArray.MapOrder} {fuel : Nat} {P : RuleSet}
    (hP : P.Sound order fuel) {d : DoubleArray.DoubleArrayTrie}
    (hd : DoubleArray.construct order fuel P.ignoreCase (P.patterns.map utf8) = .ok d)
    {es : List Event} {s : State} (hA : ∀ e ∈ es, e.Admitted (Screened P d))
    (hrun : run Gateway.step State.start es = some s) :
    ∀ jp ∈ s.passed, jp.1.payload.isDocument = false →
      ∃ sent shown, jp.1.payload.data = utf8 sent ∧ Filtered P d sent shown ∧
        jp.2.data = utf8 shown := by
  intro jp hjp hstring
  have hjob : jp.1 ∈ s.jobs := by
    refine List.mem_append_right _ (List.mem_append_right _ ?_)
    exact List.mem_map_of_mem hjp
  obtain ⟨text, hdata, htext, rounds, deepLearning, response, hrounds, hwork⟩ :=
    run_jobs_admitted hA hrun jp.1 hjob hstring
  obtain ⟨d', datIndex, hbuild, hfaithful⟩ := DoubleArray.construct_spec order P.ignoreCase
    P.patterns hP.supported fuel hP.enough hP.layout
  obtain rfl := Except.ok.inj (hd.symm.trans hbuild)
  obtain ⟨infos, hmatched, hwhole, hcategory, hpattern⟩ :=
    matchedInfo_spec hP.toFit hfaithful htext hrounds deepLearning response
  have hreleased := run_released hrun jp hjp
  rw [hdata, hmatched] at hwork
  rw [Job.released, hstring, if_neg Bool.false_ne_true, hwork, censorTask_some, hdata,
    censor_utf8 hwhole] at hreleased
  refine ⟨text, starred (InRanges infos) 0 text, hdata, ?_, (Option.some.inj hreleased).symm⟩
  exact ⟨⟨rounds, deepLearning, response, infos, hrounds, hmatched, rfl⟩,
    clean_of_covers hwhole hP.noStar hcategory hpattern⟩

/-! ## The bridge -/

namespace Bridge

variable {ι : Type} [DecidableEq ι] {objects : ι → SenderObject} {myMac : Mac} {s s' : Bridge ι}

theorem step_gateway {e : BridgeEvent ι} {g : Event} (h : step objects myMac s e = some s')
    (he : e.gateway? = some g) : Gateway.step s.gateway g = some s'.gateway := by
  cases e with
  | gateway e =>
    obtain rfl : e = g := Option.some.inj he
    obtain ⟨t, ht, rfl⟩ := Option.map_eq_some_iff.mp h
    exact ht
  | _ => cases he

theorem step_frame {e : BridgeEvent ι} (h : step objects myMac s e = some s')
    (he : e.gateway? = none) : s'.gateway = s.gateway := by
  cases e with
  | gateway e => cases he
  | connect i ivs =>
    unfold Bridge.step at h
    dsimp only at h
    split at h
    · cases h
      rfl
    · cases h
  | unreachable =>
    obtain ⟨-, h⟩ := Option.ite_none_right_eq_some.mp h
    cases h
    rfl
  | read i chunk =>
    unfold Bridge.step at h
    dsimp only at h
    split at h
    · obtain ⟨-, h⟩ := Option.ite_none_right_eq_some.mp h
      obtain ⟨loop', -, rfl⟩ := Option.map_eq_some_iff.mp h
      rfl
    · cases h
  | close i e =>
    unfold Bridge.step at h
    dsimp only at h
    split at h
    · obtain ⟨-, h⟩ := Option.ite_none_left_eq_some.mp h
      split at h
      · cases h
        rfl
      · cases h
        rfl
    · cases h
  | link e =>
    obtain ⟨-, h⟩ := Option.ite_none_right_eq_some.mp h
    obtain ⟨l, -, rfl⟩ := Option.map_eq_some_iff.mp h
    rfl

/-- The gateway of a bridge takes a run of its own. -/
theorem run_gateway {es : List (BridgeEvent ι)} (h : run (step objects myMac) s es = some s') :
    run Gateway.step s.gateway (es.filterMap BridgeEvent.gateway?) = some s'.gateway :=
  run_project Bridge.gateway BridgeEvent.gateway? (fun _ _ _ _ hs he => step_gateway hs he)
    (fun _ _ _ hs he => step_frame hs he) h

/-- In every run over deliverable payloads whose strings were matched by the rules, and in which
    connections are read to their ends, whatever a call of `receive_reliable_data` returns is
    forwarded as a payload of the gateway, and if that is a string, as what the matching leaves of
    it. -/
theorem crossing_is_clean (order : DoubleArray.MapOrder) (fuel : Nat) (P : RuleSet)
    (hP : P.Sound order fuel) (d : DoubleArray.DoubleArrayTrie)
    (hd : DoubleArray.construct order fuel P.ignoreCase (P.patterns.map utf8) = .ok d)
    (objects : ι → SenderObject) (myMac : Mac)
    (hids : Function.Injective fun i => (objects i).sessionId) (es : List (BridgeEvent ι))
    (s : Bridge ι) (hclean : ∀ e ∈ es, Clean e)
    (hscreened : ∀ e ∈ es.filterMap BridgeEvent.gateway?, e.Admitted (Screened P d))
    (hrun : run (step objects myMac) start es = some s) :
    ∀ x ∈ s.link.results, x.vector ≠ [] → ∃ jp ∈ s.gateway.passed,
      (∀ stale, ArrivesAs stale x.vector { jp.1.payload with data := jp.2.data }) ∧
      (jp.1.payload.isDocument = false → ∃ sent shown, jp.1.payload.data = utf8 sent ∧
        Filtered P d sent shown ∧ jp.2.data = utf8 shown) := by
  intro x hx hne
  obtain ⟨jp, hjp, -, harrives⟩ := (run_inv hids hclean hrun).arrives hx hne
  exact ⟨jp, hjp, harrives, passed_filtered hP hd hscreened (run_gateway hrun) jp hjp⟩

/-- The sample rules find nothing in the sample text. -/
theorem textEvents_screened : ∃ d,
    DoubleArray.construct DoubleArray.insertionOrder 40 true (sampleRules.patterns.map utf8) =
      .ok d ∧ ∀ e ∈ textEvents, e.Admitted (Screened sampleRules d) := by
  have hmatch :
      (match DoubleArray.construct DoubleArray.insertionOrder 40 true
          (sampleRules.patterns.map utf8) with
      | .ok d => matchedInfo sampleRules.categories d true 3 false none [0x41, 0]
      | .error _ => none) = some [] := by
    decide +kernel
  cases hbuild : DoubleArray.construct DoubleArray.insertionOrder 40 true
      (sampleRules.patterns.map utf8) with
  | error e =>
    rw [hbuild] at hmatch
    exact absurd hmatch (by simp)
  | ok d =>
    rw [hbuild] at hmatch
    refine ⟨d, rfl, fun e he => ?_⟩
    simp only [textEvents, List.mem_cons, List.not_mem_nil, or_false] at he
    rcases he with rfl | rfl | rfl | rfl | rfl | rfl | rfl | rfl | rfl
    case inr.inr.inl =>
      exact fun _ => ⟨['A', '\x00'], rfl, by decide, 3, false, none, by decide, hmatch.symm⟩
    all_goals trivial

/-- The text that crosses, with the sample rules in force. -/
theorem crossing_is_clean_text : ∃ es s, run (step oneObject Link.sampleDst) start es = some s ∧
    ∃ x ∈ s.link.results, ∃ jp ∈ s.gateway.passed,
      (∀ stale, ArrivesAs stale x.vector { jp.1.payload with data := jp.2.data }) ∧
      (jp.1.payload.isDocument = false → ∃ d sent shown, jp.1.payload.data = utf8 sent ∧
        Filtered sampleRules d sent shown ∧ jp.2.data = utf8 shown) := by
  obtain ⟨es, s, hrun, hclean, hevents, x, hx, hne⟩ := text_crosses
  obtain ⟨d, hbuild, hscreened⟩ := textEvents_screened
  obtain ⟨jp, hjp, harrives, htext⟩ := crossing_is_clean DoubleArray.insertionOrder 40
    sampleRules sampleRules_sound d hbuild oneObject Link.sampleDst (fun _ _ _ => rfl) es s
    hclean (fun e he => hscreened e (hevents ▸ he)) hrun x hx hne
  exact ⟨es, s, hrun, x, hx, jp, hjp, harrives, fun hstring => ⟨d, htext hstring⟩⟩

end Bridge

end CdsGuard.Guard
