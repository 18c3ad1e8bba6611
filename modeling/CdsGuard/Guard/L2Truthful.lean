import CdsGuard.Guard.L2Integrity

/-
  What the `true` of `send_reliable_data` is worth, for one session. The receiver takes every
  START frame as a new session: one that was delayed or duplicated throws away what was
  received, although it has been acknowledged and will not be sent again, and END is
  acknowledged all the same (`lateStart_loses`).

  As long as no START arrives between the first acknowledged DATA frame and the return of the
  data (`LateStart`), success means that the data has been returned (`success_is_delivery`). The
  invariant: what has been acknowledged is held by the receiver, unless it has been returned.
-/

namespace CdsGuard.Guard

open CdsGuard.Lib

variable {c : Session} {myMac : Mac}

/-! ## Acknowledgements in the medium -/

namespace Session

/-- Frames of the session are no acknowledgements. -/
theorem acked_append_frames (hfit : c.data.length < 2 ^ 64) (air : List Bytes)
    {out : List Bytes} (hout : ∀ f ∈ out, ∃ j, f = c.frame j) {k : Nat} (hk : k < 2 ^ 32)
    (h : c.Acked myMac (air ++ out) k) : c.Acked myMac air k := by
  obtain ⟨w, hw, hmem⟩ := h
  rcases List.mem_append.mp hmem with hmem | hmem
  · exact ⟨w, hw, hmem⟩
  · obtain ⟨j, hframe⟩ := hout _ hmem
    have hread := readAck_ackFrame c.srcMac myMac c.srcMac c.sessionId c.sessionId_lt hk hw
    rw [hframe, readAck_frame hfit, if_pos ⟨rfl, rfl⟩] at hread
    exact absurd hread (by simp)

/-- New acknowledgements of packet `j` acknowledge no other packet. -/
theorem acked_append_acks {air acks : List Bytes} {j : Nat} (hj : j < 2 ^ 32)
    (hacks : ∀ a ∈ acks, ∃ w < 2 ^ 16, a = ackFrame c.srcMac myMac c.sessionId j w) {k : Nat}
    (hk : k < 2 ^ 32) (h : c.Acked myMac (air ++ acks) k) :
    c.Acked myMac air k ∨ (k = j ∧ acks ≠ []) := by
  obtain ⟨w, hw, hmem⟩ := h
  rcases List.mem_append.mp hmem with hmem | hmem
  · exact .inl ⟨w, hw, hmem⟩
  · obtain ⟨v, hv, heq⟩ := hacks _ hmem
    have h1 := readAck_ackFrame c.srcMac myMac c.srcMac c.sessionId c.sessionId_lt hk hw
    have h2 := readAck_ackFrame c.srcMac myMac c.srcMac c.sessionId c.sessionId_lt hj hv
    rw [if_pos ⟨rfl, rfl⟩] at h1 h2
    rw [heq, h2] at h1
    have hkj : j = k := (Prod.mk.inj (Option.some.inj h1)).1
    exact .inr ⟨hkj.symm, List.ne_nil_of_mem hmem⟩

end Session

/-! ## Invariant -/

/-- A call has returned the data of the session. -/
def Link.Returned (c : Session) (s : Link Unit) : Prop := .complete c.data ∈ s.results

/-- The event gives the receiver a START frame when it has acknowledged a DATA frame and not
    returned the data. -/
def LateStart (c : Session) (myMac : Mac) (s : Link Unit) : LinkEvent Unit → Prop
  | .receive f => f = c.startFrame ∧
      (∃ k, 1 ≤ k ∧ k ≤ c.totalPackets ∧ c.Acked myMac s.air k) ∧ ¬s.Returned c
  | _ => False

/-- What holds after every step when no START frame came late. -/
structure Link.Truthful (c : Session) (myMac : Mac) (s : Link Unit) : Prop
    extends Link.Inv (fun _ : Unit => c) myMac s where
  sender : (s.senders ()).Inv c (c.Acked myMac s.air)
  emitted : ∀ f ∈ s.air, c.Emits (c.Acked myMac s.air) f ∨ IsAck myMac f
  held : ¬s.Returned c → s.receiver.sessionActive = true →
    ∀ k, 1 ≤ k → k ≤ c.totalPackets → c.Acked myMac s.air k → s.receiver.window.Held k
  ended : c.Acked myMac s.air (c.totalPackets + 1) → s.Returned c

namespace Link

variable {s s' : Link Unit}

theorem truthful_start : Truthful c myMac start where
  toInv := inv_start
  sender := Sender.inv_fresh c _
  emitted := fun f hf => absurd hf (by simp [start])
  held := fun _ h => absurd h (by simp [start, Receiver.call])
  ended := fun h => by
    obtain ⟨w, -, hmem⟩ := h
    exact absurd hmem (by simp [start])

/-- A round of the receive loop on a frame with number `j`: it is enough that what is held
    stays held, that what is acknowledged is held, and that END is acknowledged only when the
    data is returned. -/
theorem Truthful.received (hsize : c.data.length < 1400 * (2 ^ 32 - 2)) (h : Truthful c myMac s)
    {p : Receiver × List Bytes × Option CallResult}
    (hp : Receiver.Sound (fun _ : Unit => c) myMac p) (j : Nat) (hj : j < 2 ^ 32)
    (hacks : ∀ a ∈ p.2.1, ∃ w < 2 ^ 16, a = ackFrame c.srcMac myMac c.sessionId j w)
    (hheld : p.2.2 = none → ¬s.Returned c → p.1.sessionActive = true →
      ∀ k, 1 ≤ k → k ≤ c.totalPackets → c.Acked myMac s.air k ∨ (k = j ∧ p.2.1 ≠ []) →
        p.1.window.Held k)
    (hend : j = c.totalPackets + 1 → p.2.1 ≠ [] → s.Returned c ∨ p.2.2 ≠ none) :
    Truthful c myMac (s.received p) := by
  have hmax := Session.totalPackets_le hsize
  have hmono : ∀ k, c.Acked myMac s.air k → c.Acked myMac (s.received p).air k :=
    fun k hk => hk.mono
  have hkept : s.Returned c → (s.received p).Returned c := fun hr => List.mem_append_left _ hr
  have hnew : p.2.2 ≠ none → (s.received p).Returned c := by
    intro hne
    obtain ⟨x, hx⟩ := Option.ne_none_iff_exists'.mp hne
    obtain ⟨-, rfl⟩ := hp.result x hx
    refine List.mem_append_right _ ?_
    rw [hx]
    exact List.mem_singleton_self _
  refine { toInv := inv_received h.toInv hp, sender := h.sender.mono hmono, emitted := ?_
           held := ?_, ended := ?_ }
  · intro f hf
    rcases List.mem_append.mp hf with hf | hf
    · exact (h.emitted f hf).imp_left fun he => he.mono hmono
    · exact .inr (hp.acks f hf)
  · intro hr hactive k h1 hk hacked
    have hnone : p.2.2 = none := by
      by_contra hne
      exact hr (hnew hne)
    have hrecv : (s.received p).receiver = p.1 := by
      rw [Link.received, hnone]
      rfl
    rw [hrecv] at hactive ⊢
    exact hheld hnone (fun hr' => hr (hkept hr')) hactive k h1 hk
      (Session.acked_append_acks hj hacks (by omega) hacked)
  · intro hacked
    rcases Session.acked_append_acks hj hacks (by omega) hacked with hold | ⟨rfl, hne⟩
    · exact hkept (h.ended hold)
    · rcases hend rfl hne with hr | hr
      · exact hkept hr
      · exact hnew hr

/-- A round that changes nothing but perhaps ends the call. -/
theorem Truthful.received_same (hsize : c.data.length < 1400 * (2 ^ 32 - 2))
    (h : Truthful c myMac s) {x : Option CallResult}
    (hp : Receiver.Sound (fun _ : Unit => c) myMac (s.receiver, [], x)) :
    Truthful c myMac (s.received (s.receiver, [], x)) := by
  refine h.received hsize hp 0 (by decide) (fun a ha => absurd ha (by simp)) ?_ ?_
  · intro _ hr hactive k h1 hk hacked
    rcases hacked with hacked | ⟨-, hne⟩
    · exact h.held hr hactive k h1 hk hacked
    · exact absurd rfl hne
  · intro _ hne
    exact absurd rfl hne

theorem Truthful.receive_start (hsize : c.data.length < 1400 * (2 ^ 32 - 2))
    (h : Truthful c myMac s) (hdst : c.dstMac = myMac)
    (hearly : ¬LateStart c myMac s (.receive c.startFrame)) :
    Truthful c myMac (s.received (s.receiver.receive myMac c.startFrame)) := by
  have hp := h.receiver.receive_frame myMac (fun _ _ _ => rfl) (fun _ => hsize) () 0
  rw [Session.frame_zero, Receiver.receive_start (Session.length_lt hsize) hdst] at hp
  rw [Receiver.receive_start (Session.length_lt hsize) hdst]
  refine h.received hsize hp 0 (by decide) ?_ ?_ fun h0 => absurd h0 (by omega)
  · intro a ha
    rw [List.mem_singleton.mp ha]
    exact Receiver.sendAck_eq myMac rfl 0
  · intro _ hr _ k h1 hk hacked
    rcases hacked with hacked | ⟨h0, -⟩
    · exact absurd ⟨rfl, ⟨k, h1, hk, hacked⟩, hr⟩ hearly
    · omega

theorem Truthful.receive_data (hsize : c.data.length < 1400 * (2 ^ 32 - 2))
    (h : Truthful c myMac s) (hdst : c.dstMac = myMac) {j : Nat} (h1 : 1 ≤ j)
    (hj : j ≤ c.totalPackets) :
    Truthful c myMac (s.received (s.receiver.receive myMac (c.dataFrame j))) := by
  have hmax := Session.totalPackets_le hsize
  have hp := h.receiver.receive_frame myMac (fun _ _ _ => rfl) (fun _ => hsize) () j
  rw [Session.frame_data h1 hj, Receiver.receive_data (Session.length_lt hsize) hdst hj] at hp
  rw [Receiver.receive_data (Session.length_lt hsize) hdst hj]
  by_cases hc : s.receiver.sessionActive = true ∧ s.receiver.currentSessionId = c.sessionId
  swap
  · rw [if_neg hc] at hp ⊢
    exact h.received_same hsize hp
  rw [if_pos hc] at hp ⊢
  obtain ⟨_, ht'⟩ := h.receiver hc.1
  have ht : s.receiver.Tracks c := ht'
  refine h.received hsize hp j (by omega) (ht.onData_acks j) ?_
    fun he => absurd he (by omega)
  intro _ hr _ k hk1 hk hacked
  refine Receiver.onData_held (ht.keys_lt hsize) (by omega) ?_
  exact hacked.imp_left fun hacked => h.held hr hc.1 k hk1 hk hacked

theorem Truthful.receive_end (hsize : c.data.length < 1400 * (2 ^ 32 - 2))
    (h : Truthful c myMac s) (hdst : c.dstMac = myMac)
    (hall : c.AllAcked (c.Acked myMac s.air)) :
    Truthful c myMac (s.received (s.receiver.receive myMac c.endFrame)) := by
  have hmax := Session.totalPackets_le hsize
  have hp := h.receiver.receive_frame myMac (fun _ _ _ => rfl) (fun _ => hsize) ()
    (c.totalPackets + 1)
  rw [Session.frame_end, Receiver.receive_end (Session.length_lt hsize) hdst] at hp
  rw [Receiver.receive_end (Session.length_lt hsize) hdst]
  unfold Receiver.onEnd at hp ⊢
  split at hp
  swap
  · rename_i hc
    rw [if_neg hc]
    exact h.received_same hsize hp
  rename_i hc
  rw [if_pos hc]
  obtain ⟨_, ht'⟩ := h.receiver hc.1
  have ht : s.receiver.Tracks c := ht'
  have hend := Session.endSeq_eq hsize
  refine h.received hsize hp (c.totalPackets + 1) (by omega) ?_ ?_ ?_
  · intro a ha
    rw [List.mem_singleton.mp ha, ← hend]
    exact Receiver.sendAck_eq myMac ht.session _
  · intro _ hr _ k h1 hk hacked
    rcases hacked with hacked | ⟨he, -⟩
    · exact h.held hr hc.1 k h1 hk hacked
    · omega
  · -- everything is held, so END completes the call
    intro _ _
    by_cases hr : s.Returned c
    · exact .inl hr
    · right
      have hbase : s.receiver.receiveWindowBase = c.totalPackets + 1 :=
        ht.holds.base_eq fun k h1 hk => h.held hr hc.1 k h1 hk (hall k h1 hk)
      show Receiver.finish { s.receiver with endPacketReceived := true } ≠ none
      rw [ht.markEnd.finish hsize, if_pos ⟨rfl, hbase⟩]
      exact Option.some_ne_none _

/-- One step keeps the invariant, unless it brings a START frame late. -/
theorem Truthful.step (hsize : c.data.length < 1400 * (2 ^ 32 - 2)) (h : Truthful c myMac s)
    {e : LinkEvent Unit} (hearly : ¬LateStart c myMac s e)
    (hs : step (fun _ => c) myMac s e = some s') : Truthful c myMac s' := by
  have hmax := Session.totalPackets_le hsize
  have hinv : Inv (fun _ : Unit => c) myMac s' :=
    step_inv (fun _ _ _ => rfl) (fun _ => hsize) h.toInv hs
  cases e with
  | send i a =>
    obtain ⟨⟨t, out⟩, hstep, rfl⟩ := Option.map_eq_some_iff.mp hs
    obtain ⟨ht, hout⟩ := Sender.step_inv hsize h.sender hstep
    have hframes : ∀ f ∈ out, ∃ j, f = c.frame j := fun f hf => (hout f hf).frame
    have hmono : ∀ k, c.Acked myMac s.air k → c.Acked myMac (s.air ++ out) k :=
      fun k hk => hk.mono
    refine { hinv with sender := ?_, emitted := fun f hf => ?_, held := ?_, ended := ?_ }
    · show (Function.update s.senders () t ()).Inv c (c.Acked myMac (s.air ++ out))
      rw [Function.update_self]
      exact ht.mono hmono
    · rcases List.mem_append.mp hf with hf | hf
      · exact (h.emitted f hf).imp_left fun he => he.mono hmono
      · exact .inl ((hout f hf).mono hmono)
    · intro hr hactive k h1 hk hacked
      exact h.held hr hactive k h1 hk
        (Session.acked_append_frames (Session.length_lt hsize) _ hframes (by omega) hacked)
    · intro hacked
      exact h.ended
        (Session.acked_append_frames (Session.length_lt hsize) _ hframes (by omega) hacked)
  | hear i frame =>
    obtain ⟨hmem, hs⟩ := Option.ite_none_right_eq_some.mp hs
    cases hs
    refine { hinv with sender := ?_, emitted := h.emitted, held := h.held, ended := h.ended }
    show (Function.update s.senders () _ ()).Inv c (c.Acked myMac s.air)
    rw [Function.update_self]
    refine Sender.hear_inv h.sender fun k w hread => ?_
    rcases h.emitted frame hmem with ⟨j, -, rfl, -⟩ | hack
    · rw [Session.readAck_frame (Session.length_lt hsize)] at hread
      exact absurd hread (by simp)
    · exact Session.acked_of_readAck hmem hack hread
  | receive frame =>
    obtain ⟨hmem, hs⟩ := Option.ite_none_right_eq_some.mp hs
    cases hs
    rcases h.emitted frame hmem with ⟨j, hj, rfl, hend⟩ | hack
    · by_cases hdst : c.dstMac = myMac
      swap
      · rw [Receiver.receive_elsewhere (Session.length_lt hsize) hdst]
        exact h.received_same hsize h.receiver.skip
      rcases Nat.eq_zero_or_pos j with rfl | h1
      · exact h.receive_start hsize hdst hearly
      · rcases Nat.lt_or_ge c.totalPackets j with hlt | hle
        · obtain rfl : j = c.totalPackets + 1 := by omega
          rw [Session.frame_end]
          exact h.receive_end hsize hdst (hend rfl)
        · rw [Session.frame_data h1 hle]
          exact h.receive_data hsize hdst h1 hle
    · have hp := h.receiver.receive_ack (fun _ => hsize) hack
      rcases Receiver.receive_ack s.receiver hack with heq | heq <;> rw [heq] at hp ⊢ <;>
        exact h.received_same hsize hp
  | timeout =>
    cases hs
    refine { hinv with sender := h.sender, emitted := h.emitted, held := ?_, ended := ?_ }
    · intro _ hactive
      exact absurd hactive (by simp [Receiver.call])
    · intro hacked
      exact List.mem_append_left _ (h.ended hacked)

/-- In every run in which no START frame comes late, a call of `send_reliable_data` that has
    returned true has had its data returned by `receive_reliable_data`. -/
theorem success_is_delivery (c : Session) (myMac : Mac)
    (hsize : c.data.length < 1400 * (2 ^ 32 - 2)) (es : List (LinkEvent Unit)) (s : Link Unit)
    (hearly : Along (Link.step (fun _ => c) myMac) (fun s e => ¬LateStart c myMac s e) start es)
    (hrun : run (Link.step (fun _ => c) myMac) start es = some s)
    (hok : (s.senders ()).pc = .done true) : .complete c.data ∈ s.results := by
  have hinv : Truthful c myMac s :=
    run_invariant_along (fun _ _ _ h hP hs => h.step hsize hP hs) truthful_start hearly hrun
  have hpc := hinv.sender.at_pc
  rw [hok] at hpc
  exact hinv.ended hpc.2

/-! ## The two runs -/

/-- One byte, one packet. -/
def oneByte : Session := sampleSessions false

def cleanRun : List (LinkEvent Unit) :=
  openSession () oneByte ++ (sendData () oneByte ++ closeSession () oneByte)

/-- The same with the START frame delivered a second time, behind the DATA frame. -/
def lateRun : List (LinkEvent Unit) :=
  openSession () oneByte ++ (sendData () oneByte ++
    (.receive oneByte.startFrame :: closeSession () oneByte))

/-- The event gives the receiver the START frame. -/
def deliversStart (c : Session) : LinkEvent Unit → Bool
  | .receive f => f == c.startFrame
  | _ => false

theorem not_lateStart_of_other (s : Link Unit) (e : LinkEvent Unit)
    (h : deliversStart c e = false) : ¬LateStart c myMac s e := by
  cases e with
  | receive f =>
    rintro ⟨rfl, -⟩
    simp [deliversStart] at h
  | _ => exact fun h => h

/-- A START frame is early while nothing but frames of the session has been sent. -/
theorem not_lateStart_of_frames (hsize : c.data.length < 1400 * (2 ^ 32 - 2)) (s : Link Unit)
    (acked : Nat → Prop) (hair : ∀ f ∈ s.air, c.Emits acked f) :
    ¬LateStart c myMac s (.receive c.startFrame) := by
  rintro ⟨-, ⟨k, -, hk, hacked⟩, -⟩
  have hmax := Session.totalPackets_le hsize
  obtain ⟨w, -, hmem⟩ := Session.acked_append_frames (Session.length_lt hsize) []
    (fun f hf => (hair f hf).frame) (by omega) hacked
  exact absurd hmem (by simp)

/-- The run without the second START frame delivers the byte. -/
theorem success_is_delivery_clean :
    ∃ s, run (Link.step (fun _ => oneByte) sampleDst) start cleanRun = some s ∧
      (s.senders ()).pc = .done true ∧ .complete [0x41] ∈ s.results := by
  have hpc : (run (Link.step (fun _ => oneByte) sampleDst) start cleanRun).map
      (fun s => (s.senders ()).pc) = some (.done true) := by decide +kernel
  obtain ⟨s, hs, hok⟩ := Option.map_eq_some_iff.mp hpc
  have hrest : ∀ e ∈ cleanRun.drop 3, deliversStart oneByte e = false := by decide +kernel
  refine ⟨s, hs, hok, success_is_delivery oneByte sampleDst (by decide) cleanRun s ?_ hs hok⟩
  -- the two steps of the sender, the first START frame, and the events behind it
  refine ⟨fun h => h, fun s₁ h₁ => ⟨fun h => h, fun s₂ h₂ => ⟨?_, fun s₃ _ => ?_⟩⟩⟩
  · obtain rfl := Option.some.inj h₁
    obtain rfl := Option.some.inj h₂
    refine not_lateStart_of_frames (by decide) _ (fun _ => True) fun f hf => ?_
    have hf' : f ∈ [oneByte.startFrame] := hf
    rw [List.mem_singleton.mp hf']
    exact ⟨0, Nat.zero_le _, rfl, fun h => absurd h (by decide)⟩
  · exact (along_of_forall hrest).mono fun s e => not_lateStart_of_other s e

/-- With it the call returns true, and nothing has been returned. -/
theorem lateStart_loses :
    ∃ s, run (Link.step (fun _ => oneByte) sampleDst) start lateRun = some s ∧
      (s.senders ()).pc = .done true ∧ s.results = [] := by
  have hres : (run (Link.step (fun _ => oneByte) sampleDst) start lateRun).map
      (fun s => ((s.senders ()).pc, s.results)) = some (.done true, []) := by decide +kernel
  obtain ⟨s, hs, hok⟩ := Option.map_eq_some_iff.mp hres
  exact ⟨s, hs, congrArg Prod.fst hok, congrArg Prod.snd hok⟩

end Link

end CdsGuard.Guard
