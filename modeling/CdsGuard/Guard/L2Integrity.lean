import CdsGuard.Guard.L2Link

/-
  Integrity of `GuardL2`: whatever the medium does to the frames, a call of
  `receive_reliable_data` returns the data of one of the sessions or nothing, and never ends at
  END with the wrong number of bytes.

  One step (`step_inv`): the medium holds frames of the sessions and acknowledgements, and the
  receiver, when it is in a session, follows one of the senders (`Follows`). A stale frame of
  another session is told apart by its session id, which is why the ids have to be distinct.
-/

namespace CdsGuard.Guard

open CdsGuard.Lib

variable {ι : Type} {sessions : ι → Session} {myMac : Mac}

/-! ## The receiver -/

/-- When the receiver is in a session, it follows one of the senders. -/
def Receiver.Follows (sessions : ι → Session) (r : Receiver) : Prop :=
  r.sessionActive = true → ∃ i, r.Tracks (sessions i)

/-- What one round of the receive loop may come to. -/
structure Receiver.Sound (sessions : ι → Session) (myMac : Mac)
    (p : Receiver × List Bytes × Option CallResult) : Prop where
  follows : p.1.Follows sessions
  acks : ∀ a ∈ p.2.1, IsAck myMac a
  result : ∀ x ∈ p.2.2, ∃ i, x = .complete (sessions i).data

namespace Receiver

variable {r : Receiver}

theorem follows_call (m : PieceMap UInt8) : (Receiver.call m).Follows sessions :=
  fun h => absurd h (by simp [Receiver.call])

theorem Follows.finish (hsize : ∀ i, (sessions i).data.length < 1400 * (2 ^ 32 - 2))
    (h : r.Follows sessions) : ∀ x ∈ r.finish, ∃ i, x = .complete (sessions i).data := by
  intro x hx
  have hactive : r.sessionActive = true := by
    by_contra hn
    rw [Receiver.finish, if_neg fun hc => hn hc.1] at hx
    exact absurd hx (by simp)
  obtain ⟨i, ht⟩ := h hactive
  rw [ht.finish (hsize i)] at hx
  split at hx
  · exact ⟨i, (Option.some.inj hx).symm⟩
  · exact absurd hx (by simp)

theorem Follows.skip (h : r.Follows sessions) : Sound sessions myMac (r, [], none) :=
  ⟨h, fun _ ha => absurd ha (by simp), fun _ hx => absurd hx (by simp)⟩

theorem Follows.check (hsize : ∀ i, (sessions i).data.length < 1400 * (2 ^ 32 - 2))
    (h : r.Follows sessions) {acks : List Bytes} (hacks : ∀ a ∈ acks, IsAck myMac a) :
    Sound sessions myMac (r, acks, r.finish) :=
  ⟨h, hacks, h.finish hsize⟩

theorem isAck_of_session (c : Session) {k : Nat} (hk : k < 2 ^ 32) {a : Bytes}
    (h : ∃ w < 2 ^ 16, a = ackFrame c.srcMac myMac c.sessionId k w) : IsAck myMac a := by
  obtain ⟨w, hw, rfl⟩ := h
  exact ⟨c.srcMac, c.sessionId, k, w, c.sessionId_lt, hk, hw, rfl⟩

/-- The session that the receiver follows is the one whose id it holds. -/
theorem Follows.tracks (hid : Function.Injective fun i => (sessions i).sessionId)
    (h : r.Follows sessions) {i : ι} (hactive : r.sessionActive = true)
    (hs : r.currentSessionId = (sessions i).sessionId) : r.Tracks (sessions i) := by
  obtain ⟨j, hj⟩ := h hactive
  have hij : j = i := hid (by dsimp only; rw [← hs, hj.session])
  rwa [hij] at hj

/-- One round of the loop on a frame of a sender. -/
theorem Follows.receive_frame (myMac : Mac)
    (hid : Function.Injective fun i => (sessions i).sessionId)
    (hsize : ∀ i, (sessions i).data.length < 1400 * (2 ^ 32 - 2)) (h : r.Follows sessions)
    (i : ι) (k : Nat) : Sound sessions myMac (r.receive myMac ((sessions i).frame k)) := by
  have hmax := Session.totalPackets_le (hsize i)
  by_cases hdst : (sessions i).dstMac = myMac
  swap
  · rw [receive_elsewhere (Session.length_lt (hsize i)) hdst]
    exact h.skip
  unfold Session.frame
  split
  · -- START: a new call state, whatever was there
    rw [receive_start (Session.length_lt (hsize i)) hdst]
    refine ⟨fun _ => ⟨i, tracks_started _⟩, fun a ha => ?_, fun _ hx => absurd hx (by simp)⟩
    obtain ⟨w, hw, hack⟩ := sendAck_eq myMac (tracks_started (sessions i)).session 0
    rw [List.mem_singleton.mp ha, hack]
    exact isAck_of_session _ (by decide) ⟨w, hw, rfl⟩
  · split
    · -- DATA: of the session that is followed, or skipped
      rename_i hk
      rw [receive_data (Session.length_lt (hsize i)) hdst hk]
      split
      · rename_i hc
        have ht := h.tracks hid hc.1 hc.2
        refine Follows.check hsize
          (fun _ => ⟨i, ht.onData (ht.keys_lt (hsize i)) hk (by omega)⟩) fun a ha => ?_
        exact isAck_of_session _ (by omega) (ht.onData_acks k a ha)
      · exact h.skip
    · -- END: sets the flag, and is acknowledged, in the session that is followed
      rw [receive_end (Session.length_lt (hsize i)) hdst]
      unfold onEnd
      split
      · rename_i hc
        have ht := h.tracks hid hc.1 hc.2.1
        have hend : Follows sessions { r with endPacketReceived := true } :=
          fun _ => ⟨i, ht.markEnd⟩
        refine hend.check hsize fun a ha => ?_
        obtain ⟨w, hw, hack⟩ := sendAck_eq myMac ht.session (sessions i).endSeq
        rw [List.mem_singleton.mp ha]
        exact isAck_of_session _ (by rw [Session.endSeq_eq (hsize i)]; omega) ⟨w, hw, hack⟩
      · exact Follows.check hsize h fun a ha => absurd ha (by simp)

/-- One round of the loop on an acknowledgement. -/
theorem Follows.receive_ack (hsize : ∀ i, (sessions i).data.length < 1400 * (2 ^ 32 - 2))
    (h : r.Follows sessions) {f : Bytes} (hf : IsAck myMac f) :
    Sound sessions myMac (r.receive myMac f) := by
  rcases Receiver.receive_ack r hf with heq | heq
  · rw [heq]
    exact h.skip
  · rw [heq]
    exact h.check hsize fun a ha => absurd ha (by simp)

end Receiver

/-! ## The system -/

/-- A frame of one of the senders. -/
def IsSessionFrame (sessions : ι → Session) (f : Bytes) : Prop := ∃ i k, f = (sessions i).frame k

/-- What holds of the system after every step. -/
structure Link.Inv (sessions : ι → Session) (myMac : Mac) (s : Link ι) : Prop where
  senders : ∀ i, (s.senders i).Inv (sessions i) fun _ => True
  air : ∀ f ∈ s.air, IsSessionFrame sessions f ∨ IsAck myMac f
  receiver : s.receiver.Follows sessions
  results : ∀ x ∈ s.results, x = .timedOut ∨ ∃ i, x = .complete (sessions i).data

namespace Link

variable {s s' : Link ι}

theorem inv_start : Inv sessions myMac (start : Link ι) where
  senders := fun i => Sender.inv_fresh (sessions i) _
  air := fun f hf => absurd hf (by simp [start])
  receiver := Receiver.follows_call ∅
  results := fun x hx => absurd hx (by simp [start])

theorem inv_received (h : Inv sessions myMac s)
    {p : Receiver × List Bytes × Option CallResult} (hp : Receiver.Sound sessions myMac p) :
    Inv sessions myMac (s.received p) where
  senders := h.senders
  air := fun f hf => by
    rcases List.mem_append.mp hf with hf | hf
    · exact h.air f hf
    · exact .inr (hp.acks f hf)
  receiver := by
    unfold received
    dsimp only
    split
    · exact Receiver.follows_call _
    · exact hp.follows
  results := fun x hx => by
    rcases List.mem_append.mp hx with hx | hx
    · exact h.results x hx
    · exact .inr (hp.result x (by simpa using hx))

variable [DecidableEq ι]

theorem inv_update (h : Inv sessions myMac s) {i : ι} {t : Sender}
    (ht : t.Inv (sessions i) fun _ => True) :
    ∀ j, (Function.update s.senders i t j).Inv (sessions j) fun _ => True := by
  intro j
  by_cases hj : j = i
  · subst hj
    rwa [Function.update_self]
  · rw [Function.update_of_ne hj]
    exact h.senders j

/-- One step keeps the invariant. -/
theorem step_inv (hid : Function.Injective fun i => (sessions i).sessionId)
    (hsize : ∀ i, (sessions i).data.length < 1400 * (2 ^ 32 - 2)) (h : Inv sessions myMac s)
    {e : LinkEvent ι} (hs : step sessions myMac s e = some s') : Inv sessions myMac s' := by
  cases e with
  | send i a =>
    obtain ⟨⟨t, out⟩, hstep, rfl⟩ := Option.map_eq_some_iff.mp hs
    obtain ⟨ht, hout⟩ := Sender.step_inv (hsize i) (h.senders i) hstep
    refine { h with senders := inv_update h ht, air := fun f hf => ?_ }
    rcases List.mem_append.mp hf with hf | hf
    · exact h.air f hf
    · obtain ⟨k, -, hframe, -⟩ := hout f hf
      exact .inl ⟨i, k, hframe⟩
  | hear i frame =>
    obtain ⟨-, hs⟩ := Option.ite_none_right_eq_some.mp hs
    cases hs
    exact { h with
      senders := inv_update h (Sender.hear_inv (h.senders i) fun _ _ _ => trivial) }
  | receive frame =>
    obtain ⟨hmem, hs⟩ := Option.ite_none_right_eq_some.mp hs
    cases hs
    refine inv_received h ?_
    rcases h.air frame hmem with ⟨i, k, rfl⟩ | hack
    · exact h.receiver.receive_frame myMac hid hsize i k
    · exact h.receiver.receive_ack hsize hack
  | timeout =>
    cases hs
    refine { h with receiver := Receiver.follows_call _, results := fun x hx => ?_ }
    rcases List.mem_append.mp hx with hx | hx
    · exact h.results x hx
    · exact .inl (List.mem_singleton.mp hx)

/-- In every run, whatever a call returns is the data of one of the sessions, and no call ends
    with the wrong size. -/
theorem returned_is_sent (sessions : ι → Session) (myMac : Mac)
    (hid : Function.Injective fun i => (sessions i).sessionId)
    (hsize : ∀ i, (sessions i).data.length < 1400 * (2 ^ 32 - 2)) (es : List (LinkEvent ι))
    (s : Link ι) (hrun : run (step sessions myMac) start es = some s) :
    ∀ x ∈ s.results, x ≠ .sizeMismatch ∧ (x.vector ≠ [] → ∃ i, x.vector = (sessions i).data) := by
  have hinv : Inv sessions myMac s :=
    run_invariant (fun _ _ _ h hs => step_inv hid hsize h hs) inv_start hrun
  intro x hx
  rcases hinv.results x hx with rfl | ⟨i, rfl⟩
  · exact ⟨by decide, fun h => absurd rfl h⟩
  · exact ⟨by simp, fun _ => ⟨i, rfl⟩⟩

/-! ## A transfer without trouble -/

def sampleSrc : Mac := ⟨[2, 0, 0, 0, 0, 1], rfl⟩
def sampleDst : Mac := ⟨[2, 0, 0, 0, 0, 2], rfl⟩

/-- A session with one byte of data. -/
def sampleSession (sessionId : Nat) (h : sessionId < 2 ^ 32) (b : UInt8) : Session :=
  ⟨sampleSrc, sampleDst, sessionId, h, [b]⟩

/-- The START handshake of sender `i`, its DATA frame up to the wait for the acknowledgement, and
    the rest of the call. -/
def openSession (i : ι) (c : Session) : List (LinkEvent ι) :=
  [.send i .go, .send i .go, .receive c.startFrame,
    .hear i (ackFrame sampleSrc sampleDst c.sessionId 0 512)]

def sendData (i : ι) (c : Session) : List (LinkEvent ι) :=
  [.send i .go, .send i .go, .send i .go, .send i .go, .receive (c.dataFrame 1), .send i .go,
    .hear i (ackFrame sampleSrc sampleDst c.sessionId 1 512)]

def closeSession (i : ι) (c : Session) : List (LinkEvent ι) :=
  [.send i (.wake []), .send i .go, .send i .go, .receive c.endFrame,
    .hear i (ackFrame sampleSrc sampleDst c.sessionId 2 512), .send i .go]

/-- Two senders, of which the first gets no further than START. -/
def sampleSessions : Bool → Session
  | false => sampleSession 7 (by decide) 0x41
  | true => sampleSession 8 (by decide) 0x42

def sampleRun : List (LinkEvent Bool) :=
  openSession false (sampleSessions false) ++ (openSession true (sampleSessions true) ++
    (sendData true (sampleSessions true) ++ closeSession true (sampleSessions true)))

/-- The second session arrives. -/
theorem returned_is_sent_sample :
    ∃ s, run (step sampleSessions sampleDst) start sampleRun = some s ∧
      s.results.map CallResult.vector = [[0x42]] ∧
      ∀ x ∈ s.results, x ≠ .sizeMismatch ∧
        (x.vector ≠ [] → ∃ i, x.vector = (sampleSessions i).data) := by
  have hres : (run (step sampleSessions sampleDst) start sampleRun).map
      (fun s => s.results.map CallResult.vector) = some [[0x42]] := by decide +kernel
  obtain ⟨s, hs, hvec⟩ := Option.map_eq_some_iff.mp hres
  refine ⟨s, hs, hvec, returned_is_sent sampleSessions sampleDst ?_ ?_ sampleRun s hs⟩
  · intro a b hab
    revert a b
    decide
  · intro i
    cases i <;> decide

end Link

end CdsGuard.Guard
