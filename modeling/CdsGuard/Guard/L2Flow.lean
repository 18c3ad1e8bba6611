import CdsGuard.Guard.L2Truthful
import CdsGuard.Guard.L2Window

/-
  Flow control between the two sides of `GuardL2`, for one session over a medium that drops,
  duplicates and reorders frames. The receiver keeps nothing from beyond its 512 packets
  (`Receiver.Near`), so the windows it advertises are open; what is acknowledged is held
  (`Link.Flow`), so the sender's window lies inside the receiver's (`flow_control`).
-/

namespace CdsGuard.Guard

open CdsGuard.Lib

variable {c : Session} {myMac : Mac}

/-! ## Frames in the medium -/

namespace Session

/-- A frame of the session tells its type and its number. -/
theorem build_inj (hfit : c.data.length < 2 ^ 64) {t₁ t₂ : FrameType} {k₁ k₂ : Nat}
    {p₁ p₂ : Bytes} (hk₁ : k₁ < 2 ^ 32) (hk₂ : k₂ < 2 ^ 32) (hp₁ : p₁.length ≤ maxPayloadSize)
    (hp₂ : p₂.length ≤ maxPayloadSize) (h : c.build t₁ k₁ p₁ = c.build t₂ k₂ p₂) :
    t₁ = t₂ ∧ k₁ = k₂ := by
  have h₁ : checkFrame c.dstMac (c.build t₁ k₁ p₁) = _ := checkFrame_build hfit t₁ hk₁ hp₁
  have h₂ : checkFrame c.dstMac (c.build t₂ k₂ p₂) = _ := checkFrame_build hfit t₂ hk₂ hp₂
  rw [if_pos rfl] at h₁ h₂
  rw [h, h₂] at h₁
  have heq := Option.some.inj h₁
  exact ⟨FrameType.code_inj (congrArg ReceivedFrame.type heq).symm,
    (congrArg ReceivedFrame.seqNum heq).symm⟩

theorem frame_build (k : Nat) (c : Session) : ∃ t seq p, c.frame k = c.build t seq p ∧
    seq < 2 ^ 32 ∧ p.length ≤ maxPayloadSize ∧
      (t = .START ∧ k = 0 ∨ t = .DATA ∧ 1 ≤ k ∧ k ≤ c.totalPackets ∧ seq = k ∨
        t = .END ∧ c.totalPackets < k) := by
  have hmax := c.totalPackets_lt
  unfold frame
  split
  · exact ⟨.START, 0, [], rfl, by decide, by simp, .inl ⟨rfl, ‹_›⟩⟩
  · split
    · exact ⟨.DATA, k, c.chunk k, c.dataFrame_eq k, by omega, c.chunk_length k,
        .inr (.inl ⟨rfl, by omega, ‹_›, rfl⟩)⟩
    · exact ⟨.END, c.endSeq, [], rfl, c.endSeq_lt, by simp, .inr (.inr ⟨rfl, by omega⟩)⟩

/-- DATA frame `k` is no other frame of the session. -/
theorem frame_eq_data (hfit : c.data.length < 2 ^ 64) {j k : Nat} (hk : k ≤ c.totalPackets)
    (h : c.frame j = c.dataFrame k) : j = k := by
  have hmax := c.totalPackets_lt
  obtain ⟨t, seq, p, hf, hseq, hp, hcase⟩ := c.frame_build j
  rw [hf, dataFrame_eq] at h
  obtain ⟨rfl, rfl⟩ := build_inj hfit hseq (by omega) hp (c.chunk_length k) h
  rcases hcase with ⟨ht, -⟩ | ⟨-, -, -, hj⟩ | ⟨ht, -⟩
  · exact absurd ht (by decide)
  · exact hj.symm
  · exact absurd ht (by decide)

theorem frame_eq_start (hfit : c.data.length < 2 ^ 64) {j : Nat} (h : c.frame j = c.startFrame) :
    j = 0 := by
  obtain ⟨t, seq, p, hf, hseq, hp, hcase⟩ := c.frame_build j
  rw [hf, startFrame] at h
  obtain ⟨rfl, rfl⟩ := build_inj hfit hseq (by decide) hp (by simp) h
  rcases hcase with ⟨-, hj⟩ | ⟨ht, -⟩ | ⟨ht, -⟩
  · exact hj
  · exact absurd ht (by decide)
  · exact absurd ht (by decide)

theorem frame_eq_end (hfit : c.data.length < 2 ^ 64) {j : Nat} (h : c.frame j = c.endFrame) :
    c.totalPackets < j := by
  obtain ⟨t, seq, p, hf, hseq, hp, hcase⟩ := c.frame_build j
  rw [hf, endFrame] at h
  obtain ⟨rfl, rfl⟩ := build_inj hfit hseq c.endSeq_lt hp (by simp) h
  rcases hcase with ⟨ht, -⟩ | ⟨ht, -⟩ | ⟨-, hj⟩
  · exact absurd ht (by decide)
  · exact absurd ht (by decide)
  · exact hj

/-- An acknowledgement of the session that advertises an open window. -/
def IsOpenAck (c : Session) (myMac : Mac) (f : Bytes) : Prop :=
  ∃ k w, k < 2 ^ 32 ∧ 1 ≤ w ∧ w ≤ RECEIVER_WINDOW_CAPACITY ∧
    f = ackFrame c.srcMac myMac c.sessionId k w

theorem IsOpenAck.readAck {f : Bytes} (h : c.IsOpenAck myMac f) :
    ∃ k w, 1 ≤ w ∧ w ≤ RECEIVER_WINDOW_CAPACITY ∧
      readAck c.srcMac c.sessionId f = some (k, w) := by
  obtain ⟨k, w, hk, h1, hw, rfl⟩ := h
  have hw' : w < 2 ^ 16 := hw.trans_lt (by decide)
  rw [readAck_ackFrame _ _ _ _ c.sessionId_lt hk hw', if_pos ⟨rfl, rfl⟩]
  exact ⟨k, w, h1, hw, rfl⟩

theorem IsOpenAck.isAck {f : Bytes} (h : c.IsOpenAck myMac f) : IsAck myMac f := by
  obtain ⟨k, w, hk, -, hw, rfl⟩ := h
  exact ⟨c.srcMac, c.sessionId, k, w, c.sessionId_lt, hk, hw.trans_lt (by decide), rfl⟩

/-- It is no frame of the sender. -/
theorem IsOpenAck.ne_frame (hfit : c.data.length < 2 ^ 64) {f : Bytes}
    (h : c.IsOpenAck myMac f) (k : Nat) : f ≠ c.frame k := by
  rintro rfl
  obtain ⟨j, w, -, -, hread⟩ := h.readAck
  rw [readAck_frame hfit] at hread
  exact absurd hread (by simp)

end Session

/-! ## The receiver -/

namespace Receiver

variable {r : Receiver}

/-- The receiver follows the session and keeps no packet from beyond its window. -/
structure Near (c : Session) (r : Receiver) : Prop extends Tracks c r where
  near : ∀ k ∈ r.outOfOrderBuffer, k < r.receiveWindowBase + RECEIVER_WINDOW_CAPACITY
  keys_lt : ∀ k ∈ r.outOfOrderBuffer, k < 2 ^ 32 - 1

/-- So it advertises a window that is open. -/
theorem Near.availableWindow (h : Near c r) :
    1 ≤ r.availableWindow ∧ r.availableWindow ≤ RECEIVER_WINDOW_CAPACITY := by
  have hlen : r.outOfOrderBuffer.entries.length ≤ RECEIVER_WINDOW_CAPACITY - 1 := by
    refine PieceMap.length_le (a := r.receiveWindowBase + 1) fun k hk => ?_
    obtain ⟨d, hd⟩ := Option.isSome_iff_exists.mp (AList.lookup_isSome.mpr hk)
    have hgt : r.receiveWindowBase + 1 ≤ k := (h.holds.ahead_eq k d hd).1
    have hlt := h.near k hk
    omega
  unfold Receiver.availableWindow RECEIVER_WINDOW_CAPACITY at *
  split <;> omega

theorem Near.sendAck (h : Near c r) (k : Nat) :
    ∃ w, 1 ≤ w ∧ w ≤ RECEIVER_WINDOW_CAPACITY ∧
      r.sendAck myMac c.srcMac k = ackFrame c.srcMac myMac c.sessionId k w :=
  ⟨_, h.availableWindow.1, h.availableWindow.2, by rw [Receiver.sendAck, h.session]⟩

theorem near_started (c : Session) : Near c (started c) :=
  { tracks_started c with
    near := fun k hk => absurd hk (AList.notMem_empty k)
    keys_lt := fun k hk => absurd hk (AList.notMem_empty k) }

theorem Near.markEnd (h : Near c r) : Near c { r with endPacketReceived := true } :=
  { h.toTracks.markEnd with
    near := h.near
    keys_lt := h.keys_lt }

/-- A DATA packet that the sender could number. -/
theorem Near.onData (h : Near c r) {k : Nat} (hk : k ≤ c.totalPackets) (hlt : k < 2 ^ 32 - 1) :
    Near c (r.onData myMac (c.received .DATA k (c.chunk k))).1 := by
  by_cases hin : k ≥ r.receiveWindowBase ∧ k < r.receiveWindowBase + RECEIVER_WINDOW_CAPACITY
  · have hw := onData_window myMac r (c.received .DATA k (c.chunk k)) h.keys_lt hlt hin.1 hin.2
    have hbase := Window.put_base_le (w := r.window) k (c.chunk k)
    have hle : r.receiveWindowBase ≤
        (r.onData myMac (c.received .DATA k (c.chunk k))).1.receiveWindowBase :=
      hbase.trans_eq (congrArg Window.base hw).symm
    have hmem : ∀ j ∈ (r.onData myMac (c.received .DATA k (c.chunk k))).1.outOfOrderBuffer,
        j = k ∨ j ∈ r.outOfOrderBuffer := by
      intro j hj
      refine Window.mem_of_mem_put (w := r.window) (d := c.chunk k) ?_
      have hj' : j ∈ (r.onData myMac (c.received .DATA k (c.chunk k))).1.window.ahead := hj
      rwa [hw] at hj'
    refine { h.toTracks.onData h.keys_lt hk hlt with near := fun j hj => ?_, keys_lt := ?_ }
    · rcases hmem j hj with rfl | hj
      · omega
      · have := h.near j hj
        omega
    · intro j hj
      rcases hmem j hj with rfl | hj
      · exact hlt
      · exact h.keys_lt j hj
  · rw [onData_outside myMac r _ hin]
    exact h

theorem Near.onData_acks (h : Near c r) (k : Nat) :
    ∀ a ∈ (r.onData myMac (c.received .DATA k (c.chunk k))).2,
      ∃ w, 1 ≤ w ∧ w ≤ RECEIVER_WINDOW_CAPACITY ∧
        a = ackFrame c.srcMac myMac c.sessionId k w := by
  intro a ha
  rw [Receiver.onData_acks myMac r _ a ha]
  exact h.sendAck k

/-- Only a silence ends a call by a timeout. -/
theorem finish_ne_timedOut (r : Receiver) : ∀ x ∈ r.finish, x ≠ .timedOut := by
  intro x hx
  unfold finish at hx
  split at hx
  · split at hx <;> cases hx <;> simp
  · exact absurd hx (by simp)

end Receiver

/-! ## Both sides -/

/-- No START frame is given to the receiver after a DATA frame. -/
def NoRestart (c : Session) (es : List (LinkEvent Unit)) : Prop :=
  es.Pairwise fun e e' => ∀ k, 1 ≤ k → k ≤ c.totalPackets → e = .receive (c.dataFrame k) →
    e' ≠ .receive c.startFrame

/-- The event ends a call of the receiver that is in a session, for lack of frames. -/
def SessionTimesOut (s : Link Unit) : LinkEvent Unit → Prop
  | .timeout => s.receiver.sessionActive = true
  | _ => False

namespace Link

/-- A call of the receiver has ended at END. -/
def Ended (s : Link Unit) : Prop := ∃ x ∈ s.results, x ≠ .timedOut

/-- What holds after the events `hist`. -/
structure Flow (c : Session) (myMac : Mac) (hist : List (LinkEvent Unit)) (s : Link Unit) :
    Prop where
  sender : (s.senders ()).Flow c 1 RECEIVER_WINDOW_CAPACITY (c.Acked myMac s.air)
  air : ∀ f ∈ s.air, (∃ k, (s.senders ()).Used c k ∧ f = c.frame k) ∨ c.IsOpenAck myMac f
  receiver : s.receiver.sessionActive = true → s.receiver.Near c
  held : s.receiver.sessionActive = true → ∀ k, 1 ≤ k → k ≤ c.totalPackets →
    c.Acked myMac s.air k → s.receiver.window.Held k
  started : c.Acked myMac s.air 0 → s.receiver.sessionActive = true ∨ s.Ended
  fresh : (∀ k, 1 ≤ k → k ≤ c.totalPackets → .receive (c.dataFrame k) ∉ hist) →
    ∀ k, 1 ≤ k → k ≤ c.totalPackets → ¬c.Acked myMac s.air k

variable {s s' : Link Unit} {hist : List (LinkEvent Unit)}

theorem not_acked_start (c : Session) (myMac : Mac) (k : Nat) :
    ¬c.Acked myMac (start : Link Unit).air k := by
  rintro ⟨w, -, hmem⟩
  exact absurd hmem (by simp [start])

theorem flow_start : Flow c myMac [] start where
  sender := Sender.flow_fresh c _ (by decide)
  air := fun f hf => absurd hf (by simp [start])
  receiver := fun h => absurd h (by simp [start, Receiver.call])
  held := fun h => absurd h (by simp [start, Receiver.call])
  started := fun h => absurd h (not_acked_start c myMac 0)
  fresh := fun _ k _ _ => not_acked_start c myMac k

/-- A round of the receive loop on a frame with number `j`: it is enough that it keeps to the
    session, that what is held stays held, and that what is acknowledged is held. -/
theorem Flow.received (h : Flow c myMac hist s) {e : LinkEvent Unit}
    {p : Receiver × List Bytes × Option CallResult} (j : Nat) (hj : j < 2 ^ 32)
    (hnear : p.1.sessionActive = true → p.1.Near c)
    (hacks : ∀ a ∈ p.2.1, ∃ w, 1 ≤ w ∧ w ≤ RECEIVER_WINDOW_CAPACITY ∧
      a = ackFrame c.srcMac myMac c.sessionId j w)
    (hres : ∀ x ∈ p.2.2, x ≠ .timedOut)
    (hheld : p.1.sessionActive = true → ∀ k, 1 ≤ k → k ≤ c.totalPackets →
      c.Acked myMac s.air k ∨ (k = j ∧ p.2.1 ≠ []) → p.1.window.Held k)
    (hstarted : c.Acked myMac s.air 0 ∨ (0 = j ∧ p.2.1 ≠ []) →
      p.1.sessionActive = true ∨ s.Ended)
    (hfresh : 1 ≤ j → j ≤ c.totalPackets → p.2.1 ≠ [] → e = .receive (c.dataFrame j)) :
    Flow c myMac (hist ++ [e]) (s.received p) := by
  have hmax := c.totalPackets_lt
  have hacks' : ∀ a ∈ p.2.1, ∃ w < 2 ^ 16, a = ackFrame c.srcMac myMac c.sessionId j w := by
    intro a ha
    obtain ⟨w, -, hw, heq⟩ := hacks a ha
    exact ⟨w, hw.trans_lt (by decide), heq⟩
  have hrecv : (s.received p).receiver.sessionActive = true →
      p.2.2 = none ∧ (s.received p).receiver = p.1 ∧ p.1.sessionActive = true := by
    intro hactive
    unfold Link.received at hactive ⊢
    dsimp only at hactive ⊢
    cases hnone : p.2.2 with
    | none =>
      rw [hnone] at hactive
      exact ⟨rfl, rfl, hactive⟩
    | some x =>
      rw [hnone] at hactive
      exact absurd hactive (by simp [Receiver.call])
  have hended : s.Ended → (s.received p).Ended := by
    rintro ⟨x, hx, hne⟩
    exact ⟨x, List.mem_append_left _ hx, hne⟩
  refine ⟨?_, ?_, ?_, ?_, ?_, ?_⟩
  · exact { h.sender with
      toBuffered := h.sender.toBuffered.mono fun k hk => hk.mono
      at_pc := h.sender.at_pc }
  · intro f hf
    rcases List.mem_append.mp hf with hf | hf
    · exact h.air f hf
    · obtain ⟨w, h1, hw, heq⟩ := hacks f hf
      exact .inr ⟨j, w, hj, h1, hw, heq⟩
  · intro hactive
    obtain ⟨-, heq, hp⟩ := hrecv hactive
    rw [heq]
    exact hnear hp
  · intro hactive k h1 hk hacked
    obtain ⟨-, heq, hp⟩ := hrecv hactive
    rw [heq]
    exact hheld hp k h1 hk (Session.acked_append_acks hj hacks' (by omega) hacked)
  · intro hacked
    cases hnone : p.2.2 with
    | some x =>
      refine .inr ⟨x, List.mem_append_right _ ?_, hres x (by rw [hnone]; rfl)⟩
      rw [hnone]
      exact List.mem_singleton_self x
    | none =>
      have heq : (s.received p).receiver = p.1 := by
        rw [Link.received, hnone]
        rfl
      rw [heq]
      exact (hstarted (Session.acked_append_acks hj hacks' (by decide) hacked)).imp_right hended
  · intro hnot k h1 hk hacked
    rcases Session.acked_append_acks hj hacks' (by omega) hacked with hold | ⟨rfl, hne⟩
    · refine h.fresh (fun k h1 hk hmem => ?_) k h1 hk hold
      exact hnot k h1 hk (List.mem_append_left _ hmem)
    · have he := hfresh h1 hk hne
      exact hnot k h1 hk (by rw [he]; exact List.mem_append_right _ (List.mem_singleton_self _))

/-- A round that changes nothing but perhaps ends the call. -/
theorem Flow.received_same (h : Flow c myMac hist s) (e : LinkEvent Unit) {x : Option CallResult}
    (hres : ∀ y ∈ x, y ≠ .timedOut) :
    Flow c myMac (hist ++ [e]) (s.received (s.receiver, [], x)) := by
  refine h.received 0 (by decide) h.receiver (fun a ha => absurd ha (by simp)) hres ?_ ?_ ?_
  · intro hactive k h1 hk hacked
    rcases hacked with hacked | ⟨-, hne⟩
    · exact h.held hactive k h1 hk hacked
    · exact absurd rfl hne
  · intro hacked
    rcases hacked with hacked | ⟨-, hne⟩
    · exact h.started hacked
    · exact absurd rfl hne
  · intro h1
    omega

theorem Flow.receive_start (hfit : c.data.length < 2 ^ 64) (h : Flow c myMac hist s)
    (hdst : c.dstMac = myMac)
    (hearly : ∀ k, 1 ≤ k → k ≤ c.totalPackets → .receive (c.dataFrame k) ∉ hist) :
    Flow c myMac (hist ++ [.receive c.startFrame])
      (s.received (s.receiver.receive myMac c.startFrame)) := by
  rw [Receiver.receive_start hfit hdst]
  refine h.received 0 (by decide) (fun _ => Receiver.near_started c) ?_
    (fun x hx => absurd hx (by simp)) ?_ (fun _ => .inl rfl) (fun h1 => by omega)
  · intro a ha
    rw [List.mem_singleton.mp ha]
    exact (Receiver.near_started c).sendAck 0
  · intro _ k h1 hk hacked
    rcases hacked with hacked | ⟨h0, -⟩
    · exact absurd hacked (h.fresh hearly k h1 hk)
    · omega

theorem Flow.receive_data (hfit : c.data.length < 2 ^ 64) (h : Flow c myMac hist s)
    (hdst : c.dstMac = myMac) {j : Nat} (h1 : 1 ≤ j) (hj : j ≤ c.totalPackets)
    (hlt : j < 2 ^ 32 - 1) :
    Flow c myMac (hist ++ [.receive (c.dataFrame j)])
      (s.received (s.receiver.receive myMac (c.dataFrame j))) := by
  rw [Receiver.receive_data hfit hdst hj]
  by_cases hc : s.receiver.sessionActive = true ∧ s.receiver.currentSessionId = c.sessionId
  swap
  · rw [if_neg hc]
    exact h.received_same _ fun x hx => absurd hx (by simp)
  rw [if_pos hc]
  have hn := h.receiver hc.1
  refine h.received j (by omega) (fun _ => hn.onData hj hlt) (hn.onData_acks j)
    (Receiver.finish_ne_timedOut _) ?_ ?_ fun _ _ _ => rfl
  · intro _ k hk1 hk hacked
    refine Receiver.onData_held hn.keys_lt hlt ?_
    exact hacked.imp_left fun hacked => h.held hc.1 k hk1 hk hacked
  · intro _
    have hn' : (s.receiver.onData myMac (c.received .DATA j (c.chunk j))).1.Near c :=
      hn.onData hj hlt
    exact .inl hn'.active

theorem Flow.receive_end (hfit : c.data.length < 2 ^ 64) (h : Flow c myMac hist s)
    (hdst : c.dstMac = myMac) (e : LinkEvent Unit) (hmax : c.totalPackets < 2 ^ 32 - 1) :
    Flow c myMac (hist ++ [e]) (s.received (s.receiver.receive myMac c.endFrame)) := by
  have hend := Session.endSeq_eq_of_lt hmax
  rw [Receiver.receive_end hfit hdst]
  unfold Receiver.onEnd
  split
  swap
  · exact h.received_same _ (Receiver.finish_ne_timedOut _)
  rename_i hc
  have hn := h.receiver hc.1
  refine h.received (c.totalPackets + 1) (by omega) (fun _ => hn.markEnd) ?_
    (Receiver.finish_ne_timedOut _) ?_ (fun _ => .inl hc.1) (fun _ hle => by omega)
  · intro a ha
    rw [List.mem_singleton.mp ha, ← hend]
    exact hn.sendAck _
  · intro _ k h1 hk hacked
    rcases hacked with hacked | ⟨he, -⟩
    · exact h.held hc.1 k h1 hk hacked
    · omega

/-- One step keeps the invariant, unless it restarts the session or lets it time out. -/
theorem Flow.step (hfit : c.data.length < 2 ^ 64) (h : Flow c myMac hist s)
    {e : LinkEvent Unit} (hrestart : NoRestart c (hist ++ [e])) (htime : ¬SessionTimesOut s e)
    (hs : step (fun _ => c) myMac s e = some s') : Flow c myMac (hist ++ [e]) s' := by
  have hmax := c.totalPackets_lt
  have hold : (∀ k, 1 ≤ k → k ≤ c.totalPackets → .receive (c.dataFrame k) ∉ hist ++ [e]) →
      ∀ k, 1 ≤ k → k ≤ c.totalPackets → ¬c.Acked myMac s.air k :=
    fun hnot => h.fresh fun k h1 hk hmem => hnot k h1 hk (List.mem_append_left _ hmem)
  cases e with
  | send i a =>
    obtain ⟨p, hstep, rfl⟩ := Option.map_eq_some_iff.mp hs
    have hmoves := Sender.step_flow (by decide) h.sender hstep
    have hupd : Function.update s.senders () p.1 () = p.1 := Function.update_self ..
    have hback : ∀ k < 2 ^ 32, c.Acked myMac (s.air ++ p.2) k → c.Acked myMac s.air k := by
      intro k hk hacked
      refine Session.acked_append_frames hfit s.air (fun f hf => ?_) hk hacked
      obtain ⟨j, -, -, hframe⟩ := hmoves.out f hf
      exact ⟨j, hframe⟩
    refine ⟨?_, fun f hf => ?_, h.receiver, ?_, ?_, ?_⟩
    · show (Function.update s.senders () p.1 ()).Flow c 1 _ (c.Acked myMac (s.air ++ p.2))
      rw [hupd]
      exact { hmoves.flow with
        toBuffered := hmoves.flow.toBuffered.mono fun k hk => hk.mono
        at_pc := hmoves.flow.at_pc }
    · show (∃ k, (Function.update s.senders () p.1 ()).Used c k ∧ f = c.frame k) ∨ _
      rw [hupd]
      rcases List.mem_append.mp hf with hf | hf
      · exact (h.air f hf).imp_left fun ⟨k, hk, he⟩ => ⟨k, hk.mono hmoves.base hmoves.next, he⟩
      · obtain ⟨k, hk, -, he⟩ := hmoves.out f hf
        exact .inl ⟨k, hk, he⟩
    · intro hactive k h1 hk hacked
      exact h.held hactive k h1 hk (hback k (by omega) hacked)
    · intro hacked
      exact h.started (hback 0 (by decide) hacked)
    · intro hnot k h1 hk hacked
      exact hold hnot k h1 hk (hback k (by omega) hacked)
  | hear i frame =>
    obtain ⟨hmem, hs⟩ := Option.ite_none_right_eq_some.mp hs
    cases hs
    have hupd : Function.update s.senders () ((s.senders ()).hear c frame) () =
      (s.senders ()).hear c frame := Function.update_self ..
    have hhear : ((s.senders ()).hear c frame).Flow c 1 RECEIVER_WINDOW_CAPACITY
          (c.Acked myMac s.air) ∧
        ((s.senders ()).hear c frame).sendWindowBase = (s.senders ()).sendWindowBase ∧
        ((s.senders ()).hear c frame).nextSeqNum = (s.senders ()).nextSeqNum ∧
        ((s.senders ()).hear c frame).pc = (s.senders ()).pc := by
      refine Sender.hear_flow h.sender fun k w hread _ => ?_
      rcases h.air frame hmem with ⟨j, -, rfl⟩ | hack
      · rw [Session.readAck_frame hfit] at hread
        exact absurd hread (by simp)
      · refine ⟨Session.acked_of_readAck hmem hack.isAck hread, ?_⟩
        obtain ⟨j, v, h1, hv, hread'⟩ := hack.readAck
        rw [hread'] at hread
        cases hread
        exact ⟨h1, hv⟩
    obtain ⟨hflow, hbase, hnext, -⟩ := hhear
    refine ⟨?_, fun f hf => ?_, h.receiver, h.held, h.started, hold⟩
    · show (Function.update s.senders () ((s.senders ()).hear c frame) ()).Flow c 1 _ _
      rw [hupd]
      exact hflow
    · show (∃ k, (Function.update s.senders () ((s.senders ()).hear c frame) ()).Used c k ∧ _) ∨ _
      rw [hupd]
      exact (h.air f hf).imp_left fun ⟨k, hk, he⟩ => ⟨k, hk.mono hbase.ge hnext.ge, he⟩
  | receive frame =>
    obtain ⟨hmem, hs⟩ := Option.ite_none_right_eq_some.mp hs
    cases hs
    rcases h.air frame hmem with ⟨j, hj, rfl⟩ | hack
    · by_cases hdst : c.dstMac = myMac
      swap
      · rw [Receiver.receive_elsewhere hfit hdst]
        exact h.received_same _ fun x hx => absurd hx (by simp)
      unfold Sender.Used at hj
      have hle := h.sender.next_le
      have hnlt := h.sender.next_lt
      have hbase := h.sender.base_le_next
      rcases Nat.eq_zero_or_pos j with rfl | h1
      · refine h.receive_start hfit hdst fun k h1 hk hin => ?_
        exact (List.pairwise_append.mp hrestart).2.2 _ hin _ (List.mem_singleton_self _) k h1 hk
          rfl rfl
      · rcases Nat.lt_or_ge c.totalPackets j with hlt | hle'
        · have hT : c.totalPackets < 2 ^ 32 - 1 := by omega
          have hframe : c.frame j = c.endFrame := by
            rw [Session.frame, if_neg (by omega), if_neg (by omega)]
          rw [hframe]
          exact h.receive_end hfit hdst _ hT
        · rw [Session.frame_data h1 hle']
          exact h.receive_data hfit hdst h1 hle' (by omega)
    · rcases Receiver.receive_ack s.receiver hack.isAck with heq | heq <;> rw [heq]
      · exact h.received_same _ fun x hx => absurd hx (by simp)
      · exact h.received_same _ (Receiver.finish_ne_timedOut _)
  | timeout =>
    cases hs
    have hidle : ¬s.receiver.sessionActive = true := htime
    refine ⟨h.sender, h.air, ?_, ?_, fun hacked => .inr ?_, hold⟩
    · intro hactive
      exact absurd hactive (by simp [Receiver.call])
    · intro hactive
      exact absurd hactive (by simp [Receiver.call])
    · obtain ⟨x, hx, hne⟩ := (h.started hacked).resolve_left hidle
      exact ⟨x, List.mem_append_left _ hx, hne⟩

/-- What flow control promises: the bounds of the sender's window and the data in its buffer;
    that window inside the receiver's, as long as the receiver is in the session, that is, until
    its call has ended at END; a window that is open in every round of the loop; and END behind
    the last acknowledgement. -/
structure FlowControl (c : Session) (myMac : Mac) (s : Link Unit) : Prop where
  base_le_next : (s.senders ()).sendWindowBase ≤ (s.senders ()).nextSeqNum
  next_le : (s.senders ()).nextSeqNum ≤ c.totalPackets + 1
  data_keys : ∀ k, 1 ≤ k → k ≤ c.totalPackets →
    (k ∈ (s.senders ()).sendBuffer ↔
      (s.senders ()).sendWindowBase ≤ k ∧ k ≤ (s.senders ()).nextSeqNum - 1)
  in_session : s.receiver.sessionActive = true ∨ s.Ended
  base_le : s.receiver.sessionActive = true →
    (s.senders ()).sendWindowBase ≤ s.receiver.receiveWindowBase
  not_beyond : s.receiver.sessionActive = true → ∀ k, 1 ≤ k → k ≤ c.totalPackets →
    c.dataFrame k ∈ s.air → k < s.receiver.receiveWindowBase + RECEIVER_WINDOW_CAPACITY
  effective_window : ∀ currentCwnd, (s.senders ()).pc = .fill currentCwnd →
    1 ≤ min currentCwnd (s.senders ()).rwnd
  end_last : c.endFrame ∈ s.air → ∀ k, 1 ≤ k → k ≤ c.totalPackets →
    k < (s.senders ()).sendWindowBase ∧ c.Acked myMac s.air k

/-- The sending thread has entered the window loop. A call that failed has if START was
    acknowledged. -/
def LoopEntered (s : Link Unit) : Prop :=
  match (s.senders ()).pc with
  | .idle | .startSend _ | .startWait _ => False
  | .done false => (s.senders ()).isAcked 0 = true
  | _ => True

theorem Flow.loop_start (h : Flow c myMac hist s) (hloop : LoopEntered s) :
    (s.senders ()).isAcked 0 = true := by
  have hat := h.sender.at_pc
  unfold LoopEntered at hloop
  generalize (s.senders ()).pc = pc at hat hloop
  cases pc with
  | idle | startSend _ | startWait _ => exact hloop.elim
  | window => exact hat
  | fill _ | transmit _ | await | blocked | endSend _ | endWait _ => exact hat.1
  | done ok =>
    cases ok with
    | true => exact hat
    | false => exact hloop

/-- The base of the sender's window is at most that of the receiver's: a packet below it has been
    acknowledged, so it is held. -/
theorem Flow.base_le (h : Flow c myMac hist s) (hactive : s.receiver.sessionActive = true) :
    (s.senders ()).sendWindowBase ≤ s.receiver.receiveWindowBase := by
  by_contra hlt
  have hn := h.receiver hactive
  have hpos : 1 ≤ s.receiver.receiveWindowBase := hn.holds.base_pos
  have hle := h.sender.base_le
  have hacked := h.sender.slid s.receiver.receiveWindowBase hpos (by omega)
  rcases h.held hactive _ hpos (by omega) hacked with hbelow | hmem
  · exact absurd hbelow (Nat.lt_irrefl _)
  · obtain ⟨d, hd⟩ := Option.isSome_iff_exists.mp (AList.lookup_isSome.mpr hmem)
    exact absurd (hn.holds.ahead_eq _ d hd).1 (Nat.not_succ_le_self _)

theorem Flow.flowControl (hfit : c.data.length < 2 ^ 64) (h : Flow c myMac hist s)
    (hloop : LoopEntered s) : FlowControl c myMac s := by
  have hnext := h.sender.next_le
  have hpos := h.sender.next_pos
  refine ⟨h.sender.base_le_next, hnext, ?_, ?_, h.base_le, ?_, ?_, ?_⟩
  · intro k h1 hk
    rw [h.sender.keys k h1 hk]
    omega
  · exact h.started (h.sender.of_acked (h.loop_start hloop))
  · intro hactive k h1 hk hmem
    rcases h.air _ hmem with ⟨j, hj, hframe⟩ | hack
    · obtain rfl := Session.frame_eq_data hfit hk hframe.symm
      have hnear := h.sender.next_near
      have hbase := h.base_le hactive
      unfold Sender.Used at hj
      omega
    · exact absurd (Session.frame_data h1 hk).symm (hack.ne_frame hfit k)
  · intro currentCwnd hpc
    have hat := h.sender.at_pc
    rw [hpc] at hat
    obtain ⟨-, -, hcwnd⟩ := hat
    exact Nat.le_min.mpr ⟨hcwnd, h.sender.rwnd.1⟩
  · intro hmem k h1 hk
    have hlt : c.totalPackets < (s.senders ()).sendWindowBase := by
      rcases h.air _ hmem with ⟨j, hj, hframe⟩ | hack
      · have := Session.frame_eq_end hfit hframe.symm
        unfold Sender.Used at hj
        omega
      · exact absurd (c.frame_end).symm (hack.ne_frame hfit _)
    exact ⟨by omega, h.sender.slid k h1 (by omega)⟩

/-- In every run in which the session is neither restarted behind a DATA frame nor times out, the
    two sides keep to flow control from the entry of the window loop on. -/
theorem flow_control (c : Session) (myMac : Mac) (hfit : c.data.length < 2 ^ 64)
    (es : List (LinkEvent Unit)) (s : Link Unit) (hrestart : NoRestart c es)
    (htime : Along (Link.step (fun _ => c) myMac) (fun s e => ¬SessionTimesOut s e) start es)
    (hrun : run (Link.step (fun _ => c) myMac) start es = some s) (hloop : LoopEntered s) :
    FlowControl c myMac s := by
  have hflow : NoRestart c es → Flow c myMac es s := by
    refine run_history_along (I := fun es s => NoRestart c es → Flow c myMac es s) hrun htime
      (fun _ => flow_start) ?_
    intro hist t e t' ih htime hs hrestart
    exact (ih (List.pairwise_append.mp hrestart).1).step hfit hrestart htime hs
  exact (hflow hrestart).flowControl hfit hloop

/-- The START handshake of one byte, and its DATA frame with the acknowledgement. -/
def dataRun : List (LinkEvent Unit) := openSession () oneByte ++ sendData () oneByte

def isTimeout : LinkEvent Unit → Bool
  | .timeout => true
  | _ => false

/-- The event gives the receiver a DATA frame. -/
def deliversData (c : Session) : LinkEvent Unit → Bool
  | .receive f => (List.range' 1 c.totalPackets).any fun k => f == c.dataFrame k
  | _ => false

/-- A handshake without DATA frames and a rest without START frames. -/
theorem noRestart_append {pre post : List (LinkEvent Unit)}
    (hpre : ∀ e ∈ pre, deliversData c e = false)
    (hpost : ∀ e ∈ post, deliversStart c e = false) : NoRestart c (pre ++ post) := by
  have hfirst : ∀ e ∈ pre, ∀ e' ∈ pre ++ post, ∀ k, 1 ≤ k → k ≤ c.totalPackets →
      e = .receive (c.dataFrame k) → e' ≠ .receive c.startFrame := by
    rintro e he e' - k h1 hk rfl
    have hno := hpre _ he
    simp only [deliversData, List.any_eq_false, beq_iff_eq] at hno
    exact absurd rfl (hno k (List.mem_range'_1.mpr (by omega)))
  have hsecond : ∀ e' ∈ post, e' ≠ .receive c.startFrame := by
    rintro e' he' rfl
    have := hpost _ he'
    simp [deliversStart] at this
  refine List.pairwise_append.mpr ⟨?_, ?_, fun e he e' he' => ?_⟩
  · exact List.pairwise_of_forall_mem_list fun e he e' he' =>
      hfirst e he e' (List.mem_append_left _ he')
  · exact List.pairwise_of_forall_mem_list fun e _ e' he' _ _ _ _ => hsecond e' he'
  · exact hfirst e he e' (List.mem_append_right _ he')

/-- It ends inside the loop, with the packet in the buffer. -/
theorem flow_control_sample :
    ∃ s, run (Link.step (fun _ => oneByte) sampleDst) start dataRun = some s ∧
      (s.senders ()).pc = .blocked ∧ FlowControl oneByte sampleDst s := by
  have hpc : (run (Link.step (fun _ => oneByte) sampleDst) start dataRun).map
      (fun s => (s.senders ()).pc) = some .blocked := by decide +kernel
  obtain ⟨s, hs, hblocked⟩ := Option.map_eq_some_iff.mp hpc
  have htime : ∀ e ∈ dataRun, isTimeout e = false := by decide +kernel
  have hdata : ∀ e ∈ dataRun.take 3, deliversData oneByte e = false := by decide +kernel
  have hlate : ∀ e ∈ dataRun.drop 3, deliversStart oneByte e = false := by decide +kernel
  have hrestart : NoRestart oneByte dataRun := by
    rw [← List.take_append_drop 3 dataRun]
    exact noRestart_append hdata hlate
  refine ⟨s, hs, hblocked, flow_control oneByte sampleDst (by decide) dataRun s hrestart ?_ hs ?_⟩
  · refine (along_of_forall htime).mono fun s e he => ?_
    cases e with
    | timeout => exact absurd he (by decide)
    | _ => exact fun h => h
  · unfold LoopEntered
    rw [hblocked]
    trivial

end Link

end CdsGuard.Guard
