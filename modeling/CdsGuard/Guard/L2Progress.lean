import CdsGuard.Guard.L2Flow

/-
  No deadlock in `GuardL2`: from every state that a session can come to, as long as no handshake
  has used up its tries, further events lead to a call that returns true and to its data being
  returned at the other end (`can_finish`). The medium only has to let frames through again.

  In the window loop one round brings the packet at the base of the window to the receiver and its
  acknowledgement back, so the base moves (`round_slides`). This rests on a window that is open, and
  on numbers that do not wrap: with a packet count above 2 ^ 32 - 513 the end of the window, a
  `uint32_t`, can come out below its base, and then nothing is sent any more.
-/

namespace CdsGuard.Guard

open CdsGuard.Lib

variable {c : Session} {myMac : Mac}

/-! ## The sender -/

namespace Sender

variable {s : Sender} {acked : Nat → Prop}

/-- A handshake may try this often. -/
def maxTries : Nat := 5

/-- The call has not failed, and will not for lack of tries. -/
def Undecided : SendPc → Prop
  | .startSend tries | .endSend tries => tries < maxTries
  | .done ok => ok = true
  | _ => True

/-- The frame of a handshake is in the buffer, and sent when the thread waits for it. -/
def Ready (c : Session) (air : List Bytes) (s : Sender) : SendPc → Prop
  | .startSend _ => 0 ∈ s.sendBuffer
  | .startWait _ => 0 ∈ s.sendBuffer ∧ c.startFrame ∈ air
  | .endSend _ => c.endSeq ∈ s.sendBuffer
  | .endWait _ => c.endSeq ∈ s.sendBuffer ∧ c.endFrame ∈ air
  | _ => True

theorem inFlight_of_mem {k : Nat} (hmem : k ∈ s.sendBuffer) (hnot : ¬s.isAcked k = true) :
    s.inFlight k = true := by
  obtain ⟨p, hp⟩ := Option.isSome_iff_exists.mp (AList.lookup_isSome.mpr hmem)
  rw [isAcked, hp] at hnot
  rw [inFlight, hp]
  simpa using hnot

theorem mem_hear {k : Nat} (f : Bytes) (h : k ∈ s.sendBuffer) : k ∈ (s.hear c f).sendBuffer := by
  unfold hear
  split
  · exact h
  · split
    · exact h
    · split
      · exact h
      · rename_i j w _ _ p _ _
        rw [(onAckReceived_frame c _ j w).2.1]
        exact (AList.mem_insert _).mpr (.inr h)

theorem hear_pc (f : Bytes) : (s.hear c f).pc = s.pc := by
  unfold hear
  split
  · rfl
  · split
    · rfl
    · split
      · rfl
      · exact (onAckReceived_frame c _ _ _).1

theorem hear_base (f : Bytes) : (s.hear c f).sendWindowBase = s.sendWindowBase := by
  unfold hear
  split
  · rfl
  · split
    · rfl
    · split
      · rfl
      · exact (onAckReceived_frame c _ _ _).2.2.1

theorem Ready.mono {air more : List Bytes} {t : Sender} {pc : SendPc} (h : Ready c air s pc)
    (hbuf : ∀ k, k ∈ s.sendBuffer → k ∈ t.sendBuffer) : Ready c (air ++ more) t pc := by
  cases pc with
  | startSend _ => exact hbuf 0 h
  | startWait _ => exact ⟨hbuf 0 h.1, List.mem_append_left _ h.2⟩
  | endSend _ => exact hbuf _ h
  | endWait _ => exact ⟨hbuf _ h.1, List.mem_append_left _ h.2⟩
  | _ => trivial

theorem tryHandshake_eq {k tries : Nat} (wait : SendPc) (htries : tries < maxTries)
    (hbuf : Buffered c acked s) (hmem : k ∈ s.sendBuffer) :
    s.tryHandshake k tries wait = some ({ s with pc := wait }, [c.frame k]) := by
  obtain ⟨p, hp⟩ := Option.isSome_iff_exists.mp (AList.lookup_isSome.mpr hmem)
  have hlt : tries < 5 := htries
  rw [tryHandshake, if_pos hlt, hp, Option.map_some, (hbuf.buffer k p hp).1]

/-- A try of a handshake leaves the frame in the buffer, or gives up. -/
theorem tryHandshake_cases {k tries : Nat} {wait : SendPc} {p : Sender × List Bytes}
    (hbuf : Buffered c acked s) (h : s.tryHandshake k tries wait = some p) :
    p = ({ s with pc := .done false }, []) ∨
      (k ∈ s.sendBuffer ∧ p = ({ s with pc := wait }, [c.frame k])) := by
  unfold tryHandshake at h
  split at h
  · obtain ⟨q, hq, rfl⟩ := Option.map_eq_some_iff.mp h
    exact .inr ⟨AList.lookup_isSome.mp (by rw [hq]; rfl), by rw [(hbuf.buffer k q hq).1]⟩
  · cases h
    exact .inl rfl

theorem Ready.step {air : List Bytes} {a : SendAction} {p : Sender × List Bytes}
    (hend : c.endSeq = c.totalPackets + 1) (hbuf : Buffered c acked s) (h : Ready c air s s.pc)
    (hs : s.step c a = some p) : Ready c (air ++ p.2) p.1 p.1.pc := by
  cases a with
  | go =>
    unfold Sender.step at hs
    dsimp only at hs
    split at hs <;> rename_i heq <;> rw [heq] at h
    · -- idle
      cases hs
      exact AList.mem_keys.mpr (List.mem_singleton_self 0)
    · -- startSend
      rcases tryHandshake_cases hbuf hs with rfl | ⟨hmem, rfl⟩
      · trivial
      · exact ⟨hmem, List.mem_append_right _ (List.mem_singleton_self _)⟩
    · -- startWait
      split at hs
      · cases hs
        trivial
      · exact absurd hs (by simp)
    · -- window
      split at hs <;> cases hs
      · trivial
      · exact (AList.mem_insert _).mpr (.inl rfl)
    · -- fill
      cases hs
      trivial
    · -- transmit
      cases hs
      trivial
    · -- await
      split at hs <;> cases hs <;> trivial
    · -- blocked
      exact absurd hs (by simp)
    · -- endSend
      rcases tryHandshake_cases hbuf hs with rfl | ⟨hmem, rfl⟩
      · trivial
      · refine ⟨hmem, List.mem_append_right _ (List.mem_singleton.mpr ?_)⟩
        rw [hend, Session.frame_end]
    · -- endWait
      split at hs
      · cases hs
        trivial
      · exact absurd hs (by simp)
    · -- done
      exact absurd hs (by simp)
  | expire =>
    unfold Sender.step at hs
    dsimp only at hs
    split at hs
    · rename_i tries heq
      rw [heq] at h
      obtain ⟨-, hs⟩ := Option.ite_none_left_eq_some.mp hs
      cases hs
      exact h.1
    · rename_i tries heq
      rw [heq] at h
      obtain ⟨-, hs⟩ := Option.ite_none_left_eq_some.mp hs
      cases hs
      exact h.1
    · exact absurd hs (by simp)
  | wake expired =>
    unfold Sender.step at hs
    dsimp only at hs
    split at hs
    · cases hs
      trivial
    · exact absurd hs (by simp)

/-! ### A round of the window loop -/

theorem isAcked_foldl_transmitOne {k : Nat} (fs : List (Nat × Bytes)) (hfs : ∀ kf ∈ fs, kf.1 ≠ k)
    (s : Sender) : (fs.foldl transmitOne s).isAcked k = s.isAcked k := by
  induction fs generalizing s with
  | nil => rfl
  | cons kf fs ih =>
    rw [List.foldl_cons, ih fun kf' hkf' => hfs kf' (List.mem_cons_of_mem _ hkf')]
    exact isAcked_insert_ne (s := s) _ (hfs kf List.mem_cons_self).symm

/-- The window loop has room for the packet at its base, and sends it if it was not sent before. -/
theorem window_steps (h : Flow c 1 RECEIVER_WINDOW_CAPACITY acked s)
    (hmax : c.totalPackets + RECEIVER_WINDOW_CAPACITY < 2 ^ 32) (hpc : s.pc = .window)
    (hle : s.sendWindowBase ≤ c.totalPackets) :
    ∃ s₁ s₂ s₃ out, s.step c .go = some (s₁, []) ∧ s₁.step c .go = some (s₂, []) ∧
      s₂.step c .go = some (s₃, out) ∧ s₃.pc = .await ∧
      s₃.sendWindowBase = s.sendWindowBase ∧ s.sendWindowBase < s₃.nextSeqNum ∧
      (s.isAcked s.sendWindowBase = true → s₃.isAcked s.sendWindowBase = true) := by
  obtain ⟨hb, hw, hat⟩ := h
  rw [hpc] at hat
  have hcwnd := hw.cwnd_u32 hle
  obtain ⟨m, hseqs, hm, hlt, hnear⟩ := windowSeqs_eq hw (u32 s.cwnd)
  have hopen : s.sendWindowBase < s.nextSeqNum + m := by
    rcases hw.base_le_next.lt_or_eq with hbelow | heq
    · omega
    · -- nothing is in flight: the window is not empty
      have hlen := congrArg List.length hseqs
      unfold windowSeqs at hlen
      dsimp only at hlen
      rw [List.length_range', List.length_range'] at hlen
      have hr := hw.rwnd
      have hwrap : u32 (s.sendWindowBase + min (u32 s.cwnd) s.rwnd) =
          s.sendWindowBase + min (u32 s.cwnd) s.rwnd := u32_of_lt (by omega)
      rw [hwrap] at hlen
      omega
  set fs := (List.range' s.nextSeqNum m).map fun k => (k, c.dataFrame k) with hfs
  have hb₁ : Buffered c acked { s with pc := .transmit fs } := hb.congr rfl rfl rfl
  have hw₁ : InWindow c 1 RECEIVER_WINDOW_CAPACITY { s with pc := .transmit fs } := { hw with }
  obtain ⟨-, -, -, hbase, hnext⟩ := Flow.transmit
    (t := fs.foldl transmitOne { s with pc := .transmit fs }) m hb₁ hw₁ hm hlt hnear hat rfl
  refine ⟨{ s with pc := .fill (u32 s.cwnd) }, { s with pc := .transmit fs },
    { fs.foldl transmitOne { s with pc := .transmit fs } with pc := .await }, fs.map Prod.snd,
    ?_, ?_, rfl, rfl, ?_, ?_, ?_⟩
  · unfold Sender.step
    dsimp only
    rw [hpc]
    exact if_pos hle
  · rw [hfs, ← hseqs]
    rfl
  · exact hbase
  · show s.sendWindowBase < (fs.foldl transmitOne { s with pc := .transmit fs }).nextSeqNum
    rw [hnext]
    exact hopen
  · intro hacked
    have hbelow := hw.base_lt_next hb.base_pos hle hacked
    refine (isAcked_foldl_transmitOne fs (fun kf hkf => ?_) { s with pc := .transmit fs }).trans
      hacked
    obtain ⟨k, hk, rfl⟩ := List.mem_map.mp hkf
    have hge := (List.mem_range'_1.mp hk).1
    show k ≠ s.sendWindowBase
    omega

/-- Behind the wait the window has moved past an acknowledged packet at its base. -/
theorem afterWait_slides (hb : Buffered c acked s) (hw : InWindow c 1 RECEIVER_WINDOW_CAPACITY s)
    (hstart : s.isAcked 0 = true) (hle : s.sendWindowBase ≤ c.totalPackets)
    (hacked : s.isAcked s.sendWindowBase = true) :
    s.sendWindowBase < (s.afterWait []).1.sendWindowBase := by
  have hpos := hb.base_pos
  have hdata := hb.data_of_le hle
  have hnlt := hw.next_lt
  have hbelow := hw.base_lt_next hpos hle hacked
  obtain ⟨hw', hbase⟩ := hw.slideOne hpos hle hacked
  have hstart' : s.slideOne.isAcked 0 = true := by
    have hlook : (s.sendBuffer.erase s.sendWindowBase).lookup 0 = s.sendBuffer.lookup 0 :=
      AList.lookup_erase_ne (by omega)
    unfold isAcked at hstart ⊢
    unfold Sender.slideOne
    dsimp only
    rwa [hlook]
  have hentries : s.sendBuffer.entries.length ≠ 0 := by
    intro hnil
    have hmem := mem_of_isAcked hacked
    rw [AList.mem_keys, AList.keys, List.length_eq_zero_iff.mp hnil] at hmem
    exact absurd hmem (by simp)
  obtain ⟨fuel, hfuel⟩ := Nat.exists_eq_succ_of_ne_zero hentries
  obtain ⟨-, -, -, hmore, -⟩ := Flow.slide fuel (hb.slideOne hdata (by omega) hacked) hw'
    (fun k hk => hdata k (AList.mem_erase.mp hk).2) hstart'
  have hnone : s.outstanding.filter (fun k => k ∈ ([] : List Nat)) = [] := by simp
  unfold afterWait
  dsimp only
  rw [hnone, List.isEmpty_nil, if_pos rfl, hfuel, slide_succ, if_pos hacked]
  omega

theorem base_mem_outstanding (hlt : s.sendWindowBase < s.nextSeqNum)
    (hmem : s.sendWindowBase ∈ s.sendBuffer) (hnot : ¬s.isAcked s.sendWindowBase = true) :
    s.sendWindowBase ∈ s.outstanding :=
  List.mem_filter.mpr ⟨List.mem_range'_1.mpr (by omega), inFlight_of_mem hmem hnot⟩

/-- Behind the wait, with the packet at the base past its timeout: its frame is sent again. -/
theorem afterWait_resends (hb : Buffered c acked s) (hpos : s.sendWindowBase < s.nextSeqNum)
    (hmem : s.sendWindowBase ∈ s.sendBuffer) (hnot : ¬s.isAcked s.sendWindowBase = true) :
    (s.afterWait [s.sendWindowBase]).1.pc = .window ∧
      (s.afterWait [s.sendWindowBase]).1.sendWindowBase = s.sendWindowBase ∧
      (s.afterWait [s.sendWindowBase]).1.sendBuffer = s.sendBuffer ∧
      c.frame s.sendWindowBase ∈ (s.afterWait [s.sendWindowBase]).2 := by
  have hout := base_mem_outstanding hpos hmem hnot
  have hsome : ¬(s.outstanding.filter fun k => k ∈ [s.sendWindowBase]).isEmpty = true := by
    rw [List.isEmpty_iff]
    exact List.ne_nil_of_mem (List.mem_filter.mpr ⟨hout, by simp⟩)
  have hstay : ∀ fuel, slide fuel s.onPacketLoss = s.onPacketLoss := by
    intro fuel
    cases fuel with
    | zero => rfl
    | succ fuel => exact (slide_succ fuel _).trans (if_neg hnot)
  obtain ⟨p, hp⟩ := Option.isSome_iff_exists.mp (AList.lookup_isSome.mpr hmem)
  unfold afterWait
  dsimp only
  rw [if_neg hsome, hstay]
  refine ⟨rfl, rfl, rfl, List.mem_filterMap.mpr ⟨s.sendWindowBase, ?_, ?_⟩⟩
  · exact List.mem_filter.mpr ⟨hout, by simp⟩
  · rw [hp, Option.map_some, (hb.buffer _ p hp).1]

end Sender

/-! ## Both sides -/

theorem Receiver.finish_ended {r : Receiver} (h : r.finish ≠ none) :
    r.endPacketReceived = true := by
  unfold Receiver.finish at h
  split at h
  · rename_i hc
    exact hc.2.1
  · exact absurd rfl h

/-- The receiver answers a DATA packet that is not beyond its window. -/
theorem Receiver.onData_answers {r : Receiver} {f : ReceivedFrame}
    (h : f.seqNum < r.receiveWindowBase + RECEIVER_WINDOW_CAPACITY) :
    (r.onData myMac f).2 ≠ [] := by
  unfold Receiver.onData
  split
  · dsimp only
    split
    · exact List.cons_ne_nil _ _
    · split <;> exact List.cons_ne_nil _ _
  · rw [if_pos (by omega)]
    exact List.cons_ne_nil _ _

theorem Session.totalPackets_near (hsize : c.data.length < 1400 * (2 ^ 32 - 513)) :
    c.totalPackets + RECEIVER_WINDOW_CAPACITY < 2 ^ 32 := by
  have hle := pieceCount_le (show 0 < maxPayloadSize by decide) hsize
  rw [Session.totalPackets_eq (by omega)]
  unfold RECEIVER_WINDOW_CAPACITY
  omega

namespace Receiver

variable {r : Receiver}

theorem answers_start (hfit : c.data.length < 2 ^ 64) (hdst : c.dstMac = myMac) :
    ∃ w < 2 ^ 16, ackFrame c.srcMac myMac c.sessionId 0 w ∈
      (r.receive myMac (c.frame 0)).2.1 := by
  rw [Session.frame_zero, receive_start hfit hdst]
  obtain ⟨w, hw, hsend⟩ := sendAck_eq (r := started c) (c := c) myMac rfl 0
  exact ⟨w, hw, List.mem_singleton.mpr hsend.symm⟩

theorem Near.answers_data (hfit : c.data.length < 2 ^ 64) (hdst : c.dstMac = myMac)
    (h : Near c r) {k : Nat} (h1 : 1 ≤ k) (hk : k ≤ c.totalPackets)
    (hin : k < r.receiveWindowBase + RECEIVER_WINDOW_CAPACITY) :
    ∃ w < 2 ^ 16, ackFrame c.srcMac myMac c.sessionId k w ∈
      (r.receive myMac (c.frame k)).2.1 := by
  rw [Session.frame_data h1 hk, receive_data hfit hdst hk, if_pos ⟨h.active, h.session⟩]
  have hans : (r.onData myMac (c.received .DATA k (c.chunk k))).2 ≠ [] := onData_answers hin
  obtain ⟨a, ha⟩ := List.exists_mem_of_ne_nil _ hans
  obtain ⟨w, hw, rfl⟩ := h.toTracks.onData_acks k a ha
  exact ⟨w, hw, ha⟩

theorem Near.answers_end (hsize : c.data.length < 1400 * (2 ^ 32 - 2)) (hdst : c.dstMac = myMac)
    (h : Near c r) :
    ∃ w < 2 ^ 16, ackFrame c.srcMac myMac c.sessionId (c.totalPackets + 1) w ∈
      (r.receive myMac (c.frame (c.totalPackets + 1))).2.1 := by
  have hend := Session.endSeq_eq hsize
  have hcond : r.sessionActive = true ∧
      r.currentSessionId = (c.received .END c.endSeq []).sessionId ∧
        (c.received .END c.endSeq []).seqNum = r.endSeqNum :=
    ⟨h.active, h.session, hend.trans (h.toTracks.endSeqNum hsize).symm⟩
  rw [Session.frame_end, receive_end (Session.length_lt hsize) hdst, onEnd, if_pos hcond]
  obtain ⟨w, hw, hsend⟩ := sendAck_eq (c := c) myMac h.session c.endSeq
  refine ⟨w, hw, List.mem_singleton.mpr ?_⟩
  rw [← hend]
  exact hsend.symm

end Receiver

namespace Link

variable {hist : List (LinkEvent Unit)} {s s' : Link Unit}

/-- Only frames that were sent are acknowledged, and END is when the receiver has seen it. -/
structure Closing (c : Session) (myMac : Mac) (s : Link Unit) : Prop where
  sent : ∀ k ≤ c.totalPackets + 1, c.Acked myMac s.air k → c.frame k ∈ s.air
  closed : s.Ended ∨ s.receiver.endPacketReceived = true →
    c.Acked myMac s.air (c.totalPackets + 1)

theorem closing_start : Closing c myMac start where
  sent := fun k _ hacked => absurd hacked (not_acked_start c myMac k)
  closed := fun h => by
    rcases h with ⟨x, hx, -⟩ | h
    · exact absurd hx (by simp [start])
    · exact absurd h (by simp [start, Receiver.call])

/-- A round of the receive loop on a frame with number `j`. -/
theorem Closing.received (hmax : c.totalPackets < 2 ^ 32 - 1) (h : Closing c myMac s)
    {p : Receiver × List Bytes × Option CallResult} (j : Nat) (hj : j < 2 ^ 32)
    (hacks : ∀ a ∈ p.2.1, ∃ w < 2 ^ 16, a = ackFrame c.srcMac myMac c.sessionId j w)
    (hframe : p.2.1 ≠ [] → c.frame j ∈ s.air)
    (hend : p.1.endPacketReceived = true → s.receiver.endPacketReceived = true ∨
      c.Acked myMac (s.air ++ p.2.1) (c.totalPackets + 1))
    (hfin : p.2.2 ≠ none → p.1.endPacketReceived = true) :
    Closing c myMac (s.received p) := by
  have hseen : p.1.endPacketReceived = true →
      c.Acked myMac (s.air ++ p.2.1) (c.totalPackets + 1) := by
    intro he
    rcases hend he with hold | hnew
    · exact (h.closed (.inr hold)).mono
    · exact hnew
  constructor
  · intro k hk hacked
    refine List.mem_append_left _ ?_
    rcases Session.acked_append_acks hj hacks (by omega) hacked with hold | ⟨rfl, hne⟩
    · exact h.sent k hk hold
    · exact hframe hne
  · rintro (⟨x, hx, hne⟩ | he)
    · rcases List.mem_append.mp hx with hx | hx
      · exact (h.closed (.inl ⟨x, hx, hne⟩)).mono
      · refine hseen (hfin fun hnone => ?_)
        rw [hnone] at hx
        exact absurd hx (by simp)
    · refine hseen ?_
      unfold Link.received at he
      dsimp only at he
      split at he
      · exact absurd he (by simp [Receiver.call])
      · exact he

/-- A round that changes nothing but perhaps ends the call. -/
theorem Closing.received_same (hmax : c.totalPackets < 2 ^ 32 - 1) (h : Closing c myMac s)
    {x : Option CallResult} (hx : x ≠ none → s.receiver.endPacketReceived = true) :
    Closing c myMac (s.received (s.receiver, [], x)) :=
  h.received hmax 0 (by decide) (fun _ ha => absurd ha (by simp)) (fun hne => absurd rfl hne)
    .inl hx

theorem Closing.receive (hsize : c.data.length < 1400 * (2 ^ 32 - 2)) (h : Closing c myMac s)
    (hflow : Flow c myMac hist s) {f : Bytes} (hf : f ∈ s.air) :
    Closing c myMac (s.received (s.receiver.receive myMac f)) := by
  have hfit := Session.length_lt hsize
  have hmax : c.totalPackets < 2 ^ 32 - 1 := by
    have := Session.totalPackets_le hsize
    omega
  rcases hflow.air f hf with ⟨j, -, rfl⟩ | hack
  swap
  · rcases Receiver.receive_ack s.receiver hack.isAck with heq | heq <;> rw [heq]
    · exact h.received_same hmax fun hne => absurd rfl hne
    · exact h.received_same hmax Receiver.finish_ended
  by_cases hdst : c.dstMac = myMac
  swap
  · rw [Receiver.receive_elsewhere hfit hdst]
    exact h.received_same hmax fun hne => absurd rfl hne
  rcases Nat.eq_zero_or_pos j with rfl | h1
  · rw [Session.frame_zero, Receiver.receive_start hfit hdst]
    refine h.received hmax 0 (by decide) (fun a ha => ?_) (fun _ => hf)
      (fun he => absurd he (by simp [Receiver.started])) fun hne => absurd rfl hne
    rw [List.mem_singleton.mp ha]
    exact Receiver.sendAck_eq myMac rfl 0
  rcases Nat.lt_or_ge c.totalPackets j with hlt | hle
  · have hframe : c.frame j = c.endFrame := by
      rw [Session.frame, if_neg (by omega), if_neg (by omega)]
    rw [hframe] at hf ⊢
    rw [Receiver.receive_end hfit hdst]
    unfold Receiver.onEnd
    split
    swap
    · exact h.received_same hmax Receiver.finish_ended
    rename_i hc
    have hend := Session.endSeq_eq_of_lt hmax
    obtain ⟨w, hw, hsend⟩ :=
      Receiver.sendAck_eq (r := { s.receiver with endPacketReceived := true }) (c := c) myMac
        hc.2.1 (c.totalPackets + 1)
    have hone : s.receiver.sendAck myMac (c.received .END c.endSeq []).senderMac
        (c.received .END c.endSeq []).seqNum =
        ackFrame c.srcMac myMac c.sessionId (c.totalPackets + 1) w := by
      rw [← hsend, ← hend]
      rfl
    refine h.received hmax (c.totalPackets + 1) (by omega) (fun a ha => ?_) (fun _ => ?_)
      (fun _ => .inr ⟨w, hw, List.mem_append_right _ ?_⟩) Receiver.finish_ended
    · rw [List.mem_singleton.mp ha]
      exact ⟨w, hw, hone⟩
    · rw [Session.frame_end]
      exact hf
    · rw [← hone]
      exact List.mem_singleton_self _
  · have hframe := Session.frame_data h1 hle
    rw [hframe] at hf ⊢
    rw [Receiver.receive_data hfit hdst hle]
    split
    swap
    · exact h.received_same hmax fun hne => absurd rfl hne
    rename_i hc
    refine h.received hmax j (by omega) ((hflow.receiver hc.1).toTracks.onData_acks j)
      (fun _ => ?_) ?_
      Receiver.finish_ended
    · rw [hframe]
      exact hf
    · intro he
      exact .inl ((Receiver.onData_session myMac s.receiver _).2.symm.trans he)

/-! ## Runs that go on -/

/-- What holds after the events `hist`, none of which restarts the session or lets it time out. -/
structure Live (c : Session) (myMac : Mac) (hist : List (LinkEvent Unit)) (s : Link Unit) :
    Prop where
  flow : Flow c myMac hist s
  noRestart : NoRestart c hist
  truthful : Truthful c myMac s
  closing : Closing c myMac s
  ready : (s.senders ()).Ready c s.air (s.senders ()).pc
  given : ∀ f, .receive f ∈ hist → f ∈ s.air

theorem live_start : Live c myMac [] start where
  flow := flow_start
  noRestart := List.Pairwise.nil
  truthful := truthful_start
  closing := closing_start
  ready := trivial
  given := fun _ h => absurd h (by simp)

/-- The sending thread after a step that comes to `p`. -/
def sent (s : Link Unit) (p : Sender × List Bytes) : Link Unit :=
  { s with senders := Function.update s.senders () p.1, air := s.air ++ p.2 }

@[simp] theorem sent_sender (s : Link Unit) (p : Sender × List Bytes) :
    (s.sent p).senders () = p.1 := by
  show Function.update s.senders () p.1 () = p.1
  exact Function.update_self ..

/-- The listener after a frame. -/
def heard (c : Session) (s : Link Unit) (f : Bytes) : Link Unit :=
  { s with senders := Function.update s.senders () ((s.senders ()).hear c f) }

@[simp] theorem heard_sender (c : Session) (s : Link Unit) (f : Bytes) :
    (s.heard c f).senders () = (s.senders ()).hear c f := by
  show Function.update s.senders () ((s.senders ()).hear c f) () = _
  exact Function.update_self ..

/-- A step is one of the sending thread, of the listener, of the receiver or a timeout. -/
theorem step_cases {e : LinkEvent Unit} (hs : step (fun _ => c) myMac s e = some s') :
    (∃ a p, e = .send () a ∧ (s.senders ()).step c a = some p ∧ s' = s.sent p) ∨
    (∃ f, e = .hear () f ∧ f ∈ s.air ∧ s' = s.heard c f) ∨
    (∃ f, e = .receive f ∧ f ∈ s.air ∧ s' = s.received (s.receiver.receive myMac f)) ∨
    (e = .timeout ∧ s' = { s with
      receiver := .call s.receiver.outOfOrderBuffer
      results := s.results ++ [.timedOut] }) := by
  cases e with
  | send i a =>
    obtain ⟨p, hp, rfl⟩ := Option.map_eq_some_iff.mp hs
    exact .inl ⟨a, p, rfl, hp, rfl⟩
  | hear i f =>
    obtain ⟨hf, hs⟩ := Option.ite_none_right_eq_some.mp hs
    cases hs
    exact .inr (.inl ⟨f, rfl, hf, rfl⟩)
  | receive f =>
    obtain ⟨hf, hs⟩ := Option.ite_none_right_eq_some.mp hs
    cases hs
    exact .inr (.inr (.inl ⟨f, rfl, hf, rfl⟩))
  | timeout =>
    cases hs
    exact .inr (.inr (.inr ⟨rfl, rfl⟩))

theorem air_mono {e : LinkEvent Unit} (hs : step (fun _ => c) myMac s e = some s') :
    ∃ more, s'.air = s.air ++ more := by
  rcases step_cases hs with ⟨a, p, -, -, rfl⟩ | ⟨f, -, -, rfl⟩ | ⟨f, -, -, rfl⟩ | ⟨-, rfl⟩
  · exact ⟨p.2, rfl⟩
  · exact ⟨[], (List.append_nil _).symm⟩
  · exact ⟨_, rfl⟩
  · exact ⟨[], (List.append_nil _).symm⟩

theorem Closing.step (hsize : c.data.length < 1400 * (2 ^ 32 - 2)) (h : Closing c myMac s)
    (hflow : Flow c myMac hist s) {e : LinkEvent Unit}
    (hs : step (fun _ => c) myMac s e = some s') : Closing c myMac s' := by
  have hfit := Session.length_lt hsize
  have hmax := Session.totalPackets_le hsize
  rcases step_cases hs with ⟨a, p, -, hp, rfl⟩ | ⟨f, -, -, rfl⟩ | ⟨f, -, hf, rfl⟩ | ⟨-, rfl⟩
  · refine ⟨fun k hk hacked => List.mem_append_left _ (h.sent k hk ?_),
      fun he => (h.closed he).mono⟩
    refine Session.acked_append_frames hfit s.air (fun f hf => ?_) (by omega) hacked
    obtain ⟨j, -, -, hframe⟩ := (Sender.step_flow (by decide) hflow.sender hp).out f hf
    exact ⟨j, hframe⟩
  · exact ⟨h.sent, h.closed⟩
  · exact h.receive hsize hflow hf
  · refine ⟨h.sent, ?_⟩
    rintro (⟨x, hx, hne⟩ | he)
    · rcases List.mem_append.mp hx with hx | hx
      · exact h.closed (.inl ⟨x, hx, hne⟩)
      · exact absurd (List.mem_singleton.mp hx) hne
    · exact absurd he (by simp [Receiver.call])

theorem ready_step (hmax : c.totalPackets < 2 ^ 32 - 1) (hflow : Flow c myMac hist s)
    (h : (s.senders ()).Ready c s.air (s.senders ()).pc) {e : LinkEvent Unit}
    (hs : step (fun _ => c) myMac s e = some s') :
    (s'.senders ()).Ready c s'.air (s'.senders ()).pc := by
  have hend := Session.endSeq_eq_of_lt hmax
  rcases step_cases hs with ⟨a, p, -, hp, rfl⟩ | ⟨f, -, -, rfl⟩ | ⟨f, -, hf, rfl⟩ | ⟨-, rfl⟩
  · rw [sent_sender]
    exact h.step hend hflow.sender.toBuffered hp
  · have hpc : ((s.senders ()).hear c f).pc = (s.senders ()).pc := Sender.hear_pc f
    rw [heard_sender, hpc, ← List.append_nil (s.heard c f).air]
    exact h.mono fun k hk => Sender.mem_hear f hk
  · exact h.mono fun k hk => hk
  · exact h

/-- One step keeps the invariant, unless it restarts the session or lets it time out. -/
theorem Live.step (hsize : c.data.length < 1400 * (2 ^ 32 - 2)) (h : Live c myMac hist s)
    {e : LinkEvent Unit} (hrestart : NoRestart c (hist ++ [e])) (htime : ¬SessionTimesOut s e)
    (hs : step (fun _ => c) myMac s e = some s') : Live c myMac (hist ++ [e]) s' := by
  have hmax := Session.totalPackets_le hsize
  have hearly : ¬LateStart c myMac s e := by
    intro hlate
    cases e with
    | receive f =>
      obtain ⟨rfl, ⟨k, h1, hk, hacked⟩, -⟩ := hlate
      refine h.flow.fresh (fun j hj1 hj hin => ?_) k h1 hk hacked
      exact (List.pairwise_append.mp hrestart).2.2 _ hin _ (List.mem_singleton_self _) j hj1 hj
        rfl rfl
    | _ => exact hlate
  refine ⟨h.flow.step (Session.length_lt hsize) hrestart htime hs, hrestart,
    h.truthful.step hsize hearly hs, h.closing.step hsize h.flow hs,
    ready_step (by omega) h.flow h.ready hs, fun f hf => ?_⟩
  rcases List.mem_append.mp hf with hf | hf
  · obtain ⟨more, hair⟩ := air_mono hs
    rw [hair]
    exact List.mem_append_left _ (h.given f hf)
  · obtain rfl := List.mem_singleton.mp hf
    rcases step_cases hs with ⟨_, _, he, -⟩ | ⟨_, he, -⟩ | ⟨g, he, hg, rfl⟩ | ⟨he, -⟩
    · cases he
    · cases he
    · cases he
      exact List.mem_append_left _ hg
    · cases he

/-! ## Rounds -/

/-- A state of a run in which the session has been neither restarted nor timed out. -/
def Going (c : Session) (myMac : Mac) (s : Link Unit) : Prop := ∃ hist, Live c myMac hist s

variable (hsize : c.data.length < 1400 * (2 ^ 32 - 513)) (h : Going c myMac s)

include hsize h

theorem Going.step {e : LinkEvent Unit} (htime : e ≠ .timeout)
    (hnew : e = .receive c.startFrame → ∀ k, 1 ≤ k → k ≤ c.totalPackets → c.dataFrame k ∉ s.air)
    (hs : step (fun _ => c) myMac s e = some s') : Going c myMac s' := by
  obtain ⟨hist, hl⟩ := h
  refine ⟨_, hl.step (by omega) (List.pairwise_append.mpr ⟨hl.noRestart, ?_, ?_⟩) ?_ hs⟩
  · exact List.pairwise_singleton _ _
  · rintro x hx e' he' k h1 hk rfl rfl
    exact hnew (List.mem_singleton.mp he').symm k h1 hk (hl.given _ hx)
  · intro hout
    cases e with
    | timeout => exact htime rfl
    | _ => exact hout

theorem Going.send {a : SendAction} {p : Sender × List Bytes}
    (hp : (s.senders ()).step c a = some p) :
    Link.step (fun _ => c) myMac s (.send () a) = some (s.sent p) ∧ Going c myMac (s.sent p) := by
  have hs : Link.step (fun _ => c) myMac s (.send () a) = some (s.sent p) := by
    rw [Link.step, hp]
    rfl
  exact ⟨hs, h.step hsize (by simp) (fun he => by cases he) hs⟩

theorem Going.receive {f : Bytes} (hf : f ∈ s.air)
    (hnew : f = c.startFrame → ∀ k, 1 ≤ k → k ≤ c.totalPackets → c.dataFrame k ∉ s.air) :
    Link.step (fun _ => c) myMac s (.receive f) =
        some (s.received (s.receiver.receive myMac f)) ∧
      Going c myMac (s.received (s.receiver.receive myMac f)) := by
  have hs : Link.step (fun _ => c) myMac s (.receive f) =
      some (s.received (s.receiver.receive myMac f)) := if_pos hf
  refine ⟨hs, h.step hsize (by simp) (fun he => hnew ?_) hs⟩
  cases he
  rfl

/-- The acknowledgement of a packet comes to the listener. -/
theorem Going.hears {k : Nat} (hk : k < 2 ^ 32) (hacked : c.Acked myMac s.air k)
    (hmem : k ∈ (s.senders ()).sendBuffer) :
    Reaches (Link.step (fun _ => c) myMac) s fun t => Going c myMac t ∧
      (t.senders ()).pc = (s.senders ()).pc ∧
      (t.senders ()).sendWindowBase = (s.senders ()).sendWindowBase ∧
      (t.senders ()).isAcked k = true := by
  by_cases hdone : (s.senders ()).isAcked k = true
  · exact .here ⟨h, rfl, rfl, hdone⟩
  obtain ⟨w, hw, hair⟩ := hacked
  have hread := readAck_ackFrame c.srcMac myMac c.srcMac c.sessionId c.sessionId_lt hk hw
  rw [if_pos ⟨rfl, rfl⟩] at hread
  have hs : Link.step (fun _ => c) myMac s (.hear () (ackFrame c.srcMac myMac c.sessionId k w)) =
      some (s.heard c (ackFrame c.srcMac myMac c.sessionId k w)) := if_pos hair
  refine .after hs (.here ⟨h.step hsize (by simp) (fun he => by cases he) hs, ?_, ?_, ?_⟩)
  · rw [heard_sender, Sender.hear_pc]
  · rw [heard_sender, Sender.hear_base]
  · rw [heard_sender]
    exact Sender.isAcked_hear hread (Sender.inFlight_of_mem hmem hdone)

/-- A frame comes to the receiver, and its acknowledgement to the listener. -/
theorem Going.delivers {k : Nat} (hk : k < 2 ^ 32) (hmem : k ∈ (s.senders ()).sendBuffer)
    (hframe : c.frame k ∈ s.air)
    (hnew : k = 0 → ∀ k, 1 ≤ k → k ≤ c.totalPackets → c.dataFrame k ∉ s.air)
    (hack : ∃ w < 2 ^ 16, ackFrame c.srcMac myMac c.sessionId k w ∈
      (s.receiver.receive myMac (c.frame k)).2.1) :
    Reaches (Link.step (fun _ => c) myMac) s fun t => Going c myMac t ∧
      (t.senders ()).pc = (s.senders ()).pc ∧
      (t.senders ()).sendWindowBase = (s.senders ()).sendWindowBase ∧
      (t.senders ()).isAcked k = true := by
  obtain ⟨w, hw, hout⟩ := hack
  obtain ⟨hs, hgo⟩ := h.receive hsize hframe fun he =>
    hnew (Session.frame_eq_start (Session.length_lt (by omega)) he)
  exact .after hs (hgo.hears hsize hk ⟨w, hw, List.mem_append_right _ hout⟩ hmem)

omit hsize in
theorem Going.not_closed (hle : (s.senders ()).sendWindowBase ≤ c.totalPackets)
    (hfit : c.data.length < 2 ^ 64) : ¬c.Acked myMac s.air (c.totalPackets + 1) := by
  obtain ⟨hist, hl⟩ := h
  intro hacked
  have hsent := hl.closing.sent _ (Nat.le_refl _) hacked
  rcases hl.flow.air _ hsent with ⟨j, hj, hframe⟩ | hack
  · rw [Session.frame_end] at hframe
    have hlt := Session.frame_eq_end hfit hframe.symm
    have hnext := hl.flow.sender.next_le
    unfold Sender.Used at hj
    omega
  · exact hack.ne_frame hfit _ rfl

omit hsize in
/-- The receiver stays in the session until END has been acknowledged. -/
theorem Going.in_session (hstart : (s.senders ()).isAcked 0 = true)
    (hopen : ¬c.Acked myMac s.air (c.totalPackets + 1)) : s.receiver.Near c := by
  obtain ⟨hist, hl⟩ := h
  rcases hl.flow.started (hl.flow.sender.of_acked hstart) with hactive | hended
  · exact hl.flow.receiver hactive
  · exact absurd (hl.closing.closed (.inl hended)) hopen

/-- Behind the transmission, with the packet at the base acknowledged. -/
theorem Going.await_slides (hpc : (s.senders ()).pc = .await)
    (hacked : (s.senders ()).isAcked (s.senders ()).sendWindowBase = true) :
    Reaches (Link.step (fun _ => c) myMac) s fun t => Going c myMac t ∧
      (t.senders ()).pc = .window ∧
      (s.senders ()).sendWindowBase < (t.senders ()).sendWindowBase := by
  obtain ⟨hb, hw, hat⟩ := h.choose_spec.flow.sender
  rw [hpc] at hat
  obtain ⟨hstart, hle⟩ := hat
  have hgo : (s.senders ()).step c .go =
      if (s.senders ()).outstanding ≠ [] ∨ (s.senders ()).nextSeqNum ≤ c.totalPackets then
        some ({ s.senders () with pc := .blocked }, [])
      else some ((s.senders ()).afterWait []) := by
    unfold Sender.step
    dsimp only
    rw [hpc]
  split at hgo
  · obtain ⟨hs₁, h₁⟩ := h.send hsize hgo
    have hwake : ((s.sent ({ s.senders () with pc := .blocked }, [])).senders ()).step c
        (.wake []) = some (Sender.afterWait { s.senders () with pc := .blocked } []) := by
      rw [sent_sender]
      rfl
    obtain ⟨hs₂, h₂⟩ := h₁.send hsize hwake
    refine .after hs₁ (.after hs₂ (.here ⟨h₂, ?_, ?_⟩))
    · rw [sent_sender]
      rfl
    · rw [sent_sender]
      exact Sender.afterWait_slides (s := { s.senders () with pc := .blocked })
        (hb.congr rfl rfl rfl) { hw with } hstart hle hacked
  · obtain ⟨hs₁, h₁⟩ := h.send hsize hgo
    refine .after hs₁ (.here ⟨h₁, ?_, ?_⟩)
    · rw [sent_sender]
      rfl
    · rw [sent_sender]
      exact Sender.afterWait_slides hb hw hstart hle hacked

/-- Behind the transmission, with the packet at the base not acknowledged: its timeout. -/
theorem Going.await_resends (hpc : (s.senders ()).pc = .await)
    (hlt : (s.senders ()).sendWindowBase < (s.senders ()).nextSeqNum)
    (hnot : ¬(s.senders ()).isAcked (s.senders ()).sendWindowBase = true) :
    Reaches (Link.step (fun _ => c) myMac) s fun t => Going c myMac t ∧
      (t.senders ()).pc = .window ∧
      (t.senders ()).sendWindowBase = (s.senders ()).sendWindowBase ∧
      (s.senders ()).sendWindowBase ∈ (t.senders ()).sendBuffer ∧
      c.frame (s.senders ()).sendWindowBase ∈ t.air := by
  obtain ⟨hb, hw, hat⟩ := h.choose_spec.flow.sender
  rw [hpc] at hat
  obtain ⟨hstart, hle⟩ := hat
  have hmem : (s.senders ()).sendWindowBase ∈ (s.senders ()).sendBuffer :=
    (hw.keys _ hb.base_pos hle).mpr ⟨Nat.le_refl _, hlt⟩
  have hout : (s.senders ()).outstanding ≠ [] :=
    List.ne_nil_of_mem (Sender.base_mem_outstanding hlt hmem hnot)
  have hgo : (s.senders ()).step c .go = some ({ s.senders () with pc := .blocked }, []) := by
    unfold Sender.step
    dsimp only
    rw [hpc]
    exact if_pos (.inl hout)
  obtain ⟨hs₁, h₁⟩ := h.send hsize hgo
  have hwake : ((s.sent ({ s.senders () with pc := .blocked }, [])).senders ()).step c
      (.wake [(s.senders ()).sendWindowBase]) =
      some (Sender.afterWait { s.senders () with pc := .blocked }
        [(s.senders ()).sendWindowBase]) := by
    rw [sent_sender]
    rfl
  obtain ⟨hs₂, h₂⟩ := h₁.send hsize hwake
  obtain ⟨hpc', hbase, hbuf, hsent⟩ := Sender.afterWait_resends (c := c)
    (s := { s.senders () with pc := .blocked }) (hb.congr rfl rfl rfl) hlt hmem hnot
  refine .after hs₁ (.after hs₂ (.here ⟨h₂, ?_, ?_, ?_, List.mem_append_right _ hsent⟩))
  · rw [sent_sender]
    exact hpc'
  · rw [sent_sender]
    exact hbase
  · rw [sent_sender, hbuf]
    exact hmem

/-- From the head of the loop to behind the transmission. -/
theorem Going.transmits (hpc : (s.senders ()).pc = .window)
    (hle : (s.senders ()).sendWindowBase ≤ c.totalPackets) :
    Reaches (Link.step (fun _ => c) myMac) s fun t => Going c myMac t ∧
      (t.senders ()).pc = .await ∧
      (t.senders ()).sendWindowBase = (s.senders ()).sendWindowBase ∧
      (t.senders ()).sendWindowBase < (t.senders ()).nextSeqNum ∧
      ((s.senders ()).isAcked (s.senders ()).sendWindowBase = true →
        (t.senders ()).isAcked (t.senders ()).sendWindowBase = true) := by
  obtain ⟨s₁, s₂, s₃, out, hp₁, hp₂, hp₃, hpc', hbase, hlt, hacked⟩ :=
    Sender.window_steps h.choose_spec.flow.sender (Session.totalPackets_near hsize) hpc hle
  obtain ⟨hs₁, h₁⟩ := h.send hsize hp₁
  obtain ⟨hs₂, h₂⟩ := h₁.send hsize (by rw [sent_sender]; exact hp₂)
  obtain ⟨hs₃, h₃⟩ := h₂.send hsize (by rw [sent_sender]; exact hp₃)
  refine .after hs₁ (.after hs₂ (.after hs₃ (.here ⟨h₃, ?_⟩)))
  rw [sent_sender]
  dsimp only
  rw [hbase]
  exact ⟨hpc', rfl, hlt, hacked⟩

/-- A round that moves the base of the window. -/
theorem Going.round_slides (hdst : c.dstMac = myMac) (hpc : (s.senders ()).pc = .window)
    (hle : (s.senders ()).sendWindowBase ≤ c.totalPackets) :
    Reaches (Link.step (fun _ => c) myMac) s fun t => Going c myMac t ∧
      (t.senders ()).pc = .window ∧
      (s.senders ()).sendWindowBase < (t.senders ()).sendWindowBase := by
  refine (h.transmits hsize hpc hle).trans fun t ⟨ht, hpct, hbt, hlt, _⟩ => ?_
  rw [← hbt]
  by_cases hacked : (t.senders ()).isAcked (t.senders ()).sendWindowBase = true
  · exact ht.await_slides hsize hpct hacked
  refine (ht.await_resends hsize hpct hlt hacked).trans fun u ⟨hu, hpcu, hbu, hmem, hframe⟩ => ?_
  rw [← hbu] at hmem hframe ⊢
  have hfit : c.data.length < 2 ^ 64 := Session.length_lt (by omega)
  have hleu : (u.senders ()).sendWindowBase ≤ c.totalPackets := by omega
  have hflow := hu.choose_spec.flow
  have hat := hflow.sender.at_pc
  rw [hpcu] at hat
  have hpos := hflow.sender.base_pos
  have hnext := hflow.sender.next_lt
  have hnn := hflow.sender.base_le_next
  have hn := hu.in_session hat (hu.not_closed hleu hfit)
  have hin : (u.senders ()).sendWindowBase <
      u.receiver.receiveWindowBase + RECEIVER_WINDOW_CAPACITY :=
    (hflow.base_le hn.active).trans_lt (Nat.lt_add_of_pos_right (by decide))
  refine (hu.delivers hsize (by omega) hmem hframe (by omega)
    (hn.answers_data hfit hdst hpos hleu hin)).trans fun v ⟨hv, hpcv, hbv, hackv⟩ => ?_
  rw [← hbv] at hackv hleu ⊢
  refine (hv.transmits hsize (hpcv.trans hpcu) hleu).trans fun w ⟨hw, hpcw, hbw, _, hackw⟩ => ?_
  rw [← hbw]
  exact hw.await_slides hsize hpcw (hackw hackv)

/-- The rounds of the window loop. -/
theorem Going.loop (hdst : c.dstMac = myMac) (hpc : (s.senders ()).pc = .window) :
    Reaches (Link.step (fun _ => c) myMac) s fun t => Going c myMac t ∧
      (t.senders ()).pc = .window ∧ c.totalPackets < (t.senders ()).sendWindowBase := by
  refine reaches_of_measure (I := fun s => Going c myMac s ∧ (s.senders ()).pc = .window)
    (fun s => c.totalPackets + 1 - (s.senders ()).sendWindowBase) ?_ ⟨h, hpc⟩
  rintro u ⟨hu, hpcu⟩
  by_cases hle : (u.senders ()).sendWindowBase ≤ c.totalPackets
  · refine (hu.round_slides hsize hdst hpcu hle).trans fun t ⟨ht, hpct, hlt⟩ => .here (.inr ?_)
    exact ⟨⟨ht, hpct⟩, by omega⟩
  · exact .here (.inl ⟨hu, hpcu, by omega⟩)

/-! ## The whole call -/

/-- The call has returned true and its data has been returned. -/
def Finished (c : Session) (s : Link Unit) : Prop :=
  (s.senders ()).pc = .done true ∧ .complete c.data ∈ s.results

omit hsize in
theorem Going.finished (hpc : (s.senders ()).pc = .done true) : Finished c s := by
  have ht := h.choose_spec.truthful
  have hat := ht.sender.at_pc
  rw [hpc] at hat
  exact ⟨hpc, ht.ended hat.2⟩

theorem Going.endWait (hdst : c.dstMac = myMac) (tries : Nat)
    (hpc : (s.senders ()).pc = .endWait tries) :
    Reaches (Link.step (fun _ => c) myMac) s (Finished c) := by
  have hend := Session.endSeq_eq (c := c) (by omega)
  have hmax := Session.totalPackets_le (c := c) (by omega)
  have hat := h.choose_spec.flow.sender.at_pc
  have hready := h.choose_spec.ready
  rw [hpc] at hat hready
  obtain ⟨hmem, hframe⟩ := hready
  rw [hend] at hmem
  have hacked : Reaches (Link.step (fun _ => c) myMac) s fun t => Going c myMac t ∧
      (t.senders ()).pc = (s.senders ()).pc ∧
      (t.senders ()).sendWindowBase = (s.senders ()).sendWindowBase ∧
      (t.senders ()).isAcked (c.totalPackets + 1) = true := by
    by_cases hclosed : c.Acked myMac s.air (c.totalPackets + 1)
    · exact h.hears hsize (by omega) hclosed hmem
    · refine h.delivers hsize (by omega) hmem ?_ (by omega)
        ((h.in_session hat.1 hclosed).answers_end (by omega) hdst)
      rw [Session.frame_end]
      exact hframe
  refine hacked.trans fun t ⟨ht, hpct, _, hackt⟩ => ?_
  have hgo : (t.senders ()).step c .go = some ({ t.senders () with pc := .done true }, []) := by
    unfold Sender.step
    dsimp only
    rw [hpct, hpc, hend]
    exact if_pos hackt
  obtain ⟨hs, hdone⟩ := ht.send hsize hgo
  refine .after hs (.here (hdone.finished ?_))
  rw [sent_sender]

theorem Going.endSend (hdst : c.dstMac = myMac) (tries : Nat)
    (hpc : (s.senders ()).pc = .endSend tries) (htries : tries < Sender.maxTries) :
    Reaches (Link.step (fun _ => c) myMac) s (Finished c) := by
  have hready := h.choose_spec.ready
  rw [hpc] at hready
  have hgo : (s.senders ()).step c .go =
      some ({ s.senders () with pc := .endWait tries }, [c.frame c.endSeq]) := by
    unfold Sender.step
    dsimp only
    rw [hpc]
    exact Sender.tryHandshake_eq _ htries h.choose_spec.flow.sender.toBuffered hready
  obtain ⟨hs, hwait⟩ := h.send hsize hgo
  refine .after hs (hwait.endWait hsize hdst tries ?_)
  rw [sent_sender]

theorem Going.window (hdst : c.dstMac = myMac) (hpc : (s.senders ()).pc = .window) :
    Reaches (Link.step (fun _ => c) myMac) s (Finished c) := by
  refine (h.loop hsize hdst hpc).trans fun t ⟨ht, hpct, hlt⟩ => ?_
  have hgo : (t.senders ()).step c .go = some ({ t.senders () with
      pc := .endSend 0
      sendBuffer := (t.senders ()).sendBuffer.insert c.endSeq ⟨c.endFrame, false⟩ }, []) := by
    unfold Sender.step
    dsimp only
    rw [hpct]
    exact if_neg (by omega)
  obtain ⟨hs, hend⟩ := ht.send hsize hgo
  refine .after hs (hend.endSend hsize hdst 0 ?_ (by decide))
  rw [sent_sender]

theorem Going.blocked (hdst : c.dstMac = myMac) (hpc : (s.senders ()).pc = .blocked) :
    Reaches (Link.step (fun _ => c) myMac) s (Finished c) := by
  have hwake : (s.senders ()).step c (.wake []) = some ((s.senders ()).afterWait []) := by
    unfold Sender.step
    dsimp only
    rw [hpc]
  obtain ⟨hs, hwin⟩ := h.send hsize hwake
  refine .after hs (hwin.window hsize hdst ?_)
  rw [sent_sender]
  rfl

theorem Going.await (hdst : c.dstMac = myMac) (hpc : (s.senders ()).pc = .await) :
    Reaches (Link.step (fun _ => c) myMac) s (Finished c) := by
  have hgo : (s.senders ()).step c .go =
      if (s.senders ()).outstanding ≠ [] ∨ (s.senders ()).nextSeqNum ≤ c.totalPackets then
        some ({ s.senders () with pc := .blocked }, [])
      else some ((s.senders ()).afterWait []) := by
    unfold Sender.step
    dsimp only
    rw [hpc]
  split at hgo
  · obtain ⟨hs, hblocked⟩ := h.send hsize hgo
    refine .after hs (hblocked.blocked hsize hdst ?_)
    rw [sent_sender]
  · obtain ⟨hs, hwin⟩ := h.send hsize hgo
    refine .after hs (hwin.window hsize hdst ?_)
    rw [sent_sender]
    rfl

theorem Going.transmit (hdst : c.dstMac = myMac) (fs : List (Nat × Bytes))
    (hpc : (s.senders ()).pc = .transmit fs) :
    Reaches (Link.step (fun _ => c) myMac) s (Finished c) := by
  have hgo : (s.senders ()).step c .go = some
      ({ fs.foldl Sender.transmitOne (s.senders ()) with pc := .await }, fs.map Prod.snd) := by
    unfold Sender.step
    dsimp only
    rw [hpc]
  obtain ⟨hs, hawait⟩ := h.send hsize hgo
  refine .after hs (hawait.await hsize hdst ?_)
  rw [sent_sender]

theorem Going.fill (hdst : c.dstMac = myMac) (currentCwnd : Nat)
    (hpc : (s.senders ()).pc = .fill currentCwnd) :
    Reaches (Link.step (fun _ => c) myMac) s (Finished c) := by
  have hgo : (s.senders ()).step c .go = some ({ s.senders () with
      pc := .transmit (((s.senders ()).windowSeqs c currentCwnd).map fun k =>
        (k, c.dataFrame k)) }, []) := by
    unfold Sender.step
    dsimp only
    rw [hpc]
  obtain ⟨hs, htransmit⟩ := h.send hsize hgo
  refine .after hs (htransmit.transmit hsize hdst
    (((s.senders ()).windowSeqs c currentCwnd).map fun k => (k, c.dataFrame k)) ?_)
  rw [sent_sender]

omit hsize in
/-- No DATA frame has been sent before the window loop. -/
theorem Going.no_data (hfit : c.data.length < 2 ^ 64)
    (hbase : (s.senders ()).sendWindowBase = 1 ∧ (s.senders ()).nextSeqNum = 1) :
    ∀ k, 1 ≤ k → k ≤ c.totalPackets → c.dataFrame k ∉ s.air := by
  intro k h1 hk hair
  rcases h.choose_spec.flow.air _ hair with ⟨j, hj, hframe⟩ | hack
  · have hjk := Session.frame_eq_data hfit hk hframe.symm
    unfold Sender.Used at hj
    omega
  · rw [← Session.frame_data h1 hk] at hack
    exact hack.ne_frame hfit _ rfl

theorem Going.startWait (hdst : c.dstMac = myMac) (tries : Nat)
    (hpc : (s.senders ()).pc = .startWait tries) :
    Reaches (Link.step (fun _ => c) myMac) s (Finished c) := by
  have hfit : c.data.length < 2 ^ 64 := Session.length_lt (by omega)
  have hat := h.choose_spec.flow.sender.at_pc
  have hready := h.choose_spec.ready
  rw [hpc] at hat hready
  refine (h.delivers hsize (by decide) hready.1 hready.2 (fun _ => h.no_data hfit hat)
    (Receiver.answers_start hfit hdst)).trans fun t ⟨ht, hpct, _, hackt⟩ => ?_
  have hgo : (t.senders ()).step c .go =
      some ({ t.senders () with pc := .window, sendWindowBase := 1, nextSeqNum := 1 }, []) := by
    unfold Sender.step
    dsimp only
    rw [hpct, hpc]
    exact if_pos hackt
  obtain ⟨hs, hwin⟩ := ht.send hsize hgo
  refine .after hs (hwin.window hsize hdst ?_)
  rw [sent_sender]

theorem Going.startSend (hdst : c.dstMac = myMac) (tries : Nat)
    (hpc : (s.senders ()).pc = .startSend tries) (htries : tries < Sender.maxTries) :
    Reaches (Link.step (fun _ => c) myMac) s (Finished c) := by
  have hready := h.choose_spec.ready
  rw [hpc] at hready
  have hgo : (s.senders ()).step c .go =
      some ({ s.senders () with pc := .startWait tries }, [c.frame 0]) := by
    unfold Sender.step
    dsimp only
    rw [hpc]
    exact Sender.tryHandshake_eq _ htries h.choose_spec.flow.sender.toBuffered hready
  obtain ⟨hs, hwait⟩ := h.send hsize hgo
  refine .after hs (hwait.startWait hsize hdst tries ?_)
  rw [sent_sender]

theorem Going.idle (hdst : c.dstMac = myMac) (hpc : (s.senders ()).pc = .idle) :
    Reaches (Link.step (fun _ => c) myMac) s (Finished c) := by
  have hgo : (s.senders ()).step c .go = some (Sender.call c, []) := by
    unfold Sender.step
    dsimp only
    rw [hpc]
  obtain ⟨hs, hstart⟩ := h.send hsize hgo
  refine .after hs (hstart.startSend hsize hdst 0 ?_ (by decide))
  rw [sent_sender]
  rfl

theorem Going.finishes (hdst : c.dstMac = myMac) (hund : Sender.Undecided (s.senders ()).pc) :
    Reaches (Link.step (fun _ => c) myMac) s (Finished c) := by
  generalize hpc : (s.senders ()).pc = pc at hund
  cases pc with
  | idle => exact h.idle hsize hdst hpc
  | startSend tries => exact h.startSend hsize hdst tries hpc hund
  | startWait tries => exact h.startWait hsize hdst tries hpc
  | window => exact h.window hsize hdst hpc
  | fill currentCwnd => exact h.fill hsize hdst currentCwnd hpc
  | transmit fs => exact h.transmit hsize hdst fs hpc
  | await => exact h.await hsize hdst hpc
  | blocked => exact h.blocked hsize hdst hpc
  | endSend tries => exact h.endSend hsize hdst tries hpc hund
  | endWait tries => exact h.endWait hsize hdst tries hpc
  | done ok =>
    obtain rfl : ok = true := hund
    exact .here (h.finished hpc)

omit hsize h

end Link

end CdsGuard.Guard
