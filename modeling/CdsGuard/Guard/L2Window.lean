import Mathlib.Order.Interval.Finset.Nat
import CdsGuard.Guard.L2Link

/-
  The send window of `GuardL2Sender`, with no limit on the size of the data but that of its 64-bit
  field. A packet count is a `uint32_t`; the last number that the window loop can reach is
  2 ^ 32 - 2, also where there are more packets, because the end of the window is one too.

  The window lies inside the `hi` packets behind its base when no acknowledgement advertises
  more, the buffer holds exactly the packets in it, and `cwnd_` grows by at most 1 for an
  acknowledged packet (`Flow`). One step of each thread keeps this (`step_flow`, `hear_flow`).
-/

namespace CdsGuard.Guard

open CdsGuard.Lib

variable {c : Session} {myMac : Mac}

namespace Sender

variable {lo hi : Nat} {s : Sender} {acked : Nat → Prop}

theorem isAcked_insert_self (p : SentPacketInfo) (k : Nat) :
    isAcked { s with sendBuffer := s.sendBuffer.insert k p } k = p.acked := by
  unfold isAcked
  dsimp only
  rw [AList.lookup_insert]

theorem isAcked_insert_ne (p : SentPacketInfo) {j k : Nat} (h : j ≠ k) :
    isAcked { s with sendBuffer := s.sendBuffer.insert k p } j = s.isAcked j := by
  unfold isAcked
  dsimp only
  rw [AList.lookup_insert_ne h]

/-- The DATA packets that have been acknowledged. -/
def ackedSeqs (s : Sender) : Finset Nat :=
  (Finset.Ico 1 s.nextSeqNum).filter fun k => k < s.sendWindowBase ∨ s.isAcked k = true

theorem mem_ackedSeqs {k : Nat} : k ∈ s.ackedSeqs ↔
    (1 ≤ k ∧ k < s.nextSeqNum) ∧ (k < s.sendWindowBase ∨ s.isAcked k = true) := by
  rw [ackedSeqs, Finset.mem_filter, Finset.mem_Ico]

/-- The packets are numbered in a `uint32_t`. -/
theorem card_ackedSeqs (h : s.nextSeqNum < 2 ^ 32) : s.ackedSeqs.card ≤ 2 ^ 32 - 2 := by
  have hle := Finset.card_filter_le (Finset.Ico 1 s.nextSeqNum)
    fun k => k < s.sendWindowBase ∨ s.isAcked k = true
  rw [Nat.card_Ico] at hle
  unfold ackedSeqs
  omega

/-- The numbers of the window and the two limits on it, of which the advertised one is between
    `lo` and `hi`. Inside the loop `cwnd_` is at most one more than the number of acknowledged
    packets. -/
structure InWindow (c : Session) (lo hi : Nat) (s : Sender) : Prop where
  base_le_next : s.sendWindowBase ≤ s.nextSeqNum
  next_le : s.nextSeqNum ≤ c.totalPackets + 1
  next_lt : s.nextSeqNum < 2 ^ 32
  next_near : s.nextSeqNum ≤ s.sendWindowBase + hi
  keys : ∀ k, 1 ≤ k → k ≤ c.totalPackets →
    (k ∈ s.sendBuffer ↔ s.sendWindowBase ≤ k ∧ k < s.nextSeqNum)
  rwnd : lo ≤ s.rwnd ∧ s.rwnd ≤ hi
  cwnd_pos : 1 ≤ s.cwnd
  cwnd_le : s.sendWindowBase ≤ c.totalPackets → s.cwnd ≤ 1 + s.ackedSeqs.card

/-- What holds where the sending thread stands. The frames to send are the next ones. -/
def FlowAt (c : Session) (hi : Nat) (s : Sender) : SendPc → Prop
  | .idle | .startSend _ | .startWait _ => s.sendWindowBase = 1 ∧ s.nextSeqNum = 1
  | .window => s.isAcked 0 = true
  | .fill currentCwnd =>
    s.isAcked 0 = true ∧ s.sendWindowBase ≤ c.totalPackets ∧ 1 ≤ currentCwnd
  | .transmit fs => s.isAcked 0 = true ∧ s.sendWindowBase ≤ c.totalPackets ∧
      ∃ m, fs = (List.range' s.nextSeqNum m).map (fun k => (k, c.dataFrame k)) ∧
        s.nextSeqNum + m ≤ c.totalPackets + 1 ∧ s.nextSeqNum + m < 2 ^ 32 ∧
        s.nextSeqNum + m ≤ s.sendWindowBase + hi
  | .await | .blocked => s.isAcked 0 = true ∧ s.sendWindowBase ≤ c.totalPackets
  | .endSend _ | .endWait _ => s.isAcked 0 = true ∧ c.totalPackets < s.sendWindowBase
  | .done true => s.isAcked 0 = true
  | .done false => True

/-- Before the window loop. -/
def Handshake : SendPc → Prop
  | .idle | .startSend _ | .startWait _ => True
  | _ => False

/-- The invariant of the sender. -/
structure Flow (c : Session) (lo hi : Nat) (acked : Nat → Prop) (s : Sender) : Prop
    extends Buffered c acked s, InWindow c lo hi s where
  at_pc : FlowAt c hi s s.pc

/-- A number that the sender may have used by now: one below the next, or that of END. -/
def Used (c : Session) (s : Sender) (k : Nat) : Prop :=
  k < s.nextSeqNum ∨ (k = c.totalPackets + 1 ∧ c.totalPackets < s.sendWindowBase)

theorem Used.mono {t : Sender} {k : Nat} (h : Used c s k)
    (hbase : s.sendWindowBase ≤ t.sendWindowBase) (hnext : s.nextSeqNum ≤ t.nextSeqNum) :
    Used c t k := by
  rcases h with hk | ⟨hk, hlt⟩
  · exact .inl (hk.trans_le hnext)
  · exact .inr ⟨hk, hlt.trans_le hbase⟩

/-- What a step of the sending thread comes to. -/
structure Moves (c : Session) (lo hi : Nat) (acked : Nat → Prop) (s : Sender)
    (p : Sender × List Bytes) : Prop where
  flow : Flow c lo hi acked p.1
  base : s.sendWindowBase ≤ p.1.sendWindowBase
  next : s.nextSeqNum ≤ p.1.nextSeqNum
  /-- START frames, and no others, are sent before the loop, and the thread does not go back
      there. -/
  out : ∀ f ∈ p.2, ∃ k, Used c p.1 k ∧ (k = 0 ↔ Handshake s.pc) ∧ f = c.frame k
  phase : Handshake p.1.pc → Handshake s.pc

theorem Flow.goto (hb : Buffered c acked s) (hw : InWindow c lo hi s) {pc : SendPc}
    (hpc : FlowAt c hi s pc) : Flow c lo hi acked { s with pc := pc } :=
  { hb, hw with
    at_pc := by
      revert hpc
      cases pc with
      | done ok => cases ok <;> exact id
      | _ => exact id }

/-- A step to `pc` that sends nothing. -/
theorem Moves.goto (hb : Buffered c acked s) (hw : InWindow c lo hi s) {pc : SendPc}
    (hpc : FlowAt c hi s pc) (hphase : Handshake pc → Handshake s.pc) :
    Moves c lo hi acked s ({ s with pc := pc }, []) :=
  ⟨.goto hb hw hpc, Nat.le_refl _, Nat.le_refl _, fun _ hf => absurd hf (by simp), hphase⟩

/-- Inside the loop the cast of `cwnd_` loses nothing. -/
theorem InWindow.cwnd_u32 (h : InWindow c lo hi s) (hle : s.sendWindowBase ≤ c.totalPackets) :
    1 ≤ u32 s.cwnd := by
  have hcard := card_ackedSeqs h.next_lt
  have hcwnd := h.cwnd_le hle
  rw [u32_of_lt (by omega)]
  exact h.cwnd_pos

theorem inWindow_call (c : Session) (hlimits : lo ≤ 64 ∧ 64 ≤ hi) : InWindow c lo hi (call c) where
  base_le_next := Nat.le_refl 1
  next_le := by show 1 ≤ _; omega
  next_lt := by show 1 < 2 ^ 32; decide
  next_near := by show 1 ≤ 1 + hi; omega
  keys := fun k h1 _ => by
    show k ∈ (AList.singleton 0 ⟨c.startFrame, false⟩ : SendBuffer) ↔ 1 ≤ k ∧ k < 1
    have hk : k ∈ (AList.singleton 0 ⟨c.startFrame, false⟩ : SendBuffer) ↔ k = 0 := by
      rw [AList.mem_keys, AList.keys_singleton, List.mem_singleton]
    rw [hk]
    omega
  rwnd := hlimits
  cwnd_pos := Nat.le_refl 1
  cwnd_le := fun _ => by show 1 ≤ 1 + _; omega

theorem inWindow_fresh (c : Session) (hlimits : lo ≤ 64 ∧ 64 ≤ hi) : InWindow c lo hi fresh where
  base_le_next := Nat.le_refl 1
  next_le := by show 1 ≤ _; omega
  next_lt := by show 1 < 2 ^ 32; decide
  next_near := by show 1 ≤ 1 + hi; omega
  keys := fun k _ _ => by
    show k ∈ (∅ : SendBuffer) ↔ 1 ≤ k ∧ k < 1
    constructor
    · intro hk
      exact absurd hk (AList.notMem_empty k)
    · omega
  rwnd := hlimits
  cwnd_pos := Nat.le_refl 1
  cwnd_le := fun _ => by show 1 ≤ 1 + _; omega

theorem flow_fresh (c : Session) (acked : Nat → Prop) (hlimits : lo ≤ 64 ∧ 64 ≤ hi) :
    Flow c lo hi acked fresh :=
  { (inv_fresh c acked).toBuffered, inWindow_fresh c hlimits with at_pc := ⟨rfl, rfl⟩ }

/-! ### Transmission -/

/-- The first transmission of the next packet. -/
theorem InWindow.transmitOne (h : InWindow c lo hi s) (f : Bytes)
    (hk : s.nextSeqNum ≤ c.totalPackets) (hlt : s.nextSeqNum + 1 < 2 ^ 32)
    (hnear : s.nextSeqNum + 1 ≤ s.sendWindowBase + hi) :
    InWindow c lo hi (s.transmitOne (s.nextSeqNum, f)) ∧
      (s.transmitOne (s.nextSeqNum, f)).nextSeqNum = s.nextSeqNum + 1 := by
  have hnext : (s.transmitOne (s.nextSeqNum, f)).nextSeqNum = s.nextSeqNum + 1 := by
    show (if s.nextSeqNum ≥ s.nextSeqNum then u32 (s.nextSeqNum + 1) else s.nextSeqNum) = _
    rw [if_pos (Nat.le_refl _), u32_of_lt hlt]
  have hle := h.base_le_next
  refine ⟨?_, hnext⟩
  constructor
  · rw [hnext]
    exact hle.trans (Nat.le_succ _)
  · rw [hnext]
    omega
  · rw [hnext]
    exact hlt
  · rw [hnext]
    exact hnear
  · intro j h1 hj
    rw [hnext]
    show j ∈ s.sendBuffer.insert s.nextSeqNum ⟨f, false⟩ ↔ s.sendWindowBase ≤ j ∧ _
    rw [AList.mem_insert, h.keys j h1 hj]
    omega
  · exact h.rwnd
  · exact h.cwnd_pos
  · intro hbase
    refine (h.cwnd_le hbase).trans (Nat.add_le_add_left (Finset.card_le_card ?_) 1)
    intro j hj
    obtain ⟨⟨h1, hjlt⟩, hdone⟩ := mem_ackedSeqs.mp hj
    refine mem_ackedSeqs.mpr ⟨⟨h1, by rw [hnext]; omega⟩, ?_⟩
    rcases hdone with hdone | hdone
    · exact .inl hdone
    · exact .inr ((isAcked_insert_ne (s := s) ⟨f, false⟩ (by omega)).trans hdone)

/-- The transmission of the next `m` packets. -/
theorem Flow.transmit (m : Nat) (hb : Buffered c acked s) (hw : InWindow c lo hi s)
    (hm : s.nextSeqNum + m ≤ c.totalPackets + 1) (hlt : s.nextSeqNum + m < 2 ^ 32)
    (hnear : s.nextSeqNum + m ≤ s.sendWindowBase + hi)
    (hstart : s.isAcked 0 = true) {t : Sender}
    (ht : t = ((List.range' s.nextSeqNum m).map fun k => (k, c.dataFrame k)).foldl
      Sender.transmitOne s) :
    Buffered c acked t ∧ InWindow c lo hi t ∧ t.isAcked 0 = true ∧
      t.sendWindowBase = s.sendWindowBase ∧ t.nextSeqNum = s.nextSeqNum + m := by
  induction m generalizing s with
  | zero =>
    subst ht
    exact ⟨hb, hw, hstart, rfl, rfl⟩
  | succ m ih =>
    have hpos := hb.next_pos
    obtain ⟨hw', hnext⟩ := hw.transmitOne (c.dataFrame s.nextSeqNum) (by omega) (by omega)
      (by omega)
    have hb' := hb.transmitOne hpos (k := s.nextSeqNum) (by omega) (by omega)
    have hstart' : (s.transmitOne (s.nextSeqNum, c.dataFrame s.nextSeqNum)).isAcked 0 = true :=
      (isAcked_insert_ne (s := s) ⟨c.dataFrame s.nextSeqNum, false⟩ (by omega)).trans hstart
    rw [List.range'_succ, List.map_cons, List.foldl_cons, ← hnext] at ht
    have hbase : (s.transmitOne (s.nextSeqNum, c.dataFrame s.nextSeqNum)).sendWindowBase =
      s.sendWindowBase := rfl
    obtain ⟨h1, h2, h3, h4, h5⟩ := ih hb' hw' (by rw [hnext]; omega) (by rw [hnext]; omega)
      (by rw [hnext, hbase]; omega) hstart' ht
    exact ⟨h1, h2, h3, h4.trans hbase, by rw [h5, hnext]; omega⟩

/-! ### Retransmission and slide -/

theorem InWindow.onPacketLoss (h : InWindow c lo hi s) : InWindow c lo hi s.onPacketLoss :=
  { h with
    cwnd_pos := Nat.le_refl 1
    cwnd_le := fun _ => by show 1 ≤ 1 + _; omega }

theorem InWindow.base_lt_next (h : InWindow c lo hi s) (hpos : 1 ≤ s.sendWindowBase)
    (hle : s.sendWindowBase ≤ c.totalPackets) (hacked : s.isAcked s.sendWindowBase = true) :
    s.sendWindowBase < s.nextSeqNum :=
  ((h.keys _ hpos hle).mp (mem_of_isAcked hacked)).2

/-- One round of the slide. -/
theorem InWindow.slideOne (h : InWindow c lo hi s) (hpos : 1 ≤ s.sendWindowBase)
    (hle : s.sendWindowBase ≤ c.totalPackets) (hacked : s.isAcked s.sendWindowBase = true) :
    InWindow c lo hi s.slideOne ∧ s.slideOne.sendWindowBase = s.sendWindowBase + 1 := by
  have hlt := h.base_lt_next hpos hle hacked
  have hnlt := h.next_lt
  have hbase : s.slideOne.sendWindowBase = s.sendWindowBase + 1 := u32_of_lt (by omega)
  have hnear := h.next_near
  refine ⟨?_, hbase⟩
  constructor
  · rw [hbase]
    exact hlt
  · exact h.next_le
  · exact hnlt
  · rw [hbase]
    show s.nextSeqNum ≤ _
    omega
  · intro j h1 hj
    rw [hbase]
    show j ∈ s.sendBuffer.erase s.sendWindowBase ↔ s.sendWindowBase + 1 ≤ j ∧ j < s.nextSeqNum
    rw [AList.mem_erase, h.keys j h1 hj]
    omega
  · exact h.rwnd
  · exact h.cwnd_pos
  · intro _
    refine (h.cwnd_le hle).trans (Nat.add_le_add_left (Finset.card_le_card ?_) 1)
    intro j hj
    obtain ⟨hrange, hdone⟩ := mem_ackedSeqs.mp hj
    refine mem_ackedSeqs.mpr ⟨hrange, ?_⟩
    rw [hbase]
    rcases hdone with hdone | hdone
    · exact .inl (Nat.lt_succ_of_lt hdone)
    · by_cases hjb : j = s.sendWindowBase
      · exact .inl (by omega)
      · right
        have hlook : (s.sendBuffer.erase s.sendWindowBase).lookup j = s.sendBuffer.lookup j :=
          AList.lookup_erase_ne hjb
        unfold isAcked at hdone ⊢
        unfold Sender.slideOne
        dsimp only
        rwa [hlook]

/-- The slide, which stops where the buffer holds no data any more. -/
theorem Flow.slide (fuel : Nat) (hb : Buffered c acked s) (hw : InWindow c lo hi s)
    (hdata : ∀ k ∈ s.sendBuffer, k ≤ c.totalPackets) (hstart : s.isAcked 0 = true) :
    Buffered c acked (slide fuel s) ∧ InWindow c lo hi (slide fuel s) ∧
      (Sender.slide fuel s).isAcked 0 = true ∧
      s.sendWindowBase ≤ (Sender.slide fuel s).sendWindowBase ∧
      (Sender.slide fuel s).nextSeqNum = s.nextSeqNum := by
  induction fuel generalizing s with
  | zero => exact ⟨hb, hw, hstart, Nat.le_refl _, rfl⟩
  | succ fuel ih =>
    rw [slide_succ]
    split
    · rename_i hacked
      have hpos := hb.base_pos
      have hle := hdata _ (mem_of_isAcked hacked)
      have hlt := hw.base_lt_next hpos hle hacked
      have hnlt := hw.next_lt
      obtain ⟨hw', hbase⟩ := hw.slideOne hpos hle hacked
      have hstart' : s.slideOne.isAcked 0 = true := by
        have hlook : (s.sendBuffer.erase s.sendWindowBase).lookup 0 = s.sendBuffer.lookup 0 :=
          AList.lookup_erase_ne (by omega)
        unfold isAcked at hstart ⊢
        unfold Sender.slideOne
        dsimp only
        rwa [hlook]
      obtain ⟨h1, h2, h3, h4, h5⟩ := ih (hb.slideOne hdata (by omega) hacked) hw'
        (fun k hk => hdata k (AList.mem_erase.mp hk).2) hstart'
      exact ⟨h1, h2, h3, by omega, h5⟩
    · exact ⟨hb, hw, hstart, Nat.le_refl _, rfl⟩

/-- The rest of the window loop behind its wait. -/
theorem Moves.afterWait (hb : Buffered c acked s) (hw : InWindow c lo hi s)
    (hstart : s.isAcked 0 = true) (hle : s.sendWindowBase ≤ c.totalPackets)
    (hloop : ¬Handshake s.pc) (expired : List Nat) :
    Moves c lo hi acked s (s.afterWait expired) := by
  have hdata := hb.data_of_le hle
  obtain ⟨t, ht, hbt, hwt, hst, hbase, hnext, hbuf⟩ : ∃ t : Sender,
      (s.afterWait expired).1 = { Sender.slide s.sendBuffer.entries.length t with pc := .window } ∧
      Buffered c acked t ∧ InWindow c lo hi t ∧ t.isAcked 0 = true ∧
      t.sendWindowBase = s.sendWindowBase ∧ t.nextSeqNum = s.nextSeqNum ∧
      t.sendBuffer = s.sendBuffer := by
    unfold Sender.afterWait
    dsimp only
    split
    · exact ⟨s, rfl, hb, hw, hstart, rfl, rfl, rfl⟩
    · exact ⟨s.onPacketLoss, rfl, hb.onPacketLoss, hw.onPacketLoss, hstart, rfl, rfl, rfl⟩
  rw [← hbuf] at hdata
  obtain ⟨hb', hw', hs', hbase', hnext'⟩ := Flow.slide s.sendBuffer.entries.length hbt hwt hdata hst
  refine ⟨?_, ?_, ?_, fun f hf => ?_, ?_⟩
  · rw [ht]
    exact .goto hb' hw' hs'
  · rw [ht]
    exact hbase ▸ hbase'
  · rw [ht]
    show s.nextSeqNum ≤ (Sender.slide _ t).nextSeqNum
    omega
  · obtain ⟨k, hk, hsome⟩ := List.mem_filterMap.mp hf
    obtain ⟨p, hp, rfl⟩ := Option.map_eq_some_iff.mp hsome
    have hout := List.mem_of_mem_filter hk
    obtain ⟨hge, hlt⟩ := List.mem_range'_1.mp (List.mem_of_mem_filter hout)
    have hpos := hb.base_pos
    refine ⟨k, .inl ?_, iff_of_false (by omega) hloop, (hb.buffer k p hp).1⟩
    rw [ht]
    show k < (Sender.slide _ t).nextSeqNum
    omega
  · rw [ht]
    exact False.elim

/-! ### One step -/

theorem Moves.tryHandshake (hb : Buffered c acked s) (hw : InWindow c lo hi s) {k tries : Nat}
    (wait : SendPc) (hpc : FlowAt c hi s wait) (hk : Used c s k) (h0 : k = 0 ↔ Handshake s.pc)
    (hphase : Handshake wait → Handshake s.pc)
    {p : Sender × List Bytes} (hs : s.tryHandshake k tries wait = some p) :
    Moves c lo hi acked s p := by
  unfold Sender.tryHandshake at hs
  split at hs
  · obtain ⟨q, hq, rfl⟩ := Option.map_eq_some_iff.mp hs
    refine ⟨.goto hb hw hpc, Nat.le_refl _, Nat.le_refl _, fun f hf => ?_, hphase⟩
    rw [List.mem_singleton.mp hf]
    exact ⟨k, hk, h0, (hb.buffer k q hq).1⟩
  · cases hs
    exact .goto hb hw trivial False.elim

/-- The frames to send are the next ones, as many as fit both windows. -/
theorem windowSeqs_eq (h : InWindow c lo hi s) (currentCwnd : Nat) :
    ∃ m, s.windowSeqs c currentCwnd = List.range' s.nextSeqNum m ∧
      s.nextSeqNum + m ≤ c.totalPackets + 1 ∧ s.nextSeqNum + m < 2 ^ 32 ∧
      s.nextSeqNum + m ≤ s.sendWindowBase + hi := by
  have hend : u32 (s.sendWindowBase + min currentCwnd s.rwnd) < 2 ^ 32 :=
    Nat.mod_lt _ (Nat.two_pow_pos 32)
  have hle : u32 (s.sendWindowBase + min currentCwnd s.rwnd) ≤
      s.sendWindowBase + min currentCwnd s.rwnd := Nat.mod_le _ _
  have hmin : min currentCwnd s.rwnd ≤ s.rwnd := Nat.min_le_right _ _
  have h1 := h.next_le
  have h2 := h.next_lt
  have h3 := h.next_near
  have h4 := h.rwnd.2
  exact ⟨_, rfl, by omega, by omega, by omega⟩

theorem InWindow.insertEnd (h : InWindow c lo hi s) (hlt : c.totalPackets < s.sendWindowBase)
    (p : SentPacketInfo) :
    InWindow c lo hi { s with sendBuffer := s.sendBuffer.insert (c.totalPackets + 1) p } :=
  { h with
    keys := fun j h1 hj => by
      show j ∈ s.sendBuffer.insert (c.totalPackets + 1) p ↔ _
      rw [AList.mem_insert, ← h.keys j h1 hj]
      constructor
      · rintro (heq | hmem)
        · omega
        · exact hmem
      · exact .inr
    cwnd_le := fun hle => by
      have hle' : s.sendWindowBase ≤ c.totalPackets := hle
      omega }

/-- The first START frame is acknowledged before the loop is entered. -/
theorem InWindow.reset (h : InWindow c lo hi s) (hb : Buffered c acked s)
    (hbase : s.sendWindowBase = 1) (hnext : s.nextSeqNum = 1) :
    Buffered c acked { s with sendWindowBase := 1, nextSeqNum := 1 } ∧
      InWindow c lo hi { s with sendWindowBase := 1, nextSeqNum := 1 } := by
  obtain ⟨pc, buf, cw, ss, ac, rw, base, next⟩ := s
  cases hbase
  cases hnext
  exact ⟨hb, h⟩

/-- A step of the sending thread keeps the invariant. -/
theorem step_flow (hlimits : lo ≤ 64 ∧ 64 ≤ hi) (h : Flow c lo hi acked s) {a : SendAction}
    {p : Sender × List Bytes} (hs : s.step c a = some p) : Moves c lo hi acked s p := by
  obtain ⟨hb, hw, hpc⟩ := h
  cases a with
  | go =>
    unfold Sender.step at hs
    dsimp only at hs
    split at hs <;> rename_i heq <;> rw [heq] at hpc
    · -- idle
      cases hs
      obtain ⟨hbase, hnext⟩ := hpc
      refine ⟨?_, hbase.le, hnext.le, fun _ hf => absurd hf (by simp),
        fun _ => by rw [heq]; trivial⟩
      exact { (inv_call c acked).toBuffered, inWindow_call c hlimits with at_pc := ⟨rfl, rfl⟩ }
    · -- startSend
      rename_i tries
      have hnext : s.nextSeqNum = 1 := hpc.2
      have hhand : Handshake s.pc := by rw [heq]; trivial
      exact .tryHandshake hb hw (k := 0) (.startWait tries) hpc (.inl (by omega))
        (iff_of_true rfl hhand) (fun _ => hhand) hs
    · -- startWait
      split at hs
      · rename_i hacked
        cases hs
        obtain ⟨hbase, hnext⟩ := hpc
        obtain ⟨hb', hw'⟩ := hw.reset hb hbase hnext
        exact ⟨.goto hb' hw' hacked, hbase.le, hnext.le, fun _ hf => absurd hf (by simp),
          False.elim⟩
      · exact absurd hs (by simp)
    · -- window
      split at hs
      · rename_i hle
        cases hs
        exact .goto hb hw ⟨hpc, hle, hw.cwnd_u32 hle⟩ False.elim
      · rename_i hgt
        cases hs
        have hlt : c.totalPackets < s.sendWindowBase := by omega
        have hle := hw.base_le_next
        have hmax := hw.next_lt
        have hend : c.endSeq = c.totalPackets + 1 := Session.endSeq_eq_of_lt (by omega)
        have hb' := hb.insertEnd (by omega) hlt
        have hstart := (isAcked_insert_ne (s := s) ⟨c.endFrame, false⟩
          (show 0 ≠ c.endSeq by omega)).trans hpc
        have hw' := hw.insertEnd hlt ⟨c.endFrame, false⟩
        rw [← hend] at hw'
        exact ⟨.goto hb' hw' ⟨hstart, hlt⟩, Nat.le_refl _, Nat.le_refl _,
          fun _ hf => absurd hf (by simp), False.elim⟩
    · -- fill
      rename_i currentCwnd
      cases hs
      obtain ⟨hstart, hle, -⟩ := hpc
      obtain ⟨m, heq, hm⟩ := windowSeqs_eq hw currentCwnd
      rw [heq]
      exact .goto hb hw ⟨hstart, hle, m, rfl, hm⟩ False.elim
    · -- transmit
      cases hs
      obtain ⟨hstart, hle, m, rfl, hm, hlt, hnear⟩ := hpc
      obtain ⟨hb', hw', hs', hbase, hnext⟩ := Flow.transmit m hb hw hm hlt hnear hstart rfl
      refine ⟨.goto hb' hw' ⟨hs', hbase.le.trans hle⟩, hbase.ge, ?_, fun f hf => ?_, False.elim⟩
      · show s.nextSeqNum ≤ (List.foldl _ s _).nextSeqNum
        omega
      · have hf' : f ∈ ((List.range' s.nextSeqNum m).map fun k => (k, c.dataFrame k)).map
            Prod.snd := hf
        rw [List.map_map] at hf'
        obtain ⟨k, hk, rfl⟩ := List.mem_map.mp hf'
        obtain ⟨hge, hklt⟩ := List.mem_range'_1.mp hk
        have hpos := hb.next_pos
        refine ⟨k, .inl ?_, iff_of_false (by omega) ?_,
          (Session.frame_data (by omega) (by omega)).symm⟩
        · show k < (List.foldl _ s _).nextSeqNum
          omega
        · rw [heq]
          exact id
    · -- await
      split at hs
      · cases hs
        exact .goto hb hw hpc False.elim
      · cases hs
        exact .afterWait hb hw hpc.1 hpc.2 (by rw [heq]; exact id) []
    · -- blocked
      exact absurd hs (by simp)
    · -- endSend
      rename_i tries
      obtain ⟨hstart, hlt⟩ := hpc
      have hle := hw.base_le_next
      have hmax := hw.next_lt
      have hend : c.endSeq = c.totalPackets + 1 := Session.endSeq_eq_of_lt (by omega)
      exact .tryHandshake hb hw (.endWait tries) ⟨hstart, hlt⟩ (.inr ⟨hend, hlt⟩)
        (iff_of_false (by omega) (by rw [heq]; exact id)) False.elim hs
    · -- endWait
      split at hs
      · cases hs
        exact Moves.goto hb hw hpc.1 False.elim
      · exact absurd hs (by simp)
    · -- done
      exact absurd hs (by simp)
  | expire =>
    unfold Sender.step at hs
    dsimp only at hs
    split at hs
    · rename_i tries heq
      rw [heq] at hpc
      obtain ⟨-, hs⟩ := Option.ite_none_left_eq_some.mp hs
      cases hs
      exact Moves.goto hb hw hpc fun _ => by rw [heq]; trivial
    · rename_i tries heq
      rw [heq] at hpc
      obtain ⟨-, hs⟩ := Option.ite_none_left_eq_some.mp hs
      cases hs
      exact Moves.goto hb hw hpc False.elim
    · exact absurd hs (by simp)
  | wake expired =>
    unfold Sender.step at hs
    dsimp only at hs
    split at hs
    · rename_i heq
      rw [heq] at hpc
      cases hs
      exact .afterWait hb hw hpc.1 hpc.2 (by rw [heq]; exact id) expired
    · exact absurd hs (by simp)

/-! ### The listener -/

/-- `on_ack_received` takes over the window, and adds at most 1 to `cwnd_` unless the packet is
    START. -/
theorem onAckReceived_windows (c : Session) (s : Sender) (ackSeq w : Nat) :
    (s.onAckReceived c ackSeq w).rwnd = w ∧ s.cwnd ≤ (s.onAckReceived c ackSeq w).cwnd ∧
      (s.onAckReceived c ackSeq w).cwnd ≤ s.cwnd + if ackSeq = 0 then 0 else 1 := by
  unfold onAckReceived
  dsimp only
  by_cases h0 : ackSeq = 0
  · rw [if_pos (.inl h0), if_pos h0]
    exact ⟨rfl, Nat.le_refl _, Nat.le_refl _⟩
  · rw [if_neg h0]
    split
    · exact ⟨rfl, Nat.le_refl _, Nat.le_succ _⟩
    · split
      · exact ⟨rfl, Nat.le_succ _, Nat.le_refl _⟩
      · split
        · exact ⟨rfl, Nat.le_succ _, Nat.le_refl _⟩
        · exact ⟨rfl, Nat.le_refl _, Nat.le_succ _⟩

/-- The packet that the listener marks counts once. -/
theorem card_ackedSeqs_mark (hw : InWindow c lo hi s) {k : Nat} {p : SentPacketInfo}
    (hp : s.sendBuffer.lookup k = some p) (hnew : p.acked = false) (hk : k ≤ c.totalPackets) :
    s.ackedSeqs.card + (if k = 0 then 0 else 1) ≤
      (ackedSeqs { s with sendBuffer := s.sendBuffer.insert k { p with acked := true } }).card := by
  have hsub : s.ackedSeqs ⊆
      ackedSeqs { s with sendBuffer := s.sendBuffer.insert k { p with acked := true } } := by
    intro j hj
    obtain ⟨hrange, hdone⟩ := mem_ackedSeqs.mp hj
    refine mem_ackedSeqs.mpr ⟨hrange, hdone.imp_right fun hacked => ?_⟩
    by_cases hjk : j = k
    · rw [hjk]
      exact isAcked_insert_self _ _
    · rw [isAcked_insert_ne _ hjk]
      exact hacked
  split
  · exact Finset.card_le_card hsub
  · rename_i h0
    have hmem : k ∈ s.sendBuffer := AList.lookup_isSome.mp (by rw [hp]; rfl)
    obtain ⟨hge, hlt⟩ := (hw.keys k (by omega) hk).mp hmem
    have hnot : k ∉ s.ackedSeqs := by
      intro hin
      rcases (mem_ackedSeqs.mp hin).2 with hbelow | hacked
      · omega
      · rw [isAcked, hp] at hacked
        exact absurd (hnew.symm.trans hacked) (by decide)
    rw [← Finset.card_insert_of_notMem hnot]
    refine Finset.card_le_card (Finset.insert_subset ?_ hsub)
    exact mem_ackedSeqs.mpr ⟨⟨by omega, hlt⟩, .inr (isAcked_insert_self _ _)⟩

/-- `FlowAt` looks at the window and at the acknowledgement of START. -/
theorem FlowAt.congr {t : Sender} {pc : SendPc} (h : FlowAt c hi s pc)
    (hbase : t.sendWindowBase = s.sendWindowBase) (hnext : t.nextSeqNum = s.nextSeqNum)
    (hstart : s.isAcked 0 = true → t.isAcked 0 = true) : FlowAt c hi t pc := by
  unfold FlowAt at h ⊢
  rw [hbase, hnext]
  split at h
  · exact h
  · exact h
  · exact h
  · exact hstart h
  · exact h.imp_left hstart
  · exact h.imp_left hstart
  · exact h.imp_left hstart
  · exact h.imp_left hstart
  · exact h.imp_left hstart
  · exact h.imp_left hstart
  · exact hstart h
  · exact h

/-- The listener keeps the invariant if what it takes for the acknowledgement of a packet in
    flight is one, and advertises a window within the limits. -/
theorem hear_flow (h : Flow c lo hi acked s) {frame : Bytes}
    (hack : ∀ k w, readAck c.srcMac c.sessionId frame = some (k, w) → s.inFlight k = true →
      acked k ∧ lo ≤ w ∧ w ≤ hi) :
    Flow c lo hi acked (s.hear c frame) ∧ (s.hear c frame).sendWindowBase = s.sendWindowBase ∧
      (s.hear c frame).nextSeqNum = s.nextSeqNum ∧ (s.hear c frame).pc = s.pc := by
  obtain ⟨hb, hw, hpc⟩ := h
  unfold hear
  split
  · exact ⟨⟨hb, hw, hpc⟩, rfl, rfl, rfl⟩
  · rename_i k w hread
    split
    · exact ⟨⟨hb, hw, hpc⟩, rfl, rfl, rfl⟩
    · rename_i p hp
      split
      · exact ⟨⟨hb, hw, hpc⟩, rfl, rfl, rfl⟩
      · rename_i hnew
        have hflight : s.inFlight k = true := by
          rw [inFlight, hp]
          simpa using hnew
        obtain ⟨hk, hopen⟩ := hack k w hread hflight
        set t : Sender := { s with sendBuffer := s.sendBuffer.insert k { p with acked := true } }
          with ht
        obtain ⟨e1, e2, e3, e4⟩ := onAckReceived_frame c t k w
        obtain ⟨hrwnd, hcwnd, hcwnd'⟩ := onAckReceived_windows c t k w
        have hacked : ∀ j, (t.onAckReceived c k w).isAcked j = t.isAcked j := by
          intro j
          unfold isAcked
          rw [e2]
        have hkeep : ∀ j, s.isAcked j = true → t.isAcked j = true := by
          intro j hj
          by_cases hjk : j = k
          · rw [hjk]
            exact isAcked_insert_self _ _
          · exact (isAcked_insert_ne _ hjk).trans hj
        have hmark := hb.mark hp hk
        refine ⟨⟨hmark.congr e2 e3 e4, ?_, ?_⟩, e3, e4, e1⟩
        · refine ⟨?_, ?_, ?_, ?_, ?_, ?_, ?_, ?_⟩
          · rw [e3, e4]
            exact hw.base_le_next
          · rw [e4]
            exact hw.next_le
          · rw [e4]
            exact hw.next_lt
          · rw [e3, e4]
            exact hw.next_near
          · intro j h1 hj
            rw [e2, e3, e4, ← hw.keys j h1 hj]
            show j ∈ s.sendBuffer.insert k { p with acked := true } ↔ _
            rw [AList.mem_insert]
            constructor
            · rintro (rfl | hmem)
              · exact AList.lookup_isSome.mp (by rw [hp]; rfl)
              · exact hmem
            · exact .inr
          · rw [hrwnd]
            exact hopen
          · exact hw.cwnd_pos.trans hcwnd
          · intro hle
            rw [e3] at hle
            have hkT : k ≤ c.totalPackets := by
              rcases (hb.buffer k p hp).2.2 with hkT | ⟨-, hlt⟩
              · exact hkT
              · exact absurd hle (by show ¬s.sendWindowBase ≤ _; omega)
            have hcard : s.ackedSeqs.card + _ ≤ t.ackedSeqs.card :=
              card_ackedSeqs_mark hw hp (by simpa using hnew) hkT
            have hsame : (t.onAckReceived c k w).ackedSeqs = t.ackedSeqs := by
              ext j
              rw [mem_ackedSeqs, mem_ackedSeqs, hacked, e3, e4]
            have hbound := hw.cwnd_le hle
            rw [hsame]
            have hcw : t.cwnd = s.cwnd := rfl
            omega
        · rw [e1]
          exact hpc.congr e3 e4 fun h0 => (hacked 0).trans (hkeep 0 h0)

/-- What the listener takes for the acknowledgement of a packet in flight marks the packet. -/
theorem isAcked_hear {frame : Bytes} {k w : Nat}
    (hread : readAck c.srcMac c.sessionId frame = some (k, w)) (hflight : s.inFlight k = true) :
    (s.hear c frame).isAcked k = true := by
  unfold hear
  rw [hread]
  dsimp only
  unfold inFlight at hflight
  split at hflight
  · rename_i p hp
    rw [hp]
    dsimp only
    rw [if_neg (by simpa using hflight)]
    have e2 := (onAckReceived_frame c
      { s with sendBuffer := s.sendBuffer.insert k { p with acked := true } } k w).2.1
    unfold isAcked
    rw [e2, AList.lookup_insert]
  · exact absurd hflight (by decide)

end Sender

end CdsGuard.Guard
