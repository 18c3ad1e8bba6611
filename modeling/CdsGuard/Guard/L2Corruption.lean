import CdsGuard.Guard.L2Flow

/-
  One session of `GuardL2` over an in-order channel that loses frames and alters the guard header
  and the payload of frames, so that the CRC-32 over both exposes it. The receive loop checks the
  CRC, so an altered frame does nothing there. `ack_listener_thread` does not: an
  acknowledgement whose number was altered acknowledges another packet (`alteredAck_counts`).

  What has been acknowledged has been accepted exactly in the runs in which the listener never
  takes an altered frame for the acknowledgement of a packet in flight that was not accepted
  (`acked_accepted_iff`).
-/

namespace CdsGuard.Guard

open CdsGuard.Lib

/-! ## The channel -/

/-- The announced payload does not fit the frame, or the checksum is not that of header and
    payload. -/
def Exposed (frame : Bytes) : Prop :=
  let recvBuffer := frame.take 2048
  let guard := recvBuffer.drop etherSize
  let gh := readHeader guard
  let payload := (guard.drop guardSize).take gh.payloadLength
  recvBuffer.length < etherSize + guardSize + gh.payloadLength ∨
    gh.crc32 ≠ (computeCrc32 (guard.take 21 ++ ([0, 0, 0, 0] ++ payload))).toNat

instance (frame : Bytes) : Decidable (Exposed frame) := inferInstanceAs (Decidable (_ ∨ _))

/-- `frame'` is `frame` with bytes behind the Ethernet header altered, and exposed. -/
def Altered (frame frame' : Bytes) : Prop :=
  frame'.length = frame.length ∧ frame'.take etherSize = frame.take etherSize ∧ Exposed frame'

instance (frame frame' : Bytes) : Decidable (Altered frame frame') :=
  inferInstanceAs (Decidable (_ ∧ _))

/-- Both ends and the frames on the way, the next one to arrive first. -/
structure Wire where
  sender : Sender
  receiver : Receiver
  toReceiver : List Bytes
  toSender : List Bytes
  /-- The variables of the calls of `receive_reliable_data` that have ended. -/
  closed : List Receiver

inductive Direction where
  | toReceiver
  | toSender

inductive WireEvent where
  /-- A step of the sending thread. -/
  | send (a : SendAction)
  /-- The listener thread, and the receiver, takes the next frame. -/
  | hear
  | receive
  /-- The receiver's call ends for lack of frames. -/
  | timeout
  /-- The channel loses a frame, or alters it. -/
  | drop (d : Direction) (i : Nat)
  | alter (d : Direction) (i : Nat) (frame : Bytes)

namespace Wire

variable (c : Session) (myMac : Mac)

/-- Before the call of `send_reliable_data`. -/
def start : Wire where
  sender := .fresh
  receiver := .call ∅
  toReceiver := []
  toSender := []
  closed := []

def queue (s : Wire) : Direction → List Bytes
  | .toReceiver => s.toReceiver
  | .toSender => s.toSender

def setQueue (s : Wire) (d : Direction) (q : List Bytes) : Wire :=
  match d with
  | .toReceiver => { s with toReceiver := q }
  | .toSender => { s with toSender := q }

/-- The receiver after a frame; when the call ended, after the next call. -/
def received (s : Wire) (p : Receiver × List Bytes × Option CallResult) : Wire :=
  { s with
    receiver := if p.2.2.isSome then .call p.1.outOfOrderBuffer else p.1
    toSender := s.toSender ++ p.2.1
    closed := if p.2.2.isSome then s.closed ++ [p.1] else s.closed }

def step (s : Wire) : WireEvent → Option Wire
  | .send a => (s.sender.step c a).map fun p =>
      { s with sender := p.1, toReceiver := s.toReceiver ++ p.2 }
  | .hear =>
    match s.toSender with
    | [] => none
    | frame :: rest => some { s with sender := s.sender.hear c frame, toSender := rest }
  | .receive =>
    match s.toReceiver with
    | [] => none
    | frame :: rest =>
      some ({ s with toReceiver := rest }.received (s.receiver.receive myMac frame))
  | .timeout => some { s with
      receiver := .call s.receiver.outOfOrderBuffer
      closed := s.closed ++ [s.receiver] }
  | .drop d i =>
    if i < (s.queue d).length then some (s.setQueue d ((s.queue d).eraseIdx i)) else none
  | .alter d i frame' =>
    match (s.queue d)[i]? with
    | none => none
    | some frame =>
      if Altered frame frame' then some (s.setQueue d ((s.queue d).set i frame')) else none

end Wire

/-! ## Accepted packets -/

/-- The payload of packet `k` is in `reassembled_data`, at its place, or in
    `out_of_order_buffer_`. -/
def Receiver.Keeps (c : Session) (r : Receiver) (k : Nat) : Prop :=
  piece maxPayloadSize r.reassembledData (k - 1) = c.chunk k ∨
    r.outOfOrderBuffer.lookup k = some (c.chunk k)

/-- The receiver has accepted packet `k`, in its current call or in one that has ended. -/
def Wire.Accepted (c : Session) (s : Wire) (k : Nat) : Prop :=
  ∃ r ∈ s.receiver :: s.closed, r.Keeps c k

/-- Every DATA packet that is marked as acknowledged in the buffer, or erased from it as such, has
    been accepted. -/
def Wire.AckedAccepted (c : Session) (s : Wire) : Prop :=
  ∀ k, 1 ≤ k → k ≤ c.totalPackets →
    s.sender.isAcked k = true ∨ k < s.sender.sendWindowBase → s.Accepted c k

/-- The event gives the listener an altered frame that it takes for the acknowledgement of a DATA
    packet in flight, and the packet has not been accepted. -/
def FalseAck (c : Session) (s : Wire) : WireEvent → Prop
  | .hear => ∃ frame rest k w, s.toSender = frame :: rest ∧ Exposed frame ∧
      readAck c.srcMac c.sessionId frame = some (k, w) ∧ 1 ≤ k ∧ k ≤ c.totalPackets ∧
      s.sender.inFlight k = true ∧ ¬s.Accepted c k
  | _ => False

variable {c : Session} {myMac : Mac}

/-! ## Altered frames -/

theorem checkFrame_exposed {frame : Bytes} (h : Exposed frame) (mac : Mac) :
    checkFrame mac frame = none := by
  unfold Exposed at h
  unfold checkFrame
  dsimp only at h ⊢
  split
  · rfl
  · split
    · rfl
    · split
      · rfl
      · split
        · rfl
        · rename_i hfits
          rw [if_pos (h.resolve_left hfits)]

/-- A frame of the session is not exposed. -/
theorem Session.not_exposed (hfit : c.data.length < 2 ^ 64) (k : Nat) : ¬Exposed (c.frame k) := by
  intro h
  obtain ⟨t, seq, p, hf, hseq, hp, -⟩ := c.frame_build k
  have hcheck : checkFrame c.dstMac (c.build t seq p) = _ := checkFrame_build hfit t hseq hp
  rw [if_pos rfl, ← hf, checkFrame_exposed h] at hcheck
  exact absurd hcheck (by simp)

theorem readAck_window_lt {srcMac : Mac} {sessionId : Nat} {frame : Bytes} {k w : Nat}
    (h : readAck srcMac sessionId frame = some (k, w)) : w < 2 ^ 16 := by
  unfold readAck at h
  dsimp only at h
  iterate 3 obtain ⟨-, h⟩ := Option.ite_none_left_eq_some.mp h
  cases h
  exact field_lt _ 19 2

/-! ## What the receiver keeps -/

namespace Session

/-- The last packet begins inside the data. -/
theorem last_offset_lt (c : Session) (h : 1 ≤ c.totalPackets) :
    (c.totalPackets - 1) * maxPayloadSize < c.data.length := by
  have hmax : maxPayloadSize = 1400 := rfl
  have hcast : u64 (c.data.length + maxPayloadSize - 1) ≤ c.data.length + maxPayloadSize - 1 :=
    Nat.mod_le _ _
  have hmul : c.totalPackets * maxPayloadSize ≤ u64 (c.data.length + maxPayloadSize - 1) :=
    (Nat.mul_le_mul_right _ (Nat.mod_le _ _)).trans (Nat.div_mul_le_self _ _)
  have hpos : maxPayloadSize ≤ c.totalPackets * maxPayloadSize := Nat.le_mul_of_pos_left _ h
  rw [Nat.sub_mul]
  omega

/-- A packet carries data. -/
theorem chunk_ne_nil {k : Nat} (h1 : 1 ≤ k) (hk : k ≤ c.totalPackets) : c.chunk k ≠ [] := by
  have hlast := c.last_offset_lt (h1.trans hk)
  have hle : (k - 1) * maxPayloadSize ≤ (c.totalPackets - 1) * maxPayloadSize :=
    Nat.mul_le_mul_right _ (by omega)
  intro hnil
  have hlen : (c.chunk k).length = 0 := by rw [hnil]; rfl
  have hmax : maxPayloadSize = 1400 := rfl
  unfold chunk piece at hlen
  rw [List.length_take, List.length_drop] at hlen
  omega

end Session

namespace Receiver

variable {r : Receiver}

/-- A packet is kept when it has arrived. -/
theorem Tracks.keeps_iff (h : Tracks c r) {k : Nat} (h1 : 1 ≤ k) (hk : k ≤ c.totalPackets) :
    r.Keeps c k ↔ r.window.Held k := by
  have hjoin : r.reassembledData = c.data.take ((r.receiveWindowBase - 1) * maxPayloadSize) :=
    h.holds.joined_eq.trans (range_flatMap_piece maxPayloadSize c.data _)
  have hpos : 1 ≤ r.receiveWindowBase := h.holds.base_pos
  constructor
  · rintro (hpiece | hlook)
    · left
      show k < r.receiveWindowBase
      by_contra hge
      have hle : (r.receiveWindowBase - 1) * maxPayloadSize ≤ (k - 1) * maxPayloadSize :=
        Nat.mul_le_mul_right _ (by omega)
      refine Session.chunk_ne_nil h1 hk (hpiece.symm.trans ?_)
      rw [piece, hjoin, List.drop_of_length_le, List.take_nil]
      exact (List.length_take_le _ _).trans hle
    · exact .inr (AList.lookup_isSome.mp (by
        show (r.outOfOrderBuffer.lookup k).isSome = true
        rw [hlook]
        rfl))
  · rintro (hlt | hmem)
    · left
      have hlt' : k < r.receiveWindowBase := hlt
      have hle : (k - 1) * maxPayloadSize + maxPayloadSize ≤
          (r.receiveWindowBase - 1) * maxPayloadSize := by
        rw [← Nat.succ_mul]
        exact Nat.mul_le_mul_right _ (by omega)
      rw [piece, hjoin, List.drop_take, List.take_take, Nat.min_eq_left (by omega)]
      rfl
    · obtain ⟨d, hd⟩ := Option.isSome_iff_exists.mp (AList.lookup_isSome.mpr hmem)
      exact .inr (hd.trans (congrArg some (h.holds.ahead_eq k d hd).2.2))

/-- A new call keeps nothing but what is in the buffer. -/
theorem keeps_of_call {k : Nat} (h1 : 1 ≤ k) (hk : k ≤ c.totalPackets)
    (h : (Receiver.call r.outOfOrderBuffer).Keeps c k) : r.Keeps c k := by
  rcases h with hpiece | hlook
  · exact absurd (hpiece.symm.trans (by simp [piece, Receiver.call])) (Session.chunk_ne_nil h1 hk)
  · exact .inr hlook

theorem not_keeps_started {k : Nat} (h1 : 1 ≤ k) (hk : k ≤ c.totalPackets) :
    ¬(started c).Keeps c k := by
  rintro (hpiece | hlook)
  · exact absurd (hpiece.symm.trans (by simp [piece, started])) (Session.chunk_ne_nil h1 hk)
  · have hlook' : (∅ : PieceMap UInt8).lookup k = some (c.chunk k) := hlook
    simp at hlook'

end Receiver

/-! ## Invariant -/

/-- A list stays ordered when an entry is replaced by one that fits everywhere. -/
theorem pairwise_set {α : Type} {R : α → α → Prop} {l : List α} {i : Nat} {a : α}
    (h : l.Pairwise R) (hl : ∀ x ∈ l, R x a) (hr : ∀ x ∈ l, R a x) : (l.set i a).Pairwise R := by
  induction l generalizing i with
  | nil => exact List.Pairwise.nil
  | cons x l ih =>
    obtain ⟨hx, h⟩ := List.pairwise_cons.mp h
    cases i with
    | zero => exact List.pairwise_cons.mpr ⟨fun y hy => hr y (List.mem_cons_of_mem _ hy), h⟩
    | succ i =>
      refine List.pairwise_cons.mpr ⟨fun y hy => ?_, ih h (fun y hy => hl y ?_) fun y hy => hr y ?_⟩
      · rcases List.mem_or_eq_of_mem_set hy with hy | rfl
        · exact hx y hy
        · exact hl x List.mem_cons_self
      · exact List.mem_cons_of_mem _ hy
      · exact List.mem_cons_of_mem _ hy

namespace Wire

variable {s s' : Wire}

/-- What holds as long as the listener takes no altered frame for the acknowledgement of a packet
    that was not accepted. No START frame is behind a DATA frame, and nothing has been accepted
    while one may arrive. -/
structure Inv (c : Session) (myMac : Mac) (s : Wire) : Prop where
  sender : s.sender.Flow c 0 (2 ^ 16 - 1) fun k => 1 ≤ k → k ≤ c.totalPackets → s.Accepted c k
  toReceiver : ∀ f ∈ s.toReceiver, Exposed f ∨ ∃ k, s.sender.Used c k ∧ f = c.frame k
  toSender : ∀ f ∈ s.toSender, Exposed f ∨ ∃ k w, k < 2 ^ 32 ∧ w < 2 ^ 16 ∧
    f = ackFrame c.srcMac myMac c.sessionId k w ∧
      (1 ≤ k → k ≤ c.totalPackets → s.Accepted c k)
  order : s.toReceiver.Pairwise fun f g => g = c.startFrame →
    ∀ k, 1 ≤ k → k ≤ c.totalPackets → f ≠ c.dataFrame k
  handshake : Sender.Handshake s.sender.pc →
    ∀ f ∈ s.toReceiver, ∀ k, 1 ≤ k → k ≤ c.totalPackets → f ≠ c.dataFrame k
  early : Sender.Handshake s.sender.pc ∨ c.startFrame ∈ s.toReceiver →
    ∀ k, 1 ≤ k → k ≤ c.totalPackets → ¬s.Accepted c k
  receiver : s.receiver.sessionActive = true → s.receiver.Near c

theorem inv_start (c : Session) (myMac : Mac) : Inv c myMac start where
  sender := Sender.flow_fresh c _ (by decide)
  toReceiver := fun f hf => absurd hf (by simp [start])
  toSender := fun f hf => absurd hf (by simp [start])
  order := List.Pairwise.nil
  handshake := fun _ f hf => absurd hf (by simp [start])
  early := fun _ k h1 hk => by
    rintro ⟨r, hr, hkeeps⟩
    obtain rfl : r = .call ∅ := by simpa [start] using hr
    rcases hkeeps with hpiece | hlook
    · exact absurd (hpiece.symm.trans (by simp [piece, Receiver.call]))
        (Session.chunk_ne_nil h1 hk)
    · have hlook' : (∅ : PieceMap UInt8).lookup k = some (c.chunk k) := hlook
      simp at hlook'
  receiver := fun h => absurd h (by simp [start, Receiver.call])

/-- What is accepted stays accepted. -/
theorem Inv.mono_sender (h : Inv c myMac s)
    (hacc : ∀ k, 1 ≤ k → k ≤ c.totalPackets → s.Accepted c k → s'.Accepted c k) :
    s.sender.Flow c 0 (2 ^ 16 - 1) fun k => 1 ≤ k → k ≤ c.totalPackets → s'.Accepted c k :=
  { h.sender with
    toBuffered := h.sender.toBuffered.mono fun k hk h1 hkT => hacc k h1 hkT (hk h1 hkT)
    at_pc := h.sender.at_pc }

theorem Inv.mono_acks (h : Inv c myMac s)
    (hacc : ∀ k, 1 ≤ k → k ≤ c.totalPackets → s.Accepted c k → s'.Accepted c k) {f : Bytes}
    (hf : f ∈ s.toSender) : Exposed f ∨ ∃ k w, k < 2 ^ 32 ∧ w < 2 ^ 16 ∧
      f = ackFrame c.srcMac myMac c.sessionId k w ∧
        (1 ≤ k → k ≤ c.totalPackets → s'.Accepted c k) := by
  rcases h.toSender f hf with hexp | ⟨k, w, hk, hw, he, hk'⟩
  · exact .inl hexp
  · exact .inr ⟨k, w, hk, hw, he, fun h1 hkT => hacc k h1 hkT (hk' h1 hkT)⟩

/-- A step of the sending thread. -/
theorem Inv.send (hfit : c.data.length < 2 ^ 64) (h : Inv c myMac s) {a : SendAction}
    {p : Sender × List Bytes} (hp : s.sender.step c a = some p) :
    Inv c myMac { s with sender := p.1, toReceiver := s.toReceiver ++ p.2 } := by
  have hmoves := Sender.step_flow (by decide) h.sender hp
  have hstart : c.startFrame ∈ p.2 → Sender.Handshake s.sender.pc := by
    intro hmem
    obtain ⟨k, -, h0, hf⟩ := hmoves.out _ hmem
    exact h0.mp (Session.frame_eq_start hfit hf.symm)
  have hdata : Sender.Handshake s.sender.pc → ∀ f ∈ p.2, ∀ k, 1 ≤ k → k ≤ c.totalPackets →
      f ≠ c.dataFrame k := by
    rintro hhand f hf k h1 hk rfl
    obtain ⟨j, -, h0, hframe⟩ := hmoves.out _ hf
    have hj := Session.frame_eq_data hfit hk hframe.symm
    have := h0.mpr hhand
    omega
  refine ⟨hmoves.flow, fun f hf => ?_, h.toSender, ?_, fun hhand f hf => ?_, fun hearly => ?_,
    h.receiver⟩
  · rcases List.mem_append.mp hf with hf | hf
    · exact (h.toReceiver f hf).imp_right fun ⟨k, hk, he⟩ =>
        ⟨k, hk.mono hmoves.base hmoves.next, he⟩
    · obtain ⟨k, hk, -, he⟩ := hmoves.out f hf
      exact .inr ⟨k, hk, he⟩
  · refine List.pairwise_append.mpr ⟨h.order, ?_, fun f hf g hg hgs => ?_⟩
    · refine List.pairwise_of_forall_mem_list fun f hf g hg hgs => ?_
      exact hdata (hstart (hgs ▸ hg)) f hf
    · exact h.handshake (hstart (hgs ▸ hg)) f hf
  · rcases List.mem_append.mp hf with hf | hf
    · exact h.handshake (hmoves.phase hhand) f hf
    · exact hdata (hmoves.phase hhand) f hf
  · refine h.early ?_
    rcases hearly with hhand | hmem
    · exact .inl (hmoves.phase hhand)
    · rcases List.mem_append.mp hmem with hmem | hmem
      · exact .inr hmem
      · exact .inl (hstart hmem)

/-- A round of the listener. -/
theorem Inv.hear (h : Inv c myMac s) {f : Bytes} {rest : List Bytes}
    (hq : s.toSender = f :: rest) (hok : ¬FalseAck c s .hear) :
    Inv c myMac { s with sender := s.sender.hear c f, toSender := rest } := by
  have hmem : f ∈ s.toSender := by
    rw [hq]
    exact List.mem_cons_self
  have htrue : ∀ k w, readAck c.srcMac c.sessionId f = some (k, w) → s.sender.inFlight k = true →
      (1 ≤ k → k ≤ c.totalPackets → s.Accepted c k) ∧ 0 ≤ w ∧ w ≤ 2 ^ 16 - 1 := by
    intro k w hread hflight
    have hw := readAck_window_lt hread
    refine ⟨fun h1 hk => ?_, Nat.zero_le _, by omega⟩
    rcases h.toSender f hmem with hexp | ⟨j, v, hj, hv, rfl, hacc⟩
    · by_contra hnot
      exact hok ⟨f, rest, k, w, hq, hexp, hread, h1, hk, hflight, hnot⟩
    · rw [readAck_ackFrame _ _ _ _ c.sessionId_lt hj hv, if_pos ⟨rfl, rfl⟩] at hread
      cases hread
      exact hacc h1 hk
  obtain ⟨hflow, hbase, hnext, hpc⟩ := Sender.hear_flow h.sender htrue
  refine ⟨hflow, fun g hg => ?_, fun g hg => ?_, h.order, ?_, ?_, h.receiver⟩
  · exact (h.toReceiver g hg).imp_right fun ⟨k, hk, he⟩ => ⟨k, hk.mono hbase.ge hnext.ge, he⟩
  · refine h.toSender g ?_
    rw [hq]
    exact List.mem_cons_of_mem _ hg
  · show Sender.Handshake (s.sender.hear c f).pc → _
    rw [hpc]
    exact h.handshake
  · show Sender.Handshake (s.sender.hear c f).pc ∨ _ → _
    rw [hpc]
    exact h.early

/-- A round of the receive loop: it is enough that it keeps what is kept, keeps what it
    acknowledges, and keeps nothing new while a START frame may arrive. -/
theorem Inv.received (h : Inv c myMac s) {f : Bytes} {rest : List Bytes}
    (hq : s.toReceiver = f :: rest) {p : Receiver × List Bytes × Option CallResult} (j : Nat)
    (hj : j < 2 ^ 32) (hnear : p.1.sessionActive = true → p.1.Near c)
    (hkeep : ∀ k, 1 ≤ k → k ≤ c.totalPackets → s.Accepted c k →
      s.receiver.Keeps c k → p.1.Keeps c k)
    (hnew : Sender.Handshake s.sender.pc ∨ c.startFrame ∈ rest →
      ∀ k, 1 ≤ k → k ≤ c.totalPackets → p.1.Keeps c k → s.receiver.Keeps c k)
    (hacks : ∀ a ∈ p.2.1, (∃ w < 2 ^ 16, a = ackFrame c.srcMac myMac c.sessionId j w) ∧
      (1 ≤ j → j ≤ c.totalPackets → p.1.Keeps c j)) :
    Inv c myMac ({ s with toReceiver := rest }.received p) := by
  set t : Wire := { s with toReceiver := rest } with ht
  have hpopped : ∀ g ∈ rest, g ∈ s.toReceiver := by
    intro g hg
    rw [hq]
    exact List.mem_cons_of_mem _ hg
  have hcur : ∀ k, p.1.Keeps c k → (t.received p).Accepted c k := by
    intro k hk
    unfold Wire.received
    by_cases hend : p.2.2.isSome = true
    · exact ⟨p.1, by simp [hend], hk⟩
    · exact ⟨p.1, by simp [hend], hk⟩
  have hacc : ∀ k, 1 ≤ k → k ≤ c.totalPackets → s.Accepted c k → (t.received p).Accepted c k := by
    intro k h1 hk hk'
    obtain ⟨r, hr, hkeeps⟩ := hk'
    rcases List.mem_cons.mp hr with rfl | hr
    · exact hcur k (hkeep k h1 hk ⟨_, List.mem_cons_self, hkeeps⟩ hkeeps)
    · refine ⟨r, List.mem_cons_of_mem _ ?_, hkeeps⟩
      unfold Wire.received
      dsimp only
      split
      · exact List.mem_append_left _ hr
      · exact hr
  have hback : ∀ k, 1 ≤ k → k ≤ c.totalPackets → (t.received p).Accepted c k →
      s.Accepted c k ∨ p.1.Keeps c k := by
    rintro k h1 hk ⟨r, hr, hkeeps⟩
    unfold Wire.received at hr
    dsimp only at hr
    by_cases hend : p.2.2.isSome = true
    · rw [if_pos hend, if_pos hend] at hr
      rcases List.mem_cons.mp hr with rfl | hr
      · exact .inr (Receiver.keeps_of_call h1 hk hkeeps)
      · rcases List.mem_append.mp hr with hr | hr
        · exact .inl ⟨r, List.mem_cons_of_mem _ hr, hkeeps⟩
        · rw [List.mem_singleton.mp hr] at hkeeps
          exact .inr hkeeps
    · rw [if_neg hend, if_neg hend] at hr
      rcases List.mem_cons.mp hr with rfl | hr
      · exact .inr hkeeps
      · exact .inl ⟨r, List.mem_cons_of_mem _ hr, hkeeps⟩
  refine ⟨h.mono_sender hacc, fun g hg => h.toReceiver g (hpopped g hg), fun g hg => ?_, ?_,
    fun hhand g hg => h.handshake hhand g (hpopped g hg), fun hearly k h1 hk hin => ?_,
    fun hactive => ?_⟩
  · rcases List.mem_append.mp hg with hg | hg
    · exact h.mono_acks hacc hg
    · obtain ⟨⟨w, hw, he⟩, hkeeps⟩ := hacks g hg
      exact .inr ⟨j, w, hj, hw, he, fun h1 hk => hcur j (hkeeps h1 hk)⟩
  · have hpair := h.order
    rw [hq] at hpair
    exact (List.pairwise_cons.mp hpair).2
  · have hold : ¬s.Accepted c k := h.early (hearly.imp_right fun hm => hpopped _ hm) k h1 hk
    rcases hback k h1 hk hin with hs | hp
    · exact hold hs
    · exact hold ⟨_, List.mem_cons_self, hnew hearly k h1 hk hp⟩
  · unfold Wire.received at hactive ⊢
    dsimp only at hactive ⊢
    split at hactive
    · exact absurd hactive (by simp [Receiver.call])
    · rename_i hnone
      rw [if_neg hnone]
      exact hnear hactive

/-- A round that changes nothing but perhaps ends the call. -/
theorem Inv.received_same (h : Inv c myMac s) {f : Bytes} {rest : List Bytes}
    (hq : s.toReceiver = f :: rest) (x : Option CallResult) :
    Inv c myMac ({ s with toReceiver := rest }.received (s.receiver, [], x)) :=
  h.received hq 0 (by decide) h.receiver (fun _ _ _ _ hk => hk) (fun _ _ _ _ hk => hk)
    fun a ha => absurd ha (by simp)

/-- A DATA frame that arrives: no START frame is behind it. -/
theorem Inv.receive_data (hfit : c.data.length < 2 ^ 64) (h : Inv c myMac s)
    (hdst : c.dstMac = myMac) {j : Nat} (h1 : 1 ≤ j) (hj : j ≤ c.totalPackets)
    (hlt : j < 2 ^ 32 - 1) {rest : List Bytes} (hq : s.toReceiver = c.dataFrame j :: rest) :
    Inv c myMac
      ({ s with toReceiver := rest }.received (s.receiver.receive myMac (c.dataFrame j))) := by
  rw [Receiver.receive_data hfit hdst hj]
  by_cases hc : s.receiver.sessionActive = true ∧ s.receiver.currentSessionId = c.sessionId
  swap
  · rw [if_neg hc]
    exact h.received_same hq none
  rw [if_pos hc]
  have hn := h.receiver hc.1
  have hn' : (s.receiver.onData myMac (c.received .DATA j (c.chunk j))).1.Near c :=
    hn.onData hj hlt
  have hlate : ¬(Sender.Handshake s.sender.pc ∨ c.startFrame ∈ rest) := by
    rintro (hhand | hmem)
    · exact h.handshake hhand (c.dataFrame j) (by rw [hq]; exact List.mem_cons_self) j h1 hj rfl
    · have hpair := h.order
      rw [hq] at hpair
      exact (List.pairwise_cons.mp hpair).1 _ hmem rfl j h1 hj rfl
  refine h.received hq j (by omega) (fun _ => hn') ?_ (fun hearly => absurd hearly hlate) ?_
  · intro k hk1 hk _ hkeeps
    rw [hn'.keeps_iff hk1 hk]
    exact Receiver.onData_held hn.keys_lt hlt (.inl ((hn.keeps_iff hk1 hk).mp hkeeps))
  · intro a ha
    refine ⟨hn.toTracks.onData_acks j a ha, fun _ _ => ?_⟩
    rw [hn'.keeps_iff h1 hj]
    exact Receiver.onData_held hn.keys_lt hlt (.inr ⟨rfl, List.ne_nil_of_mem ha⟩)

/-- A round of the receive loop. -/
theorem Inv.receive (hfit : c.data.length < 2 ^ 64) (h : Inv c myMac s) {f : Bytes}
    {rest : List Bytes} (hq : s.toReceiver = f :: rest) :
    Inv c myMac ({ s with toReceiver := rest }.received (s.receiver.receive myMac f)) := by
  have hmem : f ∈ s.toReceiver := by
    rw [hq]
    exact List.mem_cons_self
  rcases h.toReceiver f hmem with hexp | ⟨j, hused, rfl⟩
  · rw [Receiver.receive, checkFrame_exposed hexp]
    exact h.received_same hq none
  by_cases hdst : c.dstMac = myMac
  swap
  · rw [Receiver.receive_elsewhere hfit hdst]
    exact h.received_same hq none
  unfold Sender.Used at hused
  have hle := h.sender.next_le
  have hnlt := h.sender.next_lt
  have hbase := h.sender.base_le_next
  rcases Nat.eq_zero_or_pos j with rfl | h1
  · -- START: nothing has been accepted yet
    have hnone := h.early (.inr hmem)
    rw [Session.frame_zero, Receiver.receive_start hfit hdst]
    refine h.received hq 0 (by decide) (fun _ => Receiver.near_started c) ?_ ?_ ?_
    · exact fun k hk1 hk hacc => absurd hacc (hnone k hk1 hk)
    · exact fun _ k hk1 hk hkeeps => absurd hkeeps (Receiver.not_keeps_started hk1 hk)
    · intro a ha
      rw [List.mem_singleton.mp ha]
      exact ⟨Receiver.sendAck_eq myMac rfl 0, fun h0 => by omega⟩
  rcases Nat.lt_or_ge c.totalPackets j with hlt | hleT
  · -- END
    have hT : c.totalPackets < 2 ^ 32 - 1 := by omega
    have hend := Session.endSeq_eq_of_lt hT
    have hframe : c.frame j = c.endFrame := by
      rw [Session.frame, if_neg (by omega), if_neg (by omega)]
    rw [hframe, Receiver.receive_end hfit hdst]
    unfold Receiver.onEnd
    split
    swap
    · exact h.received_same hq _
    rename_i hc
    have hn := h.receiver hc.1
    refine h.received hq (c.totalPackets + 1) (by omega) (fun _ => hn.markEnd)
      (fun _ _ _ _ hk => hk) (fun _ _ _ _ hk => hk) fun a ha => ?_
    rw [List.mem_singleton.mp ha, ← hend]
    exact ⟨Receiver.sendAck_eq myMac hn.session _, fun _ hle => by omega⟩
  · rw [Session.frame_data h1 hleT] at hq ⊢
    exact h.receive_data hfit hdst h1 hleT (by omega) hq

theorem Inv.timeout (h : Inv c myMac s) :
    Inv c myMac { s with
      receiver := .call s.receiver.outOfOrderBuffer
      closed := s.closed ++ [s.receiver] } := by
  have hacc : ∀ k, s.Accepted c k → Accepted c { s with
      receiver := .call s.receiver.outOfOrderBuffer
      closed := s.closed ++ [s.receiver] } k := by
    rintro k ⟨r, hr, hkeeps⟩
    refine ⟨r, List.mem_cons_of_mem _ (List.mem_append.mpr ?_), hkeeps⟩
    rcases List.mem_cons.mp hr with rfl | hr
    · exact .inr (List.mem_singleton_self _)
    · exact .inl hr
  refine ⟨h.mono_sender fun k _ _ => hacc k, h.toReceiver,
    fun g hg => h.mono_acks (fun k _ _ => hacc k) hg, h.order, h.handshake,
    fun hearly k h1 hk => ?_, fun hactive => absurd hactive (by simp [Receiver.call])⟩
  · rintro ⟨r, hr, hkeeps⟩
    refine h.early hearly k h1 hk ?_
    rcases List.mem_cons.mp hr with rfl | hr
    · exact ⟨_, List.mem_cons_self, Receiver.keeps_of_call h1 hk hkeeps⟩
    · rcases List.mem_append.mp hr with hr | hr
      · exact ⟨r, List.mem_cons_of_mem _ hr, hkeeps⟩
      · rw [List.mem_singleton.mp hr] at hkeeps
        exact ⟨_, List.mem_cons_self, hkeeps⟩

/-- The channel may take frames out and put exposed ones in their place. -/
theorem Inv.setQueue (h : Inv c myMac s) (d : Direction) {q : List Bytes}
    (hmem : ∀ f ∈ q, f ∈ s.queue d ∨ Exposed f)
    (horder : ∀ R : Bytes → Bytes → Prop, (∀ f g, Exposed f ∨ Exposed g → R f g) →
      (s.queue d).Pairwise R → q.Pairwise R) (hfit : c.data.length < 2 ^ 64) :
    Inv c myMac (s.setQueue d q) := by
  have hdata : ∀ f, Exposed f → ∀ k, 1 ≤ k → k ≤ c.totalPackets → f ≠ c.dataFrame k := by
    rintro f hexp k h1 hk rfl
    rw [← Session.frame_data h1 hk] at hexp
    exact Session.not_exposed hfit k hexp
  have hstart : ¬Exposed c.startFrame := Session.not_exposed hfit 0
  cases d with
  | toReceiver =>
    refine { h with toReceiver := fun f hf => ?_, order := ?_, handshake := ?_, early := ?_ }
    · rcases hmem f hf with hf | hexp
      · exact h.toReceiver f hf
      · exact .inl hexp
    · refine horder _ ?_ h.order
      rintro f g (hexp | hexp) hg
      · exact hdata f hexp
      · exact absurd (hg ▸ hexp) hstart
    · intro hhand f hf
      rcases hmem f hf with hf | hexp
      · exact h.handshake hhand f hf
      · exact hdata f hexp
    · intro hearly
      refine h.early (hearly.imp_right fun hm => ?_)
      exact (hmem _ hm).resolve_right hstart
  | toSender =>
    refine { h with toSender := fun f hf => ?_ }
    rcases hmem f hf with hf | hexp
    · exact h.toSender f hf
    · exact .inl hexp

/-- One step keeps the invariant, unless it is a false acknowledgement. -/
theorem Inv.step (hfit : c.data.length < 2 ^ 64) (h : Inv c myMac s) {e : WireEvent}
    (hok : ¬FalseAck c s e) (hs : step c myMac s e = some s') : Inv c myMac s' := by
  cases e with
  | send a =>
    obtain ⟨p, hp, rfl⟩ := Option.map_eq_some_iff.mp hs
    exact h.send hfit hp
  | hear =>
    unfold Wire.step at hs
    dsimp only at hs
    split at hs
    · exact absurd hs (by simp)
    · rename_i f rest hq
      cases hs
      exact h.hear hq hok
  | receive =>
    unfold Wire.step at hs
    dsimp only at hs
    split at hs
    · exact absurd hs (by simp)
    · rename_i f rest hq
      cases hs
      exact h.receive hfit hq
  | timeout =>
    cases hs
    exact h.timeout
  | drop d i =>
    obtain ⟨-, hs⟩ := Option.ite_none_right_eq_some.mp hs
    cases hs
    exact h.setQueue d (fun f hf => .inl (List.mem_of_mem_eraseIdx hf))
      (fun R _ hR => hR.sublist (List.eraseIdx_sublist _ i)) hfit
  | alter d i frame' =>
    unfold Wire.step at hs
    dsimp only at hs
    split at hs
    · exact absurd hs (by simp)
    · obtain ⟨halt, hs⟩ := Option.ite_none_right_eq_some.mp hs
      cases hs
      refine h.setQueue d (fun f hf => ?_) (fun R hexp hR => ?_) hfit
      · rcases List.mem_or_eq_of_mem_set hf with hf | rfl
        · exact .inl hf
        · exact .inr halt.2.2
      · exact pairwise_set hR (fun f _ => hexp f _ (.inr halt.2.2))
          fun f _ => hexp _ f (.inl halt.2.2)

/-- Every DATA packet that counts as acknowledged has been accepted. -/
theorem Inv.ackedAccepted (h : Inv c myMac s) : s.AckedAccepted c := by
  intro k h1 hk hdone
  rcases hdone with hacked | hlt
  · exact h.sender.of_acked hacked h1 hk
  · exact h.sender.slid k h1 hlt h1 hk

/-- A false acknowledgement counts. -/
theorem not_ackedAccepted (myMac : Mac) {e : WireEvent} (hfalse : FalseAck c s e) :
    ∃ t, Wire.step c myMac s e = some t ∧ ¬t.AckedAccepted c := by
  cases e with
  | hear =>
    obtain ⟨f, rest, k, w, hq, -, hread, h1, hk, hflight, hnot⟩ := hfalse
    refine ⟨{ s with sender := s.sender.hear c f, toSender := rest }, ?_, fun hall => hnot ?_⟩
    · unfold Wire.step
      rw [hq]
    · exact hall k h1 hk (.inl (Sender.isAcked_hear hread hflight))
  | _ => exact hfalse.elim

/-- In a run every DATA packet that counts as acknowledged has been accepted, in every state,
    exactly when the listener takes no altered frame for the acknowledgement of a packet in flight
    that was not accepted. -/
theorem acked_accepted_iff (c : Session) (myMac : Mac) (hfit : c.data.length < 2 ^ 64)
    (es : List WireEvent) :
    (∀ pre s, pre <+: es → run (Wire.step c myMac) start pre = some s → s.AckedAccepted c) ↔
      Along (Wire.step c myMac) (fun s e => ¬FalseAck c s e) start es :=
  along_iff_reached (I := Inv c myMac) (fun _ _ _ h hok hs => h.step hfit hok hs)
    (fun _ h => h.ackedAccepted) (fun _ _ _ hfalse => not_ackedAccepted myMac hfalse)
    (inv_start c myMac)

/-! ## An altered acknowledgement -/

open Link (sampleSrc sampleDst oneByte)

/-- The acknowledgement of START with its sequence number altered from 0 to 1. -/
def alteredAck : Bytes := (ackFrame sampleSrc sampleDst oneByte.sessionId 0 512).set 22 1

/-- START is sent twice and acknowledged twice. The DATA packet is lost, and the second
    acknowledgement is altered to its number. -/
def alteredRun : List WireEvent :=
  [.send .go, .send .go, .send .expire, .send .go, .receive, .receive, .hear, .send .go, .send .go,
    .send .go, .send .go, .drop .toReceiver 0, .alter .toSender 0 alteredAck, .hear]

theorem alteredRun_end :
    ∃ s, run (Wire.step oneByte sampleDst) start alteredRun = some s ∧
      s.sender.isAcked 1 = true ∧ ¬s.Accepted oneByte 1 := by
  have hres : (run (Wire.step oneByte sampleDst) start alteredRun).map
      (fun s => (s.sender.isAcked 1, s.receiver.reassembledData,
        s.receiver.outOfOrderBuffer.lookup 1, s.closed.length)) = some (true, [], none, 0) := by
    decide +kernel
  obtain ⟨s, hs, heq⟩ := Option.map_eq_some_iff.mp hres
  refine ⟨s, hs, congrArg Prod.fst heq, ?_⟩
  have hdata : s.receiver.reassembledData = [] := congrArg (fun x => x.2.1) heq
  have hbuf : s.receiver.outOfOrderBuffer.lookup 1 = none := congrArg (fun x => x.2.2.1) heq
  have hclosed : s.closed = [] := List.eq_nil_of_length_eq_zero (congrArg (fun x => x.2.2.2) heq)
  rintro ⟨r, hr, hkeeps⟩
  rw [hclosed] at hr
  obtain rfl := List.mem_singleton.mp hr
  rcases hkeeps with hpiece | hlook
  · rw [hdata] at hpiece
    exact absurd hpiece (by decide)
  · rw [hbuf] at hlook
    exact absurd hlook (by simp)

/-- The packet counts as acknowledged and has not arrived. -/
theorem alteredAck_counts :
    ∃ s, run (Wire.step oneByte sampleDst) start alteredRun = some s ∧
      ¬s.AckedAccepted oneByte := by
  obtain ⟨s, hs, hacked, hnot⟩ := alteredRun_end
  exact ⟨s, hs, fun hall => hnot (hall 1 (by decide) (by decide) (.inl hacked))⟩

/-- So that run has a false acknowledgement. -/
theorem acked_accepted_iff_altered :
    ¬Along (Wire.step oneByte sampleDst) (fun s e => ¬FalseAck oneByte s e) start alteredRun := by
  intro halong
  obtain ⟨s, hs, hacked, hnot⟩ := alteredRun_end
  have hall := (acked_accepted_iff oneByte sampleDst (by decide) alteredRun).mpr halong
    alteredRun s List.prefix_rfl hs
  exact hnot (hall 1 (by decide) (by decide) (.inl hacked))

end Wire

end CdsGuard.Guard
