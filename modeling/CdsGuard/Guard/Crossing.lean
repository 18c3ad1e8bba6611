import CdsGuard.Gateway.Release
import CdsGuard.Guard.Delivery
import CdsGuard.Guard.L2Progress
import CdsGuard.Guard.SendMode

/-
  From one domain to the other: the gateway, its connections to the sending guard, and the link
  between the guards, as one system. `callback_func` opens a connection for each payload and
  writes the encrypted message; `run_send_mode` reads it to the end and hands it to a new
  `GuardL2Sender`; `run_recv_mode` forwards what `receive_reliable_data` returns.

  Proved: `crossing_is_released`. Whatever the link loses, repeats or reorders and however the
  threads interleave, all that is forwarded to final receivers is payloads that the gateway has
  released, whole, to the destinations that their uploads named.
-/

namespace CdsGuard.Guard

open CdsGuard.Lib CdsGuard.Packet CdsGuard.Gateway CdsGuard.Client

/-! ## Payloads that are passed on -/

/-- Filtering changes the data of a payload and nothing else. -/
structure Enveloped (s : State) : Prop where
  tasks : ∀ t ∈ s.tasks, t.payload = { t.job.payload with data := t.payload.data }
  passed : ∀ jp ∈ s.passed, jp.2 = { jp.1.payload with data := jp.2.data }

/-- `is_txt_file` is only set for files. -/
def TxtIsFile (p : ReceivedPayload) : Prop := p.isTxtFile = true → p.isFile = true

theorem markTxt_of_txtIsFile {p q : ReceivedPayload} (hp : TxtIsFile p)
    (hq : q = { p with data := q.data }) : markTxt q = q := by
  unfold markTxt
  split
  · rename_i htxt
    rw [hq] at htxt ⊢
    have hfile : p.isFile = true := hp htxt
    rw [hfile]
  · rfl

theorem visit_enveloped {s : State} (h : Enveloped s) (i : Nat) {t : Task} (ht : t ∈ s.tasks)
    (f : CensorFuture) : Enveloped (s.visit i t f) := by
  have hcall : ∀ p : ReceivedPayload, p = { t.job.payload with data := p.data } →
      Enveloped (s.callback i t.job p) := by
    intro p hp
    refine ⟨fun u hu => h.tasks u (List.mem_of_mem_eraseIdx hu), fun jp hjp => ?_⟩
    rcases List.mem_append.mp hjp with hjp | hjp
    · exact h.passed jp hjp
    · rw [List.mem_singleton.mp hjp]
      exact hp
  have henv := h.tasks t ht
  unfold State.visit
  split
  · exact ⟨h.tasks, h.passed⟩
  · exact hcall _ henv
  · exact ⟨h.tasks, h.passed⟩
  · split
    · refine hcall _ ?_
      rw [henv]
    · exact hcall _ henv
  · exact ⟨h.tasks, h.passed⟩

theorem step_enveloped {s s' : State} {e : Event} (h : Enveloped s)
    (htxt : ∀ j ∈ s.jobs, TxtIsFile j.payload) (hs : step s e = some s') : Enveloped s' := by
  have htake : ∀ (job : Job) (rest : List Job), Enveloped (s.take job rest) := by
    intro job rest
    refine ⟨fun t ht => ?_, h.passed⟩
    rcases List.mem_append.mp ht with ht | ht
    · exact h.tasks t ht
    · rw [List.mem_singleton.mp ht]
  cases step_cases hs with
  | accept =>
    unfold State.accept
    split
    · exact h
    · exact ⟨h.tasks, h.passed⟩
  | wakeTake job rest _ _ => exact htake job rest
  | relockTake job rest _ _ => exact htake job rest
  | enqueue atEnd ts t _ htasks _ =>
    refine ⟨fun u hu => ?_, h.passed⟩
    rcases List.mem_append.mp hu with hu | hu
    · exact h.tasks u (by rw [htasks]; exact List.mem_append_left _ hu)
    · have ht : t ∈ s.tasks := by
        rw [htasks]
        exact List.mem_append_right _ (List.mem_singleton_self t)
      have hjob : t.job ∈ s.jobs :=
        List.mem_append_right _ (List.mem_append_left _ (List.mem_map_of_mem ht))
      have henv := h.tasks t ht
      rw [List.mem_singleton.mp hu, Task.mark]
      dsimp only
      rw [markTxt_of_txtIsFile (htxt _ hjob) henv]
      exact henv
  | taskDone id i t _ ht =>
    refine ⟨fun u hu => ?_, h.passed⟩
    rcases List.mem_or_eq_of_mem_set hu with hu | rfl
    · exact h.tasks u hu
    · have henv := h.tasks t (List.mem_of_getElem? ht)
      rw [Task.finish]
      dsimp only
      rw [henv]
  | pollVisit i t f _ ht _ => exact visit_enveloped h i (List.mem_of_getElem? ht) f
  | _ => exact ⟨h.tasks, h.passed⟩

/-- A payload that `FileSinkSession` can have read, and that is not too long for the lengths of
    the message once it is filtered. -/
structure Deliverable (p : ReceivedPayload) (w : Work) : Prop where
  addressed : p.Addressed
  txtIsFile : TxtIsFile p
  size : ∀ d, (⟨0, p, w⟩ : Job).released = some d → d.length + p.fileName.length < 2 ^ 31 - 17

/-- What a run over such payloads has passed on. -/
structure PassedOk (jp : Job × ReceivedPayload) : Prop where
  envelope : jp.2 = { jp.1.payload with data := jp.2.data }
  released : jp.1.released = some jp.2.data
  deliverable : Deliverable jp.1.payload jp.1.work

theorem run_passedOk {es : List Event} {s : State} (hA : ∀ e ∈ es, e.Admitted Deliverable)
    (h : run step State.start es = some s) : ∀ jp ∈ s.passed, PassedOk jp := by
  have hinv : (∀ j ∈ s.jobs, Deliverable j.payload j.work) ∧ Enveloped s := by
    refine run_invariant_along
      (I := fun t => (∀ j ∈ t.jobs, Deliverable j.payload j.work) ∧ Enveloped t)
      (P := fun _ e => e.Admitted Deliverable) ?_ ?_ (along_of_forall hA) h
    · rintro t e t' ⟨hjobs, henv⟩ he hstep
      refine ⟨fun j hj => ?_, step_enveloped henv (fun j hj => (hjobs j hj).txtIsFile) hstep⟩
      rcases List.mem_append.mp ((step_jobs hstep).mem_iff.mp hj) with hold | hnew
      · exact hjobs j hold
      · exact pushed_admitted he j hnew
    · exact ⟨by simp [State.jobs, State.start], by simp [State.start], by simp [State.start]⟩
  intro jp hjp
  have hmem : jp.1 ∈ s.jobs :=
    List.mem_append_right _ (List.mem_append_right _ (List.mem_map_of_mem hjp))
  exact ⟨hinv.2.passed jp hjp, run_released h jp hjp, hinv.1 jp.1 hmem⟩

/-! ## The dispatched stream -/

theorem take_ipLen_length (ip : Addr16) (ver : UInt8) :
    (ip.bytes.take (ipLen ver)).length = ipLen ver := by
  rw [List.length_take, ip.length_eq, Nat.min_eq_left (ipLen_le ver)]

/-- The receiving guard forwards the stream of a payload to the destination of the payload, and
    the final receiver makes of it what it should. -/
def ArrivesAs (stale : Addr16) (recvData : Bytes) (p : ReceivedPayload) : Prop :=
  ∃ f, runRecvMode stale recvData = .forwarded f ∧
    f.destIp.ver = p.destIpVer ∧ f.destIp.bytes = p.destIp.bytes.take (ipLen p.destIpVer) ∧
    f.destPort = p.destPort ∧
    ∀ disk, onSocketDisconnected disk f.decryptedData = receivedAs disk p

theorem dispatch_arrives {p : ReceivedPayload} (hp : p.Addressed)
    (hsize : p.data.length + p.fileName.length < 2 ^ 31 - 17) (ivs : Nat → Block)
    (stale : Addr16) : ArrivesAs stale (dispatchFilteredPayloadTcp ivs p) p := by
  have hdata : dispatchFilteredPayloadTcp ivs p =
      [p.srcIpVer] ++ (p.srcIp.bytes.take (ipLen p.srcIpVer) ++ (beBytes 2 p.srcPort.toNat ++
        ([p.destIpVer] ++ (p.destIp.bytes.take (ipLen p.destIpVer) ++
          (beBytes 2 p.destPort.toNat ++
            getProtocolEngine.encryptSpan ivs (Span.ofVector (dispatchMessage p))))))) := by
    simp [dispatchFilteredPayloadTcp, dispatchHeader, hp.srcLen, hp.destLen]
  obtain ⟨span, hspan, hread⟩ := readForwarded_layout stale p.srcIpVer p.destIpVer _ _
    p.srcPort p.destPort
    (getProtocolEngine.encryptSpan ivs (Span.ofVector (dispatchMessage p)))
    (take_ipLen_length p.srcIp _) (take_ipLen_length p.destIp _)
  rw [← hdata] at hread
  have hne : ¬(dispatchFilteredPayloadTcp ivs p).isEmpty = true := by
    rw [hdata]
    exact Bool.false_ne_true
  obtain ⟨hver, hbytes⟩ := addressOf_overwrite p.destIpVer hp.destVer stale p.destIp
  refine ⟨_, by rw [runRecvMode, if_neg hne, hread], hver, hbytes, rfl, fun disk => ?_⟩
  have hmsg : getProtocolEngine.decryptSpan span = dispatchMessage p := by
    rw [getProtocolEngine.decryptSpan_encryptSpan getProtocolEngine_wellFormed ivs
      (Span.ofVector (dispatchMessage p)) span hspan, Span.toVector_ofVector]
  dsimp only
  rw [hmsg]
  exact onSocketDisconnected_dispatchMessage disk p hsize

/-- Header, prefix, IV and padding add less than 128 bytes. -/
theorem dispatch_length_lt (ivs : Nat → Block) (p : ReceivedPayload) :
    (dispatchFilteredPayloadTcp ivs p).length < p.data.length + p.fileName.length + 128 := by
  have hpad := padLen_le (shifted (dispatchMessage p)).length
  have haria := ariaEncrypt_length (List.replicate 32 0x01) (ivs 1) (shifted (dispatchMessage p))
  have hbody : getProtocolEngine.encryptSpan ivs (Span.ofVector (dispatchMessage p)) =
      paddingPrefix ++ ariaEncrypt (List.replicate 32 0x01) (ivs 1) (shifted (dispatchMessage p)) :=
    by
    rw [ProtocolEngine.encryptSpan, Span.toVector_ofVector]
    rfl
  have hshift : (shifted (dispatchMessage p)).length = (dispatchMessage p).length :=
    List.length_map _
  have hmsg : (dispatchMessage p).length ≤ p.data.length + p.fileName.length + 17 := by
    unfold dispatchMessage
    split <;> simp [fileTag, textTag] <;> omega
  have hheader : (dispatchHeader p).length ≤ 38 := by
    have hsrc := p.srcIp.length_eq
    have hdest := p.destIp.length_eq
    simp [dispatchHeader]
    omega
  have hblock : blockSize = 16 := rfl
  have hprefix : paddingPrefix.length = 4 := rfl
  rw [dispatchFilteredPayloadTcp, hbody, List.length_append, List.length_append, haria]
  omega

theorem dispatch_ne_nil (ivs : Nat → Block) (p : ReceivedPayload) :
    dispatchFilteredPayloadTcp ivs p ≠ [] :=
  List.cons_ne_nil _ _

/-! ## The system -/

/-- A connection of the gateway to the sending guard: not made yet, being read, with its data
    handed to `send_reliable_data`, or ended without data. -/
inductive Conn where
  | free
  | reading (rest : Bytes) (loop : ReadLoop)
  | handed (data : Bytes)
  | ended

/-- What the call of `send_reliable_data` is given. -/
def Conn.data : Conn → Bytes
  | handed data => data
  | _ => []

def Conn.isHanded : Conn → Bool
  | handed _ => true
  | _ => false

/-- A `GuardL2Sender` before its call. -/
structure SenderObject where
  srcMac : Mac
  dstMac : Mac
  sessionId : Nat
  sessionId_lt : sessionId < 2 ^ 32

def SenderObject.session (o : SenderObject) (data : Bytes) : Session :=
  ⟨o.srcMac, o.dstMac, o.sessionId, o.sessionId_lt, data⟩

structure Bridge (ι : Type) where
  gateway : State
  /-- How many calls of `callback_func` have been dispatched. -/
  dispatched : Nat
  conns : ι → Conn
  link : Link ι

inductive BridgeEvent (ι : Type) where
  | gateway (e : Event)
  /-- `DispatchFilteredPayloadTcp` connects, and is accepted as connection `i`. -/
  | connect (i : ι) (ivs : Nat → Block)
  /-- It finds no guard. -/
  | unreachable
  /-- `read_some` gives the guard a piece of the stream; the read loop ends. -/
  | read (i : ι) (chunk : Bytes)
  | close (i : ι) (e : ReadEnd)
  | link (e : LinkEvent ι)

/-- What happens in the gateway. -/
def BridgeEvent.gateway? {ι : Type} : BridgeEvent ι → Option Event
  | .gateway e => some e
  | _ => none

namespace Bridge

variable {ι : Type} (objects : ι → SenderObject) (myMac : Mac)

def start : Bridge ι where
  gateway := State.start
  dispatched := 0
  conns := fun _ => .free
  link := Link.start

/-- The sessions of the calls, one for each connection. -/
def sessions (s : Bridge ι) (i : ι) : Session := (objects i).session (s.conns i).data

/-- A sender object exists once its connection has been read. -/
def hasSender (s : Bridge ι) : LinkEvent ι → Bool
  | .send i _ | .hear i _ => (s.conns i).isHanded
  | _ => true

section

variable [DecidableEq ι]

def setConn (s : Bridge ι) (i : ι) (conn : Conn) : Bridge ι :=
  { s with conns := Function.update s.conns i conn }

@[simp] theorem setConn_self (s : Bridge ι) (i : ι) (conn : Conn) :
    (s.setConn i conn).conns i = conn :=
  Function.update_self ..

def step (s : Bridge ι) : BridgeEvent ι → Option (Bridge ι)
  | .gateway e => (Gateway.step s.gateway e).map fun g => { s with gateway := g }
  | .connect i ivs =>
    match s.conns i, s.gateway.passed[s.dispatched]? with
    | .free, some (_, p) =>
      some { s.setConn i (.reading (dispatchFilteredPayloadTcp ivs p) .start) with
        dispatched := s.dispatched + 1 }
    | _, _ => none
  | .unreachable =>
    if s.dispatched < s.gateway.passed.length then
      some { s with dispatched := s.dispatched + 1 }
    else none
  | .read i chunk =>
    match s.conns i with
    | .reading rest loop =>
      if chunk <+: rest then
        (loop.readSome chunk).map fun loop' =>
          s.setConn i (.reading (rest.drop chunk.length) loop')
      else none
    | _ => none
  | .close i e =>
    match s.conns i with
    | .reading rest loop =>
      -- the end of the stream is behind its last byte
      if e = .eof ∧ rest ≠ [] then none
      else
        match loop.finish e with
        | [] => some (s.setConn i .ended)
        | data :: _ => some (s.setConn i (.handed data))
    | _ => none
  | .link e =>
    if s.hasSender e then
      (Link.step (s.sessions objects) myMac s.link e).map fun l => { s with link := l }
    else none

end

/-! ## Invariant -/

/-- The gateway after events whose sessions hand over deliverable payloads. -/
def Reached (g : State) : Prop :=
  ∃ es, (∀ e ∈ es, e.Admitted Deliverable) ∧ run Gateway.step State.start es = some g

/-- A connection carries the stream of a payload that was passed on. -/
def ConnOk (passed : List (Job × ReceivedPayload)) : Conn → Prop
  | .reading rest loop => ∃ jp ∈ passed, ∃ ivs read,
      dispatchFilteredPayloadTcp ivs jp.2 = read ++ rest ∧ loop.Holds read
  | .handed data => ∃ jp ∈ passed, ∃ ivs, data = dispatchFilteredPayloadTcp ivs jp.2
  | _ => True

/-- A call of `send_reliable_data` that has begun, or can. -/
def Call (s : Bridge ι) : Type := { j : ι × Bytes // s.conns j.1 = .handed j.2 }

def call (s : Bridge ι) (j : s.Call) : Session := (objects j.1.1).session j.1.2

/-- What holds after every step. The frames in the medium, the session that the receiver is in and
    the data returned are those of calls. -/
structure Inv (s : Bridge ι) : Prop where
  gateway : Reached s.gateway
  conns : ∀ i, ConnOk s.gateway.passed (s.conns i)
  idle : ∀ i, (s.conns i).isHanded = false → s.link.senders i = .fresh
  senders : ∀ i, (s.link.senders i).Inv (s.sessions objects i) fun _ => True
  air : ∀ f ∈ s.link.air, IsSessionFrame (s.call objects) f ∨ IsAck myMac f
  receiver : s.link.receiver.Follows (s.call objects)
  results : ∀ x ∈ s.link.results, x = .timedOut ∨ ∃ j, x = .complete (s.call objects j).data

variable {objects myMac} {s s' : Bridge ι}

theorem inv_start : Inv objects myMac start where
  gateway := ⟨[], fun _ h => absurd h (by simp), rfl⟩
  conns := fun _ => trivial
  idle := fun _ _ => rfl
  senders := fun i => Sender.inv_fresh _ _
  air := fun _ hf => absurd hf (by simp [start, Link.start])
  receiver := Receiver.follows_call ∅
  results := fun _ hx => absurd hx (by simp [start, Link.start])

theorem Inv.passedOk (h : Inv objects myMac s) : ∀ jp ∈ s.gateway.passed, PassedOk jp := by
  obtain ⟨es, hes, hrun⟩ := h.gateway
  exact run_passedOk hes hrun

theorem Inv.handed (h : Inv objects myMac s) {i : ι} {data : Bytes}
    (hi : s.conns i = .handed data) :
    ∃ jp ∈ s.gateway.passed, ∃ ivs, data = dispatchFilteredPayloadTcp ivs jp.2 := by
  have hok := h.conns i
  rw [hi] at hok
  exact hok

/-- A passed payload keeps within the limit of `send_reliable_data`. -/
theorem PassedOk.size {jp : Job × ReceivedPayload} (h : PassedOk jp) :
    jp.2.data.length + jp.2.fileName.length < 2 ^ 31 - 17 := by
  have hsize := h.deliverable.size jp.2.data h.released
  rw [h.envelope]
  exact hsize

theorem Inv.call_size (h : Inv objects myMac s) (j : s.Call) :
    (s.call objects j).data.length < 1400 * (2 ^ 32 - 2) := by
  obtain ⟨jp, hjp, ivs, hdata⟩ := h.handed j.2
  have hsize := PassedOk.size (h.passedOk jp hjp)
  have hlt := dispatch_length_lt ivs jp.2
  show j.1.2.length < _
  rw [hdata]
  omega

/-- What a call returns is forwarded as a payload that was passed on. -/
theorem Inv.arrives (h : Inv objects myMac s) {x : CallResult} (hx : x ∈ s.link.results)
    (hne : x.vector ≠ []) : ∃ jp ∈ s.gateway.passed, PassedOk jp ∧
      ∀ stale, ArrivesAs stale x.vector { jp.1.payload with data := jp.2.data } := by
  rcases h.results x hx with rfl | ⟨⟨⟨i, data⟩, hi⟩, rfl⟩
  · exact absurd rfl hne
  obtain ⟨jp, hjp, ivs, rfl⟩ := h.handed hi
  have hok := h.passedOk jp hjp
  refine ⟨jp, hjp, hok, fun stale => ?_⟩
  rw [← hok.envelope]
  have haddr : jp.2.Addressed := by
    rw [hok.envelope]
    have hp := hok.deliverable.addressed
    exact ⟨hp.srcVer, hp.srcLen, hp.destVer, hp.destLen⟩
  exact dispatch_arrives haddr (PassedOk.size hok) ivs stale

theorem call_injective (hids : Function.Injective fun i => (objects i).sessionId) :
    Function.Injective fun j => (s.call objects j).sessionId := by
  rintro ⟨⟨i, d⟩, hi⟩ ⟨⟨k, e⟩, hk⟩ h
  obtain rfl : i = k := hids h
  have hd : Conn.handed d = Conn.handed e := hi.symm.trans hk
  cases hd
  rfl

/-- A step that leaves the link alone and keeps the calls. -/
theorem Inv.frame (h : Inv objects myMac s) (hgateway : Reached s'.gateway)
    (hpassed : ∀ jp ∈ s.gateway.passed, jp ∈ s'.gateway.passed) (hlink : s'.link = s.link)
    (hkeep : ∀ i, s'.conns i = s.conns i ∨
      (s.conns i).isHanded = false ∧ ConnOk s'.gateway.passed (s'.conns i)) :
    Inv objects myMac s' := by
  have hcall : ∀ j : s.Call, ∃ j' : s'.Call, s'.call objects j' = s.call objects j := by
    intro j
    rcases hkeep j.1.1 with hsame | ⟨hnot, -⟩
    · exact ⟨⟨j.1, hsame.trans j.2⟩, rfl⟩
    · rw [j.2] at hnot
      exact absurd hnot (by simp [Conn.isHanded])
  refine ⟨hgateway, fun i => ?_, fun i hi => ?_, fun i => ?_, fun f hf => ?_, fun hactive => ?_,
    fun x hx => ?_⟩
  · rcases hkeep i with hsame | ⟨-, hok⟩
    · have hok := h.conns i
      rw [hsame]
      cases hconn : s.conns i with
      | reading rest loop =>
        rw [hconn] at hok
        obtain ⟨jp, hjp, rest⟩ := hok
        exact ⟨jp, hpassed jp hjp, rest⟩
      | handed data =>
        rw [hconn] at hok
        obtain ⟨jp, hjp, rest⟩ := hok
        exact ⟨jp, hpassed jp hjp, rest⟩
      | _ => trivial
    · exact hok
  · rw [hlink]
    rcases hkeep i with hsame | ⟨hnot, -⟩
    · rw [hsame] at hi
      exact h.idle i hi
    · exact h.idle i hnot
  · rw [hlink]
    rcases hkeep i with hsame | ⟨hnot, -⟩
    · have hsess : s'.sessions objects i = s.sessions objects i := by
        rw [sessions, sessions, hsame]
      rw [hsess]
      exact h.senders i
    · rw [h.idle i hnot]
      exact Sender.inv_fresh _ _
  · rw [hlink] at hf
    refine (h.air f hf).imp_left ?_
    rintro ⟨j, k, rfl⟩
    obtain ⟨j', hj'⟩ := hcall j
    exact ⟨j', k, by rw [hj']⟩
  · rw [hlink] at hactive ⊢
    obtain ⟨j, hj⟩ := h.receiver hactive
    obtain ⟨j', hj'⟩ := hcall j
    exact ⟨j', by rw [hj']; exact hj⟩
  · rw [hlink] at hx
    refine (h.results x hx).imp_right ?_
    rintro ⟨j, rfl⟩
    obtain ⟨j', hj'⟩ := hcall j
    exact ⟨j', by rw [hj']⟩

theorem Inv.received (h : Inv objects myMac s) {p : Receiver × List Bytes × Option CallResult}
    (hp : Receiver.Sound (s.call objects) myMac p) :
    Inv objects myMac { s with link := s.link.received p } := by
  refine ⟨h.gateway, h.conns, h.idle, h.senders, fun f hf => ?_, ?_, fun x hx => ?_⟩
  · rcases List.mem_append.mp hf with hf | hf
    · exact h.air f hf
    · exact .inr (hp.acks f hf)
  · show Receiver.Follows _ (if p.2.2.isSome then .call p.1.outOfOrderBuffer else p.1)
    split
    · exact Receiver.follows_call _
    · exact hp.follows
  · rcases List.mem_append.mp hx with hx | hx
    · exact h.results x hx
    · exact .inr (hp.result x (by simpa using hx))

variable [DecidableEq ι]

theorem Inv.setConn (h : Inv objects myMac s) {i : ι} {c : Conn}
    (hi : (s.conns i).isHanded = false) (hconn : ConnOk s.gateway.passed c) :
    Inv objects myMac (s.setConn i c) := by
  refine h.frame h.gateway (fun _ hjp => hjp) rfl fun k => ?_
  by_cases hk : k = i
  · subst hk
    refine .inr ⟨hi, ?_⟩
    show ConnOk s.gateway.passed (Function.update s.conns k c k)
    rw [Function.update_self]
    exact hconn
  · exact .inl (Function.update_of_ne hk _ _)

/-- A sender object of a call moves, and sends frames of its session. -/
theorem Inv.update (h : Inv objects myMac s) {i : ι} (hi : (s.conns i).isHanded = true)
    {t : Sender} (ht : t.Inv (s.sessions objects i) fun _ => True) (out : List Bytes)
    (hout : ∀ f ∈ out, ∃ k, f = (s.sessions objects i).frame k) :
    Inv objects myMac { s with link := { s.link with
      senders := Function.update s.link.senders i t, air := s.link.air ++ out } } := by
  refine ⟨h.gateway, h.conns, fun k hk => ?_, fun k => ?_, fun f hf => ?_, h.receiver, h.results⟩
  · have hne : k ≠ i := by
      rintro rfl
      rw [hi] at hk
      cases hk
    show Function.update s.link.senders i t k = .fresh
    rw [Function.update_of_ne hne]
    exact h.idle k hk
  · show (Function.update s.link.senders i t k).Inv (s.sessions objects k) _
    by_cases hk : k = i
    · subst hk
      rw [Function.update_self]
      exact ht
    · rw [Function.update_of_ne hk]
      exact h.senders k
  · rcases List.mem_append.mp hf with hf | hf
    · exact h.air f hf
    · obtain ⟨k, rfl⟩ := hout f hf
      cases hconn : s.conns i with
      | handed data =>
        refine .inl ⟨⟨(i, data), hconn⟩, k, ?_⟩
        rw [sessions, hconn]
        rfl
      | _ =>
        rw [hconn] at hi
        cases hi

theorem Inv.link (hids : Function.Injective fun i => (objects i).sessionId)
    (h : Inv objects myMac s) {e : LinkEvent ι} (hsender : s.hasSender e = true) {l : Link ι}
    (hl : Link.step (s.sessions objects) myMac s.link e = some l) :
    Inv objects myMac { s with link := l } := by
  cases e with
  | send i a =>
    obtain ⟨⟨t, out⟩, hstep, rfl⟩ := Option.map_eq_some_iff.mp hl
    have hsize : (s.sessions objects i).data.length < 1400 * (2 ^ 32 - 2) := by
      cases hconn : s.conns i with
      | handed data =>
        have := h.call_size ⟨(i, data), hconn⟩
        rw [sessions, hconn]
        exact this
      | _ =>
        have hnot : (s.conns i).isHanded = true := hsender
        rw [hconn] at hnot
        cases hnot
    obtain ⟨ht, hout⟩ := Sender.step_inv hsize (h.senders i) hstep
    exact h.update hsender ht out fun f hf => (hout f hf).frame
  | hear i frame =>
    obtain ⟨-, hl⟩ := Option.ite_none_right_eq_some.mp hl
    cases hl
    have ht : ((s.link.senders i).hear (s.sessions objects i) frame).Inv (s.sessions objects i)
        fun _ => True := Sender.hear_inv (h.senders i) fun _ _ _ => trivial
    have hupd := h.update hsender ht [] fun _ hf => absurd hf (by simp)
    rw [List.append_nil] at hupd
    exact hupd
  | receive frame =>
    obtain ⟨hmem, hl⟩ := Option.ite_none_right_eq_some.mp hl
    cases hl
    refine h.received ?_
    rcases h.air frame hmem with ⟨j, k, rfl⟩ | hack
    · exact h.receiver.receive_frame myMac (call_injective hids) h.call_size j k
    · exact h.receiver.receive_ack h.call_size hack
  | timeout =>
    cases hl
    refine ⟨h.gateway, h.conns, h.idle, h.senders, h.air, Receiver.follows_call _, fun x hx => ?_⟩
    rcases List.mem_append.mp hx with hx | hx
    · exact h.results x hx
    · exact .inl (List.mem_singleton.mp hx)

end Bridge

/-- A call of `callback_func` stays one. -/
theorem passed_mono {g g' : State} {e : Event} (h : Gateway.step g e = some g') :
    ∀ jp ∈ g.passed, jp ∈ g'.passed := by
  intro jp hjp
  cases Gateway.step_cases h with
  | accept =>
    unfold State.accept
    split <;> exact hjp
  | pollVisit i t f _ _ _ =>
    have hcall : ∀ p, jp ∈ (g.callback i t.job p).passed := fun p => List.mem_append_left _ hjp
    unfold State.visit
    split
    · exact hjp
    · exact hcall _
    · exact hjp
    · split <;> exact hcall _
    · exact hjp
  | _ => exact hjp

namespace Bridge

/-- Completed sessions hand over deliverable payloads, and the guard reads every connection up to
    where the gateway closes it. -/
def Clean {ι : Type} : BridgeEvent ι → Prop
  | .gateway e => e.Admitted Deliverable
  | .close _ e => e = .eof
  | _ => True

variable {ι : Type} [DecidableEq ι] {objects : ι → SenderObject} {myMac : Mac} {s s' : Bridge ι}

theorem Inv.read (h : Inv objects myMac s) {i : ι} {rest chunk : Bytes} {loop loop' : ReadLoop}
    (hi : s.conns i = .reading rest loop) (hchunk : chunk <+: rest)
    (hread : loop.readSome chunk = some loop') :
    Inv objects myMac (s.setConn i (.reading (rest.drop chunk.length) loop')) := by
  have hok := h.conns i
  rw [hi] at hok
  obtain ⟨jp, hjp, ivs, read, hstream, hholds⟩ := hok
  obtain ⟨tail, rfl⟩ := hchunk
  refine h.setConn (by rw [hi]; rfl) ⟨jp, hjp, ivs, read ++ chunk, ?_, hholds.readSome hread⟩
  rw [List.drop_left, List.append_assoc]
  exact hstream

theorem Inv.close (h : Inv objects myMac s) {i : ι} {loop : ReadLoop}
    (hi : s.conns i = .reading [] loop) (conn : Conn)
    (hconn : conn = match loop.finish .eof with | [] => .ended | data :: _ => .handed data) :
    Inv objects myMac (s.setConn i conn) := by
  have hok := h.conns i
  rw [hi] at hok
  obtain ⟨jp, hjp, ivs, read, hstream, hholds⟩ := hok
  rw [List.append_nil] at hstream
  refine h.setConn (by rw [hi]; rfl) ?_
  rw [hconn, ReadLoop.finish, hholds.forwardData]
  split
  · trivial
  · rename_i data _ heq
    split at heq
    · cases heq
    · cases heq
      exact ⟨jp, hjp, ivs, hstream.symm⟩

/-- One step keeps the invariant. -/
theorem Inv.step (hids : Function.Injective fun i => (objects i).sessionId)
    (h : Inv objects myMac s) {e : BridgeEvent ι} (he : Clean e)
    (hs : step objects myMac s e = some s') : Inv objects myMac s' := by
  cases e with
  | gateway e =>
    obtain ⟨g, hg, rfl⟩ := Option.map_eq_some_iff.mp hs
    obtain ⟨es, hes, hrun⟩ := h.gateway
    refine h.frame ⟨es ++ [e], fun e' he' => ?_, ?_⟩ (passed_mono hg) rfl fun _ => .inl rfl
    · rcases List.mem_append.mp he' with he' | he'
      · exact hes e' he'
      · rw [List.mem_singleton.mp he']
        exact he
    · exact run_append_of hrun ((run_singleton _ _).trans hg)
  | connect i ivs =>
    unfold Bridge.step at hs
    dsimp only at hs
    split at hs
    · rename_i job p hfree hget
      cases hs
      have hset := h.setConn (i := i) (by rw [hfree]; rfl)
        (c := .reading (dispatchFilteredPayloadTcp ivs p) .start)
        ⟨(job, p), List.mem_of_getElem? hget, ivs, [], rfl, ReadLoop.holds_start⟩
      exact hset.frame hset.gateway (fun _ hjp => hjp) rfl fun _ => .inl rfl
    · cases hs
  | unreachable =>
    obtain ⟨-, hs⟩ := Option.ite_none_right_eq_some.mp hs
    cases hs
    exact h.frame h.gateway (fun _ hjp => hjp) rfl fun _ => .inl rfl
  | read i chunk =>
    unfold Bridge.step at hs
    dsimp only at hs
    split at hs
    · rename_i rest loop hi
      obtain ⟨hchunk, hs⟩ := Option.ite_none_right_eq_some.mp hs
      obtain ⟨loop', hread, rfl⟩ := Option.map_eq_some_iff.mp hs
      exact h.read hi hchunk hread
    · cases hs
  | close i e =>
    obtain rfl : e = .eof := he
    unfold Bridge.step at hs
    dsimp only at hs
    split at hs
    · rename_i rest loop hi
      obtain ⟨hrest, hs⟩ := Option.ite_none_left_eq_some.mp hs
      obtain rfl : rest = [] := by
        by_contra hne
        exact hrest ⟨rfl, hne⟩
      cases hfin : loop.finish .eof with
      | nil =>
        rw [hfin] at hs
        cases hs
        exact h.close hi .ended (by rw [hfin])
      | cons data more =>
        rw [hfin] at hs
        cases hs
        exact h.close hi (.handed data) (by rw [hfin])
    · cases hs
  | link e =>
    obtain ⟨hsender, hs⟩ := Option.ite_none_right_eq_some.mp hs
    obtain ⟨l, hl, rfl⟩ := Option.map_eq_some_iff.mp hs
    exact h.link hids hsender hl

theorem run_inv (hids : Function.Injective fun i => (objects i).sessionId)
    {es : List (BridgeEvent ι)} (hclean : ∀ e ∈ es, Clean e)
    (hrun : run (Bridge.step objects myMac) start es = some s) : Inv objects myMac s :=
  run_invariant_along (P := fun _ e => Clean e) (fun _ _ _ h he hs => h.step hids he hs) inv_start
    (along_of_forall hclean) hrun

/-- In every run over deliverable payloads in which connections are read to their ends, whatever
    a call of `receive_reliable_data` returns is forwarded as a payload that the gateway released:
    with the bytes it was released with, which are the censored ones if its filtering could not go
    wrong, and otherwise as it was uploaded. -/
theorem crossing_is_released (objects : ι → SenderObject) (myMac : Mac)
    (hids : Function.Injective fun i => (objects i).sessionId) (es : List (BridgeEvent ι))
    (s : Bridge ι) (hclean : ∀ e ∈ es, Clean e)
    (hrun : run (step objects myMac) start es = some s) :
    ∀ x ∈ s.link.results, x.vector ≠ [] → ∃ jp ∈ s.gateway.passed,
      jp.1.released = some jp.2.data ∧
      (Harmless jp.1.payload jp.1.work → jp.1.censored = some jp.2.data) ∧
      ∀ stale, ArrivesAs stale x.vector { jp.1.payload with data := jp.2.data } := by
  intro x hx hne
  obtain ⟨jp, hjp, hok, harrives⟩ := (run_inv hids hclean hrun).arrives hx hne
  refine ⟨jp, hjp, hok.released, fun hharmless => ?_, harrives⟩
  exact (harmless_iff jp.1).mp hharmless _ hok.released

/-! ## A text that crosses -/

def textPayload : ReceivedPayload :=
  { zeroPayload with
    data := [0x41, 0], srcIpVer := 4, srcIpLen := 4, destIpVer := 4, destIpLen := 4 }

/-- Nothing is found in it. -/
def quietWork : Work := ⟨some [], noArchive⟩

theorem textPayload_deliverable : Deliverable textPayload quietWork where
  addressed := ⟨.inl rfl, rfl, .inl rfl, rfl⟩
  txtIsFile := fun h => absurd h (by decide)
  size := fun d hd => by
    have hdata : (⟨0, textPayload, quietWork⟩ : Job).released = some [0x41, 0] := rfl
    rw [hdata] at hd
    cases hd
    decide

/-- The gateway's part: one session, one round of the loop. -/
def textEvents : List Event :=
  [.accept, .startSink 0, .endSink 0 (.ok (textPayload, quietWork)), .setBuildFlag true, .wake,
    .enqueue, .relock, .taskDone 0, .poll]

theorem run_textEvents : ∃ g, run Gateway.step State.start textEvents = some g ∧
    g.passed = [(⟨0, textPayload, quietWork⟩, textPayload)] :=
  ⟨_, rfl, rfl⟩

def oneObject : Unit → SenderObject := fun _ =>
  ⟨Link.sampleSrc, Link.sampleDst, 7, (Link.sampleSessions false).sessionId_lt⟩

/-- A short stream comes in one piece. -/
theorem readSome_start {stream : Bytes} (hne : stream ≠ []) (hlen : stream.length < 65535) :
    ∃ loop, ReadLoop.start.readSome stream = some loop := by
  have hstart := ReadLoop.start_length
  have hzero : ReadLoop.start.readedByteSize = 0 := rfl
  have hpos := List.length_pos_of_ne_nil hne
  rw [ReadLoop.readSome, ReadLoop.holds_start.offered, hstart, hzero,
    if_pos ⟨hpos, by omega⟩]
  dsimp only
  rw [overwriteAt_length (by omega), hstart, if_neg (by omega)]
  exact ⟨_, rfl⟩

/-- Once the data is handed over, the link can finish the call. -/
theorem run_handed {s : Bridge Unit} {data : Bytes} (hdata : data.length < 1400 * (2 ^ 32 - 513))
    (hconn : s.conns () = .handed data) (hlink : s.link = Link.start) :
    ∃ (es : List (LinkEvent Unit)) (s' : Bridge Unit),
      run (step oneObject Link.sampleDst) s (es.map .link) = some s' ∧
      s'.gateway = s.gateway ∧ .complete data ∈ s'.link.results := by
  have hgoing : Link.Going ((oneObject ()).session data) Link.sampleDst Link.start :=
    ⟨[], Link.live_start⟩
  obtain ⟨es, l, hrun, -, hl⟩ := hgoing.finishes hdata rfl trivial
  refine ⟨es, { s with link := l }, ?_, rfl, hl⟩
  have hs : s = { s with link := Link.start } := by rw [← hlink]
  rw [hs]
  refine run_lift (fun l => { s with link := l }) BridgeEvent.link (fun k e k' h => ?_) hrun
  have hsender : Bridge.hasSender { s with link := k } e = true := by
    cases e with
    | send i a => exact (congrArg Conn.isHanded hconn : (s.conns ()).isHanded = true)
    | hear i f => exact (congrArg Conn.isHanded hconn : (s.conns ()).isHanded = true)
    | _ => rfl
  have hsess : Bridge.sessions oneObject { s with link := k } =
      fun _ => (oneObject ()).session data := by
    funext i
    show (oneObject ()).session (s.conns ()).data = _
    rw [hconn]
    rfl
  rw [step, if_pos hsender, hsess]
  dsimp only
  rw [h]
  rfl

/-- What the gateway writes for it. -/
def textStream : Bytes := dispatchFilteredPayloadTcp (fun _ _ => 0) textPayload

theorem textStream_ne_nil : textStream ≠ [] := dispatch_ne_nil _ _

theorem textStream_length_lt : textStream.length < 130 := dispatch_length_lt _ _

/-- The gateway has passed the text on. -/
def textPassed (g : State) : Bridge Unit := { start with gateway := g }

/-- The connection for it is made. -/
def textConnected (g : State) : Bridge Unit :=
  { (textPassed g).setConn () (.reading textStream .start) with dispatched := 1 }

/-- Its stream is in the buffer of the guard. -/
def textRead (g : State) (loop : ReadLoop) : Bridge Unit :=
  (textConnected g).setConn () (.reading [] loop)

/-- Its stream is handed to `send_reliable_data`. -/
def textHanded (g : State) (loop : ReadLoop) : Bridge Unit :=
  (textRead g loop).setConn () (.handed textStream)

theorem run_textPassed {g : State} (h : run Gateway.step State.start textEvents = some g) :
    run (step oneObject Link.sampleDst) start (textEvents.map .gateway) = some (textPassed g) :=
  run_lift textPassed BridgeEvent.gateway (fun g e g' h => by rw [step, textPassed, h]; rfl) h

theorem step_textConnected {g : State}
    (hpassed : g.passed = [(⟨0, textPayload, quietWork⟩, textPayload)]) :
    step oneObject Link.sampleDst (textPassed g) (.connect () fun _ _ => 0) =
      some (textConnected g) := by
  have hget : (textPassed g).gateway.passed[(textPassed g).dispatched]? =
      some (⟨0, textPayload, quietWork⟩, textPayload) := by
    rw [textPassed]
    dsimp only
    rw [hpassed]
    rfl
  rw [step, hget]
  rfl

theorem step_textRead {g : State} {loop : ReadLoop}
    (hread : ReadLoop.start.readSome textStream = some loop) :
    step oneObject Link.sampleDst (textConnected g) (.read () textStream) =
      some (textRead g loop) := by
  have hconn : (textConnected g).conns () = .reading textStream .start :=
    setConn_self (textPassed g) () _
  rw [step, hconn]
  dsimp only
  rw [if_pos List.prefix_rfl, hread, List.drop_length]
  rfl

theorem step_textHanded {g : State} {loop : ReadLoop} (hfin : loop.finish .eof = [textStream]) :
    step oneObject Link.sampleDst (textRead g loop) (.close () .eof) =
      some (textHanded g loop) := by
  have hconn : (textRead g loop).conns () = .reading [] loop := setConn_self (textConnected g) () _
  rw [step, hconn]
  dsimp only
  rw [if_neg (by simp), hfin]
  rfl

/-- The payload is passed on, its connection read and closed, and the link finishes its call. -/
theorem text_crosses : ∃ es s, run (step oneObject Link.sampleDst) start es = some s ∧
    (∀ e ∈ es, Clean e) ∧ es.filterMap BridgeEvent.gateway? = textEvents ∧
    ∃ x ∈ s.link.results, x.vector ≠ [] := by
  obtain ⟨g, hg, hpassed⟩ := run_textEvents
  obtain ⟨loop, hread⟩ :=
    readSome_start textStream_ne_nil (textStream_length_lt.trans (by decide))
  have hfin : loop.finish .eof = [textStream] := by
    have hholds := ReadLoop.holds_start.readSome hread
    rw [ReadLoop.finish, hholds.forwardData, List.nil_append, if_neg textStream_ne_nil]
  obtain ⟨es, s, hrun₄, -, hmem⟩ := run_handed (textStream_length_lt.trans (by decide))
    (setConn_self (textRead g loop) () (.handed textStream)) rfl
  have hrun := run_append_of (run_textPassed hg) ((run_step (step_textConnected hpassed) _).trans
    ((run_step (step_textRead hread) _).trans ((run_step (step_textHanded hfin) _).trans hrun₄)))
  have hclean : ∀ e ∈ textEvents.map .gateway ++ .connect () (fun _ _ => 0) ::
      .read () textStream :: .close () .eof :: es.map .link, Clean e := by
    intro e he
    rcases List.mem_append.mp he with he | he
    · obtain ⟨ge, hge, rfl⟩ := List.mem_map.mp he
      simp only [textEvents, List.mem_cons, List.not_mem_nil, or_false] at hge
      rcases hge with rfl | rfl | rfl | rfl | rfl | rfl | rfl | rfl | rfl <;>
        first | exact textPayload_deliverable | trivial
    · simp only [List.mem_cons, List.mem_map] at he
      rcases he with rfl | rfl | rfl | ⟨e', -, rfl⟩
      · trivial
      · trivial
      · rfl
      · trivial
  have hlink : (es.map (@BridgeEvent.link Unit)).filterMap BridgeEvent.gateway? = [] := by
    rw [List.filterMap_map]
    exact List.filterMap_eq_nil_iff.mpr fun _ _ => rfl
  have hevents : (textEvents.map BridgeEvent.gateway ++
      BridgeEvent.connect () (fun _ _ => 0) :: BridgeEvent.read () textStream ::
        BridgeEvent.close () .eof :: es.map BridgeEvent.link).filterMap BridgeEvent.gateway? =
      textEvents := by
    rw [List.filterMap_append, List.filterMap_map, List.filterMap_cons_none rfl,
      List.filterMap_cons_none rfl, List.filterMap_cons_none rfl, hlink, List.append_nil]
    rfl
  exact ⟨_, s, hrun, hclean, hevents, _, hmem, textStream_ne_nil⟩

theorem crossing_is_released_text : ∃ es s, run (step oneObject Link.sampleDst) start es = some s ∧
    ∃ x ∈ s.link.results, ∃ jp ∈ s.gateway.passed, jp.1.released = some jp.2.data ∧
      ∀ stale, ArrivesAs stale x.vector { jp.1.payload with data := jp.2.data } := by
  obtain ⟨es, s, hrun, hclean, -, x, hx, hne⟩ := text_crosses
  obtain ⟨jp, hjp, hreleased, -, harrives⟩ := crossing_is_released oneObject Link.sampleDst
    (fun _ _ _ => rfl) es s hclean hrun x hx hne
  exact ⟨es, s, hrun, x, hx, jp, hjp, hreleased, harrives⟩

end Bridge

end CdsGuard.Guard
