import CdsGuard.Discovery.Responder
import Mathlib.Data.List.GetD

/-
  The whole discovery handshake: `CdsGatewayFinder`, which looks for a gateway by PING and PONG,
  and `CdsGatewayDiscorverGuard`, by which the gateway looks for the guard with GUAR and RAUG, on
  a network that loses, repeats, reorders and makes up datagrams. All parties share one key.

  Two things are assumed of a run: no HMAC verifies for bytes that no party has signed
  (`Unforged`), and no nonce is drawn twice (`Fresh`).

  Proved: whoever finds a port has been answered by a responder of the kind it looks for, which
  has that port, after it drew the nonce, and nobody else drew it (`found_is_answered`). Of the
  address that is found nothing is known: the handshake comes to its end for a reply from
  anywhere (`handshake_completes`).
-/

namespace CdsGuard.Discovery

open CdsGuard.Lib

/-! ## Who looks for whom -/

/-- What is looked for. -/
inductive Kind where
  | gateway
  | guard
  deriving DecidableEq

def Kind.responder : Kind → Responder
  | gateway => CdsGatewayStartDiscoveryResponder
  | guard => CdsGuardStartDiscoveryResponder

/-- `std::array<std::uint8_t, 12>`. -/
abbrev Nonce : Type := { nonce : Bytes // nonce.length = 12 }

/-- The nonce of the request that lies in a buffer. -/
def Buffer.nonce (buf : Buffer) : Nonce :=
  ⟨(buf.val.drop 4).take 12, by
    rw [List.length_take, List.length_drop, buf.property]
    rfl⟩

/-- `ntohs` on a little-endian machine. -/
def ntohs (port : UInt16) : UInt16 := port >>> 8 ||| port <<< 8

/-- How the port is read from two bytes: the finder takes them as they lie in memory. -/
def Kind.readPort : Kind → UInt8 → UInt8 → UInt16
  | gateway, b4, b5 => UInt16.ofNat (leVal [b4, b5])
  | guard, b4, b5 => ntohs (b4.toUInt16 <<< 8 ||| b5.toUInt16)

/-- A call of `CdsGatewayDiscorverGuard` ends with the first datagram, whatever it is. -/
def Kind.once : Kind → Bool
  | gateway => false
  | guard => true

section

variable (hmacPsk : Bytes → Mac) (kind : Kind)

/-- What is signed of a request, and of a reply. -/
def Kind.requestBody (nonce : Nonce) : Bytes := kind.responder.tag ++ nonce.val

def Kind.replyBody (controlPort : UInt16) (nonce : Nonce) : Bytes :=
  kind.responder.replyTag ++ kind.responder.portBytes controlPort ++ nonce.val

/-- The datagram that is broadcast. -/
def Kind.request (nonce : Nonce) : Bytes :=
  kind.requestBody nonce ++ (hmacPsk (kind.requestBody nonce)).val

/-- The checks on a reply, and the port in it. -/
def Kind.handlePong (nonce : Nonce) (d : Bytes) : Option UInt16 :=
  if d.length ≠ 4 + 2 + 12 + 32 then none
  else if d.take 4 ≠ kind.responder.replyTag then none
  else if (d.drop 6).take 12 ≠ nonce.val then none
  else if (hmacPsk (d.take (4 + 2 + 12))).val ≠ d.drop 18 then none
  else some (kind.readPort (d.getD 4 0) (d.getD 5 0))

end

/-! ## The network -/

/-- What the parties have done. -/
inductive Entry (ι κ : Type) where
  | drew (i : ι) (nonce : Nonce)
  | answered (k : κ) (nonce : Nonce) (address : Bytes)
  | found (i : ι) (nonce : Nonce) (address : Bytes) (port : UInt16)

/-- All parties. A seeker that listens takes the next datagram on its port. -/
structure Net (ι κ : Type) where
  nonces : ι → Nonce
  listening : ι → Bool
  buffers : κ → Buffer
  log : List (Entry ι κ)

inductive NetEvent (ι κ : Type) where
  /-- A seeker draws a nonce and broadcasts its request. -/
  | discover (i : ι) (nonce : Nonce)
  /-- The two seconds are over. -/
  | timeout (i : ι)
  /-- A datagram reaches a responder. -/
  | receive (k : κ) (d : Datagram)
  /-- A datagram reaches a seeker. -/
  | reply (i : ι) (d : Datagram)

section

variable {ι κ : Type} [DecidableEq ι] [DecidableEq κ]

/-- The kinds of the seekers, and the responders with the control ports that they announce. -/
structure Parties (ι κ : Type) where
  seeker : ι → Kind
  responder : κ → Kind
  controlPort : κ → UInt16

variable (hmacPsk : Bytes → Mac) (P : Parties ι κ)

/-- Before any `discover` the finder's nonce is whatever lies in memory, and so are the buffers. -/
def Net.start (nonces : ι → Nonce) (buffers : κ → Buffer) : Net ι κ :=
  ⟨nonces, fun i => !(P.seeker i).once, buffers, []⟩

def step (s : Net ι κ) : NetEvent ι κ → Option (Net ι κ)
  | .discover i nonce =>
    if (P.seeker i).once && s.listening i then none
    else some { s with
      nonces := Function.update s.nonces i nonce
      listening := Function.update s.listening i true
      log := s.log ++ [.drew i nonce] }
  | .timeout i =>
    some { s with listening := Function.update s.listening i (!(P.seeker i).once) }
  | .receive k d =>
    let r := (P.responder k).responder
    let buf := (receiveFrom (s.buffers k) d.payload).1
    let s := { s with buffers := Function.update s.buffers k buf }
    match r.answer hmacPsk (P.controlPort k) buf (min d.payload.length 64) with
    | none => some s
    | some _ => some { s with log := s.log ++ [.answered k buf.nonce d.address] }
  | .reply i d =>
    if s.listening i then
      let s' := { s with listening := Function.update s.listening i (!(P.seeker i).once) }
      match (P.seeker i).handlePong hmacPsk (s.nonces i) d.payload with
      | none => some s'
      | some port => some { s' with log := s.log ++ [.found i (s.nonces i) d.address port] }
    else none

/-! ## Assumptions -/

/-- The bytes that a party computed an HMAC of, to send it. -/
def Signed (log : List (Entry ι κ)) (body : Bytes) : Prop :=
  (∃ i nonce, .drew i nonce ∈ log ∧ body = (P.seeker i).requestBody nonce) ∨
    ∃ k nonce address, .answered k nonce address ∈ log ∧
      body = (P.responder k).replyBody (P.controlPort k) nonce

/-- An HMAC that verifies is one that a party has computed. -/
def Unforged (s : Net ι κ) : NetEvent ι κ → Prop
  | .receive k d =>
    let buf := (receiveFrom (s.buffers k) d.payload).1.val
    (hmacPsk (buf.take 16)).val = (buf.drop 16).take 32 → Signed P s.log (buf.take 16)
  | .reply _ d =>
    (hmacPsk (d.payload.take 18)).val = d.payload.drop 18 → Signed P s.log (d.payload.take 18)
  | _ => True

/-- A nonce is one that nobody has had. -/
def Fresh (s : Net ι κ) : NetEvent ι κ → Prop
  | .discover _ nonce => ∀ j, s.nonces j ≠ nonce ∧ .drew j nonce ∉ s.log
  | _ => True

end

/-! ## Ports -/

theorem ntohs_htons (port : UInt16) : ntohs (htons port) = port := by
  apply UInt16.toBitVec_inj.mp
  apply BitVec.eq_of_getLsbD_eq
  intro i hi
  interval_cases i <;> simp [ntohs, htons]

/-- The two bytes that are pushed are put together again. -/
theorem join_split (x : UInt16) :
    (x >>> 8 &&& 0xff).toUInt8.toUInt16 <<< 8 ||| (x &&& 0xff).toUInt8.toUInt16 = x := by
  apply UInt16.toNat_inj.mp
  have hlt := x.toNat_lt
  have hhigh : x.toNat / 256 % 256 = x.toNat / 256 := Nat.mod_eq_of_lt (by omega)
  have hshift : (x.toNat / 256) <<< 8 % 65536 = (x.toNat / 256) <<< 8 := by
    rw [Nat.shiftLeft_eq]
    omega
  have hjoin := Nat.shiftLeft_add_eq_or_of_lt (Nat.mod_lt x.toNat (by decide : 0 < 2 ^ 8))
    (x.toNat / 256)
  simp [Nat.shiftRight_eq_div_pow, Nat.and_two_pow_sub_one_eq_mod _ 8, hhigh, hshift]
  rw [← hjoin, Nat.shiftLeft_eq]
  omega

/-- The port that a responder announces is the port that is read. -/
theorem readPort_portBytes (kind : Kind) (port : UInt16) :
    ∃ b4 b5, kind.responder.portBytes port = [b4, b5] ∧ kind.readPort b4 b5 = port := by
  cases kind with
  | gateway =>
    refine ⟨_, _, rfl, ?_⟩
    have hval : leVal (leBytes 2 port.toNat) = port.toNat := leVal_leBytes_of_lt port.toNat_lt
    exact (congrArg UInt16.ofNat hval).trans UInt16.ofNat_toNat
  | guard =>
    refine ⟨_, _, rfl, ?_⟩
    rw [Kind.readPort, join_split, ntohs_htons]

/-! ## Messages -/

theorem Kind.replyTag_length (kind : Kind) : kind.responder.replyTag.length = 4 := by
  cases kind <;> rfl

theorem Kind.portBytes_length (kind : Kind) (port : UInt16) :
    (kind.responder.portBytes port).length = 2 := by
  cases kind <;> rfl

theorem Kind.tag_inj {k k' : Kind} (h : k.responder.tag = k'.responder.tag) : k = k' := by
  revert h
  cases k <;> cases k' <;> decide

theorem Kind.replyTag_inj {k k' : Kind} (h : k.responder.replyTag = k'.responder.replyTag) :
    k = k' := by
  revert h
  cases k <;> cases k' <;> decide

theorem Kind.requestBody_length (kind : Kind) (nonce : Nonce) :
    (kind.requestBody nonce).length = 16 := by
  rw [Kind.requestBody, List.length_append, kind.responder.tag_length, nonce.property]

theorem Kind.replyBody_length (kind : Kind) (port : UInt16) (nonce : Nonce) :
    (kind.replyBody port nonce).length = 18 := by
  rw [Kind.replyBody, List.length_append, List.length_append, kind.replyTag_length,
    kind.portBytes_length, nonce.property]

section

variable {ι κ : Type} {hmacPsk : Bytes → Mac} {P : Parties ι κ} {log : List (Entry ι κ)}

/-- Requests and replies cannot be taken for one another. -/
theorem Signed.request {body : Bytes} (h : Signed P log body) (hlen : body.length = 16) :
    ∃ i nonce, .drew i nonce ∈ log ∧ body = (P.seeker i).requestBody nonce := by
  obtain hrequest | ⟨k, nonce, address, -, rfl⟩ := h
  · exact hrequest
  · rw [Kind.replyBody_length] at hlen
    omega

theorem Signed.reply {body : Bytes} (h : Signed P log body) (hlen : body.length = 18) :
    ∃ k nonce address, .answered k nonce address ∈ log ∧
      body = (P.responder k).replyBody (P.controlPort k) nonce := by
  obtain ⟨i, nonce, -, rfl⟩ | hreply := h
  · rw [Kind.requestBody_length] at hlen
    omega
  · exact hreply

/-- What the checks on a reply say. -/
theorem handlePong_some {kind : Kind} {nonce : Nonce} {d : Bytes} {port : UInt16}
    (h : kind.handlePong hmacPsk nonce d = some port) :
    d.length = 50 ∧ d.take 4 = kind.responder.replyTag ∧ (d.drop 6).take 12 = nonce.val ∧
      (hmacPsk (d.take 18)).val = d.drop 18 ∧ kind.readPort (d.getD 4 0) (d.getD 5 0) = port := by
  unfold Kind.handlePong at h
  simp only [Option.ite_none_left_eq_some, not_not] at h
  obtain ⟨hlen, htag, hnonce, hmac, hport⟩ := h
  exact ⟨hlen, htag, hnonce, hmac, Option.some.inj hport⟩

/-- A reply that passes the checks is that of a responder of the right kind, to the nonce, and has
    its port. -/
theorem handlePong_signed {kind : Kind} {nonce : Nonce} {d : Bytes} {port : UInt16}
    (h : kind.handlePong hmacPsk nonce d = some port) (hsigned : Signed P log (d.take 18)) :
    ∃ k address, .answered k nonce address ∈ log ∧ P.responder k = kind ∧
      P.controlPort k = port := by
  obtain ⟨hlen, htag, hnonce, -, hport⟩ := handlePong_some h
  obtain ⟨k, nonce', address, hanswered, hbody⟩ :=
    hsigned.reply (by rw [List.length_take, hlen]; rfl)
  obtain ⟨b4, b5, hbytes, hread⟩ := readPort_portBytes (P.responder k) (P.controlPort k)
  have htag' := (P.responder k).replyTag_length
  have hd : d = (P.responder k).replyBody (P.controlPort k) nonce' ++ d.drop 18 := by
    rw [← hbody, List.take_append_drop]
  rw [Kind.replyBody, hbytes] at hd
  have hkind : P.responder k = kind := by
    refine Kind.replyTag_inj ?_
    rw [← htag, hd, List.append_assoc, List.append_assoc, ← htag', List.take_left]
  have hnonce' : nonce' = nonce := by
    refine Subtype.ext ?_
    have hfront : ((P.responder k).responder.replyTag ++ [b4, b5]).length = 6 := by
      rw [List.length_append, htag']
      rfl
    rw [← hnonce, hd, List.append_assoc, ← hfront, List.drop_left, List.take_left' nonce'.property]
  refine ⟨k, address, hnonce' ▸ hanswered, hkind, ?_⟩
  rw [← hport, ← hread, ← hkind]
  have h4 : d.getD 4 0 = b4 := by
    rw [hd, List.append_assoc, List.append_assoc,
      List.getD_append_right _ _ _ _ htag'.le, htag']
    rfl
  have h5 : d.getD 5 0 = b5 := by
    rw [hd, List.append_assoc, List.append_assoc,
      List.getD_append_right _ _ _ _ (by omega), htag']
    rfl
  rw [h4, h5]

/-- A request that is answered was drawn by a seeker of the responder's kind. -/
theorem answer_signed {k : Kind} {controlPort : UInt16} {buf : Buffer} {n : Nat} {pong : Bytes}
    (h : k.responder.answer hmacPsk controlPort buf n = some pong)
    (hsigned : Signed P log (buf.val.take 16)) :
    ∃ i, P.seeker i = k ∧ .drew i buf.nonce ∈ log := by
  obtain ⟨-, htag, -, -⟩ := answer_eq_some_iff.mp h
  obtain ⟨i, nonce, hdrew, hbody⟩ := hsigned.request (by rw [List.length_take, buf.property]; rfl)
  have hsplit : buf.val.take 16 = buf.val.take 4 ++ (buf.val.drop 4).take 12 :=
    List.take_add (i := 4) (j := 12)
  rw [hsplit, Kind.requestBody] at hbody
  obtain ⟨hfront, hback⟩ := List.append_inj hbody (by
    rw [htag, k.responder.tag_length, (P.seeker i).responder.tag_length])
  refine ⟨i, Kind.tag_inj (hfront.symm.trans htag), ?_⟩
  have hnonce : nonce = buf.nonce := Subtype.ext hback.symm
  rwa [← hnonce]

/-! ## What is behind an entry -/

/-- What has been done before. -/
def Entry.Backed (P : Parties ι κ) (before : List (Entry ι κ)) : Entry ι κ → Prop
  | .drew _ nonce => ∀ j, .drew j nonce ∉ before
  | .answered k nonce _ => ∃ i, P.seeker i = P.responder k ∧ .drew i nonce ∈ before
  | .found i nonce _ port => .drew i nonce ∈ before ∧ ∃ k address,
      .answered k nonce address ∈ before ∧ P.responder k = P.seeker i ∧ P.controlPort k = port

def Ordered (P : Parties ι κ) (log : List (Entry ι κ)) : Prop :=
  ∀ before e after, log = before ++ e :: after → e.Backed P before

theorem Ordered.snoc {e : Entry ι κ} (h : Ordered P log) (he : e.Backed P log) :
    Ordered P (log ++ [e]) := by
  intro before e' after hsplit
  rcases List.eq_nil_or_concat' after with rfl | ⟨init, last, rfl⟩
  · obtain ⟨rfl, hlast⟩ := List.append_inj' hsplit rfl
    obtain rfl := List.singleton_inj.mp hlast
    exact he
  · rw [← List.cons_append, ← List.append_assoc] at hsplit
    obtain ⟨rfl, -⟩ := List.append_inj' hsplit rfl
    exact h before e' init rfl

/-- A nonce is drawn once. -/
theorem Ordered.draw_unique (h : Ordered P log) {i j : ι} {nonce : Nonce}
    (hi : .drew i nonce ∈ log) (hj : .drew j nonce ∈ log) : i = j := by
  obtain ⟨before, after, rfl⟩ := List.append_of_mem hi
  rcases List.mem_append.mp hj with hj | hj
  · exact absurd hj (h before _ after rfl j)
  · rcases List.mem_cons.mp hj with heq | hj
    · cases heq
      rfl
    · obtain ⟨mid, rest, rfl⟩ := List.append_of_mem hj
      have hback := h (before ++ .drew i nonce :: mid) (.drew j nonce) rest (by
        rw [List.append_assoc, List.cons_append])
      exact absurd hi fun _ => hback i (List.mem_append_right _ List.mem_cons_self)

/-! ## One step -/

/-- Every entry has what must have been done before it, and a seeker's nonce is one that it drew,
    or one that nobody has drawn. -/
structure Inv (P : Parties ι κ) (s : Net ι κ) : Prop where
  ordered : Ordered P s.log
  nonces : ∀ i, .drew i (s.nonces i) ∈ s.log ∨ ∀ j, .drew j (s.nonces i) ∉ s.log

variable {s s' : Net ι κ}

theorem inv_start (nonces : ι → Nonce) (buffers : κ → Buffer) :
    Inv P (Net.start P nonces buffers) where
  ordered := fun before e after h => absurd h (by simp [Net.start])
  nonces := fun i => .inr fun j h => absurd h List.not_mem_nil

/-- An entry that draws nothing. -/
theorem Inv.snoc (h : Inv P s) {e : Entry ι κ} (he : e.Backed P s.log)
    (hdraw : ∀ i nonce, e ≠ .drew i nonce) (hlog : s'.log = s.log ++ [e])
    (hnonces : s'.nonces = s.nonces) : Inv P s' where
  ordered := hlog ▸ h.ordered.snoc he
  nonces := by
    intro i
    rw [hlog, hnonces]
    refine (h.nonces i).imp (List.mem_append_left _) fun hnot j hmem => ?_
    rcases List.mem_append.mp hmem with hmem | hmem
    · exact hnot j hmem
    · exact hdraw j _ (List.mem_singleton.mp hmem).symm

theorem Inv.draw [DecidableEq ι] (h : Inv P s) {i : ι} {nonce : Nonce}
    (hfresh : Fresh s (.discover i nonce : NetEvent ι κ)) (hlog : s'.log = s.log ++ [.drew i nonce])
    (hnonces : s'.nonces = Function.update s.nonces i nonce) : Inv P s' where
  ordered := hlog ▸ h.ordered.snoc fun j => (hfresh j).2
  nonces := by
    intro j
    rw [hlog, hnonces]
    by_cases hj : j = i
    · subst hj
      rw [Function.update_self]
      exact .inl (List.mem_append_right _ (List.mem_singleton_self _))
    · rw [Function.update_of_ne hj]
      refine (h.nonces j).imp (List.mem_append_left _) fun hnot k hmem => ?_
      rcases List.mem_append.mp hmem with hmem | hmem
      · exact hnot k hmem
      · obtain ⟨-, heq⟩ := Entry.drew.inj (List.mem_singleton.mp hmem)
        exact (hfresh j).1 heq

variable [DecidableEq ι] [DecidableEq κ]

theorem Inv.step (h : Inv P s) {e : NetEvent ι κ} (hunforged : Unforged hmacPsk P s e)
    (hfresh : Fresh s e) (hs : step hmacPsk P s e = some s') : Inv P s' := by
  cases e with
  | discover i nonce =>
    obtain ⟨-, hs⟩ := Option.ite_none_left_eq_some.mp hs
    cases hs
    exact h.draw hfresh rfl rfl
  | timeout i =>
    cases hs
    exact ⟨h.ordered, h.nonces⟩
  | receive k d =>
    unfold Discovery.step at hs
    dsimp only at hs
    split at hs
    · cases hs
      exact ⟨h.ordered, h.nonces⟩
    · rename_i pong hanswer
      cases hs
      obtain ⟨-, -, hmac, -⟩ := answer_eq_some_iff.mp hanswer
      have hbacked : (Entry.answered k _ d.address).Backed P s.log :=
        answer_signed hanswer (hunforged hmac)
      exact h.snoc hbacked (fun _ _ => by simp) rfl rfl
  | reply i d =>
    obtain ⟨-, hs⟩ := Option.ite_none_right_eq_some.mp hs
    dsimp only at hs
    split at hs
    · cases hs
      exact ⟨h.ordered, h.nonces⟩
    · rename_i port hpong
      cases hs
      obtain ⟨-, -, -, hmac, -⟩ := handlePong_some hpong
      obtain ⟨k, address, hanswered, hkind, hport⟩ := handlePong_signed hpong (hunforged hmac)
      -- the nonce that was answered had been drawn, so it is not an old one of memory
      have hdrew : .drew i (s.nonces i) ∈ s.log := by
        obtain ⟨before, after, hsplit⟩ := List.append_of_mem hanswered
        obtain ⟨j, -, hdrew⟩ := h.ordered before _ after hsplit
        exact (h.nonces i).resolve_right fun hnot =>
          hnot j (by rw [hsplit]; exact List.mem_append_left _ hdrew)
      have hbacked : (Entry.found i (s.nonces i) d.address port).Backed P s.log :=
        ⟨hdrew, k, address, hanswered, hkind, hport⟩
      exact h.snoc hbacked (fun _ _ => by simp) rfl rfl

/-! ## Runs -/

theorem run_inv {nonces : ι → Nonce} {buffers : κ → Buffer} {es : List (NetEvent ι κ)}
    (halong : Along (Discovery.step hmacPsk P) (fun s e => Unforged hmacPsk P s e ∧ Fresh s e)
      (Net.start P nonces buffers) es)
    (hrun : run (Discovery.step hmacPsk P) (Net.start P nonces buffers) es = some s) : Inv P s :=
  run_invariant_along (fun _ _ _ h he hs => h.step he.1 he.2 hs) (inv_start nonces buffers) halong
    hrun

/-- A seeker that finds a port drew its nonce, which nobody else drew; after that a responder of
    the kind that it looks for, which has the port, answered the nonce. -/
theorem found_is_answered (hmacPsk : Bytes → Mac) (P : Parties ι κ) (nonces : ι → Nonce)
    (buffers : κ → Buffer) (es : List (NetEvent ι κ)) (s : Net ι κ)
    (halong : Along (Discovery.step hmacPsk P) (fun s e => Unforged hmacPsk P s e ∧ Fresh s e)
      (Net.start P nonces buffers) es)
    (hrun : run (Discovery.step hmacPsk P) (Net.start P nonces buffers) es = some s) :
    ∀ before i nonce address port after, s.log = before ++ .found i nonce address port :: after →
      (∀ j, .drew j nonce ∈ s.log → j = i) ∧
      ∃ k peer first mid last, P.responder k = P.seeker i ∧ P.controlPort k = port ∧
        before = first ++ .drew i nonce :: (mid ++ .answered k nonce peer :: last) := by
  intro before i nonce address port after hlog
  have hordered := (run_inv halong hrun).ordered
  obtain ⟨hdrew, k, peer, hanswered, hkind, hport⟩ := hordered before _ after hlog
  have hmem : ∀ e ∈ before, e ∈ s.log := fun e he => by
    rw [hlog]
    exact List.mem_append_left _ he
  have hunique : ∀ j, .drew j nonce ∈ s.log → j = i :=
    fun j hj => hordered.draw_unique hj (hmem _ hdrew)
  refine ⟨hunique, k, peer, ?_⟩
  obtain ⟨front, last, rfl⟩ := List.append_of_mem hanswered
  obtain ⟨j, -, hdrewj⟩ := hordered front (.answered k nonce peer)
    (last ++ .found i nonce address port :: after) (by rw [hlog]; simp)
  obtain rfl := hunique j (hmem _ (List.mem_append_left _ hdrewj))
  obtain ⟨first, mid, rfl⟩ := List.append_of_mem hdrewj
  exact ⟨first, mid, last, hkind, hport, by simp⟩

/-! ## A handshake that is not disturbed -/

/-- An authentic request is answered, whatever lay in the buffer. -/
theorem answer_of_authentic {r : Responder} (controlPort : UInt16) (buf : Buffer) {payload : Bytes}
    {nonce : Nonce} (h : r.Authentic hmacPsk payload nonce.val) :
    r.answer hmacPsk controlPort (receiveFrom buf payload).1 (min payload.length 64) =
        some (r.pong hmacPsk controlPort nonce.val) ∧
      (receiveFrom buf payload).1.nonce = nonce := by
  have hlen := authentic_length h
  obtain ⟨-, hpayload⟩ := h
  have hbody : (r.tag ++ nonce.val).length = 16 := by
    rw [List.length_append, r.tag_length, nonce.property]
  have hverify : (receiveFrom buf payload).1.val.take 16 = r.tag ++ nonce.val := by
    rw [received_take buf (by omega) (by omega), hpayload, List.take_left' hbody]
  have hmac : ((receiveFrom buf payload).1.val.drop 16).take 32 =
      (hmacPsk (r.tag ++ nonce.val)).val := by
    rw [received_drop hlen, hpayload, List.drop_left' hbody]
  have htag : (receiveFrom buf payload).1.val.take 4 = r.tag := by
    have hfront := congrArg (List.take 4) hverify
    rwa [List.take_take, Nat.min_eq_left (by omega), List.take_left' r.tag_length] at hfront
  have hnonce : ((receiveFrom buf payload).1.val.drop 4).take 12 = nonce.val := by
    rw [List.take_drop, hverify, List.drop_left' r.tag_length]
  refine ⟨answer_eq_some_iff.mpr ⟨by omega, htag, by rw [hverify, hmac], by rw [hnonce]⟩, ?_⟩
  exact Subtype.ext hnonce

/-- The reply of a responder passes the checks of a seeker of its kind. -/
theorem handlePong_pong (hmacPsk : Bytes → Mac) (kind : Kind) (controlPort : UInt16)
    (nonce : Nonce) :
    kind.handlePong hmacPsk nonce (kind.responder.pong hmacPsk controlPort nonce.val) =
      some controlPort := by
  obtain ⟨b4, b5, hbytes, hread⟩ := readPort_portBytes kind controlPort
  have htag := kind.replyTag_length
  have hbody := kind.replyBody_length controlPort nonce
  have hpong : kind.responder.pong hmacPsk controlPort nonce.val =
      kind.replyBody controlPort nonce ++ (hmacPsk (kind.replyBody controlPort nonce)).val := rfl
  have hlen : (kind.responder.pong hmacPsk controlPort nonce.val).length = 50 := by
    rw [hpong, List.length_append, hbody, (hmacPsk _).property]
  have hsplit : kind.responder.pong hmacPsk controlPort nonce.val =
      kind.responder.replyTag ++ (b4 :: b5 :: (nonce.val ++
        (hmacPsk (kind.replyBody controlPort nonce)).val)) := by
    rw [hpong, Kind.replyBody, hbytes, List.append_assoc, List.append_assoc, List.append_assoc]
    rfl
  have hfront : (kind.responder.pong hmacPsk controlPort nonce.val).drop 4 =
      b4 :: b5 :: (nonce.val ++ (hmacPsk (kind.replyBody controlPort nonce)).val) := by
    rw [hsplit, List.drop_left' htag]
  have hnonce : ((kind.responder.pong hmacPsk controlPort nonce.val).drop 6).take 12 =
      nonce.val := by
    rw [show 6 = 4 + 2 from rfl, ← List.drop_drop, hfront]
    exact List.take_left' nonce.property
  unfold Kind.handlePong
  rw [if_neg (not_not.mpr hlen), if_neg, if_neg (not_not.mpr hnonce), if_neg]
  · rw [hsplit, List.getD_append_right _ _ _ _ htag.le, htag,
      List.getD_append_right _ _ _ _ (by omega), htag]
    exact congrArg some hread
  · rw [hpong, List.take_left' hbody, List.drop_left' hbody]
    exact not_not.mpr rfl
  · rw [hsplit, List.take_left' htag]
    exact not_not.mpr rfl

/-- A responder answers an authentic request. -/
theorem step_receive (s : Net ι κ) {k : κ} {d : Datagram} {nonce : Nonce}
    (h : (P.responder k).responder.Authentic hmacPsk d.payload nonce.val) :
    ∃ s', Discovery.step hmacPsk P s (.receive k d) = some s' ∧ s'.nonces = s.nonces ∧
      s'.listening = s.listening ∧ s'.log = s.log ++ [.answered k nonce d.address] := by
  obtain ⟨hanswer, hnonce⟩ :=
    answer_of_authentic (P.controlPort k) (s.buffers k) h
  rw [Discovery.step]
  dsimp only
  rw [hanswer, hnonce]
  exact ⟨_, rfl, rfl, rfl, rfl⟩

/-- A seeker takes the reply to its nonce. -/
theorem step_reply (hmacPsk : Bytes → Mac) (P : Parties ι κ) {i : ι} (address : Bytes)
    (controlPort : UInt16) (h : s.listening i = true) :
    ∃ s', Discovery.step hmacPsk P s (.reply i ⟨address,
        (P.seeker i).responder.pong hmacPsk controlPort (s.nonces i).val⟩) = some s' ∧
      s'.log = s.log ++ [.found i (s.nonces i) address controlPort] := by
  have hpong := handlePong_pong hmacPsk (P.seeker i) controlPort (s.nonces i)
  rw [Discovery.step, if_pos h]
  dsimp only
  rw [hpong]
  exact ⟨_, rfl, rfl⟩

/-- The request and the reply of a handshake, from `client` and from `address`. -/
def handshake (hmacPsk : Bytes → Mac) (P : Parties ι κ) (i : ι) (k : κ) (nonce : Nonce)
    (client address : Bytes) : List (NetEvent ι κ) :=
  [.discover i nonce, .receive k ⟨client, (P.seeker i).request hmacPsk nonce⟩,
    .reply i ⟨address, (P.seeker i).responder.pong hmacPsk (P.controlPort k) nonce.val⟩]

theorem run_handshake (hmacPsk : Bytes → Mac) (P : Parties ι κ) (s : Net ι κ) (i : ι) (k : κ)
    (hkind : P.responder k = P.seeker i) (hfree : ((P.seeker i).once && s.listening i) = false)
    (nonce : Nonce) (client address : Bytes) :
    ∃ s', run (Discovery.step hmacPsk P) s (handshake hmacPsk P i k nonce client address) =
        some s' ∧
      s'.log = s.log ++ [.drew i nonce, .answered k nonce client,
        .found i nonce address (P.controlPort k)] := by
  set d : Datagram := ⟨client, (P.seeker i).request hmacPsk nonce⟩
  set s₁ : Net ι κ := { s with
    nonces := Function.update s.nonces i nonce
    listening := Function.update s.listening i true
    log := s.log ++ [.drew i nonce] }
  have hdiscover : Discovery.step hmacPsk P s (.discover i nonce) = some s₁ := by
    rw [Discovery.step, hfree, if_neg Bool.false_ne_true]
  have hauthentic : (P.responder k).responder.Authentic hmacPsk d.payload nonce.val := by
    rw [hkind]
    exact ⟨nonce.property, rfl⟩
  obtain ⟨s₂, hreceive, hnonces, hlistening, hlog₂⟩ := step_receive s₁ hauthentic
  have hnonce : s₂.nonces i = nonce := by
    rw [hnonces]
    exact Function.update_self i nonce s.nonces
  have hlistens : s₂.listening i = true := by
    rw [hlistening]
    exact Function.update_self i true s.listening
  obtain ⟨s₃, hreply, hlog₃⟩ := step_reply hmacPsk P address (P.controlPort k) hlistens
  rw [hnonce] at hreply hlog₃
  refine ⟨s₃, ?_, ?_⟩
  · rw [handshake, run_step hdiscover, run_step hreceive, run_step hreply]
    rfl
  · rw [hlog₃, hlog₂, List.append_assoc, List.append_assoc]
    rfl

theorem handshake_along (hmacPsk : Bytes → Mac) (P : Parties ι κ) (s : Net ι κ) (i : ι) (k : κ)
    (hkind : P.responder k = P.seeker i) (nonce : Nonce) (client address : Bytes)
    (hfresh : ∀ j, s.nonces j ≠ nonce ∧ .drew j nonce ∉ s.log) :
    Along (Discovery.step hmacPsk P) (fun s e => Unforged hmacPsk P s e ∧ Fresh s e) s
      (handshake hmacPsk P i k nonce client address) := by
  have hauthentic : (P.responder k).responder.Authentic hmacPsk
      ((P.seeker i).request hmacPsk nonce) nonce.val := by
    rw [hkind]
    exact ⟨nonce.property, rfl⟩
  have hlen := authentic_length hauthentic
  refine ⟨⟨trivial, hfresh⟩, fun s₁ h₁ => ⟨⟨fun _ => .inl ⟨i, nonce, ?_, ?_⟩, trivial⟩,
    fun s₂ h₂ => ⟨⟨fun _ => .inr ⟨k, nonce, client, ?_, ?_⟩, trivial⟩, fun _ _ => trivial⟩⟩⟩
  · obtain ⟨-, h₁⟩ := Option.ite_none_left_eq_some.mp h₁
    cases h₁
    exact List.mem_append_right _ (List.mem_singleton_self _)
  · rw [received_take _ (by rw [hlen]; decide) (by decide)]
    exact List.take_left' ((P.seeker i).requestBody_length nonce)
  · obtain ⟨s₂', hstep, -, -, hlog⟩ := step_receive s₁ (d := ⟨client, _⟩) hauthentic
    obtain rfl := Option.some.inj (hstep.symm.trans h₂)
    rw [hlog]
    exact List.mem_append_right _ (List.mem_singleton_self _)
  · rw [hkind]
    exact List.take_left' ((P.seeker i).replyBody_length (P.controlPort k) nonce)

/-- From any state, with anything in the buffer of the responder: a request with a fresh nonce and
    its reply, if they arrive, let the seeker find the responder's port. It finds it at the address
    that the reply came from, and that can be any: no HMAC had to be forged for it. -/
theorem handshake_completes (hmacPsk : Bytes → Mac) (P : Parties ι κ) (s : Net ι κ) (i : ι) (k : κ)
    (hkind : P.responder k = P.seeker i) (hfree : ((P.seeker i).once && s.listening i) = false)
    (nonce : Nonce) (hfresh : ∀ j, s.nonces j ≠ nonce ∧ .drew j nonce ∉ s.log)
    (client address : Bytes) :
    Along (Discovery.step hmacPsk P) (fun s e => Unforged hmacPsk P s e ∧ Fresh s e) s
        (handshake hmacPsk P i k nonce client address) ∧
      ∃ s', run (Discovery.step hmacPsk P) s (handshake hmacPsk P i k nonce client address) =
          some s' ∧
        s'.log = s.log ++ [.drew i nonce, .answered k nonce client,
          .found i nonce address (P.controlPort k)] :=
  ⟨handshake_along hmacPsk P s i k hkind nonce client address hfresh,
    run_handshake hmacPsk P s i k hkind hfree nonce client address⟩

end

/-- One guard and its gateway. -/
def sampleParties : Parties Unit Unit := ⟨fun _ => .guard, fun _ => .guard, fun _ => 4242⟩

def sampleNonce : Nonce := ⟨List.replicate 12 7, rfl⟩

def sampleStart : Net Unit Unit :=
  Net.start sampleParties (fun _ => ⟨List.replicate 12 0, rfl⟩) fun _ => zeroBuffer

def sampleHandshake : List (NetEvent Unit Unit) :=
  handshake sampleMac sampleParties () () sampleNonce [10, 0, 0, 2] [10, 0, 0, 9]

theorem sampleStart_fresh (j : Unit) :
    sampleStart.nonces j ≠ sampleNonce ∧ .drew j sampleNonce ∉ sampleStart.log :=
  ⟨fun h => absurd (congrArg Subtype.val h) (by cases j; decide), List.not_mem_nil⟩

theorem handshake_completes_sample :
    Along (step sampleMac sampleParties)
        (fun s e => Unforged sampleMac sampleParties s e ∧ Fresh s e) sampleStart sampleHandshake ∧
      ∃ s', run (step sampleMac sampleParties) sampleStart sampleHandshake = some s' ∧
        s'.log = [] ++ [.drew () sampleNonce, .answered () sampleNonce [10, 0, 0, 2],
          .found () sampleNonce [10, 0, 0, 9] 4242] :=
  handshake_completes sampleMac sampleParties sampleStart () () rfl rfl sampleNonce
    sampleStart_fresh [10, 0, 0, 2] [10, 0, 0, 9]

/-- In that run, what is found was answered. -/
theorem found_is_answered_sample :
    ∃ s, run (step sampleMac sampleParties) sampleStart sampleHandshake = some s ∧
      (∀ j, Entry.drew j sampleNonce ∈ s.log → j = ()) ∧
      ∃ k peer first mid last, sampleParties.responder k = .guard ∧
        sampleParties.controlPort k = 4242 ∧
        [Entry.drew () sampleNonce, Entry.answered () sampleNonce [10, 0, 0, 2]] =
          first ++ .drew () sampleNonce :: (mid ++ .answered k sampleNonce peer :: last) := by
  obtain ⟨s, hrun, hlog⟩ := run_handshake sampleMac sampleParties sampleStart () () rfl rfl
    sampleNonce [10, 0, 0, 2] [10, 0, 0, 9]
  refine ⟨s, hrun, ?_⟩
  exact found_is_answered sampleMac sampleParties _ _ sampleHandshake s
    (handshake_along sampleMac sampleParties sampleStart () () rfl sampleNonce [10, 0, 0, 2]
      [10, 0, 0, 9] sampleStart_fresh) hrun _ () sampleNonce [10, 0, 0, 9] 4242 [] hlog

end CdsGuard.Discovery
