import CdsGuard.Lib.Bytes
import CdsGuard.Lib.Transition

/-
  The discovery responders, `CdsGuardStartDiscoveryResponder` and
  `CdsGatewayStartDiscoveryResponder`: one loop over a UDP socket, with a tag, a reply tag and a
  reply port of its own each.

  The 64 bytes that the loop receives into live through all its rounds. A datagram overwrites
  as many of them as it has, a longer one is cut, and only its first four bytes are checked to
  have come; the HMAC is compared over the first 48 bytes of the buffer. So a datagram that is
  only the tag is answered after one that was authentic, with the nonce of that one.

  `hmacPsk` is an arbitrary function to 32 bytes. Proved: `answer_authentic_iff`, when one round
  answers only an authentic datagram, and `replies_authentic_iff`, when a run does.
-/

namespace CdsGuard.Discovery

open CdsGuard.Lib

/-- `std::array<std::uint8_t, 32>`. -/
abbrev Mac : Type := { mac : Bytes // mac.length = 32 }

/-- `std::array<char, 64> buf`. -/
abbrev Buffer : Type := { buf : Bytes // buf.length = 64 }

/-- A datagram and the address that it came from. -/
structure Datagram where
  address : Bytes
  payload : Bytes
  deriving DecidableEq

/-- A datagram sent to a port of an address. -/
structure Reply where
  address : Bytes
  port : Nat
  payload : Bytes
  deriving DecidableEq

/-- What a responder has of its own. -/
structure Responder where
  tag : Bytes
  tag_length : tag.length = 4
  replyTag : Bytes
  portBytes : UInt16 → Bytes
  replyPort : Nat

/-- `htons` on a little-endian machine. -/
def htons (port : UInt16) : UInt16 := port >>> 8 ||| port <<< 8

/-- `GUAR`, answered by `RAUG`. -/
def CdsGuardStartDiscoveryResponder : Responder where
  tag := [0x47, 0x55, 0x41, 0x52]
  tag_length := rfl
  replyTag := [0x52, 0x41, 0x55, 0x47]
  portBytes controlPort :=
    let networkOrderPort := htons controlPort
    [(networkOrderPort >>> 8 &&& 0xff).toUInt8, (networkOrderPort &&& 0xff).toUInt8]
  replyPort := 15053

/-- `PING`, answered by `PONG`; the port is copied as it lies in memory. -/
def CdsGatewayStartDiscoveryResponder : Responder where
  tag := [0x50, 0x49, 0x4e, 0x47]
  tag_length := rfl
  replyTag := [0x50, 0x4f, 0x4e, 0x47]
  portBytes controlPort := leBytes 2 controlPort.toNat
  replyPort := 15051

/-- Both responders put the low byte of the port first: the exchange of `htons` and the order in
    which its two bytes are pushed cancel. -/
theorem guardPort_eq_gatewayPort (port : UInt16) :
    CdsGuardStartDiscoveryResponder.portBytes port =
      CdsGatewayStartDiscoveryResponder.portBytes port := by
  simp only [CdsGuardStartDiscoveryResponder, CdsGatewayStartDiscoveryResponder, htons, leBytes]
  have hmasks : ∀ i (hi : i < 8), (255#8)[i] = true := by decide
  have hlow : ((port >>> 8 ||| port <<< 8) >>> 8 &&& 0xff).toUInt8 = UInt8.ofNat port.toNat := by
    apply UInt8.toBitVec_inj.mp
    apply BitVec.eq_of_getLsbD_eq
    intro i hi
    have hbeyond : port.toBitVec.getLsbD (8 + (8 + i)) = false :=
      BitVec.getLsbD_of_ge _ _ (by omega)
    have h16 : 8 + i < 16 := by omega
    have hmask : (255#8)[i] = true := hmasks i hi
    simp [hbeyond, hmask, hi, h16, BitVec.getLsbD_eq_getElem (show i < 16 by omega)]
  have hhigh : ((port >>> 8 ||| port <<< 8) &&& 0xff).toUInt8 =
      UInt8.ofNat (port.toNat / 256) := by
    apply UInt8.toNat_inj.mp
    have hshift : port.toNat <<< 8 % 256 = 0 := by rw [Nat.shiftLeft_eq]; omega
    have hmask := Nat.and_two_pow_sub_one_eq_mod (port.toNat / 256 % 256) 8
    simp [hshift, Nat.shiftRight_eq_div_pow]
    simpa using hmask
  rw [hlow, hhigh]

/-- `receive_from`: the buffer after it, and the number of bytes received. -/
def receiveFrom (buf : Buffer) (payload : Bytes) : Buffer × Nat :=
  (⟨payload.take 64 ++ buf.val.drop payload.length, by
      have := buf.property
      rw [List.length_append, List.length_take, List.length_drop]
      omega⟩, min payload.length 64)

section

variable (r : Responder) (hmacPsk : Bytes → Mac) (controlPort : UInt16)

/-- The reply to a nonce. -/
def Responder.pong (nonce : Bytes) : Bytes :=
  let pong := r.replyTag ++ r.portBytes controlPort ++ nonce
  pong ++ (hmacPsk pong).val

/-- The checks of one round on the buffer, and the bytes of the reply. -/
def Responder.answer (buf : Buffer) (n : Nat) : Option Bytes :=
  if n < 4 ∨ buf.val.take 4 ≠ r.tag then none
  else
    let verify := buf.val.take (4 + 12)
    if (hmacPsk verify).val ≠ (buf.val.drop 16).take 32 then none
    else some (r.pong hmacPsk controlPort ((buf.val.drop 4).take 12))

/-- A responder between two rounds: its buffer, and the datagrams so far with the reply that
    each one got. -/
structure State where
  buf : Buffer
  rounds : List (Datagram × Option Reply)

/-- The reply to a datagram, sent to the address that it came from. -/
def Responder.reply (buf : Buffer) (d : Datagram) : Option Reply :=
  let (buf, n) := receiveFrom buf d.payload
  (r.answer hmacPsk controlPort buf n).map fun pong => ⟨d.address, r.replyPort, pong⟩

/-- One round of the loop. -/
def Responder.round (s : State) (d : Datagram) : Option State :=
  some ⟨(receiveFrom s.buf d.payload).1, s.rounds ++ [(d, r.reply hmacPsk controlPort s.buf d)]⟩

/-! ## Authentic datagrams -/

/-- The datagram consists of the tag, a nonce and the HMAC of these. -/
def Responder.Authentic (payload nonce : Bytes) : Prop :=
  nonce.length = 12 ∧ payload = r.tag ++ nonce ++ (hmacPsk (r.tag ++ nonce)).val

/-- A reply is for an authentic datagram, and answers its nonce. -/
def Responder.AnswersIt : Datagram × Option Reply → Prop
  | (_, none) => True
  | (d, some reply) => ∃ nonce, r.Authentic hmacPsk d.payload nonce ∧
      reply = ⟨d.address, r.replyPort, r.pong hmacPsk controlPort nonce⟩

/-- A datagram with the tag that has not the length of an authentic one, where the HMAC fits the
    bytes that lie in the buffer after it, those left from before among them. -/
def Responder.FitsByRest (buf : Buffer) (payload : Bytes) : Prop :=
  payload.take 4 = r.tag ∧ payload.length ≠ 48 ∧
    (hmacPsk ((receiveFrom buf payload).1.val.take 16)).val =
      ((receiveFrom buf payload).1.val.drop 16).take 32

end

variable {r : Responder} {hmacPsk : Bytes → Mac} {controlPort : UInt16}

theorem authentic_length {payload nonce : Bytes} (h : r.Authentic hmacPsk payload nonce) :
    payload.length = 48 := by
  obtain ⟨hnonce, hpayload⟩ := h
  rw [hpayload, List.length_append, List.length_append, r.tag_length, hnonce,
    (hmacPsk (r.tag ++ nonce)).property]

/-- The front of the buffer is the front of the datagram, as far as that goes. -/
theorem received_take (buf : Buffer) {payload : Bytes} {k : Nat} (hk : k ≤ payload.length)
    (h64 : k ≤ 64) : (receiveFrom buf payload).1.val.take k = payload.take k := by
  unfold receiveFrom
  dsimp only
  rw [List.take_append_of_le_length (by rw [List.length_take]; omega), List.take_take,
    Nat.min_eq_left h64]

/-- A datagram of 48 bytes is what the checks look at. -/
theorem received_drop {buf : Buffer} {payload : Bytes} (h : payload.length = 48) :
    ((receiveFrom buf payload).1.val.drop 16).take 32 = payload.drop 16 := by
  have hfront := received_take buf (Nat.le_of_eq h.symm) (by omega)
  rw [List.take_of_length_le (Nat.le_of_eq h)] at hfront
  rw [List.take_drop, hfront]

theorem answer_eq_some_iff {buf : Buffer} {n : Nat} {pong : Bytes} :
    r.answer hmacPsk controlPort buf n = some pong ↔
      4 ≤ n ∧ buf.val.take 4 = r.tag ∧
      (hmacPsk (buf.val.take 16)).val = (buf.val.drop 16).take 32 ∧
      r.pong hmacPsk controlPort ((buf.val.drop 4).take 12) = pong := by
  unfold Responder.answer
  by_cases hfront : n < 4 ∨ buf.val.take 4 ≠ r.tag
  · rw [if_pos hfront]
    constructor
    · intro h
      exact absurd h (by simp)
    · intro h
      exact (hfront.elim (fun hn => absurd h.1 (by omega)) fun ht => ht h.2.1).elim
  · rw [if_neg hfront]
    push Not at hfront
    by_cases hmac : (hmacPsk (buf.val.take 16)).val = (buf.val.drop 16).take 32
    · simp [hfront.1, hfront.2, hmac]
    · simp [hmac]

/-! ## One round -/

/-- What the checks of a round say of the datagram that was just received. -/
theorem answer_received {buf : Buffer} {payload pong : Bytes}
    (h : r.answer hmacPsk controlPort (receiveFrom buf payload).1 (receiveFrom buf payload).2 =
      some pong) :
    payload.take 4 = r.tag ∧
      (hmacPsk ((receiveFrom buf payload).1.val.take 16)).val =
        ((receiveFrom buf payload).1.val.drop 16).take 32 ∧
      r.pong hmacPsk controlPort (((receiveFrom buf payload).1.val.drop 4).take 12) = pong := by
  obtain ⟨hn, htag, hmac, hpong⟩ := answer_eq_some_iff.mp h
  have hlen : 4 ≤ payload.length := by
    have : (receiveFrom buf payload).2 = min payload.length 64 := rfl
    omega
  rw [received_take buf hlen (by omega)] at htag
  exact ⟨htag, hmac, hpong⟩

/-- A datagram of the right length that passes the checks is authentic. -/
theorem authentic_of_answer {buf : Buffer} {payload pong : Bytes} (hlen : payload.length = 48)
    (h : r.answer hmacPsk controlPort (receiveFrom buf payload).1 (receiveFrom buf payload).2 =
      some pong) :
    ∃ nonce, r.Authentic hmacPsk payload nonce ∧ pong = r.pong hmacPsk controlPort nonce := by
  obtain ⟨htag, hmac, hpong⟩ := answer_received h
  have h16 : 16 ≤ payload.length := by omega
  have hverify := received_take buf h16 (by omega)
  have hnonce : ((receiveFrom buf payload).1.val.drop 4).take 12 = (payload.drop 4).take 12 := by
    rw [List.take_drop, List.take_drop, hverify]
  have hfront : payload.take 16 = r.tag ++ (payload.drop 4).take 12 := by
    have hsplit : payload.take (4 + 12) = payload.take 4 ++ (payload.drop 4).take 12 :=
      List.take_add
    rw [← htag]
    exact hsplit
  rw [received_drop hlen, hverify, hfront] at hmac
  refine ⟨(payload.drop 4).take 12, ⟨?_, ?_⟩, ?_⟩
  · rw [List.length_take, List.length_drop]
    omega
  · rw [hmac, ← hfront, List.take_append_drop]
  · rw [← hpong, hnonce]

/-- A round answers only an authentic datagram exactly when the HMAC does not fit by what was
    left in the buffer. -/
theorem answer_authentic_iff (controlPort : UInt16) (buf : Buffer) (payload : Bytes) :
    (∀ pong, r.answer hmacPsk controlPort (receiveFrom buf payload).1
        (receiveFrom buf payload).2 = some pong →
      ∃ nonce, r.Authentic hmacPsk payload nonce ∧ pong = r.pong hmacPsk controlPort nonce) ↔
    ¬r.FitsByRest hmacPsk buf payload := by
  constructor
  · intro hauthentic hfits
    obtain ⟨htag, hlen, hmac⟩ := hfits
    have h4 : 4 ≤ payload.length := by
      have := congrArg List.length htag
      rw [List.length_take, r.tag_length] at this
      omega
    have hn : 4 ≤ (receiveFrom buf payload).2 := by
      change 4 ≤ min payload.length 64
      omega
    obtain ⟨nonce, hnonce, -⟩ := hauthentic _ (answer_eq_some_iff.mpr
      ⟨hn, (received_take buf h4 (by omega)).trans htag, hmac, rfl⟩)
    exact hlen (authentic_length hnonce)
  · intro hfits pong h
    obtain ⟨htag, hmac, -⟩ := answer_received h
    have hlen : payload.length = 48 := by
      by_contra hne
      exact hfits ⟨htag, hne, hmac⟩
    exact authentic_of_answer hlen h

/-! ## Runs -/

/-- Every reply so far answered the datagram of its own round, which was authentic. -/
def AllAuthentic (r : Responder) (hmacPsk : Bytes → Mac) (controlPort : UInt16) (s : State) :
    Prop :=
  ∀ round ∈ s.rounds, r.AnswersIt hmacPsk controlPort round

theorem reply_answersIt_iff (buf : Buffer) (d : Datagram) :
    r.AnswersIt hmacPsk controlPort (d, r.reply hmacPsk controlPort buf d) ↔
      ¬r.FitsByRest hmacPsk buf d.payload := by
  rw [← answer_authentic_iff controlPort]
  unfold Responder.reply
  dsimp only
  cases r.answer hmacPsk controlPort (receiveFrom buf d.payload).1
      (receiveFrom buf d.payload).2 with
  | none => simp [Responder.AnswersIt]
  | some pong => simp [Responder.AnswersIt]

/-- A round keeps the replies authentic exactly when its own reply is. -/
theorem round_allAuthentic_iff {s s' : State} {d : Datagram}
    (hs : AllAuthentic r hmacPsk controlPort s)
    (h : r.round hmacPsk controlPort s d = some s') :
    AllAuthentic r hmacPsk controlPort s' ↔ ¬r.FitsByRest hmacPsk s.buf d.payload := by
  rw [← reply_answersIt_iff]
  cases h
  constructor
  · intro hall
    exact hall _ (List.mem_append_right _ List.mem_cons_self)
  · intro hnew round hmem
    obtain hold | hlast := List.mem_append.mp hmem
    · exact hs round hold
    · rwa [List.mem_singleton.mp hlast]

/-- From any bytes in the buffer, all replies of a run are for authentic datagrams, and answer
    their nonces, exactly when no datagram fits by what the earlier ones left in the buffer. -/
theorem replies_authentic_iff (r : Responder) (hmacPsk : Bytes → Mac) (controlPort : UInt16)
    (buf : Buffer) (ds : List Datagram) :
    (∀ pre s, pre <+: ds → run (r.round hmacPsk controlPort) ⟨buf, []⟩ pre = some s →
      AllAuthentic r hmacPsk controlPort s) ↔
    Along (r.round hmacPsk controlPort) (fun s d => ¬r.FitsByRest hmacPsk s.buf d.payload)
      ⟨buf, []⟩ ds := by
  refine along_iff_reached (I := AllAuthentic r hmacPsk controlPort) ?_ (fun _ hs => hs) ?_
    (by simp [AllAuthentic])
  · intro s d s' hs hfits hround
    exact (round_allAuthentic_iff hs hround).mpr hfits
  · intro s d hs hfits
    refine ⟨_, rfl, fun hall => ?_⟩
    exact (round_allAuthentic_iff hs rfl).mp hall hfits

/-! ## A datagram that is only the tag -/

/-- Receiving what already lies at the front changes nothing. -/
theorem receiveFrom_front (buf : Buffer) {k : Nat} (hk : k ≤ 64) :
    (receiveFrom buf (buf.val.take k)).1 = buf := by
  apply Subtype.ext
  have hlen : (buf.val.take k).length = k := by
    have := buf.property
    rw [List.length_take]
    omega
  unfold receiveFrom
  dsimp only
  rw [hlen, List.take_take, Nat.min_eq_right hk, List.take_append_drop]

/-- After an authentic datagram the tag alone fits by what that one left. -/
theorem tag_fitsByRest (buf : Buffer) {payload nonce : Bytes}
    (h : r.Authentic hmacPsk payload nonce) :
    r.FitsByRest hmacPsk (receiveFrom buf payload).1 r.tag := by
  have hlen := authentic_length h
  obtain ⟨hnonce, hpayload⟩ := h
  have hverified : (r.tag ++ nonce).length = 16 := by
    rw [List.length_append, r.tag_length, hnonce]
  have hverify : (receiveFrom buf payload).1.val.take 16 = r.tag ++ nonce := by
    rw [received_take buf (by omega) (by omega), hpayload, ← hverified, List.take_left]
  have hmac : ((receiveFrom buf payload).1.val.drop 16).take 32 =
      (hmacPsk (r.tag ++ nonce)).val := by
    rw [received_drop hlen, hpayload, ← hverified, List.drop_left]
  have hfront : (receiveFrom buf payload).1.val.take 4 = r.tag := by
    rw [received_take buf (by omega) (by omega), hpayload, List.append_assoc, ← r.tag_length,
      List.take_left]
  have hsame := receiveFrom_front (receiveFrom buf payload).1 (by omega : 4 ≤ 64)
  rw [hfront] at hsame
  refine ⟨?_, ?_, ?_⟩
  · rw [← r.tag_length, List.take_length]
  · rw [r.tag_length]
    omega
  · rw [hsame, hverify, hmac]

/-- The first 32 bytes, filled up with zeros. -/
def sampleMac (data : Bytes) : Mac := ⟨(data ++ List.replicate 32 0).take 32, by simp⟩

def zeroBuffer : Buffer := ⟨List.replicate 64 0, rfl⟩

/-- An authentic datagram from one address, then the tag alone from another. -/
def tagAfterAuthentic (r : Responder) : List Datagram :=
  let verified := r.tag ++ List.replicate 12 7
  [⟨[10, 0, 0, 2], verified ++ (sampleMac verified).val⟩, ⟨[10, 0, 0, 3], r.tag⟩]

theorem tagAfterAuthentic_answered (r : Responder) :
    ∃ s, run (r.round sampleMac 0) ⟨zeroBuffer, []⟩ (tagAfterAuthentic r) = some s ∧
      ¬AllAuthentic r sampleMac 0 s := by
  refine ⟨_, rfl, fun hall => ?_⟩
  have hreply := hall _ (List.mem_append_right _ List.mem_cons_self)
  rw [reply_answersIt_iff] at hreply
  exact hreply (tag_fitsByRest zeroBuffer ⟨rfl, rfl⟩)

/-- Both responders answer the second of these datagrams, which is four bytes long. -/
theorem bareTag_answered :
    (∃ s, run (CdsGuardStartDiscoveryResponder.round sampleMac 0) ⟨zeroBuffer, []⟩
        (tagAfterAuthentic CdsGuardStartDiscoveryResponder) = some s ∧
      ¬AllAuthentic CdsGuardStartDiscoveryResponder sampleMac 0 s) ∧
    ∃ s, run (CdsGatewayStartDiscoveryResponder.round sampleMac 0) ⟨zeroBuffer, []⟩
        (tagAfterAuthentic CdsGatewayStartDiscoveryResponder) = some s ∧
      ¬AllAuthentic CdsGatewayStartDiscoveryResponder sampleMac 0 s :=
  ⟨tagAfterAuthentic_answered _, tagAfterAuthentic_answered _⟩

end CdsGuard.Discovery
