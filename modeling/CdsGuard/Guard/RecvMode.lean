import CdsGuard.Packet.ProtocolEngine
import CdsGuard.Packet.ProxyProtocol

/-
  `run_recv_mode`: how the receiving guard takes apart what the link delivered. The header is
  read by offsets into the vector; an offset past its end is undefined behaviour.

  Proved: `readForwarded_layout`, what the reads find in a header as the gateway writes it, and
  `recv_in_range_iff`, the exact vectors on which all reads are inside.
-/

namespace CdsGuard.Guard

open CdsGuard.Lib CdsGuard.Packet

/-- What is forwarded: where to, on whose behalf, and the decrypted message. -/
structure Forwarded where
  srcIp : IpAddress
  srcPort : UInt16
  destIp : IpAddress
  destPort : UInt16
  decryptedData : Bytes
  deriving DecidableEq

/-- One round of the receive loop: no data, a read outside the vector, or a message. -/
inductive RecvOutcome where
  | transferFailed
  | outOfRange
  | forwarded (f : Forwarded)
  deriving DecidableEq

/-- The loop that copies `n` elements from offset `off`, all of them inside the vector. -/
def copyFrom (recvData : Bytes) (off n : Nat) : Option Bytes :=
  if off + n ≤ recvData.length then some ((recvData.drop off).take n) else none

/-- `hi << 8 | lo`. -/
def portOf (hi lo : UInt8) : UInt16 := UInt16.ofNat (hi.toNat <<< 8 ||| lo.toNat)

/-- The address of a version, from the array its bytes were copied to. Any other version than
    4 and 6 leaves the default address. -/
def addressOf (ver : UInt8) (arr : Addr16) : IpAddress :=
  if ver = 4 then .v4 (arr.bytes.take 4) (by simp [arr.length_eq])
  else if ver = 6 then .v6 arr
  else .unspecified

/-- The span from `off` to the end of the vector. -/
def tailSpan (recvData : Bytes) (off : Nat) : Option Span :=
  if h : off ≤ recvData.length then
    some ⟨recvData, off, recvData.length - off, by omega⟩
  else none

/-- The reads of `run_recv_mode` on a nonempty vector. `stale` is what the two uninitialised
    address arrays hold. -/
def readForwarded (stale : Addr16) (recvData : Bytes) : Option Forwarded := do
  let srcIpVer ← recvData[0]?
  let srcIpLen := ipLen srcIpVer
  let destIpVer ← recvData[1 + srcIpLen + 2]?
  let destIpLen := ipLen destIpVer
  let srcInfoSize := 1 + srcIpLen + 2
  let destInfoSize := 1 + destIpLen + 2
  let headerSize := srcInfoSize + destInfoSize
  let srcIpBytes ← copyFrom recvData 1 srcIpLen
  let destIpBytes ← copyFrom recvData (srcInfoSize + 1) destIpLen
  let srcHi ← recvData[1 + srcIpLen]?
  let srcLo ← recvData[1 + srcIpLen + 1]?
  let destHi ← recvData[srcInfoSize + 1 + destIpLen]?
  let destLo ← recvData[srcInfoSize + 1 + destIpLen + 1]?
  let span ← tailSpan recvData headerSize
  return {
    srcIp := addressOf srcIpVer (stale.overwrite srcIpBytes)
    srcPort := portOf srcHi srcLo
    destIp := addressOf destIpVer (stale.overwrite destIpBytes)
    destPort := portOf destHi destLo
    decryptedData := getProtocolEngine.decryptSpan span }

/-- `run_recv_mode` on the result of one `receive_reliable_data`. -/
def runRecvMode (stale : Addr16) (recvData : Bytes) : RecvOutcome :=
  if recvData.isEmpty then .transferFailed
  else
    match readForwarded stale recvData with
    | some f => .forwarded f
    | none => .outOfRange

/-! ## Reading by offsets -/

/-- What stands behind `pre` is found at the length of `pre`. -/
theorem getElem?_split {data : Bytes} (pre rest : Bytes) {b : UInt8} {i : Nat}
    (hdata : data = pre ++ b :: rest) (h : pre.length = i) : data[i]? = some b := by
  subst hdata h
  simp

theorem copyFrom_split {data : Bytes} (pre rest : Bytes) {xs : Bytes} {off n : Nat}
    (hdata : data = pre ++ (xs ++ rest)) (hoff : pre.length = off) (hn : xs.length = n) :
    copyFrom data off n = some xs := by
  subst hdata hoff hn
  simp [copyFrom]

theorem tailSpan_append (pre rest : Bytes) (off : Nat) (h : pre.length = off) :
    ∃ s, tailSpan (pre ++ rest) off = some s ∧ s.toVector = rest := by
  subst h
  refine ⟨_, dif_pos (by simp), ?_⟩
  simp [Span.toVector]

/-- The two bytes of a port in network order. -/
theorem beBytes_two (v : Nat) : beBytes 2 v = [UInt8.ofNat (v / 256), UInt8.ofNat v] := rfl

theorem portOf_beBytes (port : UInt16) :
    portOf (UInt8.ofNat (port.toNat / 256)) (UInt8.ofNat port.toNat) = port := by
  have hlt := port.toNat_lt
  have hlo : port.toNat % 2 ^ 8 < 2 ^ 8 := Nat.mod_lt _ (by decide)
  have hor := Nat.two_pow_add_eq_or_of_lt hlo (port.toNat / 256)
  have hhi : port.toNat / 256 % 2 ^ 8 = port.toNat / 256 := Nat.mod_eq_of_lt (by omega)
  have hval : (port.toNat / 256) <<< 8 ||| port.toNat % 2 ^ 8 = port.toNat := by
    rw [Nat.shiftLeft_eq, Nat.mul_comm, ← hor]
    omega
  unfold portOf
  rw [UInt8.toNat_ofNat', UInt8.toNat_ofNat', hhi, hval]
  exact UInt16.ofNat_toNat

/-- The layout that the reads expect: each field is found at its offset, and the bytes behind
    the header are decrypted. -/
theorem readForwarded_layout (stale : Addr16) (srcVer destVer : UInt8) (srcIp destIp : Bytes)
    (srcPort destPort : UInt16) (rest : Bytes) (hs : srcIp.length = ipLen srcVer)
    (hd : destIp.length = ipLen destVer) :
    ∃ span : Span, span.toVector = rest ∧
      readForwarded stale ([srcVer] ++ (srcIp ++ (beBytes 2 srcPort.toNat ++
        ([destVer] ++ (destIp ++ (beBytes 2 destPort.toNat ++ rest)))))) = some
        { srcIp := addressOf srcVer (stale.overwrite srcIp), srcPort
          destIp := addressOf destVer (stale.overwrite destIp), destPort
          decryptedData := getProtocolEngine.decryptSpan span } := by
  rw [beBytes_two, beBytes_two]
  generalize hsh : UInt8.ofNat (srcPort.toNat / 256) = sh
  generalize hsl : UInt8.ofNat srcPort.toNat = sl
  generalize hdh : UInt8.ofNat (destPort.toNat / 256) = dh
  generalize hdl : UInt8.ofNat destPort.toNat = dl
  generalize hdata : [srcVer] ++ (srcIp ++ ([sh, sl] ++ ([destVer] ++
    (destIp ++ ([dh, dl] ++ rest))))) = data
  have h0 : data[0]? = some srcVer := by rw [← hdata]; rfl
  have hv : data[1 + ipLen srcVer + 2]? = some destVer :=
    getElem?_split ([srcVer] ++ srcIp ++ [sh, sl]) (destIp ++ ([dh, dl] ++ rest))
      (by rw [← hdata]; simp) (by simp [hs]; omega)
  have hcs : copyFrom data 1 (ipLen srcVer) = some srcIp :=
    copyFrom_split [srcVer] _ hdata.symm rfl hs
  have hcd : copyFrom data (1 + ipLen srcVer + 2 + 1) (ipLen destVer) = some destIp :=
    copyFrom_split ([srcVer] ++ srcIp ++ [sh, sl] ++ [destVer]) ([dh, dl] ++ rest)
      (by rw [← hdata]; simp) (by simp [hs]; omega) hd
  have hp1 : data[1 + ipLen srcVer]? = some sh :=
    getElem?_split ([srcVer] ++ srcIp) ([sl] ++ ([destVer] ++ (destIp ++ ([dh, dl] ++ rest))))
      (by rw [← hdata]; simp) (by simp [hs]; omega)
  have hp2 : data[1 + ipLen srcVer + 1]? = some sl :=
    getElem?_split ([srcVer] ++ srcIp ++ [sh]) ([destVer] ++ (destIp ++ ([dh, dl] ++ rest)))
      (by rw [← hdata]; simp) (by simp [hs]; omega)
  have hq1 : data[1 + ipLen srcVer + 2 + 1 + ipLen destVer]? = some dh :=
    getElem?_split ([srcVer] ++ srcIp ++ [sh, sl] ++ [destVer] ++ destIp) ([dl] ++ rest)
      (by rw [← hdata]; simp) (by simp [hs, hd]; omega)
  have hq2 : data[1 + ipLen srcVer + 2 + 1 + ipLen destVer + 1]? = some dl :=
    getElem?_split ([srcVer] ++ srcIp ++ [sh, sl] ++ [destVer] ++ destIp ++ [dh]) rest
      (by rw [← hdata]; simp) (by simp [hs, hd]; omega)
  obtain ⟨span, hspan, hrest⟩ := tailSpan_append
    ([srcVer] ++ srcIp ++ [sh, sl] ++ [destVer] ++ destIp ++ [dh, dl]) rest
    (1 + ipLen srcVer + 2 + (1 + ipLen destVer + 2)) (by simp [hs, hd]; omega)
  have hdata' :
      [srcVer] ++ srcIp ++ [sh, sl] ++ [destVer] ++ destIp ++ [dh, dl] ++ rest = data := by
    rw [← hdata]
    simp
  rw [hdata'] at hspan
  refine ⟨span, hrest, ?_⟩
  unfold readForwarded
  simp only [h0, hv, hcs, hcd, hp1, hp2, hq1, hq2, hspan, Option.bind_eq_bind, Option.bind_some,
    Option.pure_def, Option.some.injEq]
  rw [← hsh, ← hsl, ← hdh, ← hdl, portOf_beBytes, portOf_beBytes]

theorem addressOf_ver (ver : UInt8) (arr : Addr16) (h : ver = 4 ∨ ver = 6) :
    (addressOf ver arr).ver = ver := by
  rcases h with rfl | rfl <;> rfl

theorem addressOf_bytes (ver : UInt8) (arr : Addr16) (h : ver = 4 ∨ ver = 6) :
    (addressOf ver arr).bytes = arr.bytes.take (ipLen ver) := by
  rcases h with rfl | rfl
  · rfl
  · exact (List.take_of_length_le (Nat.le_of_eq arr.length_eq)).symm

/-! ## Which vectors are read inside their bounds -/

section

variable (stale : Addr16) {recvData : Bytes}

/-- The span behind the header is the last of the reads, so it decides. -/
theorem headerSize_le_of_some {f : Forwarded} (h : readForwarded stale recvData = some f) :
    ∃ srcVer destVer, recvData[0]? = some srcVer ∧
      recvData[1 + ipLen srcVer + 2]? = some destVer ∧
      1 + ipLen srcVer + 2 + (1 + ipLen destVer + 2) ≤ recvData.length := by
  unfold readForwarded at h
  simp only [Option.bind_eq_bind, Option.bind_eq_some_iff] at h
  obtain ⟨srcVer, hsrc, destVer, hdest, -, -, -, -, -, -, -, -, -, -, -, -, span, hspan, -⟩ := h
  refine ⟨srcVer, destVer, hsrc, hdest, ?_⟩
  unfold tailSpan at hspan
  split at hspan
  · assumption
  · cases hspan

/-- A vector as long as its header is read to the end. -/
theorem readForwarded_of_headerSize_le {srcVer destVer : UInt8}
    (hsrc : recvData[0]? = some srcVer) (hdest : recvData[1 + ipLen srcVer + 2]? = some destVer)
    (h : 1 + ipLen srcVer + 2 + (1 + ipLen destVer + 2) ≤ recvData.length) :
    ∃ f, readForwarded stale recvData = some f := by
  have hsrcIp : copyFrom recvData 1 (ipLen srcVer) = _ := if_pos (by omega)
  have hdestIp : copyFrom recvData (1 + ipLen srcVer + 2 + 1) (ipLen destVer) = _ :=
    if_pos (by omega)
  have hget : ∀ i, i < recvData.length → ∃ b, recvData[i]? = some b :=
    fun i hi => ⟨_, List.getElem?_eq_getElem hi⟩
  obtain ⟨srcHi, hsrcHi⟩ := hget (1 + ipLen srcVer) (by omega)
  obtain ⟨srcLo, hsrcLo⟩ := hget (1 + ipLen srcVer + 1) (by omega)
  obtain ⟨destHi, hdestHi⟩ := hget (1 + ipLen srcVer + 2 + 1 + ipLen destVer) (by omega)
  obtain ⟨destLo, hdestLo⟩ := hget (1 + ipLen srcVer + 2 + 1 + ipLen destVer + 1) (by omega)
  have hspan : tailSpan recvData (1 + ipLen srcVer + 2 + (1 + ipLen destVer + 2)) = _ := dif_pos h
  unfold readForwarded
  simp only [hsrc, hdest, hsrcIp, hdestIp, hsrcHi, hsrcLo, hdestHi, hdestLo, hspan,
    Option.bind_eq_bind, Option.bind_some, Option.pure_def]
  exact ⟨_, rfl⟩

/-- 38 bytes are a header, 26 with an IPv4 address, 14 with two. -/
def HoldsHeader (recvData : Bytes) : Prop :=
  38 ≤ recvData.length ∨
    26 ≤ recvData.length ∧ (recvData[0]? = some 4 ∨ recvData[19]? = some 4) ∨
    14 ≤ recvData.length ∧ recvData[0]? = some 4 ∧ recvData[7]? = some 4

theorem ipLen_four : ipLen 4 = 4 := rfl

theorem ipLen_of_ne {ver : UInt8} (h : ver ≠ 4) : ipLen ver = 16 := if_neg h

theorem holdsHeader_iff : HoldsHeader recvData ↔
    ∃ srcVer destVer, recvData[0]? = some srcVer ∧
      recvData[1 + ipLen srcVer + 2]? = some destVer ∧
      1 + ipLen srcVer + 2 + (1 + ipLen destVer + 2) ≤ recvData.length := by
  have hget : ∀ i, i < recvData.length → ∃ b, recvData[i]? = some b :=
    fun i hi => ⟨_, List.getElem?_eq_getElem hi⟩
  unfold HoldsHeader
  constructor
  · intro h
    have hlen : 14 ≤ recvData.length := by omega
    obtain ⟨srcVer, hsrc⟩ := hget 0 (by omega)
    refine ⟨srcVer, ?_⟩
    by_cases hs : srcVer = 4
    · obtain ⟨destVer, hdest⟩ := hget 7 (by omega)
      refine ⟨destVer, hsrc, by rwa [hs], ?_⟩
      by_cases hd : destVer = 4
      · rw [hs, hd, ipLen_four]
        exact hlen
      · have hne : recvData[7]? ≠ some 4 := ne_of_eq_of_ne hdest fun h => hd (Option.some.inj h)
        rw [hs, ipLen_four, ipLen_of_ne hd]
        obtain h | ⟨h, -⟩ | ⟨-, -, h⟩ := h
        · omega
        · exact h
        · exact absurd h hne
    · have hne : recvData[0]? ≠ some 4 := ne_of_eq_of_ne hsrc fun h => hs (Option.some.inj h)
      have hlen' : 26 ≤ recvData.length := by
        obtain h | ⟨h, -⟩ | ⟨-, h, -⟩ := h
        · omega
        · exact h
        · exact absurd h hne
      obtain ⟨destVer, hdest⟩ := hget 19 (by omega)
      refine ⟨destVer, hsrc, by rwa [ipLen_of_ne hs], ?_⟩
      by_cases hd : destVer = 4
      · rw [hd, ipLen_four, ipLen_of_ne hs]
        exact hlen'
      · have hne' : recvData[19]? ≠ some 4 :=
          ne_of_eq_of_ne hdest fun h => hd (Option.some.inj h)
        rw [ipLen_of_ne hs, ipLen_of_ne hd]
        obtain h | ⟨-, h | h⟩ | ⟨-, h, -⟩ := h
        · exact h
        · exact absurd h hne
        · exact absurd h hne'
        · exact absurd h hne
  · intro ⟨srcVer, destVer, hsrc, hdest, hlen⟩
    by_cases hs : srcVer = 4
    · subst hs
      by_cases hd : destVer = 4
      · subst hd
        exact .inr (.inr ⟨hlen, hsrc, hdest⟩)
      · rw [ipLen_four, ipLen_of_ne hd] at hlen
        exact .inr (.inl ⟨hlen, .inl hsrc⟩)
    · rw [ipLen_of_ne hs] at hdest hlen
      by_cases hd : destVer = 4
      · subst hd
        exact .inr (.inl ⟨hlen, .inr hdest⟩)
      · rw [ipLen_of_ne hd] at hlen
        exact .inl hlen

/-- For every vector of the link and whatever the address arrays held: nothing is read outside
    the vector exactly when it is empty or holds a header of its two IP versions. -/
theorem recv_in_range_iff (recvData : Bytes) :
    runRecvMode stale recvData ≠ .outOfRange ↔ recvData = [] ∨ HoldsHeader recvData := by
  unfold runRecvMode
  cases recvData with
  | nil => exact ⟨fun _ => .inl rfl, fun _ h => RecvOutcome.noConfusion h⟩
  | cons b rest =>
    have hne : ¬(b :: rest).isEmpty = true := Bool.false_ne_true
    rw [if_neg hne, holdsHeader_iff]
    cases hread : readForwarded stale (b :: rest) with
    | some f => exact ⟨fun _ => .inr (headerSize_le_of_some stale hread),
        fun _ h => RecvOutcome.noConfusion h⟩
    | none =>
      refine ⟨fun h => absurd rfl h, fun h => ?_⟩
      obtain h | ⟨srcVer, destVer, hsrc, hdest, hlen⟩ := h
      · cases h
      · obtain ⟨f, hf⟩ := readForwarded_of_headerSize_le stale hsrc hdest hlen
        rw [hread] at hf
        cases hf

end

/-- A peer that sends the one byte 4 makes the guard read outside the vector. -/
theorem one_byte_outOfRange : runRecvMode .zero [4] = .outOfRange := rfl

end CdsGuard.Guard
