import CdsGuard.Client.TransferController
import CdsGuard.Gateway.FileSinkSession

/-
  The four `make_proxy_header`: an overload for address texts and one for address bytes, in the
  gateway's `ProxyProtocol.hpp` and in the client's. They differ in where the ports go: the
  client's copy stores them in the header, the gateway's leaves the members at their default.

  `make_address` of the network library stays a parameter: a text stands for an address, or the
  call throws. Proved: `proxyHeaders_agree_iff`.
-/

namespace CdsGuard.Gateway

open CdsGuard.Lib CdsGuard.Packet

/-! ## The encoders -/

/-- `asio::ip::make_address`; nothing stands for its exception. -/
abbrev MakeAddress := String → Option IpAddress

/-- The version and the bytes of an address, at the front of a zeroed array. -/
def storeAddress (a : IpAddress) : UInt8 × Addr16 := (a.ver, Addr16.zero.overwrite a.bytes)

/-- The overload for texts. The destination is parsed first; `setPorts` is what becomes of the
    ports. -/
def makeProxyHeaderOfText (setPorts : ProxyHeader → ProxyHeader) (makeAddress : MakeAddress)
    (srcIpStr dstIpStr : String) : Option Bytes := do
  let destIpAddr ← makeAddress dstIpStr
  let (destIpVer, destIp) := storeAddress destIpAddr
  let srcIpAddr ← makeAddress srcIpStr
  let (srcIpVer, srcIp) := storeAddress srcIpAddr
  return (setPorts { srcIpVer, srcIp, destIpVer, destIp }).write

/-- The overload for spans of address bytes. -/
def makeProxyHeaderOfSpan (setPorts : ProxyHeader → ProxyHeader) (srcIp destIp : Bytes) : Bytes :=
  match storeIp srcIp with
  | none => []
  | some (srcIpVer, srcIp) =>
    match storeIp destIp with
    | none => []
    | some (destIpVer, destIp) => (setPorts { srcIpVer, srcIp, destIpVer, destIp }).write

/-- `hdr.src_port = src_port; hdr.dest_port = dest_port;`. -/
def storePorts (srcPort destPort : UInt16) (hdr : ProxyHeader) : ProxyHeader :=
  { hdr with srcPort, destPort }

/-- `make_proxy_header` of `CDSGateway`, on texts. -/
def gatewayProxyHeaderOfText (makeAddress : MakeAddress) (srcIpStr : String) (_srcPort : UInt16)
    (dstIpStr : String) (_destPort : UInt16) : Option Bytes :=
  makeProxyHeaderOfText id makeAddress srcIpStr dstIpStr

/-- `make_proxy_header` of `CDSGateway`, on spans. -/
def gatewayProxyHeaderOfSpan (srcIp : Bytes) (_srcPort : UInt16) (destIp : Bytes)
    (_destPort : UInt16) : Bytes :=
  makeProxyHeaderOfSpan id srcIp destIp

/-- `make_proxy_header` of `FileTransferAppSub`, on texts. -/
def clientProxyHeaderOfText (makeAddress : MakeAddress) (srcIpStr : String) (srcPort : UInt16)
    (dstIpStr : String) (destPort : UInt16) : Option Bytes :=
  makeProxyHeaderOfText (storePorts srcPort destPort) makeAddress srcIpStr dstIpStr

/-- `make_proxy_header` of `FileTransferAppSub`, on spans. -/
def clientProxyHeaderOfSpan (srcIp : Bytes) (srcPort : UInt16) (destIp : Bytes)
    (destPort : UInt16) : Bytes :=
  Client.makeProxyHeader srcIp srcPort destIp destPort

theorem clientProxyHeaderOfSpan_eq (srcIp : Bytes) (srcPort : UInt16) (destIp : Bytes)
    (destPort : UInt16) : clientProxyHeaderOfSpan srcIp srcPort destIp destPort =
      makeProxyHeaderOfSpan (storePorts srcPort destPort) srcIp destIp := by
  unfold clientProxyHeaderOfSpan Client.makeProxyHeader makeProxyHeaderOfSpan
  cases storeIp srcIp with
  | none => rfl
  | some src =>
    cases storeIp destIp with
    | none => rfl
    | some dest => rfl

/-! ## The header between two addresses -/

/-- The header of two addresses and two ports. -/
def proxyHeader (src : IpAddress) (srcPort : UInt16) (dest : IpAddress) (destPort : UInt16) :
    ProxyHeader where
  srcIpVer := src.ver
  srcIp := Addr16.zero.overwrite src.bytes
  srcPort := srcPort
  destIpVer := dest.ver
  destIp := Addr16.zero.overwrite dest.bytes
  destPort := destPort

theorem bytes_length (a : IpAddress) : a.bytes.length = ipLen a.ver := by
  cases a with
  | v4 bs h => exact h
  | v6 c => exact c.length_eq

/-- The size of the span tells the version. -/
theorem storeIp_bytes (a : IpAddress) : storeIp a.bytes = some (storeAddress a) := by
  cases a with
  | v4 bs h => exact if_pos h
  | v6 c =>
    have hlen : c.bytes.length ≠ 4 := by
      rw [c.length_eq]
      decide
    exact (if_neg hlen).trans (if_pos c.length_eq)

variable {makeAddress : MakeAddress} {srcIpStr dstIpStr : String} {src dest : IpAddress}

theorem makeProxyHeaderOfText_eq (setPorts : ProxyHeader → ProxyHeader)
    (hsrc : makeAddress srcIpStr = some src) (hdest : makeAddress dstIpStr = some dest) :
    makeProxyHeaderOfText setPorts makeAddress srcIpStr dstIpStr =
      some (setPorts (proxyHeader src 0 dest 0)).write := by
  unfold makeProxyHeaderOfText
  rw [hsrc, hdest]
  rfl

theorem makeProxyHeaderOfSpan_eq (setPorts : ProxyHeader → ProxyHeader) (src dest : IpAddress) :
    makeProxyHeaderOfSpan setPorts src.bytes dest.bytes =
      (setPorts (proxyHeader src 0 dest 0)).write := by
  unfold makeProxyHeaderOfSpan
  rw [storeIp_bytes, storeIp_bytes]
  rfl

/-! ## Reading it back -/

/-- The payload carries these addresses and ports. -/
structure ReceivedPayload.Carries (p : ReceivedPayload) (src : IpAddress) (srcPort : UInt16)
    (dest : IpAddress) (destPort : UInt16) : Prop where
  srcVer : p.srcIpVer = src.ver
  srcBytes : p.srcIp.bytes.take p.srcIpLen = src.bytes
  srcPort : p.srcPort = srcPort
  destVer : p.destIpVer = dest.ver
  destBytes : p.destIp.bytes.take p.destIpLen = dest.bytes
  destPort : p.destPort = destPort

/-- `FileSinkSession` reads these bytes as these addresses and ports, whatever its payload held
    before and whatever follows. -/
def DecodesTo (header : Bytes) (src : IpAddress) (srcPort : UInt16) (dest : IpAddress)
    (destPort : UInt16) : Prop :=
  ∀ (stale : ReceivedPayload) (rest : Bytes), ∃ p : ReceivedPayload,
    sinkHeader stale (header ++ rest) = .ok (p, rest) ∧ p.Carries src srcPort dest destPort

theorem overwrite_zeroed (stale : Addr16) (a : IpAddress) :
    (stale.overwrite ((Addr16.zero.overwrite a.bytes).bytes.take (ipLen a.ver))).bytes.take
      (ipLen a.ver) = a.bytes := by
  have hlen := bytes_length a
  have hle : a.bytes.length ≤ 16 := hlen.trans_le (ipLen_le a.ver)
  rw [← hlen, Addr16.overwrite_take Addr16.zero a.bytes hle,
    Addr16.overwrite_take stale a.bytes hle]

theorem decodesTo_proxyHeader (src : IpAddress) (srcPort : UInt16) (dest : IpAddress)
    (destPort : UInt16) :
    DecodesTo (proxyHeader src srcPort dest destPort).write src srcPort dest destPort := by
  intro stale rest
  exact ⟨_, sinkHeader_write stale _ rest, rfl, overwrite_zeroed stale.srcIp src, rfl, rfl,
    overwrite_zeroed stale.destIp dest, rfl⟩

/-- The bytes are read as one pair of ports only. -/
theorem DecodesTo.ports {header : Bytes} {srcPort destPort srcPort' destPort' : UInt16}
    (h : DecodesTo header src srcPort dest destPort)
    (h' : DecodesTo header src srcPort' dest destPort') :
    srcPort = srcPort' ∧ destPort = destPort' := by
  obtain ⟨p, hp, hcarries⟩ := h zeroPayload []
  obtain ⟨p', hp', hcarries'⟩ := h' zeroPayload []
  obtain rfl : p = p' := congrArg Prod.fst (Except.ok.inj (hp.symm.trans hp'))
  exact ⟨hcarries.srcPort.symm.trans hcarries'.srcPort,
    hcarries.destPort.symm.trans hcarries'.destPort⟩

/-! ## All four -/

/-- The four calls give the same 42 bytes, and these are read back. -/
def ProxyHeadersAgree (makeAddress : MakeAddress) (srcIpStr : String) (src : IpAddress)
    (srcPort : UInt16) (dstIpStr : String) (dest : IpAddress) (destPort : UInt16) : Prop :=
  ∃ header : Bytes, header.length = 42 ∧
    gatewayProxyHeaderOfText makeAddress srcIpStr srcPort dstIpStr destPort = some header ∧
    gatewayProxyHeaderOfSpan src.bytes srcPort dest.bytes destPort = header ∧
    clientProxyHeaderOfText makeAddress srcIpStr srcPort dstIpStr destPort = some header ∧
    clientProxyHeaderOfSpan src.bytes srcPort dest.bytes destPort = header ∧
    DecodesTo header src srcPort dest destPort

/-- For every two addresses, texts that stand for them, and ports: the four headers agree and are
    read back exactly when both ports are 0. -/
theorem proxyHeaders_agree_iff (srcPort destPort : UInt16)
    (hsrc : makeAddress srcIpStr = some src) (hdest : makeAddress dstIpStr = some dest) :
    ProxyHeadersAgree makeAddress srcIpStr src srcPort dstIpStr dest destPort ↔
      srcPort = 0 ∧ destPort = 0 := by
  unfold ProxyHeadersAgree gatewayProxyHeaderOfText gatewayProxyHeaderOfSpan
    clientProxyHeaderOfText
  rw [makeProxyHeaderOfText_eq id hsrc hdest, makeProxyHeaderOfSpan_eq id,
    makeProxyHeaderOfText_eq (storePorts srcPort destPort) hsrc hdest, clientProxyHeaderOfSpan_eq,
    makeProxyHeaderOfSpan_eq (storePorts srcPort destPort)]
  constructor
  · intro h
    obtain ⟨header, -, -, hheader, -, -, hdecodes⟩ := h
    rw [← hheader] at hdecodes
    exact hdecodes.ports (decodesTo_proxyHeader src 0 dest 0)
  · intro ⟨hs, hd⟩
    obtain rfl := hs
    obtain rfl := hd
    exact ⟨_, ProxyHeader.write_length _, rfl, rfl, rfl, rfl, decodesTo_proxyHeader src 0 dest 0⟩

/-- The client's two overloads agree for all ports, and are read back. -/
theorem clientProxyHeaders_decode (srcPort destPort : UInt16)
    (hsrc : makeAddress srcIpStr = some src) (hdest : makeAddress dstIpStr = some dest) :
    clientProxyHeaderOfText makeAddress srcIpStr srcPort dstIpStr destPort =
        some (clientProxyHeaderOfSpan src.bytes srcPort dest.bytes destPort) ∧
      DecodesTo (clientProxyHeaderOfSpan src.bytes srcPort dest.bytes destPort) src srcPort dest
        destPort := by
  unfold clientProxyHeaderOfText
  rw [makeProxyHeaderOfText_eq (storePorts srcPort destPort) hsrc hdest, clientProxyHeaderOfSpan_eq,
    makeProxyHeaderOfSpan_eq (storePorts srcPort destPort)]
  exact ⟨rfl, decodesTo_proxyHeader src srcPort dest destPort⟩

/-- Two texts and their addresses. -/
def sampleAddresses : MakeAddress
  | "10.0.0.1" => some (.v4 [10, 0, 0, 1] rfl)
  | "::1" => some (.v6 ⟨List.replicate 15 0 ++ [1], rfl⟩)
  | _ => none

/-- Port 0 at both ends, from an IPv4 to an IPv6 address. -/
theorem proxyHeaders_agree_sample :
    ProxyHeadersAgree sampleAddresses "10.0.0.1" (.v4 [10, 0, 0, 1] rfl) 0 "::1"
      (.v6 ⟨List.replicate 15 0 ++ [1], rfl⟩) 0 :=
  (proxyHeaders_agree_iff 0 0 rfl rfl).mpr ⟨rfl, rfl⟩

/-- From port 40000 to port 5000 the gateway's header announces port 0 twice. -/
theorem gatewayProxyHeader_losesPorts :
    gatewayProxyHeaderOfSpan [10, 0, 0, 1] 40000 [10, 0, 0, 2] 5000 =
        clientProxyHeaderOfSpan [10, 0, 0, 1] 0 [10, 0, 0, 2] 0 ∧
      ¬ProxyHeadersAgree (fun _ => some (.v4 [10, 0, 0, 1] rfl)) "10.0.0.1"
        (.v4 [10, 0, 0, 1] rfl) 40000 "10.0.0.1" (.v4 [10, 0, 0, 1] rfl) 5000 := by
  refine ⟨by decide, fun h => ?_⟩
  obtain ⟨header, -, -, hgateway, -, hclient, -⟩ := h
  have hdiffer : gatewayProxyHeaderOfSpan [10, 0, 0, 1] 40000 [10, 0, 0, 1] 5000 ≠
      clientProxyHeaderOfSpan [10, 0, 0, 1] 40000 [10, 0, 0, 1] 5000 := by decide
  exact hdiffer (hgateway.trans hclient.symm)

end CdsGuard.Gateway
