import CdsGuard.Packet.ProtocolEngine
import CdsGuard.Gateway.FileSinkSession

/-
  `DispatchFilteredPayloadTcp`: the bytes that the gateway writes to the guard for one
  filtered payload, an address header in the clear and the message under the engine.
-/

namespace CdsGuard.Gateway

open CdsGuard.Lib CdsGuard.Packet

/-- The original source and destination, each address as long as its length field says. -/
def dispatchHeader (p : ReceivedPayload) : Bytes :=
  [p.srcIpVer] ++ (p.srcIp.bytes.take p.srcIpLen ++ (beBytes 2 p.srcPort.toNat ++
    ([p.destIpVer] ++ (p.destIp.bytes.take p.destIpLen ++ beBytes 2 p.destPort.toNat))))

/-- `new_payload_vec`: the message with its length fields, before encryption. -/
def dispatchMessage (p : ReceivedPayload) : Bytes :=
  if p.isFile then
    fileTag ++ (leBytes 4 p.fileName.length ++ (p.fileName ++
      (leBytes 8 p.data.length ++ p.data)))
  else
    textTag ++ (leBytes 8 p.data.length ++ p.data)

/-- All that `DispatchFilteredPayloadTcp` writes, under the IVs drawn. -/
def dispatchFilteredPayloadTcp (ivs : Nat → Block) (p : ReceivedPayload) : Bytes :=
  dispatchHeader p ++ getProtocolEngine.encryptSpan ivs (Span.ofVector (dispatchMessage p))

/-- The address fields as `FileSinkSession` leaves them, for IP versions 4 and 6. -/
structure ReceivedPayload.Addressed (p : ReceivedPayload) : Prop where
  srcVer : p.srcIpVer = 4 ∨ p.srcIpVer = 6
  srcLen : p.srcIpLen = ipLen p.srcIpVer
  destVer : p.destIpVer = 4 ∨ p.destIpVer = 6
  destLen : p.destIpLen = ipLen p.destIpVer

/-- `FileSinkSession` sets the length fields so. -/
theorem addressed_of_header (stale : ReceivedPayload) (hdr : ProxyHeader)
    (hs : hdr.srcIpVer = 4 ∨ hdr.srcIpVer = 6) (hd : hdr.destIpVer = 4 ∨ hdr.destIpVer = 6) :
    (stale.addressed hdr).Addressed :=
  ⟨hs, rfl, hd, rfl⟩

end CdsGuard.Gateway
