import CdsGuard.Client.TransferController
import CdsGuard.Gateway.Dispatch
import CdsGuard.Guard.RecvMode

/-
  Gateway to final receiver: what `DispatchFilteredPayloadTcp` writes, delivered unchanged to
  `run_recv_mode`, and the decrypted remainder given to the receiving `TransferController`.

  Proved: `dispatch_delivered`, over both IP versions at either end and every choice of IVs.
-/

namespace CdsGuard.Guard

open CdsGuard.Lib CdsGuard.Packet CdsGuard.Gateway CdsGuard.Client

/-- What the receiver should make of a payload: its file offered to the disk, or its text less
    one trailing NUL. -/
def receivedAs (disk : Disk) (p : ReceivedPayload) : Received :=
  if p.isFile then disk.store p.fileName p.data else .text (dropNul p.data)

theorem onSocketDisconnected_dispatchMessage (disk : Disk) (p : ReceivedPayload)
    (h : p.data.length + p.fileName.length < 2 ^ 31 - 17) :
    onSocketDisconnected disk (dispatchMessage p) = receivedAs disk p := by
  unfold onSocketDisconnected dispatchMessage receivedAs
  cases p.isFile with
  | true =>
    simp only [if_true]
    rw [if_pos (by simp [fileTag, List.isPrefixOf])]
    exact handleFileReceive_eq disk p.fileName p.data (by omega)
  | false =>
    simp only [Bool.false_eq_true, if_false]
    rw [if_neg (by simp [fileTag, textTag, List.isPrefixOf]),
      if_pos (by simp [textTag, List.isPrefixOf])]
    exact handleTextReceive_eq p.data (by omega)

/-- The address array that `run_recv_mode` fills holds the address it was sent. -/
theorem addressOf_overwrite (ver : UInt8) (hver : ver = 4 ∨ ver = 6) (stale ip : Addr16) :
    (addressOf ver (stale.overwrite (ip.bytes.take (ipLen ver)))).ver = ver ∧
      (addressOf ver (stale.overwrite (ip.bytes.take (ipLen ver)))).bytes =
        ip.bytes.take (ipLen ver) := by
  have hlen : (ip.bytes.take (ipLen ver)).length = ipLen ver := by
    rw [List.length_take, ip.length_eq, Nat.min_eq_left (ipLen_le ver)]
  have h := Addr16.overwrite_take stale (ip.bytes.take (ipLen ver)) (by
    rw [hlen]; exact ipLen_le ver)
  rw [hlen] at h
  exact ⟨addressOf_ver ver _ hver, (addressOf_bytes ver _ hver).trans h⟩

/-- The receiving guard decodes the addresses and ports that the gateway was given, and the
    decrypted remainder is the message. -/
theorem dispatch_delivered (p : ReceivedPayload) (hp : p.Addressed)
    (hsize : p.data.length + p.fileName.length < 2 ^ 31 - 17) (ivs : Nat → Block)
    (stale : Addr16) (disk : Disk) :
    ∃ f, runRecvMode stale (dispatchFilteredPayloadTcp ivs p) = .forwarded f ∧
      (f.srcIp.ver = p.srcIpVer ∧ f.srcIp.bytes = p.srcIp.bytes.take p.srcIpLen ∧
        f.srcPort = p.srcPort) ∧
      (f.destIp.ver = p.destIpVer ∧ f.destIp.bytes = p.destIp.bytes.take p.destIpLen ∧
        f.destPort = p.destPort) ∧
      onSocketDisconnected disk f.decryptedData = receivedAs disk p := by
  have hlen (ip : Addr16) (ver : UInt8) : (ip.bytes.take (ipLen ver)).length = ipLen ver := by
    rw [List.length_take, ip.length_eq, Nat.min_eq_left (ipLen_le ver)]
  obtain ⟨span, hspan, hread⟩ := readForwarded_layout stale p.srcIpVer p.destIpVer
    (p.srcIp.bytes.take (ipLen p.srcIpVer)) (p.destIp.bytes.take (ipLen p.destIpVer))
    p.srcPort p.destPort
    (getProtocolEngine.encryptSpan ivs (Span.ofVector (dispatchMessage p)))
    (hlen _ _) (hlen _ _)
  have hmsg : getProtocolEngine.decryptSpan span = dispatchMessage p := by
    rw [getProtocolEngine.decryptSpan_encryptSpan getProtocolEngine_wellFormed ivs
      (Span.ofVector (dispatchMessage p)) span hspan, Span.toVector_ofVector]
  have hdata : dispatchFilteredPayloadTcp ivs p =
      [p.srcIpVer] ++ (p.srcIp.bytes.take (ipLen p.srcIpVer) ++ (beBytes 2 p.srcPort.toNat ++
        ([p.destIpVer] ++ (p.destIp.bytes.take (ipLen p.destIpVer) ++
          (beBytes 2 p.destPort.toNat ++
            getProtocolEngine.encryptSpan ivs (Span.ofVector (dispatchMessage p))))))) := by
    simp [dispatchFilteredPayloadTcp, dispatchHeader, hp.srcLen, hp.destLen]
  obtain ⟨hsv, hsb⟩ := addressOf_overwrite p.srcIpVer hp.srcVer stale p.srcIp
  obtain ⟨hdv, hdb⟩ := addressOf_overwrite p.destIpVer hp.destVer stale p.destIp
  have hrun : runRecvMode stale (dispatchFilteredPayloadTcp ivs p) = .forwarded
      { srcIp := addressOf p.srcIpVer (stale.overwrite (p.srcIp.bytes.take (ipLen p.srcIpVer)))
        srcPort := p.srcPort
        destIp := addressOf p.destIpVer
          (stale.overwrite (p.destIp.bytes.take (ipLen p.destIpVer)))
        destPort := p.destPort
        decryptedData := getProtocolEngine.decryptSpan span } := by
    rw [runRecvMode, hdata, hread]
    rfl
  refine ⟨_, hrun, ⟨hsv, ?_, rfl⟩, ⟨hdv, ?_, rfl⟩, ?_⟩
  · rw [hp.srcLen]
    exact hsb
  · rw [hp.destLen]
    exact hdb
  · rw [hmsg]
    exact onSocketDisconnected_dispatchMessage disk p hsize

/-- A two-byte file for an IPv6 destination, from an IPv4 source. -/
def samplePayload : ReceivedPayload where
  isFile := true
  isTxtFile := false
  fileName := [0x61]
  data := [1, 2]
  srcIpVer := 4
  srcIpLen := 4
  srcIp := Addr16.zero.overwrite [10, 0, 0, 1]
  srcPort := 40000
  destIpVer := 6
  destIpLen := 16
  destIp := Addr16.zero.overwrite [0xFE, 0x80]
  destPort := 5000

/-- The sample arrives, on a disk that takes everything. -/
theorem dispatch_delivered_sample :
    ∃ f, runRecvMode .zero (dispatchFilteredPayloadTcp (fun _ _ => 0) samplePayload) =
        .forwarded f ∧ f.destPort = 5000 ∧
      onSocketDisconnected ⟨fun _ => true, fun _ bs => bs.length⟩ f.decryptedData =
        .file [0x61] [1, 2] := by
  obtain ⟨f, hf, -, ⟨-, -, hport⟩, hdisk⟩ := dispatch_delivered samplePayload
    ⟨.inl rfl, rfl, .inr rfl, rfl⟩ (by decide) (fun _ _ => 0) .zero
    ⟨fun _ => true, fun _ bs => bs.length⟩
  exact ⟨f, hf, hport, hdisk⟩

end CdsGuard.Guard
