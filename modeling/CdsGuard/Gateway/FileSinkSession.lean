import CdsGuard.Packet.ProxyProtocol

/-
  The gateway's side of one upload: `ReceivedPayload`, the parser in `FileSinkSession` and
  what the end of a session does to the shared task list and to the connection counter.

  The local `ReceivedPayload` is not initialised, so the parser starts from arbitrary storage
  `stale`. A `read` that finds the end of the stream throws.

  Proved: `sinkHeader_write` and `sinkBody_file`, `sinkBody_text`, the reads of a well-formed
  upload, each leaving the bytes behind it for the next.
-/

namespace CdsGuard.Gateway

open CdsGuard.Lib CdsGuard.Packet

def MAX_CONNECTIONS : Nat := 4
def MAX_TASKS : Nat := 16

structure ReceivedPayload where
  isFile : Bool
  isTxtFile : Bool
  fileName : Bytes
  data : Bytes
  srcIpVer : UInt8
  srcIpLen : Nat
  srcIp : Addr16
  srcPort : UInt16
  destIpVer : UInt8
  destIpLen : Nat
  destIp : Addr16
  destPort : UInt16
  deriving DecidableEq

/-- Storage that happens to be zero. -/
def zeroPayload : ReceivedPayload where
  isFile := false
  isTxtFile := false
  fileName := []
  data := []
  srcIpVer := 0
  srcIpLen := 0
  srcIp := .zero
  srcPort := 0
  destIpVer := 0
  destIpLen := 0
  destIp := .zero
  destPort := 0

/-! ## The parser -/

/-- The ways `FileSinkSession` stops before it has a payload: the two early returns, and an
    exception (a read past the end of the stream, or a `resize` beyond `max_size`). -/
inductive SinkStop where
  | wrongMagic
  | invalidTag
  | exception
  deriving DecidableEq

/-- `asio::read` of exactly `n` bytes. -/
def readSock (n : Nat) (s : Bytes) : Except SinkStop (Bytes × Bytes) :=
  match readN n s with
  | some r => .ok r
  | none => .error .exception

/-- `std::vector<uint8_t>::max_size()`. -/
def maxSize : Nat := 2 ^ 63 - 1

/-- `data.resize(n)` and the read that fills it. -/
def readData (n : Nat) (s : Bytes) : Except SinkStop (Bytes × Bytes) :=
  if maxSize < n then .error .exception else readSock n s

/-- `std::string::rfind` of one character. -/
def rfind (c : UInt8) : Bytes → Option Nat
  | [] => none
  | b :: bs =>
    match rfind c bs with
    | some i => some (i + 1)
    | none => if b = c then some 0 else none

/-- ".txt" in ASCII. -/
def txtExt : Bytes := [0x2e, 0x74, 0x78, 0x74]

/-- The test on the file name that decides whether `is_txt_file` is set. -/
def hasTxtExt (fileName : Bytes) : Bool :=
  match rfind 0x2e fileName with
  | some pos => fileName.drop pos == txtExt
  | none => false

/-- One address of the proxy header: version, 16 bytes, port in network order. -/
def readAddress (s : Bytes) : Except SinkStop ((UInt8 × Bytes × UInt16) × Bytes) := do
  let (ver, s) ← readSock 1 s
  let (ip, s) ← readSock 16 s
  let (port, s) ← readSock 2 s
  return ((ver.headD 0, ip, UInt16.ofNat (beVal port)), s)

/-- The reads up to the tag, which fill the address fields of the payload. -/
def sinkHeader (stale : ReceivedPayload) (s : Bytes) :
    Except SinkStop (ReceivedPayload × Bytes) := do
  let (magic, s) ← readSock 4 s
  if beVal magic ≠ kMagic then throw .wrongMagic
  let ((srcIpVer, srcIp, srcPort), s) ← readAddress s
  let ((destIpVer, destIp, destPort), s) ← readAddress s
  return ({ stale with
    srcIpVer, srcIpLen := ipLen srcIpVer, srcPort
    srcIp := stale.srcIp.overwrite (srcIp.take (ipLen srcIpVer))
    destIpVer, destIpLen := ipLen destIpVer, destPort
    destIp := stale.destIp.overwrite (destIp.take (ipLen destIpVer)) }, s)

/-- The reads from the tag on. The length fields are read in host order, on a little-endian
    host; `is_txt_file` is only ever set to true. -/
def sinkBody (p : ReceivedPayload) (s : Bytes) : Except SinkStop (ReceivedPayload × Bytes) := do
  let (tag, s) ← readSock 5 s
  if tag = fileTag then
    let (nameLen, s) ← readSock 4 s
    let (fileName, s) ← readSock (leVal nameLen) s
    let isTxtFile := if hasTxtExt fileName then true else p.isTxtFile
    let (fileSize, s) ← readSock 8 s
    let (data, s) ← readData (leVal fileSize) s
    return ({ p with isFile := true, fileName, isTxtFile, data }, s)
  else if tag = textTag then
    let (textSize, s) ← readSock 8 s
    let (data, s) ← readData (leVal textSize) s
    return ({ p with isFile := false, fileName := [], data }, s)
  else
    throw .invalidTag

/-- `FileSinkSession` up to the lock: the payload read from the stream, or why there is none. -/
def fileSink (stale : ReceivedPayload) (stream : Bytes) : Except SinkStop ReceivedPayload := do
  let (p, s) ← sinkHeader stale stream
  let (p, _) ← sinkBody p s
  return p

/-! ## The shared state -/

/-- `g_receive_task_list` and `g_active_connections`. -/
structure GatewayState (P : Type) where
  receiveTaskList : List P
  activeConnections : Nat
  deriving DecidableEq

variable {P : Type}

/-- `if (g_receive_task_list.size() < MAX_TASKS) push_back`. -/
def GatewayState.pushTask (g : GatewayState P) (p : P) : GatewayState P :=
  if g.receiveTaskList.length < MAX_TASKS then
    { g with receiveTaskList := g.receiveTaskList ++ [p] }
  else g

/-- `--` on a `size_t`. -/
def decSize (n : Nat) : Nat := if n = 0 then 2 ^ 64 - 1 else n - 1

/-- `--g_active_connections`. -/
def GatewayState.release (g : GatewayState P) : GatewayState P :=
  { g with activeConnections := decSize g.activeConnections }

/-- What the rest of `FileSinkSession` does: the early returns skip everything, an exception
    skips the push only. -/
def GatewayState.endSession (g : GatewayState P) : Except SinkStop P → GatewayState P
  | .ok p => (g.pushTask p).release
  | .error .exception => g.release
  | .error .wrongMagic => g
  | .error .invalidTag => g

/-- `FileSinkSession` on a socket that delivers `stream` and then ends. -/
def fileSinkSession (stale : ReceivedPayload) (stream : Bytes)
    (g : GatewayState ReceivedPayload) : GatewayState ReceivedPayload :=
  g.endSession (fileSink stale stream)

@[simp] theorem GatewayState.release_receiveTaskList (g : GatewayState P) :
    g.release.receiveTaskList = g.receiveTaskList := rfl

/-! ## Reading what was written -/

theorem readSock_append (n : Nat) (xs rest : Bytes) (h : xs.length = n) :
    readSock n (xs ++ rest) = .ok (xs, rest) := by
  rw [readSock, readN_append xs rest h]

theorem readData_append {n : Nat} (xs rest : Bytes) (h : xs.length = n) (hmax : n ≤ maxSize) :
    readData n (xs ++ rest) = .ok (xs, rest) := by
  rw [readData, if_neg (by omega), readSock_append n xs rest h]

theorem readAddress_append (ver : UInt8) (ip : Addr16) (port : UInt16) (rest : Bytes) :
    readAddress ([ver] ++ (ip.bytes ++ (beBytes 2 port.toNat ++ rest))) =
      .ok ((ver, ip.bytes, port), rest) := by
  have hport : UInt16.ofNat (beVal (beBytes 2 port.toNat)) = port := by
    rw [beVal_beBytes_of_lt port.toNat_lt]
    exact UInt16.ofNat_toNat
  unfold readAddress
  rw [readSock_append 1 [ver] _ rfl]
  simp only [bind, Except.bind]
  rw [readSock_append 16 ip.bytes _ ip.length_eq]
  simp only
  rw [readSock_append 2 (beBytes 2 port.toNat) rest (by simp)]
  simp only [hport]
  rfl

/-- The payload with the address fields of a header filled in. -/
def ReceivedPayload.addressed (p : ReceivedPayload) (hdr : ProxyHeader) : ReceivedPayload :=
  { p with
    srcIpVer := hdr.srcIpVer, srcIpLen := ipLen hdr.srcIpVer, srcPort := hdr.srcPort
    srcIp := p.srcIp.overwrite (hdr.srcIp.bytes.take (ipLen hdr.srcIpVer))
    destIpVer := hdr.destIpVer, destIpLen := ipLen hdr.destIpVer, destPort := hdr.destPort
    destIp := p.destIp.overwrite (hdr.destIp.bytes.take (ipLen hdr.destIpVer)) }

/-- The header that the client writes is read back field by field. -/
theorem sinkHeader_write (stale : ReceivedPayload) (hdr : ProxyHeader) (rest : Bytes) :
    sinkHeader stale (hdr.write ++ rest) = .ok (stale.addressed hdr, rest) := by
  have hmagic : beVal (beBytes 4 kMagic) = kMagic := by decide
  unfold sinkHeader ProxyHeader.write
  simp only [List.append_assoc]
  rw [readSock_append 4 (beBytes 4 kMagic) _ (by simp)]
  simp only [bind, Except.bind, hmagic, ne_eq, not_true_eq_false, if_false, pure, Except.pure]
  rw [readAddress_append]
  simp only
  rw [readAddress_append]
  rfl

/-- A stream that does not start with the magic number ends the session at once. -/
theorem sinkHeader_wrongMagic (stale : ReceivedPayload) (s : Bytes) (hlen : 4 ≤ s.length)
    (hmagic : beVal (s.take 4) ≠ kMagic) : sinkHeader stale s = .error .wrongMagic := by
  have hread : readSock 4 s = .ok (s.take 4, s.drop 4) := by
    rw [readSock, readN, if_pos hlen]
  unfold sinkHeader
  rw [hread]
  simp only [bind, Except.bind, hmagic, ne_eq, not_false_eq_true, if_true]
  rfl

/-- A FILE upload whose announced lengths agree with what follows. -/
theorem sinkBody_file (p : ReceivedPayload) (nameField sizeField name content rest : Bytes)
    (hn : nameField.length = 4) (hs : sizeField.length = 8) (hname : name.length = leVal nameField)
    (hcontent : content.length = leVal sizeField) (hmax : content.length ≤ maxSize) :
    sinkBody p (fileTag ++ (nameField ++ (name ++ (sizeField ++ (content ++ rest))))) =
      .ok ({ p with
        isFile := true, fileName := name, data := content
        isTxtFile := if hasTxtExt name then true else p.isTxtFile }, rest) := by
  unfold sinkBody
  rw [readSock_append 5 fileTag _ rfl]
  simp only [bind, Except.bind, if_true]
  rw [readSock_append 4 nameField _ hn]
  simp only
  rw [readSock_append _ name _ hname]
  simp only
  rw [readSock_append 8 sizeField _ hs]
  simp only
  rw [readData_append content rest hcontent (by omega)]
  rfl

/-- A TEXT upload: the payload is as long as the length field says, whatever follows. -/
theorem sinkBody_text (p : ReceivedPayload) (sizeField text rest : Bytes)
    (hs : sizeField.length = 8) (htext : text.length = leVal sizeField)
    (hmax : text.length ≤ maxSize) :
    sinkBody p (textTag ++ (sizeField ++ (text ++ rest))) =
      .ok ({ p with isFile := false, fileName := [], data := text }, rest) := by
  have hne : textTag ≠ fileTag := by decide
  unfold sinkBody
  rw [readSock_append 5 textTag _ rfl]
  simp only [bind, Except.bind, hne, if_false, if_true]
  rw [readSock_append 8 sizeField _ hs]
  simp only
  rw [readData_append text rest htext (by omega)]
  rfl

end CdsGuard.Gateway
