import CdsGuard.Packet.ProxyProtocol

/-
  `TransferController`: what `sendText` and `sendFile` write to the gateway's socket, and how
  the receiving side cuts a message out of the bytes that arrive.

  A `QString` holds UTF-16 code units and its `size` counts them; `toUtf8` gives bytes. The
  two counts agree on ASCII texts and on no others (`utf8_length_eq_iff`). A message with its
  length fields is taken apart by `handleFileReceive_eq` and `handleTextReceive_eq`.
-/

namespace CdsGuard.Client

open CdsGuard.Lib CdsGuard.Packet

/-! ## Qt values -/

/-- The number of UTF-16 code units of a character: two outside the basic plane. -/
def utf16Size (c : Char) : Nat := if c.val.toNat ≤ 0xFFFF then 1 else 2

/-- The number of UTF-16 code units of a text. -/
def utf16Length (cs : List Char) : Nat := (cs.map utf16Size).sum

/-- A `QString` that holds a Unicode text, given by the characters that its code units encode.
    The code units of a `QString` take up fewer than `2 ^ 63` bytes. -/
structure QString where
  chars : List Char
  size_lt : utf16Length chars < 2 ^ 62

namespace QString

def size (s : QString) : Nat := utf16Length s.chars
def isEmpty (s : QString) : Bool := s.chars.isEmpty
def toUtf8 (s : QString) : Bytes := utf8 s.chars

end QString

/-- A `QHostAddress` by its protocol. -/
inductive QHostAddress where
  | ipv4 (ip : UInt32)
  | ipv6 (c : Addr16)
  | other
  deriving DecidableEq

/-- The address bytes that `make_proxy_header_to_q_byte_arr` takes out of a `QHostAddress`. -/
def QHostAddress.ipBytes : QHostAddress → Option Bytes
  | ipv4 ip => some (beBytes 4 ip.toNat)
  | ipv6 c => some c.bytes
  | other => none

/-- `make_proxy_header` of the client, on address bytes. -/
def makeProxyHeader (srcIp : Bytes) (srcPort : UInt16) (destIp : Bytes) (destPort : UInt16) :
    Bytes :=
  match storeIp srcIp with
  | none => []
  | some (srcIpVer, srcIpArr) =>
    match storeIp destIp with
    | none => []
    | some (destIpVer, destIpArr) =>
      ProxyHeader.write
        { srcIpVer, srcIp := srcIpArr, srcPort, destIpVer, destIp := destIpArr, destPort }

/-- `make_proxy_header_to_q_byte_arr` on `QHostAddress`es. -/
def makeProxyHeaderToQByteArr (srcIp : QHostAddress) (srcPort : UInt16) (destIp : QHostAddress)
    (destPort : UInt16) : Bytes :=
  match srcIp.ipBytes with
  | none => []
  | some srcBytes =>
    match destIp.ipBytes with
    | none => []
    | some destBytes => makeProxyHeader srcBytes srcPort destBytes destPort

/-! ## Sending -/

/-- The connected socket of an upload: its local end, and the final destination. -/
structure Connection where
  localAddress : QHostAddress
  localPort : UInt16
  destIp : QHostAddress
  destPort : UInt16
  deriving DecidableEq

def Connection.proxyHeader (c : Connection) : Bytes :=
  makeProxyHeaderToQByteArr c.localAddress c.localPort c.destIp c.destPort

/-- `sendText`: the socket writes, in order. The announced length counts code units. -/
def sendText (c : Connection) (txt : QString) : List Bytes :=
  if txt.isEmpty then []
  else
    let header := textTag ++ leBytes 8 (txt.size + 1)
    let d := txt.toUtf8
    let d := if d.getLast? = some 0 then d else d ++ [0]
    [c.proxyHeader, header, d]

/-- `CHUNK`. -/
def chunk : Nat := 64 * 1024

/-- The loop that reads the file and writes it out: a full chunk leaves the stream good, a
    shorter one ends the loop. -/
def writeBody (content : Bytes) : List Bytes :=
  let n := min chunk content.length
  let out := if 0 < n then [content.take n] else []
  if _h : chunk ≤ content.length then out ++ writeBody (content.drop chunk) else out
termination_by content.length
decreasing_by simp [chunk] at _h ⊢; omega

/-- The content of an open file, whose size `tellg` reports in a `std::streamsize`. -/
structure FileContent where
  bytes : Bytes
  size_lt : bytes.length < 2 ^ 63

/-- `sendFile`: the socket writes, in order. -/
def sendFile (c : Connection) (fileName : QString) (file : FileContent) : List Bytes :=
  let nameUtf8 := fileName.toUtf8
  let header := fileTag ++ (leBytes 4 nameUtf8.length ++
    (nameUtf8 ++ leBytes 8 file.bytes.length))
  [c.proxyHeader, header] ++ writeBody file.bytes

/-! ## Receiving -/

/-- What becomes of a received message: a file saved under a name, a text shown, a file that was
    opened and left with less than its bytes, the message that is logged instead, or a read
    outside the array. -/
inductive Received where
  | file (name content : Bytes)
  | text (content : Bytes)
  | left (name content : Bytes) (log : String)
  | rejected (log : String)
  | outOfRange
  deriving DecidableEq

/-- The disk that `QFile` writes to: whether the file for a name can be opened, and how many
    of the given bytes a write stores. Opening the file empties it. -/
structure Disk where
  opens : Bytes → Bool
  written : Bytes → Bytes → Nat

/-- `QByteArray::mid`. -/
def mid (data : Bytes) (pos len : Nat) : Bytes := (data.drop pos).take len

/-- Saving the bytes that were cut out, as far as the disk goes along. -/
def Disk.store (disk : Disk) (name content : Bytes) : Received :=
  if disk.opens name then
    if disk.written name content = content.length then .file name content
    else .left name (content.take (disk.written name content)) "File write incomplete or failed"
  else .rejected "File open error (write)"

/-- `qFromLittleEndian` of the `n` bytes at `data() + off`. -/
def readLE (data : Bytes) (off n : Nat) : Option Nat :=
  if off + n ≤ data.length then some (leVal (mid data off n)) else none

/-- `handleFileReceive`. The sums that are compared with the size are `quint32`, those in the
    address of a read are offsets of a pointer. -/
def handleFileReceive (disk : Disk) (received : Bytes) : Received :=
  if received.length < 5 + 4 then .rejected "Invalid file header received: name length"
  else
    match readLE received 5 4 with
    | none => .outOfRange
    | some nameLen =>
      let headerSize := (5 + 4 + nameLen + 8) % 2 ^ 32
      if received.length < headerSize then
        .rejected "Invalid file header received: file name or file size info"
      else
        let fileName := mid received (5 + 4) nameLen
        match readLE received (5 + 4 + nameLen) 8 with
        | none => .outOfRange
        | some fileSize =>
          if ¬ disk.opens fileName then .rejected "File open error (write)"
          else if (received.length - headerSize) % 2 ^ 64 < fileSize then
            .left fileName [] "Error: Incomplete file data"
          else
            let fileData := mid received headerSize fileSize
            let written := disk.written fileName fileData
            if written ≠ fileSize then
              .left fileName (fileData.take written) "File write incomplete or failed"
            else .file fileName fileData

/-- `static_cast<int>` of a `quint64`. -/
def toInt32 (n : Nat) : Int := (BitVec.ofNat 32 n).toInt

/-- `chop(1)` of one trailing NUL. -/
def dropNul (data : Bytes) : Bytes :=
  if data.getLast? = some 0 then data.dropLast else data

/-- `handleTextReceive`: the bytes shown, before they become a `QString`. -/
def handleTextReceive (received : Bytes) : Received :=
  if received.length < 5 + 8 then .rejected "Invalid text header: insufficient data"
  else
    match readLE received 5 8 with
    | none => .outOfRange
    | some textLength =>
      let totalSize := (5 + 8 + textLength) % 2 ^ 64
      if (received.length : Int) < toInt32 totalSize then .rejected "Incomplete text data"
      else .text (dropNul (mid received (5 + 8) textLength))

/-- `onSocketDisconnected`: the tag decides. A `startsWith` on a literal compares up to the
    literal's NUL. -/
def onSocketDisconnected (disk : Disk) (received : Bytes) : Received :=
  if (fileTag.take 4).isPrefixOf received then handleFileReceive disk received
  else if (textTag.take 4).isPrefixOf received then handleTextReceive received
  else .rejected "Unknown data format received"

/-! ## Sizes of a text -/

/-- A character takes at least as many bytes as code units, and equally many only in ASCII. -/
theorem utf16Size_le_utf8 (c : Char) :
    utf16Size c ≤ (String.utf8EncodeChar c).length ∧
      ((String.utf8EncodeChar c).length = utf16Size c ↔ c.val.toNat < 0x80) := by
  rw [String.length_utf8EncodeChar]
  unfold utf16Size Char.utf8Size
  simp only [UInt32.le_iff_toNat_le, UInt32.toNat_ofNatLT]
  split <;> split <;> (try split) <;> omega

theorem utf16Length_le_utf8 (cs : List Char) : utf16Length cs ≤ (utf8 cs).length := by
  induction cs with
  | nil => simp [utf16Length]
  | cons c cs ih =>
    have := (utf16Size_le_utf8 c).1
    simp only [utf16Length, utf8, List.map_cons, List.sum_cons, List.flatMap_cons,
      List.length_append] at ih ⊢
    omega

/-- The two lengths of a text agree exactly when it is ASCII. -/
theorem utf8_length_eq_iff (cs : List Char) :
    (utf8 cs).length = utf16Length cs ↔ ∀ c ∈ cs, c.val.toNat < 0x80 := by
  induction cs with
  | nil => simp [utf16Length, utf8]
  | cons c cs ih =>
    obtain ⟨hle, heq⟩ := utf16Size_le_utf8 c
    have hrest := utf16Length_le_utf8 cs
    rw [List.forall_mem_cons, ← ih, ← heq]
    simp only [utf16Length, utf8, List.map_cons, List.sum_cons, List.flatMap_cons,
      List.length_append] at hrest ⊢
    omega

/-! ## The writes of a file -/

theorem writeBody_flatten (content : Bytes) : (writeBody content).flatten = content := by
  fun_induction writeBody content with
  | case1 content n out h ih =>
    have hn : n = chunk := Nat.min_eq_left h
    have hout : out = [content.take chunk] := by simp [out, hn, chunk]
    rw [hout, List.flatten_append, ih, List.flatten_singleton, List.take_append_drop]
  | case2 content n out h =>
    have hn : n = content.length := Nat.min_eq_right (by omega)
    cases content with
    | nil => simp [out, hn]
    | cons b bs => simp [out, hn]

theorem sendFile_flatten (c : Connection) (fileName : QString) (file : FileContent) :
    (sendFile c fileName file).flatten =
      c.proxyHeader ++ (fileTag ++ (leBytes 4 fileName.toUtf8.length ++ (fileName.toUtf8 ++
        (leBytes 8 file.bytes.length ++ (file.bytes ++ []))))) := by
  simp [sendFile, writeBody_flatten]

/-- A text that does not end in NUL gets one. -/
theorem sendText_flatten (c : Connection) (txt : QString) (hne : txt.isEmpty = false)
    (hnul : txt.toUtf8.getLast? ≠ some 0) :
    (sendText c txt).flatten =
      c.proxyHeader ++ (textTag ++ (leBytes 8 (txt.size + 1) ++ (txt.toUtf8 ++ [0]))) := by
  simp [sendText, hne, hnul]

theorem utf8EncodeChar_getLast?_eq_zero (c : Char)
    (h : (String.utf8EncodeChar c).getLast? = some 0) : c = '\x00' := by
  unfold String.utf8EncodeChar at h
  dsimp only at h
  have key : ∀ k, k < 256 → UInt8.ofNat k = 0 → k = 0 := by
    intro k hk h0
    have := congrArg UInt8.toNat h0
    simpa [Nat.mod_eq_of_lt hk] using this
  split at h
  · have hv := key c.val.toNat (by omega) (by simpa using h)
    exact Char.ext (UInt32.toNat.inj hv)
  · split at h
    · have := key (c.val.toNat % 64 + 128) (by omega) (by simpa using h)
      omega
    · split at h
      · have := key (c.val.toNat % 64 + 128) (by omega) (by simpa using h)
        omega
      · have := key (c.val.toNat % 64 + 128) (by omega) (by simpa using h)
        omega

/-- The last byte of a text is NUL only if its last character is. -/
theorem utf8_getLast?_eq_zero (cs : List Char) (h : (utf8 cs).getLast? = some 0) :
    cs.getLast? = some '\x00' := by
  cases hcs : cs.getLast? with
  | none =>
    rw [List.getLast?_eq_none_iff] at hcs
    subst hcs
    simp [utf8] at h
  | some c =>
    obtain ⟨ds, rfl⟩ := List.getLast?_eq_some_iff.mp hcs
    have hc : utf8 [c] = String.utf8EncodeChar c := by simp [utf8]
    have hne : String.utf8EncodeChar c ≠ [] := by
      have := (utf16Size_le_utf8 c).1
      intro he
      rw [he] at this
      unfold utf16Size at this
      split at this <;> simp at this
    rw [utf8_append, hc, List.getLast?_append, List.getLast?_eq_some_getLast hne] at h
    rw [utf8EncodeChar_getLast?_eq_zero c (by rwa [List.getLast?_eq_some_getLast hne])]

/-! ## Cutting a message out of the received bytes -/

theorem mid_append (pre xs rest : Bytes) (pos len : Nat) (hpos : pre.length = pos)
    (hlen : xs.length = len) : mid (pre ++ (xs ++ rest)) pos len = xs := by
  subst hpos hlen
  simp [mid]

theorem mid_length {data : Bytes} {pos len : Nat} (h : pos + len ≤ data.length) :
    (mid data pos len).length = len := by
  rw [mid, List.length_take, List.length_drop]
  omega

theorem readLE_of_le {data : Bytes} {off n : Nat} (h : off + n ≤ data.length) :
    readLE data off n = some (leVal (mid data off n)) := if_pos h

theorem readLE_of_lt {data : Bytes} {off n : Nat} (h : data.length < off + n) :
    readLE data off n = none := if_neg (Nat.not_le.mpr h)

/-- What a file message announces: the length of its name, of its header and of its file. -/
def nameLength (received : Bytes) : Nat := leVal (mid received 5 4)
def fileHeaderSize (received : Bytes) : Nat := 5 + 4 + nameLength received + 8
def fileLength (received : Bytes) : Nat := leVal (mid received (5 + 4 + nameLength received) 8)

/-- What a text message announces: the length of its text, and its own with the header. -/
def textLength (received : Bytes) : Nat := leVal (mid received 5 8)
def textTotalSize (received : Bytes) : Nat := 5 + 8 + textLength received

section

variable (disk : Disk) {received : Bytes}

theorem handleFileReceive_short (h : received.length < 5 + 4) :
    handleFileReceive disk received =
      .rejected "Invalid file header received: name length" := if_pos h

/-- The size is compared with the low 32 bits of the header size. -/
theorem handleFileReceive_cut (hlen : 5 + 4 ≤ received.length)
    (h : received.length < fileHeaderSize received % 2 ^ 32) :
    handleFileReceive disk received =
      .rejected "Invalid file header received: file name or file size info" := by
  unfold handleFileReceive
  rw [if_neg (Nat.not_lt.mpr hlen), readLE_of_le hlen]
  exact if_pos h

/-- The file size is read where the whole header size says. -/
theorem handleFileReceive_outside (hlen : 5 + 4 ≤ received.length)
    (hlow : fileHeaderSize received % 2 ^ 32 ≤ received.length)
    (h : received.length < fileHeaderSize received) :
    handleFileReceive disk received = .outOfRange := by
  unfold fileHeaderSize nameLength at hlow h
  unfold handleFileReceive
  rw [if_neg (Nat.not_lt.mpr hlen), readLE_of_le hlen]
  dsimp only
  rw [if_neg (Nat.not_lt.mpr hlow), readLE_of_lt h]

/-- With the whole header in the array the file itself is looked for behind the low 32 bits. -/
theorem handleFileReceive_whole (h : fileHeaderSize received ≤ received.length)
    (hmax : received.length < 2 ^ 64) :
    handleFileReceive disk received =
      if received.length - fileHeaderSize received % 2 ^ 32 < fileLength received then
        if disk.opens (mid received 9 (nameLength received)) then
          .left (mid received 9 (nameLength received)) [] "Error: Incomplete file data"
        else .rejected "File open error (write)"
      else disk.store (mid received 9 (nameLength received))
        (mid received (fileHeaderSize received % 2 ^ 32) (fileLength received)) := by
  have hmod : fileHeaderSize received % 2 ^ 32 ≤ fileHeaderSize received := Nat.mod_le _ _
  have hlow : (5 + 4 + leVal (mid received 5 4) + 8) % 2 ^ 32 ≤ received.length := hmod.trans h
  have hread : 5 + 4 + leVal (mid received 5 4) + 8 ≤ received.length := h
  have hlen : 5 + 4 ≤ received.length := by omega
  unfold handleFileReceive
  rw [if_neg (Nat.not_lt.mpr hlen), readLE_of_le hlen]
  dsimp only
  rw [if_neg (Nat.not_lt.mpr hlow), readLE_of_le hread]
  dsimp only
  have hsize : (received.length - fileHeaderSize received % 2 ^ 32) % 2 ^ 64 =
      received.length - fileHeaderSize received % 2 ^ 32 :=
    Nat.mod_eq_of_lt ((Nat.sub_le _ _).trans_lt hmax)
  change (if ¬disk.opens (mid received 9 (nameLength received)) = true then _ else
    if (received.length - fileHeaderSize received % 2 ^ 32) % 2 ^ 64 < fileLength received
    then _ else _) = _
  rw [hsize]
  unfold Disk.store
  by_cases hopen : disk.opens (mid received 9 (nameLength received)) = true
  · rw [if_neg (not_not_intro hopen), if_pos hopen, if_pos hopen]
    split
    · rfl
    · rename_i hfits
      rw [mid_length (by omega), ite_not]
      rfl
  · rw [if_pos hopen, if_neg hopen, if_neg hopen, ite_self]

/-- A file message whose length fields fit is offered to the disk as it is. -/
theorem handleFileReceive_eq (name content : Bytes)
    (h : name.length + content.length < 2 ^ 31 - 17) :
    handleFileReceive disk (fileTag ++ (leBytes 4 name.length ++ (name ++
      (leBytes 8 content.length ++ content)))) = disk.store name content := by
  generalize hr : fileTag ++ (leBytes 4 name.length ++ (name ++
      (leBytes 8 content.length ++ content))) = received
  have hlen : received.length = 5 + 4 + name.length + 8 + content.length := by
    rw [← hr]
    simp [fileTag]
    omega
  have hnameLen : nameLength received = name.length := by
    rw [nameLength, ← hr, mid_append fileTag (leBytes 4 name.length) _ 5 4 rfl (by simp)]
    exact leVal_leBytes_of_lt (by omega)
  have hname : mid received 9 name.length = name := by
    have h' := mid_append (fileTag ++ leBytes 4 name.length) name
      (leBytes 8 content.length ++ content) (5 + 4) name.length (by simp [fileTag]) rfl
    rwa [List.append_assoc, hr] at h'
  have hsize : fileLength received = content.length := by
    have h' := mid_append (fileTag ++ leBytes 4 name.length ++ name) (leBytes 8 content.length)
      content (5 + 4 + name.length) 8 (by simp [fileTag]; omega) (by simp)
    rw [List.append_assoc, List.append_assoc, hr] at h'
    rw [fileLength, hnameLen, h']
    exact leVal_leBytes_of_lt (by omega)
  have hdata : mid received (5 + 4 + name.length + 8) content.length = content := by
    have h' := mid_append (fileTag ++ leBytes 4 name.length ++ name ++ leBytes 8 content.length)
      content [] (5 + 4 + name.length + 8) content.length (by simp [fileTag]; omega) rfl
    rwa [List.append_nil, List.append_assoc, List.append_assoc, List.append_assoc, hr] at h'
  have hheader : fileHeaderSize received = 5 + 4 + name.length + 8 := by
    rw [fileHeaderSize, hnameLen]
  have h32 : (5 + 4 + name.length + 8) % 2 ^ 32 = 5 + 4 + name.length + 8 :=
    Nat.mod_eq_of_lt (by omega)
  rw [handleFileReceive_whole disk (by omega) (by omega), hheader, h32, hnameLen, hname, hsize,
    hdata, if_neg (by omega)]

end

theorem toInt32_of_lt (n : Nat) (h : n < 2 ^ 31) : toInt32 n = n := by
  have hn : (BitVec.ofNat 32 n).toNat = n := by
    rw [BitVec.toNat_ofNat, Nat.mod_eq_of_lt (by omega)]
  rw [toInt32, BitVec.toInt_eq_toNat_of_lt (by rw [hn]; omega), hn]

theorem handleTextReceive_short {received : Bytes} (h : received.length < 5 + 8) :
    handleTextReceive received = .rejected "Invalid text header: insufficient data" := if_pos h

/-- With the whole header in the array the size is compared with the narrowed total. -/
theorem handleTextReceive_whole {received : Bytes} (h : 5 + 8 ≤ received.length) :
    handleTextReceive received =
      if (received.length : Int) < toInt32 (textTotalSize received % 2 ^ 64) then
        .rejected "Incomplete text data"
      else .text (dropNul (mid received 13 (textLength received))) := by
  unfold handleTextReceive
  rw [if_neg (Nat.not_lt.mpr h), readLE_of_le h]
  rfl

/-- A text message whose length field fits is shown less one trailing NUL. -/
theorem handleTextReceive_eq (content : Bytes) (h : content.length < 2 ^ 31 - 17) :
    handleTextReceive (textTag ++ (leBytes 8 content.length ++ content)) =
      .text (dropNul content) := by
  generalize hr : textTag ++ (leBytes 8 content.length ++ content) = received
  have hlen : received.length = 5 + 8 + content.length := by
    rw [← hr]
    simp [textTag]
    omega
  have hsize : textLength received = content.length := by
    rw [textLength, ← hr, mid_append textTag (leBytes 8 content.length) _ 5 8 rfl (by simp)]
    exact leVal_leBytes_of_lt (by omega)
  have hdata : mid received 13 content.length = content := by
    have h' := mid_append (textTag ++ leBytes 8 content.length) content [] (5 + 8)
      content.length (by simp [textTag]) rfl
    rwa [List.append_nil, List.append_assoc, hr] at h'
  have h64 : (5 + 8 + content.length) % 2 ^ 64 = 5 + 8 + content.length :=
    Nat.mod_eq_of_lt (by omega)
  rw [handleTextReceive_whole (by omega), textTotalSize, hsize, h64, toInt32_of_lt _ (by omega),
    hdata, if_neg (by omega)]

/-! ## The proxy header of a connection -/

theorem storeIp_ipBytes (a : QHostAddress) (bs : Bytes) (h : a.ipBytes = some bs) :
    ∃ r, storeIp bs = some r := by
  cases a with
  | ipv4 ip =>
    cases h
    exact ⟨_, by rw [storeIp, if_pos (by simp)]⟩
  | ipv6 c =>
    cases h
    exact ⟨_, by rw [storeIp, if_neg (by rw [c.length_eq]; decide), if_pos c.length_eq]⟩
  | other => cases h

theorem ipBytes_eq_none (a : QHostAddress) (h : a.ipBytes = none) : a = .other := by
  cases a with
  | ipv4 ip => cases h
  | ipv6 c => cases h
  | other => rfl

/-- Both ends of the connection are IP addresses. -/
def Connection.HasIpEnds (c : Connection) : Prop :=
  c.localAddress ≠ .other ∧ c.destIp ≠ .other

instance : DecidablePred Connection.HasIpEnds := fun c =>
  inferInstanceAs (Decidable (c.localAddress ≠ .other ∧ c.destIp ≠ .other))

/-- A connection between two IP addresses is announced by a full header. -/
theorem proxyHeader_of_hasIpEnds (c : Connection) (h : c.HasIpEnds) :
    ∃ hdr : ProxyHeader, c.proxyHeader = hdr.write := by
  unfold Connection.proxyHeader makeProxyHeaderToQByteArr
  cases hs : c.localAddress.ipBytes with
  | none => exact absurd (ipBytes_eq_none _ hs) h.1
  | some srcBytes =>
    cases hd : c.destIp.ipBytes with
    | none => exact absurd (ipBytes_eq_none _ hd) h.2
    | some destBytes =>
      obtain ⟨⟨sv, sa⟩, hsv⟩ := storeIp_ipBytes _ _ hs
      obtain ⟨⟨dv, da⟩, hdv⟩ := storeIp_ipBytes _ _ hd
      simp only [makeProxyHeader, hsv, hdv]
      exact ⟨_, rfl⟩

theorem proxyHeader_of_not_hasIpEnds (c : Connection) (h : ¬ c.HasIpEnds) :
    c.proxyHeader = [] := by
  unfold Connection.proxyHeader makeProxyHeaderToQByteArr
  unfold Connection.HasIpEnds at h
  cases hs : c.localAddress with
  | other => rfl
  | ipv4 ip => rw [show c.destIp = .other by simpa [hs] using h]; rfl
  | ipv6 a => rw [show c.destIp = .other by simpa [hs] using h]; rfl

end CdsGuard.Client
