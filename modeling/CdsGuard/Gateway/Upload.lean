import CdsGuard.Client.TransferController
import CdsGuard.Gateway.FileSinkSession

/-
  Client to gateway: the bytes that `sendText` and `sendFile` write, read back by
  `FileSinkSession`. TCP delivers the socket writes in order and then ends the stream.

  Proved: `upload_queued_iff`, exactly when a session queues the message it was sent. A text
  is announced by its number of UTF-16 code units and sent as UTF-8, so a text with a
  character beyond ASCII arrives cut short.
-/

namespace CdsGuard.Gateway

open CdsGuard.Lib CdsGuard.Packet CdsGuard.Client

/-! ## Messages -/

/-- What a user sends: a text, or a file under its name. -/
inductive Message where
  | text (txt : QString)
  | file (fileName : QString) (content : FileContent)

/-- A text is not empty and does not itself end in NUL. -/
def Message.Sendable : Message → Prop
  | .text txt => txt.chars ≠ [] ∧ txt.chars.getLast? ≠ some '\x00'
  | .file _ _ => True

/-- All that the client writes to the socket. -/
def Message.stream (c : Connection) : Message → Bytes
  | .text txt => (sendText c txt).flatten
  | .file fileName content => (sendFile c fileName content).flatten

/-- The bytes that the payload of a message should carry. -/
def Message.body : Message → Bytes
  | .text txt => txt.toUtf8 ++ [0]
  | .file _ content => content.bytes

/-- The payload is the message. -/
def Message.IsPayload (m : Message) (p : ReceivedPayload) : Prop :=
  p.data = m.body ∧
    match m with
    | .text _ => p.isFile = false
    | .file fileName _ => p.isFile = true ∧ p.fileName = fileName.toUtf8

/-- The session queued one payload, which is the message. -/
def Message.Queued (m : Message) (g g' : GatewayState ReceivedPayload) : Prop :=
  ∃ p, m.IsPayload p ∧ g'.receiveTaskList = g.receiveTaskList ++ [p]

/-- The announced lengths are the lengths of what is sent: every character of a text is ASCII,
    the size of a file name fits its field. -/
def Message.LengthsAgree : Message → Prop
  | .text txt => ∀ c ∈ txt.chars, c.val.toNat < 0x80
  | .file fileName _ => fileName.toUtf8.length < 2 ^ 32

/-! ## What a session does with a stream -/

theorem endSession_receiveTaskList (g : GatewayState ReceivedPayload)
    (r : Except SinkStop ReceivedPayload) :
    (g.endSession r).receiveTaskList = g.receiveTaskList ∨
      ∃ p, r = .ok p ∧ g.receiveTaskList.length < MAX_TASKS ∧
        (g.endSession r).receiveTaskList = g.receiveTaskList ++ [p] := by
  cases r with
  | ok p =>
    by_cases h : g.receiveTaskList.length < MAX_TASKS
    · exact .inr ⟨p, rfl, h, by simp [GatewayState.endSession, GatewayState.pushTask, h]⟩
    · exact .inl (by simp [GatewayState.endSession, GatewayState.pushTask, h])
  | error e => cases e <;> exact .inl rfl

/-- A session queues the message exactly when the list has room and the parser reads it. -/
theorem queued_fileSinkSession_iff (m : Message) (stale : ReceivedPayload) (s : Bytes)
    (g : GatewayState ReceivedPayload) :
    m.Queued g (fileSinkSession stale s g) ↔
      g.receiveTaskList.length < MAX_TASKS ∧ ∃ p, fileSink stale s = .ok p ∧ m.IsPayload p := by
  unfold fileSinkSession
  constructor
  · rintro ⟨p, hp, hq⟩
    rcases endSession_receiveTaskList g (fileSink stale s) with h | ⟨p', hok, hroom, h⟩
    · rw [h] at hq
      simp at hq
    · rw [h] at hq
      have hpp : p' = p := by simpa using hq
      exact ⟨hroom, p', hok, hpp ▸ hp⟩
  · rintro ⟨hroom, p, hok, hp⟩
    refine ⟨p, hp, ?_⟩
    rw [hok]
    simp [GatewayState.endSession, GatewayState.pushTask, hroom]

/-- After a full header the parser goes on with the body, on a payload that has the address
    fields. -/
theorem fileSink_write (stale : ReceivedPayload) (hdr : ProxyHeader) (body : Bytes) :
    fileSink stale (hdr.write ++ body) = (sinkBody (stale.addressed hdr) body).map Prod.fst := by
  unfold fileSink
  rw [sinkHeader_write]
  simp only [bind, Except.bind]
  cases sinkBody (stale.addressed hdr) body <;> rfl

/-- Without a proxy header the tag is taken for the magic number. -/
theorem fileSink_of_tag (stale : ReceivedPayload) (tag rest : Bytes)
    (htag : tag = fileTag ∨ tag = textTag) :
    fileSink stale (tag ++ rest) = .error .wrongMagic := by
  have hlen : 4 ≤ (tag ++ rest).length := by
    rcases htag with rfl | rfl <;> simp [fileTag, textTag]
  have hmagic : beVal ((tag ++ rest).take 4) ≠ kMagic := by
    rcases htag with rfl | rfl
    · have : (fileTag ++ rest).take 4 = fileTag.take 4 := by simp [fileTag]
      rw [this]; decide
    · have : (textTag ++ rest).take 4 = textTag.take 4 := by simp [textTag]
      rw [this]; decide
  unfold fileSink
  rw [sinkHeader_wrongMagic stale _ hlen hmagic]
  rfl

/-! ## Texts -/

/-- The parser reads as many bytes of the text as it has code units, and one more. -/
theorem sinkBody_sentText (p : ReceivedPayload) (txt : QString) :
    sinkBody p (textTag ++ (leBytes 8 (txt.size + 1) ++ (txt.toUtf8 ++ [0]))) =
      .ok ({ p with isFile := false, fileName := [],
                    data := (txt.toUtf8 ++ [0]).take (txt.size + 1) },
        (txt.toUtf8 ++ [0]).drop (txt.size + 1)) := by
  have hsize := txt.size_lt
  have hle : txt.size ≤ txt.toUtf8.length := utf16Length_le_utf8 txt.chars
  change txt.size < 2 ^ 62 at hsize
  have hval : leVal (leBytes 8 (txt.size + 1)) = txt.size + 1 :=
    leVal_leBytes_of_lt (by omega)
  have hlen : ((txt.toUtf8 ++ [0]).take (txt.size + 1)).length = txt.size + 1 := by
    simp; omega
  have h := sinkBody_text p (leBytes 8 (txt.size + 1)) ((txt.toUtf8 ++ [0]).take (txt.size + 1))
    ((txt.toUtf8 ++ [0]).drop (txt.size + 1)) (by simp) (by rw [hlen, hval])
    (by rw [hlen]; unfold maxSize; omega)
  rwa [List.take_append_drop] at h

theorem text_cut_iff (txt : QString) :
    (txt.toUtf8 ++ [0]).take (txt.size + 1) = txt.toUtf8 ++ [0] ↔
      ∀ c ∈ txt.chars, c.val.toNat < 0x80 := by
  have hle : txt.size ≤ txt.toUtf8.length := utf16Length_le_utf8 txt.chars
  have hlen : (txt.toUtf8 ++ [0]).length = txt.toUtf8.length + 1 := by simp
  rw [← utf8_length_eq_iff]
  change _ ↔ txt.toUtf8.length = txt.size
  constructor
  · intro h
    have h' := congrArg List.length h
    rw [List.length_take, hlen] at h'
    omega
  · intro h
    exact List.take_of_length_le (by omega)

/-! ## Files -/

/-- The parser reads the file name with the length that its field announces. -/
theorem sinkBody_fileName_length (p q : ReceivedPayload) (nameField rest r : Bytes)
    (hn : nameField.length = 4)
    (h : sinkBody p (fileTag ++ (nameField ++ rest)) = .ok (q, r)) :
    q.fileName.length = leVal nameField := by
  unfold sinkBody at h
  rw [readSock_append 5 fileTag _ rfl] at h
  simp only [bind, Except.bind, if_true] at h
  rw [readSock_append 4 nameField _ hn] at h
  simp only at h
  cases hname : readSock (leVal nameField) rest with
  | error e => simp [hname] at h
  | ok nr =>
    obtain ⟨name, s⟩ := nr
    have hlen : name.length = leVal nameField := by
      unfold readSock at hname
      cases hread : readN (leVal nameField) rest with
      | none => simp [hread] at hname
      | some x =>
        rw [hread] at hname
        cases hname
        exact (readN_some hread).2
    simp only [hname] at h
    cases hsize : readSock 8 s with
    | error e => simp [hsize] at h
    | ok sr =>
      simp only [hsize] at h
      cases hdata : readData (leVal sr.1) sr.2 with
      | error e => simp [hdata] at h
      | ok dr =>
        simp only [hdata] at h
        cases h
        exact hlen

theorem sinkBody_sentFile (p : ReceivedPayload) (fileName : QString) (content : FileContent)
    (hname : fileName.toUtf8.length < 2 ^ 32) :
    sinkBody p (fileTag ++ (leBytes 4 fileName.toUtf8.length ++ (fileName.toUtf8 ++
        (leBytes 8 content.bytes.length ++ (content.bytes ++ []))))) =
      .ok ({ p with
        isFile := true, fileName := fileName.toUtf8, data := content.bytes
        isTxtFile := if hasTxtExt fileName.toUtf8 then true else p.isTxtFile }, []) := by
  have hsize := content.size_lt
  apply sinkBody_file
  · simp
  · simp
  · rw [leVal_leBytes_of_lt (by omega)]
  · rw [leVal_leBytes_of_lt (by omega)]
  · unfold maxSize; omega

/-! ## The main result -/

/-- A session queues the message that the client sent exactly when the task list has room, both
    ends of the client's connection are IP addresses and the announced lengths are the lengths
    of what is sent. -/
theorem upload_queued_iff (c : Connection) (m : Message) (hm : m.Sendable)
    (stale : ReceivedPayload) (g : GatewayState ReceivedPayload) :
    m.Queued g (fileSinkSession stale (m.stream c) g) ↔
      g.receiveTaskList.length < MAX_TASKS ∧ c.HasIpEnds ∧ m.LengthsAgree := by
  rw [queued_fileSinkSession_iff]
  refine and_congr_right fun _ => ?_
  by_cases hends : c.HasIpEnds
  · obtain ⟨hdr, hhdr⟩ := proxyHeader_of_hasIpEnds c hends
    simp only [hends, true_and]
    cases m with
    | text txt =>
      have hne : txt.isEmpty = false := by simpa [QString.isEmpty] using hm.1
      rw [Message.stream, sendText_flatten c txt hne
        (fun h => hm.2 (utf8_getLast?_eq_zero _ h)), hhdr, fileSink_write, sinkBody_sentText]
      simp only [Except.map, Except.ok.injEq, exists_eq_left', Message.IsPayload, Message.body,
        and_true]
      exact text_cut_iff txt
    | file fileName content =>
      rw [Message.stream, sendFile_flatten, hhdr, fileSink_write]
      constructor
      · rintro ⟨q, hq, -, -, hname⟩
        generalize hbody : fileTag ++ (leBytes 4 fileName.toUtf8.length ++ (fileName.toUtf8 ++
          (leBytes 8 content.bytes.length ++ (content.bytes ++ [])))) = body at hq
        cases hb : sinkBody (stale.addressed hdr) body with
        | error e =>
          rw [hb] at hq
          cases hq
        | ok qr =>
          rw [hb] at hq
          have hqr : qr.1 = q := Except.ok.inj hq
          rw [← hbody] at hb
          have hlen := sinkBody_fileName_length _ qr.1 _ _ qr.2 (by simp) hb
          rw [hqr, hname, leVal_leBytes] at hlen
          have hlt := Nat.mod_lt fileName.toUtf8.length (show 256 ^ 4 > 0 by decide)
          change fileName.toUtf8.length < 2 ^ 32
          omega
      · intro hname
        rw [sinkBody_sentFile _ fileName content hname]
        exact ⟨_, rfl, rfl, rfl, rfl⟩
  · have hnil := proxyHeader_of_not_hasIpEnds c hends
    simp only [hends, false_and, iff_false]
    rintro ⟨q, hq, -⟩
    cases m with
    | text txt =>
      have hne : txt.isEmpty = false := by simpa [QString.isEmpty] using hm.1
      rw [Message.stream, sendText_flatten c txt hne
        (fun h => hm.2 (utf8_getLast?_eq_zero _ h)), hnil, List.nil_append,
        fileSink_of_tag stale textTag _ (.inr rfl)] at hq
      cases hq
    | file fileName content =>
      rw [Message.stream, sendFile_flatten, hnil, List.nil_append,
        fileSink_of_tag stale fileTag _ (.inl rfl)] at hq
      cases hq

/-- An upload from one loopback client to another. -/
def loopback : Connection where
  localAddress := .ipv4 0x7F000001
  localPort := 40000
  destIp := .ipv4 0x7F000001
  destPort := 5000

/-- A two-byte text, and a text of one character that takes two bytes. -/
def hi : Message := .text ⟨['h', 'i'], by decide⟩
def eAcute : Message := .text ⟨['é'], by decide⟩

/-- The text "hi" arrives. -/
theorem upload_queued_hi :
    hi.Queued ⟨[], 1⟩ (fileSinkSession zeroPayload (hi.stream loopback) ⟨[], 1⟩) :=
  (upload_queued_iff loopback hi ⟨by decide, by decide⟩ zeroPayload ⟨[], 1⟩).mpr
    ⟨by decide, by decide, by simp [hi, Message.LengthsAgree]⟩

/-- The text "é" is announced as two bytes and sent as three: the payload has lost the NUL. -/
theorem upload_not_queued_eAcute :
    eAcute.Sendable ∧
    (fileSinkSession zeroPayload (eAcute.stream loopback) ⟨[], 1⟩).receiveTaskList.map
      ReceivedPayload.data = [[0xC3, 0xA9]] ∧
    ¬ eAcute.Queued ⟨[], 1⟩ (fileSinkSession zeroPayload (eAcute.stream loopback) ⟨[], 1⟩) := by
  have hdata : (fileSinkSession zeroPayload (eAcute.stream loopback) ⟨[], 1⟩).receiveTaskList.map
      ReceivedPayload.data = [[0xC3, 0xA9]] := by decide
  refine ⟨⟨by decide, by decide⟩, hdata, ?_⟩
  rintro ⟨p, hp, hq⟩
  rw [hq] at hdata
  have hp' : p.data = [0xC3, 0xA9] := by simpa using hdata
  have hlen := congrArg List.length (hp'.symm.trans hp.1)
  simp [eAcute, Message.body, QString.toUtf8, utf8] at hlen
  revert hlen
  decide

end CdsGuard.Gateway
