import CdsGuard.Gateway.Dispatch
import CdsGuard.Gateway.System

/-
  Where a received message goes: the filter that `CdsGatewayFilteringProcessingLoop` gives it to,
  and the frame in which `DispatchFilteredPayloadTcp` sends it on. Both look at the fields that
  `FileSinkSession` leaves in its `ReceivedPayload`, a local whose scalar fields start with
  whatever the stack held.

  Proved: `fileSink_ok_iff`, what the parser accepts and what it makes of it; and that the route
  depends on the bytes alone exactly when no message is queued or the message is a `.txt` file
  (`routing_iff`). `is_txt_file` is assigned nowhere else.
-/

namespace CdsGuard.Gateway

open CdsGuard.Lib CdsGuard.Packet

/-! ## The messages -/

/-- The two kinds of message behind the header. -/
inductive UploadMessage where
  | file (name content : Bytes)
  | text (content : Bytes)

namespace UploadMessage

/-- The bytes of a message, its lengths in the order of the host. -/
def bytes : UploadMessage → Bytes
  | file name content =>
    fileTag ++ (leBytes 4 name.length ++ (name ++ (leBytes 8 content.length ++ content)))
  | text content => textTag ++ (leBytes 8 content.length ++ content)

/-- The lengths fit their fields, and the content fits a vector. -/
def Fits : UploadMessage → Prop
  | file name content => name.length < 2 ^ 32 ∧ content.length ≤ maxSize
  | text content => content.length ≤ maxSize

/-- A file whose name ends in ".txt". -/
def isTxt : UploadMessage → Bool
  | file name _ => hasTxtExt name
  | text _ => false

/-- What the parser writes into the payload. -/
def fill (p : ReceivedPayload) : UploadMessage → ReceivedPayload
  | file name content => { p with
      isFile := true, fileName := name, data := content
      isTxtFile := if hasTxtExt name then true else p.isTxtFile }
  | text content => { p with isFile := false, fileName := [], data := content }

end UploadMessage

/-! ## What the parser accepts -/

theorem readSock_ok {n : Nat} {s xs rest : Bytes} (h : readSock n s = .ok (xs, rest)) :
    s = xs ++ rest ∧ xs.length = n := by
  unfold readSock at h
  split at h
  · rename_i r hr
    cases h
    exact readN_some hr
  · exact absurd h (by simp)

theorem readData_ok {n : Nat} {s xs rest : Bytes} (h : readData n s = .ok (xs, rest)) :
    s = xs ++ rest ∧ xs.length = n ∧ n ≤ maxSize := by
  unfold readData at h
  split at h
  · exact absurd h (by simp)
  · rename_i hle
    obtain ⟨hs, hlen⟩ := readSock_ok h
    exact ⟨hs, hlen, Nat.le_of_not_lt hle⟩

theorem readAddress_ok {s rest ip : Bytes} {ver : UInt8} {port : UInt16}
    (h : readAddress s = .ok ((ver, ip, port), rest)) :
    s = [ver] ++ (ip ++ (beBytes 2 port.toNat ++ rest)) ∧ ip.length = 16 := by
  unfold readAddress at h
  obtain ⟨⟨v, s₁⟩, h₁, k₁⟩ := bind_ok h
  obtain ⟨⟨i, s₂⟩, h₂, k₂⟩ := bind_ok k₁
  obtain ⟨⟨p, s₃⟩, h₃, k₃⟩ := bind_ok k₂
  cases k₃
  obtain ⟨rfl, hv⟩ := readSock_ok h₁
  obtain ⟨rfl, hi⟩ := readSock_ok h₂
  obtain ⟨rfl, hp⟩ := readSock_ok h₃
  obtain ⟨b, rfl⟩ := List.length_eq_one_iff.mp hv
  have hport : beBytes 2 (UInt16.ofNat (beVal p)).toNat = p := by
    have hlt : beVal p < 2 ^ 16 := by
      have := beVal_lt p
      rw [hp] at this
      exact this.trans_le (by decide)
    rw [UInt16.toNat_ofNat', Nat.mod_eq_of_lt hlt, ← hp]
    exact beBytes_beVal p
  rw [hport]
  exact ⟨rfl, hi⟩

/-- A header that is read has been written. -/
theorem sinkHeader_ok {stale q : ReceivedPayload} {s rest : Bytes}
    (h : sinkHeader stale s = .ok (q, rest)) :
    ∃ hdr : ProxyHeader, s = hdr.write ++ rest ∧ q = stale.addressed hdr := by
  unfold sinkHeader at h
  obtain ⟨⟨magic, s₁⟩, h₁, k₁⟩ := bind_ok h
  dsimp only at k₁
  split at k₁
  · exact absurd k₁ (by simp [bind, Except.bind, throw, throwThe, MonadExceptOf.throw])
  rename_i hmagic
  obtain ⟨⟨⟨sver, sip, sport⟩, s₂⟩, h₂, k₂⟩ := bind_ok k₁
  obtain ⟨⟨⟨dver, dip, dport⟩, s₃⟩, h₃, k₃⟩ := bind_ok k₂
  cases k₃
  obtain ⟨rfl, hlen⟩ := readSock_ok h₁
  obtain ⟨rfl, hsip⟩ := readAddress_ok h₂
  obtain ⟨rfl, hdip⟩ := readAddress_ok h₃
  refine ⟨⟨sver, ⟨sip, hsip⟩, sport, dver, ⟨dip, hdip⟩, dport⟩, ?_, rfl⟩
  have hwrite : magic = beBytes 4 kMagic := by
    rw [← not_not.mp hmagic, ← hlen]
    exact (beBytes_beVal magic).symm
  simp [ProxyHeader.write, hwrite]

/-- A message that is read is one of the two kinds, with lengths that agree. -/
theorem sinkBody_ok {p q : ReceivedPayload} {s rest : Bytes} (h : sinkBody p s = .ok (q, rest)) :
    ∃ m : UploadMessage, s = m.bytes ++ rest ∧ m.Fits ∧ q = m.fill p := by
  unfold sinkBody at h
  obtain ⟨⟨tag, s₁⟩, h₁, k₁⟩ := bind_ok h
  obtain ⟨hs₁, -⟩ := readSock_ok h₁
  dsimp only at k₁
  split at k₁
  · rename_i htag
    obtain ⟨⟨nameLen, s₂⟩, h₂, k₂⟩ := bind_ok k₁
    obtain ⟨⟨name, s₃⟩, h₃, k₃⟩ := bind_ok k₂
    obtain ⟨⟨fileSize, s₄⟩, h₄, k₄⟩ := bind_ok k₃
    obtain ⟨⟨data, s₅⟩, h₅, k₅⟩ := bind_ok k₄
    cases k₅
    obtain ⟨hs₂, hn⟩ := readSock_ok h₂
    obtain ⟨hs₃, hname⟩ := readSock_ok h₃
    obtain ⟨hs₄, hs⟩ := readSock_ok h₄
    obtain ⟨hs₅, hdata, hmax⟩ := readData_ok h₅
    have hlt : leVal nameLen < 2 ^ 32 := by
      have := leVal_lt nameLen
      rw [hn] at this
      exact this.trans_le (by decide)
    dsimp only at hname hdata hmax
    refine ⟨.file name data, ?_, ⟨by omega, by omega⟩, rfl⟩
    have hnf : leBytes 4 name.length = nameLen := by rw [hname, ← hn, leBytes_leVal]
    have hsf : leBytes 8 data.length = fileSize := by rw [hdata, ← hs, leBytes_leVal]
    dsimp only at hs₂ hs₃ hs₄ hs₅
    rw [hs₁, hs₂, hs₃, hs₄, hs₅, htag]
    simp [UploadMessage.bytes, hnf, hsf]
  · split at k₁
    · rename_i htag
      obtain ⟨⟨textSize, s₂⟩, h₂, k₂⟩ := bind_ok k₁
      obtain ⟨⟨data, s₃⟩, h₃, k₃⟩ := bind_ok k₂
      cases k₃
      obtain ⟨hs₂, hs⟩ := readSock_ok h₂
      obtain ⟨hs₃, hdata, hmax⟩ := readData_ok h₃
      dsimp only at hdata hmax
      refine ⟨.text data, ?_, by show data.length ≤ maxSize; omega, rfl⟩
      have hsf : leBytes 8 data.length = textSize := by rw [hdata, ← hs, leBytes_leVal]
      dsimp only at hs₂ hs₃
      rw [hs₁, hs₂, hs₃, htag]
      simp [UploadMessage.bytes, hsf]
    · exact absurd k₁ (by simp [throw, throwThe, MonadExceptOf.throw])

theorem sinkBody_message (p : ReceivedPayload) (m : UploadMessage) (hm : m.Fits) (rest : Bytes) :
    sinkBody p (m.bytes ++ rest) = .ok (m.fill p, rest) := by
  have hmax : maxSize = 2 ^ 63 - 1 := rfl
  cases m with
  | file name content =>
    obtain ⟨hname, hcontent⟩ := hm
    have hbytes : (UploadMessage.file name content).bytes ++ rest = fileTag ++
        (leBytes 4 name.length ++ (name ++ (leBytes 8 content.length ++ (content ++ rest)))) := by
      simp [UploadMessage.bytes]
    rw [hbytes]
    exact sinkBody_file p (leBytes 4 name.length) (leBytes 8 content.length) name content rest
      (by simp) (by simp) (leVal_leBytes_of_lt (n := 4) (by omega)).symm
      (leVal_leBytes_of_lt (n := 8) (by omega)).symm hcontent
  | text content =>
    have hcontent : content.length ≤ maxSize := hm
    have hbytes : (UploadMessage.text content).bytes ++ rest =
        textTag ++ (leBytes 8 content.length ++ (content ++ rest)) := by
      simp [UploadMessage.bytes]
    rw [hbytes]
    exact sinkBody_text p (leBytes 8 content.length) content rest (by simp)
      (leVal_leBytes_of_lt (n := 8) (by omega)).symm hcontent

/-- The stream starts with a header and message `m`. -/
def Carries (stream : Bytes) (m : UploadMessage) : Prop :=
  m.Fits ∧ ∃ (hdr : ProxyHeader) (rest : Bytes), stream = hdr.write ++ (m.bytes ++ rest)

/-- `FileSinkSession` gets to a payload exactly on the streams that carry a message; the addresses
    come from the header, and the rest from the message. -/
theorem fileSink_ok_iff (stale q : ReceivedPayload) (stream : Bytes) :
    fileSink stale stream = .ok q ↔ ∃ (hdr : ProxyHeader) (m : UploadMessage) (rest : Bytes),
      m.Fits ∧ stream = hdr.write ++ (m.bytes ++ rest) ∧ q = m.fill (stale.addressed hdr) := by
  unfold fileSink
  constructor
  · intro h
    obtain ⟨⟨p, s₁⟩, h₁, k₁⟩ := bind_ok h
    obtain ⟨⟨q', s₂⟩, h₂, k₂⟩ := bind_ok k₁
    cases k₂
    obtain ⟨hdr, rfl, rfl⟩ := sinkHeader_ok h₁
    obtain ⟨m, rfl, hm, rfl⟩ := sinkBody_ok h₂
    exact ⟨hdr, m, s₂, hm, rfl, rfl⟩
  · rintro ⟨hdr, m, rest, hm, rfl, rfl⟩
    rw [sinkHeader_write]
    show (sinkBody (stale.addressed hdr) (m.bytes ++ rest) >>= _) = _
    rw [sinkBody_message _ m hm]
    rfl

/-! ## The route -/

/-- The three branches of `CdsGatewayFilteringProcessingLoop`. -/
inductive FilterKind where
  | txt
  | document
  | text
  deriving DecidableEq

def filterKind (p : ReceivedPayload) : FilterKind :=
  if p.isTxtFile then .txt else if p.isFile then .document else .text

/-- The tag under which the payload is sent on. The loop has marked a `.txt` file as a file, and
    filtering changes nothing but the data. -/
def frameTag (p : ReceivedPayload) : Bytes := (dispatchMessage (markTxt p)).take 5

/-- Two payloads of one message: the fields that later stages read, and what they do with them. -/
structure SameRoute (p q : ReceivedPayload) : Prop where
  isFile : p.isFile = q.isFile
  isTxtFile : p.isTxtFile = q.isTxtFile
  fileName : p.fileName = q.fileName
  data : p.data = q.data
  filter : filterKind p = filterKind q
  frame : frameTag p = frameTag q

/-- The fields decide the route. -/
theorem sameRoute_of_fields {p q : ReceivedPayload} (hf : p.isFile = q.isFile)
    (ht : p.isTxtFile = q.isTxtFile) (hn : p.fileName = q.fileName) (hd : p.data = q.data) :
    SameRoute p q := by
  refine ⟨hf, ht, hn, hd, ?_, ?_⟩
  · unfold filterKind
    rw [hf, ht]
  · have hmark : (markTxt p).isFile = (markTxt q).isFile ∧
        (markTxt p).fileName = (markTxt q).fileName ∧ (markTxt p).data = (markTxt q).data := by
      unfold markTxt
      rw [ht]
      split
      · exact ⟨rfl, hn, hd⟩
      · exact ⟨hf, hn, hd⟩
    unfold frameTag dispatchMessage
    rw [hmark.1, hmark.2.1, hmark.2.2]

theorem SameRoute.refl (p : ReceivedPayload) : SameRoute p p := ⟨rfl, rfl, rfl, rfl, rfl, rfl⟩

/-- The payloads queued behind two sessions on the same stream, which differ in the storage that
    their `ReceivedPayload` found. -/
def RoutedAlike (stream : Bytes) (g : GatewayState ReceivedPayload)
    (stale₁ stale₂ : ReceivedPayload) : Prop :=
  List.Forall₂ SameRoute (fileSinkSession stale₁ stream g).receiveTaskList
    (fileSinkSession stale₂ stream g).receiveTaskList

/-- A `.txt` file sets all four fields. -/
theorem fill_sameRoute {m : UploadMessage} (h : m.isTxt = true) (p q : ReceivedPayload) :
    SameRoute (m.fill p) (m.fill q) := by
  cases m with
  | file name content =>
    have htxt : hasTxtExt name = true := h
    refine sameRoute_of_fields rfl ?_ rfl rfl
    show (if hasTxtExt name then true else p.isTxtFile) =
      if hasTxtExt name then true else q.isTxtFile
    rw [if_pos htxt, if_pos htxt]
  | text content => exact absurd h (by simp [UploadMessage.isTxt])

/-- Every other message leaves `is_txt_file` as it was. -/
theorem fill_isTxtFile {m : UploadMessage} (h : m.isTxt = false) (p : ReceivedPayload) :
    (m.fill p).isTxtFile = p.isTxtFile := by
  cases m with
  | file name content =>
    have htxt : hasTxtExt name = false := h
    show (if hasTxtExt name then true else p.isTxtFile) = _
    rw [htxt]
    rfl
  | text content => rfl

/-- Whether a stream is a complete message does not depend on the storage. -/
theorem fileSink_error (stale₁ stale₂ : ReceivedPayload) {stream : Bytes} {e : SinkStop}
    (h : fileSink stale₁ stream = .error e) : ∃ e', fileSink stale₂ stream = .error e' := by
  cases h₂ : fileSink stale₂ stream with
  | error e' => exact ⟨e', rfl⟩
  | ok q =>
    obtain ⟨hdr, m, rest, hm, hs, -⟩ := (fileSink_ok_iff stale₂ q stream).mp h₂
    have h₁ := (fileSink_ok_iff stale₁ _ stream).mpr ⟨hdr, m, rest, hm, hs, rfl⟩
    rw [h] at h₁
    exact absurd h₁ (by simp)

theorem endSession_error (g : GatewayState ReceivedPayload) (e : SinkStop) :
    (g.endSession (.error e)).receiveTaskList = g.receiveTaskList := by
  cases e <;> rfl

/-- For every stream and every list of waiting tasks: whatever the storage held, the queued
    payload takes the same route, exactly when the list is full or every message that the stream
    carries is a `.txt` file. -/
theorem routing_iff (stream : Bytes) (g : GatewayState ReceivedPayload) :
    (∀ stale₁ stale₂, RoutedAlike stream g stale₁ stale₂) ↔
      MAX_TASKS ≤ g.receiveTaskList.length ∨ ∀ m, Carries stream m → m.isTxt = true := by
  constructor
  · intro h
    by_contra hnot
    obtain ⟨hroom, hall⟩ := not_or.mp hnot
    obtain ⟨m, himp⟩ := not_forall.mp hall
    obtain ⟨⟨hm, hdr, rest, hs⟩, htxt⟩ := Classical.not_imp.mp himp
    have hqueue : ∀ stale : ReceivedPayload, (fileSinkSession stale stream g).receiveTaskList =
        g.receiveTaskList ++ [m.fill (stale.addressed hdr)] := by
      intro stale
      have hok := (fileSink_ok_iff stale _ stream).mpr ⟨hdr, m, rest, hm, hs, rfl⟩
      rw [fileSinkSession, hok]
      show (g.pushTask _).release.receiveTaskList = _
      rw [GatewayState.release_receiveTaskList, GatewayState.pushTask, if_pos (by omega)]
    have halike := h { zeroPayload with isTxtFile := false } { zeroPayload with isTxtFile := true }
    unfold RoutedAlike at halike
    rw [hqueue, hqueue] at halike
    have hlast := List.forall₂_drop g.receiveTaskList.length halike
    rw [List.drop_left, List.drop_left] at hlast
    have hroute := (List.forall₂_cons.mp hlast).1.isTxtFile
    have hfalse : m.isTxt = false := by simpa using htxt
    rw [fill_isTxtFile hfalse, fill_isTxtFile hfalse] at hroute
    exact absurd hroute Bool.false_ne_true
  · intro h stale₁ stale₂
    unfold RoutedAlike fileSinkSession
    cases h₁ : fileSink stale₁ stream with
    | error e =>
      obtain ⟨e', h₂⟩ := fileSink_error stale₁ stale₂ h₁
      rw [h₂, endSession_error, endSession_error]
      exact List.forall₂_same.mpr fun p _ => .refl p
    | ok q =>
      obtain ⟨hdr, m, rest, hm, hs, rfl⟩ := (fileSink_ok_iff stale₁ q stream).mp h₁
      have h₂ := (fileSink_ok_iff stale₂ _ stream).mpr ⟨hdr, m, rest, hm, hs, rfl⟩
      rw [h₂]
      show List.Forall₂ SameRoute (g.pushTask _).receiveTaskList (g.pushTask _).receiveTaskList
      unfold GatewayState.pushTask
      have hsame : List.Forall₂ SameRoute g.receiveTaskList g.receiveTaskList :=
        List.forall₂_same.mpr fun p _ => .refl p
      split
      · rename_i hroom
        have htxt := h.resolve_left (by omega)
        refine List.rel_append hsame ?_
        exact .cons (fill_sameRoute (htxt m ⟨hm, hdr, rest, hs⟩) _ _) .nil
      · exact hsame

/-- The text "A", from 0.0.0.0. -/
def sampleText : Bytes := ProxyHeader.write {} ++ (UploadMessage.text [0x41]).bytes

/-- Storage with the flag set. -/
def staleFlag : ReceivedPayload := { zeroPayload with isTxtFile := true }

/-- It is sent on as a text, or as a file, depending on a byte that nobody wrote. -/
theorem staleFlag_routes :
    ¬RoutedAlike sampleText ⟨[], 1⟩ zeroPayload staleFlag ∧
    (fileSinkSession zeroPayload sampleText ⟨[], 1⟩).receiveTaskList.map frameTag = [textTag] ∧
    (fileSinkSession staleFlag sampleText ⟨[], 1⟩).receiveTaskList.map frameTag = [fileTag] := by
  refine ⟨fun h => ?_, by decide +kernel, by decide +kernel⟩
  have h₁ : (fileSinkSession zeroPayload sampleText ⟨[], 1⟩).receiveTaskList =
      [(UploadMessage.text [0x41]).fill (zeroPayload.addressed {})] := by decide +kernel
  have h₂ : (fileSinkSession staleFlag sampleText ⟨[], 1⟩).receiveTaskList =
      [(UploadMessage.text [0x41]).fill (staleFlag.addressed {})] := by decide +kernel
  unfold RoutedAlike at h
  rw [h₁, h₂] at h
  exact absurd (List.forall₂_cons.mp h).1.isTxtFile Bool.false_ne_true

end CdsGuard.Gateway
