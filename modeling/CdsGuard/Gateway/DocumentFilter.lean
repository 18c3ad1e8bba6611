import CdsGuard.DoubleArray.Search

/-
  The filtering work on one payload: `censor`, one string task of `worker_loop`, and
  `enqueue_censor_document_file`, which queues a string task for every text span of the
  document's XML, waits for them and writes a new archive over the old one.

  minizip, OpenCV and the rule matchers are outside the repository or inputs here: `DocEnv`
  says how each of their calls turns out, in the order in which the function makes them. A
  future's exception is seen by `get` and not by `wait`.
-/

namespace CdsGuard.Gateway

open CdsGuard.Lib
open CdsGuard.DoubleArray (MatchedInfo)

/-! ## Censoring a string -/

/-- `censor`: every matched byte becomes `*`. -/
def censor (data : Bytes) (infos : List MatchedInfo) : Bytes :=
  infos.foldl (fun d m => (List.range m.size).foldl (fun d i => d.set (m.index + i) 0x2a) d) data

/-- How the matching of one string turns out: the matches, or an exception. -/
abbrev MatchOutcome := Option (List MatchedInfo)

/-- What a worker leaves in the string: a task whose matching throws leaves it as it is. -/
def censorTask (outcome : MatchOutcome) (data : Bytes) : Bytes :=
  match outcome with
  | some infos => if infos.isEmpty then data else censor data infos
  | none => data

theorem censorTask_some (infos : List MatchedInfo) (data : Bytes) :
    censorTask (some infos) data = censor data infos := by
  cases infos with
  | nil => rfl
  | cons m ms => rfl

/-! ## The text spans of a document -/

/-- `std::string::find` from a position. -/
def findFrom (text pat : Bytes) (pos : Nat) : Option Nat :=
  (List.range (text.length + 1)).find? fun i => pos ≤ i && pat.isPrefixOf (text.drop i)

inductive DocType where
  | docx
  | xlsx
  | hwpx
  deriving DecidableEq

/-- `<w:t>`, `<t>` and `<hp:t>`. -/
def DocType.startTag : DocType → Bytes
  | docx => [0x3c, 0x77, 0x3a, 0x74, 0x3e]
  | xlsx => [0x3c, 0x74, 0x3e]
  | hwpx => [0x3c, 0x68, 0x70, 0x3a, 0x74, 0x3e]

/-- `</w:t>`, `</t>` and `</hp:t>`. -/
def DocType.endTag : DocType → Bytes
  | docx => [0x3c, 0x2f, 0x77, 0x3a, 0x74, 0x3e]
  | xlsx => [0x3c, 0x2f, 0x74, 0x3e]
  | hwpx => [0x3c, 0x2f, 0x68, 0x70, 0x3a, 0x74, 0x3e]

/-- `<hp:`. -/
def hpOpen : Bytes := [0x3c, 0x68, 0x70, 0x3a]

/-- A region of a text: its offset and its length. -/
structure TextSpan where
  off : Nat
  len : Nat
  deriving DecidableEq

/-- The inner loop for hwpx: the parts of a text region outside the `<hp:...>` tags in it. Each
    round moves past a tag, so the size of the region bounds the rounds. -/
def hwpxSpans (xml : Bytes) (base size : Nat) : Nat → Nat → List TextSpan
  | 0, _ => []
  | fuel + 1, localPos =>
    if size ≤ localPos then []
    else
      let absPos := base + localPos
      match findFrom xml hpOpen absPos with
      | none => [⟨absPos, base + size - absPos⟩]
      | some hpPos =>
        if base + size ≤ hpPos then [⟨absPos, base + size - absPos⟩]
        else
          let before := if absPos < hpPos then [⟨absPos, hpPos - absPos⟩] else []
          match findFrom xml [0x3e] hpPos with
          | none => before
          | some tagClose =>
            if base + size ≤ tagClose then before
            else before ++ hwpxSpans xml base size fuel (tagClose + 1 - base)

/-- The spans that step 2 queues, from a position on. Each round moves past an end tag, so the
    length of the text bounds the rounds. -/
def textSpansFrom (docType : DocType) (xml : Bytes) : Nat → Nat → List TextSpan
  | 0, _ => []
  | fuel + 1, pos =>
    match findFrom xml docType.startTag pos with
    | none => []
    | some start =>
      match findFrom xml docType.endTag start with
      | none => []
      | some next =>
        let base := start + docType.startTag.length
        let spans :=
          if docType = .hwpx then hwpxSpans xml base (next - base) (next - base + 1) 0
          else [⟨base, next - base⟩]
        spans ++ textSpansFrom docType xml fuel (next + docType.endTag.length)

def textSpans (docType : DocType) (xml : Bytes) : List TextSpan :=
  textSpansFrom docType xml (xml.length + 1) 0

/-- One string task on a span of the XML text, in place. -/
def censorSpan (xml : Bytes) (span : TextSpan) (outcome : MatchOutcome) : Bytes :=
  xml.take span.off ++ censorTask outcome ((xml.drop span.off).take span.len) ++
    xml.drop (span.off + span.len)

/-- The XML text when all tasks are done; task `k` is the `k`-th that was queued. -/
def censorSpans (outcomes : Nat → MatchOutcome) : Nat → List TextSpan → Bytes → Bytes
  | _, [], xml => xml
  | k, span :: spans, xml => censorSpans outcomes (k + 1) spans (censorSpan xml span (outcomes k))

/-! ## `enqueue_censor_document_file` -/

/-- How the calls on one extracted image turn out. -/
structure DocImage where
  isEmpty : Bool
  /-- `image_future.get()`: whether the image is in the set, or its exception. -/
  inSet : Option Bool
  gotoEntry : Bool
  encodes : Bool
  written : Bool
  deriving DecidableEq

structure RawExtractedDocContent where
  docType : DocType
  xmlText : Bytes
  images : List DocImage
  deriving DecidableEq

/-- How the calls to minizip, OpenCV and the matchers turn out. -/
structure DocEnv where
  streamOpens : Bool
  extracted : Option RawExtractedDocContent
  inputOpens : Bool
  tempOpens : Bool
  outputOpens : Bool
  firstEntry : Bool
  entriesCopied : Bool
  matching : Nat → MatchOutcome
  gotoXml : Bool
  xmlWritten : Bool
  xmlClosed : Bool
  zipsClosed : Bool
  /-- The bytes of the output archive around an XML text. -/
  archive : Bytes → Bytes
  /-- Copying the archive over the input buffer; a failed copy leaves `partialCopy` there. -/
  copiedBack : Bool
  partialCopy : Bytes

/-- The ways the function gives no archive: `return 0`, with what is in the buffer then, and an
    exception. -/
inductive DocStop where
  | zero (buffer : Bytes)
  | threw
  deriving DecidableEq

/-- `if (error) return 0`. -/
def require (ok : Bool) (buffer : Bytes) : Except DocStop Unit :=
  if ok then .ok () else .error (.zero buffer)

/-- Step 7 on one image. -/
def writeImage (buffer : Bytes) (image : DocImage) : Except DocStop Unit :=
  match image.inSet with
  | none => .error .threw
  | some wasCensored => do
    require image.gotoEntry buffer
    if wasCensored then require image.encodes buffer
    require image.written buffer

/-- Step 7. -/
def writeImages (buffer : Bytes) : List DocImage → Except DocStop Unit
  | [] => .ok ()
  | image :: images => do
    writeImage buffer image
    writeImages buffer images

/-- `enqueue_censor_document_file` on the bytes of a document: the returned size and the bytes
    of the buffer. -/
def censorDocumentFile (env : DocEnv) (data : Bytes) : Except DocStop (Nat × Bytes) := do
  require env.streamOpens data
  match env.extracted with
  | none => .error (.zero data)
  | some raw =>
    require env.inputOpens data
    require (raw.images.all fun image => !image.isEmpty) data
    require env.tempOpens data
    require env.outputOpens data
    require env.firstEntry data
    require env.entriesCopied data
    let xml := censorSpans env.matching 0 (textSpans raw.docType raw.xmlText) raw.xmlText
    require env.gotoXml data
    require env.xmlWritten data
    require env.xmlClosed data
    writeImages data raw.images
    require env.zipsClosed data
    require env.copiedBack env.partialCopy
    let out := env.archive xml
    return (out.length, out ++ data.drop out.length)

/-! ## Success -/

/-- The censored document: the archive around the XML text with every span censored, when no
    step fails and no matching throws. -/
def documentCensored (env : DocEnv) (data : Bytes) : Option Bytes :=
  match censorDocumentFile env data, env.extracted with
  | .ok (size, _), some raw =>
    let spans := textSpans raw.docType raw.xmlText
    if 0 < size ∧ ∀ k < spans.length, env.matching k ≠ none then
      some (env.archive (censorSpans env.matching 0 spans raw.xmlText))
    else none
  | _, _ => none

/-- A step that did not fail goes on. -/
theorem bind_ok {ε α β : Type} {x : Except ε α} {f : α → Except ε β} {r : β}
    (h : x >>= f = .ok r) : ∃ a, x = .ok a ∧ f a = .ok r := by
  cases x with
  | error e => exact absurd h (by simp [bind, Except.bind])
  | ok a => exact ⟨a, rfl, h⟩

/-- A document that gets a size has been extracted, and its buffer starts with the archive. -/
theorem censorDocumentFile_ok {env : DocEnv} {data buf : Bytes} {size : Nat}
    (h : censorDocumentFile env data = .ok (size, buf)) :
    ∃ raw, env.extracted = some raw ∧
      size = (env.archive (censorSpans env.matching 0 (textSpans raw.docType raw.xmlText)
        raw.xmlText)).length ∧
      buf.take size =
        env.archive
          (censorSpans env.matching 0 (textSpans raw.docType raw.xmlText) raw.xmlText) := by
  obtain ⟨-, -, h⟩ := bind_ok h
  cases hraw : env.extracted with
  | none =>
    rw [hraw] at h
    cases h
  | some raw =>
    rw [hraw] at h
    refine ⟨raw, rfl, ?_⟩
    -- the checks that an error can end, one after the other
    iterate 12 obtain ⟨-, -, h⟩ := bind_ok h
    cases h
    exact ⟨rfl, List.take_left⟩

end CdsGuard.Gateway
