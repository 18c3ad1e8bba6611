import CdsGuard.Gateway.FileSinkSession
import CdsGuard.Gateway.MatchBounds

/-
  The archive inside a document: `ParseZip::extract_doc_content` and the passes of
  `enqueue_censor_document_file` over the entries of the input ZIP.

  A ZIP is its list of entries, with distinct names and distinct directory offsets. A raw read
  gives the stored bytes and a raw write stores them; any other read or write goes through the
  compression of the entry. OpenCV and the compression are `DocLibrary`, and `DocCalls` says how
  the calls that can fail turn out.

  The output is written in three phases: every entry whose offset is not set aside, then the XML,
  then the images, each found again by its offset. `outputArchive_ok` gives the files that are
  written, `files_names` that they are the entries of the input, each once, and
  `censorArchive_eq` that the abstract function of `DocumentFilter` does the same.
-/

namespace CdsGuard.Gateway

open CdsGuard.Lib

/-! ## ZIP archives -/

/-- `mz_zip_file`: the fields that the function reads or sets. -/
structure ZipFileInfo where
  filename : Bytes
  compressionMethod : Nat
  crc : Nat
  uncompressedSize : Nat
  deriving DecidableEq

/-- A file of an archive: its description and its bytes as the archive stores them. -/
structure ZipFile where
  info : ZipFileInfo
  stored : Bytes
  deriving DecidableEq

/-- A file at its offset in the central directory. -/
structure ZipEntry extends ZipFile where
  offset : Nat
  deriving DecidableEq

abbrev ZipFile.name (f : ZipFile) : Bytes := f.info.filename

structure ZipArchive where
  entries : List ZipEntry
  names_nodup : (entries.map fun e => e.name).Nodup
  offsets_nodup : (entries.map fun e => e.offset).Nodup

/-- `mz_zip_locate_entry`, with case. -/
def ZipArchive.locateEntry (zip : ZipArchive) (name : Bytes) : Option ZipEntry :=
  zip.entries.find? fun e => e.name = name

/-- `mz_zip_goto_entry`. -/
def ZipArchive.gotoEntry (zip : ZipArchive) (offset : Nat) : Option ZipEntry :=
  zip.entries.find? fun e => e.offset = offset

/-- What the function computes with outside the repository: the compression methods and the
    checksum of a ZIP, the bytes of an archive, and OpenCV on images. -/
structure DocLibrary (Image : Type) where
  deflate : Nat → Bytes → Bytes
  inflate : Nat → Bytes → Option Bytes
  inflate_deflate : ∀ method data, inflate method (deflate method data) = some data
  crc : Bytes → Nat
  archiveBytes : List ZipFile → Bytes
  imdecode : Bytes → Image
  empty : Image → Bool
  /-- Whether the type of an image is `CV_8UC1`, `CV_8UC3` or `CV_8UC4`. -/
  hashable : Image → Bool
  safeConvertForHash : Image → Image
  /-- `compute_color_moment_hash`, or its exception. -/
  computeColorMomentHash : Image → Option Nat
  /-- The mosaic of `censor` on an image, or its exception. -/
  mosaic : Image → Option Image
  imencode : Bytes → Image → Option Bytes

/-- How the calls that can fail turn out, and what a task finds when it runs. -/
structure DocCalls where
  streamOpens : Bool
  extractOpens : Bool
  inputOpens : Bool
  tempOpens : Bool
  outputOpens : Bool
  /-- The raw read and the raw write of the entry at an offset. -/
  entryCopied : Nat → Bool
  matching : Nat → MatchOutcome
  /-- `image_hash_set_.contains`, when the task of the `k`-th image asks. -/
  imageHashSet : Nat → Nat → Bool
  xmlWritten : Bool
  xmlClosed : Bool
  imageWritten : Nat → Bool
  zipsClosed : Bool
  copiedBack : Bool
  partialCopy : Bytes

variable {Image : Type}

/-- An entry read without `raw`. -/
def DocLibrary.content (lib : DocLibrary Image) (f : ZipFile) : Option Bytes :=
  lib.inflate f.info.compressionMethod f.stored

/-- The file that a write without `raw` leaves: closing the entry sets its checksum. -/
def DocLibrary.newFile (lib : DocLibrary Image) (info : ZipFileInfo) (content : Bytes) :
    ZipFile where
  info := { info with crc := lib.crc content, uncompressedSize := content.length }
  stored := lib.deflate info.compressionMethod content

/-! ## `extract_doc_content` -/

inductive ExtractError where
  | minizipError
  | xmlTooLarge
  | tooManyEntries
  | unsupportedDocumentType
  | imageTooLarge
  | imageDecodeFailed
  deriving DecidableEq

def kZipEntryFileMaxSize : Nat := 100 * 1024 * 1024
def kMaxEntryNumber : Nat := 5000

def DocType.xmlPath : DocType → Bytes
  | docx => utf8 "word/document.xml".toList
  | xlsx => utf8 "xl/sharedStrings.xml".toList
  | hwpx => utf8 "Contents/section0.xml".toList

def DocType.mediaDir : DocType → Bytes
  | docx => utf8 "word/media/".toList
  | xlsx => utf8 "x1/media".toList
  | hwpx => utf8 "BinData".toList

def imageExts : List Bytes :=
  [".jpg", ".jpeg", ".png", ".gif", ".bmp", ".tiff"].map fun ext => utf8 ext.toList

/-- `path.substr(path.rfind('.'))`, or nothing. -/
def extension (path : Bytes) : Bytes :=
  match rfind 0x2e path with
  | some pos => path.drop pos
  | none => []

def isImageFile (path : Bytes) : Bool :=
  match rfind 0x2e path with
  | some pos => imageExts.contains (path.drop pos)
  | none => false

/-- The entries that step 4 takes for images. -/
def DocType.isImage (docType : DocType) (e : ZipEntry) : Bool :=
  docType.mediaDir.isPrefixOf e.name && isImageFile e.name

/-- `RawExtractedDocContent`, with the images and their offsets. -/
structure DocContent (Image : Type) where
  docType : DocType
  xmlText : Bytes
  xmlFileOffset : Nat
  images : List (Nat × Image)

/-- Step 2: the first of the three XML paths that the archive has. -/
def identify (zip : ZipArchive) : Option (DocType × ZipEntry) :=
  [DocType.docx, .xlsx, .hwpx].findSome? fun docType =>
    (zip.locateEntry docType.xmlPath).map fun e => (docType, e)

/-- Step 4, from the cursor on. A failed read leaves the buffer empty. -/
def extractImages (lib : DocLibrary Image) (docType : DocType) :
    List ZipEntry → Except ExtractError (List (Nat × Image))
  | [] => .ok []
  | e :: es =>
    if docType.isImage e then
      if kZipEntryFileMaxSize < e.info.uncompressedSize then .error .imageTooLarge
      else
        let image := lib.imdecode ((lib.content e.toZipFile).getD [])
        if lib.empty image then .error .imageDecodeFailed
        else do
          let images ← extractImages lib docType es
          return (e.offset, image) :: images
    else extractImages lib docType es

def extractDocContent (lib : DocLibrary Image) (calls : DocCalls) (zip : ZipArchive) :
    Except ExtractError (DocContent Image) :=
  if !calls.extractOpens then .error .minizipError
  else if kMaxEntryNumber < zip.entries.length then .error .tooManyEntries
  else
    match identify zip with
    | none => .error .unsupportedDocumentType
    | some (docType, xml) =>
      if kZipEntryFileMaxSize < xml.info.uncompressedSize then .error .xmlTooLarge
      else
        match lib.content xml.toZipFile with
        | none => .error .minizipError
        | some xmlText => do
          let images ← extractImages lib docType zip.entries
          return ⟨docType, xmlText, xml.offset, images⟩

/-! ## The passes over the archive -/

/-- One image task of `worker_loop`: whether the image is in the set, and the image after it;
    or the exception that `get` sees. -/
def imageTask (lib : DocLibrary Image) (calls : DocCalls) (k : Nat) (image : Image) :
    Option (Bool × Image) := do
  let hash ← lib.computeColorMomentHash image
  if calls.imageHashSet k hash then
    let image ← lib.mosaic image
    return (true, image)
  else return (false, image)

/-- Step 4: the entries whose offset is not in the set, from the cursor on. -/
def copyEntries (calls : DocCalls) (buffer : Bytes) (censorFileOffsetSet : List Nat) :
    List ZipEntry → List ZipFile → Except DocStop (List ZipFile)
  | [], out => .ok out
  | e :: es, out =>
    if e.offset ∈ censorFileOffsetSet then
      copyEntries calls buffer censorFileOffsetSet es out
    else do
      require (calls.entryCopied e.offset) buffer
      copyEntries calls buffer censorFileOffsetSet es (out ++ [e.toZipFile])

/-- Step 6: the XML entry under its old description, with the new text. -/
def writeXml (lib : DocLibrary Image) (calls : DocCalls) (zip : ZipArchive) (buffer : Bytes)
    (xmlFileOffset : Nat) (xmlText : Bytes) (out : List ZipFile) :
    Except DocStop (List ZipFile) :=
  match zip.gotoEntry xmlFileOffset with
  | none => .error (.zero buffer)
  | some e => do
    require calls.xmlWritten buffer
    require calls.xmlClosed buffer
    return out ++ [lib.newFile e.info xmlText]

/-- Step 7 on the `k`-th image. -/
def writeImageEntry (lib : DocLibrary Image) (calls : DocCalls) (zip : ZipArchive)
    (buffer : Bytes) (k offset : Nat) (image : Image) (out : List ZipFile) :
    Except DocStop (List ZipFile) :=
  match imageTask lib calls k image with
  | none => .error .threw
  | some (wasCensored, image) =>
    match zip.gotoEntry offset with
    | none => .error (.zero buffer)
    | some e =>
      if wasCensored then
        match lib.imencode (extension e.name) image with
        | none => .error (.zero buffer)
        | some encoded => do
          require (calls.imageWritten k) buffer
          return out ++ [lib.newFile e.info encoded]
      else do
        require (calls.imageWritten k) buffer
        return out ++ [e.toZipFile]

/-- Step 7, from the `k`-th image on. -/
def writeImageEntries (lib : DocLibrary Image) (calls : DocCalls) (zip : ZipArchive)
    (buffer : Bytes) : Nat → List (Nat × Image) → List ZipFile → Except DocStop (List ZipFile)
  | _, [], out => .ok out
  | k, (offset, image) :: images, out => do
    let out ← writeImageEntry lib calls zip buffer k offset image out
    writeImageEntries lib calls zip buffer (k + 1) images out

/-- The XML text when step 5 has waited for its tasks. -/
def DocContent.censoredXml (raw : DocContent Image) (calls : DocCalls) : Bytes :=
  censorSpans calls.matching 0 (textSpans raw.docType raw.xmlText) raw.xmlText

/-- An image as step 3 leaves it for its task. -/
def DocLibrary.converted (lib : DocLibrary Image) (image : Image) : Image :=
  if lib.hashable image then image else lib.safeConvertForHash image

def DocLibrary.convertedImages (lib : DocLibrary Image) (images : List (Nat × Image)) :
    List (Nat × Image) :=
  images.map fun (offset, image) => (offset, lib.converted image)

def DocContent.offsets (raw : DocContent Image) : List Nat :=
  raw.xmlFileOffset :: raw.images.map Prod.fst

/-- Steps 4, 6 and 7: the files of the output archive, in the order of their directory. -/
def outputArchive (lib : DocLibrary Image) (calls : DocCalls) (zip : ZipArchive)
    (raw : DocContent Image) (buffer : Bytes) : Except DocStop (List ZipFile) := do
  let out ← copyEntries calls buffer raw.offsets zip.entries []
  let out ← writeXml lib calls zip buffer raw.xmlFileOffset (raw.censoredXml calls) out
  writeImageEntries lib calls zip buffer 0 (lib.convertedImages raw.images) out

/-- `enqueue_censor_document_file` on a document that is the archive `zip`: the returned size
    and the bytes of the buffer. -/
def censorArchive (lib : DocLibrary Image) (calls : DocCalls) (zip : ZipArchive) (data : Bytes) :
    Except DocStop (Nat × Bytes) := do
  require calls.streamOpens data
  match extractDocContent lib calls zip with
  | .error _ => .error (.zero data)
  | .ok raw =>
    require calls.inputOpens data
    require (raw.images.all fun (_, image) => !lib.empty image) data
    require calls.tempOpens data
    require calls.outputOpens data
    require (!zip.entries.isEmpty) data
    let files ← outputArchive lib calls zip raw data
    require calls.zipsClosed data
    require calls.copiedBack calls.partialCopy
    let out := lib.archiveBytes files
    return (out.length, out ++ data.drop out.length)

/-! ## The files that are written -/

/-- The entries that step 4 copies. -/
def copiedFiles (offsets : List Nat) (es : List ZipEntry) : List ZipFile :=
  (es.filter fun e => e.offset ∉ offsets).map ZipEntry.toZipFile

/-- The file that step 7 writes for the `k`-th image. -/
def imageFile (lib : DocLibrary Image) (calls : DocCalls) (zip : ZipArchive) (k offset : Nat)
    (image : Image) : Option ZipFile := do
  let (wasCensored, image) ← imageTask lib calls k image
  let e ← zip.gotoEntry offset
  if wasCensored then
    let encoded ← lib.imencode (extension e.name) image
    return lib.newFile e.info encoded
  else return e.toZipFile

def imageFiles (lib : DocLibrary Image) (calls : DocCalls) (zip : ZipArchive) :
    Nat → List (Nat × Image) → List ZipFile
  | _, [] => []
  | k, (offset, image) :: images =>
    (imageFile lib calls zip k offset image).toList ++ imageFiles lib calls zip (k + 1) images

def xmlFile (lib : DocLibrary Image) (zip : ZipArchive) (raw : DocContent Image)
    (xmlText : Bytes) : Option ZipFile :=
  (zip.gotoEntry raw.xmlFileOffset).map fun e => lib.newFile e.info xmlText

/-- The files of the output, in the order of the three phases. -/
def outputFiles (lib : DocLibrary Image) (calls : DocCalls) (zip : ZipArchive)
    (raw : DocContent Image) (xmlText : Bytes) : List ZipFile :=
  copiedFiles raw.offsets zip.entries ++ (xmlFile lib zip raw xmlText).toList ++
    imageFiles lib calls zip 0 (lib.convertedImages raw.images)

/-- The calls on one image, as the function of `DocumentFilter` takes them. -/
def docImage (lib : DocLibrary Image) (calls : DocCalls) (zip : ZipArchive) (k offset : Nat)
    (image : Image) : DocImage where
  isEmpty := lib.empty image
  inSet := (imageTask lib calls k (lib.converted image)).map Prod.fst
  gotoEntry := (zip.gotoEntry offset).isSome
  encodes := (imageFile lib calls zip k offset (lib.converted image)).isSome
  written := calls.imageWritten k

def docImages (lib : DocLibrary Image) (calls : DocCalls) (zip : ZipArchive) :
    Nat → List (Nat × Image) → List DocImage
  | _, [] => []
  | k, (offset, image) :: images =>
    docImage lib calls zip k offset image :: docImages lib calls zip (k + 1) images

def entriesCopied (calls : DocCalls) (offsets : List Nat) (es : List ZipEntry) : Bool :=
  es.all fun e => e.offset ∈ offsets || calls.entryCopied e.offset

theorem copyEntries_eq (calls : DocCalls) (buffer : Bytes) (offsets : List Nat)
    (es : List ZipEntry) (out : List ZipFile) :
    copyEntries calls buffer offsets es out =
      (do require (entriesCopied calls offsets es) buffer
          return out ++ copiedFiles offsets es) := by
  induction es generalizing out with
  | nil =>
    simp only [copyEntries, entriesCopied, copiedFiles, List.filter_nil, List.map_nil,
      List.append_nil]
    rfl
  | cons e es ih =>
    unfold copyEntries
    by_cases hoff : e.offset ∈ offsets
    · have hkept : copiedFiles offsets (e :: es) = copiedFiles offsets es := by
        simp [copiedFiles, hoff]
      have hrest : entriesCopied calls offsets (e :: es) = entriesCopied calls offsets es := by
        simp [entriesCopied, hoff]
      rw [if_pos hoff, ih, hkept, hrest]
    · have hkept : copiedFiles offsets (e :: es) = e.toZipFile :: copiedFiles offsets es := by
        simp [copiedFiles, hoff]
      have hrest : entriesCopied calls offsets (e :: es) =
          (calls.entryCopied e.offset && entriesCopied calls offsets es) := by
        simp [entriesCopied, hoff]
      rw [if_neg hoff, hkept, hrest]
      cases calls.entryCopied e.offset with
      | false => rfl
      | true =>
        rw [ih, List.append_assoc]
        rfl

theorem writeImageEntry_eq (lib : DocLibrary Image) (calls : DocCalls) (zip : ZipArchive)
    (buffer : Bytes) (k offset : Nat) (image : Image) (out : List ZipFile) :
    writeImageEntry lib calls zip buffer k offset (lib.converted image) out =
      (do writeImage buffer (docImage lib calls zip k offset image)
          return out ++ (imageFile lib calls zip k offset (lib.converted image)).toList) := by
  unfold writeImageEntry writeImage
  cases htask : imageTask lib calls k (lib.converted image) with
  | none => simp [docImage, htask]
  | some r =>
    obtain ⟨wasCensored, image'⟩ := r
    cases hgoto : zip.gotoEntry offset with
    | none => simp [docImage, htask, hgoto, require]; rfl
    | some e =>
      cases wasCensored with
      | false =>
        cases hw : calls.imageWritten k with
        | false => simp [docImage, htask, hgoto, require, hw]; rfl
        | true => simp [docImage, imageFile, htask, hgoto, require, hw]; rfl
      | true =>
        cases henc : lib.imencode (extension e.name) image' with
        | none => simp [docImage, imageFile, htask, hgoto, require, henc]; rfl
        | some encoded =>
          cases hw : calls.imageWritten k with
          | false => simp [docImage, imageFile, htask, hgoto, require, henc, hw]; rfl
          | true => simp [docImage, imageFile, htask, hgoto, require, henc, hw]; rfl

theorem writeImageEntries_eq (lib : DocLibrary Image) (calls : DocCalls) (zip : ZipArchive)
    (buffer : Bytes) (k : Nat) (images : List (Nat × Image)) (out : List ZipFile) :
    writeImageEntries lib calls zip buffer k (lib.convertedImages images) out =
      (do writeImages buffer (docImages lib calls zip k images)
          return out ++ imageFiles lib calls zip k (lib.convertedImages images)) := by
  induction images generalizing k out with
  | nil =>
    simp only [DocLibrary.convertedImages, List.map_nil, writeImageEntries, imageFiles,
      List.append_nil]
    rfl
  | cons p images ih =>
    obtain ⟨offset, image⟩ := p
    have hcons : lib.convertedImages ((offset, image) :: images) =
        (offset, lib.converted image) :: lib.convertedImages images := rfl
    rw [hcons, writeImageEntries, docImages, writeImages, imageFiles, writeImageEntry_eq]
    cases writeImage buffer (docImage lib calls zip k offset image) with
    | error e => rfl
    | ok u =>
      change writeImageEntries lib calls zip buffer (k + 1) _ _ = _
      rw [ih, List.append_assoc]
      rfl

theorem writeXml_eq (lib : DocLibrary Image) (calls : DocCalls) (zip : ZipArchive)
    (buffer : Bytes) (raw : DocContent Image) (xmlText : Bytes) (out : List ZipFile) :
    writeXml lib calls zip buffer raw.xmlFileOffset xmlText out =
      (do require (zip.gotoEntry raw.xmlFileOffset).isSome buffer
          require calls.xmlWritten buffer
          require calls.xmlClosed buffer
          return out ++ (xmlFile lib zip raw xmlText).toList) := by
  unfold writeXml xmlFile
  cases zip.gotoEntry raw.xmlFileOffset with
  | none => rfl
  | some e => rfl

/-- The output archive, phase by phase. -/
theorem outputArchive_eq (lib : DocLibrary Image) (calls : DocCalls) (zip : ZipArchive)
    (raw : DocContent Image) (buffer : Bytes) :
    outputArchive lib calls zip raw buffer =
      (do require (entriesCopied calls raw.offsets zip.entries) buffer
          require (zip.gotoEntry raw.xmlFileOffset).isSome buffer
          require calls.xmlWritten buffer
          require calls.xmlClosed buffer
          writeImages buffer (docImages lib calls zip 0 raw.images)
          return outputFiles lib calls zip raw (raw.censoredXml calls)) := by
  unfold outputArchive outputFiles
  rw [copyEntries_eq]
  cases entriesCopied calls raw.offsets zip.entries with
  | false => rfl
  | true =>
    change (writeXml lib calls zip buffer raw.xmlFileOffset _ _ >>= _) = _
    rw [writeXml_eq]
    cases (zip.gotoEntry raw.xmlFileOffset).isSome with
    | false => rfl
    | true =>
      cases calls.xmlWritten with
      | false => rfl
      | true =>
        cases calls.xmlClosed with
        | false => rfl
        | true =>
          change writeImageEntries lib calls zip buffer 0 _ _ = _
          rw [writeImageEntries_eq]
          rfl

/-! ## The abstract function -/

/-- The outcomes of the calls on an archive, as the function of `DocumentFilter` takes them. -/
def docEnv (lib : DocLibrary Image) (calls : DocCalls) (zip : ZipArchive) : DocEnv :=
  let extracted := extractDocContent lib calls zip
  { streamOpens := calls.streamOpens
    extracted := extracted.toOption.map fun raw =>
      ⟨raw.docType, raw.xmlText, docImages lib calls zip 0 raw.images⟩
    inputOpens := calls.inputOpens
    tempOpens := calls.tempOpens
    outputOpens := calls.outputOpens
    firstEntry := !zip.entries.isEmpty
    entriesCopied := extracted.toOption.any fun raw =>
      entriesCopied calls raw.offsets zip.entries
    matching := calls.matching
    gotoXml := extracted.toOption.any fun raw => (zip.gotoEntry raw.xmlFileOffset).isSome
    xmlWritten := calls.xmlWritten
    xmlClosed := calls.xmlClosed
    zipsClosed := calls.zipsClosed
    archive := fun xmlText =>
      lib.archiveBytes (extracted.toOption.elim [] fun raw => outputFiles lib calls zip raw xmlText)
    copiedBack := calls.copiedBack
    partialCopy := calls.partialCopy }

theorem docImages_isEmpty (lib : DocLibrary Image) (calls : DocCalls) (zip : ZipArchive)
    (k : Nat) (images : List (Nat × Image)) :
    ((docImages lib calls zip k images).all fun image => !image.isEmpty) =
      images.all fun (_, image) => !lib.empty image := by
  induction images generalizing k with
  | nil => rfl
  | cons p images ih =>
    rw [docImages, List.all_cons, List.all_cons, ih]
    rfl

/-- On an archive the function does what `censorDocumentFile` does with the outcomes of its
    calls. -/
theorem censorArchive_eq (lib : DocLibrary Image) (calls : DocCalls) (zip : ZipArchive)
    (data : Bytes) :
    censorArchive lib calls zip data = censorDocumentFile (docEnv lib calls zip) data := by
  unfold censorArchive censorDocumentFile
  cases hraw : extractDocContent lib calls zip with
  | error e =>
    simp only [docEnv, hraw]
    rfl
  | ok raw =>
    simp only [docEnv, hraw, outputArchive_eq, Except.toOption, Option.map_some, Option.any_some,
      Option.elim_some, docImages_isEmpty, bind_assoc, pure_bind]
    rfl

/-! ## What is extracted -/

/-- The image that step 4 decodes from an entry. -/
def DocLibrary.decoded (lib : DocLibrary Image) (e : ZipEntry) : Image :=
  lib.imdecode ((lib.content e.toZipFile).getD [])

theorem extractImages_ok {lib : DocLibrary Image} {docType : DocType} {es : List ZipEntry}
    {images : List (Nat × Image)} (h : extractImages lib docType es = .ok images) :
    images = (es.filter docType.isImage).map fun e => (e.offset, lib.decoded e) := by
  induction es generalizing images with
  | nil =>
    cases h
    rfl
  | cons e es ih =>
    unfold extractImages at h
    by_cases himage : docType.isImage e
    · rw [if_pos himage] at h
      rw [List.filter_cons_of_pos himage, List.map_cons]
      dsimp only at h
      split at h
      · exact absurd h (by simp)
      · split at h
        · exact absurd h (by simp)
        · obtain ⟨rest, hrest, h⟩ := bind_ok h
          cases h
          rw [ih hrest]
          rfl
    · rw [if_neg himage] at h
      rw [List.filter_cons_of_neg himage]
      exact ih h

theorem identify_some {zip : ZipArchive} {docType : DocType} {xml : ZipEntry}
    (h : identify zip = some (docType, xml)) :
    xml ∈ zip.entries ∧ xml.name = docType.xmlPath := by
  obtain ⟨t, -, ht⟩ := List.exists_of_findSome?_eq_some h
  obtain ⟨e, he, heq⟩ := Option.map_eq_some_iff.mp ht
  cases heq
  exact ⟨List.mem_of_find?_eq_some he, by simpa using List.find?_some he⟩

/-- The text is that of the entry at the saved offset, which has one of the three paths, and the
    images are those of the media directory, in their order. -/
theorem extractDocContent_ok {lib : DocLibrary Image} {calls : DocCalls} {zip : ZipArchive}
    {raw : DocContent Image} (h : extractDocContent lib calls zip = .ok raw) :
    (∃ xml ∈ zip.entries, xml.name = raw.docType.xmlPath ∧ xml.offset = raw.xmlFileOffset ∧
      lib.content xml.toZipFile = some raw.xmlText) ∧
    raw.images =
      (zip.entries.filter raw.docType.isImage).map fun e => (e.offset, lib.decoded e) := by
  unfold extractDocContent at h
  iterate 2
    split at h
    · exact absurd h (by simp)
  cases hid : identify zip with
  | none =>
    rw [hid] at h
    exact absurd h (by simp)
  | some r =>
    obtain ⟨docType, xml⟩ := r
    rw [hid] at h
    dsimp only at h
    split at h
    · exact absurd h (by simp)
    · cases hcontent : lib.content xml.toZipFile with
      | none =>
        rw [hcontent] at h
        exact absurd h (by simp)
      | some xmlText =>
        rw [hcontent] at h
        obtain ⟨images, himages, h⟩ := bind_ok h
        cases h
        obtain ⟨hmem, hname⟩ := identify_some hid
        exact ⟨⟨xml, hmem, hname, rfl, hcontent⟩, extractImages_ok himages⟩

/-! ## Entries and offsets -/

/-- Going to the offset of an entry selects that entry. -/
theorem gotoEntry_of_mem {zip : ZipArchive} {e : ZipEntry} (h : e ∈ zip.entries) :
    zip.gotoEntry e.offset = some e := by
  unfold ZipArchive.gotoEntry
  rw [List.find?_eq_some_iff_append]
  obtain ⟨as, bs, hsplit⟩ := List.append_of_mem h
  refine ⟨by simp, as, bs, hsplit, fun a ha => ?_⟩
  have hnodup := zip.offsets_nodup
  rw [hsplit, List.map_append, List.nodup_append] at hnodup
  have hne := hnodup.2.2 _ (List.mem_map_of_mem ha) e.offset (by simp)
  simpa using hne

theorem eq_of_offset {zip : ZipArchive} {e e' : ZipEntry} (h : e ∈ zip.entries)
    (h' : e' ∈ zip.entries) (hoff : e.offset = e'.offset) : e = e' := by
  have he := gotoEntry_of_mem h
  rw [hoff, gotoEntry_of_mem h'] at he
  exact (Option.some.inj he).symm

/-- No XML path has the extension of an image. -/
theorem xmlPath_not_image (docType : DocType) : isImageFile docType.xmlPath = false := by
  cases docType <;> decide +kernel

/-- The offsets set aside are those of the XML entry and of the images. -/
theorem offset_mem_iff {lib : DocLibrary Image} {zip : ZipArchive} {raw : DocContent Image}
    {xml e : ZipEntry} (hxml : xml ∈ zip.entries) (hoff : xml.offset = raw.xmlFileOffset)
    (himages : raw.images =
      (zip.entries.filter raw.docType.isImage).map fun e => (e.offset, lib.decoded e))
    (he : e ∈ zip.entries) :
    e.offset ∈ raw.offsets ↔ e = xml ∨ raw.docType.isImage e = true := by
  unfold DocContent.offsets
  rw [himages, List.map_map, List.mem_cons, ← hoff]
  constructor
  · rintro (heq | hmem)
    · exact .inl (eq_of_offset he hxml heq)
    · obtain ⟨e', he', heq⟩ := List.mem_map.mp hmem
      obtain ⟨hin, himage⟩ := List.mem_filter.mp he'
      rw [eq_of_offset he hin heq.symm]
      exact .inr himage
  · rintro (rfl | himage)
    · exact .inl rfl
    · exact .inr (List.mem_map.mpr ⟨e, List.mem_filter.mpr ⟨he, himage⟩, rfl⟩)

/-- The entries copied, the XML entry and the images are all entries, each once. -/
theorem written_perm {lib : DocLibrary Image} {zip : ZipArchive} {raw : DocContent Image}
    {xml : ZipEntry} (hxml : xml ∈ zip.entries) (hname : xml.name = raw.docType.xmlPath)
    (hoff : xml.offset = raw.xmlFileOffset)
    (himages : raw.images =
      (zip.entries.filter raw.docType.isImage).map fun e => (e.offset, lib.decoded e)) :
    ((zip.entries.filter fun e => e.offset ∉ raw.offsets) ++ [xml] ++
      zip.entries.filter raw.docType.isImage).Perm zip.entries := by
  have hnodup : zip.entries.Nodup := zip.offsets_nodup.of_map
  have hnot : raw.docType.isImage xml = false := by
    unfold DocType.isImage
    rw [hname, xmlPath_not_image, Bool.and_false]
  rw [List.perm_ext_iff_of_nodup ?_ hnodup]
  · intro e
    simp only [List.mem_append, List.mem_filter, List.mem_singleton, decide_eq_true_eq]
    constructor
    · rintro ((⟨he, -⟩ | rfl) | ⟨he, -⟩)
      · exact he
      · exact hxml
      · exact he
    · intro he
      rw [offset_mem_iff hxml hoff himages he]
      by_cases heq : e = xml
      · exact .inl (.inr heq)
      · by_cases himage : raw.docType.isImage e
        · exact .inr ⟨he, himage⟩
        · exact .inl (.inl ⟨he, by simp [heq, himage]⟩)
  · rw [List.nodup_append, List.nodup_append]
    refine ⟨⟨hnodup.filter _, List.nodup_singleton _, ?_⟩, hnodup.filter _, ?_⟩
    · intro a ha b hb heq
      rw [List.mem_singleton] at hb
      subst hb heq
      obtain ⟨he, hkept⟩ := List.mem_filter.mp ha
      rw [decide_eq_true_eq, offset_mem_iff hxml hoff himages he] at hkept
      exact hkept (.inl rfl)
    · intro a ha b hb heq
      subst heq
      obtain ⟨he, himage⟩ := List.mem_filter.mp hb
      obtain ha | ha := List.mem_append.mp ha
      · have hkept := (List.mem_filter.mp ha).2
        rw [decide_eq_true_eq, offset_mem_iff hxml hoff himages he] at hkept
        exact hkept (.inr himage)
      · rw [List.mem_singleton.mp ha, hnot] at himage
        exact absurd himage (by simp)

/-! ## The files of the images -/

theorem imageFile_name {lib : DocLibrary Image} {calls : DocCalls} {zip : ZipArchive}
    {k : Nat} {e : ZipEntry} {image : Image} {f : ZipFile} (he : e ∈ zip.entries)
    (h : imageFile lib calls zip k e.offset image = some f) : f.name = e.name := by
  unfold imageFile at h
  obtain ⟨r, -, h⟩ := Option.bind_eq_some_iff.mp h
  obtain ⟨wasCensored, image'⟩ := r
  obtain ⟨e', he', h⟩ := Option.bind_eq_some_iff.mp h
  rw [gotoEntry_of_mem he] at he'
  cases he'
  cases wasCensored with
  | false =>
    cases h
    rfl
  | true =>
    obtain ⟨encoded, -, h⟩ := Option.bind_eq_some_iff.mp h
    cases h
    rfl

/-- An image that is not in the set is written as it was. -/
theorem imageFile_kept {lib : DocLibrary Image} {calls : DocCalls} {zip : ZipArchive}
    {k hash : Nat} {e : ZipEntry} {image : Image} (he : e ∈ zip.entries)
    (hhash : lib.computeColorMomentHash image = some hash)
    (hset : calls.imageHashSet k hash = false) :
    imageFile lib calls zip k e.offset image = some e.toZipFile := by
  simp [imageFile, imageTask, hhash, hset, gotoEntry_of_mem he]

/-- An image whose calls all succeed is written. -/
theorem imageFile_isSome {lib : DocLibrary Image} {calls : DocCalls} {zip : ZipArchive}
    {buffer : Bytes} {k offset : Nat} {image : Image}
    (h : writeImage buffer (docImage lib calls zip k offset image) = .ok ()) :
    (imageFile lib calls zip k offset (lib.converted image)).isSome = true := by
  unfold writeImage docImage at h
  dsimp only at h
  cases htask : imageTask lib calls k (lib.converted image) with
  | none =>
    rw [htask] at h
    exact absurd h (by simp)
  | some r =>
    obtain ⟨wasCensored, image'⟩ := r
    rw [htask] at h
    obtain ⟨_, hgoto, h⟩ := bind_ok h
    cases wasCensored with
    | false =>
      cases he : zip.gotoEntry offset with
      | none =>
        rw [he] at hgoto
        exact absurd hgoto (by simp [require])
      | some e => simp [imageFile, htask, he]
    | true =>
      obtain ⟨_, hencodes, -⟩ := bind_ok h
      cases hfile : imageFile lib calls zip k offset (lib.converted image) with
      | none =>
        rw [hfile] at hencodes
        exact absurd hencodes (by simp [require])
      | some f => rfl

/-- Each image leaves one file, under its name. -/
theorem imageFiles_names {lib : DocLibrary Image} {calls : DocCalls} {zip : ZipArchive}
    {buffer : Bytes} {es : List ZipEntry} {k : Nat} (hes : ∀ e ∈ es, e ∈ zip.entries)
    (h : writeImages buffer
      (docImages lib calls zip k (es.map fun e => (e.offset, lib.decoded e))) = .ok ()) :
    (imageFiles lib calls zip k
        (lib.convertedImages (es.map fun e => (e.offset, lib.decoded e)))).map ZipFile.name =
      es.map fun e => e.name := by
  induction es generalizing k with
  | nil => rfl
  | cons e es ih =>
    obtain ⟨_, hfirst, hrest⟩ := bind_ok h
    obtain ⟨f, hf⟩ := Option.isSome_iff_exists.mp (imageFile_isSome hfirst)
    have hcons : lib.convertedImages ((e :: es).map fun e => (e.offset, lib.decoded e)) =
        (e.offset, lib.converted (lib.decoded e)) ::
          lib.convertedImages (es.map fun e => (e.offset, lib.decoded e)) := rfl
    rw [hcons, imageFiles, hf, List.map_append,
      ih (fun e he => hes e (List.mem_cons_of_mem _ he)) hrest]
    simp [imageFile_name (hes e List.mem_cons_self) hf]

theorem mem_imageFiles {lib : DocLibrary Image} {calls : DocCalls} {zip : ZipArchive}
    {images : List (Nat × Image)} {f : ZipFile} {k j offset : Nat} {image : Image}
    (h : images[j]? = some (offset, image))
    (hf : imageFile lib calls zip (k + j) offset image = some f) :
    f ∈ imageFiles lib calls zip k images := by
  induction images generalizing k j with
  | nil => exact absurd h (by simp)
  | cons p images ih =>
    rw [imageFiles, List.mem_append]
    cases j with
    | zero =>
      cases Option.some.inj h
      exact .inl (by simpa using hf)
    | succ j =>
      refine .inr (ih h ?_)
      rwa [Nat.add_assoc, Nat.add_comm 1]

/-! ## The output archive -/

theorem censorTask_length (outcome : MatchOutcome) (data : Bytes) :
    (censorTask outcome data).length = data.length := by
  cases outcome with
  | none => rfl
  | some infos => rw [censorTask_some, censor_length]

theorem censorSpan_length (xml : Bytes) (span : TextSpan) (outcome : MatchOutcome) :
    (censorSpan xml span outcome).length = xml.length := by
  simp only [censorSpan, List.length_append, censorTask_length, List.length_take,
    List.length_drop]
  omega

theorem censorSpans_length (outcomes : Nat → MatchOutcome) (k : Nat) (spans : List TextSpan)
    (xml : Bytes) : (censorSpans outcomes k spans xml).length = xml.length := by
  induction spans generalizing k xml with
  | nil => rfl
  | cons span spans ih => rw [censorSpans, ih, censorSpan_length]

/-- An archive that was written holds the files of `outputFiles`, and every image was written. -/
theorem outputArchive_ok {lib : DocLibrary Image} {calls : DocCalls} {zip : ZipArchive}
    {raw : DocContent Image} {buffer : Bytes} {out : List ZipFile}
    (h : outputArchive lib calls zip raw buffer = .ok out) :
    out = outputFiles lib calls zip raw (raw.censoredXml calls) ∧
      writeImages buffer (docImages lib calls zip 0 raw.images) = .ok () := by
  rw [outputArchive_eq] at h
  iterate 4 obtain ⟨-, -, h⟩ := bind_ok h
  obtain ⟨_, himages, h⟩ := bind_ok h
  cases h
  exact ⟨rfl, himages⟩

/-- A document that gets a size has been extracted, and its buffer starts with the archive that
    was written. -/
theorem censorArchive_ok {lib : DocLibrary Image} {calls : DocCalls} {zip : ZipArchive}
    {data buf : Bytes} {size : Nat} (h : censorArchive lib calls zip data = .ok (size, buf)) :
    ∃ raw out, extractDocContent lib calls zip = .ok raw ∧
      outputArchive lib calls zip raw data = .ok out ∧ buf.take size = lib.archiveBytes out := by
  obtain ⟨-, -, h⟩ := bind_ok h
  cases hraw : extractDocContent lib calls zip with
  | error e =>
    rw [hraw] at h
    cases h
  | ok raw =>
    rw [hraw] at h
    iterate 5 obtain ⟨-, -, h⟩ := bind_ok h
    obtain ⟨out, hout, h⟩ := bind_ok h
    iterate 2 obtain ⟨-, -, h⟩ := bind_ok h
    cases h
    exact ⟨raw, out, rfl, hout, List.take_left⟩

/-- The files `out` are those of the document `raw` in `zip`, censored. -/
structure CensoredFiles (lib : DocLibrary Image) (calls : DocCalls) (zip : ZipArchive)
    (raw : DocContent Image) (out : List ZipFile) : Prop where
  /-- Every name of the input is there exactly once, and no other. -/
  names : (out.map ZipFile.name).Perm (zip.entries.map fun e => e.name)
  nodup : (out.map ZipFile.name).Nodup
  others : ∀ e ∈ zip.entries, e.name ≠ raw.docType.xmlPath → raw.docType.isImage e = false →
    e.toZipFile ∈ out
  /-- The `k`-th image, when its task does not find it in the set. -/
  images : ∀ k e hash, (zip.entries.filter raw.docType.isImage)[k]? = some e →
    lib.computeColorMomentHash (lib.converted (lib.decoded e)) = some hash →
    calls.imageHashSet k hash = false → e.toZipFile ∈ out
  xml : ∃ e ∈ zip.entries, e.name = raw.docType.xmlPath ∧
    lib.content e.toZipFile = some raw.xmlText ∧
    ∃ f ∈ out, f.name = e.name ∧ lib.content f = some (raw.censoredXml calls) ∧
      (raw.censoredXml calls).length = raw.xmlText.length

theorem outputArchive_censored {lib : DocLibrary Image} {calls : DocCalls} {zip : ZipArchive}
    {raw : DocContent Image} {buffer : Bytes} {out : List ZipFile}
    (hraw : extractDocContent lib calls zip = .ok raw)
    (hout : outputArchive lib calls zip raw buffer = .ok out) :
    CensoredFiles lib calls zip raw out := by
  obtain ⟨⟨xml, hxml, hname, hoff, hcontent⟩, himages⟩ := extractDocContent_ok hraw
  obtain ⟨rfl, hwritten⟩ := outputArchive_ok hout
  have hxmlFile : xmlFile lib zip raw (raw.censoredXml calls) =
      some (lib.newFile xml.info (raw.censoredXml calls)) := by
    rw [xmlFile, ← hoff, gotoEntry_of_mem hxml]
    rfl
  have hnames : (outputFiles lib calls zip raw (raw.censoredXml calls)).map ZipFile.name =
      ((zip.entries.filter fun e => e.offset ∉ raw.offsets) ++ [xml] ++
        zip.entries.filter raw.docType.isImage).map fun e => e.name := by
    rw [himages] at hwritten
    rw [outputFiles, hxmlFile, List.map_append, List.map_append, himages,
      imageFiles_names (fun e he => (List.mem_filter.mp he).1) hwritten, List.map_append,
      List.map_append, copiedFiles, List.map_map]
    rfl
  have hperm := (written_perm hxml hname hoff himages).map fun e => e.name
  rw [← hnames] at hperm
  constructor
  case names => exact hperm
  case nodup => exact hperm.nodup_iff.mpr zip.names_nodup
  case others =>
    intro e he hother himage
    have hnot : e.offset ∉ raw.offsets := by
      rw [offset_mem_iff hxml hoff himages he, himage]
      rintro (rfl | h)
      · exact hother hname
      · exact absurd h (by simp)
    exact List.mem_append_left _ (List.mem_append_left _
      (List.mem_map_of_mem (List.mem_filter.mpr ⟨he, by simpa using hnot⟩)))
  case images =>
    intro k e hash hk hhash hset
    have he := (List.mem_filter.mp (List.mem_of_getElem? hk)).1
    have hk' : (lib.convertedImages raw.images)[k]? =
        some (e.offset, lib.converted (lib.decoded e)) := by
      simp [himages, DocLibrary.convertedImages, hk]
    have hfile : imageFile lib calls zip (0 + k) e.offset (lib.converted (lib.decoded e)) =
        some e.toZipFile := by
      rw [Nat.zero_add]
      exact imageFile_kept he hhash hset
    exact List.mem_append_right _ (mem_imageFiles hk' hfile)
  case xml =>
    refine ⟨xml, hxml, hname, hcontent, lib.newFile xml.info (raw.censoredXml calls), ?_, rfl,
      lib.inflate_deflate _ _, censorSpans_length _ _ _ _⟩
    rw [outputFiles, hxmlFile]
    simp

/-- A document that gets a size is an archive of the same entries: the XML text is censored and
    as long as before, and every other file that is not an image in the set is as it was. -/
theorem censored_archive_entries (lib : DocLibrary Image) (calls : DocCalls) (zip : ZipArchive)
    (data buf : Bytes) (size : Nat) (h : censorArchive lib calls zip data = .ok (size, buf)) :
    ∃ raw out, extractDocContent lib calls zip = .ok raw ∧
      outputArchive lib calls zip raw data = .ok out ∧ buf.take size = lib.archiveBytes out ∧
      CensoredFiles lib calls zip raw out := by
  obtain ⟨raw, out, hraw, hout, hbuf⟩ := censorArchive_ok h
  exact ⟨raw, out, hraw, hout, hbuf, outputArchive_censored hraw hout⟩

/-! ### A document with two images -/

/-- Entries stored without compression, and images that are their bytes. -/
def storedLibrary : DocLibrary Bytes where
  deflate _ data := data
  inflate _ data := some data
  inflate_deflate _ _ := rfl
  crc := leVal
  archiveBytes files := files.flatMap fun f => f.name ++ f.stored
  imdecode := id
  empty := List.isEmpty
  hashable _ := true
  safeConvertForHash := id
  computeColorMomentHash image := some (leVal image)
  mosaic image := some (image.map fun _ => 0)
  imencode _ image := some image

/-- Calls that all succeed; the rules match the first byte of each text, and the set holds the
    hash 1. -/
def sampleCalls : DocCalls where
  streamOpens := true
  extractOpens := true
  inputOpens := true
  tempOpens := true
  outputOpens := true
  entryCopied _ := true
  matching _ := some [⟨0, 1⟩]
  imageHashSet _ hash := hash == 1
  xmlWritten := true
  xmlClosed := true
  imageWritten _ := true
  zipsClosed := true
  copiedBack := true
  partialCopy := []

def storedEntry (name : String) (stored : Bytes) (offset : Nat) : ZipEntry :=
  ⟨⟨⟨utf8 name.toList, 0, leVal stored, stored.length⟩, stored⟩, offset⟩

/-- A docx file with the text `ab` and two images, one of them in the set. -/
def sampleDocx : ZipArchive where
  entries := [storedEntry "word/media/1.png" [1] 0,
    storedEntry "word/document.xml" (utf8 "<w:t>ab</w:t>".toList) 60,
    storedEntry "word/styles.xml" [7] 130, storedEntry "word/media/2.png" [2] 190]
  names_nodup := by decide +kernel
  offsets_nodup := by decide +kernel

theorem censored_archive_entries_docx : ∃ size buf,
    censorArchive storedLibrary sampleCalls sampleDocx [] = .ok (size, buf) ∧ 0 < size ∧
    ∃ raw out, extractDocContent storedLibrary sampleCalls sampleDocx = .ok raw ∧
      outputArchive storedLibrary sampleCalls sampleDocx raw [] = .ok out ∧
      buf.take size = storedLibrary.archiveBytes out ∧
      CensoredFiles storedLibrary sampleCalls sampleDocx raw out := by
  refine ⟨_, _, rfl, by decide +kernel, ?_⟩
  exact censored_archive_entries storedLibrary sampleCalls sampleDocx [] _ _ rfl

end CdsGuard.Gateway
