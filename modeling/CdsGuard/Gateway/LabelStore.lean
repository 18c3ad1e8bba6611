import CdsGuard.Client.TransferController
import CdsGuard.Lib.Transition

/-
  The labels of the training documents: the operator labels a document in a
  `DocumentLabelingDialog`, `PolicyPage` keeps the labels in a `.json` file beside the document,
  with the hash of the document, and sends them as training data. Qt's JSON text and SHA-256 are
  parameters.

  Proved: what is sent of a document is what the last finished dialog on it left, if the document
  is still the one that was labelled (`sent_is_last_labelled`). A dialog that is cancelled is
  finished too: it leaves no sentence at all, and no later dialog on the unchanged document shows
  one again (`cancelled_is_lost`).
-/

namespace CdsGuard.Gateway

open CdsGuard.Lib CdsGuard.Client

/-! ## JSON values -/

instance : DecidableEq QString := fun a b =>
  decidable_of_iff (a.chars = b.chars) (by cases a; cases b; simp)

/-- The keys of an object stand in order. The JSON reader makes an integer of every number that is
    one, so a `double` is none. -/
inductive QJsonValue where
  | null
  | bool (b : Bool)
  | integer (n : Int64)
  | double (bits : UInt64)
  | string (s : QString)
  | array (values : List QJsonValue)
  | object (members : List (String × QJsonValue))

/-- `QJsonObject::value`; `null` stands for `Undefined` too, the conversions take both alike. -/
def objectValue (obj : List (String × QJsonValue)) (key : String) : QJsonValue :=
  (obj.lookup key).getD .null

namespace QJsonValue

def toString : QJsonValue → QString
  | string s => s
  | _ => ⟨[], by decide⟩

def toArray : QJsonValue → List QJsonValue
  | array values => values
  | _ => []

def toInteger : QJsonValue → Int64
  | integer n => n
  | _ => 0

end QJsonValue

/-! ## `DocumentLabelingDialog` -/

structure TextLabel where
  start : UInt64
  stop : UInt64
  type : QString
  deriving DecidableEq

structure Sentence where
  text : QString
  labels : List TextLabel
  deriving DecidableEq

/-- `"NONE"`. -/
def noneType : QString := ⟨"NONE".toList, by decide⟩

def TextLabel.toJson (label : TextLabel) : QJsonValue :=
  .object [("end", .integer label.stop.toInt64), ("label", .string label.type),
    ("start", .integer label.start.toInt64)]

namespace Sentence

def toJson (sentence : Sentence) (annotations : List QJsonValue) : QJsonValue :=
  .object [("annotations", .array annotations), ("full_text", .string sentence.text)]

/-- The whole sentence under `"NONE"`. -/
def noneAnnotation (sentence : Sentence) : QJsonValue :=
  .object [("end", .integer (Int64.ofNat sentence.text.size)), ("label", .string noneType),
    ("start", .integer 0)]

/-- What `get_text_labels_with_none` makes of a sentence. -/
def withNone (sentence : Sentence) : QJsonValue :=
  sentence.toJson (if sentence.labels = [] then [sentence.noneAnnotation]
    else sentence.labels.map TextLabel.toJson)

end Sentence

def getTextLabels (sentences : List Sentence) : List QJsonValue :=
  (sentences.filter fun s => s.labels ≠ []).map fun s => s.toJson (s.labels.map TextLabel.toJson)

def getTextLabelsWithNone (sentences : List Sentence) : List QJsonValue :=
  sentences.map Sentence.withNone

def loadAnnotation : QJsonValue → Option TextLabel
  | .object ann =>
    if (objectValue ann "label").toString = noneType then none
    else
      some ⟨(objectValue ann "start").toInteger.toUInt64,
        (objectValue ann "end").toInteger.toUInt64, (objectValue ann "label").toString⟩
  | _ => none

def loadSentence : QJsonValue → Option Sentence
  | .object obj =>
    some ⟨(objectValue obj "full_text").toString,
      (objectValue obj "annotations").toArray.filterMap loadAnnotation⟩
  | _ => none

def loadTextLabelsFromJson (textLabelJsonArray : List QJsonValue) : List Sentence :=
  textLabelJsonArray.filterMap loadSentence

structure DocumentLabelingDialog where
  labelingOptions : List QString
  sentences : List Sentence

/-- What the operator does; `reply` is the answer if the dialog asks for a label. -/
inductive DialogEvent where
  /-- A label from the menu. -/
  | select (sentenceIndex : Nat) (start stop : UInt64) (label : QString) (reply : Option QString)
  /-- "직접 입력...". -/
  | custom (sentenceIndex : Nat) (start stop : UInt64) (input : QString) (reply : Option QString)

namespace DocumentLabelingDialog

def handleSelection (d : DocumentLabelingDialog) (i : Nat) (start stop : UInt64)
    (selected : QString) (reply : Option QString) : DocumentLabelingDialog :=
  let label := if selected ∈ d.labelingOptions then some selected
    else reply.filter fun l => !l.isEmpty
  match label with
  | none => d
  | some label =>
    { d with sentences := d.sentences.modify i fun s =>
        { s with labels := s.labels ++ [⟨start, stop, label⟩] } }

/-- `selectionMade` comes before `newLabelAdded`, so a new label is asked for twice. -/
def handle (d : DocumentLabelingDialog) : DialogEvent → DocumentLabelingDialog
  | .select i start stop label reply => d.handleSelection i start stop label reply
  | .custom i start stop input reply =>
    if input.isEmpty then d
    else
      let d' := d.handleSelection i start stop input reply
      { d' with labelingOptions := d'.labelingOptions.insert input }

end DocumentLabelingDialog

/-! ## The files -/

abbrev FileName : Type := List Char

/-- `path::extension`: from the last dot on, unless the name begins with it. -/
def fileExtension (name : FileName) : FileName :=
  let stem := (name.reverse.dropWhile fun c => c ≠ '.').reverse.dropLast
  if stem = [] then [] else name.drop stem.length

/-- `path::replace_extension()`. -/
def removeExtension (name : FileName) : FileName :=
  name.take (name.length - (fileExtension name).length)

def jsonExtension : FileName := ".json".toList

def kDocExtensions : List FileName := [".hwpx".toList, ".docx".toList, ".xlsx".toList]

/-- A document in the training directory; only such are listed and sent. -/
def IsDoc (name : FileName) : Prop := fileExtension name ∈ kDocExtensions

instance (name : FileName) : Decidable (IsDoc name) := inferInstanceAs (Decidable (_ ∈ _))

inductive LabelError where
  | invalidArgument
  | noSuchFileOrDirectory
  | protocolError
  deriving DecidableEq

section

variable (toJson : QJsonValue → Bytes) (fromJson : Bytes → Option QJsonValue)
  (sha256 : Bytes → QString)

/-- The training directory. -/
abbrev Files : Type := FileName → Option Bytes

def labelRoot (doc : Bytes) (labelArray : List QJsonValue) : QJsonValue :=
  .object [("file_hash", .string (sha256 doc)), ("labels", .array labelArray)]

/-- `opens` is whether the `.json` file can be written. -/
def saveTextLabelingData (files : Files) (docFilePath : FileName) (labelArray : List QJsonValue)
    (opens : Bool) : Files :=
  match files docFilePath with
  | none => files
  | some doc =>
    if opens then
      Function.update files (docFilePath ++ jsonExtension)
        (some (toJson (labelRoot sha256 doc labelArray)))
    else files

def loadTextLabelingData (files : Files) (jsonFilePath : FileName) :
    Except LabelError (List QJsonValue) :=
  if jsonFilePath = [] then .error .invalidArgument
  else
    let path := if fileExtension jsonFilePath ≠ jsonExtension then jsonFilePath ++ jsonExtension
      else jsonFilePath
    match files path with
    | none => .error .noSuchFileOrDirectory
    | some jsonData =>
      match fromJson jsonData with
      | some (.object root) =>
        if (root.lookup "file_hash").isNone || (root.lookup "labels").isNone then
          .error .invalidArgument
        else
          match files (removeExtension path) with
          | none => .error .noSuchFileOrDirectory
          | some doc =>
            if sha256 doc ≠ (objectValue root "file_hash").toString then .error .protocolError
            else .ok (objectValue root "labels").toArray
      | _ => .error .invalidArgument

/-- `deep_learning_docs_labeling_clicked` from the click to the end of the dialog. -/
structure Labeling where
  filename : FileName
  /-- The sentences of the document, with the matches as labels, if it can be parsed. -/
  extracted : Option (List Sentence)
  events : List DialogEvent
  accepted : Bool
  opens : Bool

/-- `text_labels` after the dialog, which shows what was kept, or the matches. -/
def textLabels (labelSet : List QString) (files : Files) (l : Labeling)
    (extracted : List Sentence) : List QJsonValue :=
  let shown := match loadTextLabelingData fromJson sha256 files l.filename with
    | .error _ => extracted
    | .ok labelArray => loadTextLabelsFromJson labelArray
  let dlg := l.events.foldl DocumentLabelingDialog.handle ⟨labelSet, shown⟩
  if l.accepted then getTextLabelsWithNone dlg.sentences else []

def deepLearningDocsLabelingClicked (labelSet : List QString) (files : Files) (l : Labeling) :
    Files :=
  match files l.filename, l.extracted with
  | some _, some extracted =>
    saveTextLabelingData toJson sha256 files l.filename
      (textLabels fromJson sha256 labelSet files l extracted) l.opens
  | _, _ => files

inductive LabelEvent where
  /-- Somebody puts a document into the directory. -/
  | put (name : FileName) (content : Bytes)
  /-- `deep_learning_docs_remove_clicked`: the `.json` file stays. -/
  | remove (name : FileName)
  | label (l : Labeling)

def LabelEvent.name : LabelEvent → FileName
  | put name _ => name
  | remove name => name
  | label l => l.filename

def labelStep (labelSet : List QString) (files : Files) : LabelEvent → Option Files
  | .put name content => some (Function.update files name (some content))
  | .remove name => some (Function.update files name none)
  | .label l => some (deepLearningDocsLabelingClicked toJson fromJson sha256 labelSet files l)

/-! ## The training data -/

def isNonNone : QJsonValue → Bool
  | .object ann => (objectValue ann "label").toString ≠ noneType
  | _ => false

/-- Some annotation has another label than `"NONE"`. -/
def hasNonNone : QJsonValue → Bool
  | .object obj =>
    match obj.lookup "annotations" with
    | some (.array annotations) => annotations.any isNonNone
    | _ => false
  | _ => false

/-- The array that `send_text_training_data` posts. -/
def filteredArray (trainingTextData : List QJsonValue) : List QJsonValue :=
  trainingTextData.filter hasNonNone

/-- What `send_all_text_training_data` posts for one document, if anything. -/
def sentTrainingData (files : Files) (name : FileName) : Option (List QJsonValue) :=
  if files name = none then none
  else
    match loadTextLabelingData fromJson sha256 files name with
    | .error _ => none
    | .ok labelArray => some (filteredArray labelArray)

end

/-! ## What a dialog leaves and the next one shows -/

/-- A label of type `"NONE"` is not read back. -/
def Sentence.dropNone (s : Sentence) : Sentence :=
  { s with labels := s.labels.filter fun l => l.type ≠ noneType }

theorem loadAnnotation_toJson (l : TextLabel) :
    loadAnnotation l.toJson = if l.type = noneType then none else some l := by
  have hstop : objectValue [("end", .integer l.stop.toInt64), ("label", .string l.type),
      ("start", .integer l.start.toInt64)] "end" = .integer l.stop.toInt64 := rfl
  have hlabel : objectValue [("end", .integer l.stop.toInt64), ("label", .string l.type),
      ("start", .integer l.start.toInt64)] "label" = .string l.type := rfl
  have hstart : objectValue [("end", .integer l.stop.toInt64), ("label", .string l.type),
      ("start", .integer l.start.toInt64)] "start" = .integer l.start.toInt64 := rfl
  rw [TextLabel.toJson, loadAnnotation, hstop, hlabel, hstart]
  simp only [QJsonValue.toString, QJsonValue.toInteger, UInt64.toUInt64_toInt64]

theorem loadAnnotation_none (s : Sentence) : loadAnnotation s.noneAnnotation = none := by
  rw [Sentence.noneAnnotation, loadAnnotation]
  exact if_pos rfl

theorem filterMap_load (labels : List TextLabel) :
    (labels.map TextLabel.toJson).filterMap loadAnnotation =
      labels.filter fun l => l.type ≠ noneType := by
  rw [List.filterMap_map, ← List.filterMap_eq_filter]
  congr 1
  funext l
  rw [Function.comp_apply, loadAnnotation_toJson]
  by_cases hl : l.type = noneType <;> simp [hl, Option.guard]

theorem loadSentence_withNone (s : Sentence) : loadSentence s.withNone = some s.dropNone := by
  have hload : loadSentence s.withNone = some ⟨s.text, ((if s.labels = [] then [s.noneAnnotation]
      else s.labels.map TextLabel.toJson).filterMap loadAnnotation)⟩ := rfl
  rw [hload, Sentence.dropNone]
  split
  · next hnil => rw [hnil, List.filterMap_cons_none (loadAnnotation_none s)]; rfl
  · rw [filterMap_load]

/-- Reading back gives the sentences, less the labels of type `"NONE"`. -/
theorem loadTextLabels_withNone (sentences : List Sentence) :
    loadTextLabelsFromJson (getTextLabelsWithNone sentences) =
      sentences.map Sentence.dropNone := by
  rw [loadTextLabelsFromJson, getTextLabelsWithNone, List.filterMap_map, ← List.filterMap_eq_map]
  congr 1
  funext s
  exact loadSentence_withNone s

/-- A sentence that is sent: it has a label that is not of type `"NONE"`. -/
def Sentence.Labelled (s : Sentence) : Prop := ∃ l ∈ s.labels, l.type ≠ noneType

instance (s : Sentence) : Decidable s.Labelled := List.decidableBEx _ _

theorem isNonNone_toJson (l : TextLabel) : isNonNone l.toJson = decide (l.type ≠ noneType) := by
  rw [TextLabel.toJson, isNonNone]
  rfl

theorem isNonNone_none (s : Sentence) : isNonNone s.noneAnnotation = false := by
  rw [Sentence.noneAnnotation, isNonNone]
  exact decide_eq_false (not_not_intro rfl)

theorem hasNonNone_withNone (s : Sentence) : hasNonNone s.withNone = decide s.Labelled := by
  have hany : hasNonNone s.withNone = (if s.labels = [] then [s.noneAnnotation]
      else s.labels.map TextLabel.toJson).any isNonNone := rfl
  rw [hany, Bool.eq_iff_iff, decide_eq_true_iff]
  split
  · next hnil => simp [isNonNone_none, Sentence.Labelled, hnil]
  · simp [isNonNone_toJson, Sentence.Labelled]

theorem filteredArray_withNone (sentences : List Sentence) :
    filteredArray (getTextLabelsWithNone sentences) =
      getTextLabels (sentences.filter fun s => s.Labelled) := by
  rw [filteredArray, getTextLabelsWithNone, List.filter_map, getTextLabels, List.filter_filter]
  have hkeep : ∀ s : Sentence, (hasNonNone ∘ Sentence.withNone) s =
      (decide (s.labels ≠ []) && decide s.Labelled) := by
    intro s
    rw [Function.comp_apply, hasNonNone_withNone]
    by_cases hs : s.Labelled
    · obtain ⟨l, hl, -⟩ := hs
      simp [List.ne_nil_of_mem hl]
    · simp [hs]
  rw [List.filter_congr fun s _ => hkeep s]
  refine List.map_congr_left fun s hs => ?_
  have hne : s.labels ≠ [] := by simpa using (Bool.and_eq_true_iff.mp (List.mem_filter.mp hs).2).1
  rw [Sentence.withNone, if_neg hne]

/-! ## File names -/

theorem fileExtension_append_json {name : FileName} (h : name ≠ []) :
    fileExtension (name ++ jsonExtension) = jsonExtension := by
  have hstem : (((name ++ jsonExtension).reverse.dropWhile fun c => c ≠ '.').reverse).dropLast =
      name := by
    have hrev : (name ++ jsonExtension).reverse = "nosj.".toList ++ name.reverse :=
      List.reverse_append
    rw [hrev]
    simp
  rw [fileExtension]
  simp only [hstem, if_neg h, List.drop_left]

theorem removeExtension_append_json {name : FileName} (h : name ≠ []) :
    removeExtension (name ++ jsonExtension) = name := by
  rw [removeExtension, fileExtension_append_json h, List.length_append, Nat.add_sub_cancel,
    List.take_left]

theorem IsDoc.ne_nil {name : FileName} (h : IsDoc name) : name ≠ [] := by
  rintro rfl
  revert h
  decide

theorem IsDoc.fileExtension_ne {name : FileName} (h : IsDoc name) :
    fileExtension name ≠ jsonExtension := by
  intro hjson
  rw [IsDoc, hjson] at h
  revert h
  decide

/-- The file of one document's labels is no document. -/
theorem IsDoc.ne_json {name doc : FileName} (h : IsDoc name) (hdoc : IsDoc doc) :
    name ≠ doc ++ jsonExtension := by
  rintro rfl
  exact h.fileExtension_ne (fileExtension_append_json hdoc.ne_nil)

/-! ## The labels that are kept -/

section

variable {toJson : QJsonValue → Bytes} {fromJson : Bytes → Option QJsonValue}
  {sha256 : Bytes → QString} {labelSet : List QString}

/-- The labels of `doc` that are written to the file read back. -/
def ReadsBack (toJson : QJsonValue → Bytes) (fromJson : Bytes → Option QJsonValue)
    (sha256 : Bytes → QString) (doc : Bytes) (labelArray : List QJsonValue) : Prop :=
  fromJson (toJson (labelRoot sha256 doc labelArray)) = some (labelRoot sha256 doc labelArray)

theorem load_of_json {files : Files} {name : FileName} {doc : Bytes} {labelArray : List QJsonValue}
    (hname : IsDoc name) (hread : ReadsBack toJson fromJson sha256 doc labelArray)
    (hjson : files (name ++ jsonExtension) = some (toJson (labelRoot sha256 doc labelArray))) :
    loadTextLabelingData fromJson sha256 files name =
      match files name with
      | none => .error .noSuchFileOrDirectory
      | some doc' =>
        if sha256 doc' ≠ sha256 doc then .error .protocolError else .ok labelArray := by
  rw [loadTextLabelingData, if_neg hname.ne_nil]
  simp only [ne_eq, hname.fileExtension_ne, not_false_eq_true, if_true, hjson,
    removeExtension_append_json hname.ne_nil]
  rw [hread, labelRoot]
  rfl

theorem load_of_no_json {files : Files} {name : FileName} (hname : IsDoc name)
    (hjson : files (name ++ jsonExtension) = none) :
    loadTextLabelingData fromJson sha256 files name = .error .noSuchFileOrDirectory := by
  rw [loadTextLabelingData, if_neg hname.ne_nil]
  simp only [ne_eq, hname.fileExtension_ne, not_false_eq_true, if_true, hjson]

end

/-! ## What the labels are for -/

/-- The documents, and for each the last dialog that was finished on it: the document as it was,
    and the sentences that the dialog left. -/
structure LabelledDocs where
  docs : FileName → Option Bytes
  last : FileName → Option (Bytes × List Sentence)

namespace LabelledDocs

def empty : LabelledDocs := ⟨fun _ => none, fun _ => none⟩

/-- The sentences of the last dialog, if it was about the document as it is now. -/
def current (a : LabelledDocs) (name : FileName) : Option (List Sentence) :=
  match a.docs name, a.last name with
  | some doc, some (doc', sentences) => if doc = doc' then some sentences else none
  | _, _ => none

/-- What a dialog leaves. Cancelled, it leaves nothing. -/
def leaves (labelSet : List QString) (a : LabelledDocs) (l : Labeling)
    (extracted : List Sentence) : List Sentence :=
  let shown := ((a.current l.filename).map (List.map Sentence.dropNone)).getD extracted
  if l.accepted then
    (l.events.foldl DocumentLabelingDialog.handle ⟨labelSet, shown⟩).sentences
  else []

def step (labelSet : List QString) (a : LabelledDocs) : LabelEvent → Option LabelledDocs
  | .put name content => some { a with docs := Function.update a.docs name (some content) }
  | .remove name => some { a with docs := Function.update a.docs name none }
  | .label l =>
    match a.docs l.filename, l.extracted, l.opens with
    | some doc, some extracted, true =>
      let left := (doc, a.leaves labelSet l extracted)
      some { a with last := Function.update a.last l.filename (some left) }
    | _, _, _ => some a

end LabelledDocs

section

variable (toJson : QJsonValue → Bytes) (fromJson : Bytes → Option QJsonValue)
  (sha256 : Bytes → QString) (labelSet : List QString)

/-- What is assumed of a step: others put only documents into the directory, all of them in `D`,
    and the JSON text that a dialog writes reads back. -/
def GoodStep (D : Set Bytes) (files : Files) (e : LabelEvent) : Prop :=
  IsDoc e.name ∧ (∀ name content, e = .put name content → content ∈ D) ∧
    ∀ l doc extracted, e = .label l → files l.filename = some doc →
      l.extracted = some extracted → ReadsBack toJson fromJson sha256 doc
        (textLabels fromJson sha256 labelSet files l extracted)

/-- The files say what is to be known of the documents. -/
structure Keeps (D : Set Bytes) (files : Files) (a : LabelledDocs) : Prop where
  docs : ∀ name, IsDoc name → files name = a.docs name
  known : ∀ name doc, IsDoc name → a.docs name = some doc → doc ∈ D
  none : ∀ name, IsDoc name → a.last name = none → files (name ++ jsonExtension) = none
  last : ∀ name doc sentences, IsDoc name → a.last name = some (doc, sentences) →
    files (name ++ jsonExtension) =
        some (toJson (labelRoot sha256 doc (getTextLabelsWithNone sentences))) ∧
      ReadsBack toJson fromJson sha256 doc (getTextLabelsWithNone sentences) ∧ doc ∈ D

end

section

variable {toJson : QJsonValue → Bytes} {fromJson : Bytes → Option QJsonValue}
  {sha256 : Bytes → QString} {labelSet : List QString} {D : Set Bytes} {files : Files}
  {a : LabelledDocs}

/-- The labels that are loaded are those of the last dialog, as long as the document is the same. -/
theorem Keeps.load (h : Keeps toJson fromJson sha256 D files a) (hhash : Set.InjOn sha256 D)
    {name : FileName} (hname : IsDoc name) :
    (loadTextLabelingData fromJson sha256 files name).toOption =
      (a.current name).map getTextLabelsWithNone := by
  rw [LabelledDocs.current]
  cases hlast : a.last name with
  | none =>
    rw [load_of_no_json hname (h.none name hname hlast)]
    cases a.docs name <;> rfl
  | some last =>
    obtain ⟨doc, sentences⟩ := last
    obtain ⟨hjson, hread, hD⟩ := h.last name doc sentences hname hlast
    rw [load_of_json hname hread hjson, h.docs name hname]
    cases hdoc : a.docs name with
    | none => rfl
    | some doc' =>
      have hiff : sha256 doc' = sha256 doc ↔ doc' = doc :=
        hhash.eq_iff (h.known name doc' hname hdoc) hD
      by_cases heq : doc' = doc
      · simp [heq, Except.toOption]
      · simp [heq, hiff, Except.toOption]

/-- A dialog leaves in the file what it should. -/
theorem Keeps.textLabels_eq (h : Keeps toJson fromJson sha256 D files a)
    (hhash : Set.InjOn sha256 D) (labelSet : List QString) {l : Labeling} (hname : IsDoc l.filename)
    (extracted : List Sentence) :
    textLabels fromJson sha256 labelSet files l extracted =
      getTextLabelsWithNone (a.leaves labelSet l extracted) := by
  have hload := h.load hhash hname
  rw [textLabels, LabelledDocs.leaves]
  cases hl : loadTextLabelingData fromJson sha256 files l.filename with
  | error err =>
    rw [hl] at hload
    rw [Option.map_eq_none_iff.mp hload.symm]
    cases l.accepted <;> rfl
  | ok labelArray =>
    rw [hl] at hload
    obtain ⟨sentences, hcurrent, rfl⟩ := Option.map_eq_some_iff.mp hload.symm
    rw [hcurrent]
    simp only [loadTextLabels_withNone, Option.map_some, Option.getD_some]
    cases l.accepted <;> rfl

/-- Others put a document there or take it away. -/
theorem Keeps.setDoc (h : Keeps toJson fromJson sha256 D files a) {name : FileName}
    (hname : IsDoc name) {content : Option Bytes} (hcontent : ∀ c, content = some c → c ∈ D) :
    Keeps toJson fromJson sha256 D (Function.update files name content)
      { a with docs := Function.update a.docs name content } := by
  have hjson : ∀ n, IsDoc n → Function.update files name content (n ++ jsonExtension) =
      files (n ++ jsonExtension) := fun n hn => Function.update_of_ne (hname.ne_json hn).symm _ _
  refine ⟨fun n hn => ?_, fun n doc hn hdoc => ?_, fun n hn hlast => ?_,
    fun n doc sentences hn hlast => ?_⟩
  · by_cases hnn : n = name
    · subst hnn
      simp only [Function.update_self]
    · simp only [Function.update_of_ne hnn]
      exact h.docs n hn
  · by_cases hnn : n = name
    · subst hnn
      simp only [Function.update_self] at hdoc
      exact hcontent doc hdoc
    · simp only [Function.update_of_ne hnn] at hdoc
      exact h.known n doc hn hdoc
  · rw [hjson n hn]
    exact h.none n hn hlast
  · rw [hjson n hn]
    exact h.last n doc sentences hn hlast

/-- The labels of a document are written. -/
theorem Keeps.setLabels (h : Keeps toJson fromJson sha256 D files a) {name : FileName}
    (hname : IsDoc name) {doc : Bytes} (hdoc : a.docs name = some doc) {sentences : List Sentence}
    (hread : ReadsBack toJson fromJson sha256 doc (getTextLabelsWithNone sentences)) :
    Keeps toJson fromJson sha256 D (Function.update files (name ++ jsonExtension)
        (some (toJson (labelRoot sha256 doc (getTextLabelsWithNone sentences)))))
      { a with last := Function.update a.last name (some (doc, sentences)) } := by
  have hother : ∀ n, n ≠ name → n ++ jsonExtension ≠ name ++ jsonExtension :=
    fun n hn heq => hn (List.append_cancel_right heq)
  refine ⟨fun n hn => ?_, h.known, fun n hn hlast => ?_, fun n d ss hn hlast => ?_⟩
  · rw [Function.update_of_ne (hn.ne_json hname)]
    exact h.docs n hn
  · by_cases hnn : n = name
    · subst hnn
      simp only [Function.update_self] at hlast
      cases hlast
    · simp only [Function.update_of_ne hnn] at hlast
      rw [Function.update_of_ne (hother n hnn)]
      exact h.none n hn hlast
  · by_cases hnn : n = name
    · subst hnn
      simp only [Function.update_self] at hlast
      cases hlast
      exact ⟨Function.update_self _ _ _, hread, h.known n doc hname hdoc⟩
    · simp only [Function.update_of_ne hnn] at hlast
      rw [Function.update_of_ne (hother n hnn)]
      exact h.last n d ss hn hlast

theorem Keeps.step (h : Keeps toJson fromJson sha256 D files a) (hhash : Set.InjOn sha256 D)
    {e : LabelEvent} {files' : Files} (hgood : GoodStep toJson fromJson sha256 labelSet D files e)
    (hstep : labelStep toJson fromJson sha256 labelSet files e = some files') :
    ∃ a', LabelledDocs.step labelSet a e = some a' ∧
      Keeps toJson fromJson sha256 D files' a' := by
  obtain ⟨hname, hput, hread⟩ := hgood
  cases e with
  | put name content =>
    cases hstep
    refine ⟨_, rfl, h.setDoc hname ?_⟩
    rintro c ⟨⟩
    exact hput name content rfl
  | remove name =>
    cases hstep
    exact ⟨_, rfl, h.setDoc hname nofun⟩
  | label l =>
    cases hstep
    rw [deepLearningDocsLabelingClicked, LabelledDocs.step]
    have hdocs := h.docs l.filename hname
    cases hdoc : files l.filename with
    | none =>
      rw [← hdocs, hdoc]
      exact ⟨a, rfl, h⟩
    | some doc =>
      rw [← hdocs, hdoc]
      cases hext : l.extracted with
      | none => exact ⟨a, rfl, h⟩
      | some extracted =>
        have hlabels := h.textLabels_eq hhash labelSet hname extracted
        have hreads := hread l doc extracted rfl hdoc hext
        rw [hlabels] at hreads
        simp only [saveTextLabelingData, hdoc, hlabels]
        cases hopens : l.opens with
        | false => exact ⟨a, rfl, h⟩
        | true => exact ⟨_, rfl, h.setLabels hname (hdocs ▸ hdoc) hreads⟩

theorem keeps_empty : Keeps toJson fromJson sha256 D (fun _ => none) .empty where
  docs _ _ := rfl
  known _ _ _ h := nomatch h
  none _ _ _ := rfl
  last _ _ _ _ h := nomatch h

theorem Keeps.run (h : Keeps toJson fromJson sha256 D files a) (hhash : Set.InjOn sha256 D)
    {es : List LabelEvent} {files' : Files}
    (hgood : Along (labelStep toJson fromJson sha256 labelSet)
      (GoodStep toJson fromJson sha256 labelSet D) files es)
    (hrun : Lib.run (labelStep toJson fromJson sha256 labelSet) files es = some files') :
    ∃ a', Lib.run (LabelledDocs.step labelSet) a es = some a' ∧
      Keeps toJson fromJson sha256 D files' a' := by
  induction es generalizing files a with
  | nil =>
    cases hrun
    exact ⟨a, rfl, h⟩
  | cons e es ih =>
    obtain ⟨files₁, hstep, hrest⟩ := run_cons hrun
    obtain ⟨a₁, ha₁, h₁⟩ := h.step hhash hgood.1 hstep
    obtain ⟨a', ha', h'⟩ := ih h₁ (hgood.2 files₁ hstep) hrest
    exact ⟨a', (run_step ha₁ es).trans ha', h'⟩

/-- What is sent of a document are the labelled sentences that the last finished dialog on it
    left, if it is still the document that was labelled; otherwise nothing is sent. -/
theorem sent_is_last_labelled (hhash : Set.InjOn sha256 D) {es : List LabelEvent}
    (hgood : Along (labelStep toJson fromJson sha256 labelSet)
      (GoodStep toJson fromJson sha256 labelSet D) (fun _ => none) es)
    (hrun : run (labelStep toJson fromJson sha256 labelSet) (fun _ => none) es = some files) :
    ∃ a, run (LabelledDocs.step labelSet) .empty es = some a ∧
      ∀ name, IsDoc name → sentTrainingData fromJson sha256 files name =
        (a.current name).map fun sentences => getTextLabels (sentences.filter (·.Labelled)) := by
  obtain ⟨a, ha, hkeeps⟩ := keeps_empty.run hhash hgood hrun
  refine ⟨a, ha, fun name hname => ?_⟩
  have hload := hkeeps.load hhash hname
  rw [sentTrainingData]
  split
  · next hnone =>
    rw [hkeeps.docs name hname] at hnone
    rw [LabelledDocs.current, hnone]
    rfl
  · cases hl : loadTextLabelingData fromJson sha256 files name with
    | error err =>
      rw [hl] at hload
      rw [Option.map_eq_none_iff.mp hload.symm]
      rfl
    | ok labelArray =>
      rw [hl] at hload
      obtain ⟨sentences, hcurrent, rfl⟩ := Option.map_eq_some_iff.mp hload.symm
      rw [hcurrent, Option.map_some]
      exact congrArg some (filteredArray_withNone sentences)

end

namespace LabelSample

/-- A document of one byte, with two sentences. -/
def docName : FileName := "a.docx".toList
def doc : Bytes := [1]
def secret : QString := ⟨"SECRET".toList, by decide⟩
def first : QString := ⟨"id: 17".toList, by decide⟩
def second : QString := ⟨"end".toList, by decide⟩

def hash : String := "4bf5122f344554c53bde2ebb8cd2b7e3d1600ad631c385a5d7cce23c7785459a"

def sha256 (_ : Bytes) : QString := ⟨hash.toList, by decide⟩

/-- The first sentence is labelled. -/
def labeling : Labeling :=
  ⟨docName, some [⟨first, []⟩, ⟨second, []⟩], [.select 0 4 6 secret none], true, true⟩

def labelled : List Sentence := [⟨first, [⟨4, 6, secret⟩]⟩, ⟨second, []⟩]

/-- The file as it is written. -/
def text : Bytes := utf8 (String.join [
  "\x7b\n    \"file_hash\": \"" ++ hash ++ "\",\n    \"labels\": [\n",
  "        \x7b\n            \"annotations\": [\n                \x7b\n",
  "                    \"end\": 6,\n                    \"label\": \"SECRET\",\n",
  "                    \"start\": 4\n                \x7d\n            ],\n",
  "            \"full_text\": \"id: 17\"\n        \x7d,\n",
  "        \x7b\n            \"annotations\": [\n                \x7b\n",
  "                    \"end\": 3,\n                    \"label\": \"NONE\",\n",
  "                    \"start\": 0\n                \x7d\n            ],\n",
  "            \"full_text\": \"end\"\n        \x7d\n    ]\n\x7d\n"]).toList

def fromJson (jsonData : Bytes) : Option QJsonValue :=
  if jsonData = text then some (labelRoot sha256 doc (getTextLabelsWithNone labelled)) else none

end LabelSample

open LabelSample in
theorem sent_is_last_labelled_sample : ∃ files,
    run (labelStep (fun _ => text) fromJson sha256 [secret]) (fun _ => none)
      [.put docName doc, .label labeling] = some files ∧
    sentTrainingData fromJson sha256 files docName =
      some (getTextLabels [⟨first, [⟨4, 6, secret⟩]⟩]) := by
  have hgood : Along (labelStep (fun _ => text) fromJson sha256 [secret])
      (GoodStep (fun _ => text) fromJson sha256 [secret] {doc}) (fun _ => none)
      [.put docName doc, .label labeling] := by
    refine ⟨⟨by decide, ?_, nofun⟩, ?_⟩
    · rintro _ _ ⟨⟩
      exact rfl
    · rintro files ⟨⟩
      refine ⟨⟨by decide, nofun, ?_⟩, fun _ _ => trivial⟩
      rintro _ _ _ ⟨⟩ hdoc ⟨⟩
      cases hdoc
      have hleft : textLabels fromJson sha256 [secret]
          (Function.update (fun _ => none) docName (some doc)) labeling
          [⟨first, []⟩, ⟨second, []⟩] = getTextLabelsWithNone labelled := rfl
      rw [hleft]
      exact if_pos rfl
  obtain ⟨files, hrun⟩ : ∃ files, run (labelStep (fun _ => text) fromJson sha256 [secret])
      (fun _ => none) [.put docName doc, .label labeling] = some files := ⟨_, rfl⟩
  obtain ⟨a, ha, hsent⟩ := sent_is_last_labelled (Set.injOn_singleton sha256 doc) hgood hrun
  refine ⟨files, hrun, (hsent docName (by decide)).trans ?_⟩
  cases ha
  rfl

/-! ## A cancelled dialog -/

/-- Without sentences there is nothing to label. -/
theorem handle_no_sentences {d : DocumentLabelingDialog} (hd : d.sentences = [])
    (e : DialogEvent) : (d.handle e).sentences = [] := by
  have hselect : ∀ i start stop selected reply,
      (d.handleSelection i start stop selected reply).sentences = [] := by
    intro i start stop selected reply
    rw [DocumentLabelingDialog.handleSelection]
    split
    · exact hd
    · simp only [hd, List.modify_nil]
  cases e with
  | select i start stop label reply => exact hselect i start stop label reply
  | custom i start stop input reply =>
    rw [DocumentLabelingDialog.handle]
    split
    · exact hd
    · exact hselect i start stop input reply

theorem foldl_handle_no_sentences (events : List DialogEvent) {d : DocumentLabelingDialog}
    (hd : d.sentences = []) :
    (events.foldl DocumentLabelingDialog.handle d).sentences = [] := by
  induction events generalizing d with
  | nil => exact hd
  | cons e events ih => exact ih (handle_no_sentences hd e)

section

variable {toJson : QJsonValue → Bytes} {fromJson : Bytes → Option QJsonValue}
  {sha256 : Bytes → QString} {labelSet : List QString} {files : Files} {name : FileName}
  {doc : Bytes}

/-- The file of labels says that the document has no sentences, and no other document is there. -/
structure Emptied (toJson : QJsonValue → Bytes) (sha256 : Bytes → QString) (name : FileName)
    (doc : Bytes) (files : Files) : Prop where
  json : files (name ++ jsonExtension) = some (toJson (labelRoot sha256 doc []))
  doc : files name = none ∨ files name = some doc

theorem Emptied.load (h : Emptied toJson sha256 name doc files) (hname : IsDoc name)
    (hread : ReadsBack toJson fromJson sha256 doc []) (hdoc : files name = some doc) :
    loadTextLabelingData fromJson sha256 files name = .ok [] := by
  rw [load_of_json hname hread h.json, hdoc]
  exact if_neg (not_not_intro rfl)

theorem saveTextLabelingData_of_doc (hdoc : files name = some doc) (labelArray : List QJsonValue)
    (opens : Bool) : saveTextLabelingData toJson sha256 files name labelArray opens =
      if opens then Function.update files (name ++ jsonExtension)
        (some (toJson (labelRoot sha256 doc labelArray)))
      else files := by
  rw [saveTextLabelingData, hdoc]

/-- A dialog that shows no sentence writes none. -/
theorem Emptied.textLabels_eq (h : Emptied toJson sha256 name doc files) (hname : IsDoc name)
    (hread : ReadsBack toJson fromJson sha256 doc []) (hdoc : files name = some doc) {l : Labeling}
    (hl : l.filename = name) (extracted : List Sentence) :
    textLabels fromJson sha256 labelSet files l extracted = [] := by
  subst hl
  have hleft : (l.events.foldl DocumentLabelingDialog.handle
      ⟨labelSet, loadTextLabelsFromJson []⟩).sentences = [] := foldl_handle_no_sentences _ rfl
  rw [textLabels, h.load hname hread hdoc]
  simp only [hleft]
  cases l.accepted <;> rfl

/-- The step is of documents, and of this one no other content is put there. -/
def SameDoc (name : FileName) (doc : Bytes) (e : LabelEvent) : Prop :=
  IsDoc e.name ∧ ∀ content, e = .put name content → content = doc

theorem Emptied.step (h : Emptied toJson sha256 name doc files) (hname : IsDoc name)
    (hread : ReadsBack toJson fromJson sha256 doc []) {e : LabelEvent}
    (he : SameDoc name doc e) {files' : Files}
    (hstep : labelStep toJson fromJson sha256 labelSet files e = some files') :
    Emptied toJson sha256 name doc files' := by
  obtain ⟨hdocs, hput⟩ := he
  cases e with
  | put n content =>
    cases hstep
    refine ⟨(Function.update_of_ne (hdocs.ne_json hname).symm _ _).trans h.json, ?_⟩
    by_cases hn : name = n
    · subst hn
      rw [Function.update_self, hput content rfl]
      exact .inr rfl
    · rw [Function.update_of_ne hn]
      exact h.doc
  | remove n =>
    cases hstep
    refine ⟨(Function.update_of_ne (hdocs.ne_json hname).symm _ _).trans h.json, ?_⟩
    by_cases hn : name = n
    · subst hn
      exact .inl (Function.update_self _ _ _)
    · rw [Function.update_of_ne hn]
      exact h.doc
  | label l =>
    cases hstep
    have hdocs : IsDoc l.filename := hdocs
    rw [deepLearningDocsLabelingClicked]
    split
    · next d extracted hd hext =>
      rw [saveTextLabelingData_of_doc hd]
      by_cases hl : l.filename = name
      · have hdoc : files name = some doc := by
          rw [hl] at hd
          rcases h.doc with hnone | hsome
          · rw [hnone] at hd
            cases hd
          · exact hsome
        have hdd : d = doc := by
          rw [hl, hdoc] at hd
          exact (Option.some.inj hd).symm
        rw [h.textLabels_eq hname hread hdoc hl extracted, hl, hdd]
        cases l.opens with
        | false => exact h
        | true =>
          refine ⟨Function.update_self _ _ _, ?_⟩
          rw [if_pos rfl, Function.update_of_ne (hname.ne_json hname)]
          exact h.doc
      · have hother : name ++ jsonExtension ≠ l.filename ++ jsonExtension :=
          fun heq => hl (List.append_cancel_right heq).symm
        cases l.opens with
        | false => exact h
        | true =>
          refine ⟨(Function.update_of_ne hother _ _).trans h.json, ?_⟩
          rw [if_pos rfl, Function.update_of_ne (hname.ne_json hdocs)]
          exact h.doc
    · exact h

/-- A dialog that is cancelled empties the labels of its document, whatever they were. From then
    on, until another content is put in its place, the document is loaded without sentences, so
    that no dialog on it can label one, and nothing of it is sent. -/
theorem cancelled_is_lost {l : Labeling} {extracted : List Sentence} (hname : IsDoc l.filename)
    (hdoc : files l.filename = some doc) (hext : l.extracted = some extracted)
    (hopens : l.opens = true) (hcancelled : l.accepted = false)
    (hread : ReadsBack toJson fromJson sha256 doc []) {es : List LabelEvent}
    (hes : ∀ e ∈ es, SameDoc l.filename doc e) {files' : Files}
    (hrun : run (labelStep toJson fromJson sha256 labelSet) files (.label l :: es) = some files') :
    files' l.filename = none ∨
      loadTextLabelingData fromJson sha256 files' l.filename = .ok [] ∧
        sentTrainingData fromJson sha256 files' l.filename = some [] := by
  obtain ⟨files₁, hstep, hrest⟩ := run_cons hrun
  have hfirst : Emptied toJson sha256 l.filename doc files₁ := by
    cases hstep
    have hnothing : textLabels fromJson sha256 labelSet files l extracted = [] :=
      if_neg (Bool.not_eq_true _ ▸ hcancelled)
    simp only [deepLearningDocsLabelingClicked, hdoc, hext, hnothing]
    rw [saveTextLabelingData_of_doc hdoc, if_pos hopens]
    refine ⟨Function.update_self _ _ _, .inr ?_⟩
    rw [Function.update_of_ne (hname.ne_json hname)]
    exact hdoc
  have hlast : Emptied toJson sha256 l.filename doc files' := by
    refine run_invariant_along (I := Emptied toJson sha256 l.filename doc)
      (P := fun _ e => SameDoc l.filename doc e) ?_ hfirst (along_of_forall hes) hrest
    exact fun _ _ _ h he hs => h.step hname hread he hs
  rcases hlast.doc with hnone | hsome
  · exact .inl hnone
  · have hload := hlast.load hname hread hsome
    refine .inr ⟨hload, ?_⟩
    rw [sentTrainingData, hsome, hload]
    rfl

end

namespace LabelSample

/-- The same dialog, cancelled. -/
def cancelled : Labeling := { labeling with accepted := false }

/-- The document is taken away, put there again and labelled. -/
def later : List LabelEvent := [.remove docName, .put docName doc, .label labeling]

def start : Files := Function.update (fun _ => none) docName (some doc)

/-- The file after the cancelled dialog. -/
def emptyText : Bytes :=
  utf8 ("\x7b\n    \"file_hash\": \"" ++ hash ++ "\",\n    \"labels\": [\n    ]\n\x7d\n").toList

def fromEmptyJson (jsonData : Bytes) : Option QJsonValue :=
  if jsonData = emptyText then some (labelRoot sha256 doc []) else none

theorem later_sameDoc : ∀ e ∈ later, SameDoc docName doc e := by
  refine List.forall_mem_cons.mpr ⟨⟨by decide, nofun⟩, List.forall_mem_cons.mpr ⟨⟨by decide, ?_⟩,
    List.forall_mem_cons.mpr ⟨⟨by decide, nofun⟩, nofun⟩⟩⟩
  rintro _ ⟨⟩
  rfl

end LabelSample

open LabelSample in
/-- The document is there at the end, and nothing of it is sent. -/
theorem cancelled_is_lost_sample : ∃ files',
    run (labelStep (fun _ => emptyText) fromEmptyJson sha256 [secret]) start
      (.label cancelled :: later) = some files' ∧
    files' docName = some doc ∧ loadTextLabelingData fromEmptyJson sha256 files' docName = .ok [] ∧
      sentTrainingData fromEmptyJson sha256 files' docName = some [] := by
  have hread : ReadsBack (fun _ => emptyText) fromEmptyJson sha256 doc [] := if_pos rfl
  obtain ⟨files', hrun⟩ : ∃ files', run (labelStep (fun _ => emptyText) fromEmptyJson sha256
      [secret]) start (.label cancelled :: later) = some files' := ⟨_, rfl⟩
  have hdoc : files' docName = some doc := by
    cases hrun
    rfl
  have hlost := cancelled_is_lost (l := cancelled) (by decide) rfl rfl rfl rfl hread
    later_sameDoc hrun
  rcases hlost with hnone | hlost
  · exact absurd (hdoc.symm.trans hnone) nofun
  · exact ⟨files', hrun, hdoc, hlost⟩

end CdsGuard.Gateway
