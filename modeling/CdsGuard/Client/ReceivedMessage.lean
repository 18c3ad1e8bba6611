import CdsGuard.Client.TransferController

/-
  What `handleFileReceive` and `handleTextReceive` make of an arbitrary array, against what its
  header announces. The lengths in the header come from the peer; the code adds them up in 32 and
  64 bits and narrows one sum to an `int`.

  Proved: `received_as_announced_iff`, the exact arrays that are not treated as announced, and
  those that leave an empty file behind.
-/

namespace CdsGuard.Client

open CdsGuard.Lib CdsGuard.Packet

/-- A `QByteArray`, whose size is a `qsizetype`. -/
structure QByteArray where
  bytes : Bytes
  size_lt : bytes.length < 2 ^ 63

/-! ## What is announced -/

section

variable (received : Bytes)

/-- The array holds the text that its header announces. -/
def TextComplete : Prop := textTotalSize received ≤ received.length

/-- The array holds the header and the file that it announces. -/
def FileComplete : Prop := fileHeaderSize received + fileLength received ≤ received.length

/-- A complete text is shown less one trailing NUL, and no other array shows anything. -/
def TextAsAnnounced : Prop :=
  (TextComplete received →
    handleTextReceive received = .text (dropNul (mid received 13 (textLength received)))) ∧
  (¬TextComplete received → ∃ log, handleTextReceive received = .rejected log)

/-- No byte is saved or shown: a message is logged, and a file that was opened stays empty. -/
def Received.SavesNothing : Received → Prop
  | .rejected _ => True
  | .left _ content _ => content = []
  | .file _ _ | .text _ | .outOfRange => False

/-- On every disk, a complete file is offered to it with the bytes that are announced, and of no
    other array is a byte saved. -/
def FileAsAnnounced : Prop :=
  ∀ disk : Disk,
    (FileComplete received → handleFileReceive disk received =
      disk.store (mid received 9 (nameLength received))
        (mid received (fileHeaderSize received) (fileLength received))) ∧
    (¬FileComplete received → (handleFileReceive disk received).SavesNothing)

/-- An array that is not complete does not even leave a file behind. -/
def LeavesNoFile : Prop :=
  ∀ disk : Disk, ¬FileComplete received → ∃ log, handleFileReceive disk received = .rejected log

/-! ## What goes wrong -/

/-- The text is not complete, but its size narrowed to an `int` is not above that of the array. -/
def TextNarrowed : Prop :=
  13 ≤ received.length ∧ received.length < textTotalSize received ∧
    toInt32 (textTotalSize received % 2 ^ 64) ≤ received.length

/-- The header has `2 ^ 32` bytes or more, and its low 32 bits pass the check: the file size lies
    outside the array, or the file is taken from behind the low 32 bits, where its bytes are not. -/
def HeaderWraps : Prop :=
  9 ≤ received.length ∧ 2 ^ 32 ≤ fileHeaderSize received ∧
    fileHeaderSize received % 2 ^ 32 ≤ received.length ∧
    (received.length < fileHeaderSize received ∨
      fileHeaderSize received % 2 ^ 32 + fileLength received ≤ received.length ∧
        ¬(FileComplete received ∧
          mid received (fileHeaderSize received % 2 ^ 32) (fileLength received) =
            mid received (fileHeaderSize received) (fileLength received)))

/-- The header is whole and the file is not. -/
def FileShort : Prop :=
  fileHeaderSize received ≤ received.length ∧ ¬FileComplete received

end

/-! ## Texts -/

variable {received : Bytes}

theorem toInt32_le (n : Nat) : toInt32 n ≤ n := by
  have hle : n % 2 ^ 32 ≤ n := Nat.mod_le _ _
  rw [toInt32, BitVec.toInt_eq_toNat_cond, BitVec.toNat_ofNat]
  split <;> omega

theorem thirteen_le_textTotalSize (received : Bytes) : 13 ≤ textTotalSize received :=
  Nat.le_add_right _ _

theorem textAsAnnounced_iff : TextAsAnnounced received ↔ ¬TextNarrowed received := by
  have htotal := thirteen_le_textTotalSize received
  unfold TextAsAnnounced TextComplete TextNarrowed
  rcases Nat.lt_or_ge received.length 13 with hshort | hlen
  · rw [handleTextReceive_short hshort]
    exact ⟨fun _ h => by omega, fun _ => ⟨fun h => by omega, fun _ => ⟨_, rfl⟩⟩⟩
  · rw [handleTextReceive_whole hlen]
    rcases Nat.lt_or_ge received.length (textTotalSize received) with hcut | hwhole
    · split
      · exact ⟨fun _ h => by omega, fun _ => ⟨fun h => by omega, fun _ => ⟨_, rfl⟩⟩⟩
      · rename_i hpass
        have hnarrow : toInt32 (textTotalSize received % 2 ^ 64) ≤ received.length := by omega
        constructor
        · intro h
          obtain ⟨log, hlog⟩ := h.2 (by omega)
          cases hlog
        · intro h
          exact absurd ⟨hlen, hcut, hnarrow⟩ h
    · have hmod : textTotalSize received % 2 ^ 64 ≤ textTotalSize received := Nat.mod_le _ _
      have hle := toInt32_le (textTotalSize received % 2 ^ 64)
      rw [if_neg (by omega)]
      exact ⟨fun _ h => by omega, fun _ => ⟨fun _ => rfl, fun h => absurd hwhole h⟩⟩

/-! ## Files -/

theorem Disk.store_inj {name content content' : Bytes}
    (h : ∀ disk : Disk, disk.store name content = disk.store name content') :
    content = content' := by
  have hfull := h ⟨fun _ => true, fun _ bs => bs.length⟩
  simp only [Disk.store, if_true] at hfull
  exact (Received.file.inj hfull).2

theorem seventeen_le_fileHeaderSize (received : Bytes) : 17 ≤ fileHeaderSize received := by
  unfold fileHeaderSize
  omega

/-- The header is not whole: it is turned down, unless the low 32 bits of its size pass. -/
theorem fileAsAnnounced_of_cut (h : received.length < fileHeaderSize received) :
    FileAsAnnounced received ↔ ¬HeaderWraps received := by
  have hcomplete : ¬FileComplete received := fun hc => by
    unfold FileComplete at hc
    omega
  unfold FileAsAnnounced HeaderWraps
  rcases Nat.lt_or_ge received.length 9 with hshort | hlen
  · refine ⟨fun _ hw => by omega, fun _ disk => ⟨fun hc => absurd hc hcomplete, fun _ => ?_⟩⟩
    rw [handleFileReceive_short disk hshort]
    trivial
  · rcases Nat.lt_or_ge received.length (fileHeaderSize received % 2 ^ 32) with hcut | hlow
    · refine ⟨fun _ hw => by omega, fun _ disk => ⟨fun hc => absurd hc hcomplete, fun _ => ?_⟩⟩
      rw [handleFileReceive_cut disk hlen hcut]
      trivial
    · have hwraps : 2 ^ 32 ≤ fileHeaderSize received := by
        by_contra hsmall
        rw [Nat.mod_eq_of_lt (by omega)] at hlow
        omega
      constructor
      · intro hall
        have hsaves := (hall ⟨fun _ => true, fun _ bs => bs.length⟩).2 hcomplete
        rw [handleFileReceive_outside _ hlen hlow h] at hsaves
        exact hsaves.elim
      · intro hno
        exact absurd ⟨hlen, hwraps, hlow, .inl h⟩ hno

/-- The header is whole: the file is taken from behind the low 32 bits of its size. -/
theorem fileAsAnnounced_of_whole (h : fileHeaderSize received ≤ received.length)
    (hmax : received.length < 2 ^ 64) :
    FileAsAnnounced received ↔ ¬HeaderWraps received := by
  have hsize := seventeen_le_fileHeaderSize received
  have hmod : fileHeaderSize received % 2 ^ 32 ≤ fileHeaderSize received := Nat.mod_le _ _
  unfold FileAsAnnounced
  simp only [handleFileReceive_whole _ h hmax]
  rcases Nat.lt_or_ge (received.length - fileHeaderSize received % 2 ^ 32) (fileLength received)
    with hshort | hfits
  · -- turned down, and rightly so
    have hcomplete : ¬FileComplete received := fun hc => by
      unfold FileComplete at hc
      omega
    have hok : ¬HeaderWraps received := by
      intro hw
      obtain ⟨-, -, -, hout | ⟨hin, -⟩⟩ := hw <;> omega
    refine ⟨fun _ => hok, fun _ disk => ⟨fun hc => absurd hc hcomplete, fun _ => ?_⟩⟩
    rw [if_pos hshort]
    split
    · rfl
    · trivial
  · simp only [if_neg (Nat.not_lt.mpr hfits)]
    constructor
    · intro hall hw
      obtain ⟨-, -, -, hout | ⟨-, hdiffer⟩⟩ := hw
      · omega
      · apply hdiffer
        have hcomplete : FileComplete received := by
          by_contra hno
          have hsaves := (hall ⟨fun _ => true, fun _ bs => bs.length⟩).2 hno
          simp only [Disk.store, if_true] at hsaves
          exact hsaves
        exact ⟨hcomplete, Disk.store_inj fun disk => (hall disk).1 hcomplete⟩
    · intro hok
      have hsame : FileComplete received ∧
          mid received (fileHeaderSize received % 2 ^ 32) (fileLength received) =
            mid received (fileHeaderSize received) (fileLength received) := by
        rcases Nat.lt_or_ge (fileHeaderSize received) (2 ^ 32) with hsmall | hlarge
        · rw [Nat.mod_eq_of_lt hsmall] at hfits ⊢
          refine ⟨?_, rfl⟩
          unfold FileComplete
          omega
        · by_contra hno
          exact hok ⟨by omega, hlarge, hmod.trans h, .inr ⟨by omega, hno⟩⟩
      intro disk
      exact ⟨fun _ => by rw [hsame.2], fun hno => absurd hsame.1 hno⟩

theorem fileAsAnnounced_iff (hmax : received.length < 2 ^ 64) :
    FileAsAnnounced received ↔ ¬HeaderWraps received := by
  rcases Nat.lt_or_ge received.length (fileHeaderSize received) with hcut | hwhole
  · exact fileAsAnnounced_of_cut hcut
  · exact fileAsAnnounced_of_whole hwhole hmax

/-- A file that is not complete has been opened already when its length is looked at. -/
theorem leavesNoFile_iff (hmax : received.length < 2 ^ 64) (h : FileAsAnnounced received) :
    LeavesNoFile received ↔ ¬FileShort received := by
  constructor
  · intro hall hshort
    obtain ⟨hwhole, hno⟩ := hshort
    have hsaves := (h ⟨fun _ => true, fun _ bs => bs.length⟩).2 hno
    obtain ⟨log, hlog⟩ := hall ⟨fun _ => true, fun _ bs => bs.length⟩ hno
    rw [handleFileReceive_whole _ hwhole hmax] at hsaves hlog
    split at hlog
    · simp only [if_true] at hlog
      cases hlog
    · simp only [Disk.store, if_true] at hlog
      cases hlog
  · intro hok disk hno
    have hcut : received.length < fileHeaderSize received := by
      by_contra hwhole
      exact hok ⟨Nat.le_of_not_lt hwhole, hno⟩
    rcases Nat.lt_or_ge received.length 9 with hshort | hlen
    · exact ⟨_, handleFileReceive_short disk hshort⟩
    · rcases Nat.lt_or_ge received.length (fileHeaderSize received % 2 ^ 32) with hlow | hlow
      · exact ⟨_, handleFileReceive_cut disk hlen hlow⟩
      · have hsaves := (h disk).2 hno
        rw [handleFileReceive_outside disk hlen hlow hcut] at hsaves
        exact hsaves.elim

/-! ## Both handlers -/

/-- For every array. A text is treated as announced unless its total size narrows, a file unless
    the size of its header wraps; and a file is turned down without a trace unless, besides, the
    header is whole and the file is not. -/
theorem received_as_announced_iff (received : QByteArray) :
    (TextAsAnnounced received.bytes ↔ ¬TextNarrowed received.bytes) ∧
    (FileAsAnnounced received.bytes ↔ ¬HeaderWraps received.bytes) ∧
    (FileAsAnnounced received.bytes ∧ LeavesNoFile received.bytes ↔
      ¬HeaderWraps received.bytes ∧ ¬FileShort received.bytes) := by
  have hmax : received.bytes.length < 2 ^ 64 := received.size_lt.trans (by decide)
  have hfile := fileAsAnnounced_iff hmax
  refine ⟨textAsAnnounced_iff, hfile, ?_⟩
  rw [← hfile]
  exact and_congr_right fun h => leavesNoFile_iff hmax h

/-- The tag and a text length of `2 ^ 32`, and no text. -/
def narrowText : Bytes := textTag ++ leBytes 8 (2 ^ 32)

/-- The tag and a name length of `2 ^ 32 - 17`, and no name. -/
def wrappedFile : Bytes := fileTag ++ leBytes 4 (2 ^ 32 - 17)

/-- A file named `a` of one byte, and no file. -/
def emptyFile : Bytes := fileTag ++ leBytes 4 1 ++ [0x61] ++ leBytes 8 1

/-- An empty text is shown for the first, a read 4 GiB behind the second is made, and the third
    leaves a file. -/
theorem received_as_announced_fails :
    (handleTextReceive narrowText = .text [] ∧ ¬TextAsAnnounced narrowText) ∧
    (handleFileReceive ⟨fun _ => true, fun _ bs => bs.length⟩ wrappedFile = .outOfRange ∧
      ¬FileAsAnnounced wrappedFile) ∧
    (handleFileReceive ⟨fun _ => true, fun _ bs => bs.length⟩ emptyFile =
        .left [0x61] [] "Error: Incomplete file data" ∧
      ¬LeavesNoFile emptyFile) := by
  have htext : handleTextReceive narrowText = .text [] := by decide
  have hwrapped : handleFileReceive ⟨fun _ => true, fun _ bs => bs.length⟩ wrappedFile =
      .outOfRange := by decide
  have hempty : handleFileReceive ⟨fun _ => true, fun _ bs => bs.length⟩ emptyFile =
      .left [0x61] [] "Error: Incomplete file data" := by decide
  refine ⟨⟨htext, fun h => ?_⟩, ⟨hwrapped, fun h => ?_⟩, hempty, fun h => ?_⟩
  · have hno : ¬TextComplete narrowText := by
      unfold TextComplete
      decide
    obtain ⟨log, hlog⟩ := h.2 hno
    rw [htext] at hlog
    cases hlog
  · have hno : ¬FileComplete wrappedFile := by
      unfold FileComplete
      decide
    have hsaves := (h ⟨fun _ => true, fun _ bs => bs.length⟩).2 hno
    rw [hwrapped] at hsaves
    exact hsaves
  · have hno : ¬FileComplete emptyFile := by
      unfold FileComplete
      decide
    obtain ⟨log, hlog⟩ := h ⟨fun _ => true, fun _ bs => bs.length⟩ hno
    rw [hempty] at hlog
    cases hlog

end CdsGuard.Client
