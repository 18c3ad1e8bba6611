import CdsGuard.Gateway.PolicyEditing
import CdsGuard.Lib.Lines
import Mathlib.Data.Finset.Sort

/-
  The pattern file of `PolicyPage`: `save_patterns_to_file` writes the base set, a line for each
  pattern; `load_patterns_from_file` drops a byte order mark, trims the lines and skips the empty
  ones.

  Proved: which sets are read back (`roundTrip_iff`), and in which sessions every base set is one
  of them (`sessions_roundTrip_iff`). A pattern that is added comes trimmed, one that is edited in
  place does not (`edited_blank_lost`).
-/

namespace CdsGuard.Gateway

open CdsGuard.Lib

/-! ## The file -/

def newline : UInt8 := 0x0a

/-- `" \t\r\n"`. -/
def isBlank (b : UInt8) : Bool := b == 0x20 || b == 0x09 || b == 0x0d || b == newline

def byteOrderMark : Bytes := [0xef, 0xbb, 0xbf]

/-- The patterns that `load_patterns_from_file` takes out of a file. Its check of the first line
    asks whether a `QString` made of characters is null, which none is. -/
def loadPatterns (content : Bytes) : Finset Bytes :=
  let body := if byteOrderMark <+: content then content.drop 3 else content
  (((lines newline body).map (trim isBlank)).filter fun line => line ≠ []).toFinset

/-- `save_patterns_to_file`; a `std::set` is walked in the order of its strings. -/
def savePatterns (patterns : Finset Bytes) : Bytes := unlines newline (patterns.sort (· ≤ ·))

/-- Writing the set and reading the file back gives it again. -/
def RoundTrip (patterns : Finset Bytes) : Prop := loadPatterns (savePatterns patterns) = patterns

/-! ## What is read back -/

/-- A pattern that stands in a line as it is. -/
structure Readable (w : Bytes) : Prop where
  ne_nil : w ≠ []
  oneLine : newline ∉ w
  head : ∀ b ∈ w.head?, isBlank b = false
  last : ∀ b ∈ w.getLast?, isBlank b = false

/-- No pattern that begins with a byte order mark is the least. -/
def Unmarked (patterns : Finset Bytes) : Prop :=
  ∀ w ∈ patterns, byteOrderMark <+: w → ∃ v ∈ patterns, v < w

theorem Readable.trim_eq {w : Bytes} (h : Readable w) : trim isBlank w = w :=
  trim_eq_self_iff.mpr ⟨h.head, h.last⟩

theorem mem_loadPatterns {content w : Bytes} :
    w ∈ loadPatterns content ↔ w ≠ [] ∧
      ∃ l ∈ lines newline (if byteOrderMark <+: content then content.drop 3 else content),
        trim isBlank l = w := by
  unfold loadPatterns
  rw [List.mem_toFinset, List.mem_filter, List.mem_map, decide_eq_true_iff, and_comm]

/-- What is read is readable. -/
theorem loadPatterns_readable {content w : Bytes} (h : w ∈ loadPatterns content) : Readable w := by
  obtain ⟨hne, l, hl, rfl⟩ := mem_loadPatterns.mp h
  obtain ⟨hhead, hlast⟩ := trim_eq_self_iff.mp (@trim_trim _ isBlank l)
  exact ⟨hne, fun hmem => not_mem_of_mem_lines hl ((trim_sublist l).subset hmem), hhead, hlast⟩

/-- The least pattern tells. -/
theorem unmarked_iff {patterns : Finset Bytes} :
    Unmarked patterns ↔ ∀ w ∈ (patterns.sort (· ≤ ·)).head?, ¬byteOrderMark <+: w := by
  have hmem : ∀ v, v ∈ patterns.sort (· ≤ ·) ↔ v ∈ patterns := fun v => Finset.mem_sort _
  have hle := Finset.pairwise_sort patterns (· ≤ ·)
  cases hsort : patterns.sort (· ≤ ·) with
  | nil =>
    refine ⟨fun _ => by simp, fun _ w hw => ?_⟩
    rw [← hmem, hsort] at hw
    exact absurd hw List.not_mem_nil
  | cons w ws =>
    rw [hsort] at hmem hle
    have hleast := (List.pairwise_cons.mp hle).1
    constructor
    · intro h v hhead hmark
      obtain rfl := Option.some.inj hhead
      obtain ⟨v, hv, hlt⟩ := h w ((hmem w).mp List.mem_cons_self) hmark
      obtain rfl | hv := List.mem_cons.mp ((hmem v).mpr hv)
      · exact List.lt_irrefl _ hlt
      · exact hleast v hv hlt
    · intro h v hv hmark
      refine ⟨w, (hmem w).mp List.mem_cons_self, ?_⟩
      obtain rfl | hv := List.mem_cons.mp ((hmem v).mpr hv)
      · exact absurd hmark (h v rfl)
      · by_contra hnot
        obtain rfl : w = v := List.le_antisymm (hleast v hv) hnot
        exact h w rfl hmark

/-- The file begins with a byte order mark if the first line does. -/
theorem mark_unlines_iff {ws : List Bytes} :
    byteOrderMark <+: unlines newline ws ↔ ∃ w ∈ ws.head?, byteOrderMark <+: w := by
  cases ws with
  | nil =>
    have hmark : ¬byteOrderMark <+: unlines newline [] := by decide
    simp [hmark]
  | cons w ws =>
    rw [unlines_cons, prefix_append_cons_iff (by decide)]
    simp

/-- Readable lines are read as they are, unless the file begins with a byte order mark. -/
theorem mem_loadPatterns_unlines {ws : List Bytes} (hread : ∀ w ∈ ws, Readable w)
    (hhead : ∀ w ∈ ws.head?, ¬byteOrderMark <+: w) {w : Bytes} :
    w ∈ loadPatterns (unlines newline ws) ↔ w ∈ ws := by
  have hfile : ¬byteOrderMark <+: unlines newline ws := by
    rw [mark_unlines_iff]
    intro hmark
    obtain ⟨v, hv, hmark⟩ := hmark
    exact hhead v hv hmark
  rw [mem_loadPatterns, if_neg hfile, lines_unlines fun l hl => (hread l hl).oneLine]
  constructor
  · intro hw
    obtain ⟨-, l, hl, htrim⟩ := hw
    rw [(hread l hl).trim_eq] at htrim
    rwa [← htrim]
  · intro hw
    exact ⟨(hread w hw).ne_nil, w, hw, (hread w hw).trim_eq⟩

/-- If it does, the first line loses the mark, and its pattern is not read. -/
theorem marked_not_mem {tail : Bytes} {rest : List Bytes}
    (hread : ∀ w ∈ (byteOrderMark ++ tail) :: rest, Readable w)
    (hrest : byteOrderMark ++ tail ∉ rest) :
    byteOrderMark ++ tail ∉ loadPatterns (unlines newline ((byteOrderMark ++ tail) :: rest)) := by
  obtain ⟨hfirst, hothers⟩ := List.forall_mem_cons.mp hread
  have hfile : byteOrderMark <+: unlines newline ((byteOrderMark ++ tail) :: rest) :=
    mark_unlines_iff.mpr ⟨_, rfl, List.prefix_append _ _⟩
  have hdrop : (unlines newline ((byteOrderMark ++ tail) :: rest)).drop 3 =
      unlines newline (tail :: rest) := by
    rw [unlines_cons, unlines_cons, List.append_assoc]
    rfl
  have honeLine : ∀ l ∈ tail :: rest, newline ∉ l := by
    refine List.forall_mem_cons.mpr ⟨?_, fun l hl => (hothers l hl).oneLine⟩
    exact fun hnl => hfirst.oneLine (List.mem_append_right _ hnl)
  rw [mem_loadPatterns, if_pos hfile, hdrop, lines_unlines honeLine]
  intro hmem
  obtain ⟨-, l, hl, htrim⟩ := hmem
  obtain rfl | hl := List.mem_cons.mp hl
  · have hle := @trim_length_le _ isBlank l
    rw [htrim, List.length_append] at hle
    exact absurd hle (by simp [byteOrderMark])
  · rw [(hothers l hl).trim_eq] at htrim
    rw [htrim] at hl
    exact hrest hl

/-- A set is read back exactly if its patterns are readable and the least one does not begin with a
    byte order mark. -/
theorem roundTrip_iff {patterns : Finset Bytes} :
    RoundTrip patterns ↔ (∀ w ∈ patterns, Readable w) ∧ Unmarked patterns := by
  have hmem : ∀ v, v ∈ patterns.sort (· ≤ ·) ↔ v ∈ patterns := fun v => Finset.mem_sort _
  have hnodup := Finset.sort_nodup patterns (· ≤ ·)
  rw [unmarked_iff]
  unfold RoundTrip savePatterns
  generalize hsort : patterns.sort (· ≤ ·) = ws at *
  constructor
  · intro h
    have hread : ∀ w ∈ patterns, Readable w := fun w hw => by
      rw [← h] at hw
      exact loadPatterns_readable hw
    refine ⟨hread, fun w hw hmark => ?_⟩
    obtain ⟨rest, rfl⟩ := List.head?_eq_some_iff.mp hw
    obtain ⟨tail, rfl⟩ := hmark
    apply marked_not_mem (fun v hv => hread v ((hmem v).mp hv)) (List.nodup_cons.mp hnodup).1
    rw [h]
    exact (hmem _).mp List.mem_cons_self
  · intro h
    ext w
    rw [mem_loadPatterns_unlines (fun v hv => h.1 v ((hmem v).mp hv)) h.2]
    exact hmem w

/-! ## Sessions -/

/-- `load` is a file that could be opened and, if there were changes, was wanted instead. -/
inductive PageEvent where
  | load (content : Bytes)
  | add (input : Bytes)
  | remove (w : Bytes)
  | edit (old new : Bytes)
  | undo
  | build
  | refresh

namespace PolicyPage

/-- `trimmed` is `QString::trimmed`. An edited item has its old word under `Qt::UserRole`, and its
    new text comes as it is. -/
def handle (text trimmed : Bytes → Bytes) (p : PolicyPage) : PageEvent → PolicyPage
  | .load content => loaded text (loadPatterns content)
  | .add input => p.addButtonClicked text (trimmed input)
  | .remove w => p.prohibitedWordRemoveButtonClicked text w
  | .edit old new => (p.editListItem ⟨new, old⟩).1
  | .undo => p.undoButtonClicked text
  | .build => p.updatePatternSet
  | .refresh => p.refreshProhibitedWordListWidget text

def step (text trimmed : Bytes → Bytes) (p : PolicyPage) (e : PageEvent) : Option PolicyPage :=
  some (p.handle text trimmed e)

/-- Before the file of the constructor is loaded. -/
def start : PolicyPage := ⟨∅, ∅, ∅, 0⟩

/-- The events behind which the base set is not read back: a file or an edited base set whose least
    pattern begins with a byte order mark, and a build with such a set or with a new pattern
    that is not readable. -/
def Spoils (p : PolicyPage) : PageEvent → Prop
  | .load content => ¬Unmarked (loadPatterns content)
  | .edit old new =>
    (new ≠ [] ∧ old ≠ [] ∧ old ≠ new ∧ old ∈ p.patternSet) ∧ ¬Unmarked (p.patternSet.erase old)
  | .build =>
    (∃ w ∈ p.newInsertedPatternSet, ¬Readable w) ∨
      ¬Unmarked ((p.patternSet \ p.willErasePatternSet) ∪ p.newInsertedPatternSet)
  | _ => False

variable {p : PolicyPage} (text trimmed : Bytes → Bytes)

/-- Of a base set that is read back one event makes another such set exactly if it does not
    spoil it. -/
theorem roundTrip_handle_iff (h : RoundTrip p.patternSet) (e : PageEvent) :
    RoundTrip (p.handle text trimmed e).patternSet ↔ ¬p.Spoils e := by
  obtain ⟨hread, hmark⟩ := roundTrip_iff.mp h
  cases e with
  | load content =>
    show RoundTrip (loadPatterns content) ↔ _
    rw [roundTrip_iff, Spoils, not_not]
    exact and_iff_right fun w hw => loadPatterns_readable hw
  | add input =>
    rw [handle, add_patternSet]
    exact iff_of_true h not_false
  | remove w =>
    rw [handle, remove_patternSet]
    exact iff_of_true h not_false
  | edit old new =>
    rw [handle, edit_patternSet, Spoils]
    split_ifs with hedit
    · rw [roundTrip_iff, and_iff_right hedit, not_not]
      exact and_iff_right fun w hw => hread w (Finset.mem_of_mem_erase hw)
    · exact iff_of_true h fun hbad => hedit hbad.1
  | undo => exact iff_of_true h not_false
  | build =>
    show RoundTrip ((p.patternSet \ p.willErasePatternSet) ∪ p.newInsertedPatternSet) ↔ _
    rw [roundTrip_iff, Spoils, not_or, not_not]
    refine and_congr_left fun _ => ?_
    constructor
    · intro hall hbad
      obtain ⟨w, hw, hnot⟩ := hbad
      exact hnot (hall w (Finset.mem_union_right _ hw))
    · intro hgood w hw
      rcases Finset.mem_union.mp hw with hw | hw
      · exact hread w (Finset.mem_sdiff.mp hw).1
      · by_contra hnot
        exact hgood ⟨w, hw, hnot⟩
  | refresh => exact iff_of_true h not_false

end PolicyPage

/-- Every base set that a session comes to is read back from its file exactly if no event of the
    session spoils it. -/
theorem sessions_roundTrip_iff (text trimmed : Bytes → Bytes) (events : List PageEvent) :
    (∀ pre p, pre <+: events → run (PolicyPage.step text trimmed) .start pre = some p →
        RoundTrip p.patternSet) ↔
      Along (PolicyPage.step text trimmed) (fun p e => ¬p.Spoils e) .start events := by
  refine along_iff_reached (I := fun p : PolicyPage => RoundTrip p.patternSet) ?_
    (fun _ h => h) ?_ ?_
  · intro p e p' h hok hstep
    obtain rfl := Option.some.inj hstep
    exact (PolicyPage.roundTrip_handle_iff text trimmed h e).mpr hok
  · intro p e h hbad
    refine ⟨_, rfl, fun hgood => ?_⟩
    exact (PolicyPage.roundTrip_handle_iff text trimmed h e).mp hgood hbad
  · exact roundTrip_iff.mpr ⟨by simp [PolicyPage.start], by simp [PolicyPage.start, Unmarked]⟩

/-- "a" is added to an empty set, edited to " a", and built. -/
def editBlank : List PageEvent :=
  [.load [], .add [0x61], .edit [0x61] [0x20, 0x61], .build]

/-- The file has the blank, the patterns read from it have not. -/
theorem edited_blank_lost : ∃ p,
    run (PolicyPage.step id (trim isBlank)) .start editBlank = some p ∧
      p.patternSet = {[0x20, 0x61]} ∧
      loadPatterns (savePatterns p.patternSet) = {[0x61]} ∧ ¬RoundTrip p.patternSet := by
  have hsaved : savePatterns {[0x20, 0x61]} = [0x20, 0x61, 0x0a] := by
    rw [savePatterns, Finset.sort_singleton]
    rfl
  have hread : loadPatterns (savePatterns {[0x20, 0x61]}) = {[0x61]} := by
    rw [hsaved]
    decide
  have hset : (run (PolicyPage.step id (trim isBlank)) .start editBlank).map
      PolicyPage.patternSet = some {[0x20, 0x61]} := by decide +kernel
  obtain ⟨p, hp, hpatterns⟩ := Option.map_eq_some_iff.mp hset
  refine ⟨p, hp, hpatterns, by rw [hpatterns, hread], ?_⟩
  rw [RoundTrip, hpatterns, hread]
  decide

end CdsGuard.Gateway
