import CdsGuard.Lib.Bytes
import CdsGuard.Lib.Transition
import Mathlib.Data.Finset.Basic

/-
  `PolicyPage`: the three sets behind the list of banned words. A new word waits in
  `new_inserted_pattern_set_`, a removed one is noted in `will_erase_pattern_set_`, and a build
  carries both over into `pattern_set_`; an edit takes the old word out of `pattern_set_` at once,
  if the item of the list knows its old word. Next to the page stands the plain set that the user
  means to edit.

  A build runs in a thread of its own, which reads `pattern_set_` when it comes to it. The box
  that is shown in the meantime can be closed, so the page can be edited before that.

  Proved: `policyEditing_iff`, the exact steps after which a build hands over another set or none,
  or would do so or leave something behind. Pages and the search box only hide items, and the
  enabling of the build button only takes runs away; both are left out.
-/

namespace CdsGuard.Gateway

open CdsGuard.Lib

/-! ## The page -/

/-- An item of `prohibited_word_list_widget_`: its text, and the word under `Qt::UserRole`, empty
    where none is set. -/
structure ListItem where
  text : Bytes
  role : Bytes
  deriving DecidableEq

structure PolicyPage where
  patternSet : Finset Bytes
  newInsertedPatternSet : Finset Bytes
  willErasePatternSet : Finset Bytes
  items : Multiset ListItem

/-- `text` is what the widget makes of a word: `QString::fromUtf8`, and back. -/
def makeNewItem (text : Bytes → Bytes) (w : Bytes) : ListItem := ⟨text w, []⟩

namespace PolicyPage

/-- The words that stay: those of the base set, and the new ones. -/
def kept (p : PolicyPage) : Finset Bytes := p.patternSet \ p.willErasePatternSet

def words (p : PolicyPage) : Finset Bytes := p.kept ∪ p.newInsertedPatternSet

def refreshProhibitedWordListWidget (text : Bytes → Bytes) (p : PolicyPage) : PolicyPage :=
  { p with
    items := p.kept.val.map (makeNewItem text) +
      p.newInsertedPatternSet.val.map (makeNewItem text) }

/-- The input comes trimmed. -/
def addButtonClicked (text : Bytes → Bytes) (p : PolicyPage) (w : Bytes) : PolicyPage :=
  if w = [] then p
  else if w ∈ p.patternSet ∨ w ∈ p.newInsertedPatternSet then p
  else refreshProhibitedWordListWidget text
    { p with newInsertedPatternSet := insert w p.newInsertedPatternSet }

def prohibitedWordRemoveButtonClicked (text : Bytes → Bytes) (p : PolicyPage) (w : Bytes) :
    PolicyPage :=
  refreshProhibitedWordListWidget text <|
    if w ∈ p.patternSet then
      { p with willErasePatternSet := insert w p.willErasePatternSet }
    else if w ∈ p.newInsertedPatternSet then
      { p with newInsertedPatternSet := p.newInsertedPatternSet.erase w }
    else p

/-- The edit button, and the entry of the context menu. Setting the role calls `edit_list_item`,
    which does nothing then. -/
def prohibitedWordEditButtonClicked (p : PolicyPage) (item : ListItem) : PolicyPage :=
  { p with items := { item with role := item.text } ::ₘ p.items.erase item }

/-- What becomes of the page and of the item, whose text has been replaced. -/
def editListItem (p : PolicyPage) (item : ListItem) : PolicyPage × ListItem :=
  if item.text = [] then (p, item)
  else if item.role = [] ∨ item.role = item.text then (p, item)
  else if item.role ∈ p.patternSet then
    ({ p with
      patternSet := p.patternSet.erase item.role
      newInsertedPatternSet := insert item.text p.newInsertedPatternSet },
      { item with role := [] })
  else
    ({ p with
      newInsertedPatternSet := insert item.text (p.newInsertedPatternSet.erase item.role) },
      { item with role := [] })

/-- A text is entered in an item, which `editItem`, a double click or a key has opened for it; the
    list is not refreshed. -/
def enterText (p : PolicyPage) (item : ListItem) (new : Bytes) : PolicyPage :=
  let edited := p.editListItem { item with text := new }
  { edited.1 with items := edited.2 ::ₘ p.items.erase item }

def undoButtonClicked (text : Bytes → Bytes) (p : PolicyPage) : PolicyPage :=
  refreshProhibitedWordListWidget text
    { p with newInsertedPatternSet := ∅, willErasePatternSet := ∅ }

/-- `std::set::merge` leaves behind what the target holds already. -/
def updatePatternSet (p : PolicyPage) : PolicyPage :=
  { p with
    patternSet := (p.patternSet \ p.willErasePatternSet) ∪ p.newInsertedPatternSet
    newInsertedPatternSet :=
      p.newInsertedPatternSet ∩ (p.patternSet \ p.willErasePatternSet)
    willErasePatternSet := ∅ }

/-- After `load_patterns_from_file`. -/
def loaded (text : Bytes → Bytes) (s₀ : Finset Bytes) : PolicyPage :=
  refreshProhibitedWordListWidget text ⟨s₀, ∅, ∅, 0⟩

end PolicyPage

/-! ## The set that is meant -/

/-- The edited set, and the set of the last load or build. -/
structure PlainSet where
  edited : Finset Bytes
  base : Finset Bytes

namespace PlainSet

def add (a : PlainSet) (w : Bytes) : PlainSet := { a with edited := insert w a.edited }

def remove (a : PlainSet) (w : Bytes) : PlainSet := { a with edited := a.edited.erase w }

/-- `old` is replaced by `new`. -/
def edit (a : PlainSet) (old new : Bytes) : PlainSet :=
  if old = new then a else { a with edited := insert new (a.edited.erase old) }

def undo (a : PlainSet) : PlainSet := { a with edited := a.base }

def build (a : PlainSet) : PlainSet := { a with base := a.edited }

end PlainSet

/-! ## Editing -/

inductive PolicyOp where
  | add (w : Bytes)
  | remove (item : ListItem)
  | editButton (item : ListItem)
  | edit (item : ListItem) (new : Bytes)
  | undo
  | build
  /-- The thread of the build comes to the call of `build_all`. -/
  | buildAll
  /-- The page is told that the build has ended. -/
  | built
  | refresh

/-- `is_building_`, and whether the thread has read the set that it was to hand over. -/
inductive Builder where
  | idle
  | started (meant : Finset Bytes)
  | handed
  deriving DecidableEq

def Builder.isStarted : Builder → Bool
  | started _ => true
  | _ => false

/-- The page, and what it stands for; each build that was asked for, as the set that was meant and
    the set that `build_all` was given, if any. -/
structure Editing where
  page : PolicyPage
  plain : PlainSet
  builder : Builder
  builds : List (Finset Bytes × Option (Finset Bytes))

namespace Editing

/-- A word is removed or edited through an item that shows it; an empty input is no word. -/
def Enabled (s : Editing) : PolicyOp → Prop
  | .add w => w ≠ []
  | .remove item => item ∈ s.page.items
  | .editButton item => item ∈ s.page.items
  | .edit item new => item ∈ s.page.items ∧ new ≠ []
  | .undo => True
  | .build => True
  | .buildAll => s.builder.isStarted = true
  | .built => s.builder = .handed
  | .refresh => True

instance (s : Editing) : (op : PolicyOp) → Decidable (s.Enabled op)
  | .add w => inferInstanceAs (Decidable (w ≠ []))
  | .remove item => inferInstanceAs (Decidable (item ∈ s.page.items))
  | .editButton item => inferInstanceAs (Decidable (item ∈ s.page.items))
  | .edit item new => inferInstanceAs (Decidable (item ∈ s.page.items ∧ new ≠ []))
  | .buildAll => inferInstanceAs (Decidable (s.builder.isStarted = true))
  | .built => inferInstanceAs (Decidable (s.builder = .handed))
  | .undo | .build | .refresh => inferInstanceAs (Decidable True)

/-- `build_button_clicked`: `build_filtering_interface` returns at once while a build runs. -/
def buildButtonClicked (s : Editing) : Editing :=
  match s.builder with
  | .idle =>
    { s with
      page := s.page.updatePatternSet
      plain := s.plain.build
      builder := .started s.plain.edited }
  | _ =>
    { s with
      page := s.page.updatePatternSet
      plain := s.plain.build
      builds := s.builds ++ [(s.plain.edited, none)] }

/-- The thread of a build reads `pattern_set_`. -/
def buildAll (s : Editing) : Editing :=
  match s.builder with
  | .started meant =>
    { s with builder := .handed, builds := s.builds ++ [(meant, some s.page.patternSet)] }
  | _ => s

/-- One operation on both. -/
def perform (text : Bytes → Bytes) (s : Editing) : PolicyOp → Editing
  | .add w => { s with page := s.page.addButtonClicked text w, plain := s.plain.add w }
  | .remove item =>
    { s with
      page := s.page.prohibitedWordRemoveButtonClicked text item.text
      plain := s.plain.remove item.text }
  | .editButton item => { s with page := s.page.prohibitedWordEditButtonClicked item }
  | .edit item new =>
    { s with page := s.page.enterText item new, plain := s.plain.edit item.text new }
  | .undo => { s with page := s.page.undoButtonClicked text, plain := s.plain.undo }
  | .build => s.buildButtonClicked
  | .buildAll => s.buildAll
  | .built => { s with builder := .idle }
  | .refresh => { s with page := s.page.refreshProhibitedWordListWidget text }

def step (text : Bytes → Bytes) (s : Editing) (op : PolicyOp) : Option Editing :=
  if s.Enabled op then some (s.perform text op) else none

def loaded (text : Bytes → Bytes) (s₀ : Finset Bytes) : Editing :=
  ⟨PolicyPage.loaded text s₀, ⟨s₀, s₀⟩, .idle, []⟩

/-- Each build so far has handed over the set that was meant, and one that has been started will;
    and a build of this page hands over the edited set and leaves nothing behind. -/
structure BuildsRight (s : Editing) : Prop where
  done : ∀ b ∈ s.builds, b.2 = some b.1
  running : ∀ meant, s.builder = .started meant → s.page.patternSet = meant
  handed : s.page.updatePatternSet.patternSet = s.plain.edited
  newEmpty : s.page.updatePatternSet.newInsertedPatternSet = ∅
  eraseEmpty : s.page.updatePatternSet.willErasePatternSet = ∅

/-- The operations that go wrong: adding a word that is only marked as removed; removing, or editing
    away, a word that is in the base set and waits as new besides; editing onto a word of the base
    set; editing an item that was not opened by the edit button, unless the new word is there
    and the old one is not; editing a word of the base set away before the thread of a build
    has read the set; undoing after an edit has changed the base set; and building while a
    build runs. -/
def Faulty (s : Editing) : PolicyOp → Prop
  | .add w =>
    w ∈ s.page.patternSet ∧ w ∈ s.page.willErasePatternSet ∧ w ∉ s.page.newInsertedPatternSet
  | .remove item =>
    item.text ∈ s.page.patternSet ∧ item.text ∈ s.page.newInsertedPatternSet
  | .edit item new =>
    item.text ≠ new ∧
      if item.role = [] then new ∉ s.page.words ∨ item.text ∈ s.page.words
      else new ∈ s.page.kept ∨ item.text ∈ s.page.patternSet ∧
        (item.text ∈ s.page.newInsertedPatternSet ∨ s.builder.isStarted = true)
  | .undo => s.page.patternSet ≠ s.plain.base
  | .build => s.builder ≠ .idle
  | .editButton _ | .buildAll | .built | .refresh => False

end Editing

/-! ## What one step does -/

namespace PolicyPage

variable (text : Bytes → Bytes) (p : PolicyPage)

@[simp] theorem refresh_kept : (p.refreshProhibitedWordListWidget text).kept = p.kept := rfl

@[simp] theorem refresh_words : (p.refreshProhibitedWordListWidget text).words = p.words := rfl

@[simp] theorem refresh_new : (p.refreshProhibitedWordListWidget text).newInsertedPatternSet =
    p.newInsertedPatternSet := rfl

theorem mem_kept {p : PolicyPage} {w : Bytes} :
    w ∈ p.kept ↔ w ∈ p.patternSet ∧ w ∉ p.willErasePatternSet := Finset.mem_sdiff

theorem mem_words {p : PolicyPage} {w : Bytes} :
    w ∈ p.words ↔ w ∈ p.kept ∨ w ∈ p.newInsertedPatternSet := Finset.mem_union

/-- The items know their own words, if any. -/
def ItemsOk (p : PolicyPage) : Prop :=
  ∀ item ∈ p.items, item.role = [] ∨ item.role = item.text

theorem itemsOk_refresh : (p.refreshProhibitedWordListWidget text).ItemsOk := by
  intro item hitem
  rcases Multiset.mem_add.mp hitem with hitem | hitem
  · obtain ⟨w, -, rfl⟩ := Multiset.mem_map.mp hitem
    exact .inl rfl
  · obtain ⟨w, -, rfl⟩ := Multiset.mem_map.mp hitem
    exact .inl rfl

variable {p}

theorem ItemsOk.replace (h : p.ItemsOk) {q : PolicyPage} {item item' : ListItem}
    (hitems : q.items = item' ::ₘ p.items.erase item)
    (hitem' : item'.role = [] ∨ item'.role = item'.text) : q.ItemsOk := by
  intro i hi
  rw [hitems, Multiset.mem_cons] at hi
  rcases hi with rfl | hi
  · exact hitem'
  · exact h i (Multiset.mem_of_mem_erase hi)

theorem ItemsOk.add (h : p.ItemsOk) (w : Bytes) : (p.addButtonClicked text w).ItemsOk := by
  unfold addButtonClicked
  split
  · exact h
  · split
    · exact h
    · exact itemsOk_refresh text _

theorem ItemsOk.enterText (h : p.ItemsOk) (item : ListItem) {new : Bytes} (hnew : new ≠ []) :
    (p.enterText item new).ItemsOk := by
  refine h.replace rfl ?_
  unfold editListItem
  dsimp only
  rw [if_neg hnew]
  split
  · rename_i hsame
    exact hsame
  · split <;> exact .inl rfl

theorem add_patternSet (w : Bytes) : (p.addButtonClicked text w).patternSet = p.patternSet := by
  unfold addButtonClicked
  split
  · rfl
  · split <;> rfl

theorem remove_patternSet (w : Bytes) :
    (p.prohibitedWordRemoveButtonClicked text w).patternSet = p.patternSet := by
  unfold prohibitedWordRemoveButtonClicked refreshProhibitedWordListWidget
  split
  · rfl
  · split <;> rfl

theorem edit_patternSet (old new : Bytes) : (p.editListItem ⟨new, old⟩).1.patternSet =
    if new ≠ [] ∧ old ≠ [] ∧ old ≠ new ∧ old ∈ p.patternSet then p.patternSet.erase old
    else p.patternSet := by
  unfold editListItem
  dsimp only
  split_ifs <;> grind

/-- The page stands for the edited set, and no word of the base set waits as new. -/
structure Matches (p : PolicyPage) (a : PlainSet) : Prop where
  words : p.words = a.edited
  apart : p.newInsertedPatternSet ∩ p.kept = ∅

variable {a : PlainSet}

/-- Read word by word. -/
theorem matches_iff : p.Matches a ↔
    (∀ v, v ∈ p.kept ∨ v ∈ p.newInsertedPatternSet ↔ v ∈ a.edited) ∧
      ∀ v, v ∈ p.newInsertedPatternSet → v ∉ p.kept := by
  constructor
  · intro h
    refine ⟨fun v => ?_, fun v hn hk => ?_⟩
    · rw [← h.words, mem_words]
    · have := Finset.mem_inter.mpr ⟨hn, hk⟩
      rw [h.apart] at this
      exact absurd this (Finset.notMem_empty v)
  · intro ⟨hw, ha⟩
    refine ⟨?_, ?_⟩
    · ext v
      rw [mem_words]
      exact hw v
    · ext v
      rw [Finset.mem_inter]
      exact ⟨fun ⟨hn, hk⟩ => absurd hk (ha v hn), fun h => absurd h (Finset.notMem_empty v)⟩

theorem matches_add_iff (h : p.Matches a) {w : Bytes} (hw : w ≠ []) :
    (p.addButtonClicked text w).Matches (a.add w) ↔
      ¬(w ∈ p.patternSet ∧ w ∈ p.willErasePatternSet ∧ w ∉ p.newInsertedPatternSet) := by
  obtain ⟨hwords, hapart⟩ := matches_iff.mp h
  unfold addButtonClicked
  rw [if_neg hw]
  by_cases hin : w ∈ p.patternSet ∨ w ∈ p.newInsertedPatternSet
  · -- the word is taken to be there, also when it is marked as removed
    rw [if_pos hin, matches_iff]
    simp only [PlainSet.add, Finset.mem_insert, mem_kept] at *
    grind
  · rw [if_neg hin, matches_iff]
    simp only [PlainSet.add, Finset.mem_insert, refresh_kept, refresh_new, mem_kept] at *
    grind

theorem matches_remove_iff (h : p.Matches a) (w : Bytes) :
    (p.prohibitedWordRemoveButtonClicked text w).Matches (a.remove w) ↔
      ¬(w ∈ p.patternSet ∧ w ∈ p.newInsertedPatternSet) := by
  obtain ⟨hwords, hapart⟩ := matches_iff.mp h
  unfold prohibitedWordRemoveButtonClicked
  rw [matches_iff]
  simp only [PlainSet.remove, Finset.mem_erase, refresh_kept, refresh_new, mem_kept] at *
  split
  · grind
  · split
    · grind
    · grind

/-- An edit of an item that does not know its word changes nothing. -/
theorem matches_enterText_unset_iff (h : p.Matches a) {item : ListItem} {new : Bytes}
    (hrole : item.role = []) :
    (p.enterText item new).Matches (a.edit item.text new) ↔
      ¬(item.text ≠ new ∧ (new ∉ p.words ∨ item.text ∈ p.words)) := by
  obtain ⟨hwords, hapart⟩ := matches_iff.mp h
  have hpage : p.editListItem { item with text := new } = (p, { item with text := new }) := by
    simp only [editListItem, hrole, true_or, if_true, ite_self]
  unfold enterText PlainSet.edit
  rw [hpage, matches_iff]
  simp only [mem_words]
  simp only [mem_kept] at *
  split
  · grind
  · grind

theorem matches_enterText_iff (h : p.Matches a) {item : ListItem} {new : Bytes}
    (hrole : item.role ≠ []) (htext : item.role = item.text) (hnew : new ≠ []) :
    (p.enterText item new).Matches (a.edit item.text new) ↔
      ¬(item.text ≠ new ∧ (new ∈ p.kept ∨
        item.text ∈ p.patternSet ∧ item.text ∈ p.newInsertedPatternSet)) := by
  obtain ⟨hwords, hapart⟩ := matches_iff.mp h
  unfold enterText editListItem PlainSet.edit
  dsimp only
  rw [htext] at hrole ⊢
  rw [if_neg hnew, matches_iff]
  simp only [mem_kept] at *
  by_cases hsame : item.text = new
  · simp only [hsame, or_true, if_true]
    grind
  rw [if_neg hsame, if_neg (not_or.mpr ⟨hrole, hsame⟩)]
  by_cases hold : item.text ∈ p.patternSet
  · rw [if_pos hold]
    grind
  · rw [if_neg hold]
    grind

theorem matches_undo_iff (p : PolicyPage) (a : PlainSet) :
    (p.undoButtonClicked text).Matches a.undo ↔ ¬p.patternSet ≠ a.base := by
  unfold undoButtonClicked PlainSet.undo
  rw [matches_iff]
  simp only [refresh_kept, refresh_new, mem_kept, Finset.notMem_empty, not_false_iff, and_true,
    or_false, not_not, Finset.ext_iff]
  grind

theorem Matches.build (h : p.Matches a) : p.updatePatternSet.Matches a.build := by
  refine ⟨?_, ?_⟩
  · show (p.words \ ∅) ∪ p.newInsertedPatternSet ∩ p.kept = a.edited
    rw [h.apart, Finset.union_empty, Finset.sdiff_empty, h.words]
  · show p.newInsertedPatternSet ∩ p.kept ∩ _ = ∅
    rw [h.apart, Finset.empty_inter]

end PolicyPage

namespace Editing

open PolicyPage

variable {s : Editing} (text : Bytes → Bytes)

theorem BuildsRight.matches (h : s.BuildsRight) : s.page.Matches s.plain :=
  ⟨h.handed, h.newEmpty⟩

/-- What holds as long as nothing goes wrong. -/
structure Inv (s : Editing) : Prop where
  sets : s.page.Matches s.plain
  items : s.page.ItemsOk
  done : ∀ b ∈ s.builds, b.2 = some b.1
  running : ∀ meant, s.builder = .started meant → s.page.patternSet = meant

theorem Inv.buildsRight (h : s.Inv) : s.BuildsRight :=
  ⟨h.done, h.running, h.sets.words, h.sets.apart, rfl⟩

/-- A step that leaves the builder and the base set alone. -/
theorem Inv.frame (h : s.Inv) {p : PolicyPage} {a : PlainSet} (hsets : p.Matches a)
    (hitems : p.ItemsOk) (hbase : p.patternSet = s.page.patternSet) :
    Inv { s with page := p, plain := a } :=
  ⟨hsets, hitems, h.done, fun meant hm => hbase.trans (h.running meant hm)⟩

theorem Inv.edit (h : s.Inv) {item : ListItem} {new : Bytes} (hitem : item ∈ s.page.items)
    (hnew : new ≠ []) (hok : ¬s.Faulty (.edit item new)) :
    (s.perform text (.edit item new)).Inv := by
  have hrole := h.items item hitem
  have hitems := h.items.enterText item hnew
  have hset := edit_patternSet (p := s.page) item.role new
  by_cases hunset : item.role = []
  · refine h.frame ((matches_enterText_unset_iff h.sets hunset).mpr fun hbad => hok ?_) hitems ?_
    · exact ⟨hbad.1, by rw [if_pos hunset]; exact hbad.2⟩
    · rwa [if_neg fun hall => hall.2.1 hunset] at hset
  · have htext := hrole.resolve_left hunset
    refine ⟨(matches_enterText_iff h.sets hunset htext hnew).mpr fun hbad => hok ⟨hbad.1, ?_⟩,
      hitems, h.done, fun meant hm => ?_⟩
    · rw [if_neg hunset]
      exact hbad.2.imp_right (And.imp_right .inl)
    · -- the thread has not read the set yet
      have hbuilder : s.builder = .started meant := hm
      refine Eq.trans ?_ (h.running meant hbuilder)
      rw [if_neg] at hset
      · exact hset
      · rintro ⟨-, -, hne, hin⟩
        refine hok ⟨htext ▸ hne, ?_⟩
        rw [if_neg hunset]
        exact .inr ⟨htext ▸ hin, .inr (by rw [hbuilder]; rfl)⟩

theorem Inv.perform (h : s.Inv) {op : PolicyOp} (hop : s.Enabled op) (hok : ¬s.Faulty op) :
    (s.perform text op).Inv := by
  cases op with
  | add w =>
    exact h.frame ((matches_add_iff text h.sets hop).mpr hok) (h.items.add text w)
      (add_patternSet text w)
  | remove item =>
    exact h.frame ((matches_remove_iff text h.sets item.text).mpr hok) (itemsOk_refresh text _)
      (remove_patternSet text item.text)
  | editButton item =>
    exact h.frame ⟨h.sets.words, h.sets.apart⟩ (h.items.replace rfl (.inr rfl)) rfl
  | edit item new => exact h.edit text hop.1 hop.2 hok
  | undo =>
    exact h.frame ((matches_undo_iff text s.page s.plain).mpr hok) (itemsOk_refresh text _) rfl
  | build =>
    have hidle : s.builder = .idle := not_not.mp hok
    unfold Editing.perform buildButtonClicked
    rw [hidle]
    refine ⟨h.sets.build, h.items, h.done, fun meant hm => ?_⟩
    cases hm
    exact h.sets.words
  | buildAll =>
    obtain ⟨page, plain, builder, builds⟩ := s
    cases builder with
    | idle => cases hop
    | handed => cases hop
    | started meant =>
      refine ⟨h.sets, h.items, fun b hb => ?_, fun meant' hm => by cases hm⟩
      rcases List.mem_append.mp hb with hb | hb
      · exact h.done b hb
      · rw [List.mem_singleton.mp hb]
        exact congrArg some (h.running meant rfl)
  | built => exact ⟨h.sets, h.items, h.done, fun meant hm => by cases hm⟩
  | refresh => exact h.frame ⟨h.sets.words, h.sets.apart⟩ (itemsOk_refresh text _) rfl

theorem Inv.not_right_edit (h : s.Inv) {item : ListItem} {new : Bytes}
    (hitem : item ∈ s.page.items) (hnew : new ≠ []) (hbad : s.Faulty (.edit item new)) :
    ¬(s.perform text (.edit item new)).BuildsRight := by
  intro hright
  have hrole := h.items item hitem
  obtain ⟨hne, hbad⟩ := hbad
  by_cases hunset : item.role = []
  · rw [if_pos hunset] at hbad
    exact (matches_enterText_unset_iff h.sets hunset).mp hright.matches ⟨hne, hbad⟩
  · have htext := hrole.resolve_left hunset
    rw [if_neg hunset] at hbad
    have hnot := (matches_enterText_iff h.sets hunset htext hnew).mp hright.matches
    rcases hbad with honto | ⟨hin, hnewIn | hstarted⟩
    · exact hnot ⟨hne, .inl honto⟩
    · exact hnot ⟨hne, .inr ⟨hin, hnewIn⟩⟩
    · -- the set loses a word that the running build is to hand over
      cases hbuilder : s.builder with
      | idle => rw [hbuilder] at hstarted; cases hstarted
      | handed => rw [hbuilder] at hstarted; cases hstarted
      | started meant =>
        have hset := edit_patternSet (p := s.page) item.role new
        rw [htext, if_pos ⟨hnew, htext ▸ hunset, hne, hin⟩, ← htext] at hset
        have hafter := hset.symm.trans (hright.running meant hbuilder)
        rw [← h.running meant hbuilder, htext] at hafter
        exact Finset.erase_eq_self.mp hafter hin

theorem Inv.not_right (h : s.Inv) {op : PolicyOp} (hop : s.Enabled op) (hbad : s.Faulty op) :
    ¬(s.perform text op).BuildsRight := by
  intro hright
  cases op with
  | add w => exact (matches_add_iff text h.sets hop).mp hright.matches hbad
  | remove item => exact (matches_remove_iff text h.sets item.text).mp hright.matches hbad
  | edit item new => exact h.not_right_edit text hop.1 hop.2 hbad hright
  | undo => exact (matches_undo_iff text s.page s.plain).mp hright.matches hbad
  | build =>
    have hdone := hright.done (s.plain.edited, none)
    unfold Editing.perform buildButtonClicked at hdone
    cases hbuilder : s.builder with
    | idle => exact hbad hbuilder
    | started meant =>
      rw [hbuilder] at hdone
      cases hdone (List.mem_append_right _ (List.mem_singleton_self _))
    | handed =>
      rw [hbuilder] at hdone
      cases hdone (List.mem_append_right _ (List.mem_singleton_self _))
  | editButton _ | buildAll | built | refresh => exact hbad

theorem inv_loaded (s₀ : Finset Bytes) : (loaded text s₀).Inv := by
  refine ⟨⟨?_, Finset.empty_inter _⟩, itemsOk_refresh text _, fun b hb => ?_, fun meant hm => ?_⟩
  · show (s₀ \ ∅) ∪ ∅ = s₀
    rw [Finset.union_empty, Finset.sdiff_empty]
  · cases hb
  · cases hm

end Editing

/-! ## Whole sessions -/

/-- For every loaded set and every sequence of operations: in every state on the way all builds have
    handed over the set that was meant, and a further one would, exactly when no operation
    is faulty. -/
theorem policyEditing_iff (text : Bytes → Bytes) (s₀ : Finset Bytes) (ops : List PolicyOp) :
    (∀ pre t, pre <+: ops → run (Editing.step text) (Editing.loaded text s₀) pre = some t →
        t.BuildsRight) ↔
      Along (Editing.step text) (fun s op => ¬(s.Enabled op ∧ s.Faulty op))
        (Editing.loaded text s₀) ops := by
  refine along_iff_reached (I := Editing.Inv) ?_ (fun s h => h.buildsRight) ?_
    (Editing.inv_loaded text s₀)
  · intro s op s' h hok hstep
    unfold Editing.step at hstep
    split at hstep
    · rename_i hop
      cases hstep
      exact h.perform text hop fun hf => hok ⟨hop, hf⟩
    · cases hstep
  · intro s op h hbad
    exact ⟨s.perform text op, if_pos hbad.1, h.not_right text hbad.1 hbad.2⟩

/-- "a" is loaded, removed and added again, and the page is built. -/
def removeAndAdd : List PolicyOp := [.remove ⟨[0x61], []⟩, .add [0x61], .build, .buildAll]

/-- The build hands over the empty set. -/
theorem removeAndAdd_lost : ∃ t,
    run (Editing.step id) (Editing.loaded id {[0x61]}) removeAndAdd = some t ∧
      t.builds = [({[0x61]}, some ∅)] ∧ ¬t.BuildsRight := by
  have hbuilds : (run (Editing.step id) (Editing.loaded id {[0x61]}) removeAndAdd).map
      Editing.builds = some [({[0x61]}, some ∅)] := by decide +kernel
  obtain ⟨t, ht, hlost⟩ := Option.map_eq_some_iff.mp hbuilds
  refine ⟨t, ht, hlost, fun hright => ?_⟩
  have hdone := hright.done ({[0x61]}, some ∅) (by rw [hlost]; exact List.mem_singleton_self _)
  revert hdone
  decide

/-- A word that is edited after a double click stays in the base set. -/
example : (run (Editing.step id) (Editing.loaded id {[0x61]})
    [.edit ⟨[0x61], []⟩ [0x62], .build, .buildAll]).map Editing.builds =
      some [({[0x62]}, some {[0x61]})] := by decide +kernel

end CdsGuard.Gateway
