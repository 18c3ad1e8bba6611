import CdsGuard.Gateway.PatternFile
import CdsGuard.Lib.Chunks
import CdsGuard.Lib.Window

/-
  What `PolicyPage` shows of its words: a page of `refresh_prohibited_word_list_widget`, the number
  of pages and the count label, both made from the sizes of the three sets alone, and the result of
  a search, `apply_filter`. An item is the word that it is made of.

  Proved: `sessions_showPolicy_iff`, the sessions in which the views show the edited policy all the
  time. The sizes are right as long as every removed word is in the base set; the search stops at
  the first removed word instead of skipping it.
-/

namespace CdsGuard.Gateway

open CdsGuard.Lib

/-! ## The views -/

/-- The largest `int`; a sum above it is undefined. -/
def intMax : Nat := 2 ^ 31 - 1

/-- `prohibited_list_items_per_page_`. -/
structure PageSize where
  val : Nat
  pos : 1 ≤ val
  isInt : val ≤ intMax

instance : IsTrans Bytes (· ≤ ·) := inferInstance
instance : Std.Antisymm (fun v w : Bytes => v ≤ w) := inferInstance
instance : Std.Total (fun v w : Bytes => v ≤ w) := inferInstance

/-- A `std::set` is walked in the order of its strings. -/
def setOrder (s : Finset Bytes) : List Bytes := s.sort (· ≤ ·)

/-- `i`, `shown` and the items added so far; neither counter passes the number of words. -/
structure Listing where
  i : Nat
  shown : Nat
  items : List Bytes

namespace Listing

/-- A word that is not skipped. -/
def visit (start stop : Nat) (l : Listing) (w : Bytes) : Listing :=
  if start ≤ l.i ∧ l.i < stop then ⟨l.i + 1, l.shown + 1, l.items ++ [w]⟩
  else { l with i := l.i + 1 }

/-- Either loop; the one over the new words skips none. -/
def walk (start stop itemsPerPage : Nat) (skip : Bytes → Bool) : Listing → List Bytes → Listing
  | l, [] => l
  | l, w :: ws =>
    let l' := if skip w then l else l.visit start stop w
    if itemsPerPage ≤ l'.shown then l' else walk start stop itemsPerPage skip l' ws

end Listing

namespace PolicyPage

/-- `total_items`, a difference of two `size_t` that is narrowed to an `int`. -/
def totalItems (p : PolicyPage) : Int :=
  i32 (p.patternSet.card + p.newInsertedPatternSet.card - p.willErasePatternSet.card)

/-- `total_pages`; the buttons lead to the pages below it. -/
def updatePageButtons (p : PolicyPage) (itemsPerPage : PageSize) : Option Int :=
  if p.totalItems + itemsPerPage.val ≤ intMax then
    some ((p.totalItems + itemsPerPage.val - 1).tdiv itemsPerPage.val)
  else none

/-- The number in the label. -/
def updateTotalCountLabel (p : PolicyPage) : Int := p.totalItems

end PolicyPage

/-- What a refresh shows. -/
structure WordListView where
  items : List Bytes
  totalPages : Int
  totalCount : Int

namespace WordListView

/-- On the current page `page`. -/
def refreshProhibitedWordListWidget (p : PolicyPage) (itemsPerPage : PageSize) (page : Nat) :
    Option WordListView :=
  let start := page * itemsPerPage.val
  let stop := start + itemsPerPage.val
  if intMax < stop then none
  else
    let l := Listing.walk start stop itemsPerPage.val (· ∈ p.willErasePatternSet) ⟨0, 0, []⟩
      (setOrder p.patternSet)
    let l' := if l.shown < itemsPerPage.val then
      Listing.walk start stop itemsPerPage.val (fun _ => false) l (setOrder p.newInsertedPatternSet)
      else l
    (p.updatePageButtons itemsPerPage).map fun totalPages =>
      ⟨l'.items, totalPages, p.updateTotalCountLabel⟩

def pageItems (p : PolicyPage) (itemsPerPage : PageSize) (page : Nat) : Option (List Bytes) :=
  (refreshProhibitedWordListWidget p itemsPerPage page).map items

/-- The items after a search; without a keyword, those of the current page. -/
def applyFilter (p : PolicyPage) (itemsPerPage : PageSize) (page : Nat) (keyword : Bytes) :
    Option (List Bytes) :=
  if keyword = [] then pageItems p itemsPerPage page
  else
    let searched := (setOrder p.patternSet).takeWhile (· ∉ p.willErasePatternSet)
    some (searched.filter (keyword <:+: ·) ++
      (setOrder p.newInsertedPatternSet).filter (keyword <:+: ·))

end WordListView

namespace PolicyPage

/-! ## The policy shown -/

/-- The words of the base set that stay, and behind them the new ones. -/
def editedWords (p : PolicyPage) : List Bytes :=
  setOrder p.kept ++ setOrder p.newInsertedPatternSet

/-- The views show the edited policy. -/
structure ShowsPolicy (p : PolicyPage) (itemsPerPage : PageSize) : Prop where
  /-- The pages that the buttons lead to, one after the other. -/
  pages : ∃ (totalPages : Int) (pages : List (List Bytes)),
    p.updatePageButtons itemsPerPage = some totalPages ∧
    (List.range totalPages.toNat).map (WordListView.pageItems p itemsPerPage) = pages.map some ∧
    pages.flatten = p.editedWords
  once : p.editedWords.Nodup
  label : p.updateTotalCountLabel = p.editedWords.length
  search : ∀ page keyword, keyword ≠ [] →
    WordListView.applyFilter p itemsPerPage page keyword =
      some (p.editedWords.filter (keyword <:+: ·))

/-- Every removed word is in the base set, no new word is, the kept words stand in front of the
    removed ones, and the sizes are within an `int`. -/
structure Sound (p : PolicyPage) (itemsPerPage : PageSize) : Prop where
  erased : p.willErasePatternSet ⊆ p.patternSet
  apart : Disjoint p.kept p.newInsertedPatternSet
  ordered : ∀ v ∈ p.kept, ∀ r ∈ p.willErasePatternSet, v < r
  room : p.words.card + itemsPerPage.val ≤ intMax

end PolicyPage

/-! ## One page -/

namespace Listing

variable {start size : Nat} {l : Listing} {seen : List Bytes}

/-- The items are those in the window of what was seen; until it is full, `i` counts what was
    seen. -/
structure Shows (start size : Nat) (l : Listing) (seen : List Bytes) : Prop where
  items : l.items = window start size seen
  shown : l.shown = l.items.length
  counted : l.shown < size → l.i = seen.length

theorem shows_start (start size : Nat) : Shows start size ⟨0, 0, []⟩ [] where
  items := (window_nil start size).symm
  shown := rfl
  counted _ := rfl

/-- Nothing is added to a full page. -/
theorem Shows.append (h : Shows start size l seen) (hfull : size ≤ l.shown) (more : List Bytes) :
    Shows start size l (seen ++ more) where
  items := by
    rw [h.shown, h.items] at hfull
    rw [window_append_of_full hfull, h.items]
  shown := h.shown
  counted hroom := absurd hfull (Nat.not_le.mpr hroom)

theorem Shows.visit (h : Shows start size l seen) (hroom : l.shown < size) (w : Bytes) :
    Shows start size (l.visit start (start + size) w) (seen ++ [w]) := by
  have hi := h.counted hroom
  have hlen : seen.length + 1 = (seen ++ [w]).length := (@List.length_append _ seen [w]).symm
  have hwindow := window_concat start size seen w
  rw [← h.items] at hwindow
  unfold Listing.visit
  rw [hi]
  split
  · rename_i hin
    rw [if_pos hin] at hwindow
    refine ⟨hwindow.symm, ?_, fun _ => hlen⟩
    rw [List.length_append, h.shown]
    rfl
  · rename_i hout
    rw [if_neg hout] at hwindow
    exact ⟨hwindow.symm, h.shown, fun _ => hlen⟩

/-- A loop goes on until the page is full or the set is at its end. -/
theorem Shows.walk (skip : Bytes → Bool) (ws : List Bytes) (h : Shows start size l seen)
    (hroom : l.shown < size) :
    Shows start size (l.walk start (start + size) size skip ws)
      (seen ++ ws.filter (fun w => !skip w)) := by
  induction ws generalizing l seen with
  | nil =>
    rw [List.filter_nil, List.append_nil]
    exact h
  | cons w ws ih =>
    unfold Listing.walk
    dsimp only
    cases hskip : skip w with
    | true =>
      rw [if_pos rfl, if_neg (Nat.not_le.mpr hroom), List.filter_cons_of_neg (by simp [hskip])]
      exact ih h hroom
    | false =>
      rw [if_neg Bool.false_ne_true, List.filter_cons_of_pos (by simp [hskip]),
        List.append_cons]
      have hvisit := h.visit hroom w
      split
      · rename_i hfull
        exact hvisit.append hfull _
      · rename_i hmore
        exact ih hvisit (Nat.not_le.mp hmore)

end Listing

/-! ## Sizes and orders -/

theorem mem_setOrder {s : Finset Bytes} {w : Bytes} : w ∈ setOrder s ↔ w ∈ s := Finset.mem_sort _

theorem setOrder_length (s : Finset Bytes) : (setOrder s).length = s.card := Finset.length_sort _

theorem setOrder_nodup (s : Finset Bytes) : (setOrder s).Nodup := Finset.sort_nodup _ _

theorem setOrder_pairwise (s : Finset Bytes) : (setOrder s).Pairwise (· ≤ ·) :=
  Finset.pairwise_sort _ _

namespace PolicyPage

variable {p : PolicyPage} {itemsPerPage : PageSize}

/-- Skipping the removed words in a walk over the base set leaves a walk over the kept ones. -/
theorem setOrder_kept (p : PolicyPage) :
    (setOrder p.patternSet).filter (· ∉ p.willErasePatternSet) = setOrder p.kept := by
  have hset : p.kept = ((setOrder p.patternSet).filter (· ∉ p.willErasePatternSet)).toFinset := by
    ext w
    rw [mem_kept, List.mem_toFinset, List.mem_filter, mem_setOrder, decide_eq_true_iff]
  have hnodup := (setOrder_nodup p.patternSet).filter (· ∉ p.willErasePatternSet)
  rw [hset]
  exact ((List.toFinset_sort (· ≤ ·) hnodup).mpr
    ((setOrder_pairwise p.patternSet).filter _)).symm

/-- All pages together hold the items that the widget has without pages. -/
theorem editedWords_items (text : Bytes → Bytes) (p : PolicyPage) :
    ((p.editedWords.map (makeNewItem text) : List ListItem) : Multiset ListItem) =
      (p.refreshProhibitedWordListWidget text).items := by
  have hkept : ((setOrder p.kept : List Bytes) : Multiset Bytes) = p.kept.val :=
    Finset.sort_eq _ _
  have hnew : ((setOrder p.newInsertedPatternSet : List Bytes) : Multiset Bytes) =
      p.newInsertedPatternSet.val := Finset.sort_eq _ _
  rw [editedWords, List.map_append, ← Multiset.coe_add, ← Multiset.map_coe, ← Multiset.map_coe,
    hkept, hnew]
  rfl

theorem editedWords_length (p : PolicyPage) :
    p.editedWords.length = p.kept.card + p.newInsertedPatternSet.card := by
  rw [editedWords, List.length_append, setOrder_length, setOrder_length]

theorem words_card_le (p : PolicyPage) : p.words.card ≤ p.editedWords.length := by
  rw [editedWords_length]
  exact Finset.card_union_le _ _

theorem editedWords_nodup_iff : p.editedWords.Nodup ↔ Disjoint p.kept p.newInsertedPatternSet := by
  rw [editedWords, List.nodup_append', Finset.disjoint_left]
  have hkept := setOrder_nodup p.kept
  have hnew := setOrder_nodup p.newInsertedPatternSet
  simp only [hkept, hnew, true_and, List.Disjoint, mem_setOrder]

/-- The removed words that are not in the base set are taken off the count. -/
theorem totalItems_eq (p : PolicyPage) :
    p.totalItems =
      i32 (p.editedWords.length - (p.willErasePatternSet \ p.patternSet).card) := by
  have hbase := Finset.card_inter_add_card_sdiff p.patternSet p.willErasePatternSet
  have herase := Finset.card_inter_add_card_sdiff p.willErasePatternSet p.patternSet
  rw [Finset.inter_comm] at herase
  rw [totalItems, editedWords_length, kept]
  congr 1
  omega

/-- A word that the search comes to stands in front of every removed one. -/
theorem lt_of_searched {v r : Bytes}
    (hv : v ∈ (setOrder p.patternSet).takeWhile (· ∉ p.willErasePatternSet))
    (hr : r ∈ p.patternSet) (hgone : r ∈ p.willErasePatternSet) : v < r := by
  have hle : v ≤ r := rel_of_mem_takeWhile (setOrder_pairwise p.patternSet) hv
    (mem_setOrder.mpr hr) (by simp [hgone])
  have hkept := List.mem_takeWhile_imp hv
  rw [decide_eq_true_iff] at hkept
  by_contra hnot
  obtain rfl : v = r := List.le_antisymm hle hnot
  exact hkept hgone

/-- If the kept words stand in front of the removed ones, the search comes to all of them. -/
theorem searched_eq_kept
    (h : ∀ v ∈ p.kept, ∀ r ∈ p.willErasePatternSet, v < r) :
    (setOrder p.patternSet).takeWhile (· ∉ p.willErasePatternSet) = setOrder p.kept := by
  rw [← setOrder_kept]
  refine takeWhile_eq_filter ((setOrder_pairwise p.patternSet).imp_of_mem ?_)
  intro a b _ hb hle hkept
  rw [decide_eq_true_iff] at hkept ⊢
  exact fun hgone => hle (h b (mem_kept.mpr ⟨mem_setOrder.mp hb, hkept⟩) a hgone)

/-- A page is a window of the words. -/
theorem refresh_eq (p : PolicyPage) (itemsPerPage : PageSize) (page : Nat) :
    WordListView.refreshProhibitedWordListWidget p itemsPerPage page =
      if intMax < page * itemsPerPage.val + itemsPerPage.val then none
      else (p.updatePageButtons itemsPerPage).map fun totalPages =>
        ⟨window (page * itemsPerPage.val) itemsPerPage.val p.editedWords, totalPages,
          p.updateTotalCountLabel⟩ := by
  have hpos := itemsPerPage.pos
  have hkept := (Listing.shows_start (page * itemsPerPage.val) itemsPerPage.val).walk
    (· ∈ p.willErasePatternSet) (setOrder p.patternSet) hpos
  simp only [← decide_not, List.nil_append, setOrder_kept] at hkept
  unfold WordListView.refreshProhibitedWordListWidget
  dsimp only
  split
  · rfl
  · split
    · rename_i hroom
      have hall := hkept.walk (fun _ => false) (setOrder p.newInsertedPatternSet) hroom
      simp only [Bool.not_false, List.filter_true] at hall
      rw [hall.items]
      rfl
    · rename_i hfull
      rw [(hkept.append (Nat.not_lt.mp hfull) (setOrder p.newInsertedPatternSet)).items]
      rfl

/-! ## Sound states -/

theorem Sound.editedWords_length (h : p.Sound itemsPerPage) :
    p.editedWords.length = p.words.card := by
  rw [PolicyPage.editedWords_length, words, Finset.card_union_of_disjoint h.apart]

theorem Sound.totalItems (h : p.Sound itemsPerPage) : p.totalItems = p.editedWords.length := by
  have hroom : p.words.card + itemsPerPage.val ≤ 2 ^ 31 - 1 := h.room
  rw [totalItems_eq, Finset.sdiff_eq_empty_iff_subset.mpr h.erased, Finset.card_empty,
    Nat.cast_zero, sub_zero, h.editedWords_length]
  exact i32_of_range (by omega) (by omega)

/-- The number of pages is that of the pieces that cover the words. -/
theorem Sound.updatePageButtons (h : p.Sound itemsPerPage) :
    p.updatePageButtons itemsPerPage =
      some ↑(pieceCount itemsPerPage.val p.editedWords.length) := by
  have hroom := h.room
  have hpos := itemsPerPage.pos
  rw [← h.editedWords_length] at hroom
  rw [PolicyPage.updatePageButtons, h.totalItems, if_pos (by exact_mod_cast hroom)]
  have hnat : ((p.editedWords.length : Int) + itemsPerPage.val - 1) =
      ((p.editedWords.length + (itemsPerPage.val - 1) : Nat) : Int) := by omega
  rw [hnat, Int.tdiv_eq_ediv_of_nonneg (Int.natCast_nonneg _), pieceCount]
  rfl

/-- A page that the buttons lead to shows its piece of the words. -/
theorem Sound.pageItems (h : p.Sound itemsPerPage) {page : Nat}
    (hpage : page < pieceCount itemsPerPage.val p.editedWords.length) :
    WordListView.pageItems p itemsPerPage page =
      some (piece itemsPerPage.val p.editedWords page) := by
  have hroom := h.room
  have hpos := itemsPerPage.pos
  rw [← h.editedWords_length] at hroom
  have hstop : page * itemsPerPage.val + itemsPerPage.val ≤ intMax := by
    calc page * itemsPerPage.val + itemsPerPage.val
      _ = (page + 1) * itemsPerPage.val := (Nat.add_one_mul _ _).symm
      _ ≤ pieceCount itemsPerPage.val p.editedWords.length * itemsPerPage.val :=
        Nat.mul_le_mul_right _ hpage
      _ ≤ p.editedWords.length + (itemsPerPage.val - 1) := Nat.div_mul_le_self _ _
      _ ≤ intMax := by omega
  rw [WordListView.pageItems, refresh_eq, if_neg (Nat.not_lt.mpr hstop),
    h.updatePageButtons]
  rfl

theorem Sound.showsPolicy (h : p.Sound itemsPerPage) : p.ShowsPolicy itemsPerPage where
  pages := by
    refine ⟨_, (List.range (pieceCount itemsPerPage.val p.editedWords.length)).map
      (piece itemsPerPage.val p.editedWords), h.updatePageButtons, ?_, ?_⟩
    · rw [Int.toNat_natCast, List.map_map]
      exact List.map_congr_left fun page hpage => h.pageItems (List.mem_range.mp hpage)
    · rw [pieces_flatten, take_of_covered itemsPerPage.pos]
  once := editedWords_nodup_iff.mpr h.apart
  label := h.totalItems
  search := by
    intro page keyword hkeyword
    rw [WordListView.applyFilter, if_neg hkeyword, searched_eq_kept h.ordered, editedWords,
      List.filter_append]

/-! ## What the views need -/

/-- The sum that the number of pages is made from is within an `int`. -/
theorem ShowsPolicy.room (h : p.ShowsPolicy itemsPerPage) :
    p.words.card + itemsPerPage.val ≤ intMax := by
  obtain ⟨totalPages, -, hpages, -⟩ := h.pages
  have hlabel : p.totalItems = p.editedWords.length := h.label
  have hle := words_card_le p
  unfold updatePageButtons at hpages
  split at hpages
  · rename_i hint
    rw [hlabel] at hint
    omega
  · cases hpages

/-- The label is right only if no removed word is missing in the base set, unless `2 ^ 32` of them
    are. -/
theorem ShowsPolicy.erased (h : p.ShowsPolicy itemsPerPage) :
    2 ^ 32 ∣ (p.willErasePatternSet \ p.patternSet).card := by
  have hlabel : p.totalItems = p.editedWords.length := h.label
  rw [totalItems_eq, i32_def] at hlabel
  split at hlabel <;> omega

/-- A kept word is found by a search for itself. -/
theorem ShowsPolicy.ordered (h : p.ShowsPolicy itemsPerPage) {v r : Bytes} (hv : v ∈ p.kept)
    (hr : r ∈ p.patternSet) (hgone : r ∈ p.willErasePatternSet) : v < r := by
  have hkept := mem_kept.mp hv
  by_cases hempty : v = []
  · rw [hempty] at hkept ⊢
    cases r with
    | nil => exact absurd hgone hkept.2
    | cons b bs => exact List.nil_lt_cons b bs
  · have hsearch := h.search 0 v hempty
    rw [WordListView.applyFilter, if_neg hempty, editedWords, List.filter_append] at hsearch
    have hsame := List.append_cancel_right (Option.some.inj hsearch)
    have hfound : v ∈ (setOrder p.kept).filter (v <:+: ·) :=
      List.mem_filter.mpr ⟨mem_setOrder.mpr hv, decide_eq_true (List.infix_refl v)⟩
    rw [← hsame] at hfound
    exact lt_of_searched (List.mem_filter.mp hfound).1 hr hgone

/-! ## What one step does -/

/-- The events behind which a view is wrong: removing a word of the base set that a kept word stands
    behind; editing a word that is marked as removed, or editing onto a kept word; and whatever
    makes more words than an `int` can count on pages. -/
def Misleads (text trimmed : Bytes → Bytes) (itemsPerPage : PageSize) (p : PolicyPage)
    (e : PageEvent) : Prop :=
  intMax < (p.handle text trimmed e).words.card + itemsPerPage.val ∨
    match e with
    | .remove w => w ∈ p.patternSet ∧ ∃ v ∈ p.kept, w < v
    | .edit old new =>
      (new ≠ [] ∧ old ≠ [] ∧ old ≠ new) ∧
        (old ∈ p.patternSet ∧ old ∈ p.willErasePatternSet ∨ new ∈ p.kept)
    | _ => False

variable (text trimmed : Bytes → Bytes)

theorem edit_effective {old new : Bytes} (h : new ≠ [] ∧ old ≠ [] ∧ old ≠ new) :
    (p.editListItem ⟨new, old⟩).1.patternSet = p.patternSet.erase old ∧
    (p.editListItem ⟨new, old⟩).1.willErasePatternSet = p.willErasePatternSet ∧
    (p.editListItem ⟨new, old⟩).1.newInsertedPatternSet =
      insert new (if old ∈ p.patternSet then p.newInsertedPatternSet
        else p.newInsertedPatternSet.erase old) := by
  unfold editListItem
  dsimp only
  rw [if_neg h.1, if_neg (not_or.mpr h.2)]
  split
  · exact ⟨rfl, rfl, rfl⟩
  · rename_i hout
    exact ⟨(Finset.erase_eq_of_notMem hout).symm, rfl, rfl⟩

theorem edit_idle {old new : Bytes} (h : ¬(new ≠ [] ∧ old ≠ [] ∧ old ≠ new)) :
    (p.editListItem ⟨new, old⟩).1.patternSet = p.patternSet ∧
    (p.editListItem ⟨new, old⟩).1.willErasePatternSet = p.willErasePatternSet ∧
    (p.editListItem ⟨new, old⟩).1.newInsertedPatternSet = p.newInsertedPatternSet := by
  unfold editListItem
  dsimp only
  split_ifs with hnew hold
  · exact ⟨rfl, rfl, rfl⟩
  · exact ⟨rfl, rfl, rfl⟩
  · exact absurd ⟨hnew, not_or.mp hold⟩ h
  · exact absurd ⟨hnew, not_or.mp hold⟩ h

/-- Read word by word. -/
theorem sound_iff : p.Sound itemsPerPage ↔
    (∀ r ∈ p.willErasePatternSet, r ∈ p.patternSet) ∧
    (∀ v ∈ p.kept, v ∉ p.newInsertedPatternSet) ∧
    (∀ v ∈ p.kept, ∀ r ∈ p.willErasePatternSet, v < r) ∧
    p.words.card + itemsPerPage.val ≤ intMax :=
  ⟨fun h => ⟨h.erased, fun _ hv => Finset.disjoint_left.mp h.apart hv, h.ordered, h.room⟩,
    fun h => ⟨h.1, Finset.disjoint_left.mpr h.2.1, h.2.2.1, h.2.2.2⟩⟩

/-- If no word is marked as removed, only the new words matter. -/
theorem sound_of_none_erased (hnone : p.willErasePatternSet = ∅)
    (hnew : ∀ v ∈ p.patternSet, v ∉ p.newInsertedPatternSet)
    (hroom : p.words.card + itemsPerPage.val ≤ intMax) : p.Sound itemsPerPage := by
  refine sound_iff.mpr ⟨?_, fun v hv => hnew v (mem_kept.mp hv).1, ?_, hroom⟩
  · rw [hnone]
    exact fun r hr => absurd hr (Finset.notMem_empty r)
  · rw [hnone]
    exact fun _ _ r hr => absurd hr (Finset.notMem_empty r)

theorem Sound.add (h : p.Sound itemsPerPage) (w : Bytes)
    (hroom : (p.addButtonClicked text w).words.card + itemsPerPage.val ≤ intMax) :
    (p.addButtonClicked text w).Sound itemsPerPage := by
  unfold addButtonClicked at hroom ⊢
  split_ifs at hroom ⊢ with hempty hin
  · exact h
  · exact h
  · obtain ⟨herased, hapart, hordered, -⟩ := sound_iff.mp h
    refine sound_iff.mpr ⟨herased, fun v hv => ?_, hordered, hroom⟩
    have hne : v ≠ w := fun heq => hin (.inl (heq ▸ (mem_kept.mp hv).1))
    show v ∉ insert w p.newInsertedPatternSet
    rw [Finset.mem_insert, not_or]
    exact ⟨hne, hapart v hv⟩

theorem lt_of_ne_of_not_lt {v w : Bytes} (hne : v ≠ w) (hnot : ¬w < v) : v < w := by
  by_contra hge
  exact hne (List.le_antisymm hnot hge)

/-- Removing the last of the kept words, or a new word. -/
theorem Sound.remove (h : p.Sound itemsPerPage) {w : Bytes}
    (hlast : ¬(w ∈ p.patternSet ∧ ∃ v ∈ p.kept, w < v))
    (hroom : (p.prohibitedWordRemoveButtonClicked text w).words.card + itemsPerPage.val ≤ intMax) :
    (p.prohibitedWordRemoveButtonClicked text w).Sound itemsPerPage := by
  unfold prohibitedWordRemoveButtonClicked at hroom ⊢
  obtain ⟨herased, hapart, hordered, -⟩ := sound_iff.mp h
  split_ifs at hroom ⊢ with hbase hwaits
  · have hfewer : ∀ v ∈ p.patternSet \ insert w p.willErasePatternSet, v ∈ p.kept ∧ v ≠ w := by
      intro v hv
      obtain ⟨hvset, hvkept⟩ := Finset.mem_sdiff.mp hv
      rw [Finset.mem_insert, not_or] at hvkept
      exact ⟨mem_kept.mpr ⟨hvset, hvkept.2⟩, hvkept.1⟩
    refine sound_iff.mpr ⟨?_, fun v hv => hapart v (hfewer v hv).1, fun v hv => ?_, hroom⟩
    · exact (Finset.forall_mem_insert _ _ _).mpr ⟨hbase, herased⟩
    · obtain ⟨hvkept, hne⟩ := hfewer v hv
      have hlt := lt_of_ne_of_not_lt hne fun hwv => hlast ⟨hbase, v, hvkept, hwv⟩
      exact (Finset.forall_mem_insert _ _ _).mpr ⟨hlt, hordered v hvkept⟩
  · refine sound_iff.mpr ⟨herased, fun v hv hnew => ?_, hordered, hroom⟩
    exact hapart v hv (Finset.mem_of_mem_erase hnew)
  · exact ⟨h.erased, h.apart, h.ordered, hroom⟩

/-- Editing a word that is not marked as removed, and not onto a kept one. -/
theorem Sound.edit (h : p.Sound itemsPerPage) {old new : Bytes}
    (hok : ¬((new ≠ [] ∧ old ≠ [] ∧ old ≠ new) ∧
      (old ∈ p.patternSet ∧ old ∈ p.willErasePatternSet ∨ new ∈ p.kept)))
    (hroom : (p.editListItem ⟨new, old⟩).1.words.card + itemsPerPage.val ≤ intMax) :
    (p.editListItem ⟨new, old⟩).1.Sound itemsPerPage := by
  obtain ⟨herased, hapart, hordered, -⟩ := sound_iff.mp h
  by_cases heffective : new ≠ [] ∧ old ≠ [] ∧ old ≠ new
  · obtain ⟨hset, herase, hnew⟩ := @edit_effective p old new heffective
    obtain ⟨hmarked, honto⟩ := not_or.mp fun hbad => hok ⟨heffective, hbad⟩
    have hfewer : ∀ v ∈ (p.editListItem ⟨new, old⟩).1.kept, v ∈ p.kept := by
      intro v hv
      rw [mem_kept, hset, herase] at hv
      exact mem_kept.mpr ⟨Finset.mem_of_mem_erase hv.1, hv.2⟩
    refine sound_iff.mpr ⟨?_, ?_, ?_, hroom⟩
    · rw [hset, herase]
      intro r hr
      have hne : r ≠ old := fun heq => hmarked (heq ▸ ⟨herased r hr, hr⟩)
      exact Finset.mem_erase.mpr ⟨hne, herased r hr⟩
    · intro v hv
      have hvkept := hfewer v hv
      rw [hnew, Finset.mem_insert, not_or]
      refine ⟨fun heq => honto (heq ▸ hvkept), fun hin => hapart v hvkept ?_⟩
      split at hin
      · exact hin
      · exact Finset.mem_of_mem_erase hin
    · rw [herase]
      exact fun v hv => hordered v (hfewer v hv)
  · obtain ⟨hset, herase, hnew⟩ := @edit_idle p old new heffective
    refine sound_iff.mpr ⟨?_, ?_, ?_, hroom⟩
    · rwa [hset, herase]
    · rwa [kept, hset, herase, hnew]
    · rwa [kept, hset, herase]

/-- A step that does not mislead keeps the page sound. -/
theorem Sound.handle (h : p.Sound itemsPerPage) {e : PageEvent}
    (he : ¬p.Misleads text trimmed itemsPerPage e) :
    (p.handle text trimmed e).Sound itemsPerPage := by
  obtain ⟨hroom, hok⟩ := not_or.mp he
  rw [Nat.not_lt] at hroom
  cases e with
  | load content =>
    exact sound_of_none_erased rfl (fun v _ => Finset.notMem_empty v) hroom
  | add input => exact h.add text (trimmed input) hroom
  | remove w => exact h.remove text hok hroom
  | edit old new => exact h.edit hok hroom
  | undo => exact sound_of_none_erased rfl (fun v _ => Finset.notMem_empty v) hroom
  | build =>
    refine sound_of_none_erased rfl (fun v _ hnew => ?_) hroom
    obtain ⟨hwaits, hkept⟩ := Finset.mem_inter.mp hnew
    exact Finset.disjoint_left.mp h.apart hkept hwaits
  | refresh => exact ⟨h.erased, h.apart, h.ordered, h.room⟩

/-- The search stops in front of a kept word. -/
theorem not_showsPolicy_remove {w : Bytes} (hw : w ∈ p.patternSet) (hbehind : ∃ v ∈ p.kept, w < v) :
    ¬(p.prohibitedWordRemoveButtonClicked text w).ShowsPolicy itemsPerPage := by
  intro hshows
  obtain ⟨v, hv, hlt⟩ := hbehind
  obtain ⟨hvset, hvkept⟩ := mem_kept.mp hv
  unfold prohibitedWordRemoveButtonClicked at hshows
  rw [if_pos hw] at hshows
  have hne : v ≠ w := fun heq => List.lt_irrefl w (heq ▸ hlt)
  have hvout : v ∉ insert w p.willErasePatternSet :=
    Finset.mem_insert.not.mpr (not_or.mpr ⟨hne, hvkept⟩)
  have hback : v < w := hshows.ordered (mem_kept.mpr ⟨hvset, hvout⟩) hw
    (Finset.mem_insert_self w p.willErasePatternSet)
  exact List.lt_irrefl w (List.lt_trans hlt hback)

/-- One word too few is counted, or one word is listed twice. -/
theorem Sound.not_showsPolicy_edit (h : p.Sound itemsPerPage) {old new : Bytes}
    (heffective : new ≠ [] ∧ old ≠ [] ∧ old ≠ new)
    (hbad : old ∈ p.patternSet ∧ old ∈ p.willErasePatternSet ∨ new ∈ p.kept) :
    ¬(p.editListItem ⟨new, old⟩).1.ShowsPolicy itemsPerPage := by
  intro hshows
  obtain ⟨hset, herase, hnew⟩ := @edit_effective p old new heffective
  rcases hbad with hmarked | honto
  · have hone : p.willErasePatternSet \ p.patternSet.erase old = {old} := by
      rw [Finset.sdiff_erase hmarked.2, Finset.sdiff_eq_empty_iff_subset.mpr h.erased]
      rfl
    have hcount := hshows.erased
    rw [hset, herase, hone, Finset.card_singleton] at hcount
    omega
  · obtain ⟨honset, honkept⟩ := mem_kept.mp honto
    have hkept : new ∈ (p.editListItem ⟨new, old⟩).1.kept := by
      rw [mem_kept, hset, herase]
      exact ⟨Finset.mem_erase.mpr ⟨heffective.2.2.symm, honset⟩, honkept⟩
    have hwaits : new ∈ (p.editListItem ⟨new, old⟩).1.newInsertedPatternSet := by
      rw [hnew]
      exact Finset.mem_insert_self _ _
    exact Finset.disjoint_left.mp (editedWords_nodup_iff.mp hshows.once) hkept hwaits

/-- Behind a step that misleads some view is wrong. -/
theorem Sound.not_showsPolicy (h : p.Sound itemsPerPage) {e : PageEvent}
    (he : p.Misleads text trimmed itemsPerPage e) :
    ¬(p.handle text trimmed e).ShowsPolicy itemsPerPage := by
  rcases he with hcrowded | hbad
  · exact fun hshows => Nat.not_lt.mpr hshows.room hcrowded
  · cases e with
    | remove w => exact not_showsPolicy_remove text hbad.1 hbad.2
    | edit old new => exact h.not_showsPolicy_edit hbad.1 hbad.2
    | load content => exact hbad.elim
    | add input => exact hbad.elim
    | undo => exact hbad.elim
    | build => exact hbad.elim
    | refresh => exact hbad.elim

end PolicyPage

/-! ## Whole sessions -/

/-- For every page size and every session: the views show the edited policy in every state on the
    way exactly when no step misleads. -/
theorem sessions_showPolicy_iff (text trimmed : Bytes → Bytes) (itemsPerPage : PageSize)
    (events : List PageEvent) :
    (∀ pre p, pre <+: events → run (PolicyPage.step text trimmed) .start pre = some p →
        p.ShowsPolicy itemsPerPage) ↔
      Along (PolicyPage.step text trimmed)
        (fun p e => ¬p.Misleads text trimmed itemsPerPage e) .start events := by
  refine along_iff_reached (I := fun p : PolicyPage => p.Sound itemsPerPage) ?_
    (fun _ h => h.showsPolicy) ?_ ?_
  · intro p e p' h hok hstep
    obtain rfl := Option.some.inj hstep
    exact h.handle text trimmed hok
  · intro p e h hbad
    exact ⟨_, rfl, h.not_showsPolicy text trimmed hbad⟩
  · have hroom : PolicyPage.start.words.card + itemsPerPage.val ≤ intMax := by
      rw [show PolicyPage.start.words.card = 0 from rfl, Nat.zero_add]
      exact itemsPerPage.isInt
    exact PolicyPage.sound_of_none_erased rfl (fun v hv => absurd hv (Finset.notMem_empty v)) hroom

/-- The default number of items. -/
def fiftyItems : PageSize := ⟨50, by decide, by decide⟩

/-- "a" and "b" are loaded, and "a" is removed. -/
def loadAndRemove : List PageEvent := [.load [0x61, 0x0a, 0x62, 0x0a], .remove [0x61]]

/-- The search for "b" lists nothing. -/
theorem search_stops : ∃ p,
    run (PolicyPage.step id (trim isBlank)) .start loadAndRemove = some p ∧
      p.words = {[0x62]} ∧
      WordListView.applyFilter p fiftyItems 0 [0x62] = some [] ∧ ¬p.ShowsPolicy fiftyItems := by
  have hsets : (run (PolicyPage.step id (trim isBlank)) .start loadAndRemove).map
      (fun p => (p.patternSet, p.newInsertedPatternSet, p.willErasePatternSet)) =
        some ({[0x61], [0x62]}, ∅, {[0x61]}) := by decide +kernel
  obtain ⟨p, hp, hpage⟩ := Option.map_eq_some_iff.mp hsets
  simp only [Prod.mk.injEq] at hpage
  obtain ⟨hset, hnew, herase⟩ := hpage
  have horder : setOrder {[0x61], [0x62]} = [[0x61], [0x62]] := by
    rw [setOrder, Finset.sort_insert _ (by decide) (by decide), Finset.sort_singleton]
  have hsearch : WordListView.applyFilter p fiftyItems 0 [0x62] = some [] := by
    rw [WordListView.applyFilter, if_neg (by decide), hset, hnew, herase, horder, setOrder,
      Finset.sort_empty]
    decide
  have hwords : p.words = {[0x62]} := by
    rw [PolicyPage.words, PolicyPage.kept, hset, hnew, herase]
    decide
  refine ⟨p, hp, hwords, hsearch, fun hshows => ?_⟩
  have hkept : [0x62] ∈ p.kept := by
    rw [PolicyPage.mem_kept, hset, herase]
    decide
  have hlt := hshows.ordered hkept (r := [0x61]) (by rw [hset]; decide) (by rw [herase]; decide)
  exact absurd hlt (by decide)

end CdsGuard.Gateway
