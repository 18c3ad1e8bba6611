import CdsGuard.DoubleArray.Evasion
import CdsGuard.Gateway.CharRanges
import CdsGuard.Gateway.LabelingSpans
import CdsGuard.Gateway.MatchBounds
import CdsGuard.Gateway.WorkerLoop
import Mathlib.Data.FinEnum

/-
  What filtering leaves of a text: the ranges of the regular expression, of the keyword trie and of
  the analysis service are put one behind the other, and `censor` writes `*` over all of them.

  A range begins and ends between two characters, whichever of the three it comes from, so every
  character is kept or becomes as many `*` as it has bytes.

  Proved: in what is left no category of the policy matches and no pattern without `*` occurs, and
  filtering it again finds nothing (`censored_is_clean`).
-/

namespace CdsGuard.Gateway

open CdsGuard.Lib CdsGuard.Lib.Regex CdsGuard.DoubleArray

/-! ## The matches of a string -/

/-- A key of a JSON object: it is absent, has a value that does not convert, or has a value. -/
inductive JsonField (α : Type) where
  | absent
  | other
  | is (a : α)

/-- `json::value`; `none` is its exception. -/
def JsonField.value {α : Type} (default : α) : JsonField α → Option α
  | absent => some default
  | other => none
  | is a => some a

def JsonField.contains {α : Type} : JsonField α → Bool
  | absent => false
  | _ => true

/-- An item of the array that the service sends; `stop` is its key `end`. -/
structure DlItem where
  isObject : Bool
  score : JsonField Rat
  start : JsonField UInt64
  stop : JsonField UInt64

/-- One round of the loop over the items: what it adds, or its exception. -/
def DlItem.charInfo (item : DlItem) : Option (Option MatchedInfo) :=
  if !item.isObject then some none
  else do
    let score ← item.score.value 0
    if score < 1 / 2 then return none
    else if !item.start.contains || !item.stop.contains then return none
    else
      let start ← item.start.value 0
      let stop ← item.stop.value 0
      if start < stop then return some (charResult start.toNat stop.toNat) else return none

/-- The loop over the items. -/
def charResults : List DlItem → Option (List MatchedInfo)
  | [] => some []
  | item :: items => do
    let charInfo ← item.charInfo
    let results ← charResults items
    return charInfo.toList ++ results

/-- `get_string_matched_info_by_dl`. No response is one that is empty or no JSON array, or an
    exception on the way to it, as `dump` throws one for an input that is no UTF-8. -/
def getStringMatchedInfoByDl (rounds : Nat) (response : Option (List DlItem)) (input : Bytes) :
    Option (List MatchedInfo) :=
  match response.bind charResults with
  | none => some []
  | some results => convertCharToByteIndices rounds input results

/-- What a worker finds in a string; the last two steps of the task do not matter here. -/
def matchedInfo (cs : List CdsRegex) (d : DoubleArrayTrie) (ignoreCase : Bool) (rounds : Nat)
    (deepLearning : Bool) (response : Option (List DlItem)) (input : Bytes) :
    Option (List MatchedInfo) :=
  Workers.StringTask.getMatchedInfo
    { byRule := getStringMatchedInfoByRule (buildRegex cs) d ignoreCase input
      deepLearning
      byDl := getStringMatchedInfoByDl rounds response input
      log := some ()
      censor := some () }

/-! ## What `censor` writes -/

/-- A byte is in one of the ranges. -/
abbrev InRanges (infos : List MatchedInfo) (i : Nat) : Prop := DoubleArray.Covers infos i

instance (infos : List MatchedInfo) (i : Nat) : Decidable (InRanges infos i) :=
  inferInstanceAs (Decidable (∃ m ∈ infos, m.index ≤ i ∧ i < m.index + m.size))

theorem inRanges_append {xs ys : List MatchedInfo} {i : Nat} :
    InRanges (xs ++ ys) i ↔ InRanges xs i ∨ InRanges ys i :=
  DoubleArray.covers_append

/-- `*` over what is covered, the first byte being at `pos`. -/
def maskFrom (covered : Nat → Prop) [DecidablePred covered] : Nat → Bytes → Bytes
  | _, [] => []
  | pos, b :: bs => (if covered pos then 0x2a else b) :: maskFrom covered (pos + 1) bs

section

variable {covered : Nat → Prop} [DecidablePred covered]

theorem maskFrom_append (pos : Nat) (bs bs' : Bytes) :
    maskFrom covered pos (bs ++ bs') =
      maskFrom covered pos bs ++ maskFrom covered (pos + bs.length) bs' := by
  induction bs generalizing pos with
  | nil => rfl
  | cons b bs ih =>
    rw [List.cons_append, maskFrom, maskFrom, ih, List.cons_append, List.length_cons,
      Nat.add_right_comm pos 1, Nat.add_assoc pos]

theorem getElem?_maskFrom (pos : Nat) (bs : Bytes) (i : Nat) :
    (maskFrom covered pos bs)[i]? = bs[i]?.map fun b => if covered (pos + i) then 0x2a else b := by
  induction bs generalizing pos i with
  | nil => rfl
  | cons b bs ih =>
    cases i with
    | zero => rfl
    | succ i =>
      rw [maskFrom, List.getElem?_cons_succ, List.getElem?_cons_succ, ih, Nat.add_right_comm,
        Nat.add_assoc]

end

theorem getElem?_writes (base : Nat) (n : Nat) (data : Bytes) (i : Nat) :
    ((List.range n).foldl (fun d k => d.set (base + k) 0x2a) data)[i]? =
      data[i]?.map fun b => if base ≤ i ∧ i < base + n then 0x2a else b := by
  induction n with
  | zero =>
    have hnot : ¬(base ≤ i ∧ i < base + 0) := by omega
    simp only [List.range_zero, List.foldl_nil, if_neg hnot, Option.map_id']
  | succ n ih =>
    rw [List.range_succ, List.foldl_append, List.foldl_cons, List.foldl_nil, List.getElem?_set, ih]
    by_cases hi : base + n = i
    · subst hi
      have hin : base ≤ base + n ∧ base + n < base + (n + 1) := by omega
      rw [if_pos rfl, writes_length]
      by_cases hlt : base + n < data.length
      · rw [if_pos hlt, List.getElem?_eq_getElem hlt, Option.map_some, if_pos hin]
      · rw [if_neg hlt, List.getElem?_eq_none (Nat.not_lt.mp hlt)]
        rfl
    · have hiff : base ≤ i ∧ i < base + (n + 1) ↔ base ≤ i ∧ i < base + n := by omega
      simp only [if_neg hi, hiff]

/-- `censor` writes over what the ranges cover and keeps the rest. -/
theorem censor_eq_maskFrom (infos : List MatchedInfo) (data : Bytes) :
    censor data infos = maskFrom (InRanges infos) 0 data := by
  apply List.ext_getElem?
  intro i
  rw [getElem?_maskFrom, Nat.zero_add]
  unfold censor
  induction infos generalizing data with
  | nil =>
    have hnot : ¬InRanges [] i := by simp [InRanges, DoubleArray.Covers]
    simp only [List.foldl_nil, if_neg hnot, Option.map_id']
  | cons m infos ih =>
    have hcons : InRanges (m :: infos) i ↔
        (m.index ≤ i ∧ i < m.index + m.size) ∨ InRanges infos i :=
      (@inRanges_append [m] infos i).trans (or_congr_left DoubleArray.covers_singleton)
    rw [List.foldl_cons, ih, getElem?_writes, Option.map_map]
    congr 1
    funext b
    rw [Function.comp_apply]
    by_cases hrest : InRanges infos i
    · rw [if_pos hrest, if_pos (hcons.mpr (.inr hrest))]
    · rw [if_neg hrest]
      exact if_congr (hcons.trans (or_iff_left hrest)).symm rfl rfl

/-! ## Between characters -/

/-- The byte is where a character of the text begins, or the text ends. -/
def Boundary (text : List Char) (k : Nat) : Prop := ∃ a b, text = a ++ b ∧ (utf8 a).length = k

/-- What is covered is made of whole characters. -/
def Whole (text : List Char) (covered : Nat → Prop) : Prop :=
  ∀ before c after, text = before ++ c :: after → ∀ i, (utf8 before).length ≤ i →
    i < (utf8 before).length + c.utf8Size → (covered i ↔ covered (utf8 before).length)

theorem utf8_length_mono {a b : List Char} (h : a <+: b) : (utf8 a).length ≤ (utf8 b).length := by
  obtain ⟨c, rfl⟩ := h
  rw [utf8_append, List.length_append]
  exact Nat.le_add_right _ _

/-- No boundary lies inside a character. -/
theorem Boundary.outside {before after : List Char} {c : Char} {k : Nat}
    (h : Boundary (before ++ c :: after) k) :
    k ≤ (utf8 before).length ∨ (utf8 before).length + c.utf8Size ≤ k := by
  obtain ⟨a, b, hsplit, rfl⟩ := h
  have ha : a <+: before ++ c :: after := ⟨b, hsplit.symm⟩
  rcases Nat.lt_or_ge before.length a.length with hlt | hge
  · have hpre : before ++ [c] <+: a := by
      refine List.prefix_of_prefix_length_le ⟨after, by rw [List.append_assoc]; rfl⟩ ha ?_
      rw [List.length_append, List.length_singleton]
      exact hlt
    have hle := utf8_length_mono hpre
    rw [utf8_append, List.length_append, utf8_cons_length] at hle
    exact .inr hle
  · exact .inl (utf8_length_mono
      (List.prefix_of_prefix_length_le ha (List.prefix_append before _) hge))

/-- Ranges between boundaries cover whole characters. -/
theorem whole_of_boundaries {text : List Char} {infos : List MatchedInfo}
    (h : ∀ m ∈ infos, Boundary text m.index ∧ Boundary text (m.index + m.size)) :
    Whole text (InRanges infos) := by
  rintro before c after rfl i hle hlt
  refine exists_congr fun m => and_congr_right fun hm => ?_
  have hstart := (h m hm).1.outside
  have hstop := (h m hm).2.outside
  have hpos := c.utf8Size_pos
  omega

theorem Whole.of_append {text : List Char} {xs ys : List MatchedInfo}
    (hx : Whole text (InRanges xs)) (hy : Whole text (InRanges ys)) :
    Whole text (InRanges (xs ++ ys)) := by
  intro before c after hsplit i hle hlt
  rw [inRanges_append, inRanges_append]
  exact or_congr (hx before c after hsplit i hle hlt) (hy before c after hsplit i hle hlt)

/-- The occurrences of patterns are made of whole characters. -/
theorem whole_occurrence {ignoreCase : Bool} {ps : List (List Char)} {text : List Char} :
    Whole text (InOccurrence ignoreCase ps text) := by
  intro before c after hsplit i hle hlt
  unfold InOccurrence
  refine exists_congr fun pre => exists_congr fun m => exists_congr fun post =>
    exists_congr fun p => and_congr_right fun hocc => and_congr_right fun _ =>
      and_congr_right fun _ => and_congr_right fun _ => ?_
  have hstart : Boundary (before ++ c :: after) (utf8 pre).length :=
    ⟨pre, m ++ post, by rw [← hsplit, hocc, List.append_assoc], rfl⟩
  have hstop : Boundary (before ++ c :: after) ((utf8 pre).length + (utf8 m).length) :=
    ⟨pre ++ m, post, by rw [← hsplit, hocc], by rw [utf8_append, List.length_append]⟩
  have hstart := hstart.outside
  have hstop := hstop.outside
  have hpos := c.utf8Size_pos
  omega

/-! ## Censored characters -/

/-- A character that is covered becomes as many `*` as it has bytes; the first character is at
    byte `pos`. -/
def starred (covered : Nat → Prop) [DecidablePred covered] : Nat → List Char → List Char
  | _, [] => []
  | pos, c :: cs =>
    (if covered pos then List.replicate c.utf8Size '*' else [c]) ++
      starred covered (pos + c.utf8Size) cs

section

variable {covered : Nat → Prop} [DecidablePred covered]

theorem maskFrom_of_covered {pos : Nat} {bs : Bytes}
    (h : ∀ i, pos ≤ i → i < pos + bs.length → covered i) :
    maskFrom covered pos bs = List.replicate bs.length 0x2a := by
  induction bs generalizing pos with
  | nil => rfl
  | cons b bs ih =>
    rw [List.length_cons] at h
    rw [maskFrom, if_pos (h pos (Nat.le_refl _) (by omega)),
      ih fun i hle hlt => h i (by omega) (by omega)]
    rfl

theorem maskFrom_of_not {pos : Nat} {bs : Bytes}
    (h : ∀ i, pos ≤ i → i < pos + bs.length → ¬covered i) : maskFrom covered pos bs = bs := by
  induction bs generalizing pos with
  | nil => rfl
  | cons b bs ih =>
    rw [List.length_cons] at h
    rw [maskFrom, if_neg (h pos (Nat.le_refl _) (by omega)),
      ih fun i hle hlt => h i (by omega) (by omega)]

theorem utf8_stars (n : Nat) : utf8 (List.replicate n '*') = List.replicate n 0x2a := by
  induction n with
  | zero => rfl
  | succ n ih =>
    rw [List.replicate_succ, utf8_cons, ih, List.replicate_succ]
    rfl

/-- Of a valid text, whole characters covered, a valid text is left. -/
theorem maskFrom_utf8 (before : List Char) {rest : List Char}
    (h : Whole (before ++ rest) covered) :
    maskFrom covered (utf8 before).length (utf8 rest) =
      utf8 (starred covered (utf8 before).length rest) := by
  induction rest generalizing before with
  | nil => rfl
  | cons c rest ih =>
    have hlen : (utf8 before).length + c.utf8Size = (utf8 (before ++ [c])).length := by
      rw [utf8_append, List.length_append, utf8_cons_length]
      rfl
    rw [utf8_cons, maskFrom_append, starred, utf8_append, String.length_utf8EncodeChar, hlen,
      ih (before ++ [c]) (by rwa [List.append_assoc])]
    congr 1
    by_cases hc : covered (utf8 before).length
    · rw [if_pos hc, utf8_stars, maskFrom_of_covered, String.length_utf8EncodeChar]
      intro i hle hlt
      rw [String.length_utf8EncodeChar] at hlt
      exact (h before c rest rfl i hle hlt).mpr hc
    · rw [if_neg hc, maskFrom_of_not]
      · exact (List.append_nil _).symm
      · intro i hle hlt
        rw [String.length_utf8EncodeChar] at hlt
        exact fun hi => hc ((h before c rest rfl i hle hlt).mp hi)

/-- What `censor` leaves of a text. -/
theorem censor_utf8 {text : List Char} {infos : List MatchedInfo}
    (h : Whole text (InRanges infos)) :
    censor (utf8 text) infos = utf8 (starred (InRanges infos) 0 text) := by
  rw [censor_eq_maskFrom]
  exact maskFrom_utf8 [] h

/-- A stretch without `*` at the front of what is left stands at the front of the text. -/
theorem prefix_of_starred {pos : Nat} {text m post : List Char}
    (h : starred covered pos text = m ++ post) (hstar : '*' ∉ m) : m <+: text := by
  induction m generalizing pos text with
  | nil => exact List.nil_prefix
  | cons e m ih =>
    cases text with
    | nil => exact absurd h (by simp [starred])
    | cons c text =>
      rw [starred] at h
      obtain ⟨n, hn⟩ : ∃ n, c.utf8Size = n + 1 := ⟨c.utf8Size - 1, by have := c.utf8Size_pos; omega⟩
      split at h
      · rw [hn, List.replicate_succ] at h
        obtain ⟨rfl, -⟩ := List.cons_eq_cons.mp h
        exact absurd List.mem_cons_self hstar
      · obtain ⟨rfl, htail⟩ := List.cons_eq_cons.mp h
        exact List.cons_prefix_cons.mpr
          ⟨rfl, ih htail fun hmem => hstar (List.mem_cons_of_mem _ hmem)⟩

/-- A stretch without `*` of what is left stands in the text, at the same byte, and is not
    covered. -/
theorem exists_of_starred {pos : Nat} {text pre m post : List Char}
    (h : starred covered pos text = pre ++ (m ++ post)) (hne : m ≠ []) (hstar : '*' ∉ m) :
    ∃ a b, text = a ++ m ++ b ∧ (utf8 a).length = (utf8 pre).length ∧
      ¬covered (pos + (utf8 pre).length) := by
  induction text generalizing pos pre with
  | nil =>
    rw [starred, eq_comm, List.append_eq_nil_iff, List.append_eq_nil_iff] at h
    exact absurd h.2.1 hne
  | cons c text ih =>
    by_cases hc : covered pos
    · rw [starred, if_pos hc] at h
      -- the stretch begins behind the stars
      have hpre : List.replicate c.utf8Size '*' <+: pre := by
        refine List.prefix_of_prefix_length_le ⟨_, h⟩ (List.prefix_append pre _) ?_
        rw [List.length_replicate]
        by_contra hlt
        have hget := congrArg (fun l => l[pre.length]?) h
        obtain ⟨e, m', rfl⟩ := List.exists_cons_of_ne_nil hne
        simp only [List.getElem?_append_right (Nat.le_refl _), Nat.sub_self] at hget
        rw [List.getElem?_append_left (by rw [List.length_replicate]; omega),
          List.getElem?_replicate_of_lt (by omega)] at hget
        obtain rfl := Option.some.inj hget
        exact hstar List.mem_cons_self
      obtain ⟨pre, rfl⟩ := hpre
      rw [List.append_assoc] at h
      obtain ⟨a, b, hsplit, hlen, hnot⟩ := ih (List.append_cancel_left h)
      have hstars : (utf8 (List.replicate c.utf8Size '*' ++ pre)).length =
          c.utf8Size + (utf8 pre).length := by
        rw [utf8_append, List.length_append, utf8_stars, List.length_replicate]
      refine ⟨c :: a, b, by rw [hsplit]; rfl, by rw [utf8_cons_length, hlen, hstars], ?_⟩
      rwa [hstars, ← Nat.add_assoc]
    · cases pre with
      | nil =>
        obtain ⟨b, hb⟩ := prefix_of_starred (m := m) h hstar
        exact ⟨[], b, hb.symm, rfl, hc⟩
      | cons e pre =>
        rw [starred, if_neg hc] at h
        obtain ⟨rfl, htail⟩ := List.cons_eq_cons.mp h
        obtain ⟨a, b, hsplit, hlen, hnot⟩ := ih htail
        refine ⟨c :: a, b, by rw [hsplit]; rfl,
          by rw [utf8_cons_length, utf8_cons_length, hlen], ?_⟩
        rwa [utf8_cons_length, ← Nat.add_assoc]

end

/-! ## The ranges of the regular expression -/

/-- The rest of the text from a boundary on. -/
def RestOf (text : List Char) (s : Bytes) : Prop := ∃ a b, text = a ++ b ∧ s = utf8 b

theorem RestOf.boundary {text : List Char} {s : Bytes} {offset : Nat} (h : RestOf text s)
    (hoffset : offset + s.length = (utf8 text).length) : Boundary text offset := by
  obtain ⟨a, b, rfl, rfl⟩ := h
  rw [utf8_append, List.length_append] at hoffset
  exact ⟨a, b, rfl, by omega⟩

/-- A character has one byte, below `0x80`, or all its bytes are above. -/
theorem encode_ascii_or (c : Char) :
    (∃ b, String.utf8EncodeChar c = [b]) ∨ ∀ b ∈ String.utf8EncodeChar c, ¬b < 0x80 := by
  have hhigh : ∀ n k, 0x80 ≤ k → n + k < 256 → ¬UInt8.ofNat (n + k) < 0x80 := by
    intro n k hk hlt
    rw [UInt8.lt_iff_toNat_lt, UInt8.toNat_ofNat_of_lt' hlt]
    exact Nat.not_lt.mpr (hk.trans (Nat.le_add_left k n))
  unfold String.utf8EncodeChar
  dsimp only
  split
  · exact .inl ⟨_, rfl⟩
  · refine .inr ?_
    split
    · simp only [List.mem_cons, List.not_mem_nil, or_false, forall_eq_or_imp, forall_eq]
      exact ⟨hhigh _ _ (by omega) (by omega), hhigh _ _ (by omega) (by omega)⟩
    · split
      · simp only [List.mem_cons, List.not_mem_nil, or_false, forall_eq_or_imp, forall_eq]
        exact ⟨hhigh _ _ (by omega) (by omega), hhigh _ _ (by omega) (by omega),
          hhigh _ _ (by omega) (by omega)⟩
      · simp only [List.mem_cons, List.not_mem_nil, or_false, forall_eq_or_imp, forall_eq]
        exact ⟨hhigh _ _ (by omega) (by omega), hhigh _ _ (by omega) (by omega),
          hhigh _ _ (by omega) (by omega), hhigh _ _ (by omega) (by omega)⟩

/-- Behind a byte of one, the next character begins. -/
theorem RestOf.tail {text : List Char} {b : UInt8} {s : Bytes} (hb : b < 0x80)
    (h : RestOf text (b :: s)) : RestOf text s := by
  obtain ⟨a, cs, rfl, hcs⟩ := h
  cases cs with
  | nil => exact absurd hcs (by simp [utf8])
  | cons c cs =>
    rw [utf8_cons] at hcs
    rcases encode_ascii_or c with ⟨e, he⟩ | hhigh
    · rw [he] at hcs
      exact ⟨a ++ [c], cs, by rw [List.append_assoc]; rfl, (List.cons_eq_cons.mp hcs).2⟩
    · obtain ⟨e, es, he⟩ := List.exists_cons_of_ne_nil
        (List.ne_nil_of_length_pos (by rw [String.length_utf8EncodeChar]; exact c.utf8Size_pos) :
          String.utf8EncodeChar c ≠ [])
      rw [he] at hcs hhigh
      obtain ⟨rfl, -⟩ := List.cons_eq_cons.mp hcs
      exact absurd hb (hhigh b List.mem_cons_self)

/-- A byte of one character begins one. -/
theorem RestOf.drop {text : List Char} {s : Bytes} (h : RestOf text s) {i : Nat} {b : UInt8}
    {rest : Bytes} (hdrop : s.drop i = b :: rest) (hb : b < 0x80) : RestOf text (s.drop i) := by
  obtain ⟨a, cs, rfl, rfl⟩ := h
  induction cs generalizing a i with
  | nil => exact absurd hdrop (by simp [utf8])
  | cons c cs ih =>
    rw [utf8_cons] at hdrop ⊢
    rcases Nat.lt_or_ge i c.utf8Size with hlt | hge
    · cases i with
      | zero => exact ⟨a, c :: cs, rfl, rfl⟩
      | succ i =>
        -- only a character of more bytes has a second one
        rw [List.drop_append_of_le_length (by rw [String.length_utf8EncodeChar]; omega)] at hdrop
        have hlen := String.length_utf8EncodeChar c
        rcases encode_ascii_or c with ⟨e, he⟩ | hhigh
        · rw [he, List.length_singleton] at hlen
          omega
        · have hne : (String.utf8EncodeChar c).drop (i + 1) ≠ [] := by
            refine List.ne_nil_of_length_pos ?_
            rw [List.length_drop]
            omega
          obtain ⟨e, es, he⟩ := List.exists_cons_of_ne_nil hne
          rw [he] at hdrop
          obtain ⟨rfl, -⟩ := List.cons_eq_cons.mp hdrop
          exact absurd hb (hhigh e (List.mem_of_mem_drop (he ▸ List.mem_cons_self)))
    · obtain ⟨k, rfl⟩ := Nat.exists_eq_add_of_le hge
      rw [← String.length_utf8EncodeChar c, List.drop_length_add_append] at hdrop ⊢
      have hassoc : a ++ c :: cs = a ++ [c] ++ cs := by rw [List.append_assoc]; rfl
      rw [hassoc]
      exact ih (a ++ [c]) hdrop

theorem isSpace_lt : ∀ b : UInt8, isSpace b = true → b < 0x80 := by
  decide +kernel

/-- The longest run without white space ends between characters. -/
theorem RestOf.dropWhile {text : List Char} {s : Bytes} (h : RestOf text s) :
    RestOf text (s.dropWhile fun b => !isSpace b) := by
  obtain ⟨a, cs, rfl, rfl⟩ := h
  induction cs generalizing a with
  | nil => exact ⟨a, [], rfl, rfl⟩
  | cons c cs ih =>
    have hassoc : a ++ c :: cs = a ++ [c] ++ cs := by rw [List.append_assoc]; rfl
    rw [utf8_cons, hassoc]
    by_cases hall : ∀ b ∈ String.utf8EncodeChar c, isSpace b = false
    · rw [List.dropWhile_append_of_pos fun b hb => by rw [hall b hb]; rfl]
      exact ih (a ++ [c])
    · -- white space is a character of one byte
      simp only [not_forall, Bool.not_eq_false] at hall
      obtain ⟨b, hb, hspace⟩ := hall
      rcases encode_ascii_or c with ⟨e, he⟩ | hhigh
      · rw [he, List.mem_singleton] at hb
        subst hb
        rw [he, List.singleton_append, List.dropWhile_cons_of_neg (by simp [hspace])]
        exact ⟨a, c :: cs, hassoc.symm, by rw [utf8_cons, he]; rfl⟩
      · exact absurd (isSpace_lt b hspace) (hhigh b hb)

/-- A byte that a class at the front of a category takes: one character, and not `*`. -/
def Plain (b : UInt8) : Prop := b < 0x80 ∧ b ≠ 0x2a

instance : DecidablePred Plain := fun b => inferInstanceAs (Decidable (b < 0x80 ∧ b ≠ 0x2a))

theorem category_front_plain (c : CdsRegex) : c.regex.front.TakesOnly Plain := by
  cases c <;> decide +kernel

theorem category_front_minLength_pos (c : CdsRegex) : 0 < c.regex.front.minLength := by
  cases c <;> decide

/-- A match of a category begins with a byte that is one character, and not `*`. -/
theorem exists_plain_of_match {c : CdsRegex} {s : Bytes} (h : c.regex.rests s ≠ []) :
    ∃ b rest, s = b :: rest ∧ Plain b := by
  have hfront : c.regex.front.rests s ≠ [] := fun hnil => h ((rests_front_eq_nil_iff _ s).mp hnil)
  obtain ⟨t, ht⟩ := List.exists_mem_of_ne_nil _ hfront
  obtain ⟨u, rfl, hlen, hplain⟩ := (category_front_plain c).rests ht
  have hpos := category_front_minLength_pos c
  cases u with
  | nil =>
    rw [List.length_nil] at hlen
    omega
  | cons b u => exact ⟨b, u ++ t, rfl, hplain b List.mem_cons_self⟩

theorem keepsFirst_of_ascii {text : List Char} {r : Regex UInt8} (h : r.TakesOnly (· < 0x80)) :
    r.Classes fun p => ∀ a s, p a = true → RestOf text (a :: s) → RestOf text s :=
  Classes.mono (fun _ hp a _ hpa hrest => hrest.tail (hp a hpa)) h

/-- The first match of a category ends between characters. -/
theorem category_keepsFirst (text : List Char) (c : CdsRegex) :
    c.regex.KeepsFirst (RestOf text) := by
  cases c with
  | kUrlRegex =>
    -- the tail of the address takes any byte but white space
    let label := plus (cls fun b => isLetter b || isDigit b || b == code '-')
    have htail : (opt (seqs ([chr '/'] ++ [star (cls fun b => !isSpace b)]))).KeepsFirst
        (RestOf text) := by
      refine KeepsFirst.opt (by decide) (KeepsFirst.seqs _ ?_ (KeepsFirst.star_cls fun s hs =>
        hs.dropWhile))
      intro r hr
      rw [List.mem_singleton.mp hr]
      exact keepsFirst_of_ascii (by decide +kernel)
    have hseqs := KeepsFirst.seqs [literal "http", opt (chr 's'), literal "://",
      plus (seqs [label, chr '.']), atLeast 2 (cls isLetter), opt port] (fun r hr => by
        simp only [List.mem_cons, List.not_mem_nil, or_false] at hr
        rcases hr with rfl | rfl | rfl | rfl | rfl | rfl <;>
          exact keepsFirst_of_ascii (by decide +kernel)) htail
    exact hseqs
  | _ => exact KeepsFirst.of_classes (keepsFirst_of_ascii (by decide +kernel))

/-- One range and the search behind it. -/
theorem searchLoop_boundaries {text : List Char} {regex : Regex UInt8}
    (hfirst : regex.KeepsFirst (RestOf text))
    (hplain : ∀ s, regex.rests s ≠ [] → ∃ b rest, s = b :: rest ∧ Plain b) {rounds offset : Nat}
    {s : Bytes} {infos : List MatchedInfo} (hs : RestOf text s)
    (hoffset : offset + s.length = (utf8 text).length)
    (h : searchLoop regex rounds offset s = some infos) :
    ∀ m ∈ infos, Boundary text m.index ∧ Boundary text (m.index + m.size) := by
  induction rounds generalizing offset s infos with
  | zero => exact absurd h (by simp [searchLoop])
  | succ rounds ih =>
    rw [searchLoop] at h
    cases hsearch : regex.search s with
    | none =>
      rw [hsearch] at h
      cases h
      exact fun m hm => absurd hm List.not_mem_nil
    | some found =>
      obtain ⟨i, rest⟩ := found
      have hhead := search_first hsearch
      have hmem := List.mem_of_head? hhead
      obtain ⟨b, tail, hdrop, hb⟩ := hplain _ (List.ne_nil_of_mem hmem)
      have hbegin : RestOf text (s.drop i) := hs.drop hdrop hb.1
      have hend : RestOf text rest := hfirst _ _ hbegin hhead
      obtain ⟨u, hsplit, -⟩ := regex.rests_spec hmem
      have hlen := congrArg List.length hsplit
      rw [List.length_drop, List.length_append] at hlen
      have hi := (search_spec hsearch).1
      have hlength : s.length - i - rest.length = u.length := by omega
      rw [hsearch] at h
      dsimp only at h
      rw [hlength] at h
      obtain ⟨infos', hloop, rfl⟩ := Option.map_eq_some_iff.mp h
      intro m hm
      obtain rfl | hm := List.mem_cons.mp hm
      · dsimp only
        exact ⟨hbegin.boundary (by rw [List.length_drop]; omega), hend.boundary (by omega)⟩
      · exact ih hend (by omega) hloop m hm

theorem whole_regexSearch {cs : List CdsRegex} {text : List Char} {infos : List MatchedInfo}
    (h : regexSearch (buildRegex cs) (utf8 text) = some infos) : Whole text (InRanges infos) := by
  refine whole_of_boundaries ?_
  cases cs with
  | nil =>
    cases h
    exact fun m hm => absurd hm List.not_mem_nil
  | cons c cs =>
    have hne : c :: cs ≠ [] := List.cons_ne_nil c cs
    rw [regexSearch, if_neg (buildRegex_markCount_ne hne)] at h
    refine searchLoop_boundaries ?_ (fun s hs => ?_) ⟨[], text, rfl, rfl⟩ (Nat.zero_add _) h
    · refine KeepsFirst.alts fun r hr => ?_
      rw [← List.map_cons] at hr
      obtain ⟨d, -, rfl⟩ := List.mem_map.mp hr
      exact category_keepsFirst text d
    · have hmatch : MatchesAt (buildRegex (c :: cs)) s 0 := hs
      obtain ⟨d, -, hd⟩ := (buildRegex_matchesAt_iff hne).mp hmatch
      exact exists_plain_of_match hd

/-! ## The ranges of the analysis service -/

theorem charInfo_some {item : DlItem} {m : MatchedInfo} (h : item.charInfo = some (some m)) :
    ∃ start stop, start < stop ∧ stop < 2 ^ 64 ∧ m = charResult start stop := by
  unfold DlItem.charInfo at h
  split at h
  · cases h
  · obtain ⟨score, -, h⟩ := Option.bind_eq_some_iff.mp h
    split at h
    · cases h
    · split at h
      · cases h
      · obtain ⟨start, -, h⟩ := Option.bind_eq_some_iff.mp h
        obtain ⟨stop, -, h⟩ := Option.bind_eq_some_iff.mp h
        split at h
        · rename_i hlt
          cases h
          exact ⟨start.toNat, stop.toNat, UInt64.lt_iff_toNat_lt.mp hlt, stop.toNat_lt, rfl⟩
        · cases h

theorem charResults_some {items : List DlItem} {results : List MatchedInfo}
    (h : charResults items = some results) :
    ∀ m ∈ results, ∃ start stop, start < stop ∧ stop < 2 ^ 64 ∧ m = charResult start stop := by
  induction items generalizing results with
  | nil =>
    cases h
    exact fun m hm => absurd hm List.not_mem_nil
  | cons item items ih =>
    obtain ⟨charInfo, hitem, h⟩ := Option.bind_eq_some_iff.mp h
    obtain ⟨rest, hrest, h⟩ := Option.bind_eq_some_iff.mp h
    cases h
    intro m hm
    obtain hm | hm := List.mem_append.mp hm
    · rw [Option.mem_toList.mp hm] at hitem
      exact charInfo_some hitem
    · exact ih hrest m hm

/-- On a valid text the search ends, and covers whole characters. -/
theorem getStringMatchedInfoByDl_utf8 {text : List Char} {rounds : Nat}
    (hrounds : text.length < rounds) (response : Option (List DlItem)) :
    ∃ infos, getStringMatchedInfoByDl rounds response (utf8 text) = some infos ∧
      Whole text (InRanges infos) := by
  have hnone : Whole text (InRanges []) := whole_of_boundaries (by simp)
  unfold getStringMatchedInfoByDl
  cases hitems : response.bind charResults with
  | none => exact ⟨[], rfl, hnone⟩
  | some results =>
    obtain ⟨items, -, hresults⟩ := Option.bind_eq_some_iff.mp hitems
    obtain ⟨charMap, hbuild, hlookup⟩ := buildCharToByteMap_utf8 text hrounds
    dsimp only
    unfold convertCharToByteIndices
    split
    · exact ⟨[], rfl, hnone⟩
    · rw [hbuild]
      refine ⟨_, rfl, whole_of_boundaries fun m hm => ?_⟩
      obtain ⟨charInfo, hmem, hrange⟩ := List.mem_filterMap.mp hm
      obtain ⟨start, stop, hlt, hstop, rfl⟩ := charResults_some hresults charInfo hmem
      rw [byteRange_eq hlookup hlt hstop, charRange] at hrange
      obtain ⟨-, hrange⟩ := Option.ite_none_right_eq_some.mp hrange
      obtain rfl := Option.some.inj hrange
      refine ⟨⟨text.take start, text.drop start, (List.take_append_drop _ _).symm, rfl⟩,
        text.take stop, text.drop stop, (List.take_append_drop _ _).symm, ?_⟩
      rw [take_append_charBytes hlt.le, List.length_append]
      rfl

/-! ## What is left -/

/-- The rules that `build` is called with; the patterns are text. -/
structure RuleSet where
  ignoreCase : Bool
  patterns : List (List Char)
  categories : List CdsRegex
  deriving DecidableEq

/-- Neither a category nor a pattern of the policy is found anywhere in the text. -/
structure RuleSet.Clean (P : RuleSet) (text : List Char) : Prop where
  category : ∀ c ∈ P.categories, ∀ p, ¬MatchesAt c.regex (utf8 text) p
  pattern : ∀ i, ¬InOccurrence P.ignoreCase P.patterns text i

/-- The patterns are such that the trie finds them, and have no `*`. -/
structure RuleSet.Sound (order : MapOrder) (fuel : Nat) (P : RuleSet) : Prop
    extends Fit P.ignoreCase P.patterns where
  enough : buildFuel P.patterns ≤ fuel
  layout : cleanBuild order fuel P.ignoreCase (P.patterns.map utf8) = true
  noStar : ∀ p ∈ P.patterns, '*' ∉ p

section

variable {P : RuleSet} {text : List Char} {infos : List MatchedInfo}

/-- No other character has the code of `*`. -/
theorem codeOf_star {ignoreCase : Bool} {c : Char}
    (h : codeOf ignoreCase c = codeOf ignoreCase '*') : c = '*' := by
  have hstar : codeOf ignoreCase '*' = 0x2a := by cases ignoreCase <;> rfl
  rw [hstar, codeOf, charCode_eq] at h
  have hval : c.val.toNat = 0x2a := by split_ifs at h <;> omega
  exact Char.ext (UInt32.toNat_inj.mp hval)

theorem not_mem_of_codes_eq {ignoreCase : Bool} {m p : List Char} (hp : '*' ∉ p)
    (h : codesOf ignoreCase m = codesOf ignoreCase p) : '*' ∉ m := by
  intro hm
  have hmem : codeOf ignoreCase '*' ∈ codesOf ignoreCase p := by
    rw [← h]
    exact List.mem_map_of_mem hm
  obtain ⟨c, hc, hcode⟩ := List.mem_map.mp hmem
  obtain rfl := codeOf_star hcode
  exact hp hc

/-- What is left agrees with the text on plain bytes. -/
theorem maskFrom_agree (covered : Nat → Prop) [DecidablePred covered] (pos : Nat) (bs : Bytes) :
    Agree Plain (maskFrom covered pos bs) bs := by
  induction bs generalizing pos with
  | nil => exact .nil
  | cons b bs ih =>
    refine .cons (fun hplain => ?_) (ih (pos + 1))
    split at hplain
    · exact absurd rfl hplain.2
    · rename_i hnot
      rw [if_neg hnot]

/-- A category that matches what is left matches the text there, and not at a covered byte. -/
theorem matchesAt_of_mask {covered : Nat → Prop} [DecidablePred covered] {c : CdsRegex}
    {bs : Bytes} {p : Nat} (h : MatchesAt c.regex (maskFrom covered 0 bs) p) :
    MatchesAt c.regex bs p ∧ ¬covered p := by
  obtain ⟨b, rest, hdrop, hplain⟩ := exists_plain_of_match h
  have hfront : c.regex.front.rests ((maskFrom covered 0 bs).drop p) ≠ [] :=
    fun hnil => h ((rests_front_eq_nil_iff _ _).mp hnil)
  obtain ⟨t, ht⟩ := List.exists_mem_of_ne_nil _ hfront
  have hagree : Agree Plain ((maskFrom covered 0 bs).drop p) (bs.drop p) :=
    List.forall₂_drop p (maskFrom_agree covered 0 bs)
  obtain ⟨t', ht', -⟩ := (category_front_plain c).rests_agree hagree ht
  refine ⟨fun hnil => List.ne_nil_of_mem ht' ((rests_front_eq_nil_iff _ _).mpr hnil), ?_⟩
  intro hcovered
  have hget : (maskFrom covered 0 bs)[p]? = some b := by
    rw [← Nat.add_zero p, ← List.getElem?_drop, hdrop]
    rfl
  rw [getElem?_maskFrom, Nat.zero_add] at hget
  obtain ⟨a, -, ha⟩ := Option.map_eq_some_iff.mp hget
  rw [if_pos hcovered] at ha
  exact hplain.2 ha.symm

/-- Where all matches are covered, in whole characters, nothing is left to be found. -/
theorem clean_of_covers (hwhole : Whole text (InRanges infos))
    (hstar : ∀ p ∈ P.patterns, '*' ∉ p)
    (hcategory : ∀ p, (∃ c ∈ P.categories, MatchesAt c.regex (utf8 text) p) → InRanges infos p)
    (hpattern : ∀ i, InOccurrence P.ignoreCase P.patterns text i → InRanges infos i) :
    P.Clean (starred (InRanges infos) 0 text) where
  category := by
    intro c hc p hmatch
    rw [← censor_utf8 hwhole, censor_eq_maskFrom] at hmatch
    obtain ⟨hfound, hnot⟩ := matchesAt_of_mask hmatch
    exact hnot (hcategory p ⟨c, hc, hfound⟩)
  pattern := by
    rintro i ⟨pre, m, post, p, hsplit, hp, hne, hcodes, -⟩
    have hm : m ≠ [] := by
      rintro rfl
      exact hne (List.map_eq_nil_iff.mp hcodes.symm)
    rw [List.append_assoc] at hsplit
    obtain ⟨a, b, htext, hlen, hnot⟩ :=
      exists_of_starred hsplit hm (not_mem_of_codes_eq (hstar p hp) hcodes)
    have hpos := Nat.lt_of_lt_of_le (List.length_pos_of_ne_nil hm) (length_le_utf8_length m)
    rw [Nat.zero_add, ← hlen] at hnot
    exact hnot (hpattern _ ⟨a, m, b, p, htext, hp, hne, hcodes, Nat.le_refl _, by omega⟩)

/-- Ranges that are not empty cover something. -/
theorem eq_nil_of_not_covers {stop : Nat} (hwithin : Within infos stop)
    (h : ∀ i, ¬InRanges infos i) : infos = [] := by
  refine List.eq_nil_iff_forall_not_mem.mpr fun m hm => h m.index ⟨m, hm, Nat.le_refl _, ?_⟩
  have hsize := (hwithin m hm).1
  omega

/-- In a clean text the rules find nothing. -/
theorem RuleSet.Clean.noMatch (h : P.Clean text) {d : DoubleArrayTrie} {datIndex : Path → Nat}
    (hfit : Fit P.ignoreCase P.patterns)
    (hd : Faithful (wordsOf P.ignoreCase P.patterns) d datIndex)
    (htext : (utf8 text).length < 2 ^ 64) :
    getStringMatchedInfoByRule (buildRegex P.categories) d P.ignoreCase (utf8 text) = some [] := by
  obtain ⟨byRegex, hregex, hstarts, -⟩ := regexSearch_spec P.categories (utf8 text)
  obtain ⟨byTrie, htrie, hcovers⟩ := search_spec hfit hd text htext
  obtain ⟨byTrie', htrie', hwithin, -⟩ := search_bytes_spec hd.toAutomaton hd.output
    (wordsOf_codes hfit.supported) (fun v _ => best_patternSize_le _ v) P.ignoreCase (utf8 text)
    htext
  obtain rfl := Option.some.inj (htrie'.symm.trans htrie)
  have hnoRegex : byRegex = [] := by
    refine List.eq_nil_iff_forall_not_mem.mpr fun m hm => ?_
    obtain ⟨c, hc, hmatch⟩ := hstarts m hm
    exact h.category c hc m.index hmatch
  have hnoTrie : byTrie' = [] :=
    eq_nil_of_not_covers hwithin fun i hi => h.pattern i ((hcovers i).mp hi)
  unfold getStringMatchedInfoByRule
  rw [hregex, htrie, hnoRegex, hnoTrie]
  rfl

/-- The ranges of the three searches cover whole characters, and all that the policy names. -/
theorem matchedInfo_spec (hfit : Fit P.ignoreCase P.patterns) {d : DoubleArrayTrie}
    {datIndex : Path → Nat} (hd : Faithful (wordsOf P.ignoreCase P.patterns) d datIndex)
    (htext : (utf8 text).length < 2 ^ 64) {rounds : Nat} (hrounds : text.length < rounds)
    (deepLearning : Bool) (response : Option (List DlItem)) :
    ∃ infos, matchedInfo P.categories d P.ignoreCase rounds deepLearning response (utf8 text) =
        some infos ∧ Whole text (InRanges infos) ∧
      (∀ p, (∃ c ∈ P.categories, MatchesAt c.regex (utf8 text) p) → InRanges infos p) ∧
      ∀ i, InOccurrence P.ignoreCase P.patterns text i → InRanges infos i := by
  obtain ⟨byRegex, hregex, -, hstarts⟩ := regexSearch_spec P.categories (utf8 text)
  obtain ⟨byTrie, htrie, hcovers⟩ := search_spec hfit hd text htext
  obtain ⟨byDl, hdl, hwholeDl⟩ := getStringMatchedInfoByDl_utf8 hrounds response
  have hwholeTrie : Whole text (InRanges byTrie) := by
    intro before c after hsplit i hle hlt
    exact (hcovers i).trans ((whole_occurrence before c after hsplit i hle hlt).trans
      (hcovers _).symm)
  have hwhole := (whole_regexSearch hregex).of_append hwholeTrie
  have hrule : getStringMatchedInfoByRule (buildRegex P.categories) d P.ignoreCase (utf8 text) =
      some (byRegex ++ byTrie) := by
    unfold getStringMatchedInfoByRule
    rw [hregex, htrie]
    rfl
  have hcategory : ∀ p, (∃ c ∈ P.categories, MatchesAt c.regex (utf8 text) p) →
      InRanges (byRegex ++ byTrie) p :=
    fun p hp => inRanges_append.mpr (.inl (hstarts p hp))
  have hpattern : ∀ i, InOccurrence P.ignoreCase P.patterns text i →
      InRanges (byRegex ++ byTrie) i :=
    fun i hi => inRanges_append.mpr (.inr ((hcovers i).mpr hi))
  unfold matchedInfo Workers.StringTask.getMatchedInfo
  rw [hrule, hdl]
  cases deepLearning with
  | false => exact ⟨_, rfl, hwhole, hcategory, hpattern⟩
  | true =>
    exact ⟨_, rfl, hwhole.of_append hwholeDl,
      fun p hp => inRanges_append.mpr (.inl (hcategory p hp)),
      fun i hi => inRanges_append.mpr (.inl (hpattern i hi))⟩

end

/-- For a policy whose patterns the trie finds, without `*` in them: filtering a text keeps each
    character or makes it as many `*` as it has bytes, and leaves nothing that the policy finds;
    filtering it again changes nothing. -/
theorem censored_is_clean (order : MapOrder) (fuel : Nat) (P : RuleSet) (hP : P.Sound order fuel)
    (text : List Char) (htext : (utf8 text).length < 2 ^ 64) (rounds : Nat)
    (hrounds : text.length < rounds) (deepLearning : Bool) (response : Option (List DlItem)) :
    ∃ d infos, construct order fuel P.ignoreCase (P.patterns.map utf8) = .ok d ∧
      matchedInfo P.categories d P.ignoreCase rounds deepLearning response (utf8 text) =
        some infos ∧
      censor (utf8 text) infos = utf8 (starred (InRanges infos) 0 text) ∧
      P.Clean (starred (InRanges infos) 0 text) ∧
      getStringMatchedInfoByRule (buildRegex P.categories) d P.ignoreCase
        (censor (utf8 text) infos) = some [] := by
  obtain ⟨d, datIndex, hbuild, hd⟩ := construct_spec order P.ignoreCase P.patterns hP.supported
    fuel hP.enough hP.layout
  obtain ⟨infos, hmatched, hwhole, hcategory, hpattern⟩ :=
    matchedInfo_spec hP.toFit hd htext hrounds deepLearning response
  have hclean := clean_of_covers hwhole hP.noStar hcategory hpattern
  have hlen := censor_length (utf8 text) infos
  refine ⟨d, infos, hbuild, hmatched, censor_utf8 hwhole, hclean, ?_⟩
  rw [censor_utf8 hwhole] at hlen ⊢
  exact hclean.noMatch hP.toFit hd (by omega)

/-- Two keywords, the telephone numbers and the addresses of the web. -/
def sampleRules : RuleSet := ⟨true, [['c', 'a', 't'], ['가']], [.kPhoneNumber, .kUrlRegex]⟩

theorem sampleRules_sound : sampleRules.Sound insertionOrder 40 where
  supported := by decide +kernel
  size_lt := by decide +kernel
  enough := by decide
  layout := by decide +kernel
  noStar := by decide

def rulesText : List Char := "Cat 010-1234-5678 가나".toList

theorem censored_is_clean_sample :
    ∃ d infos, construct insertionOrder 40 true ([['c', 'a', 't'], ['가']].map utf8) = .ok d ∧
      matchedInfo [.kPhoneNumber, .kUrlRegex] d true 30 true none (utf8 rulesText) =
        some infos ∧
      censor (utf8 rulesText) infos = utf8 (starred (InRanges infos) 0 rulesText) ∧
      sampleRules.Clean (starred (InRanges infos) 0 rulesText) ∧
      getStringMatchedInfoByRule (buildRegex [.kPhoneNumber, .kUrlRegex]) d true
        (censor (utf8 rulesText) infos) = some [] :=
  censored_is_clean insertionOrder 40 sampleRules sampleRules_sound rulesText
    (by decide +kernel) 30 (by decide) true none

/-- A pattern with `*`: `b` is censored, and what is left is an occurrence of `a*`. -/
example :
    (match construct insertionOrder 40 false ([['a', '*'], ['b']].map utf8) with
      | .ok d => (getStringMatchedInfoByRule (buildRegex []) d false (utf8 ['a', 'b']),
          censor (utf8 ['a', 'b']) [⟨1, 1⟩],
          getStringMatchedInfoByRule (buildRegex []) d false (utf8 ['a', '*']))
      | .error _ => (none, [], none)) =
      (some [⟨1, 1⟩], utf8 ['a', '*'], some [⟨0, 2⟩]) := by
  decide +kernel

end CdsGuard.Gateway
