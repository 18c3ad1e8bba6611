import CdsGuard.Gateway.MatchBounds
import CdsGuard.Gateway.RegexSearch

/-
  How `DocumentLabelingDialog` cuts a span of text at the matches that
  `get_string_matched_info_by_rule` finds: `processMatchedTextSpan` walks the matches with a running
  position and decodes what lies between them and the matches themselves.

  The ranges of the regular expressions come before those of the trie, and the trie's may overlap
  one another. A match that starts before the one ahead of it ends gives a piece of negative
  length, which `QString::fromUtf8` takes for a string up to its zero (`overlap_repeats`). Where
  the matches are in order and apart, the pieces are the span (`span_exact_iff`).
-/

namespace CdsGuard.Gateway

open CdsGuard.Lib CdsGuard.DoubleArray

/-! ## Matches -/

/-- `get_string_matched_info_by_rule`: the ranges of the regular expressions, then the trie's. -/
def getStringMatchedInfoByRule (filteringRegex : Regex UInt8) (d : DoubleArrayTrie)
    (ignoreCase : Bool) (inputString : Bytes) : Option (List MatchedInfo) := do
  let regexInfos ← regexSearch filteringRegex inputString
  let trieInfos ← search d ignoreCase inputString
  return regexInfos ++ trieInfos

/-! ## Pieces -/

/-- A `size_t` given for a `qsizetype`. -/
def qsizetype (n : Nat) : Int := if n < 2 ^ 63 then n else n - 2 ^ 64

/-- The arguments of `QString::fromUtf8(span.data() + pos, len)`. -/
structure FromUtf8Call where
  pos : Nat
  len : Int
  deriving DecidableEq

/-- What a call decodes of the memory behind `span.data()`; a negative length stands for a string
    that ends in a zero. -/
def FromUtf8Call.bytes (memory : Bytes) (c : FromUtf8Call) : Bytes :=
  if c.len < 0 then (memory.drop c.pos).takeWhile fun b => b != 0
  else (memory.drop c.pos).take c.len.toNat

/-- `q_texts.back()`, `highlights.back()` and the running position, with the calls made so far. -/
structure LabelText where
  qText : List UInt16
  highlights : List MatchedInfo
  currTextPos : Nat
  calls : List FromUtf8Call

section

variable (fromUtf8 : Bytes → List UInt16) (memory : Bytes)

/-- `q_texts.back() += QString::fromUtf8(...)`. -/
def LabelText.append (l : LabelText) (c : FromUtf8Call) : LabelText :=
  { l with qText := l.qText ++ fromUtf8 (c.bytes memory), calls := l.calls ++ [c] }

/-- One round of the loop. -/
def labelMatch (l : LabelText) (m : MatchedInfo) : LabelText :=
  let before := l.append fromUtf8 memory ⟨l.currTextPos, qsizetype (sizeSub m.index l.currTextPos)⟩
  let startIndex := before.qText.length
  let after := before.append fromUtf8 memory ⟨m.index, qsizetype m.size⟩
  let endIndex := after.qText.length
  { after with
    highlights := after.highlights ++ [⟨startIndex, endIndex - startIndex⟩]
    currTextPos := u64 (m.index + m.size) }

/-- The span is not dropped: the last match is not as long as all of it. -/
def keepsSpan (span : Bytes) (infos : List MatchedInfo) : Bool :=
  match infos.getLast? with
  | none => true
  | some m => m.size != span.length

/-- `processMatchedTextSpan`, with what lies behind the span in memory. -/
def processMatchedTextSpan (span behind : Bytes) (infos : List MatchedInfo) : Option LabelText :=
  if keepsSpan span infos then
    let l := infos.foldl (labelMatch fromUtf8 (span ++ behind)) ⟨[], [], 0, []⟩
    some (l.append fromUtf8 (span ++ behind)
      ⟨l.currTextPos, qsizetype (sizeSub span.length l.currTextPos)⟩)
  else none

end

/-! ## What is asked -/

/-- The pieces of a span that is kept have no negative length, take each byte of it once and in
    order, and are decoded one behind the other; each highlight marks what its match decodes to. -/
structure PiecesExact (fromUtf8 : Bytes → List UInt16) (span behind : Bytes)
    (infos : List MatchedInfo) (l : LabelText) : Prop where
  nonneg : ∀ c ∈ l.calls, 0 ≤ c.len
  once : l.calls.flatMap (fun c => List.range' c.pos c.len.toNat) = List.range span.length
  concat : l.calls.flatMap (FromUtf8Call.bytes (span ++ behind)) = span
  qText : l.qText = l.calls.flatMap fun c => fromUtf8 (c.bytes (span ++ behind))
  highlights : List.Forall₂ (fun h m => (l.qText.drop h.index).take h.size =
    fromUtf8 ((span.drop m.index).take m.size)) l.highlights infos

def SpanExact (fromUtf8 : Bytes → List UInt16) (span behind : Bytes)
    (infos : List MatchedInfo) : Prop :=
  ∀ l, processMatchedTextSpan fromUtf8 span behind infos = some l →
    PiecesExact fromUtf8 span behind infos l

/-- One match ends where the other begins, or before. -/
def Before (a b : MatchedInfo) : Prop := a.index + a.size ≤ b.index

instance (a b : MatchedInfo) : Decidable (Before a b) := inferInstanceAs (Decidable (_ ≤ _))

/-! ## Tiles -/

/-- The calls cover the bytes from `a` to `b`, one behind the other. -/
def Tiles : Nat → List FromUtf8Call → Nat → Prop
  | a, [], b => a = b
  | a, c :: cs, b => c.pos = a ∧ 0 ≤ c.len ∧ Tiles (a + c.len.toNat) cs b

theorem Tiles.le {a b : Nat} {cs : List FromUtf8Call} (h : Tiles a cs b) : a ≤ b := by
  induction cs generalizing a with
  | nil => exact Nat.le_of_eq h
  | cons c cs ih =>
    have hrest := ih h.2.2
    omega

theorem Tiles.nonneg {a b : Nat} {cs : List FromUtf8Call} (h : Tiles a cs b) :
    ∀ c ∈ cs, 0 ≤ c.len := by
  induction cs generalizing a with
  | nil => simp
  | cons c cs ih => exact List.forall_mem_cons.mpr ⟨h.2.1, ih h.2.2⟩

theorem Tiles.once {a b : Nat} {cs : List FromUtf8Call} (h : Tiles a cs b) :
    cs.flatMap (fun c => List.range' c.pos c.len.toNat) = List.range' a (b - a) := by
  induction cs generalizing a with
  | nil =>
    obtain rfl : a = b := h
    rw [Nat.sub_self]
    rfl
  | cons c cs ih =>
    obtain ⟨rfl, -, hrest⟩ := h
    have hle := hrest.le
    rw [List.flatMap_cons, ih hrest, List.range'_append_1]
    congr 1
    omega

theorem Tiles.bytes {a b : Nat} {cs : List FromUtf8Call} (h : Tiles a cs b) (memory : Bytes) :
    cs.flatMap (FromUtf8Call.bytes memory) = (memory.drop a).take (b - a) := by
  induction cs generalizing a with
  | nil =>
    obtain rfl : a = b := h
    rw [Nat.sub_self]
    rfl
  | cons c cs ih =>
    obtain ⟨rfl, hlen, hrest⟩ := h
    have hle := hrest.le
    have hsum : b - c.pos = c.len.toNat + (b - (c.pos + c.len.toNat)) := by omega
    rw [List.flatMap_cons, ih hrest, FromUtf8Call.bytes, if_neg (Int.not_lt.mpr hlen), hsum,
      List.take_add, List.drop_drop]

/-! ## The loop -/

/-- The calls for the matches that are left, behind `curr`, and for the rest of the span. -/
def spanCalls (size : Nat) : Nat → List MatchedInfo → List FromUtf8Call
  | curr, [] => [⟨curr, qsizetype (sizeSub size curr)⟩]
  | curr, m :: ms => ⟨curr, qsizetype (sizeSub m.index curr)⟩ :: ⟨m.index, qsizetype m.size⟩ ::
      spanCalls size (u64 (m.index + m.size)) ms

section

variable {fromUtf8 : Bytes → List UInt16} {memory : Bytes}

theorem foldl_calls (size : Nat) (infos : List MatchedInfo) (l : LabelText) :
    let l' := infos.foldl (labelMatch fromUtf8 memory) l
    (l'.append fromUtf8 memory ⟨l'.currTextPos, qsizetype (sizeSub size l'.currTextPos)⟩).calls =
      l.calls ++ spanCalls size l.currTextPos infos := by
  induction infos generalizing l with
  | nil => rfl
  | cons m infos ih =>
    have h := ih (labelMatch fromUtf8 memory l m)
    rw [List.foldl_cons]
    dsimp only at h ⊢
    rw [h]
    simp only [labelMatch, LabelText.append, spanCalls, List.append_assoc, List.cons_append,
      List.nil_append]

/-- The text is what the calls decode to. -/
def Decoded (fromUtf8 : Bytes → List UInt16) (memory : Bytes) (l : LabelText) : Prop :=
  l.qText = l.calls.flatMap fun c => fromUtf8 (c.bytes memory)

theorem Decoded.append {l : LabelText} (h : Decoded fromUtf8 memory l) (c : FromUtf8Call) :
    Decoded fromUtf8 memory (l.append fromUtf8 memory c) := by
  unfold Decoded at *
  simp only [LabelText.append, List.flatMap_append, List.flatMap_cons, List.flatMap_nil,
    List.append_nil, h]

theorem Decoded.foldl (infos : List MatchedInfo) {l : LabelText}
    (h : Decoded fromUtf8 memory l) :
    Decoded fromUtf8 memory (infos.foldl (labelMatch fromUtf8 memory) l) := by
  induction infos generalizing l with
  | nil => exact h
  | cons m infos ih => exact ih ((h.append _).append _)

/-- A highlight lies in the text and marks what its match decodes to. -/
def Marks (fromUtf8 : Bytes → List UInt16) (memory : Bytes) (qText : List UInt16)
    (h m : MatchedInfo) : Prop :=
  h.index + h.size ≤ qText.length ∧ (qText.drop h.index).take h.size =
    fromUtf8 (FromUtf8Call.bytes memory ⟨m.index, qsizetype m.size⟩)

theorem Marks.append {qText : List UInt16} {h m : MatchedInfo}
    (hmarks : Marks fromUtf8 memory qText h m) (more : List UInt16) :
    Marks fromUtf8 memory (qText ++ more) h m := by
  obtain ⟨hle, hmark⟩ := hmarks
  refine ⟨by rw [List.length_append]; omega, ?_⟩
  rw [List.drop_append_of_le_length (by omega), List.take_append_of_le_length, hmark]
  rw [List.length_drop]
  omega

/-- The highlight that a round adds. -/
theorem marks_new (before : List UInt16) (m : MatchedInfo) :
    let after := before ++ fromUtf8 (FromUtf8Call.bytes memory ⟨m.index, qsizetype m.size⟩)
    Marks fromUtf8 memory after ⟨before.length, after.length - before.length⟩ m := by
  intro after
  have hsize : after.length - before.length =
      (fromUtf8 (FromUtf8Call.bytes memory ⟨m.index, qsizetype m.size⟩)).length := by
    rw [List.length_append, Nat.add_sub_cancel_left]
  rw [hsize]
  refine ⟨(List.length_append ..).ge, ?_⟩
  dsimp only
  rw [List.drop_left, List.take_length]

theorem foldl_marks (infos : List MatchedInfo) {done : List MatchedInfo} {l : LabelText}
    (h : List.Forall₂ (Marks fromUtf8 memory l.qText) l.highlights done) :
    List.Forall₂ (Marks fromUtf8 memory (infos.foldl (labelMatch fromUtf8 memory) l).qText)
      (infos.foldl (labelMatch fromUtf8 memory) l).highlights (done ++ infos) := by
  induction infos generalizing done l with
  | nil => rwa [List.append_nil]
  | cons m infos ih =>
    rw [List.append_cons]
    apply ih
    simp only [labelMatch, LabelText.append]
    apply List.rel_append
    · exact h.imp fun _ _ hmarks => (hmarks.append _).append _
    · exact .cons (marks_new _ m) .nil

end

/-! ## Order -/

theorem qsizetype_of_lt {n : Nat} (h : n < 2 ^ 63) : qsizetype n = n := if_pos h

/-- A difference of positions is computed as one, below 0 as well. -/
theorem qsizetype_sizeSub {a b : Nat} (ha : a < 2 ^ 63) (hb : b < 2 ^ 63) :
    qsizetype (sizeSub a b) = (a : Int) - b := by
  unfold sizeSub qsizetype
  split <;> split <;> omega

/-- The matches are in order and apart, and none begins before `curr`. -/
def InOrderFrom (curr : Nat) (infos : List MatchedInfo) : Prop :=
  (∀ m ∈ infos, curr ≤ m.index) ∧ infos.Pairwise Before

theorem inOrderFrom_cons {curr : Nat} {m : MatchedInfo} {infos : List MatchedInfo} :
    InOrderFrom curr (m :: infos) ↔ curr ≤ m.index ∧ InOrderFrom (m.index + m.size) infos := by
  unfold InOrderFrom
  rw [List.forall_mem_cons, List.pairwise_cons]
  constructor
  · intro h
    exact ⟨h.1.1, h.2⟩
  · intro h
    refine ⟨⟨h.1, fun x hx => ?_⟩, h.2⟩
    have hx := h.2.1 x hx
    omega

/-- The calls are tiles as long as each match begins at the running position or behind it. -/
theorem spanCalls_tiles {size : Nat} (hsize : size < 2 ^ 63) {infos : List MatchedInfo}
    (hwithin : Within infos size) {curr : Nat} (hcurr : curr ≤ size) (h : InOrderFrom curr infos) :
    Tiles curr (spanCalls size curr infos) size := by
  induction infos generalizing curr with
  | nil =>
    have hlast := @qsizetype_sizeSub size curr hsize (by omega)
    have hend : curr + (qsizetype (sizeSub size curr)).toNat = size := by omega
    exact ⟨rfl, show 0 ≤ qsizetype (sizeSub size curr) by omega, hend⟩
  | cons m infos ih =>
    obtain ⟨hm, hwithin⟩ := List.forall_mem_cons.mp hwithin
    obtain ⟨hle, hrest⟩ := inOrderFrom_cons.mp h
    have hgap := @qsizetype_sizeSub m.index curr (by omega) (by omega)
    have htiles := ih hwithin hm.2 hrest
    have hpos : curr + (qsizetype (sizeSub m.index curr)).toNat = m.index := by omega
    have hend : m.index + (qsizetype m.size).toNat = m.index + m.size := by
      rw [qsizetype_of_lt (by omega), Int.toNat_natCast]
    rw [spanCalls, u64_of_lt (by omega)]
    refine ⟨rfl, show 0 ≤ qsizetype (sizeSub m.index curr) by omega, hpos.symm, ?_, ?_⟩
    · rw [qsizetype_of_lt (by omega)]
      exact Int.natCast_nonneg _
    · rwa [hpos, hend]

/-- One that begins before it gives a piece of negative length. -/
theorem inOrderFrom_of_spanCalls {size : Nat} (hsize : size < 2 ^ 63) {infos : List MatchedInfo}
    (hwithin : Within infos size) {curr : Nat} (hcurr : curr ≤ size)
    (h : ∀ c ∈ spanCalls size curr infos, 0 ≤ c.len) :
    InOrderFrom curr infos := by
  induction infos generalizing curr with
  | nil => exact ⟨by simp, .nil⟩
  | cons m infos ih =>
    obtain ⟨hm, hwithin⟩ := List.forall_mem_cons.mp hwithin
    rw [spanCalls, u64_of_lt (by omega), List.forall_mem_cons, List.forall_mem_cons] at h
    obtain ⟨hgap, -, hrest⟩ := h
    rw [qsizetype_sizeSub (by omega) (by omega)] at hgap
    exact inOrderFrom_cons.mpr ⟨Int.ofNat_le.mp (Int.sub_nonneg.mp hgap), ih hwithin hm.2 hrest⟩

/-! ## The span -/

theorem match_bytes {span behind : Bytes} {m : MatchedInfo} (hm : m.index + m.size ≤ span.length)
    (hsize : m.size < 2 ^ 63) :
    FromUtf8Call.bytes (span ++ behind) ⟨m.index, qsizetype m.size⟩ =
      (span.drop m.index).take m.size := by
  rw [qsizetype_of_lt hsize, FromUtf8Call.bytes, if_neg (Int.not_lt.mpr (Int.natCast_nonneg _))]
  show ((span ++ behind).drop m.index).take m.size = _
  rw [List.drop_append_of_le_length (by omega),
    List.take_append_of_le_length (by rw [List.length_drop]; omega)]

section

variable (fromUtf8 : Bytes → List UInt16) {span : Bytes} (behind : Bytes)
  {infos : List MatchedInfo}

theorem processMatchedTextSpan_some {l : LabelText}
    (h : processMatchedTextSpan fromUtf8 span behind infos = some l) :
    l.calls = spanCalls span.length 0 infos ∧ Decoded fromUtf8 (span ++ behind) l ∧
      List.Forall₂ (Marks fromUtf8 (span ++ behind) l.qText) l.highlights infos := by
  unfold processMatchedTextSpan at h
  split at h
  · obtain rfl := Option.some.inj h
    refine ⟨foldl_calls _ _ _, (Decoded.foldl infos ?_).append _, ?_⟩
    · rfl
    · have hmarks := @foldl_marks fromUtf8 (span ++ behind) infos [] ⟨[], [], 0, []⟩ .nil
      exact hmarks.imp fun _ _ hm => hm.append _
  · cases h

variable {fromUtf8 behind} in
theorem SpanExact.pairwise (h : SpanExact fromUtf8 span behind infos)
    (hwithin : Within infos span.length) (hsize : span.length < 2 ^ 63)
    (hkeep : keepsSpan span infos = true) : infos.Pairwise Before := by
  have hsome : ∃ l, processMatchedTextSpan fromUtf8 span behind infos = some l := by
    unfold processMatchedTextSpan
    rw [if_pos hkeep]
    exact ⟨_, rfl⟩
  obtain ⟨l, hl⟩ := hsome
  have hnonneg := (h l hl).nonneg
  rw [(processMatchedTextSpan_some fromUtf8 behind hl).1] at hnonneg
  exact (inOrderFrom_of_spanCalls hsize hwithin (Nat.zero_le _) hnonneg).2

theorem spanExact_of_pairwise (hwithin : Within infos span.length) (hsize : span.length < 2 ^ 63)
    (h : keepsSpan span infos = true → infos.Pairwise Before) :
    SpanExact fromUtf8 span behind infos := by
  intro l hl
  have hkeep : keepsSpan span infos = true := by
    by_contra hdrop
    rw [processMatchedTextSpan, if_neg hdrop] at hl
    cases hl
  obtain ⟨hcalls, hdecoded, hmarks⟩ := processMatchedTextSpan_some fromUtf8 behind hl
  have htiles := spanCalls_tiles hsize hwithin (Nat.zero_le _)
    ⟨fun m _ => Nat.zero_le _, h hkeep⟩
  rw [← hcalls] at htiles
  refine ⟨htiles.nonneg, ?_, ?_, hdecoded, ?_⟩
  · rw [htiles.once, Nat.sub_zero, List.range_eq_range']
  · rw [htiles.bytes, Nat.sub_zero, List.drop_zero, List.take_left]
  · rw [List.forall₂_iff_zip] at hmarks ⊢
    refine ⟨hmarks.1, fun {h m} hmem => ?_⟩
    have hm := (hwithin m (List.of_mem_zip hmem).2).2
    rw [(hmarks.2 hmem).2, match_bytes hm (by omega)]

/-- The pieces of every span are those it should have exactly if the span is dropped or its matches
    are in order and apart. -/
theorem span_exact_iff (hwithin : Within infos span.length) (hsize : span.length < 2 ^ 63) :
    SpanExact fromUtf8 span behind infos ↔
      (keepsSpan span infos = true → infos.Pairwise Before) :=
  ⟨fun h => h.pairwise hwithin hsize, spanExact_of_pairwise fromUtf8 behind hwithin hsize⟩

/-- Two letters of three, the ASCII texts decoded byte by byte. -/
theorem span_exact_letters :
    SpanExact (List.map UInt8.toUInt16) [0x61, 0x62, 0x63] [] [⟨0, 1⟩, ⟨2, 1⟩] :=
  (span_exact_iff _ [] (by unfold Within; decide) (by decide)).mpr fun _ => by decide

end

/-- A telephone number with the pattern `1234` in it. The pattern is found behind the number, so
    the piece between the two has a length of -9. -/
theorem overlap_repeats :
    ∃ d, construct insertionOrder 40 false [utf8 "1234".toList] = .ok d ∧
      getStringMatchedInfoByRule (buildRegex [.kPhoneNumber]) d false
        (utf8 "010-1234-5678".toList) = some [⟨0, 13⟩, ⟨4, 4⟩] ∧
      Within [⟨0, 13⟩, ⟨4, 4⟩] (utf8 "010-1234-5678".toList).length ∧
      spanCalls 13 0 [⟨0, 13⟩, ⟨4, 4⟩] = [⟨0, 0⟩, ⟨0, 13⟩, ⟨13, -9⟩, ⟨4, 4⟩, ⟨8, 5⟩] ∧
      ∀ fromUtf8 behind,
        ¬SpanExact fromUtf8 (utf8 "010-1234-5678".toList) behind [⟨0, 13⟩, ⟨4, 4⟩] := by
  have hwithin : Within [⟨0, 13⟩, ⟨4, 4⟩] (utf8 "010-1234-5678".toList).length := by
    unfold Within
    decide
  have hrun :
      (match construct insertionOrder 40 false [utf8 "1234".toList] with
      | .ok d => getStringMatchedInfoByRule (buildRegex [.kPhoneNumber]) d false
          (utf8 "010-1234-5678".toList)
      | .error _ => none) = some [⟨0, 13⟩, ⟨4, 4⟩] := by
    decide +kernel
  cases hbuild : construct insertionOrder 40 false [utf8 "1234".toList] with
  | error e =>
    rw [hbuild] at hrun
    exact absurd hrun (by simp)
  | ok d =>
    rw [hbuild] at hrun
    refine ⟨d, rfl, hrun, hwithin, by decide, fun fromUtf8 behind h => ?_⟩
    exact absurd (h.pairwise hwithin (by decide) rfl) (by decide)

/-! ## Regular expressions alone -/

/-- The ranges of the loop are in order and apart. -/
theorem searchLoop_inOrderFrom {regex : Regex UInt8} (hmin : 0 < regex.minLength)
    {rounds offset : Nat} {s : Bytes} {infos : List MatchedInfo}
    (h : searchLoop regex rounds offset s = some infos) :
    InOrderFrom offset infos ∧ Within infos (offset + s.length) := by
  induction rounds generalizing offset s infos with
  | zero => cases h
  | succ rounds ih =>
    rw [searchLoop] at h
    cases hsearch : regex.search s with
    | none =>
      rw [hsearch] at h
      obtain rfl := Option.some.inj h
      exact ⟨⟨by simp, .nil⟩, by simp [Within]⟩
    | some found =>
      obtain ⟨i, rest⟩ := found
      obtain ⟨hi, hrest, -⟩ := Regex.search_spec hsearch
      obtain ⟨u, hsplit, hu⟩ := regex.rests_spec hrest
      have hlen := congrArg List.length hsplit
      rw [List.length_drop, List.length_append] at hlen
      rw [hsearch] at h
      obtain ⟨later, hloop, rfl⟩ := Option.map_eq_some_iff.mp h
      obtain ⟨horder, hwithin⟩ := ih hloop
      refine ⟨inOrderFrom_cons.mpr ⟨Nat.le_add_right offset i, horder⟩, ?_⟩
      refine List.forall_mem_cons.mpr ⟨?_, hwithin.mono ?_⟩
      · dsimp only
        omega
      · omega

/-- Without a match of the trie every span is cut as it should be. -/
theorem regex_spans_exact (fromUtf8 : Bytes → List UInt16) (cs : List CdsRegex)
    (span behind : Bytes) (hsize : span.length < 2 ^ 63) :
    ∃ infos, regexSearch (buildRegex cs) span = some infos ∧
      SpanExact fromUtf8 span behind infos := by
  obtain ⟨infos, hinfos, -⟩ := regexSearch_spec cs span
  refine ⟨infos, hinfos, ?_⟩
  by_cases hcs : cs = []
  · subst hcs
    obtain rfl : [] = infos := Option.some.inj hinfos
    exact spanExact_of_pairwise fromUtf8 behind (by simp [Within]) hsize fun _ => .nil
  · rw [regexSearch, if_neg (buildRegex_markCount_ne hcs)] at hinfos
    obtain ⟨horder, hwithin⟩ := searchLoop_inOrderFrom (buildRegex_minLength_pos hcs) hinfos
    rw [Nat.zero_add] at hwithin
    exact spanExact_of_pairwise fromUtf8 behind hwithin hsize fun _ => horder.2

end CdsGuard.Gateway
