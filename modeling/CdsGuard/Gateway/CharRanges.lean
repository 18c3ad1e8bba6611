import CdsGuard.DoubleArray.Search
import Mathlib.Data.List.AList
import Mathlib.Data.List.GetD

/-
  `convert_char_to_byte_indices`: the analysis service counts in characters, the gateway censors in
  bytes. A map from the number of each character to its first byte is built by stepping with the
  length that the first byte of a character announces.

  Proved: on a valid text the map ends with the text and gives where each character starts
  (`buildCharToByteMap_utf8`), so a result becomes the range of bytes of its characters, and none if
  it reaches beyond the text (`convertCharToByteIndices_utf8`).
-/

namespace CdsGuard.Gateway

open CdsGuard.Lib CdsGuard.DoubleArray

/-! ## The map -/

/-- `get_utf8_char_byte_length`. -/
def getUtf8CharByteLength (byte : UInt8) : Nat :=
  if byte &&& 0b10000000 = 0 then 1
  else if byte &&& 0b11100000 = 0b11000000 then 2
  else if byte &&& 0b11110000 = 0b11100000 then 3
  else if byte &&& 0b11111000 = 0b11110000 then 4
  else 0

/-- `std::unordered_map<size_t, size_t>`. -/
abbrev CharMap := AList fun _ : Nat => Nat

/-- The loop of `build_char_to_byte_map`; `none` is one that has not ended within the rounds. A
    byte that starts no character would keep it where it is. -/
def mapLoop (text : Bytes) : Nat → Nat → Nat → CharMap → Option CharMap
  | 0, _, _, _ => none
  | rounds + 1, i, charCount, charMap =>
    if i < text.length then
      mapLoop text rounds (i + getUtf8CharByteLength (text.getD i 0)) (charCount + 1)
        (charMap.insert charCount i)
    else some (charMap.insert charCount text.length)

/-- `build_char_to_byte_map`, within a number of rounds. -/
def buildCharToByteMap (rounds : Nat) (text : Bytes) : Option CharMap := mapLoop text rounds 0 0 ∅

/-- One round of the loop over the results. -/
def byteRange (charMap : CharMap) (charInfo : MatchedInfo) : Option MatchedInfo := do
  let byteStart ← charMap.lookup charInfo.index
  let byteEnd ← charMap.lookup (u64 (charInfo.index + charInfo.size))
  return ⟨byteStart, sizeSub byteEnd byteStart⟩

/-- `convert_char_to_byte_indices`. -/
def convertCharToByteIndices (rounds : Nat) (text : Bytes) (charResults : List MatchedInfo) :
    Option (List MatchedInfo) :=
  if charResults.isEmpty then some []
  else (buildCharToByteMap rounds text).map fun charMap => charResults.filterMap (byteRange charMap)

/-- What `get_string_matched_info_by_dl` makes of the positions of a result. -/
def charResult (start stop : Nat) : MatchedInfo := ⟨start, stop - start⟩

/-! ## Valid texts -/

theorem readChar_length {s : Bytes} {len ch : Nat} (h : readChar s = .char len ch) :
    getUtf8CharLength (s.headD 0) = len := by
  unfold readChar at h
  dsimp only at h
  split at h
  · cases h
  · split at h <;> cases h <;> assumption

/-- The first byte of a character announces its length. -/
theorem getUtf8CharByteLength_encode (c : Char) (rest : Bytes) :
    getUtf8CharByteLength ((String.utf8EncodeChar c ++ rest).headD 0) = c.utf8Size :=
  readChar_length (readChar_encode c rest)

/-- Where a character of a text starts. -/
def byteOffset (cs : List Char) (k : Nat) : Nat := (utf8 (cs.take k)).length

/-- The entry of one more character. -/
theorem lookup_insert_next {charMap : CharMap} {f : Nat → Nat} {n : Nat}
    (hmap : ∀ k, charMap.lookup k = if k < n then some (f k) else none) (k : Nat) :
    (charMap.insert n (f n)).lookup k = if k < n + 1 then some (f k) else none := by
  rcases Nat.lt_trichotomy k n with hk | rfl | hk
  · rw [AList.lookup_insert_ne hk.ne, hmap, if_pos hk, if_pos (by omega)]
  · rw [AList.lookup_insert, if_pos (Nat.lt_succ_self k)]
  · rw [AList.lookup_insert_ne hk.ne', hmap, if_neg (by omega), if_neg (by omega)]

/-- The loop, with the characters of `pre` behind it. -/
theorem mapLoop_utf8 {pre rest : List Char} {rounds : Nat} {charMap : CharMap}
    (hrounds : rest.length < rounds)
    (hmap : ∀ k, charMap.lookup k =
      if k < pre.length then some (byteOffset (pre ++ rest) k) else none) :
    ∃ m, mapLoop (utf8 (pre ++ rest)) rounds (utf8 pre).length pre.length charMap = some m ∧
      ∀ k, m.lookup k =
        if k ≤ (pre ++ rest).length then some (byteOffset (pre ++ rest) k) else none := by
  induction rest generalizing pre rounds charMap with
  | nil =>
    obtain ⟨rounds, rfl⟩ := Nat.exists_eq_add_of_lt hrounds
    rw [List.append_nil] at hmap ⊢
    have hend : (utf8 pre).length = byteOffset pre pre.length := by
      rw [byteOffset, List.take_length]
    rw [mapLoop, if_neg (Nat.lt_irrefl _)]
    refine ⟨_, rfl, fun k => ?_⟩
    rw [hend, lookup_insert_next hmap]
    simp only [Nat.lt_succ_iff]
  | cons c rest ih =>
    obtain ⟨rounds, rfl⟩ := Nat.exists_eq_add_of_lt hrounds
    have hsplit : utf8 (pre ++ c :: rest) =
        utf8 pre ++ (String.utf8EncodeChar c ++ utf8 rest) := utf8_append _ _
    have hpos := c.utf8Size_pos
    have hlt : (utf8 pre).length < (utf8 (pre ++ c :: rest)).length := by
      rw [hsplit, List.length_append, List.length_append, String.length_utf8EncodeChar]
      omega
    have hlen : getUtf8CharByteLength ((utf8 (pre ++ c :: rest)).getD (utf8 pre).length 0) =
        c.utf8Size := by
      rw [hsplit, List.getD_append_right _ _ _ _ le_rfl, Nat.sub_self,
        ← getUtf8CharByteLength_encode c (utf8 rest)]
      cases String.utf8EncodeChar c ++ utf8 rest <;> rfl
    have hnext : (utf8 pre).length + c.utf8Size = (utf8 (pre ++ [c])).length := by
      rw [utf8_append, List.length_append, utf8_cons_length]
      rfl
    have hcount : pre.length + 1 = (pre ++ [c]).length := by simp
    rw [mapLoop, if_pos hlt, hlen, hnext, hcount]
    rw [List.append_cons] at hmap ⊢
    have hstart : (utf8 pre).length = byteOffset (pre ++ [c] ++ rest) pre.length := by
      rw [byteOffset, List.append_assoc, List.take_left]
    refine ih (by rw [List.length_cons]; omega) fun k => ?_
    rw [← hcount, hstart]
    exact lookup_insert_next hmap k

/-- The map ends with the text and gives where each character starts, and the end of the text. -/
theorem buildCharToByteMap_utf8 (cs : List Char) {rounds : Nat} (h : cs.length < rounds) :
    ∃ m, buildCharToByteMap rounds (utf8 cs) = some m ∧
      ∀ k, m.lookup k = if k ≤ cs.length then some (byteOffset cs k) else none := by
  refine @mapLoop_utf8 [] cs rounds ∅ h fun k => ?_
  rw [List.length_nil, if_neg (Nat.not_lt_zero k)]
  exact AList.lookup_empty k

/-! ## Ranges -/

/-- The bytes of the characters from `start` to `stop - 1`. -/
def charBytes (cs : List Char) (start stop : Nat) : Bytes := utf8 ((cs.take stop).drop start)

/-- The range of these bytes, if the text has so many characters. -/
def charRange (cs : List Char) (start stop : Nat) : Option MatchedInfo :=
  if stop ≤ cs.length then some ⟨byteOffset cs start, (charBytes cs start stop).length⟩ else none

theorem take_append_charBytes {cs : List Char} {start stop : Nat} (h : start ≤ stop) :
    utf8 (cs.take stop) = utf8 (cs.take start) ++ charBytes cs start stop := by
  have hsplit := List.take_append_drop start (cs.take stop)
  rw [List.take_take, Nat.min_eq_left h] at hsplit
  rw [charBytes, ← utf8_append, hsplit]

theorem byteOffset_sub {cs : List Char} {start stop : Nat} (h : start ≤ stop) :
    sizeSub (byteOffset cs stop) (byteOffset cs start) = (charBytes cs start stop).length := by
  have hlen : byteOffset cs stop = byteOffset cs start + (charBytes cs start stop).length := by
    rw [byteOffset, take_append_charBytes h, List.length_append]
    rfl
  rw [hlen, sizeSub, if_pos (Nat.le_add_right _ _), Nat.add_sub_cancel_left]

/-- A range is where the bytes of its characters lie, inside the text. -/
theorem charRange_spec {cs : List Char} {start stop : Nat} {r : MatchedInfo} (h : start ≤ stop)
    (hr : charRange cs start stop = some r) :
    r.index + r.size ≤ (utf8 cs).length ∧
      ((utf8 cs).drop r.index).take r.size = charBytes cs start stop := by
  unfold charRange at hr
  obtain ⟨-, hr⟩ := Option.ite_none_right_eq_some.mp hr
  obtain rfl := Option.some.inj hr
  have hsplit : utf8 cs =
      utf8 (cs.take start) ++ (charBytes cs start stop ++ utf8 (cs.drop stop)) := by
    rw [← List.append_assoc, ← take_append_charBytes h, ← utf8_append, List.take_append_drop]
  refine ⟨?_, ?_⟩
  · rw [hsplit, List.length_append, List.length_append]
    dsimp only [byteOffset]
    omega
  · rw [hsplit]
    dsimp only [byteOffset]
    rw [List.drop_left, List.take_left]

theorem byteRange_eq {cs : List Char} {charMap : CharMap}
    (hmap : ∀ k, charMap.lookup k = if k ≤ cs.length then some (byteOffset cs k) else none)
    {start stop : Nat} (h : start < stop) (hstop : stop < 2 ^ 64) :
    byteRange charMap (charResult start stop) = charRange cs start stop := by
  have hend : u64 (start + (stop - start)) = stop := by
    rw [Nat.add_sub_cancel' h.le, u64_of_lt hstop]
  unfold byteRange charResult charRange
  dsimp only
  rw [hend, hmap, hmap]
  by_cases hle : stop ≤ cs.length
  · rw [if_pos hle, if_pos hle, if_pos (h.le.trans hle), ← byteOffset_sub h.le]
    rfl
  · rw [if_neg hle, if_neg hle]
    split <;> rfl

/-- On a valid text the conversion ends; it gives, in their order, one range for each result that
    ends in the text and none for the others, and a range is where the characters of its result
    are encoded, inside the text. -/
theorem convertCharToByteIndices_utf8 (cs : List Char) (results : List (Nat × Nat))
    (h : ∀ p ∈ results, p.1 < p.2 ∧ p.2 < 2 ^ 64) (rounds : Nat) (hrounds : cs.length < rounds) :
    convertCharToByteIndices rounds (utf8 cs) (results.map fun p => charResult p.1 p.2) =
        some (results.filterMap fun p => charRange cs p.1 p.2) ∧
      ∀ p ∈ results, ∀ r, charRange cs p.1 p.2 = some r →
        r.index + r.size ≤ (utf8 cs).length ∧
          ((utf8 cs).drop r.index).take r.size = charBytes cs p.1 p.2 := by
  refine ⟨?_, fun p hp r hr => charRange_spec (h p hp).1.le hr⟩
  obtain ⟨m, hm, hmap⟩ := buildCharToByteMap_utf8 cs hrounds
  unfold convertCharToByteIndices
  cases results with
  | nil => rfl
  | cons q results =>
    rw [if_neg (by simp), hm, Option.map_some, List.filterMap_map]
    refine congrArg some (List.filterMap_congr fun p hp => ?_)
    exact byteRange_eq hmap (h p hp).1 (h p hp).2

/-- A syllable of three bytes between two letters, and a result that reaches beyond the text. -/
theorem convertCharToByteIndices_syllable :
    convertCharToByteIndices 4 (utf8 ['a', '가', 'b']) [⟨1, 1⟩, ⟨2, 2⟩] = some [⟨1, 3⟩] := by
  have h := (convertCharToByteIndices_utf8 ['a', '가', 'b'] [(1, 2), (2, 4)] (by decide) 4
    (by decide)).1
  exact h.trans (by decide)

end CdsGuard.Gateway
