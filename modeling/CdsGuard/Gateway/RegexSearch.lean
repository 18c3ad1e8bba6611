import CdsGuard.DoubleArray.Search
import CdsGuard.Lib.Regex

/-
  The regular expressions of the policy: the six categories of `cds_regex_enum_to_string`,
  `build_regex`, which joins the chosen ones to one alternation, and `RegexSearch`, which looks
  for the leftmost match again and again, behind the last one.

  `std::regex` is read by the ECMAScript rules, over bytes and in the classic locale. A search
  whose match is empty would go on for ever; `regexSearch_spec` says that no choice of
  categories does that.

  A further category can match earlier and take part of what another one covered alone
  (`number_uncovers`). What stays covered is every byte where a match begins, the first byte of
  every range among them (`match_starts_stay_covered`).
-/

namespace CdsGuard.Gateway

open CdsGuard.Lib CdsGuard.Lib.Regex
open CdsGuard.DoubleArray (MatchedInfo)

/-! ## Characters -/

def code (c : Char) : UInt8 := UInt8.ofNat c.toNat

def isIn (lo hi : Char) (b : UInt8) : Bool := code lo ≤ b && b ≤ code hi

/-- `[...]` of single characters. -/
def isOneOf (cs : String) (b : UInt8) : Bool := cs.toList.any fun c => code c == b

/-- `\d`. -/
def isDigit (b : UInt8) : Bool := isIn '0' '9' b

/-- `[a-zA-Z]`. -/
def isLetter (b : UInt8) : Bool := isIn 'a' 'z' b || isIn 'A' 'Z' b

/-- `\w`. -/
def isWord (b : UInt8) : Bool := isLetter b || isDigit b || b == code '_'

/-- `\s`: the blank, and tab to carriage return. -/
def isSpace (b : UInt8) : Bool := b == 0x20 || 0x09 ≤ b && b ≤ 0x0d

def chr (c : Char) : Regex UInt8 := cls fun b => b == code c

def literal (cs : String) : Regex UInt8 := seqs (cs.toList.map chr)

def digit : Regex UInt8 := cls isDigit

/-! ## The categories -/

inductive CdsRegex where
  | kEmail
  | kPhoneNumber
  | kSSNRegex
  | kIpWithPortRegex
  | kUrlRegex
  | kAllNumber
  deriving DecidableEq

/-- `\s?-\s?`. -/
def dash : Regex UInt8 := seqs [opt (cls isSpace), chr '-', opt (cls isSpace)]

/-- `25[0-5]|2[0-4]\d|1\d{2}|[1-9]?\d`. -/
def octet : Regex UInt8 :=
  alts (seqs [literal "25", cls (isIn '0' '5')])
    [seqs [chr '2', cls (isIn '0' '4'), digit], seqs [chr '1', exactly 2 digit],
      seqs [opt (cls (isIn '1' '9')), digit]]

/-- `:\d{1,5}`. -/
def port : Regex UInt8 := seqs [chr ':', between 1 5 digit]

/-- `cds_regex_enum_to_string`, read as a regular expression. -/
def CdsRegex.regex : CdsRegex → Regex UInt8
  -- ([\w\.-]+)@([\w\.-]+)\.([a-zA-Z]{2,})
  | kEmail =>
    let name := group (plus (cls fun b => isWord b || isOneOf ".-" b))
    seqs [name, chr '@', name, chr '.', group (atLeast 2 (cls isLetter))]
  -- (01[0|1|6|7|8|9])\s?-\s?([0-9]{3,4})\s?-\s?([0-9]{4})
  | kPhoneNumber =>
    seqs [group (seqs [literal "01", cls (isOneOf "0|16789")]), dash,
      group (between 3 4 digit), dash, group (exactly 4 digit)]
  -- (\d{6})\s?-\s?(\d{7})
  | kSSNRegex => seqs [group (exactly 6 digit), dash, group (exactly 7 digit)]
  -- (((25[0-5]|2[0-4]\d|1\d{2}|[1-9]?\d)\.){3}(25[0-5]|2[0-4]\d|1\d{2}|[1-9]?\d)(:\d{1,5})?)
  | kIpWithPortRegex =>
    group (seqs [exactly 3 (group (seqs [group octet, chr '.'])), group octet,
      opt (group port)])
  -- (https?:\/\/(?:[a-zA-Z0-9-]+\.)+[a-zA-Z]{2,}(?::\d{1,5})?(?:\/[^\s]*)?)
  | kUrlRegex =>
    let label := plus (cls fun b => isLetter b || isDigit b || b == code '-')
    group (seqs [literal "http", opt (chr 's'), literal "://", plus (seqs [label, chr '.']),
      atLeast 2 (cls isLetter), opt port, opt (seqs [chr '/', star (cls fun b => !isSpace b)])])
  -- ([-+]?(?:\d{1,3}(?:,\d{3})*|\d+)(?:\.\d+)?)
  | kAllNumber =>
    group (seqs [opt (cls (isOneOf "-+")),
      alt (seqs [between 1 3 digit, star (seqs [chr ',', exactly 3 digit])]) (plus digit),
      opt (seqs [chr '.', plus digit])])

/-- `build_regex`: the strings joined by `|`; without a category the string is empty. -/
def buildRegex : List CdsRegex → Regex UInt8
  | [] => empty
  | c :: cs => alts c.regex (cs.map CdsRegex.regex)

/-! ## `RegexSearch` -/

/-- The loop, from `begin` on, `offset` bytes behind the start. Each round moves behind a match;
    `none` is a loop that has not ended within the rounds. -/
def searchLoop (regex : Regex UInt8) : Nat → Nat → Bytes → Option (List MatchedInfo)
  | 0, _, _ => none
  | rounds + 1, offset, s =>
    match regex.search s with
    | none => some []
    | some (position, rest) =>
      let length := s.length - position - rest.length
      (searchLoop regex rounds (offset + position + length) rest).map fun infos =>
        ⟨offset + position, length⟩ :: infos

/-- `RegexSearch`. A round that matches takes at least one byte, so that many rounds and one are
    enough. -/
def regexSearch (regex : Regex UInt8) (searchString : Bytes) : Option (List MatchedInfo) :=
  if regex.markCount = 0 then some []
  else searchLoop regex (searchString.length + 1) 0 searchString

/-- A range covers a byte. -/
def CoveredBy (m : MatchedInfo) (p : Nat) : Prop := m.index ≤ p ∧ p < m.index + m.size

/-! ## What the loop returns -/

/-- The regular expression has a match that begins at the byte. -/
def MatchesAt (regex : Regex UInt8) (s : Bytes) (p : Nat) : Prop := regex.rests (s.drop p) ≠ []

theorem MatchesAt.lt_length {regex : Regex UInt8} (hmin : 0 < regex.minLength) {s : Bytes}
    {p : Nat} (h : MatchesAt regex s p) : p < s.length := by
  obtain ⟨t, ht⟩ := List.exists_mem_of_ne_nil _ h
  obtain ⟨u, hs, hu⟩ := regex.rests_spec ht
  have hlen := congrArg List.length hs
  rw [List.length_drop, List.length_append] at hlen
  omega

/-- The loop ends; every range begins where there is a match, and every byte where a match begins
    is covered. -/
theorem searchLoop_spec {regex : Regex UInt8} (hmin : 0 < regex.minLength) {rounds : Nat}
    (offset : Nat) {s : Bytes} (h : s.length < rounds) :
    ∃ infos, searchLoop regex rounds offset s = some infos ∧
      (∀ m ∈ infos, ∃ p, m.index = offset + p ∧ MatchesAt regex s p) ∧
      ∀ p, MatchesAt regex s p → ∃ m ∈ infos, CoveredBy m (offset + p) := by
  induction rounds generalizing offset s with
  | zero => exact absurd h (Nat.not_lt_zero _)
  | succ rounds ih =>
    rw [searchLoop]
    cases hsearch : regex.search s with
    | none =>
      refine ⟨[], rfl, by simp, fun p hp => ?_⟩
      exact absurd (search_eq_none_iff.mp hsearch p (hp.lt_length hmin).le) hp
    | some found =>
      obtain ⟨i, rest⟩ := found
      obtain ⟨hi, hrest, hbefore⟩ := search_spec hsearch
      obtain ⟨u, hsplit, hu⟩ := regex.rests_spec hrest
      have hlen := congrArg List.length hsplit
      rw [List.length_drop, List.length_append] at hlen
      have hlength : s.length - i - rest.length = u.length := by omega
      have hbehind : ∀ p, s.drop (i + u.length + p) = rest.drop p := by
        intro p
        rw [← List.drop_drop, ← List.drop_drop, hsplit, List.drop_left]
      have hrounds : rest.length < rounds := by omega
      obtain ⟨infos, hloop, hstarts, hcovers⟩ := ih (offset + i + u.length) hrounds
      dsimp only
      rw [hlength, hloop]
      refine ⟨_, rfl, fun m hm => ?_, fun p hp => ?_⟩
      · obtain rfl | hm := List.mem_cons.mp hm
        · exact ⟨i, rfl, List.ne_nil_of_mem hrest⟩
        · obtain ⟨p, hindex, hp⟩ := hstarts m hm
          refine ⟨i + u.length + p, by omega, ?_⟩
          rw [MatchesAt, hbehind]
          exact hp
      · have hnot : ¬p < i := fun hlt => hp (hbefore p hlt)
        by_cases hinside : p < i + u.length
        · exact ⟨_, List.mem_cons_self, by constructor <;> dsimp only <;> omega⟩
        · obtain ⟨q, rfl⟩ := Nat.exists_eq_add_of_le (Nat.not_lt.mp hinside)
          rw [MatchesAt, hbehind] at hp
          obtain ⟨m, hm, hcovered⟩ := hcovers q hp
          refine ⟨m, List.mem_cons_of_mem _ hm, ?_⟩
          rwa [← Nat.add_assoc, ← Nat.add_assoc]

/-! ## Chosen categories -/

theorem category_minLength_pos (c : CdsRegex) : 0 < c.regex.minLength := by
  cases c <;> decide

theorem category_markCount_pos (c : CdsRegex) : 0 < c.regex.markCount := by
  cases c <;> decide

theorem buildRegex_minLength_pos {cs : List CdsRegex} (h : cs ≠ []) :
    0 < (buildRegex cs).minLength := by
  cases cs with
  | nil => exact absurd rfl h
  | cons c cs =>
    apply alts_minLength_pos
    intro t ht
    rw [← List.map_cons] at ht
    obtain ⟨d, -, rfl⟩ := List.mem_map.mp ht
    exact category_minLength_pos d

theorem buildRegex_markCount_ne {cs : List CdsRegex} (h : cs ≠ []) :
    (buildRegex cs).markCount ≠ 0 := by
  cases cs with
  | nil => exact absurd rfl h
  | cons c cs =>
    have hle := markCount_le_alts c.regex (cs.map CdsRegex.regex)
    have hpos := category_markCount_pos c
    rw [buildRegex]
    omega

/-- The alternation matches where one of the chosen categories does. -/
theorem buildRegex_matchesAt_iff {cs : List CdsRegex} (h : cs ≠ []) {s : Bytes} {p : Nat} :
    MatchesAt (buildRegex cs) s p ↔ ∃ c ∈ cs, MatchesAt c.regex s p := by
  cases cs with
  | nil => exact absurd rfl h
  | cons c cs =>
    unfold MatchesAt
    rw [buildRegex, alts_rests, ← List.map_cons, Ne, List.flatMap_eq_nil_iff]
    simp only [List.mem_map, forall_exists_index, and_imp, forall_apply_eq_imp_iff₂, not_forall,
      exists_prop, ne_eq]

/-- The search ends, and its ranges begin where one of the categories matches and cover every
    byte where one does. -/
theorem regexSearch_spec (cs : List CdsRegex) (text : Bytes) :
    ∃ infos, regexSearch (buildRegex cs) text = some infos ∧
      (∀ m ∈ infos, ∃ c ∈ cs, MatchesAt c.regex text m.index) ∧
      ∀ p, (∃ c ∈ cs, MatchesAt c.regex text p) → ∃ m ∈ infos, CoveredBy m p := by
  by_cases hcs : cs = []
  · subst hcs
    exact ⟨[], rfl, by simp, by simp⟩
  · obtain ⟨infos, hloop, hstarts, hcovers⟩ :=
      searchLoop_spec (buildRegex_minLength_pos hcs) 0 (Nat.lt_succ_self text.length)
    refine ⟨infos, ?_, fun m hm => ?_, fun p hp => ?_⟩
    · rw [regexSearch, if_neg (buildRegex_markCount_ne hcs)]
      exact hloop
    · obtain ⟨p, hindex, hp⟩ := hstarts m hm
      rw [hindex, Nat.zero_add]
      exact (buildRegex_matchesAt_iff hcs).mp hp
    · have hcovered := hcovers p ((buildRegex_matchesAt_iff hcs).mpr hp)
      rwa [Nat.zero_add] at hcovered

/-- With further categories, in any order, every byte where a match of the others begins is still
    covered, the first byte of every range among them. -/
theorem match_starts_stay_covered (A B : List CdsRegex) (h : A ⊆ B) (text : Bytes) :
    ∃ before after, regexSearch (buildRegex A) text = some before ∧
      regexSearch (buildRegex B) text = some after ∧
      (∀ m ∈ before, ∃ m' ∈ after, CoveredBy m' m.index) ∧
      ∀ p, (∃ c ∈ A, MatchesAt c.regex text p) → ∃ m' ∈ after, CoveredBy m' p := by
  obtain ⟨before, hbefore, hstarts, -⟩ := regexSearch_spec A text
  obtain ⟨after, hafter, -, hcovers⟩ := regexSearch_spec B text
  have hbegins : ∀ p, (∃ c ∈ A, MatchesAt c.regex text p) → ∃ m' ∈ after, CoveredBy m' p := by
    intro p hp
    obtain ⟨c, hc, hmatch⟩ := hp
    exact hcovers p ⟨c, h hc, hmatch⟩
  exact ⟨before, after, hbefore, hafter, fun m hm => hbegins m.index (hstarts m hm), hbegins⟩

/-- `5010 - 1234 - 5678`: a telephone number behind a digit. -/
def digitThenPhone : Bytes := utf8 "5010 - 1234 - 5678".toList

theorem match_starts_stay_covered_phone :
    ∃ before after, regexSearch (buildRegex [.kPhoneNumber]) digitThenPhone = some before ∧
      regexSearch (buildRegex [.kPhoneNumber, .kAllNumber]) digitThenPhone = some after ∧
      (∀ m ∈ before, ∃ m' ∈ after, CoveredBy m' m.index) ∧
      ∀ p, (∃ c ∈ [CdsRegex.kPhoneNumber], MatchesAt c.regex digitThenPhone p) →
        ∃ m' ∈ after, CoveredBy m' p :=
  match_starts_stay_covered [.kPhoneNumber] [.kPhoneNumber, .kAllNumber] (by decide)
    digitThenPhone

/-- The telephone number alone covers the blank at 4; with all numbers as a further category the
    digits before it are taken first, and no range covers the blank. -/
theorem number_uncovers :
    regexSearch (buildRegex [.kPhoneNumber]) digitThenPhone = some [⟨1, 17⟩] ∧
    regexSearch (buildRegex [.kPhoneNumber, .kAllNumber]) digitThenPhone =
      some [⟨0, 3⟩, ⟨3, 1⟩, ⟨7, 3⟩, ⟨10, 1⟩, ⟨14, 3⟩, ⟨17, 1⟩] ∧
    CoveredBy ⟨1, 17⟩ 4 ∧
    ∀ m ∈ [(⟨0, 3⟩ : MatchedInfo), ⟨3, 1⟩, ⟨7, 3⟩, ⟨10, 1⟩, ⟨14, 3⟩, ⟨17, 1⟩],
      ¬CoveredBy m 4 := by
  unfold CoveredBy
  decide +kernel

end CdsGuard.Gateway
