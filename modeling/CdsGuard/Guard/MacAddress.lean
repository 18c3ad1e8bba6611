import CdsGuard.Lib.HexNumber
import CdsGuard.Lib.Lines

/-
  `mac_str_to_bytes`, against the grammar of a MAC address: six groups of one or two hexadecimal
  digits, joined by ':'.

  Proved: `acceptsGrammar_iff`, the exact texts on which the two differ. `std::stoi` takes more
  than such a group, and the loop reads a seventh group before it looks at its counter.
-/

namespace CdsGuard.Guard

open CdsGuard.Lib

/-! ## The parser -/

/-- ':' -/
def colon : UInt8 := 0x3a

/-- `std::invalid_argument`. -/
structure InvalidArgument where
  what : String

def invalidFormat : InvalidArgument := ⟨"Invalid MAC address format"⟩

/-- The loop, with `left` for `6 - i`: what is left in the stream, and the bytes set so far. -/
def readGroups : Nat → Bytes → Bytes → Except InvalidArgument (Bytes × Bytes)
  | left, iss, macBytes =>
    match getline colon iss with
    | none => .ok (iss, macBytes)
    | some (byteStr, rest) =>
      match left with
      -- the line is read before the counter is looked at
      | 0 => .ok (rest, macBytes)
      | left + 1 =>
        match stoiHex byteStr with
        | none => .error invalidFormat
        | some v => readGroups left rest (macBytes ++ [UInt8.ofInt v])

def macStrToBytes (macStr : Bytes) : Except InvalidArgument Bytes :=
  match readGroups 6 macStr [] with
  | .error e => .error e
  | .ok (iss, macBytes) =>
    if macBytes.length ≠ 6 ∨ iss.length ≠ 0 then .error invalidFormat else .ok macBytes

/-! ## The grammar -/

/-- One or two hexadecimal digits. -/
structure HexGroup (g : Bytes) : Prop where
  length : g.length = 1 ∨ g.length = 2
  digits : ∀ b ∈ g, isHexDigit b = true

/-- The text is six such groups joined by ':'. -/
structure MacAddress (groups : List Bytes) (s : Bytes) : Prop where
  six : groups.length = 6
  group : ∀ g ∈ groups, HexGroup g
  joined : s = [colon].intercalate groups

/-- What the grammar says of a text is what the parser does. -/
def AcceptsGrammar (s : Bytes) : Prop :=
  (∀ groups, MacAddress groups s →
    macStrToBytes s = .ok (groups.map fun g => UInt8.ofNat (hexValue g))) ∧
  ((¬∃ groups, MacAddress groups s) → macStrToBytes s = .error invalidFormat)

/-- `std::stoi` reads the text: it has the form of a hexadecimal number, within an `int`. -/
def Readable (g : Bytes) : Prop := ∃ t : HexText g, -2 ^ 31 ≤ t.value ∧ t.value < 2 ^ 31

/-- Cut at ':' the text has six or seven groups, not counting an empty one at the very end, and the
    first six are readable; but there is a seventh one, or a ':' at the end, or one of the six is
    not one or two digits. -/
structure Slips (s : Bytes) : Prop where
  six : 6 ≤ (lines colon s).length
  seven : (lines colon s).length ≤ 7
  readable : ∀ g ∈ (lines colon s).take 6, Readable g
  other : (lines colon s).length = 7 ∨ s.getLast? = some colon ∨
    ∃ g ∈ (lines colon s).take 6, ¬HexGroup g

/-! ## What is accepted -/

theorem readable_iff {g : Bytes} : Readable g ↔ ∃ v, stoiHex g = some v := by
  constructor
  · intro h
    obtain ⟨t, hlo, hhi⟩ := h
    exact ⟨t.value, stoiHex_eq_some_iff.mpr ⟨⟨t, rfl⟩, hlo, hhi⟩⟩
  · intro h
    obtain ⟨v, hv⟩ := h
    obtain ⟨⟨t, rfl⟩, hlo, hhi⟩ := stoiHex_eq_some_iff.mp hv
    exact ⟨t, hlo, hhi⟩

theorem readGroups_nil (left : Nat) (macBytes : Bytes) :
    readGroups left [] macBytes = .ok ([], macBytes) := by
  unfold readGroups
  rfl

section

variable {s byteStr rest : Bytes} (hline : getline colon s = some (byteStr, rest))
include hline

/-- The group behind the last one is taken off the stream as well. -/
theorem readGroups_zero (macBytes : Bytes) : readGroups 0 s macBytes = .ok (rest, macBytes) := by
  unfold readGroups
  rw [hline]

theorem readGroups_unreadable (hread : stoiHex byteStr = none) (left : Nat) (macBytes : Bytes) :
    readGroups (left + 1) s macBytes = .error invalidFormat := by
  unfold readGroups
  rw [hline]
  dsimp only
  rw [hread]

theorem readGroups_succ {v : Int} (hread : stoiHex byteStr = some v) (left : Nat)
    (macBytes : Bytes) :
    readGroups (left + 1) s macBytes = readGroups left rest (macBytes ++ [UInt8.ofInt v]) := by
  rw [readGroups, hline]
  dsimp only
  rw [hread]

end

theorem exists_getline {s : Bytes} (hne : s ≠ []) :
    ∃ byteStr rest, getline colon s = some (byteStr, rest) ∧
      lines colon s = byteStr :: lines colon rest := by
  cases hline : getline colon s with
  | none => exact absurd (getline_eq_none_iff.mp hline) hne
  | some cut => exact ⟨cut.1, cut.2, rfl, lines_of_getline hline⟩

theorem readGroups_zero_iff {s macBytes bytes : Bytes} :
    readGroups 0 s macBytes = .ok ([], bytes) ↔
      (lines colon s).length ≤ 1 ∧ bytes = macBytes := by
  by_cases hs : s = []
  · rw [hs, readGroups_nil]
    simp [lines, eq_comm]
  · obtain ⟨byteStr, rest, hline, hlines⟩ := exists_getline hs
    rw [readGroups_zero hline, hlines, List.length_cons, Nat.succ_le_succ_iff, Nat.le_zero,
      List.length_eq_zero_iff, lines_eq_nil_iff]
    simp [eq_comm]

/-- The loop fills the array and leaves nothing in the stream exactly if the first groups are read
    and at most one more follows. -/
theorem readGroups_iff {left : Nat} {s macBytes bytes : Bytes} :
    readGroups left s macBytes = .ok ([], bytes) ∧ bytes.length = macBytes.length + left ↔
      ∃ (groups more : List Bytes) (values : List Int),
        lines colon s = groups ++ more ∧ groups.length = left ∧ more.length ≤ 1 ∧
        groups.map stoiHex = values.map some ∧
        bytes = macBytes ++ values.map UInt8.ofInt := by
  induction left generalizing s macBytes with
  | zero =>
    rw [readGroups_zero_iff]
    constructor
    · intro h
      obtain ⟨⟨hmore, rfl⟩, -⟩ := h
      exact ⟨[], lines colon s, [], rfl, rfl, hmore, rfl, (List.append_nil _).symm⟩
    · intro h
      obtain ⟨groups, more, values, hlines, hlen, hmore, hread, rfl⟩ := h
      obtain rfl := List.length_eq_zero_iff.mp hlen
      obtain rfl := List.map_eq_nil_iff.mp hread.symm
      rw [List.nil_append] at hlines
      rw [List.map_nil, List.append_nil, hlines]
      exact ⟨⟨hmore, rfl⟩, rfl⟩
  | succ left ih =>
    by_cases hs : s = []
    · rw [hs, readGroups_nil]
      constructor
      · intro h
        obtain ⟨hok, hlen⟩ := h
        obtain rfl := (Prod.mk.inj (Except.ok.inj hok)).2
        omega
      · intro h
        obtain ⟨groups, more, values, hlines, hlen, -⟩ := h
        rw [(List.append_eq_nil_iff.mp hlines.symm).1] at hlen
        cases hlen
    · obtain ⟨byteStr, rest, hline, hlines⟩ := exists_getline hs
      rw [hlines]
      cases hread : stoiHex byteStr with
      | none =>
        rw [readGroups_unreadable hline hread]
        constructor
        · intro h
          obtain ⟨hok, -⟩ := h
          cases hok
        · intro h
          obtain ⟨groups, more, values, hcut, hlen, -, hall, -⟩ := h
          cases groups with
          | nil => cases hlen
          | cons g groups =>
            obtain ⟨rfl, -⟩ := List.cons.inj hcut
            rw [List.map_cons, hread] at hall
            cases values <;> cases hall
      | some v =>
        have hnext := @ih rest (macBytes ++ [UInt8.ofInt v])
        rw [List.length_append, List.length_singleton, Nat.add_assoc, Nat.add_comm 1] at hnext
        rw [readGroups_succ hline hread, hnext]
        constructor
        · intro h
          obtain ⟨groups, more, values, hcut, hlen, hmore, hall, rfl⟩ := h
          refine ⟨byteStr :: groups, more, v :: values, ?_, ?_, hmore, ?_, ?_⟩
          · rw [hcut, List.cons_append]
          · rw [List.length_cons, hlen]
          · rw [List.map_cons, List.map_cons, hread, hall]
          · rw [List.map_cons, List.append_assoc, List.singleton_append]
        · intro h
          obtain ⟨groups, more, values, hcut, hlen, hmore, hall, rfl⟩ := h
          cases groups with
          | nil => cases hlen
          | cons g groups =>
            rw [List.cons_append] at hcut
            obtain ⟨rfl, hrest⟩ := List.cons.inj hcut
            cases values with
            | nil => cases hall
            | cons u values =>
              rw [List.map_cons, List.map_cons, hread] at hall
              obtain ⟨hhead, htail⟩ := List.cons.inj hall
              obtain rfl := Option.some.inj hhead
              refine ⟨groups, more, values, hrest, Nat.succ.inj hlen, hmore, htail, ?_⟩
              rw [List.map_cons, List.append_assoc, List.singleton_append]

/-- There is one message only. -/
theorem readGroups_error {left : Nat} {s macBytes : Bytes} {e : InvalidArgument}
    (h : readGroups left s macBytes = .error e) : e = invalidFormat := by
  induction left generalizing s macBytes with
  | zero =>
    by_cases hs : s = []
    · rw [hs, readGroups_nil] at h
      cases h
    · obtain ⟨byteStr, rest, hline, -⟩ := exists_getline hs
      rw [readGroups_zero hline] at h
      cases h
  | succ left ih =>
    by_cases hs : s = []
    · rw [hs, readGroups_nil] at h
      cases h
    · obtain ⟨byteStr, rest, hline, -⟩ := exists_getline hs
      cases hread : stoiHex byteStr with
      | none =>
        rw [readGroups_unreadable hline hread] at h
        exact (Except.error.inj h).symm
      | some v =>
        rw [readGroups_succ hline hread] at h
        exact ih h

theorem macStrToBytes_error {s : Bytes} {e : InvalidArgument}
    (h : macStrToBytes s = .error e) : e = invalidFormat := by
  unfold macStrToBytes at h
  split at h
  · rename_i hread
    rw [← Except.error.inj h]
    exact readGroups_error hread
  · split at h
    · exact (Except.error.inj h).symm
    · cases h

/-- The texts accepted, and the bytes made of them. -/
theorem macStrToBytes_iff {s bytes : Bytes} :
    macStrToBytes s = .ok bytes ↔
      ∃ (groups more : List Bytes) (values : List Int),
        lines colon s = groups ++ more ∧ groups.length = 6 ∧ more.length ≤ 1 ∧
        groups.map stoiHex = values.map some ∧
        bytes = values.map UInt8.ofInt := by
  have hread := @readGroups_iff 6 s [] bytes
  simp only [List.nil_append, List.length_nil, Nat.zero_add] at hread
  rw [← hread]
  unfold macStrToBytes
  split
  · rename_i hbad
    rw [hbad]
    exact iff_of_false (fun h => by cases h) fun h => by cases h.1
  · rename_i iss macBytes hok
    rw [hok]
    split
    · rename_i hbad
      refine iff_of_false (fun h => by cases h) fun h => ?_
      obtain ⟨rfl, rfl⟩ := Prod.mk.inj (Except.ok.inj h.1)
      exact hbad.elim (fun hlen => hlen h.2) fun hrest => hrest rfl
    · rename_i hgood
      obtain ⟨hlen, hrest⟩ := not_or.mp hgood
      obtain rfl := List.length_eq_zero_iff.mp (not_not.mp hrest)
      constructor
      · intro h
        obtain rfl := Except.ok.inj h
        exact ⟨rfl, not_not.mp hlen⟩
      · intro h
        obtain ⟨h, -⟩ := h
        obtain rfl := (Prod.mk.inj (Except.ok.inj h)).2
        rfl

/-! ## Addresses -/

theorem HexGroup.ne_nil {g : Bytes} (h : HexGroup g) : g ≠ [] := by
  intro hnil
  have hlen := h.length
  rw [hnil] at hlen
  exact absurd hlen (by decide)

theorem HexGroup.no_colon {g : Bytes} (h : HexGroup g) : colon ∉ g := fun hmem =>
  hexDigit_ne (h.digits colon hmem) (by decide : isHexDigit colon = false) rfl

theorem HexGroup.stoiHex {g : Bytes} (h : HexGroup g) : stoiHex g = some (hexValue g) :=
  stoiHex_digits h.ne_nil h.digits (by rcases h.length with hlen | hlen <;> omega)

theorem ofInt_natCast (n : Nat) : UInt8.ofInt n = UInt8.ofNat n := by
  have hmod : ((n : Int) % 2 ^ 8).toNat = n % 2 ^ 8 := by omega
  rw [UInt8.ofInt, hmod, UInt8.ofNat_mod_size]

namespace MacAddress

variable {groups : List Bytes} {s : Bytes} (h : MacAddress groups s)
include h

theorem lines_eq : lines colon s = groups := by
  rw [h.joined]
  exact lines_intercalate fun g hg => ⟨(h.group g hg).no_colon, (h.group g hg).ne_nil⟩

theorem getLast?_ne : s.getLast? ≠ some colon := by
  have hne : groups ≠ [] := List.ne_nil_of_length_pos (by rw [h.six]; decide)
  have hgroup := h.group _ (List.getLast_mem hne)
  rw [h.joined, getLast?_intercalate (List.getLast?_eq_some_getLast hne) hgroup.ne_nil]
  exact fun hlast => hgroup.no_colon (List.mem_of_getLast? hlast)

/-- An address is accepted, with the bytes that its groups stand for. -/
theorem accepted : macStrToBytes s = .ok (groups.map fun g => UInt8.ofNat (hexValue g)) := by
  refine macStrToBytes_iff.mpr ⟨groups, [], groups.map fun g => (hexValue g : Int), ?_, h.six,
    Nat.zero_le 1, ?_, ?_⟩
  · rw [List.append_nil, h.lines_eq]
  · rw [List.map_map]
    exact List.map_congr_left fun g hg => (h.group g hg).stoiHex
  · rw [List.map_map]
    exact List.map_congr_left fun g _ => (ofInt_natCast (hexValue g)).symm

end MacAddress

/-- A text that slips is accepted as well. -/
theorem Slips.accepted {s : Bytes} (h : Slips s) : ∃ bytes, macStrToBytes s = .ok bytes := by
  refine ⟨_, macStrToBytes_iff.mpr ⟨(lines colon s).take 6, (lines colon s).drop 6,
    ((lines colon s).take 6).map fun g => (stoiHex g).getD 0, ?_, ?_, ?_, ?_, rfl⟩⟩
  · rw [List.take_append_drop]
  · rw [List.length_take, Nat.min_eq_left h.six]
  · have hseven := h.seven
    rw [List.length_drop]
    omega
  · rw [List.map_map]
    refine List.map_congr_left fun g hg => ?_
    obtain ⟨v, hv⟩ := readable_iff.mp (h.readable g hg)
    rw [Function.comp, hv, Option.getD_some]

/-- No address slips. -/
theorem Slips.not_macAddress {s : Bytes} (h : Slips s) {groups : List Bytes} :
    ¬MacAddress groups s := by
  intro hmac
  rcases h.other with hseven | hcolon | ⟨g, hg, hnot⟩
  · rw [hmac.lines_eq, hmac.six] at hseven
    omega
  · exact hmac.getLast?_ne hcolon
  · rw [hmac.lines_eq] at hg
    exact hnot (hmac.group g (List.mem_of_mem_take hg))

/-- Whatever is accepted is an address or slips. -/
theorem macAddress_or_slips {s bytes : Bytes} (h : macStrToBytes s = .ok bytes) :
    (∃ groups, MacAddress groups s) ∨ Slips s := by
  obtain ⟨groups, more, values, hlines, hsix, hmore, hread, -⟩ := macStrToBytes_iff.mp h
  have htake : (lines colon s).take 6 = groups := by
    rw [hlines, List.take_left' hsix]
  have hlen : (lines colon s).length = 6 + more.length := by
    rw [hlines, List.length_append, hsix]
  by_cases hother : (lines colon s).length = 7 ∨ s.getLast? = some colon ∨
      ∃ g ∈ (lines colon s).take 6, ¬HexGroup g
  · refine .inr ⟨by omega, by omega, fun g hg => readable_iff.mpr ?_, hother⟩
    rw [htake] at hg
    have hmem := List.mem_map_of_mem (f := Lib.stoiHex) hg
    rw [hread] at hmem
    obtain ⟨v, -, hv⟩ := List.mem_map.mp hmem
    exact ⟨v, hv.symm⟩
  · obtain ⟨hseven, hcolon, hgroup⟩ : _ ∧ _ ∧ _ := by
      simpa only [not_or, not_exists, not_and, not_not] using hother
    rw [htake] at hgroup
    have hnone : more = [] := List.length_eq_zero_iff.mp (by omega)
    refine .inl ⟨groups, hsix, hgroup, ?_⟩
    rw [← intercalate_lines hcolon, hlines, hnone, List.append_nil]

/-- For every text: the parser does what the grammar says exactly if the text does not slip. -/
theorem acceptsGrammar_iff (s : Bytes) : AcceptsGrammar s ↔ ¬Slips s := by
  constructor
  · intro haccepts hslips
    obtain ⟨bytes, hok⟩ := hslips.accepted
    rw [haccepts.2 fun hmac => hslips.not_macAddress hmac.choose_spec] at hok
    cases hok
  · intro hnot
    refine ⟨fun groups hmac => hmac.accepted, fun hnone => ?_⟩
    cases hresult : macStrToBytes s with
    | error e => rw [macStrToBytes_error hresult]
    | ok bytes => exact absurd (macAddress_or_slips hresult) (not_or.mpr ⟨hnone, hnot⟩)

/-- "1:2:3:4:5:6:zz" -/
def seventhGroup : Bytes :=
  [0x31, 0x3a, 0x32, 0x3a, 0x33, 0x3a, 0x34, 0x3a, 0x35, 0x3a, 0x36, 0x3a, 0x7a, 0x7a]

/-- A seventh group is read and forgotten. -/
theorem seventhGroup_accepted : macStrToBytes seventhGroup = .ok [1, 2, 3, 4, 5, 6] ∧
    (¬∃ groups, MacAddress groups seventhGroup) ∧ ¬AcceptsGrammar seventhGroup := by
  have hok : macStrToBytes seventhGroup = .ok [1, 2, 3, 4, 5, 6] := by rfl
  have hlines : (lines colon seventhGroup).length = 7 := by decide
  have hnone : ¬∃ groups, MacAddress groups seventhGroup := by
    intro h
    obtain ⟨groups, hmac⟩ := h
    rw [hmac.lines_eq, hmac.six] at hlines
    cases hlines
  refine ⟨hok, hnone, fun haccepts => ?_⟩
  rw [haccepts.2 hnone] at hok
  cases hok

end CdsGuard.Guard
