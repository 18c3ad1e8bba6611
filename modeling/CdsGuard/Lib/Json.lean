import CdsGuard.Lib.Bytes

/-
  JSON texts as their grammar builds them, over bytes; the encoding of the characters in a string is
  left out. A scanner counts the open brackets outside of strings: every part of a text leaves the
  count as it was, and inside an array or object it is above what it was before.

  So an array that is cut off anywhere but in the white space behind it is no text any more
  (`IsText.spaces_of_cut`), and a connection that ends early can lose the array, but not pass for
  one that carried a shorter array.
-/

namespace CdsGuard.Lib.Json

/-! ## Grammar -/

def quote : UInt8 := 0x22
def backslash : UInt8 := 0x5c
def comma : UInt8 := 0x2c
def colon : UInt8 := 0x3a
def openArray : UInt8 := 0x5b
def closeArray : UInt8 := 0x5d
def openObject : UInt8 := 0x7b
def closeObject : UInt8 := 0x7d

def IsSpace (b : UInt8) : Prop := b = 0x20 ∨ b = 0x09 ∨ b = 0x0a ∨ b = 0x0d

instance (b : UInt8) : Decidable (IsSpace b) :=
  inferInstanceAs (Decidable (b = 0x20 ∨ b = 0x09 ∨ b = 0x0a ∨ b = 0x0d))

abbrev Spaces (bs : Bytes) : Prop := ∀ b ∈ bs, IsSpace b

def IsDigit (b : UInt8) : Prop := 0x30 ≤ b ∧ b ≤ 0x39

def IsHex (b : UInt8) : Prop := IsDigit b ∨ 0x41 ≤ b ∧ b ≤ 0x46 ∨ 0x61 ≤ b ∧ b ≤ 0x66

/-- `true`, `false` and `null`. -/
def names : List Bytes :=
  [[0x74, 0x72, 0x75, 0x65], [0x66, 0x61, 0x6c, 0x73, 0x65], [0x6e, 0x75, 0x6c, 0x6c]]

abbrev Digits (ds : Bytes) : Prop := ds ≠ [] ∧ ∀ b ∈ ds, IsDigit b

/-- A sign, digits without a leading zero, a fraction and an exponent. -/
structure IsNumber (bs : Bytes) : Prop where
  parts : ∃ sign int frac exp, bs = sign ++ int ++ frac ++ exp ∧
    (sign = [] ∨ sign = [0x2d]) ∧
    (Digits int ∧ (int.head? = some 0x30 → int = [0x30])) ∧
    (frac = [] ∨ ∃ ds, Digits ds ∧ frac = 0x2e :: ds) ∧
    (exp = [] ∨ ∃ e s ds, (e = 0x65 ∨ e = 0x45) ∧ (s = [] ∨ s = [0x2b] ∨ s = [0x2d]) ∧
      Digits ds ∧ exp = e :: (s ++ ds))

/-- What stands behind a backslash, `\u` left out. -/
def escapes : List UInt8 := [quote, backslash, 0x2f, 0x62, 0x66, 0x6e, 0x72, 0x74]

inductive IsChars : Bytes → Prop
  | nil : IsChars []
  | plain {b : UInt8} {bs : Bytes} :
      0x20 ≤ b → b ≠ quote → b ≠ backslash → IsChars bs → IsChars (b :: bs)
  | escape {b : UInt8} {bs : Bytes} : b ∈ escapes → IsChars bs → IsChars (backslash :: b :: bs)
  | unicode {h₁ h₂ h₃ h₄ : UInt8} {bs : Bytes} : IsHex h₁ → IsHex h₂ → IsHex h₃ → IsHex h₄ →
      IsChars bs → IsChars (backslash :: 0x75 :: h₁ :: h₂ :: h₃ :: h₄ :: bs)

/-- The parts that a text is made of. -/
inductive Part where
  | string
  | value
  | element
  | elements
  | member
  | members

inductive Derives : Part → Bytes → Prop
  | string {cs : Bytes} : IsChars cs → Derives .string (quote :: (cs ++ [quote]))
  | name {bs : Bytes} : bs ∈ names → Derives .value bs
  | number {bs : Bytes} : IsNumber bs → Derives .value bs
  | ofString {bs : Bytes} : Derives .string bs → Derives .value bs
  | emptyArray {ws : Bytes} : Spaces ws → Derives .value (openArray :: (ws ++ [closeArray]))
  | array {es : Bytes} : Derives .elements es → Derives .value (openArray :: (es ++ [closeArray]))
  | emptyObject {ws : Bytes} : Spaces ws → Derives .value (openObject :: (ws ++ [closeObject]))
  | object {ms : Bytes} :
      Derives .members ms → Derives .value (openObject :: (ms ++ [closeObject]))
  | element {ws v ws' : Bytes} :
      Spaces ws → Derives .value v → Spaces ws' → Derives .element (ws ++ (v ++ ws'))
  | lastElement {e : Bytes} : Derives .element e → Derives .elements e
  | elements {e es : Bytes} :
      Derives .element e → Derives .elements es → Derives .elements (e ++ comma :: es)
  | member {ws k ws' e : Bytes} : Spaces ws → Derives .string k → Spaces ws' →
      Derives .element e → Derives .member (ws ++ (k ++ (ws' ++ colon :: e)))
  | lastMember {m : Bytes} : Derives .member m → Derives .members m
  | members {m ms : Bytes} :
      Derives .member m → Derives .members ms → Derives .members (m ++ comma :: ms)

def IsText (bs : Bytes) : Prop := Derives .element bs

/-- A text of an array, whatever the array holds. -/
def IsArrayText (bs : Bytes) : Prop :=
  IsText bs ∧ ∃ ws rest, Spaces ws ∧ bs = ws ++ openArray :: rest

/-! ## Scanner -/

inductive Mode where
  | outside
  | inString
  | escaped
  deriving DecidableEq

/-- How many brackets are open, and whether the next byte belongs to a string. -/
structure ScanState where
  depth : Nat
  mode : Mode

def ScanState.next (s : ScanState) (b : UInt8) : ScanState :=
  match s.mode with
  | .escaped => ⟨s.depth, .inString⟩
  | .inString =>
    if b = quote then ⟨s.depth, .outside⟩
    else if b = backslash then ⟨s.depth, .escaped⟩
    else s
  | .outside =>
    if b = quote then ⟨s.depth, .inString⟩
    else if b = openArray ∨ b = openObject then ⟨s.depth + 1, .outside⟩
    else if b = closeArray ∨ b = closeObject then ⟨s.depth - 1, .outside⟩
    else s

def ScanState.scan (s : ScanState) (bs : Bytes) : ScanState := bs.foldl next s

/-- Scanned from outside of a string, it comes back to the same depth and is never below it. -/
structure Balanced (bs : Bytes) : Prop where
  scan : ∀ d, (ScanState.mk d .outside).scan bs = ⟨d, .outside⟩
  depth_le : ∀ d p, p <+: bs → d ≤ ((ScanState.mk d .outside).scan p).depth

/-- It means nothing to the scanner. -/
def IsPlain (b : UInt8) : Prop :=
  b ≠ quote ∧ b ≠ openArray ∧ b ≠ openObject ∧ b ≠ closeArray ∧ b ≠ closeObject

instance (b : UInt8) : Decidable (IsPlain b) :=
  inferInstanceAs (Decidable (_ ∧ _ ∧ _ ∧ _ ∧ _))

theorem ScanState.scan_append (s : ScanState) (bs bs' : Bytes) :
    s.scan (bs ++ bs') = (s.scan bs).scan bs' :=
  List.foldl_append

theorem ScanState.next_plain {b : UInt8} (h : IsPlain b) (d : Nat) :
    (ScanState.mk d .outside).next b = ⟨d, .outside⟩ := by
  obtain ⟨hquote, harr, hobj, harr', hobj'⟩ := h
  show (if b = quote then _ else if b = openArray ∨ b = openObject then _ else
    if b = closeArray ∨ b = closeObject then _ else _) = _
  rw [if_neg hquote, if_neg (by simp [harr, hobj]), if_neg (by simp [harr', hobj'])]

/-- What is cut off two parts ends in the first or behind it. -/
theorem cut_append {p xs ys : Bytes} (h : p <+: xs ++ ys) :
    p <+: xs ∨ ∃ q, q <+: ys ∧ p = xs ++ q := by
  obtain ⟨r, hr⟩ := h
  rcases List.append_eq_append_iff.mp hr with ⟨q, rfl, -⟩ | ⟨q, rfl, rfl⟩
  · exact .inl (List.prefix_append p q)
  · exact .inr ⟨q, List.prefix_append q r, rfl⟩

namespace Balanced

theorem nil : Balanced [] :=
  ⟨fun _ => rfl, fun d p hp => by rw [List.prefix_nil.mp hp]; exact Nat.le_refl d⟩

theorem append {bs bs' : Bytes} (h : Balanced bs) (h' : Balanced bs') : Balanced (bs ++ bs') := by
  refine ⟨fun d => ?_, fun d p hp => ?_⟩
  · rw [ScanState.scan_append, h.scan, h'.scan]
  · rcases cut_append hp with hp | ⟨q, hq, rfl⟩
    · exact h.depth_le d p hp
    · rw [ScanState.scan_append, h.scan]
      exact h'.depth_le d q hq

theorem plain {bs : Bytes} (h : ∀ b ∈ bs, IsPlain b) : Balanced bs := by
  have hscan : ∀ p, p <+: bs → ∀ d, (ScanState.mk d .outside).scan p = ⟨d, .outside⟩ := by
    intro p hp d
    induction p generalizing bs with
    | nil => rfl
    | cons b p ih =>
      obtain ⟨bs', rfl, hp'⟩ := List.cons_prefix_iff.mp hp
      show ((ScanState.mk d .outside).next b).scan p = _
      rw [ScanState.next_plain (h b List.mem_cons_self)]
      exact ih (fun c hc => h c (List.mem_cons_of_mem b hc)) hp'
  exact ⟨hscan bs List.prefix_rfl, fun d p hp => by rw [hscan p hp]⟩

variable {o c : UInt8} {bs : Bytes}

theorem scan_open (ho : o = openArray ∨ o = openObject) (d : Nat) (bs : Bytes) :
    (ScanState.mk d .outside).scan (o :: bs) = (ScanState.mk (d + 1) .outside).scan bs := by
  rcases ho with rfl | rfl <;> rfl

/-- Behind the opening bracket the count is above what it was. -/
theorem lt_depth (ho : o = openArray ∨ o = openObject) (h : Balanced bs) (d : Nat) {p : Bytes}
    (hp : p <+: o :: bs) (hne : p ≠ []) : d < ((ScanState.mk d .outside).scan p).depth := by
  rcases List.prefix_cons_iff.mp hp with rfl | ⟨q, rfl, hq⟩
  · exact absurd rfl hne
  · rw [scan_open ho]
    exact h.depth_le (d + 1) q hq

theorem bracket (ho : o = openArray ∨ o = openObject) (hc : c = closeArray ∨ c = closeObject)
    (h : Balanced bs) : Balanced (o :: (bs ++ [c])) := by
  have hclose : ∀ d, (ScanState.mk (d + 1) .outside).scan [c] = ⟨d, .outside⟩ := by
    intro d
    rcases hc with rfl | rfl <;> rfl
  have hscan : ∀ d, (ScanState.mk d .outside).scan (o :: (bs ++ [c])) = ⟨d, .outside⟩ := by
    intro d
    rw [scan_open ho, ScanState.scan_append, h.scan, hclose]
  refine ⟨hscan, fun d p hp => ?_⟩
  rw [← List.cons_append] at hp
  rcases cut_append hp with hp | ⟨q, hq, rfl⟩
  · by_cases hne : p = []
    · subst hne
      exact Nat.le_refl d
    · exact Nat.le_of_lt (h.lt_depth ho d hp hne)
  · rcases List.prefix_cons_iff.mp hq with rfl | ⟨q', rfl, hq'⟩
    · rw [List.append_nil]
      exact Nat.le_of_lt (h.lt_depth ho d List.prefix_rfl (List.cons_ne_nil o bs))
    · rw [List.prefix_nil.mp hq', List.cons_append, hscan d]

end Balanced

/-- Scanned inside of a string, it stays there. -/
structure InsideString (cs : Bytes) : Prop where
  scan : ∀ d, (ScanState.mk d .inString).scan cs = ⟨d, .inString⟩
  depth_eq : ∀ d p, p <+: cs → ((ScanState.mk d .inString).scan p).depth = d

namespace InsideString

variable {b : UInt8} {cs : Bytes}

theorem plain (hquote : b ≠ quote) (hback : b ≠ backslash) (h : InsideString cs) :
    InsideString (b :: cs) := by
  have hnext : ∀ d, (ScanState.mk d .inString).next b = ⟨d, .inString⟩ := by
    intro d
    show (if b = quote then _ else if b = backslash then _ else _) = _
    rw [if_neg hquote, if_neg hback]
  have hcons : ∀ d p, (ScanState.mk d .inString).scan (b :: p) =
      (ScanState.mk d .inString).scan p := by
    intro d p
    show ((ScanState.mk d .inString).next b).scan p = _
    rw [hnext]
  refine ⟨fun d => by rw [hcons, h.scan], fun d p hp => ?_⟩
  rcases List.prefix_cons_iff.mp hp with rfl | ⟨q, rfl, hq⟩
  · rfl
  · rw [hcons]
    exact h.depth_eq d q hq

theorem escape (h : InsideString cs) : InsideString (backslash :: b :: cs) := by
  refine ⟨fun d => h.scan d, fun d p hp => ?_⟩
  rcases List.prefix_cons_iff.mp hp with rfl | ⟨q, rfl, hq⟩
  · rfl
  · rcases List.prefix_cons_iff.mp hq with rfl | ⟨q', rfl, hq'⟩
    · rfl
    · exact h.depth_eq d q' hq'

theorem quoted (h : InsideString cs) : Balanced (quote :: (cs ++ [quote])) := by
  have hscan : ∀ d, (ScanState.mk d .outside).scan (quote :: (cs ++ [quote])) = ⟨d, .outside⟩ := by
    intro d
    show (ScanState.mk d .inString).scan (cs ++ [quote]) = _
    rw [ScanState.scan_append, h.scan]
    rfl
  refine ⟨hscan, fun d p hp => ?_⟩
  rcases List.prefix_cons_iff.mp hp with rfl | ⟨q, rfl, hq⟩
  · exact Nat.le_refl d
  · show d ≤ ((ScanState.mk d .inString).scan q).depth
    rcases cut_append hq with hq | ⟨q', hq', rfl⟩
    · rw [h.depth_eq d q hq]
    · rw [ScanState.scan_append, h.scan]
      rcases List.prefix_cons_iff.mp hq' with rfl | ⟨q'', rfl, hq''⟩
      · exact Nat.le_refl d
      · rw [List.prefix_nil.mp hq'']
        exact Nat.le_refl d

end InsideString

/-! ## What a text is made of -/

theorem IsDigit.plain {b : UInt8} (h : IsDigit b) : IsPlain b := by
  obtain ⟨hlo, hhi⟩ := h
  refine ⟨?_, ?_, ?_, ?_, ?_⟩ <;> rintro rfl <;> revert hlo hhi <;> decide

theorem IsSpace.plain {b : UInt8} (h : IsSpace b) : IsPlain b := by
  rcases h with rfl | rfl | rfl | rfl <;> decide

theorem IsHex.inside {b : UInt8} (h : IsHex b) : b ≠ quote ∧ b ≠ backslash := by
  rcases h with ⟨hlo, hhi⟩ | ⟨hlo, hhi⟩ | ⟨hlo, hhi⟩ <;>
    constructor <;> rintro rfl <;> revert hlo hhi <;> decide

/-- No byte of a number means anything to the scanner, and none is white space. -/
theorem IsNumber.mem {bs : Bytes} (h : IsNumber bs) : ∀ b ∈ bs, IsPlain b ∧ 0x20 < b := by
  have hdigit : ∀ b, IsDigit b → IsPlain b ∧ 0x20 < b := fun b hb =>
    ⟨hb.plain, UInt8.lt_of_lt_of_le (by decide) hb.1⟩
  have hdigits : ∀ ds : Bytes, Digits ds → ∀ b ∈ ds, IsPlain b ∧ 0x20 < b := fun ds hds b hb =>
    hdigit b (hds.2 b hb)
  obtain ⟨sign, int, frac, exp, rfl, hsign, ⟨hint, -⟩, hfrac, hexp⟩ := h.parts
  intro b hb
  simp only [List.mem_append] at hb
  rcases hb with ((hb | hb) | hb) | hb
  · rcases hsign with rfl | rfl
    · exact absurd hb List.not_mem_nil
    · obtain rfl := List.mem_singleton.mp hb
      decide
  · exact hdigits int hint b hb
  · rcases hfrac with rfl | ⟨ds, hds, rfl⟩
    · exact absurd hb List.not_mem_nil
    · rcases List.mem_cons.mp hb with rfl | hb
      · decide
      · exact hdigits ds hds b hb
  · rcases hexp with rfl | ⟨e, s, ds, he, hs, hds, rfl⟩
    · exact absurd hb List.not_mem_nil
    · rcases List.mem_cons.mp hb with rfl | hb
      · rcases he with rfl | rfl <;> decide
      rcases List.mem_append.mp hb with hb | hb
      · rcases hs with rfl | rfl | rfl
        · exact absurd hb List.not_mem_nil
        all_goals
          obtain rfl := List.mem_singleton.mp hb
          decide
      · exact hdigits ds hds b hb

theorem names_mem : ∀ bs ∈ names, ∀ b ∈ bs, IsPlain b ∧ 0x20 < b := by
  simp only [names, List.forall_mem_cons, List.not_mem_nil, false_implies, implies_true]
  decide

theorem IsNumber.ne_nil {bs : Bytes} (h : IsNumber bs) : bs ≠ [] := by
  obtain ⟨sign, int, frac, exp, rfl, -, ⟨hint, -⟩, -⟩ := h.parts
  intro hnil
  simp only [List.append_eq_nil_iff] at hnil
  exact hint.1 hnil.1.1.2

theorem IsChars.inside {cs : Bytes} (h : IsChars cs) : InsideString cs := by
  induction h with
  | nil => exact ⟨fun _ => rfl, fun d p hp => by rw [List.prefix_nil.mp hp]; rfl⟩
  | plain _ hquote hback _ ih => exact ih.plain hquote hback
  | escape _ _ ih => exact ih.escape
  | unicode h₁ h₂ h₃ h₄ _ ih =>
    have h := (ih.plain h₄.inside.1 h₄.inside.2).plain h₃.inside.1 h₃.inside.2
    exact ((h.plain h₂.inside.1 h₂.inside.2).plain h₁.inside.1 h₁.inside.2).escape

theorem IsChars.of_plain {cs : Bytes} (h : ∀ b ∈ cs, 0x20 ≤ b ∧ b ≠ quote ∧ b ≠ backslash) :
    IsChars cs := by
  induction cs with
  | nil => exact .nil
  | cons b cs ih =>
    obtain ⟨hle, hquote, hback⟩ := h b List.mem_cons_self
    exact .plain hle hquote hback (ih fun c hc => h c (List.mem_cons_of_mem b hc))

theorem IsNumber.digit {d : UInt8} (h : IsDigit d) : IsNumber [d] :=
  ⟨[], [d], [], [], rfl, .inl rfl,
    ⟨⟨List.cons_ne_nil d [], List.forall_mem_singleton.mpr h⟩,
      fun h0 => by rw [Option.some.inj h0]⟩,
    .inl rfl, .inl rfl⟩

theorem Spaces.balanced {ws : Bytes} (h : Spaces ws) : Balanced ws :=
  .plain fun b hb => (h b hb).plain

theorem Derives.balanced {part : Part} {bs : Bytes} (h : Derives part bs) : Balanced bs := by
  have hcolon : Balanced [colon] := .plain (List.forall_mem_singleton.mpr (by decide))
  have hcomma : Balanced [comma] := .plain (List.forall_mem_singleton.mpr (by decide))
  induction h with
  | string h => exact h.inside.quoted
  | name h => exact .plain fun b hb => (names_mem _ h b hb).1
  | number h => exact .plain fun b hb => (h.mem b hb).1
  | ofString _ ih => exact ih
  | emptyArray h => exact h.balanced.bracket (.inl rfl) (.inl rfl)
  | array _ ih => exact ih.bracket (.inl rfl) (.inl rfl)
  | emptyObject h => exact h.balanced.bracket (.inr rfl) (.inr rfl)
  | object _ ih => exact ih.bracket (.inr rfl) (.inr rfl)
  | element h _ h' ih => exact h.balanced.append (ih.append h'.balanced)
  | lastElement _ ih => exact ih
  | elements _ _ ih ih' => exact ih.append (hcomma.append ih')
  | member h _ h' _ ih ih' => exact h.balanced.append (ih.append (h'.balanced.append
      (hcolon.append ih')))
  | lastMember _ ih => exact ih
  | members _ _ ih ih' => exact ih.append (hcomma.append ih')

/-- White space or no control character. -/
def IsPrinted (b : UInt8) : Prop := IsSpace b ∨ 0x20 ≤ b

theorem IsChars.le {cs : Bytes} (h : IsChars cs) : ∀ b ∈ cs, 0x20 ≤ b := by
  have hhex : ∀ b, IsHex b → 0x20 ≤ b := by
    intro b hb
    rcases hb with hb | hb | hb <;> exact UInt8.le_trans (by decide) hb.1
  induction h with
  | nil => exact fun _ hb => absurd hb List.not_mem_nil
  | plain hle _ _ _ ih => exact List.forall_mem_cons.mpr ⟨hle, ih⟩
  | escape hb _ ih =>
    have hle : ∀ b ∈ escapes, 0x20 ≤ b := by
      simp only [escapes, List.forall_mem_cons, List.not_mem_nil, false_implies, implies_true]
      decide
    exact List.forall_mem_cons.mpr ⟨by decide, List.forall_mem_cons.mpr ⟨hle _ hb, ih⟩⟩
  | unicode h₁ h₂ h₃ h₄ _ ih =>
    simp only [List.forall_mem_cons]
    exact ⟨by decide, by decide, hhex _ h₁, hhex _ h₂, hhex _ h₃, hhex _ h₄, ih⟩

theorem Derives.printed {part : Part} {bs : Bytes} (h : Derives part bs) :
    ∀ b ∈ bs, IsPrinted b := by
  have hspaces : ∀ ws : Bytes, Spaces ws → ∀ b ∈ ws, IsPrinted b := fun ws h b hb => .inl (h b hb)
  have hbracket : ∀ (o c : UInt8) (bs : Bytes), 0x20 ≤ o → 0x20 ≤ c → (∀ b ∈ bs, IsPrinted b) →
      ∀ b ∈ o :: (bs ++ [c]), IsPrinted b := by
    intro o c bs ho hc h
    rw [List.forall_mem_cons, List.forall_mem_append, List.forall_mem_singleton]
    exact ⟨.inr ho, h, .inr hc⟩
  have hpair : ∀ (c : UInt8) (bs bs' : Bytes), 0x20 ≤ c → (∀ b ∈ bs, IsPrinted b) →
      (∀ b ∈ bs', IsPrinted b) → ∀ b ∈ bs ++ c :: bs', IsPrinted b := by
    intro c bs bs' hc h h'
    rw [List.forall_mem_append, List.forall_mem_cons]
    exact ⟨h, .inr hc, h'⟩
  induction h with
  | string h => exact hbracket _ _ _ (by decide) (by decide) fun b hb => .inr (h.le b hb)
  | name h => exact fun b hb => .inr (UInt8.le_of_lt (names_mem _ h b hb).2)
  | number h => exact fun b hb => .inr (UInt8.le_of_lt (h.mem b hb).2)
  | ofString _ ih => exact ih
  | emptyArray h => exact hbracket _ _ _ (by decide) (by decide) (hspaces _ h)
  | array _ ih => exact hbracket _ _ _ (by decide) (by decide) ih
  | emptyObject h => exact hbracket _ _ _ (by decide) (by decide) (hspaces _ h)
  | object _ ih => exact hbracket _ _ _ (by decide) (by decide) ih
  | element h _ h' ih =>
    exact List.forall_mem_append.mpr ⟨hspaces _ h, List.forall_mem_append.mpr ⟨ih, hspaces _ h'⟩⟩
  | lastElement _ ih => exact ih
  | elements _ _ ih ih' => exact hpair _ _ _ (by decide) ih ih'
  | member h _ h' _ ih ih' =>
    refine List.forall_mem_append.mpr ⟨hspaces _ h, List.forall_mem_append.mpr ⟨ih, ?_⟩⟩
    exact hpair _ _ _ (by decide) (hspaces _ h') ih'
  | lastMember _ ih => exact ih
  | members _ _ ih ih' => exact hpair _ _ _ (by decide) ih ih'

/-- A value begins with a byte that is no white space. -/
theorem Derives.head {v : Bytes} (h : Derives .value v) : ∃ b rest, v = b :: rest ∧ ¬IsSpace b := by
  have hgraphic : ∀ b : UInt8, 0x20 < b → ¬IsSpace b := by
    intro b hb hspace
    rcases hspace with rfl | rfl | rfl | rfl <;> revert hb <;> decide
  cases h with
  | name h =>
    cases v with
    | nil => exact absurd h (by decide)
    | cons b rest => exact ⟨b, rest, rfl, hgraphic b (names_mem _ h b List.mem_cons_self).2⟩
  | number h =>
    cases v with
    | nil => exact absurd rfl h.ne_nil
    | cons b rest => exact ⟨b, rest, rfl, hgraphic b (h.mem b List.mem_cons_self).2⟩
  | ofString h =>
    cases h
    exact ⟨_, _, rfl, by decide⟩
  | emptyArray _ | array _ | emptyObject _ | object _ => exact ⟨_, _, rfl, by decide⟩

/-- A value that begins with a bracket ends with its partner. -/
theorem Derives.array_of_head {rest : Bytes} (h : Derives .value (openArray :: rest)) :
    ∃ es, Balanced es ∧ rest = es ++ [closeArray] := by
  generalize hv : openArray :: rest = v at h
  cases h with
  | name h => subst hv; exact absurd ((names_mem _ h _ List.mem_cons_self).1.2.1 rfl) id
  | number h => subst hv; exact absurd ((h.mem _ List.mem_cons_self).1.2.1 rfl) id
  | ofString h =>
    cases h
    exact absurd (List.cons.inj hv).1 (by decide)
  | emptyArray h => exact ⟨_, h.balanced, (List.cons.inj hv).2⟩
  | array h => exact ⟨_, h.balanced, (List.cons.inj hv).2⟩
  | emptyObject _ | object _ => exact absurd (List.cons.inj hv).1 (by decide)

/-! ## Texts that are cut off -/

theorem IsText.split {bs : Bytes} (h : IsText bs) : ∃ ws b rest ws', Spaces ws ∧
    ¬IsSpace b ∧ Derives .value (b :: rest) ∧ Spaces ws' ∧ bs = ws ++ (b :: rest ++ ws') := by
  cases h with
  | element hws hv hws' =>
    obtain ⟨b, rest, rfl, hb⟩ := hv.head
    exact ⟨_, b, rest, _, hws, hb, hv, hws', rfl⟩

theorem IsText.append_spaces {bs ws : Bytes} (h : IsText bs) (hws : Spaces ws) :
    IsText (bs ++ ws) := by
  obtain ⟨ws₁, b, rest, ws', hws₁, -, hv, hws', rfl⟩ := h.split
  rw [List.append_assoc, List.append_assoc]
  exact .element hws₁ hv (List.forall_mem_append.mpr ⟨hws', hws⟩)

theorem IsText.not_spaces {bs : Bytes} (h : IsText bs) : ¬Spaces bs := by
  obtain ⟨ws, b, rest, ws', -, hb, -, -, rfl⟩ := h.split
  exact fun hspaces => hb (hspaces b (by simp))

/-- White space ends where the first other byte stands. -/
theorem Spaces.unique {ws ws' bs bs' : Bytes} {b b' : UInt8} (h : Spaces ws) (h' : Spaces ws')
    (hb : ¬IsSpace b) (hb' : ¬IsSpace b') (heq : ws ++ b :: bs = ws' ++ b' :: bs') :
    ws = ws' ∧ b = b' ∧ bs = bs' := by
  induction ws generalizing ws' with
  | nil =>
    cases ws' with
    | nil => exact ⟨rfl, List.cons.inj heq⟩
    | cons c ws' =>
      obtain rfl : b = c := (List.cons.inj heq).1
      exact absurd (h' b List.mem_cons_self) hb
  | cons c ws ih =>
    cases ws' with
    | nil =>
      obtain rfl : c = b' := (List.cons.inj heq).1
      exact absurd (h c List.mem_cons_self) hb'
    | cons c' ws' =>
      obtain ⟨rfl, htail⟩ := List.cons.inj heq
      obtain ⟨rfl, hrest⟩ := ih (fun x hx => h x (List.mem_cons_of_mem c hx))
        (fun x hx => h' x (List.mem_cons_of_mem c hx)) htail
      exact ⟨rfl, hrest⟩

theorem IsArrayText.split {bs : Bytes} (h : IsArrayText bs) : ∃ ws es ws', Spaces ws ∧
    Balanced es ∧ Spaces ws' ∧ bs = ws ++ (openArray :: es ++ ([closeArray] ++ ws')) := by
  obtain ⟨htext, ws₁, rest₁, hws₁, hbs⟩ := h
  obtain ⟨ws, b, rest, ws', hws, hb, hv, hws', rfl⟩ := htext.split
  obtain ⟨rfl, rfl, -⟩ := hws.unique hws₁ hb (by decide) hbs
  obtain ⟨es, hes, rfl⟩ := hv.array_of_head
  exact ⟨ws, es, ws', hws, hes, hws', by simp⟩

/-- **Where an array may be cut off**: a text that begins an array's text is that text without some
    of the white space behind it. -/
theorem IsText.spaces_of_cut {p r : Bytes} (harr : IsArrayText (p ++ r)) (h : IsText p) :
    Spaces r := by
  obtain ⟨ws, es, ws', hws, hes, hws', heq⟩ := harr.split
  have hcut : p <+: ws ++ (openArray :: es ++ ([closeArray] ++ ws')) := heq ▸ List.prefix_append p r
  have hdepth : ((ScanState.mk 0 .outside).scan p).depth = 0 := by rw [h.balanced.scan]
  rcases cut_append hcut with hp | ⟨q, hq, rfl⟩
  · exact absurd (fun b hb => hws b (hp.subset hb)) h.not_spaces
  rw [ScanState.scan_append, hws.balanced.scan] at hdepth
  -- inside the array the count is not back at zero
  have hinside : ∀ q', q' <+: openArray :: es → q = q' → False := by
    rintro q' hq' rfl
    have hne : q ≠ [] := by
      rintro rfl
      exact h.not_spaces (by rwa [List.append_nil])
    have := hes.lt_depth (.inl rfl) 0 hq' hne
    omega
  rcases cut_append hq with hq | ⟨q', hq', rfl⟩
  · exact (hinside q hq rfl).elim
  rcases cut_append hq' with hq'' | ⟨q'', hq'', rfl⟩
  · rcases List.prefix_cons_iff.mp hq'' with rfl | ⟨t, rfl, ht⟩
    · exact (hinside _ List.prefix_rfl (List.append_nil _)).elim
    · rw [List.prefix_nil.mp ht] at heq
      have hr : r = ws' := by
        simpa [List.append_assoc] using heq
      exact hr ▸ hws'
  · obtain ⟨t, rfl⟩ := hq''
    have hr : r = t := by
      simpa [List.append_assoc] using heq
    exact hr ▸ fun b hb => hws' b (List.mem_append_right q'' hb)

end CdsGuard.Lib.Json
