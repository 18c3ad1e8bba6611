import CdsGuard.Gateway.DocumentPieces

/-
  The text spans that `enqueue_censor_document_file` queues, against the structure of the XML.
  The scan takes the regions from a literal start tag to the next literal end tag, and for hwpx
  leaves out what it passes over in them (`covered_iff`).

  Proved: `spans_exact_iff`, the documents of which exactly the character data of the text
  elements is queued: those in which nothing else stands in such a region, and all of it does.
-/

namespace CdsGuard.Gateway

open CdsGuard.Lib CdsGuard.Lib.Xml

/-! ## Searching -/

theorem findFrom_eq_some_iff {text pat : Bytes} {pos i : Nat} :
    findFrom text pat pos = some i ↔ pos ≤ i ∧ i ≤ text.length ∧ pat <+: text.drop i ∧
      ∀ j, pos ≤ j → j < i → ¬pat <+: text.drop j := by
  unfold findFrom
  rw [List.find?_range_eq_some]
  simp only [Bool.and_eq_true, decide_eq_true_eq, List.isPrefixOf_iff_prefix, List.mem_range,
    Bool.not_eq_true', Bool.and_eq_false_iff, decide_eq_false_iff_not, Nat.not_le]
  constructor
  · intro ⟨⟨hle, hp⟩, hi, hfirst⟩
    refine ⟨hle, by omega, hp, fun j hpj hj hp' => ?_⟩
    have := List.isPrefixOf_iff_prefix.mpr hp'
    rw [(hfirst j hj).resolve_left (by omega)] at this
    cases this
  · intro ⟨hle, hi, hp, hfirst⟩
    refine ⟨⟨hle, hp⟩, by omega, fun j hj => ?_⟩
    by_cases hpj : pos ≤ j
    · right
      rw [Bool.eq_false_iff, Ne, List.isPrefixOf_iff_prefix]
      exact hfirst j hpj hj
    · exact .inl (by omega)

theorem findFrom_eq_none_iff {text pat : Bytes} {pos : Nat} :
    findFrom text pat pos = none ↔
      ∀ j, pos ≤ j → j ≤ text.length → ¬pat <+: text.drop j := by
  unfold findFrom
  rw [List.find?_range_eq_none]
  simp only [Bool.not_eq_true', Bool.and_eq_false_iff, decide_eq_false_iff_not, Nat.not_le]
  constructor
  · intro h j hpj hj hp
    have := List.isPrefixOf_iff_prefix.mpr hp
    rw [(h j (by omega)).resolve_left (by omega)] at this
    cases this
  · intro h j hj
    by_cases hpj : pos ≤ j
    · right
      rw [Bool.eq_false_iff, Ne, List.isPrefixOf_iff_prefix]
      exact h j hpj (by omega)
    · exact .inl (by omega)

theorem singleton_prefix_drop {text : Bytes} {b : UInt8} {j : Nat} :
    [b] <+: text.drop j ↔ text[j]? = some b := by
  rcases Nat.lt_or_ge j text.length with hj | hj
  · rw [List.drop_eq_getElem_cons hj, List.getElem?_eq_getElem hj, Option.some_inj]
    constructor
    · intro h
      exact (List.cons_prefix_cons.mp h).1.symm
    · intro h
      rw [h]
      exact ⟨_, rfl⟩
  · rw [List.drop_eq_nil_of_le hj, List.getElem?_eq_none hj]
    simp

theorem lt_length_of_prefix {text pat : Bytes} {j : Nat} (hpat : pat ≠ [])
    (h : pat <+: text.drop j) : j < text.length := by
  by_contra hj
  rw [List.drop_eq_nil_of_le (Nat.le_of_not_lt hj)] at h
  exact hpat (List.prefix_nil.mp h)

/-! ## The regions of a hwpx document -/

/-- Byte `p` lies in one of the spans. -/
def Covers (spans : List TextSpan) (p : Nat) : Prop := ∃ s ∈ spans, s.off ≤ p ∧ p < s.off + s.len

/-- From `first` on, a `<hp:` stands before byte `p` or at it, and no `>` between the two. -/
def InCut (xml : Bytes) (first p : Nat) : Prop :=
  ∃ h, first ≤ h ∧ h ≤ p ∧ hpOpen <+: xml.drop h ∧ ∀ q, h ≤ q → q < p → xml[q]? ≠ some gt

theorem covers_nil (p : Nat) : ¬Covers [] p := fun ⟨_, h, _⟩ => absurd h List.not_mem_nil

theorem covers_singleton {off len p : Nat} : Covers [⟨off, len⟩] p ↔ off ≤ p ∧ p < off + len := by
  simp [Covers]

theorem covers_append {xs ys : List TextSpan} {p : Nat} :
    Covers (xs ++ ys) p ↔ Covers xs p ∨ Covers ys p := by
  simp [Covers, or_and_right, exists_or]

/-- The inner loop queues what is outside the stretches from `<hp:` to the next `>`. -/
theorem covers_hwpxSpans {xml : Bytes} {base size p : Nat} (hsize : base + size ≤ xml.length)
    (fuel localPos : Nat) (hfuel : size < fuel + localPos) :
    Covers (hwpxSpans xml base size fuel localPos) p ↔
      (base + localPos ≤ p ∧ p < base + size) ∧ ¬InCut xml (base + localPos) p := by
  induction fuel generalizing localPos with
  | zero =>
    have hno : ¬(base + localPos ≤ p ∧ p < base + size) := by omega
    simp [hwpxSpans, covers_nil, hno]
  | succ fuel ih =>
    unfold hwpxSpans
    split
    · rename_i hdone
      have hno : ¬(base + localPos ≤ p ∧ p < base + size) := by omega
      simp [covers_nil, hno]
    · rename_i hmore
      dsimp only
      -- without a `<hp:` before `bound` nothing is cut there
      have hclear : ∀ bound, (∀ j, base + localPos ≤ j → j < bound → ¬hpOpen <+: xml.drop j) →
          p < bound → ¬InCut xml (base + localPos) p := by
        intro bound hno hp ⟨h, hle, hhp, hopen, _⟩
        exact hno h hle (by omega) hopen
      have hwhole : (∀ j, base + localPos ≤ j → j < base + size → ¬hpOpen <+: xml.drop j) →
          (Covers [⟨base + localPos, base + size - (base + localPos)⟩] p ↔
            (base + localPos ≤ p ∧ p < base + size) ∧ ¬InCut xml (base + localPos) p) := by
        intro hno
        rw [covers_singleton]
        constructor
        · intro ⟨h₁, h₂⟩
          exact ⟨⟨h₁, by omega⟩, hclear _ hno (by omega)⟩
        · intro ⟨⟨h₁, h₂⟩, _⟩
          exact ⟨h₁, by omega⟩
      cases hfind : findFrom xml hpOpen (base + localPos) with
      | none =>
        have hno := findFrom_eq_none_iff.mp hfind
        exact hwhole fun j hj hlt => hno j hj (by omega)
      | some hpPos =>
        obtain ⟨hle, -, hopen, hfirst⟩ := findFrom_eq_some_iff.mp hfind
        dsimp only
        split
        · exact hwhole fun j hj hlt => hfirst j hj (by omega)
        · rename_i hin
          have hbefore : Covers (if base + localPos < hpPos then
              [⟨base + localPos, hpPos - (base + localPos)⟩] else []) p ↔
              base + localPos ≤ p ∧ p < hpPos := by
            split
            · rw [covers_singleton]
              omega
            · have hno : ¬(base + localPos ≤ p ∧ p < hpPos) := by omega
              simp [covers_nil, hno]
          -- up to the first `>` everything from `hpPos` on is cut
          have hcut : (∀ q, hpPos ≤ q → q < p → xml[q]? ≠ some gt) → hpPos ≤ p →
              InCut xml (base + localPos) p := fun hno hp => ⟨hpPos, hle, hp, hopen, hno⟩
          have hrest : (∀ q, hpPos ≤ q → q < base + size → xml[q]? ≠ some gt) →
              (base + localPos ≤ p ∧ p < hpPos ↔
                (base + localPos ≤ p ∧ p < base + size) ∧ ¬InCut xml (base + localPos) p) := by
            intro hno
            constructor
            · intro ⟨h₁, h₂⟩
              exact ⟨⟨h₁, by omega⟩, hclear _ hfirst h₂⟩
            · intro ⟨⟨h₁, h₂⟩, h₃⟩
              refine ⟨h₁, Nat.lt_of_not_le fun hp => h₃ (hcut (fun q hq hqp => ?_) hp)⟩
              exact hno q hq (by omega)
          cases hclose : findFrom xml [0x3e] hpPos with
          | none =>
            have hno := findFrom_eq_none_iff.mp hclose
            refine hbefore.trans (hrest fun q hq hqs => ?_)
            exact fun hgt => hno q hq (by omega) (singleton_prefix_drop.mpr hgt)
          | some tagClose =>
            obtain ⟨hcle, -, hgt, hcfirst⟩ := findFrom_eq_some_iff.mp hclose
            dsimp only
            split
            · refine hbefore.trans (hrest fun q hq hqs => ?_)
              exact fun hgt => hcfirst q hq (by omega) (singleton_prefix_drop.mpr hgt)
            · have hnext : base + (tagClose + 1 - base) = tagClose + 1 := by omega
              rw [covers_append, hbefore, ih (tagClose + 1 - base) (by omega), hnext]
              constructor
              · intro h
                obtain ⟨h₁, h₂⟩ | ⟨⟨h₁, h₂⟩, h₃⟩ := h
                · exact ⟨⟨h₁, by omega⟩, hclear _ hfirst h₂⟩
                · refine ⟨⟨by omega, h₂⟩, fun ⟨h, hh, hhp, hho, hhno⟩ => ?_⟩
                  rcases Nat.lt_or_ge tagClose h with hlt | hge
                  · exact h₃ ⟨h, by omega, hhp, hho, hhno⟩
                  · exact hhno tagClose hge (by omega) (singleton_prefix_drop.mp hgt)
              · intro ⟨⟨h₁, h₂⟩, h₃⟩
                rcases Nat.lt_or_ge p hpPos with hlt | hge
                · exact .inl ⟨h₁, hlt⟩
                · right
                  have hpast : tagClose < p := by
                    refine Nat.lt_of_not_le fun hp => h₃ (hcut (fun q hq hqp hq' => ?_) hge)
                    exact hcfirst q hq (by omega) (singleton_prefix_drop.mpr hq')
                  refine ⟨⟨by omega, h₂⟩, fun ⟨h, hh, hrest'⟩ => h₃ ⟨h, by omega, hrest'⟩⟩

/-! ## Bytes and pieces -/

/-- Byte `p` lies in a piece, and the pieces around it are as `Q` says; `off` is where the first
    piece begins. -/
def InPiece (off : Nat) (as : List Piece) (p : Nat)
    (Q : List Piece → Piece → List Piece → Prop) : Prop :=
  ∃ l a r, as = l ++ a :: r ∧ off + (rawOf l).length ≤ p ∧
    p < off + (rawOf l).length + a.raw.length ∧ Q l a r

variable {off p : Nat} {Q : List Piece → Piece → List Piece → Prop}

theorem inPiece_nil : ¬InPiece off [] p Q := fun ⟨l, a, r, h, _⟩ => by simp at h

theorem inPiece_cons {a : Piece} {as : List Piece} :
    InPiece off (a :: as) p Q ↔ (off ≤ p ∧ p < off + a.raw.length) ∧ Q [] a as ∨
      InPiece (off + a.raw.length) as p fun l b r => Q (a :: l) b r := by
  constructor
  · intro ⟨l, b, r, has, h₁, h₂, hQ⟩
    cases l with
    | nil =>
      obtain ⟨rfl, rfl⟩ := List.cons.inj has
      exact .inl ⟨⟨h₁, h₂⟩, hQ⟩
    | cons c l =>
      obtain ⟨rfl, rfl⟩ := List.cons.inj has
      rw [rawOf_cons, List.length_append] at h₁ h₂
      exact .inr ⟨l, b, r, rfl, by omega, by omega, hQ⟩
  · intro h
    obtain ⟨⟨h₁, h₂⟩, hQ⟩ | ⟨l, b, r, rfl, h₁, h₂, hQ⟩ := h
    · exact ⟨[], a, as, rfl, h₁, h₂, hQ⟩
    · refine ⟨a :: l, b, r, rfl, ?_, ?_, hQ⟩ <;> rw [rawOf_cons, List.length_append] <;> omega

theorem inPiece_append {as bs : List Piece} :
    InPiece off (as ++ bs) p Q ↔ (InPiece off as p fun l a r => Q l a (r ++ bs)) ∨
      InPiece (off + (rawOf as).length) bs p fun l a r => Q (as ++ l) a r := by
  induction as generalizing off Q with
  | nil => simp [inPiece_nil, rawOf]
  | cons a as ih =>
    rw [List.cons_append, inPiece_cons, inPiece_cons, ih, or_assoc, rawOf_cons, List.length_append,
      Nat.add_assoc]
    rfl

theorem inPiece_congr_at {Q' : List Piece → Piece → List Piece → Prop} {as : List Piece}
    (hQ : ∀ l a r, as = l ++ a :: r → off + (rawOf l).length ≤ p →
      p < off + (rawOf l).length + a.raw.length → (Q l a r ↔ Q' l a r)) :
    InPiece off as p Q ↔ InPiece off as p Q' := by
  constructor
  · intro h
    obtain ⟨l, a, r, has, h₁, h₂, hq⟩ := h
    exact ⟨l, a, r, has, h₁, h₂, (hQ l a r has h₁ h₂).mp hq⟩
  · intro h
    obtain ⟨l, a, r, has, h₁, h₂, hq⟩ := h
    exact ⟨l, a, r, has, h₁, h₂, (hQ l a r has h₁ h₂).mpr hq⟩

theorem inPiece_congr {Q' : List Piece → Piece → List Piece → Prop} {as : List Piece}
    (hQ : ∀ l a r, as = l ++ a :: r → (Q l a r ↔ Q' l a r)) :
    InPiece off as p Q ↔ InPiece off as p Q' :=
  inPiece_congr_at fun l a r has _ _ => hQ l a r has

theorem inPiece_true {as : List Piece} :
    (InPiece off as p fun _ _ _ => True) ↔ off ≤ p ∧ p < off + (rawOf as).length := by
  induction as generalizing off with
  | nil =>
    have hno : ¬(off ≤ p ∧ p < off + (rawOf []).length) := by
      simp only [rawOf, List.flatMap_nil, List.length_nil]
      omega
    simp only [inPiece_nil, hno]
  | cons a as ih =>
    rw [inPiece_cons, ih, rawOf_cons, List.length_append, and_true]
    omega

/-! ## What is passed over -/

/-- A `<hp:` stands from `first` on before `o`, and no `>` since. -/
def CutOpen (xml : Bytes) (first o : Nat) : Prop :=
  ∃ h, first ≤ h ∧ h < o ∧ hpOpen <+: xml.drop h ∧ ∀ q, h ≤ q → q < o → xml[q]? ≠ some gt

theorem drop_inside (u x : Bytes) {q : Nat} (hq : u.length ≤ q) :
    (u ++ x).drop q = x.drop (q - u.length) := by
  rw [List.drop_append, List.drop_eq_nil_of_le hq, List.nil_append]

theorem get_inside (u x y : Bytes) {q : Nat} (hq : u.length ≤ q) (hx : q < u.length + x.length) :
    (u ++ (x ++ y))[q]? = x[q - u.length]? := by
  rw [List.getElem?_append_right hq, List.getElem?_append_left (by omega)]

/-- In a piece that is passed over `>` stands at the end only. -/
theorem gt_last {x : Bytes} (h : gt ∉ x.dropLast) {i : Nat} (hi : x[i]? = some gt) :
    i + 1 = x.length := by
  obtain ⟨hlt, hget⟩ := List.getElem?_eq_some_iff.mp hi
  by_contra hne
  apply h
  have hd : i < x.dropLast.length := by
    rw [List.length_dropLast]
    omega
  rw [← hget, ← List.getElem_dropLast hd]
  exact List.getElem_mem hd

section
variable {cut : Bool} {a : Piece} {u behind : Bytes} {first : Nat}

theorem skip_or_start (hstop : a.kind ≠ .stop) (hplain : a.kind ≠ .plain) :
    a.kind = .skip ∨ a.kind = .start := by
  cases hk : a.kind with
  | start => exact .inr rfl
  | skip => exact .inl rfl
  | stop => exact absurd hk hstop
  | plain => exact absurd hk hplain

/-- No `<hp:` is open in a plain piece, neither one from before it nor one of its own. -/
theorem plain_not_open (hok : PieceOk .hwpx cut a behind) (hplain : a.kind = .plain)
    (hcut : cut = true ↔ CutOpen (u ++ (a.raw ++ behind)) first u.length) {h : Nat}
    (hf : first ≤ h) (hlt : h < u.length + a.raw.length)
    (hopen : hpOpen <+: (u ++ (a.raw ++ behind)).drop h) :
    ¬∀ q, h ≤ q → q < u.length → (u ++ (a.raw ++ behind))[q]? ≠ some gt := by
  intro hno
  obtain ⟨hfalse, hnone⟩ := hok.plain rfl hplain
  rcases Nat.lt_or_ge h u.length with hbefore | hge
  · have := hcut.mpr ⟨h, hf, hbefore, hopen, hno⟩
    rw [hfalse] at this
    cases this
  · rw [drop_inside u _ hge] at hopen
    exact hnone (h - u.length) (by omega) hopen

/-- In a piece that is passed over a `<hp:` is open until the first `>`. -/
theorem skipped_open (hok : PieceOk .hwpx cut a behind) (hskip : a.kind = .skip ∨ a.kind = .start)
    (hfirst : first ≤ u.length)
    (hcut : cut = true ↔ CutOpen (u ++ (a.raw ++ behind)) first u.length)
    (hno : ∀ q, u.length ≤ q → q < p → (u ++ (a.raw ++ behind))[q]? ≠ some gt) :
    ∃ h, first ≤ h ∧ h ≤ u.length ∧ hpOpen <+: (u ++ (a.raw ++ behind)).drop h ∧
      ∀ q, h ≤ q → q < p → (u ++ (a.raw ++ behind))[q]? ≠ some gt := by
  obtain ⟨-, hopen, -⟩ := hok.skipped rfl hskip
  obtain hc | hopen := hopen
  · obtain ⟨h, hf, hho, hhp, hhno⟩ := hcut.mp hc
    refine ⟨h, hf, hho.le, hhp, fun q hq hqp => ?_⟩
    rcases Nat.lt_or_ge q u.length with hlt | hge
    · exact hhno q hq hlt
    · exact hno q hge hqp
  · refine ⟨u.length, hfirst, Nat.le_refl _, ?_, hno⟩
    rw [drop_inside u _ (Nat.le_refl _), Nat.sub_self]
    exact hopen

/-- One piece: its bytes are passed over when it is a skip or a start piece, and not when it is
    plain. -/
theorem inCut_piece (hok : PieceOk .hwpx cut a behind) (hkind : a.kind ≠ .stop)
    (hfirst : first ≤ u.length)
    (hcut : cut = true ↔ CutOpen (u ++ (a.raw ++ behind)) first u.length)
    (h₁ : u.length ≤ p) (h₂ : p < u.length + a.raw.length) :
    a.kind = .plain ↔ ¬InCut (u ++ (a.raw ++ behind)) first p := by
  constructor
  · intro hplain ⟨h, hf, hhp, hopen, hno⟩
    exact plain_not_open hok hplain hcut hf (hhp.trans_lt h₂) hopen
      fun q hq hqo => hno q hq (hqo.trans_le h₁)
  · intro hnot
    by_contra hplain
    have hskip := skip_or_start hkind hplain
    obtain ⟨-, -, hgt⟩ := hok.skipped rfl hskip
    -- no `>` from the beginning of the piece to `p`
    have hno : ∀ q, u.length ≤ q → q < p → (u ++ (a.raw ++ behind))[q]? ≠ some gt := by
      intro q hq hqp hq'
      rw [get_inside u _ _ hq (by omega)] at hq'
      have := gt_last hgt hq'
      omega
    obtain ⟨h, hf, hhu, hopen⟩ := skipped_open hok hskip hfirst hcut hno
    exact hnot ⟨h, hf, hhu.trans h₁, hopen⟩

/-- Whether a `<hp:` is open behind a piece. -/
theorem cutOpen_piece (hok : PieceOk .hwpx cut a behind) (hkind : a.kind ≠ .stop)
    (hfirst : first ≤ u.length)
    (hcut : cut = true ↔ CutOpen (u ++ (a.raw ++ behind)) first u.length) :
    a.cutAfter = true ↔ CutOpen (u ++ (a.raw ++ behind)) first (u.length + a.raw.length) := by
  by_cases hplain : a.kind = .plain
  · have hafter : a.cutAfter = false := by
      unfold Piece.cutAfter
      rw [hplain]
    rw [hafter]
    refine ⟨fun h => absurd h Bool.false_ne_true, fun ⟨h, hf, hho, hopen, hno⟩ => ?_⟩
    exact absurd (fun q hq hqo => hno q hq (Nat.lt_add_right _ hqo))
      (plain_not_open hok hplain hcut hf hho hopen)
  · have hskip := skip_or_start hkind hplain
    obtain ⟨hne, -, hgt⟩ := hok.skipped rfl hskip
    have hpos : 0 < a.raw.length := List.length_pos_of_ne_nil hne
    have hafter : a.cutAfter = true ↔ a.raw.getLast? ≠ some gt := by
      unfold Piece.cutAfter
      obtain hk | hk := hskip <;> rw [hk] <;> exact decide_eq_true_iff
    rw [hafter, List.getLast?_eq_getElem?]
    constructor
    · intro hlast
      have hno : ∀ q, u.length ≤ q → q < u.length + a.raw.length →
          (u ++ (a.raw ++ behind))[q]? ≠ some gt := by
        intro q hq hqa hq'
        rw [get_inside u _ _ hq hqa] at hq'
        have hq₁ := gt_last hgt hq'
        have hq₂ : q - u.length = a.raw.length - 1 := by omega
        exact hlast (hq₂ ▸ hq')
      obtain ⟨h, hf, hhu, hopen⟩ := skipped_open hok hskip hfirst hcut hno
      exact ⟨h, hf, hhu.trans_lt (Nat.lt_add_of_pos_right hpos), hopen⟩
    · intro ⟨h, hf, hho, hhp, hhno⟩ hlast
      refine hhno (u.length + (a.raw.length - 1)) (by omega) (by omega) ?_
      rw [get_inside u _ _ (by omega) (by omega), Nat.add_sub_cancel_left]
      exact hlast

end

/-- Between a start piece and a stop piece the inner loop leaves the plain pieces. -/
theorem inPiece_region {m rest : List Piece} {cut : Bool} {u : Bytes} {first : Nat}
    (hlex : Lexed .hwpx cut (m ++ rest)) (hm : ∀ b ∈ m, b.kind ≠ .stop)
    (hfirst : first ≤ u.length)
    (hcut : cut = true ↔ CutOpen (u ++ rawOf (m ++ rest)) first u.length) :
    (InPiece u.length m p fun _ a _ => a.kind = .plain) ↔
      (u.length ≤ p ∧ p < u.length + (rawOf m).length) ∧
        ¬InCut (u ++ rawOf (m ++ rest)) first p := by
  induction m generalizing u cut with
  | nil =>
    have hno : ¬(u.length ≤ p ∧ p < u.length + (rawOf []).length) := by
      simp only [rawOf, List.flatMap_nil, List.length_nil]
      omega
    simp only [inPiece_nil, hno, false_and]
  | cons a m ih =>
    have hkind := hm a List.mem_cons_self
    have hxml : u ++ rawOf (a :: m ++ rest) = u ++ a.raw ++ rawOf (m ++ rest) := by
      rw [List.cons_append, rawOf_cons, List.append_assoc]
    have hxml' : u ++ rawOf (a :: m ++ rest) = u ++ (a.raw ++ rawOf (m ++ rest)) := by
      rw [List.cons_append, rawOf_cons]
    have hlen : (u ++ a.raw).length = u.length + a.raw.length := List.length_append
    have hih := ih (u := u ++ a.raw) hlex.2 (fun b hb => hm b (List.mem_cons_of_mem _ hb))
      (by omega) (by
        rw [hlen, List.append_assoc]
        rw [hxml'] at hcut
        exact cutOpen_piece hlex.1 hkind hfirst hcut)
    rw [hlen] at hih
    rw [inPiece_cons, hih, ← hxml, rawOf_cons, List.length_append]
    have hpiece : u.length ≤ p → p < u.length + a.raw.length →
        (a.kind = .plain ↔ ¬InCut (u ++ rawOf (a :: m ++ rest)) first p) := by
      intro h₁ h₂
      rw [hxml'] at hcut ⊢
      exact inCut_piece hlex.1 hkind hfirst hcut h₁ h₂
    constructor
    · intro h
      obtain ⟨⟨h₁, h₂⟩, hk⟩ | ⟨⟨h₁, h₂⟩, hno⟩ := h
      · exact ⟨⟨h₁, by omega⟩, (hpiece h₁ h₂).mp hk⟩
      · exact ⟨⟨by omega, by omega⟩, hno⟩
    · intro ⟨⟨h₁, h₂⟩, hno⟩
      rcases Nat.lt_or_ge p (u.length + a.raw.length) with hlt | hge
      · exact .inl ⟨⟨h₁, hlt⟩, (hpiece h₁ hlt).mpr hno⟩
      · exact .inr ⟨⟨hge, by omega⟩, hno⟩

/-! ## The scan -/

/-- The scan keeps the piece if it meets it in a region. -/
def Piece.Kept (t : DocType) (a : Piece) : Prop := a.kind = .plain ∨ a.kind = .start ∧ t ≠ .hwpx

/-- Between a start piece and the first stop piece behind it. -/
def Between (l r : List Piece) : Prop :=
  (∃ l₁ s l₂, l = l₁ ++ s :: l₂ ∧ s.kind = .start ∧ ∀ b ∈ l₂, b.kind ≠ .stop) ∧
    ∃ e ∈ r, e.kind = .stop

theorem exists_first (k : PieceKind) (as : List Piece) :
    (∀ b ∈ as, b.kind ≠ k) ∨
      ∃ l s r, as = l ++ s :: r ∧ s.kind = k ∧ ∀ b ∈ l, b.kind ≠ k := by
  induction as with
  | nil => exact .inl fun b hb => absurd hb List.not_mem_nil
  | cons a as ih =>
    by_cases ha : a.kind = k
    · exact .inr ⟨[], a, as, rfl, ha, fun b hb => absurd hb List.not_mem_nil⟩
    · obtain hno | ⟨l, s, r, rfl, hs, hl⟩ := ih
      · exact .inl (List.forall_mem_cons.mpr ⟨ha, hno⟩)
      · exact .inr ⟨a :: l, s, r, rfl, hs, List.forall_mem_cons.mpr ⟨ha, hl⟩⟩

section
variable {t : DocType} {k : PieceKind} {lit : Bytes}

/-- `lit` stands where the pieces of kind `k` begin and nowhere else. -/
def LiteralOf (t : DocType) (k : PieceKind) (lit : Bytes) : Prop :=
  lit ≠ [] ∧ ∀ cut a behind, PieceOk t cut a behind → (a.kind = k → a.raw = lit) ∧
    ∀ i < a.raw.length, lit <+: (a.raw ++ behind).drop i → a.kind = k ∧ i = 0

theorem literalOf_start (t : DocType) : LiteralOf t .start t.startTag :=
  ⟨List.ne_nil_of_length_pos t.startTag_pos, fun _ _ _ h => ⟨h.start, h.noStart⟩⟩

theorem literalOf_stop (t : DocType) : LiteralOf t .stop t.endTag :=
  ⟨List.ne_nil_of_length_pos t.endTag_pos, fun _ _ _ h => ⟨h.stop, h.noStop⟩⟩

theorem Lexed.piece {cut : Bool} {l r : List Piece} {a : Piece} (h : Lexed t cut (l ++ a :: r)) :
    ∃ cut', PieceOk t cut' a (rawOf r) := by
  obtain ⟨cut', h'⟩ := h.behind
  exact ⟨cut', h'.1⟩

/-- The literal is not found before a piece of its kind. -/
theorem no_literal (hlit : LiteralOf t k lit) {cut : Bool} {l rest : List Piece}
    (hlex : Lexed t cut (l ++ rest)) (hl : ∀ b ∈ l, b.kind ≠ k) {j : Nat}
    (hj : j < (rawOf l).length) : ¬lit <+: (rawOf (l ++ rest)).drop j := by
  induction l generalizing cut j with
  | nil => exact absurd hj (Nat.not_lt_zero j)
  | cons a l ih =>
    intro hp
    rcases Nat.lt_or_ge j a.raw.length with hlt | hge
    · exact hl a List.mem_cons_self ((hlit.2 _ _ _ hlex.1).2 j hlt hp).1
    · rw [List.cons_append, rawOf_cons, drop_inside _ _ hge] at hp
      rw [rawOf_cons, List.length_append] at hj
      exact ih hlex.2 (fun b hb => hl b (List.mem_cons_of_mem _ hb)) (by omega) hp

theorem find_literal (hlit : LiteralOf t k lit) {cut : Bool} {l rest : List Piece} {s : Piece}
    (hlex : Lexed t cut (l ++ s :: rest)) (hl : ∀ b ∈ l, b.kind ≠ k) (hs : s.kind = k)
    (u : Bytes) :
    findFrom (u ++ rawOf (l ++ s :: rest)) lit u.length = some (u.length + (rawOf l).length) := by
  obtain ⟨cut', hok⟩ := hlex.piece
  have hraw := (hlit.2 _ _ _ hok).1 hs
  rw [findFrom_eq_some_iff]
  refine ⟨Nat.le_add_right .., ?_, ?_, fun j hj hjl => ?_⟩
  · rw [rawOf_append, List.length_append, List.length_append]
    omega
  · rw [drop_inside _ _ (Nat.le_add_right ..), Nat.add_sub_cancel_left, rawOf_append,
      drop_inside _ _ (Nat.le_refl _), Nat.sub_self, rawOf_cons, hraw]
    exact List.prefix_append _ _
  · rw [drop_inside _ _ hj]
    exact no_literal hlit hlex hl (by omega)

theorem find_none (hlit : LiteralOf t k lit) {cut : Bool} {as : List Piece}
    (hlex : Lexed t cut as) (hno : ∀ b ∈ as, b.kind ≠ k) (u : Bytes) :
    findFrom (u ++ rawOf as) lit u.length = none := by
  rw [findFrom_eq_none_iff]
  intro j hj _ hp
  rw [drop_inside _ _ hj] at hp
  have hlt := lt_length_of_prefix hlit.1 hp
  have hlex' : Lexed t cut (as ++ []) := by rwa [List.append_nil]
  refine no_literal hlit hlex' hno hlt ?_
  rwa [List.append_nil]

end

variable {t : DocType}

/-- The spans of one region. -/
theorem covers_region {m rest : List Piece} {cut : Bool} {s e : Piece} {u : Bytes}
    (hlex : Lexed t cut (s :: (m ++ e :: rest))) (hs : s.kind = .start)
    (hm : ∀ b ∈ m, b.kind ≠ .stop) :
    Covers (if t = .hwpx then
      hwpxSpans (u ++ rawOf (m ++ e :: rest)) u.length (rawOf m).length ((rawOf m).length + 1) 0
      else [⟨u.length, (rawOf m).length⟩]) p ↔
        InPiece u.length m p fun _ a _ => a.Kept t := by
  have hcutAfter : s.cutAfter = false := by
    unfold Piece.cutAfter
    rw [hs, hlex.1.start hs, startTag_end]
    exact decide_eq_false (not_not.mpr rfl)
  have hlex' := hlex.2
  rw [hcutAfter] at hlex'
  split
  · rename_i ht
    subst ht
    have hkept : ∀ a : Piece, a.Kept .hwpx ↔ a.kind = .plain := by simp [Piece.Kept]
    simp only [hkept]
    rw [covers_hwpxSpans (by simp [rawOf_append]) _ _ (by omega), Nat.add_zero]
    refine (inPiece_region hlex' hm (Nat.le_refl _) ?_).symm
    refine ⟨fun h => absurd h Bool.false_ne_true, fun ⟨h, h₁, h₂, _⟩ => ?_⟩
    omega
  · rename_i ht
    have hkept : ∀ l a r, m = l ++ a :: r → (a.Kept t ↔ True) := by
      intro l a r hmem
      have hin : a ∈ m := hmem ▸ by simp
      rw [iff_true]
      cases hk : a.kind with
      | plain => exact .inl hk
      | start => exact .inr ⟨hk, ht⟩
      | stop => exact absurd hk (hm a hin)
      | skip =>
        rw [hmem, List.append_assoc, List.cons_append] at hlex'
        obtain ⟨_, hok⟩ := hlex'.piece
        exact absurd (hok.skips hk) ht
    rw [inPiece_congr hkept, inPiece_true, covers_singleton]

/-- No start piece before: not between. -/
theorem not_between_of_noStart {l r : List Piece} (h : ∀ b ∈ l, b.kind ≠ .start) :
    ¬Between l r := by
  intro ⟨⟨l₁, s, l₂, hl, hs, _⟩, _⟩
  exact h s (hl ▸ by simp) hs

/-- Inside the region. -/
theorem between_region {l₀ l r r₁ : List Piece} {s e : Piece} (hs : s.kind = .start)
    (he : e.kind = .stop) (hl : ∀ b ∈ l, b.kind ≠ .stop) :
    Between (l₀ ++ s :: l) (r ++ e :: r₁) :=
  ⟨⟨l₀, s, l, rfl, hs, hl⟩, e, by simp, he⟩

/-- Behind a stop piece the scan begins anew. -/
theorem between_behind_stop {l₀ l r : List Piece} {e : Piece} (he : e.kind = .stop) :
    Between (l₀ ++ e :: l) r ↔ Between l r := by
  constructor
  · intro ⟨⟨l₁, s, l₂, hl, hs, hl₂⟩, hr⟩
    refine ⟨?_, hr⟩
    obtain ⟨z, h₁, h₂⟩ | ⟨z, h₁, h₂⟩ := List.append_eq_append_iff.mp hl
    · -- the start piece stands behind `e`
      cases z with
      | nil =>
        obtain ⟨rfl, -⟩ := List.cons.inj h₂
        rw [he] at hs
        cases hs
      | cons c z =>
        exact ⟨z, s, l₂, (List.cons.inj h₂).2, hs, hl₂⟩
    · -- it cannot stand before `e`
      cases z with
      | nil =>
        obtain ⟨rfl, -⟩ := List.cons.inj h₂
        rw [he] at hs
        cases hs
      | cons c z =>
        have hl₃ : l₂ = z ++ e :: l := (List.cons.inj h₂).2
        exact absurd he (hl₂ e (hl₃ ▸ by simp))
  · intro ⟨⟨l₁, s, l₂, hl, hs, hl₂⟩, hr⟩
    exact ⟨⟨l₀ ++ e :: l₁, s, l₂, by rw [hl]; simp, hs, hl₂⟩, hr⟩

/-- Step 2 of `enqueue_censor_document_file`, from the beginning of a piece on: the spans cover
    the pieces that stand in a region and are kept. -/
theorem covers_textSpansFrom (fuel : Nat) {u : Bytes} {as : List Piece} {cut : Bool}
    (hlex : Lexed t cut as) (hfuel : (rawOf as).length < fuel) :
    Covers (textSpansFrom t (u ++ rawOf as) fuel u.length) p ↔
      InPiece u.length as p fun l a r => Between l r ∧ a.Kept t := by
  induction fuel generalizing u as cut with
  | zero => omega
  | succ fuel ih =>
    unfold textSpansFrom
    obtain hno | ⟨l₀, s, r₀, rfl, hs, hl₀⟩ := exists_first .start as
    · rw [find_none (literalOf_start t) hlex hno]
      refine iff_of_false (covers_nil p) fun ⟨l, a, r, has, _, _, hbetween, _⟩ => ?_
      exact not_between_of_noStart (fun b hb => hno b (has ▸ List.mem_append_left _ hb)) hbetween
    · rw [find_literal (literalOf_start t) hlex hl₀ hs]
      dsimp only
      obtain ⟨cut₁, hlex₁⟩ := hlex.behind
      have hxml : u ++ rawOf (l₀ ++ s :: r₀) = u ++ rawOf l₀ ++ rawOf (s :: r₀) := by
        rw [rawOf_append, List.append_assoc]
      have hpos : u.length + (rawOf l₀).length = (u ++ rawOf l₀).length :=
        List.length_append.symm
      have hsraw : s.raw = t.startTag := hlex₁.1.start hs
      rw [inPiece_append, inPiece_cons]
      -- before the region nothing is covered
      have hbefore : ¬InPiece u.length l₀ p fun l a r => Between l (r ++ s :: r₀) ∧ a.Kept t := by
        intro ⟨l, a, r, hl, _, _, hbetween, _⟩
        exact not_between_of_noStart (fun b hb => hl₀ b (hl ▸ List.mem_append_left _ hb)) hbetween
      have hstart : ¬Between (l₀ ++ []) r₀ := by
        rw [List.append_nil]
        exact not_between_of_noStart hl₀
      simp only [hbefore, hstart, false_and, and_false, false_or]
      obtain hno | ⟨m, e, r₁, rfl, he, hm⟩ := exists_first .stop r₀
      · have hno' : ∀ b ∈ s :: r₀, b.kind ≠ .stop :=
          List.forall_mem_cons.mpr ⟨by rw [hs]; exact PieceKind.noConfusion, hno⟩
        rw [hxml, hpos, find_none (literalOf_stop t) hlex₁ hno']
        refine iff_of_false (covers_nil p) fun ⟨l, a, r, hr, _, _, hbetween, _⟩ => ?_
        obtain ⟨-, e, he, hstop⟩ := hbetween
        exact hno e (hr ▸ by simp [he]) hstop
      · have hm' : ∀ b ∈ s :: m, b.kind ≠ .stop :=
          List.forall_mem_cons.mpr ⟨by rw [hs]; exact PieceKind.noConfusion, hm⟩
        have hlex₂ : Lexed t cut₁ ((s :: m) ++ e :: r₁) := hlex₁
        have hfind := find_literal (literalOf_stop t) hlex₂ hm' he (u ++ rawOf l₀)
        obtain ⟨cut₂, hlex₃⟩ := hlex₂.behind
        have heraw : e.raw = t.endTag := hlex₃.1.stop he
        rw [hxml, hpos]
        rw [List.cons_append] at hfind
        rw [hfind]
        dsimp only
        -- `v` ends where the region begins, `w` behind its stop piece
        let v := u ++ rawOf l₀ ++ s.raw
        let w := v ++ rawOf m ++ e.raw
        have hv : u ++ rawOf l₀ ++ rawOf (s :: (m ++ e :: r₁)) = v ++ rawOf (m ++ e :: r₁) := by
          simp [v, rawOf_cons]
        have hw : v ++ rawOf (m ++ e :: r₁) = w ++ rawOf r₁ := by
          simp [w, rawOf_append, rawOf_cons]
        have hbase : (u ++ rawOf l₀).length + t.startTag.length = v.length := by
          rw [← hsraw]
          exact List.length_append.symm
        have hbase' : (u ++ rawOf l₀).length + s.raw.length = v.length := List.length_append.symm
        have hsize : (u ++ rawOf l₀).length + (rawOf (s :: m)).length - v.length =
            (rawOf m).length := by
          simp only [v, rawOf_cons, List.length_append]
          omega
        have hnext : (u ++ rawOf l₀).length + (rawOf (s :: m)).length + t.endTag.length =
            w.length := by
          simp only [v, w, rawOf_cons, List.length_append, heraw]
          omega
        have hless : (rawOf r₁).length < fuel := by
          have := t.startTag_pos
          simp only [rawOf_append, rawOf_cons, List.length_append, hsraw] at hfuel
          omega
        rw [hbase, hbase', hsize, hnext, hv, covers_append, covers_region hlex₁ hs hm, hw,
          ih hlex₃.2 hless, inPiece_append, inPiece_cons]
        have hkept : ¬e.Kept t := by
          simp [Piece.Kept, he]
        simp only [hkept, and_false, false_or]
        refine or_congr (inPiece_congr fun l a r hl => ?_) ?_
        · have hl' : ∀ b ∈ l, b.kind ≠ .stop :=
            fun b hb => hm b (hl ▸ List.mem_append_left _ hb)
          simp [between_region hs he hl']
        · have hlen : v.length + (rawOf m).length + e.raw.length = w.length := by
            simp only [w, List.length_append]
          rw [hlen]
          refine inPiece_congr fun l a r _ => ?_
          have hassoc : l₀ ++ s :: (m ++ e :: l) = (l₀ ++ s :: m) ++ e :: l := by simp
          rw [hassoc, between_behind_stop he]

/-! ## The documents that are submitted right -/

/-- The spans that are queued cover the character data of the text elements, and nothing else. -/
def SpansExact (t : DocType) (d : Document) : Prop :=
  ∀ p, Covers (textSpans t d.bytes) p ↔ d.CharData t.textName p

/-- Between a literal start tag and the first literal end tag behind it stands nothing but
    character data of text elements, once what is passed over is left out, and all their
    character data stands there. -/
structure TextInRegions (t : DocType) (d : Document) : Prop where
  clean : ∀ l a r, documentPieces t d = l ++ a :: r → Between l r → a.Kept t →
    ∀ x ∈ a.bytes, x.2 = true
  complete : ∀ l a r, documentPieces t d = l ++ a :: r → (∃ x ∈ a.bytes, x.2 = true) →
    Between l r ∧ a.Kept t

theorem covers_textSpans (t : DocType) (d : Document) (p : Nat) :
    Covers (textSpans t d.bytes) p ↔
      InPiece 0 (documentPieces t d) p fun l a r => Between l r ∧ a.Kept t := by
  have hraw : d.bytes = rawOf (documentPieces t d) := by
    rw [rawOf_eq, markedOf_documentPieces, Document.marked_raw]
  rw [textSpans, hraw]
  exact covers_textSpansFrom _ (u := []) (lexed_documentPieces t d) (Nat.lt_succ_self _)

/-- A byte of the document is the byte of a piece, with its mark. -/
theorem marked_piece {t : DocType} {d : Document} {l r : List Piece} {a : Piece}
    (h : documentPieces t d = l ++ a :: r) {i : Nat} (hi : i < a.raw.length) :
    (d.marked t.textName)[(rawOf l).length + i]? = a.bytes[i]? := by
  have hlen : (markedOf l).length = (rawOf l).length := by rw [rawOf_eq, List.length_map]
  have hi' : i < a.bytes.length := by rwa [Piece.raw, List.length_map] at hi
  rw [← markedOf_documentPieces, h, markedOf_append, markedOf_cons, ← hlen,
    List.getElem?_append_right (Nat.le_add_right ..), Nat.add_sub_cancel_left,
    List.getElem?_append_left hi']

theorem charData_iff (t : DocType) (d : Document) (p : Nat) :
    d.CharData t.textName p ↔ InPiece 0 (documentPieces t d) p fun l a _ =>
      ∃ b, a.bytes[p - (rawOf l).length]? = some (b, true) := by
  constructor
  · intro ⟨b, hb⟩
    have hp : p < (rawOf (documentPieces t d)).length := by
      rw [rawOf_eq, markedOf_documentPieces, List.length_map]
      exact (List.getElem?_eq_some_iff.mp hb).1
    have hin : InPiece 0 (documentPieces t d) p fun _ _ _ => True :=
      inPiece_true.mpr ⟨Nat.zero_le p, by omega⟩
    obtain ⟨l, a, r, h, h₁, h₂, -⟩ := hin
    refine ⟨l, a, r, h, h₁, h₂, b, ?_⟩
    rw [Nat.zero_add] at h₁ h₂
    rw [← hb, ← marked_piece h (by omega), Nat.add_sub_cancel' h₁]
  · intro ⟨l, a, r, h, h₁, h₂, b, hb⟩
    refine ⟨b, ?_⟩
    rw [Nat.zero_add] at h₁ h₂
    rw [← hb, ← marked_piece h (by omega), Nat.add_sub_cancel' h₁]

/-- A byte lies in one piece only. -/
theorem piece_unique {as l l' r r' : List Piece} {a a' : Piece} (h : as = l ++ a :: r)
    (h' : as = l' ++ a' :: r') (h₁ : (rawOf l).length ≤ p)
    (h₂ : p < (rawOf l).length + a.raw.length) (h₁' : (rawOf l').length ≤ p)
    (h₂' : p < (rawOf l').length + a'.raw.length) : l = l' ∧ a = a' ∧ r = r' := by
  induction l generalizing as l' p with
  | nil =>
    cases l' with
    | nil =>
      obtain ⟨rfl, rfl⟩ := List.cons.inj (h.symm.trans h')
      exact ⟨rfl, rfl, rfl⟩
    | cons b l' =>
      obtain ⟨rfl, -⟩ := List.cons.inj (h.symm.trans h')
      rw [rawOf_cons, List.length_append] at h₁'
      have hnil : (rawOf []).length = 0 := rfl
      omega
  | cons b l ih =>
    rw [rawOf_cons, List.length_append] at h₁ h₂
    cases l' with
    | nil =>
      obtain ⟨rfl, -⟩ := List.cons.inj (h'.symm.trans h)
      have hnil : (rawOf []).length = 0 := rfl
      omega
    | cons b' l' =>
      obtain ⟨rfl, htail⟩ := List.cons.inj (h.symm.trans h')
      rw [rawOf_cons, List.length_append] at h₁' h₂'
      have hp : (rawOf l).length ≤ p - b.raw.length := by omega
      obtain ⟨rfl, rfl, rfl⟩ := ih rfl htail hp (by omega) (by omega) (by omega)
      exact ⟨rfl, rfl, rfl⟩

/-- For every document of the three types: the spans cover exactly the character data of the
    text elements when, and only when, all of it stands in regions, and nothing else does. -/
theorem spans_exact_iff (t : DocType) (d : Document) : SpansExact t d ↔ TextInRegions t d := by
  constructor
  · intro h
    have key : ∀ p, (InPiece 0 (documentPieces t d) p fun l a r => Between l r ∧ a.Kept t) ↔
        InPiece 0 (documentPieces t d) p fun l a _ =>
          ∃ b, a.bytes[p - (rawOf l).length]? = some (b, true) := by
      intro p
      rw [← covers_textSpans, ← charData_iff]
      exact h p
    constructor
    · intro l a r has hbetween hkept x hx
      obtain ⟨i, hi, hget⟩ := List.mem_iff_getElem.mp hx
      have hraw : i < a.raw.length := by rwa [Piece.raw, List.length_map]
      obtain ⟨l', a', r', has', h₁, h₂, b, hb⟩ := (key ((rawOf l).length + i)).mp
        ⟨l, a, r, has, by omega, by omega, hbetween, hkept⟩
      obtain ⟨rfl, rfl, rfl⟩ := piece_unique has has' (p := (rawOf l).length + i) (by omega)
        (by omega) (by omega) (by omega)
      rw [Nat.add_sub_cancel_left, List.getElem?_eq_getElem hi, hget] at hb
      rw [Option.some.inj hb]
    · intro l a r has hmarked
      obtain ⟨x, hx, hflag⟩ := hmarked
      obtain ⟨i, hi, hget⟩ := List.mem_iff_getElem.mp hx
      have hraw : i < a.raw.length := by rwa [Piece.raw, List.length_map]
      have hbyte : ∃ b, a.bytes[(rawOf l).length + i - (rawOf l).length]? = some (b, true) := by
        refine ⟨x.1, ?_⟩
        rw [Nat.add_sub_cancel_left, List.getElem?_eq_getElem hi, hget, ← hflag]
      obtain ⟨l', a', r', has', h₁, h₂, hQ⟩ := (key ((rawOf l).length + i)).mpr
        ⟨l, a, r, has, by omega, by omega, hbyte⟩
      obtain ⟨rfl, rfl, rfl⟩ := piece_unique has has' (p := (rawOf l).length + i) (by omega)
        (by omega) (by omega) (by omega)
      exact hQ
  · intro h p
    rw [covers_textSpans, charData_iff]
    refine inPiece_congr_at fun l a r has h₁ h₂ => ?_
    have hi : p - (rawOf l).length < a.bytes.length := by
      rw [← List.length_map (f := Prod.fst), ← Piece.raw]
      omega
    rw [List.getElem?_eq_getElem hi]
    constructor
    · intro hQ
      have hflag := h.clean l a r has hQ.1 hQ.2 _ (List.getElem_mem hi)
      exact ⟨_, by rw [← hflag]⟩
    · intro hb
      obtain ⟨b, hb⟩ := hb
      refine h.complete l a r has ⟨_, List.getElem_mem hi, ?_⟩
      rw [Option.some.inj hb]

/-- `<w:p><w:t xml:space="preserve">a</w:t></w:p>`, as a word processor writes a run whose text
    begins or ends with a space. -/
def preserveDocument : Document where
  prolog := []
  doctype := none
  behindDoctype := []
  root := .element ⟨⟨[0x77, 0x3a, 0x70], by decide, by decide +kernel⟩, [], Space.none⟩
    (.element ⟨⟨[0x77, 0x3a, 0x74], by decide, by decide +kernel⟩,
        [{ space := ⟨[0x20], by decide +kernel⟩
           spaced := by decide
           name := ⟨[0x78, 0x6d, 0x6c, 0x3a, 0x73, 0x70, 0x61, 0x63, 0x65], by decide,
             by decide +kernel⟩
           before := Space.none
           after := Space.none
           quote := 0x22
           isQuote := .inl rfl
           value := [0x70, 0x72, 0x65, 0x73, 0x65, 0x72, 0x76, 0x65]
           noLt := by decide +kernel
           noQuote := by decide +kernel }], Space.none⟩
      (.text [0x61] (by decide +kernel) .nil) Space.none .nil)
    Space.none .nil
  isElement := trivial
  epilog := []

/-- Its text is not queued. -/
theorem preserveDocument_missed : textSpans .docx preserveDocument.bytes = [] ∧
    preserveDocument.CharData DocType.docx.textName 31 ∧ ¬SpansExact .docx preserveDocument := by
  have hspans : textSpans .docx preserveDocument.bytes = [] := by decide +kernel
  have hchar : preserveDocument.CharData DocType.docx.textName 31 := ⟨0x61, by decide +kernel⟩
  refine ⟨hspans, hchar, fun h => ?_⟩
  have := (h 31).mpr hchar
  rw [hspans] at this
  exact covers_nil 31 this

end CdsGuard.Gateway
