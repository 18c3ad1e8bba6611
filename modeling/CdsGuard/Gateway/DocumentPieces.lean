import CdsGuard.Gateway.DocumentFilter
import CdsGuard.Lib.Xml

/-
  An XML document as a search for literal tags sees it. It is cut into pieces: its runs of text,
  its tags, and what the search sees of its comments, instructions and CDATA sections. A tag is
  a start or stop piece when it is the literal `<w:t>` or `</w:t>` of its document type, so one
  with an attribute or a space is not.

  Proved: the pieces make up the document (`markedOf_documentPieces`), and the literals stand
  where the start and stop pieces begin and nowhere else (`lexed_documentPieces`).
-/

namespace CdsGuard.Gateway

open CdsGuard.Lib CdsGuard.Lib.Xml

/-! ## Pieces -/

/-- `start` and `stop` are the literal tags; `skip` is what the inner loop for hwpx passes over. -/
inductive PieceKind where
  | start
  | stop
  | skip
  | plain
  deriving DecidableEq

/-- A part of a document, each byte with its mark. -/
structure Piece where
  kind : PieceKind
  bytes : List (UInt8 × Bool)

def Piece.raw (a : Piece) : Bytes := a.bytes.map Prod.fst

def markedOf (as : List Piece) : List (UInt8 × Bool) := as.flatMap Piece.bytes

def rawOf (as : List Piece) : Bytes := as.flatMap Piece.raw

/-- The name of the text elements: `w:t`, `t` and `hp:t`. -/
def DocType.textName : DocType → Bytes
  | docx => [0x77, 0x3a, 0x74]
  | xlsx => [0x74]
  | hwpx => [0x68, 0x70, 0x3a, 0x74]

/-- A tag. For hwpx one that begins with `<hp:` is passed over up to its first `>`, which may
    stand in an attribute value. -/
def tagPieces (t : DocType) (bs : Bytes) : List Piece :=
  if bs = t.startTag then [⟨.start, mark false bs⟩]
  else if bs = t.endTag then [⟨.stop, mark false bs⟩]
  else if t = .hwpx ∧ hpOpen <+: bs then
    let n := bs.idxOf gt + 1
    [⟨.skip, mark false (bs.take n)⟩, ⟨.plain, mark false (bs.drop n)⟩]
  else [⟨.plain, mark false bs⟩]

theorem DocType.startTag_pos (t : DocType) : 0 < t.startTag.length := by
  cases t <;> decide

theorem DocType.endTag_pos (t : DocType) : 0 < t.endTag.length := by
  cases t <;> decide

/-- What a search sees in bytes that are no tags; `cut` says whether a `<hp:` is open. -/
def scanPieces (t : DocType) (cut : Bool) (bs : List (UInt8 × Bool)) : List Piece :=
  match bs with
  | [] => []
  | b :: rest =>
    if t.startTag <+: (b :: rest).map Prod.fst then
      ⟨.start, (b :: rest).take t.startTag.length⟩ ::
        scanPieces t false ((b :: rest).drop t.startTag.length)
    else if t.endTag <+: (b :: rest).map Prod.fst then
      ⟨.stop, (b :: rest).take t.endTag.length⟩ ::
        scanPieces t false ((b :: rest).drop t.endTag.length)
    else if t = .hwpx ∧ (cut = true ∨ hpOpen <+: (b :: rest).map Prod.fst) then
      ⟨.skip, [b]⟩ :: scanPieces t (b.1 ≠ gt) rest
    else ⟨.plain, [b]⟩ :: scanPieces t false rest
termination_by bs.length
decreasing_by
  · have := t.startTag_pos
    simp only [List.length_drop, List.length_cons]
    omega
  · have := t.endTag_pos
    simp only [List.length_drop, List.length_cons]
    omega
  · exact Nat.lt_succ_self _
  · exact Nat.lt_succ_self _

def contentPieces (t : DocType) : Bool → Content → List Piece
  | _, .nil => []
  | inside, .text chars _ next => ⟨.plain, mark inside chars⟩ :: contentPieces t inside next
  | inside, .element tag inner space next =>
    tagPieces t tag.start ++ (contentPieces t (inside || tag.name.bytes = t.textName) inner ++
      (tagPieces t (tag.name.endTag space) ++ contentPieces t inside next))
  | inside, .empty tag next => tagPieces t tag.empty ++ contentPieces t inside next
  | inside, .cdata chars _ next =>
    scanPieces t false (mark false cdataStart ++ mark inside chars ++ mark false cdataEnd) ++
      contentPieces t inside next
  | inside, .misc m next => scanPieces t false (mark false m.bytes) ++ contentPieces t inside next

def outerPieces (t : DocType) : Outer → List Piece
  | .misc m => scanPieces t false (mark false m.bytes)
  | .space s => [⟨.plain, mark false s.bytes⟩]

def doctypePieces (t : DocType) : Option Doctype → List Piece
  | none => []
  | some d => scanPieces t false (mark false d.bytes)

def documentPieces (t : DocType) (d : Document) : List Piece :=
  d.prolog.flatMap (outerPieces t) ++ (doctypePieces t d.doctype ++
    (d.behindDoctype.flatMap (outerPieces t) ++
      (contentPieces t false d.root ++ d.epilog.flatMap (outerPieces t))))

/-! ## The pieces make up the document -/

theorem markedOf_append (as bs : List Piece) : markedOf (as ++ bs) = markedOf as ++ markedOf bs :=
  List.flatMap_append

theorem markedOf_cons (a : Piece) (as : List Piece) :
    markedOf (a :: as) = a.bytes ++ markedOf as := rfl

theorem rawOf_append (as bs : List Piece) : rawOf (as ++ bs) = rawOf as ++ rawOf bs :=
  List.flatMap_append

theorem rawOf_cons (a : Piece) (as : List Piece) : rawOf (a :: as) = a.raw ++ rawOf as := rfl

theorem rawOf_eq (as : List Piece) : rawOf as = (markedOf as).map Prod.fst := by
  induction as with
  | nil => rfl
  | cons a as ih => rw [rawOf_cons, ih, markedOf_cons, List.map_append, Piece.raw]

theorem markedOf_tagPieces (t : DocType) (bs : Bytes) :
    markedOf (tagPieces t bs) = mark false bs := by
  unfold tagPieces
  split
  · exact List.append_nil _
  · split
    · exact List.append_nil _
    · split
      · show mark false _ ++ (mark false _ ++ []) = _
        rw [List.append_nil, ← mark_append, List.take_append_drop]
      · exact List.append_nil _

theorem markedOf_scanPieces (t : DocType) (cut : Bool) (bs : List (UInt8 × Bool)) :
    markedOf (scanPieces t cut bs) = bs := by
  fun_induction scanPieces t cut bs with
  | case1 => rfl
  | case2 cut b rest hs ih => rw [markedOf_cons, ih, List.take_append_drop]
  | case3 cut b rest hs he ih => rw [markedOf_cons, ih, List.take_append_drop]
  | case4 cut b rest hs he hc ih => rw [markedOf_cons, ih, List.singleton_append]
  | case5 cut b rest hs he hc ih => rw [markedOf_cons, ih, List.singleton_append]

theorem markedOf_contentPieces (t : DocType) (inside : Bool) (c : Content) :
    markedOf (contentPieces t inside c) = c.marked t.textName inside := by
  induction c generalizing inside with
  | nil => rfl
  | text chars noLt next ih => rw [contentPieces, markedOf_cons, ih, Content.marked]
  | element tag inner space next ih₁ ih₂ =>
    simp only [contentPieces, markedOf_append, markedOf_tagPieces, ih₁, ih₂, Content.marked]
  | empty tag next ih => rw [contentPieces, markedOf_append, markedOf_tagPieces, ih, Content.marked]
  | cdata chars closed next ih =>
    rw [contentPieces, markedOf_append, markedOf_scanPieces, ih, Content.marked]
  | misc m next ih => rw [contentPieces, markedOf_append, markedOf_scanPieces, ih, Content.marked]

theorem markedOf_outerPieces (t : DocType) (os : List Outer) :
    markedOf (os.flatMap (outerPieces t)) = mark false (os.flatMap Outer.bytes) := by
  induction os with
  | nil => rfl
  | cons o os ih =>
    rw [List.flatMap_cons, List.flatMap_cons, markedOf_append, ih, mark_append]
    congr 1
    cases o with
    | misc m => exact markedOf_scanPieces t false _
    | space s => exact List.append_nil _

theorem markedOf_documentPieces (t : DocType) (d : Document) :
    markedOf (documentPieces t d) = d.marked t.textName := by
  have hdoc : markedOf (doctypePieces t d.doctype) =
      mark false (d.doctype.elim [] Doctype.bytes) := by
    cases d.doctype with
    | none => rfl
    | some d => exact markedOf_scanPieces t false _
  simp only [documentPieces, markedOf_append, markedOf_outerPieces, hdoc, markedOf_contentPieces,
    Document.marked, List.append_assoc]

/-! ## Where the literals stand -/

/-- A piece, before the bytes `behind`; `cut` says whether a `<hp:` is open where it begins. -/
structure PieceOk (t : DocType) (cut : Bool) (a : Piece) (behind : Bytes) : Prop where
  start : a.kind = .start → a.raw = t.startTag
  stop : a.kind = .stop → a.raw = t.endTag
  noStart : ∀ k < a.raw.length, t.startTag <+: (a.raw ++ behind).drop k → a.kind = .start ∧ k = 0
  noStop : ∀ k < a.raw.length, t.endTag <+: (a.raw ++ behind).drop k → a.kind = .stop ∧ k = 0
  skips : a.kind = .skip → t = .hwpx
  plain : t = .hwpx → a.kind = .plain →
    cut = false ∧ ∀ k < a.raw.length, ¬hpOpen <+: (a.raw ++ behind).drop k
  skipped : t = .hwpx → a.kind = .skip ∨ a.kind = .start →
    a.raw ≠ [] ∧ (cut = true ∨ hpOpen <+: a.raw ++ behind) ∧ gt ∉ a.raw.dropLast

/-- Whether a `<hp:` is open behind the piece. -/
def Piece.cutAfter (a : Piece) : Bool :=
  match a.kind with
  | .skip | .start => a.raw.getLast? ≠ some gt
  | .stop | .plain => false

def Lexed (t : DocType) : Bool → List Piece → Prop
  | _, [] => True
  | cut, a :: as => PieceOk t cut a (rawOf as) ∧ Lexed t a.cutAfter as

theorem Lexed.behind {t : DocType} {cut : Bool} {as bs : List Piece} (h : Lexed t cut (as ++ bs)) :
    ∃ cut', Lexed t cut' bs := by
  induction as generalizing cut with
  | nil => exact ⟨cut, h⟩
  | cons a as ih => exact ih h.2

theorem startTag_eq (t : DocType) : t.startTag = tagBytes [] t.textName [] := by
  cases t <;> rfl

theorem endTag_eq (t : DocType) : t.endTag = tagBytes [slash] t.textName [] := by
  cases t <;> rfl

theorem startTag_isTag (t : DocType) : IsTag [] t.textName [] :=
  ⟨.inl rfl, by cases t <;> decide, by cases t <;> decide +kernel, .inl rfl, List.not_mem_nil⟩

theorem endTag_isTag (t : DocType) : IsTag [slash] t.textName [] :=
  ⟨.inr rfl, by cases t <;> decide, by cases t <;> decide +kernel, .inl rfl, List.not_mem_nil⟩

/-- Neither literal begins with the other. -/
theorem not_startTag_endTag (t : DocType) (x : Bytes) : ¬t.startTag <+: t.endTag ++ x := by
  cases t <;> simp [DocType.startTag, DocType.endTag]

theorem not_endTag_startTag (t : DocType) (x : Bytes) : ¬t.endTag <+: t.startTag ++ x := by
  cases t <;> simp [DocType.startTag, DocType.endTag]

/-- What begins with `<` begins at no other byte. -/
theorem not_prefix_drop {x y l : Bytes} {k : Nat} (hx : lt ∉ x) (hk : k < x.length) :
    ¬lt :: l <+: (x ++ y).drop k := by
  rw [List.drop_append_of_le_length hk.le, List.drop_eq_getElem_cons hk, List.cons_append]
  intro h
  exact hx ((List.cons_prefix_cons.mp h).1 ▸ List.getElem_mem hk)

theorem startTag_cons (t : DocType) : ∃ l, t.startTag = lt :: l ∧ lt ∉ l := by
  cases t <;> exact ⟨_, rfl, by decide⟩

theorem endTag_cons (t : DocType) : ∃ l, t.endTag = lt :: l ∧ lt ∉ l := by
  cases t <;> exact ⟨_, rfl, by decide⟩

/-- No literal begins in bytes without `<`. -/
theorem pieceOk_plain {t : DocType} {a : Piece} {behind : Bytes} (hkind : a.kind = .plain)
    (hlt : lt ∉ a.raw) : PieceOk t false a behind := by
  obtain ⟨ls, hs, -⟩ := startTag_cons t
  obtain ⟨le, he, -⟩ := endTag_cons t
  refine ⟨?_, ?_, fun k hk h => ?_, fun k hk h => ?_, ?_, fun _ _ => ⟨rfl, fun k hk h => ?_⟩, ?_⟩
  · simp [hkind]
  · simp [hkind]
  · rw [hs] at h
    exact absurd h (not_prefix_drop hlt hk)
  · rw [he] at h
    exact absurd h (not_prefix_drop hlt hk)
  · simp [hkind]
  · exact absurd h (not_prefix_drop hlt hk)
  · simp [hkind]

/-- A text that ends with `>` contains all of a literal that begins in it and has no `>` before
    its end. -/
theorem prefix_of_prefix_append {l x y : Bytes} (hl : gt ∉ l.dropLast)
    (hx : ∃ z, x = z ++ [gt]) (h : l <+: x ++ y) : l <+: x := by
  rcases Nat.lt_or_ge x.length l.length with hlen | hlen
  · exfalso
    obtain ⟨z, rfl⟩ := hx
    have hsub : z ++ [gt] <+: l :=
      List.prefix_of_prefix_length_le (List.prefix_append _ _) h hlen.le
    obtain ⟨w, rfl⟩ := hsub
    have hw : w ≠ [] := by
      intro hw
      simp [hw] at hlen
    apply hl
    rw [List.dropLast_append_of_ne_nil hw]
    simp
  · exact List.prefix_of_prefix_length_le h (List.prefix_append _ _) hlen

theorem gt_not_mem_startTag (t : DocType) : gt ∉ t.startTag.dropLast := by
  cases t <;> decide

theorem gt_not_mem_endTag (t : DocType) : gt ∉ t.endTag.dropLast := by
  cases t <;> decide

theorem gt_not_mem_hpOpen : gt ∉ hpOpen.dropLast := by decide

/-! ## Tags -/

/-- In a tag a literal begins at the first byte. -/
theorem prefix_drop_tag {w y l : Bytes} {k : Nat} (hw : lt ∉ w) (hk : k < (lt :: w).length)
    (h : lt :: l <+: (lt :: w ++ y).drop k) : k = 0 := by
  cases k with
  | zero => rfl
  | succ k =>
    have hk' : k < w.length := Nat.lt_of_succ_lt_succ hk
    have h' : lt :: l <+: (w ++ y).drop k := h
    exact absurd h' (not_prefix_drop hw hk')

theorem tagBytes_end (lead name rest : Bytes) : ∃ z, tagBytes lead name rest = z ++ [gt] :=
  ⟨lt :: (lead ++ name ++ rest), rfl⟩

theorem startTag_end (t : DocType) : t.startTag.getLast? = some gt := by
  cases t <;> rfl

theorem hpOpen_startTag : hpOpen <+: DocType.hwpx.startTag := by decide

theorem raw_mark (kind : PieceKind) (bs : Bytes) : (⟨kind, mark false bs⟩ : Piece).raw = bs :=
  mark_raw false bs

section
variable {t : DocType} {as : List Piece}

theorem lexed_start (h : Lexed t false as) {a : Piece} (hkind : a.kind = .start)
    (hraw : a.raw = t.startTag) (cut : Bool) : Lexed t cut (a :: as) := by
  obtain ⟨ls, hs, hls⟩ := startTag_cons t
  obtain ⟨le, he, -⟩ := endTag_cons t
  refine ⟨⟨fun _ => hraw, ?_, fun k hk hp => ⟨hkind, ?_⟩, fun k hk hp => ?_, ?_, ?_, ?_⟩, ?_⟩
  · simp [hkind]
  · rw [hraw, hs] at hk hp
    exact prefix_drop_tag hls hk hp
  · have hk0 : k = 0 := by
      rw [hraw, hs] at hk hp
      rw [he] at hp
      exact prefix_drop_tag hls hk hp
    rw [hk0, hraw] at hp
    exact absurd hp (not_endTag_startTag t _)
  · simp [hkind]
  · simp [hkind]
  · intro ht _
    rw [hraw]
    refine ⟨List.ne_nil_of_length_pos t.startTag_pos, .inr ?_, gt_not_mem_startTag t⟩
    rw [ht]
    exact hpOpen_startTag.trans (List.prefix_append _ _)
  · have hcut : a.cutAfter = false := by
      unfold Piece.cutAfter
      rw [hkind, hraw, startTag_end]
      exact decide_eq_false (not_not.mpr rfl)
    rw [hcut]
    exact h

theorem lexed_stop (h : Lexed t false as) {a : Piece} (hkind : a.kind = .stop)
    (hraw : a.raw = t.endTag) (cut : Bool) : Lexed t cut (a :: as) := by
  obtain ⟨ls, hs, -⟩ := startTag_cons t
  obtain ⟨le, he, hle⟩ := endTag_cons t
  refine ⟨⟨?_, fun _ => hraw, fun k hk hp => ?_, fun k hk hp => ⟨hkind, ?_⟩, ?_, ?_, ?_⟩, ?_⟩
  · simp [hkind]
  · have hk0 : k = 0 := by
      rw [hraw, he] at hk hp
      rw [hs] at hp
      exact prefix_drop_tag hle hk hp
    rw [hk0, hraw] at hp
    exact absurd hp (not_startTag_endTag t _)
  · rw [hraw, he] at hk hp
    exact prefix_drop_tag hle hk hp
  · simp [hkind]
  · simp [hkind]
  · simp [hkind]
  · have hcut : a.cutAfter = false := by
      unfold Piece.cutAfter
      rw [hkind]
    rw [hcut]
    exact h

theorem lt_not_mem_tag {lead name rest : Bytes} (h : IsTag lead name rest) :
    lt ∉ lead ++ name ++ rest ++ [gt] := by
  have hlead : lt ∉ lead := by
    obtain hl | hl := h.atLead <;> rw [hl] <;> decide
  have hgt : lt ≠ gt := by decide
  simp [hlead, lt_not_mem_name h.noDelim, h.noLt, hgt]

/-- The first `>` cuts a tag in two. -/
theorem take_gt {bs : Bytes} (h : gt ∈ bs) :
    ∃ u, bs.take (bs.idxOf gt + 1) = u ++ [gt] ∧ gt ∉ u := by
  have hidx := List.idxOf_lt_length_of_mem h
  refine ⟨bs.take (bs.idxOf gt), ?_, fun hu => ?_⟩
  · rw [List.take_succ_eq_append_getElem hidx, List.getElem_idxOf]
  · obtain ⟨i, hi, hget⟩ := List.mem_iff_getElem.mp hu
    rw [List.length_take] at hi
    rw [List.getElem_take] at hget
    have hbefore : i < bs.findIdx (· == gt) := (Nat.lt_min.mp hi).1
    have := List.not_of_lt_findIdx hbefore
    simp [hget] at this

/-- A literal that begins in a tag is the tag. -/
theorem literal_in_tag {l n lead name rest : Bytes} (hlit : IsTag l n [])
    (htag : IsTag lead name rest) {k : Nat} (hk : k < (tagBytes lead name rest).length) {y : Bytes}
    (hp : tagBytes l n [] <+: (tagBytes lead name rest ++ y).drop k) :
    tagBytes lead name rest = tagBytes l n [] ∧ k = 0 := by
  have hk0 : k = 0 := prefix_drop_tag (lt_not_mem_tag htag) hk hp
  rw [hk0, List.drop_zero] at hp
  exact ⟨htag.eq_of_prefix hlit hp, hk0⟩

/-- A tag of an hwpx document that begins with `<hp:` is cut behind its first `>`. -/
theorem lexed_hpOpen {lead name rest : Bytes} (htag : IsTag lead name rest) (ht : t = .hwpx)
    (hhp : hpOpen <+: tagBytes lead name rest)
    (hstart : ∀ k < (tagBytes lead name rest).length, ∀ y,
      ¬t.startTag <+: (tagBytes lead name rest ++ y).drop k)
    (hstop : ∀ k < (tagBytes lead name rest).length, ∀ y,
      ¬t.endTag <+: (tagBytes lead name rest ++ y).drop k) (h : Lexed t false as) :
    Lexed t false
      (⟨.skip, mark false ((tagBytes lead name rest).take
        ((tagBytes lead name rest).idxOf gt + 1))⟩ ::
      ⟨.plain, mark false ((tagBytes lead name rest).drop
        ((tagBytes lead name rest).idxOf gt + 1))⟩ :: as) := by
  have hlt := lt_not_mem_tag htag
  have hmem : gt ∈ tagBytes lead name rest := by
    obtain ⟨z, hz⟩ := tagBytes_end lead name rest
    rw [hz]
    simp
  obtain ⟨u, hu, hgt⟩ := take_gt hmem
  have hcat := List.take_append_drop ((tagBytes lead name rest).idxOf gt + 1)
    (tagBytes lead name rest)
  generalize (tagBytes lead name rest).drop ((tagBytes lead name rest).idxOf gt + 1) = v
    at hcat ⊢
  rw [hu] at hcat ⊢
  have hback : ∀ y, u ++ [gt] ++ (v ++ y) = tagBytes lead name rest ++ y := by
    intro y
    rw [← List.append_assoc, hcat]
  have hlen : (u ++ [gt]).length ≤ (tagBytes lead name rest).length := by
    rw [← hcat]
    exact (List.prefix_append _ _).length_le
  have hv : lt ∉ v := by
    intro hmem
    cases u with
    | nil =>
      have := (List.cons.inj hcat).1
      exact absurd this (by decide)
    | cons b u =>
      apply hlt
      rw [← (List.cons.inj hcat).2]
      exact List.mem_append_right _ hmem
  refine ⟨⟨?_, ?_, fun k hk hp => ?_, fun k hk hp => ?_, fun _ => ht, ?_, fun _ _ => ?_⟩, ?_⟩
  · simp
  · simp
  · rw [raw_mark] at hk hp
    rw [rawOf_cons, raw_mark, hback] at hp
    exact absurd hp (hstart k (hk.trans_le hlen) _)
  · rw [raw_mark] at hk hp
    rw [rawOf_cons, raw_mark, hback] at hp
    exact absurd hp (hstop k (hk.trans_le hlen) _)
  · simp
  · rw [raw_mark, rawOf_cons, raw_mark, hback]
    refine ⟨by simp, .inr (hhp.trans (List.prefix_append _ _)), ?_⟩
    rw [List.dropLast_concat]
    exact hgt
  · have hcut : (⟨.skip, mark false (u ++ [gt])⟩ : Piece).cutAfter = false := by
      unfold Piece.cutAfter
      simp [raw_mark]
    rw [hcut]
    refine ⟨pieceOk_plain rfl ?_, h⟩
    rw [raw_mark]
    exact hv

theorem lexed_tagPieces {lead name rest : Bytes} (htag : IsTag lead name rest)
    (h : Lexed t false as) : Lexed t false (tagPieces t (tagBytes lead name rest) ++ as) := by
  unfold tagPieces
  split
  · rename_i hraw
    exact lexed_start h rfl ((raw_mark .start _).trans hraw) false
  · rename_i hns
    split
    · rename_i hraw
      exact lexed_stop h rfl ((raw_mark .stop _).trans hraw) false
    · rename_i hne
      have hstart : ∀ k < (tagBytes lead name rest).length, ∀ y,
          ¬t.startTag <+: (tagBytes lead name rest ++ y).drop k := by
        intro k hk y hp
        rw [startTag_eq] at hns hp
        exact hns (literal_in_tag (startTag_isTag t) htag hk hp).1
      have hstop : ∀ k < (tagBytes lead name rest).length, ∀ y,
          ¬t.endTag <+: (tagBytes lead name rest ++ y).drop k := by
        intro k hk y hp
        rw [endTag_eq] at hne hp
        exact hne (literal_in_tag (endTag_isTag t) htag hk hp).1
      split
      · rename_i hhp
        exact lexed_hpOpen htag hhp.1 hhp.2 hstart hstop h
      · rename_i hhp
        refine ⟨⟨?_, ?_, fun k hk hp => ?_, fun k hk hp => ?_, ?_, fun ht _ => ?_, ?_⟩, h⟩
        · simp
        · simp
        · rw [raw_mark] at hk hp
          exact absurd hp (hstart k hk _)
        · rw [raw_mark] at hk hp
          exact absurd hp (hstop k hk _)
        · simp
        · refine ⟨rfl, fun k hk hp => ?_⟩
          rw [raw_mark] at hk hp
          have hk0 : k = 0 := prefix_drop_tag (lt_not_mem_tag htag) hk hp
          rw [hk0] at hp
          exact hhp ⟨ht, prefix_of_prefix_append gt_not_mem_hpOpen
            (tagBytes_end lead name rest) hp⟩
        · simp

/-! ## Comments, instructions and CDATA sections -/

/-- Nothing is left and no `<hp:` is open, or what is left ends with `>`. -/
def ScanEnd (cut : Bool) (bs : List (UInt8 × Bool)) : Prop :=
  bs = [] ∧ cut = false ∨ ∃ zs f, bs = zs ++ [(gt, f)]

theorem ScanEnd.drop {cut : Bool} {bs : List (UInt8 × Bool)} (h : ScanEnd cut bs) (n : Nat) :
    ScanEnd false (bs.drop n) := by
  obtain ⟨rfl, -⟩ | ⟨zs, f, rfl⟩ := h
  · exact .inl ⟨List.drop_nil, rfl⟩
  · rcases Nat.lt_or_ge zs.length n with hn | hn
    · exact .inl ⟨List.drop_eq_nil_of_le (by simp; omega), rfl⟩
    · exact .inr ⟨zs.drop n, f, List.drop_append_of_le_length hn⟩

theorem ScanEnd.tail {cut : Bool} {b : UInt8 × Bool} {bs : List (UInt8 × Bool)}
    (h : ScanEnd cut (b :: bs)) : ScanEnd (b.1 ≠ gt) bs := by
  obtain ⟨h, -⟩ | ⟨zs, f, h⟩ := h
  · cases h
  · cases zs with
    | nil =>
      cases h
      exact .inl ⟨rfl, decide_eq_false (not_not.mpr rfl)⟩
    | cons z zs => exact .inr ⟨zs, f, (List.cons.inj h).2⟩

theorem ScanEnd.raw {cut : Bool} {b : UInt8 × Bool} {bs : List (UInt8 × Bool)}
    (h : ScanEnd cut (b :: bs)) : ∃ z, (b :: bs).map Prod.fst = z ++ [gt] := by
  obtain ⟨h, -⟩ | ⟨zs, f, h⟩ := h
  · cases h
  · rw [h]
    exact ⟨zs.map Prod.fst, by simp⟩

theorem take_raw {l : Bytes} {bs : List (UInt8 × Bool)} (h : l <+: bs.map Prod.fst) :
    (bs.take l.length).map Prod.fst = l := by
  rw [List.map_take]
  exact (List.prefix_iff_eq_take.mp h).symm

/-- A literal that begins at a byte of the scan lies in what is scanned. -/
theorem prefix_scan {l : Bytes} {b : UInt8 × Bool} {rest : List (UInt8 × Bool)} {k : Nat}
    (hl : gt ∉ l.dropLast) (hend : ∃ z, (b :: rest).map Prod.fst = z ++ [gt]) (hk : k < 1)
    (cut : Bool) (hp : l <+: ([b.1] ++ rawOf (scanPieces t cut rest ++ as)).drop k) :
    l <+: (b :: rest).map Prod.fst := by
  obtain rfl := Nat.lt_one_iff.mp hk
  rw [List.drop_zero, rawOf_append, rawOf_eq, markedOf_scanPieces] at hp
  exact prefix_of_prefix_append hl hend hp

theorem lexed_scanPieces (h : Lexed t false as) (cut : Bool) (bs : List (UInt8 × Bool))
    (hend : ScanEnd cut bs) : Lexed t cut (scanPieces t cut bs ++ as) := by
  fun_induction scanPieces t cut bs with
  | case1 cut =>
    obtain ⟨-, rfl⟩ | ⟨zs, f, hzs⟩ := hend
    · exact h
    · simp at hzs
  | case2 cut b rest hs ih =>
    rw [List.cons_append]
    refine lexed_start (ih (hend.drop _)) rfl ?_ cut
    exact take_raw hs
  | case3 cut b rest hs he ih =>
    rw [List.cons_append]
    refine lexed_stop (ih (hend.drop _)) rfl ?_ cut
    exact take_raw he
  | case4 cut b rest hs he hc ih =>
    have hcut : (⟨.skip, [b]⟩ : Piece).cutAfter = decide (b.1 ≠ gt) := by
      simp [Piece.cutAfter, Piece.raw]
    rw [List.cons_append, Lexed, hcut]
    refine ⟨⟨?_, ?_, fun k hk hp => ?_, fun k hk hp => ?_, fun _ => hc.1, ?_, fun _ _ => ?_⟩,
      ih hend.tail⟩
    · simp
    · simp
    · exact absurd (prefix_scan (gt_not_mem_startTag t) hend.raw hk _ hp) hs
    · exact absurd (prefix_scan (gt_not_mem_endTag t) hend.raw hk _ hp) he
    · simp
    · refine ⟨List.cons_ne_nil _ _, hc.2.imp_right fun hp => ?_, List.not_mem_nil⟩
      have hraw : (⟨.skip, [b]⟩ : Piece).raw ++ rawOf (scanPieces t (b.1 ≠ gt) rest ++ as) =
          (b :: rest).map Prod.fst ++ rawOf as := by
        rw [rawOf_append, rawOf_eq, markedOf_scanPieces]
        rfl
      rw [hraw]
      exact hp.trans (List.prefix_append _ _)
  | case5 cut b rest hs he hc ih =>
    rw [List.cons_append, Lexed]
    refine ⟨⟨?_, ?_, fun k hk hp => ?_, fun k hk hp => ?_, ?_, fun ht _ => ?_, ?_⟩,
      ih (hend.drop 1)⟩
    · simp
    · simp
    · exact absurd (prefix_scan (gt_not_mem_startTag t) hend.raw hk _ hp) hs
    · exact absurd (prefix_scan (gt_not_mem_endTag t) hend.raw hk _ hp) he
    · simp
    · obtain ⟨hcut, hhp⟩ := not_or.mp (not_and.mp hc ht)
      refine ⟨by simpa using hcut, fun k hk hp => hhp ?_⟩
      exact prefix_scan gt_not_mem_hpOpen hend.raw hk _ hp
    · simp

theorem lexed_plain (h : Lexed t false as) {bs : List (UInt8 × Bool)}
    (hlt : lt ∉ bs.map Prod.fst) : Lexed t false (⟨.plain, bs⟩ :: as) :=
  ⟨pieceOk_plain rfl hlt, h⟩

theorem lexed_misc (h : Lexed t false as) (m : Misc) :
    Lexed t false (scanPieces t false (mark false m.bytes) ++ as) := by
  refine lexed_scanPieces h false _ (.inr ?_)
  cases m with
  | comment body closed =>
    refine ⟨mark false ([0x3c, 0x21, 0x2d, 0x2d] ++ body ++ [0x2d, 0x2d]), false, ?_⟩
    simp [Misc.bytes, mark]
  | instruction body closed =>
    refine ⟨mark false ([0x3c, 0x3f] ++ body ++ [0x3f]), false, ?_⟩
    simp [Misc.bytes, mark]

theorem lexed_contentPieces (h : Lexed t false as) (inside : Bool) (c : Content) :
    Lexed t false (contentPieces t inside c ++ as) := by
  induction c generalizing inside as with
  | nil => exact h
  | text chars noLt next ih => exact lexed_plain (ih h inside) (by rwa [mark_raw])
  | element tag inner space next ih₁ ih₂ =>
    have hnext := lexed_tagPieces (tag.name.endTag_isTag space) (ih₂ h inside)
    have hinner := ih₁ hnext (inside || decide (tag.name.bytes = t.textName))
    have hall := lexed_tagPieces tag.start_isTag hinner
    simpa [contentPieces, tagBytes, Tag.start, Name.endTag] using hall
  | empty tag next ih =>
    have hall := lexed_tagPieces tag.empty_isTag (ih h inside)
    simpa [contentPieces, tagBytes, Tag.empty] using hall
  | cdata chars closed next ih =>
    rw [contentPieces, List.append_assoc]
    refine lexed_scanPieces (ih h inside) false _ (.inr ⟨mark false cdataStart ++
      mark inside chars ++ mark false [0x5d, 0x5d], false, ?_⟩)
    simp [mark, cdataEnd, gt]
  | misc m next ih =>
    rw [contentPieces, List.append_assoc]
    exact lexed_misc (ih h inside) m

theorem lexed_outerPieces (h : Lexed t false as) (os : List Outer) :
    Lexed t false (os.flatMap (outerPieces t) ++ as) := by
  induction os with
  | nil => exact h
  | cons o os ih =>
    rw [List.flatMap_cons, List.append_assoc]
    cases o with
    | misc m => exact lexed_misc ih m
    | space s => exact lexed_plain ih (by rw [mark_raw]; exact lt_not_mem_space s)

/-- The literal tags stand where the start and stop pieces begin. -/
theorem lexed_documentPieces (t : DocType) (d : Document) :
    Lexed t false (documentPieces t d) := by
  have hnil : Lexed t false [] := trivial
  have hepilog := lexed_outerPieces hnil d.epilog
  rw [List.append_nil] at hepilog
  refine lexed_outerPieces ?_ d.prolog
  have hrest := lexed_outerPieces (lexed_contentPieces hepilog false d.root) d.behindDoctype
  cases hd : d.doctype with
  | none => exact hrest
  | some doc =>
    refine lexed_scanPieces hrest false _ (.inr ?_)
    exact ⟨mark false ([0x3c, 0x21, 0x44, 0x4f, 0x43, 0x54, 0x59, 0x50, 0x45] ++ doc.body), false,
      by simp [Doctype.bytes, mark]⟩

end

end CdsGuard.Gateway
