import CdsGuard.Gateway.DocumentText

/-
  The two loops that queue the text spans of a document, on any bytes. `TextLoop` and `HwpxLoop`
  say what they do, round by round, so that a derivation is a run that ends; `textSpans` are the
  spans of such a run.

  Proved (`spans_of_regions`): the spans lie in the XML text, one behind the other, outside the
  tags between which they were found. In a region of a docx or xlsx document there is one span, the
  whole of it; in one of a hwpx document each byte is in exactly one span, or inside a `<hp:...>`
  that was opened in the region.
-/

namespace CdsGuard.Gateway

open CdsGuard.Lib CdsGuard.Lib.Xml

/-! ## The loops -/

/-- A region that was found: the start tag at `start` and the end tag at `next`. -/
structure TextRegion where
  start : Nat
  next : Nat
  deriving DecidableEq

/-- Where the text of a region begins. -/
def TextRegion.base (t : DocType) (r : TextRegion) : Nat := r.start + t.startTag.length

/-- The runs of the inner loop for hwpx, from `local_pos` on, and the spans that they queue. -/
inductive HwpxLoop (xml : Bytes) (base size : Nat) : Nat → List TextSpan → Prop
  | done {localPos : Nat} (h : size ≤ localPos) : HwpxLoop xml base size localPos []
  | rest {localPos : Nat} (h : localPos < size)
      (hopen : ∀ hpPos, findFrom xml hpOpen (base + localPos) = some hpPos →
        base + size ≤ hpPos) :
      HwpxLoop xml base size localPos [⟨base + localPos, base + size - (base + localPos)⟩]
  | malformed {localPos hpPos : Nat} (h : localPos < size)
      (hopen : findFrom xml hpOpen (base + localPos) = some hpPos) (hin : hpPos < base + size)
      (hclose : ∀ tagClose, findFrom xml [0x3e] hpPos = some tagClose → base + size ≤ tagClose) :
      HwpxLoop xml base size localPos
        (if base + localPos < hpPos then [⟨base + localPos, hpPos - (base + localPos)⟩] else [])
  | tag {localPos hpPos tagClose : Nat} {spans : List TextSpan} (h : localPos < size)
      (hopen : findFrom xml hpOpen (base + localPos) = some hpPos) (hin : hpPos < base + size)
      (hclose : findFrom xml [0x3e] hpPos = some tagClose) (hend : tagClose < base + size)
      (hnext : HwpxLoop xml base size (tagClose + 1 - base) spans) :
      HwpxLoop xml base size localPos
        ((if base + localPos < hpPos then [⟨base + localPos, hpPos - (base + localPos)⟩] else []) ++
          spans)

/-- What a round of the outer loop queues for a region. -/
def RegionSpans (t : DocType) (xml : Bytes) (r : TextRegion) (spans : List TextSpan) : Prop :=
  if t = .hwpx then HwpxLoop xml (r.base t) (r.next - r.base t) 0 spans
  else spans = [⟨r.base t, r.next - r.base t⟩]

/-- The runs of the outer loop, from a position on: the regions that they find, and the spans that
    they queue. -/
inductive TextLoop (t : DocType) (xml : Bytes) : Nat → List TextRegion → List TextSpan → Prop
  | noStart {pos : Nat} (h : findFrom xml t.startTag pos = none) : TextLoop t xml pos [] []
  | noEnd {pos start : Nat} (hstart : findFrom xml t.startTag pos = some start)
      (hend : findFrom xml t.endTag start = none) : TextLoop t xml pos [] []
  | region {pos start next : Nat} {spans spans' : List TextSpan} {regions : List TextRegion}
      (hstart : findFrom xml t.startTag pos = some start)
      (hend : findFrom xml t.endTag start = some next)
      (hspans : RegionSpans t xml ⟨start, next⟩ spans)
      (hnext : TextLoop t xml (next + t.endTag.length) regions spans') :
      TextLoop t xml pos (⟨start, next⟩ :: regions) (spans ++ spans')

/-- The inner loop ends. -/
theorem hwpxSpans_loop (xml : Bytes) (base size fuel localPos : Nat)
    (hfuel : size < fuel + localPos) :
    HwpxLoop xml base size localPos (hwpxSpans xml base size fuel localPos) := by
  induction fuel generalizing localPos with
  | zero => exact .done (by omega)
  | succ fuel ih =>
    unfold hwpxSpans
    split
    · rename_i hdone
      exact .done hdone
    · rename_i hmore
      have hlt : localPos < size := by omega
      dsimp only
      cases hopen : findFrom xml hpOpen (base + localPos) with
      | none => exact .rest hlt fun hpPos h => absurd (hopen.symm.trans h) (by simp)
      | some hpPos =>
        dsimp only
        split
        · rename_i hout
          refine .rest hlt fun hpPos' h => ?_
          rw [← Option.some.inj (hopen.symm.trans h)]
          exact hout
        · rename_i hin
          cases hclose : findFrom xml [0x3e] hpPos with
          | none =>
            exact .malformed hlt hopen (by omega) fun c h => absurd (hclose.symm.trans h) (by simp)
          | some tagClose =>
            dsimp only
            split
            · rename_i hout
              refine .malformed hlt hopen (by omega) fun c h => ?_
              rw [← Option.some.inj (hclose.symm.trans h)]
              exact hout
            · have hpast := (findFrom_eq_some_iff.mp hopen).1
              have hpast' := (findFrom_eq_some_iff.mp hclose).1
              exact .tag hlt hopen (by omega) hclose (by omega) (ih _ (by omega))

/-! ## The tags of a region -/

/-- The bytes of a literal that stands at a place. -/
theorem getElem?_of_prefix {text pat : Bytes} {j i : Nat} (h : pat <+: text.drop j)
    (hi : i < pat.length) : text[j + i]? = pat[i]? := by
  obtain ⟨rest, hrest⟩ := h
  rw [← List.getElem?_drop, ← hrest, List.getElem?_append_left hi]

/-- In a start tag `<` stands at the beginning only, and `/` nowhere behind it. -/
theorem DocType.startTag_bytes (t : DocType) :
    t.startTag[1]? ≠ some 0x2f ∧ ∀ i < t.startTag.length, i ≠ 0 → t.startTag[i]? ≠ some 0x3c := by
  cases t <;> decide

theorem DocType.endTag_bytes (t : DocType) :
    t.endTag[0]? = some 0x3c ∧ t.endTag[1]? = some 0x2f ∧ 1 < t.endTag.length := by
  cases t <;> decide

section

variable {t : DocType} {xml : Bytes}

/-- What a region is: a start tag, and the first end tag behind it, which do not overlap. -/
structure TextRegion.Ok (t : DocType) (xml : Bytes) (r : TextRegion) : Prop where
  startTag : t.startTag <+: xml.drop r.start
  endTag : t.endTag <+: xml.drop r.next
  base_le : r.base t ≤ r.next
  stop_le : r.next + t.endTag.length ≤ xml.length
  first : ∀ j, r.start ≤ j → j < r.next → ¬t.endTag <+: xml.drop j

theorem region_ok {pos start next : Nat} (hstart : findFrom xml t.startTag pos = some start)
    (hend : findFrom xml t.endTag start = some next) : TextRegion.Ok t xml ⟨start, next⟩ := by
  obtain ⟨-, -, hopen, -⟩ := findFrom_eq_some_iff.mp hstart
  obtain ⟨hle, hnext, hclose, hfirst⟩ := findFrom_eq_some_iff.mp hend
  obtain ⟨hlt0, hslash, hlong⟩ := t.endTag_bytes
  obtain ⟨hnoSlash, hnoLt⟩ := t.startTag_bytes
  refine { startTag := hopen, endTag := hclose, base_le := ?_, stop_le := ?_, first := hfirst }
  · show start + t.startTag.length ≤ next
    by_contra hover
    -- the end tag begins at a `<` inside the start tag, so where that begins
    have hzero : next - start = 0 := by
      by_contra hne
      refine hnoLt (next - start) (by omega) hne ?_
      rw [← getElem?_of_prefix hopen (by omega), Nat.add_sub_cancel' hle,
        ← hlt0, ← getElem?_of_prefix hclose (by omega), Nat.add_zero]
    obtain rfl : next = start := by omega
    apply hnoSlash
    have hone : 1 < t.startTag.length := by
      cases t <;> decide
    rw [← getElem?_of_prefix hopen hone, getElem?_of_prefix hclose hlong, hslash]
  · have := hclose.length_le
    rw [List.length_drop] at this
    show next + t.endTag.length ≤ xml.length
    omega

/-! ## The spans of a region -/

/-- The spans lie between two positions, one behind the other. -/
structure InOrder (lo hi : Nat) (spans : List TextSpan) : Prop where
  inside : ∀ s ∈ spans, lo ≤ s.off ∧ s.off + s.len ≤ hi
  ordered : spans.Pairwise fun a b => a.off + a.len ≤ b.off

theorem inOrder_nil (lo hi : Nat) : InOrder lo hi [] :=
  ⟨fun _ h => absurd h List.not_mem_nil, List.Pairwise.nil⟩

theorem inOrder_singleton {lo hi off len : Nat} (hlo : lo ≤ off) (hhi : off + len ≤ hi) :
    InOrder lo hi [⟨off, len⟩] :=
  ⟨fun s hs => by rw [List.mem_singleton.mp hs]; exact ⟨hlo, hhi⟩, List.pairwise_singleton _ _⟩

theorem InOrder.append {lo mid mid' hi : Nat} {xs ys : List TextSpan} (hx : InOrder lo mid xs)
    (hy : InOrder mid' hi ys) (hlo : lo ≤ mid') (hmid : mid ≤ mid') (hhi : mid ≤ hi) :
    InOrder lo hi (xs ++ ys) where
  inside := by
    intro s hs
    rcases List.mem_append.mp hs with hs | hs
    · obtain ⟨h₁, h₂⟩ := hx.inside s hs
      exact ⟨h₁, h₂.trans hhi⟩
    · obtain ⟨h₁, h₂⟩ := hy.inside s hs
      exact ⟨hlo.trans h₁, h₂⟩
  ordered := List.pairwise_append.mpr ⟨hx.ordered, hy.ordered, fun a ha b hb =>
    (hx.inside a ha).2.trans (hmid.trans (hy.inside b hb).1)⟩

theorem InOrder.mono {lo lo' hi hi' : Nat} {spans : List TextSpan} (h : InOrder lo hi spans)
    (hlo : lo' ≤ lo) (hhi : hi ≤ hi') : InOrder lo' hi' spans :=
  ⟨fun s hs => ⟨hlo.trans (h.inside s hs).1, (h.inside s hs).2.trans hhi⟩, h.ordered⟩

/-- A byte is in one of the spans only. -/
theorem InOrder.unique {lo hi p : Nat} {spans : List TextSpan} (h : InOrder lo hi spans)
    (hp : Covers spans p) :
    ∃! k : Nat, ∃ s : TextSpan, spans[k]? = some s ∧ s.off ≤ p ∧ p < s.off + s.len := by
  obtain ⟨s, hs, hlow, hhigh⟩ := hp
  obtain ⟨k, hk⟩ := List.mem_iff_getElem?.mp hs
  refine ⟨k, ⟨s, hk, hlow, hhigh⟩, fun k' hk' => ?_⟩
  obtain ⟨s', hk', hlow', hhigh'⟩ := hk'
  obtain ⟨hlt, rfl⟩ := List.getElem?_eq_some_iff.mp hk
  obtain ⟨hlt', rfl⟩ := List.getElem?_eq_some_iff.mp hk'
  have hpair := List.pairwise_iff_getElem.mp h.ordered
  rcases Nat.lt_trichotomy k k' with hkk | hkk | hkk
  · have := hpair k k' hlt hlt' hkk
    omega
  · exact hkk.symm
  · have := hpair k' k hlt' hlt hkk
    omega

theorem HwpxLoop.inOrder {base size localPos : Nat} {spans : List TextSpan}
    (h : HwpxLoop xml base size localPos spans) :
    InOrder (base + localPos) (base + size) spans := by
  -- what is queued in front of a tag
  have hbefore : ∀ localPos hpPos, base + localPos ≤ hpPos →
      InOrder (base + localPos) hpPos
        (if base + localPos < hpPos then [⟨base + localPos, hpPos - (base + localPos)⟩]
          else []) := by
    intro localPos hpPos hle
    split
    · exact inOrder_singleton (Nat.le_refl _) (by omega)
    · exact inOrder_nil _ _
  induction h with
  | done h => exact inOrder_nil _ _
  | rest h hopen => exact inOrder_singleton (Nat.le_refl _) (by omega)
  | malformed h hopen hin hclose =>
    obtain ⟨hle, -⟩ := findFrom_eq_some_iff.mp hopen
    exact (hbefore _ _ hle).mono (Nat.le_refl _) (Nat.le_of_lt hin)
  | tag h hopen hin hclose hend hnext ih =>
    obtain ⟨hle, -⟩ := findFrom_eq_some_iff.mp hopen
    obtain ⟨hle', -⟩ := findFrom_eq_some_iff.mp hclose
    exact (hbefore _ _ hle).append ih (by omega) (by omega) (Nat.le_of_lt hin)

/-- A byte that is left out of the spans of a region. -/
def LeftOut (t : DocType) (xml : Bytes) (r : TextRegion) (p : Nat) : Prop :=
  t = .hwpx ∧ InCut xml (r.base t) p

/-- The spans that a round queues. -/
structure RegionCovered (t : DocType) (xml : Bytes) (r : TextRegion) (spans : List TextSpan) :
    Prop where
  order : InOrder (r.base t) r.next spans
  covers : ∀ p, Covers spans p ↔ (r.base t ≤ p ∧ p < r.next) ∧ ¬LeftOut t xml r p
  spans : RegionSpans t xml r spans

/-- The spans that the function computes for a region. -/
def regionSpans (t : DocType) (xml : Bytes) (r : TextRegion) : List TextSpan :=
  if t = .hwpx then hwpxSpans xml (r.base t) (r.next - r.base t) (r.next - r.base t + 1) 0
  else [⟨r.base t, r.next - r.base t⟩]

theorem regionCovered {r : TextRegion} (h : r.Ok t xml) :
    RegionCovered t xml r (regionSpans t xml r) := by
  have hbase := h.base_le
  have hstop := h.stop_le
  have hsize : r.base t + (r.next - r.base t) = r.next := by omega
  unfold regionSpans
  by_cases ht : t = .hwpx
  · rw [if_pos ht]
    have hloop := hwpxSpans_loop xml (r.base t) (r.next - r.base t) (r.next - r.base t + 1) 0
      (by omega)
    refine { order := ?_, covers := fun p => ?_, spans := ?_ }
    · have := hloop.inOrder
      rwa [hsize, Nat.add_zero] at this
    · rw [covers_hwpxSpans (by omega) _ 0 (by omega), hsize, Nat.add_zero]
      simp [LeftOut, ht]
    · rw [RegionSpans, if_pos ht]
      exact hloop
  · rw [if_neg ht]
    refine { order := inOrder_singleton (Nat.le_refl _) (by omega), covers := fun p => ?_
             spans := by rw [RegionSpans, if_neg ht] }
    rw [covers_singleton, hsize]
    simp [LeftOut, ht]

/-! ## All regions -/

/-- A byte of one of the tags of a region. -/
def TextRegion.InTag (t : DocType) (r : TextRegion) (p : Nat) : Prop :=
  r.start ≤ p ∧ p < r.base t ∨ r.next ≤ p ∧ p < r.next + t.endTag.length

/-- A run from a position on. -/
structure LoopResult (t : DocType) (xml : Bytes) (pos : Nat) (regions : List TextRegion)
    (spans : List TextSpan) : Prop where
  loop : TextLoop t xml pos regions spans
  ok : ∀ r ∈ regions, r.Ok t xml ∧ pos ≤ r.start
  apart : regions.Pairwise fun r r' => r.next + t.endTag.length ≤ r'.start
  order : InOrder pos xml.length spans
  covers : ∀ p, Covers spans p ↔
    ∃ r ∈ regions, (r.base t ≤ p ∧ p < r.next) ∧ ¬LeftOut t xml r p
  whole : t ≠ .hwpx → spans = regions.map fun r => ⟨r.base t, r.next - r.base t⟩

/-- A round that finds a region. -/
theorem LoopResult.cons {pos start next : Nat} {regions : List TextRegion}
    {spans : List TextSpan} (hstart : findFrom xml t.startTag pos = some start)
    (hend : findFrom xml t.endTag start = some next)
    (h : LoopResult t xml (next + t.endTag.length) regions spans) :
    LoopResult t xml pos (⟨start, next⟩ :: regions)
      (regionSpans t xml ⟨start, next⟩ ++ spans) := by
  obtain ⟨hpos, -⟩ := findFrom_eq_some_iff.mp hstart
  have hok := region_ok hstart hend
  obtain ⟨horder, hcovers, hspans⟩ := regionCovered hok
  have hbase := hok.base_le
  have hstop := hok.stop_le
  have hlow : start ≤ TextRegion.base t ⟨start, next⟩ := Nat.le_add_right _ _
  refine { loop := .region hstart hend hspans h.loop, ok := ?_, apart := ?_, order := ?_
           covers := fun p => ?_, whole := fun ht => ?_ }
  · intro r hr
    rcases List.mem_cons.mp hr with rfl | hr
    · exact ⟨hok, hpos⟩
    · obtain ⟨hr₁, hr₂⟩ := h.ok r hr
      refine ⟨hr₁, ?_⟩
      dsimp only at hbase
      omega
  · exact List.pairwise_cons.mpr ⟨fun r hr => (h.ok r hr).2, h.apart⟩
  · dsimp only at hbase hstop
    have hin : next ≤ xml.length := by omega
    exact (horder.mono (hpos.trans hlow) (Nat.le_refl _)).append h.order (by omega)
      (Nat.le_add_right _ _) hin
  · rw [covers_append, hcovers, h.covers, List.exists_mem_cons_iff]
  · rw [h.whole ht, regionSpans, if_neg ht]
    rfl

theorem loopResult_nil {pos : Nat} (h : TextLoop t xml pos [] []) :
    LoopResult t xml pos [] [] where
  loop := h
  ok := fun _ hr => absurd hr List.not_mem_nil
  apart := List.Pairwise.nil
  order := inOrder_nil _ _
  covers := fun p => by simp [covers_nil]
  whole := fun _ => rfl

/-- The outer loop ends. -/
theorem textSpansFrom_result (t : DocType) (xml : Bytes) (fuel pos : Nat)
    (hfuel : xml.length < fuel + pos) :
    ∃ regions, LoopResult t xml pos regions (textSpansFrom t xml fuel pos) := by
  induction fuel generalizing pos with
  | zero =>
    have hnone : findFrom xml t.startTag pos = none := by
      rw [findFrom_eq_none_iff]
      intro j hpj hj
      omega
    exact ⟨[], loopResult_nil (.noStart hnone)⟩
  | succ fuel ih =>
    unfold textSpansFrom
    cases hstart : findFrom xml t.startTag pos with
    | none => exact ⟨[], loopResult_nil (.noStart hstart)⟩
    | some start =>
      dsimp only
      cases hend : findFrom xml t.endTag start with
      | none => exact ⟨[], loopResult_nil (.noEnd hstart hend)⟩
      | some next =>
        have hpos := (findFrom_eq_some_iff.mp hstart).1
        have hle := (findFrom_eq_some_iff.mp hend).1
        have htag := t.endTag_pos
        obtain ⟨regions, hresult⟩ := ih (next + t.endTag.length) (by omega)
        exact ⟨⟨start, next⟩ :: regions, hresult.cons hstart hend⟩

/-- Two regions are the same, or the end tag of one is behind the other. -/
theorem LoopResult.eq_or_apart {regions : List TextRegion} {spans : List TextSpan}
    (h : LoopResult t xml 0 regions spans) {r r' : TextRegion} (hr : r ∈ regions)
    (hr' : r' ∈ regions) :
    r = r' ∨ r.next + t.endTag.length ≤ r'.start ∨ r'.next + t.endTag.length ≤ r.start := by
  have hpair := List.pairwise_iff_getElem.mp h.apart
  obtain ⟨i, hi, rfl⟩ := List.mem_iff_getElem.mp hr
  obtain ⟨j, hj, rfl⟩ := List.mem_iff_getElem.mp hr'
  rcases Nat.lt_trichotomy i j with hij | rfl | hij
  · exact .inr (.inl (hpair i j hi hj hij))
  · exact .inl rfl
  · exact .inr (.inr (hpair j i hj hi hij))

/-- A byte is in one region only. -/
theorem LoopResult.region_unique {regions : List TextRegion} {spans : List TextSpan}
    (h : LoopResult t xml 0 regions spans) {r r' : TextRegion} (hr : r ∈ regions)
    (hr' : r' ∈ regions) {p : Nat} (hlow : r.base t ≤ p) (hhigh : p < r.next)
    (hlow' : r'.base t ≤ p) (hhigh' : p < r'.next) : r = r' := by
  have hstart : r.start ≤ r.base t := Nat.le_add_right _ _
  have hstart' : r'.start ≤ r'.base t := Nat.le_add_right _ _
  obtain heq | hbefore | hbehind := h.eq_or_apart hr hr'
  · exact heq
  · omega
  · omega

/-- Tags of regions that were found are outside all of them. -/
theorem LoopResult.not_covers_tag {regions : List TextRegion} {spans : List TextSpan}
    (h : LoopResult t xml 0 regions spans) {r : TextRegion} (hr : r ∈ regions) {p : Nat}
    (hp : r.InTag t p) : ¬Covers spans p := by
  intro hcov
  obtain ⟨r', hr', ⟨hlow, hhigh⟩, -⟩ := (h.covers p).mp hcov
  have hbase := (h.ok r hr).1.base_le
  have hbase' := (h.ok r' hr').1.base_le
  have hstart : r.start ≤ r.base t := Nat.le_add_right _ _
  have hstart' : r'.start ≤ r'.base t := Nat.le_add_right _ _
  unfold TextRegion.InTag at hp
  obtain rfl | hbefore | hbehind := h.eq_or_apart hr hr'
  · omega
  · omega
  · omega

/-- The spans that are queued, for any XML text: the loops end, the spans lie in the text one
    behind the other and outside the tags; in docx and xlsx each region is a span, and in hwpx each
    byte of a region is in exactly one span, unless it is inside a tag that was opened there. -/
theorem spans_of_regions (t : DocType) (xml : Bytes) :
    ∃ regions, TextLoop t xml 0 regions (textSpans t xml) ∧
      (∀ s ∈ textSpans t xml, s.off + s.len ≤ xml.length) ∧
      ((textSpans t xml).Pairwise fun a b => a.off + a.len ≤ b.off) ∧
      (∀ r ∈ regions, ∀ p, r.InTag t p → ¬Covers (textSpans t xml) p) ∧
      (t ≠ .hwpx → textSpans t xml = regions.map fun r => ⟨r.base t, r.next - r.base t⟩) ∧
      (t = .hwpx → ∀ r ∈ regions, ∀ p, r.base t ≤ p → p < r.next →
        (¬InCut xml (r.base t) p →
          ∃! k : Nat, ∃ s : TextSpan, (textSpans t xml)[k]? = some s ∧
            s.off ≤ p ∧ p < s.off + s.len) ∧
        (InCut xml (r.base t) p → ¬Covers (textSpans t xml) p)) := by
  obtain ⟨regions, h⟩ := textSpansFrom_result t xml (xml.length + 1) 0 (Nat.lt_succ_self _)
  have h : LoopResult t xml 0 regions (textSpans t xml) := h
  refine ⟨regions, h.loop, fun s hs => (h.order.inside s hs).2, h.order.ordered,
    fun r hr p hp => h.not_covers_tag hr hp, h.whole, fun ht r hr p hlow hhigh => ⟨?_, ?_⟩⟩
  · intro hcut
    exact h.order.unique ((h.covers p).mpr ⟨r, hr, ⟨hlow, hhigh⟩, fun hout => hcut hout.2⟩)
  · intro hcut hcov
    obtain ⟨r', hr', ⟨hlow', hhigh'⟩, hkept⟩ := (h.covers p).mp hcov
    obtain rfl := h.region_unique hr hr' hlow hhigh hlow' hhigh'
    exact hkept ⟨ht, hcut⟩

end

end CdsGuard.Gateway
