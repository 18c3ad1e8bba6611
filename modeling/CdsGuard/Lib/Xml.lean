import CdsGuard.Lib.Bytes

/-
  Well-formed XML as the grammar builds it: names, attributes, tags, and content, in which every
  end tag repeats the name of its start tag. A document is its bytes; `marked` writes them with
  a mark on the character data inside the elements of a given name. References are character
  data here; comments, processing instructions and the delimiters of a CDATA section are not.

  The values carry what the grammar asks of their bytes where a reader that looks for markup
  depends on it: what may stand in a name or an attribute value, and where a comment ends.
-/

namespace CdsGuard.Lib.Xml

/-! ## Names and tags -/

def lt : UInt8 := 0x3c
def gt : UInt8 := 0x3e
def slash : UInt8 := 0x2f

def IsSpace (b : UInt8) : Prop := b = 0x20 ∨ b = 0x09 ∨ b = 0x0d ∨ b = 0x0a

instance (b : UInt8) : Decidable (IsSpace b) :=
  inferInstanceAs (Decidable (b = 0x20 ∨ b = 0x09 ∨ b = 0x0d ∨ b = 0x0a))

/-- White space and the signs of the grammar, none of which stands in a name. -/
def IsDelim (b : UInt8) : Prop :=
  IsSpace b ∨ b = lt ∨ b = gt ∨ b = slash ∨ b = 0x3d ∨ b = 0x22 ∨ b = 0x27

instance (b : UInt8) : Decidable (IsDelim b) :=
  inferInstanceAs (Decidable
    (IsSpace b ∨ b = lt ∨ b = gt ∨ b = slash ∨ b = 0x3d ∨ b = 0x22 ∨ b = 0x27))

structure Name where
  bytes : Bytes
  nonempty : bytes ≠ []
  noDelim : ∀ b ∈ bytes, ¬IsDelim b

structure Space where
  bytes : Bytes
  isSpace : ∀ b ∈ bytes, IsSpace b

def Space.none : Space := ⟨[], fun _ h => absurd h List.not_mem_nil⟩

structure Attribute where
  space : Space
  spaced : space.bytes ≠ []
  name : Name
  before : Space
  after : Space
  quote : UInt8
  isQuote : quote = 0x22 ∨ quote = 0x27
  value : Bytes
  noLt : lt ∉ value
  noQuote : quote ∉ value

def Attribute.bytes (a : Attribute) : Bytes :=
  a.space.bytes ++ a.name.bytes ++ a.before.bytes ++ [0x3d] ++ a.after.bytes ++ [a.quote] ++
    a.value ++ [a.quote]

structure Tag where
  name : Name
  attributes : List Attribute
  space : Space

/-- What follows the name. -/
def Tag.rest (t : Tag) : Bytes := t.attributes.flatMap Attribute.bytes ++ t.space.bytes

def Tag.start (t : Tag) : Bytes := lt :: (t.name.bytes ++ t.rest ++ [gt])

def Tag.empty (t : Tag) : Bytes := lt :: (t.name.bytes ++ t.rest ++ [slash, gt])

def Name.endTag (n : Name) (space : Space) : Bytes :=
  lt :: slash :: (n.bytes ++ space.bytes ++ [gt])

/-! ## Content -/

/-- `--` and `-->`, `?>`, `]]>`. -/
def dashes : Bytes := [0x2d, 0x2d]
def instructionEnd : Bytes := [0x3f, 0x3e]
def cdataEnd : Bytes := [0x5d, 0x5d, 0x3e]

/-- `<![CDATA[` -/
def cdataStart : Bytes := [0x3c, 0x21, 0x5b, 0x43, 0x44, 0x41, 0x54, 0x41, 0x5b]

inductive Misc where
  | comment (body : Bytes) (closed : ¬dashes <:+: body ++ [0x2d])
  | instruction (body : Bytes) (closed : ¬instructionEnd <:+: body)

def Misc.bytes : Misc → Bytes
  | comment body _ => [0x3c, 0x21, 0x2d, 0x2d] ++ body ++ [0x2d, 0x2d, gt]
  | instruction body _ => [0x3c, 0x3f] ++ body ++ [0x3f, gt]

/-- The content of an element, piece by piece. -/
inductive Content where
  | nil
  | text (chars : Bytes) (noLt : lt ∉ chars) (next : Content)
  | element (tag : Tag) (inner : Content) (space : Space) (next : Content)
  | empty (tag : Tag) (next : Content)
  | cdata (chars : Bytes) (closed : ¬cdataEnd <:+: chars) (next : Content)
  | misc (m : Misc) (next : Content)

/-- One element and nothing else. -/
def Content.IsElement : Content → Prop
  | .element _ _ _ .nil => True
  | .empty _ .nil => True
  | _ => False

/-- A part of the prolog or behind the root. -/
inductive Outer where
  | misc (m : Misc)
  | space (s : Space)

def Outer.bytes : Outer → Bytes
  | misc m => m.bytes
  | space s => s.bytes

/-- `<!DOCTYPE`, up to its `>`. -/
structure Doctype where
  body : Bytes

def Doctype.bytes (d : Doctype) : Bytes :=
  [0x3c, 0x21, 0x44, 0x4f, 0x43, 0x54, 0x59, 0x50, 0x45] ++ d.body ++ [gt]

structure Document where
  prolog : List Outer
  doctype : Option Doctype
  behindDoctype : List Outer
  root : Content
  isElement : root.IsElement
  epilog : List Outer

/-! ## The bytes, and the character data among them -/

def Content.bytes : Content → Bytes
  | nil => []
  | text chars _ next => chars ++ next.bytes
  | element tag inner space next =>
    tag.start ++ (inner.bytes ++ (tag.name.endTag space ++ next.bytes))
  | empty tag next => tag.empty ++ next.bytes
  | cdata chars _ next => cdataStart ++ chars ++ cdataEnd ++ next.bytes
  | misc m next => m.bytes ++ next.bytes

def Document.bytes (d : Document) : Bytes :=
  d.prolog.flatMap Outer.bytes ++ d.doctype.elim [] Doctype.bytes ++
    d.behindDoctype.flatMap Outer.bytes ++ d.root.bytes ++ d.epilog.flatMap Outer.bytes

def mark (flag : Bool) (bs : Bytes) : List (UInt8 × Bool) := bs.map fun b => (b, flag)

/-- The character data inside the elements called `name` is marked. -/
def Content.marked (name : Bytes) : Bool → Content → List (UInt8 × Bool)
  | _, nil => []
  | inside, text chars _ next => mark inside chars ++ next.marked name inside
  | inside, element tag inner space next =>
    mark false tag.start ++ (inner.marked name (inside || tag.name.bytes = name) ++
      (mark false (tag.name.endTag space) ++ next.marked name inside))
  | inside, empty tag next => mark false tag.empty ++ next.marked name inside
  | inside, cdata chars _ next =>
    mark false cdataStart ++ mark inside chars ++ mark false cdataEnd ++ next.marked name inside
  | inside, misc m next => mark false m.bytes ++ next.marked name inside

def Document.marked (name : Bytes) (d : Document) : List (UInt8 × Bool) :=
  mark false (d.prolog.flatMap Outer.bytes) ++ mark false (d.doctype.elim [] Doctype.bytes) ++
    mark false (d.behindDoctype.flatMap Outer.bytes) ++ d.root.marked name false ++
    mark false (d.epilog.flatMap Outer.bytes)

/-- Byte `p` of the document is character data of an element called `name`. -/
def Document.CharData (name : Bytes) (d : Document) (p : Nat) : Prop :=
  ∃ b, (d.marked name)[p]? = some (b, true)

theorem mark_raw (flag : Bool) (bs : Bytes) : (mark flag bs).map Prod.fst = bs := by
  simp [mark, Function.comp_def]

theorem mark_append (flag : Bool) (xs ys : Bytes) :
    mark flag (xs ++ ys) = mark flag xs ++ mark flag ys := List.map_append

theorem Content.marked_raw (name : Bytes) (inside : Bool) (c : Content) :
    (c.marked name inside).map Prod.fst = c.bytes := by
  induction c generalizing inside with
  | nil => rfl
  | text chars noLt next ih => rw [marked, List.map_append, mark_raw, ih, bytes]
  | element tag inner space next ih₁ ih₂ =>
    simp only [marked, List.map_append, mark_raw, ih₁, ih₂, bytes]
  | empty tag next ih => rw [marked, List.map_append, mark_raw, ih, bytes]
  | cdata chars closed next ih => simp only [marked, List.map_append, mark_raw, ih, bytes]
  | misc m next ih => rw [marked, List.map_append, mark_raw, ih, bytes]

/-- The marks leave the bytes as they are. -/
theorem Document.marked_raw (name : Bytes) (d : Document) :
    (d.marked name).map Prod.fst = d.bytes := by
  simp only [marked, List.map_append, mark_raw, Content.marked_raw, bytes]

/-! ## The shape of tags -/

/-- A tag as a reader meets it: behind `<` and perhaps a slash a name, and then its end, white
    space or a slash; no other `<`. -/
structure IsTag (lead name rest : Bytes) : Prop where
  atLead : lead = [] ∨ lead = [slash]
  nonempty : name ≠ []
  noDelim : ∀ b ∈ name, ¬IsDelim b
  atRest : rest = [] ∨ ∃ b bs, rest = b :: bs ∧ (IsSpace b ∨ b = slash)
  noLt : lt ∉ rest

theorem lt_not_mem_name {n : Bytes} (h : ∀ b ∈ n, ¬IsDelim b) : lt ∉ n :=
  fun hm => h lt hm (.inr (.inl rfl))

theorem lt_not_mem_space (s : Space) : lt ∉ s.bytes :=
  fun hm => absurd (s.isSpace lt hm) (by decide)

theorem lt_not_mem_attribute (a : Attribute) : lt ∉ a.bytes := by
  have hq : lt ≠ a.quote := by
    obtain h | h := a.isQuote
    · rw [h]
      decide
    · rw [h]
      decide
  have hn := lt_not_mem_name a.name.noDelim
  have heq : lt ≠ 0x3d := by decide
  simp [Attribute.bytes, lt_not_mem_space, hn, hq, heq, a.noLt]

theorem Tag.lt_not_mem_rest (t : Tag) : lt ∉ t.rest := by
  have hattr : lt ∉ t.attributes.flatMap Attribute.bytes := by
    intro h
    obtain ⟨a, -, ha⟩ := List.mem_flatMap.mp h
    exact lt_not_mem_attribute a ha
  simp [Tag.rest, hattr, lt_not_mem_space]

theorem Space.head (s : Space) :
    s.bytes = [] ∨ ∃ b bs, s.bytes = b :: bs ∧ IsSpace b := by
  cases h : s.bytes with
  | nil => exact .inl rfl
  | cons b bs => exact .inr ⟨b, bs, rfl, s.isSpace b (h ▸ List.mem_cons_self)⟩

theorem Tag.rest_head (t : Tag) : t.rest = [] ∨ ∃ b bs, t.rest = b :: bs ∧ IsSpace b := by
  cases h : t.attributes with
  | nil =>
    have hrest : t.rest = t.space.bytes := by simp [Tag.rest, h]
    rw [hrest]
    exact t.space.head
  | cons a as =>
    right
    obtain ⟨b, bs, hb, hs⟩ := a.space.head.resolve_left a.spaced
    have hrest : ∃ bs', t.rest = b :: bs' := by
      simp [Tag.rest, h, Attribute.bytes, hb]
    obtain ⟨bs', hbs'⟩ := hrest
    exact ⟨b, bs', hbs', hs⟩

theorem Tag.start_isTag (t : Tag) : IsTag [] t.name.bytes t.rest :=
  ⟨.inl rfl, t.name.nonempty, t.name.noDelim,
    t.rest_head.imp_right fun ⟨b, bs, h, hs⟩ => ⟨b, bs, h, .inl hs⟩, t.lt_not_mem_rest⟩

theorem Tag.empty_isTag (t : Tag) : IsTag [] t.name.bytes (t.rest ++ [slash]) := by
  refine ⟨.inl rfl, t.name.nonempty, t.name.noDelim, .inr ?_, ?_⟩
  · obtain h | ⟨b, bs, h, hs⟩ := t.rest_head
    · exact ⟨slash, [], by rw [h]; rfl, .inr rfl⟩
    · exact ⟨b, bs ++ [slash], by rw [h]; rfl, .inl hs⟩
  · have := t.lt_not_mem_rest
    have hs : lt ≠ slash := by decide
    simp [this, hs]

theorem Name.endTag_isTag (n : Name) (space : Space) : IsTag [slash] n.bytes space.bytes :=
  ⟨.inr rfl, n.nonempty, n.noDelim,
    space.head.imp_right fun ⟨b, bs, h, hs⟩ => ⟨b, bs, h, .inl hs⟩, lt_not_mem_space space⟩

/-- The bytes of a tag of that shape. -/
def tagBytes (lead name rest : Bytes) : Bytes := lt :: (lead ++ name ++ rest ++ [gt])

theorem delim_gt : IsDelim gt := .inr (.inr (.inl rfl))

theorem delim_slash : IsDelim slash := .inr (.inr (.inr (.inl rfl)))

/-- Two names, each followed by a delimiter: one text begins with the other only when names and
    delimiters agree. -/
theorem prefix_delim {m n u v : Bytes} {x y : UInt8} (hm : ∀ b ∈ m, ¬IsDelim b)
    (hn : ∀ b ∈ n, ¬IsDelim b) (hx : IsDelim x) (hy : IsDelim y)
    (h : m ++ x :: u <+: n ++ y :: v) : m = n ∧ x = y := by
  induction m generalizing n with
  | nil =>
    cases n with
    | nil => exact ⟨rfl, (List.cons_prefix_cons.mp h).1⟩
    | cons c n =>
      obtain ⟨rfl, -⟩ := List.cons_prefix_cons.mp h
      exact absurd hx (hn x List.mem_cons_self)
  | cons b m ih =>
    cases n with
    | nil =>
      obtain ⟨rfl, -⟩ := List.cons_prefix_cons.mp h
      exact absurd hy (hm b List.mem_cons_self)
    | cons c n =>
      obtain ⟨rfl, htail⟩ := List.cons_prefix_cons.mp h
      obtain ⟨rfl, rfl⟩ := ih (fun b hb => hm b (List.mem_cons_of_mem _ hb))
        (fun b hb => hn b (List.mem_cons_of_mem _ hb)) htail
      exact ⟨rfl, rfl⟩

/-- A tag without attributes or space is found where a tag stands only if the two are equal. -/
theorem IsTag.eq_of_prefix {lead name rest lead' name' : Bytes} (h : IsTag lead name rest)
    (h' : IsTag lead' name' []) {behind : Bytes}
    (hp : tagBytes lead' name' [] <+: tagBytes lead name rest ++ behind) :
    tagBytes lead name rest = tagBytes lead' name' [] := by
  have hp' : lead' ++ (name' ++ [gt]) <+: lead ++ (name ++ (rest ++ gt :: behind)) := by
    have := (List.cons_prefix_cons.mp hp).2
    simpa using this
  have key : ∀ (_ : name' ++ [gt] <+: name ++ (rest ++ gt :: behind)),
      name' = name ∧ rest = [] := by
    intro hn
    obtain hrest | ⟨b, bs, hrest, hb⟩ := h.atRest
    · rw [hrest] at hn
      exact ⟨(prefix_delim h'.noDelim h.noDelim delim_gt delim_gt hn).1, hrest⟩
    · rw [hrest] at hn
      have hd : IsDelim b := by
        obtain hb | hb := hb
        · exact .inl hb
        · exact hb ▸ delim_slash
      have hgt := (prefix_delim h'.noDelim h.noDelim delim_gt hd hn).2
      rw [← hgt] at hb
      exact absurd hb (by decide)
  have hhead : ∀ {n u : Bytes}, n ≠ [] → (∀ b ∈ n, ¬IsDelim b) → ∀ {v : Bytes},
      slash :: u <+: n ++ v → False := by
    intro n u hn hd v hv
    cases n with
    | nil => exact hn rfl
    | cons c n =>
      obtain ⟨rfl, -⟩ := List.cons_prefix_cons.mp hv
      exact hd slash List.mem_cons_self delim_slash
  obtain hl | hl := h.atLead <;> obtain hl' | hl' := h'.atLead
  · rw [hl, hl'] at hp'
    obtain ⟨rfl, hrest⟩ := key hp'
    rw [hl, hl', hrest]
  · rw [hl, hl'] at hp'
    exact (hhead h.nonempty h.noDelim hp').elim
  · rw [hl, hl'] at hp'
    cases name' with
    | nil => exact absurd rfl h'.nonempty
    | cons c n' =>
      obtain ⟨hc, -⟩ := List.cons_prefix_cons.mp hp'
      exact absurd (hc ▸ delim_slash) (h'.noDelim c List.mem_cons_self)
  · rw [hl, hl'] at hp'
    obtain ⟨rfl, hrest⟩ := key (List.cons_prefix_cons.mp hp').2
    rw [hl, hl', hrest]

end CdsGuard.Lib.Xml
