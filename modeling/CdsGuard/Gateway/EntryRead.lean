import CdsGuard.Lib.Bytes
import CdsGuard.Lib.FillBuffer

/-
  `MzZipRAII::entry_read` into a container: the loop that reads an entry piece by piece and doubles
  the container when it is full. The ZIP library is a parameter; `Delivers` is what its
  documentation says of `mz_zip_entry_read`.

  Proved: `entryRead_iff`, the exact entries and sizes with which both overloads read the whole
  entry, however it comes. An error of the size query is meant to be got over with a first size of
  1024, but it stays in `last_error_`; and the free size is narrowed to an `int32_t`.
-/

namespace CdsGuard.Gateway

open CdsGuard.Lib

/-! ## The library -/

/-- A call of `mz_zip_entry_read`: the length asked for, what was not delivered yet, and the code
    returned. -/
structure ReadCall where
  len : Int
  rest : Bytes
  code : Int

/-- The open entry behind `data_`: what is not delivered yet, and the calls so far. -/
structure OpenEntry where
  rest : Bytes
  calls : List ReadCall

/-- The codes that the library returns: a number of bytes, or a negative error. -/
abbrev Answers := OpenEntry → Int → Int

/-- At most as many bytes as were asked for and are there, and none only at the end. -/
structure Delivers (answer : Answers) : Prop where
  asked : ∀ e len, answer e len ≤ max len 0
  there : ∀ e len, answer e len ≤ e.rest.length
  ends : ∀ e len, answer e len = 0 → e.rest = []

/-- The result of `mz_zip_entry_get_info`. -/
structure EntryInfo where
  code : Int
  uncompressedSize : Int
  compressedSize : Int

/-- `max_size()` of a container, about `2 ^ 63` for those of the standard library. -/
structure MaxSize where
  val : Nat
  large : 2 ^ 33 ≤ val

/-! ## The class -/

structure MzZip where
  entry : OpenEntry
  entryRawOpened : Bool
  lastError : Int

namespace MzZip

def errorOccured (z : MzZip) : Bool := z.lastError ≠ 0

/-- `entry_get_info` sets the error; the size is the error then. -/
def entryGetSize (z : MzZip) (info : EntryInfo) (size : Int) : Int × MzZip :=
  (if info.code ≠ 0 then info.code else size, { z with lastError := info.code })

def entryGetUncompressedSize (z : MzZip) (info : EntryInfo) : Int × MzZip :=
  z.entryGetSize info info.uncompressedSize

def entryGetCompressedSize (z : MzZip) (info : EntryInfo) : Int × MzZip :=
  z.entryGetSize info info.compressedSize

/-- The code, the bytes written to the buffer, and the state behind the call. -/
structure BufferRead where
  bytesReaded : Int
  written : Bytes
  zip : MzZip

/-- `entry_read(void*, int32_t)`. -/
def entryReadBuffer (answer : Answers) (z : MzZip) (len : Int) : BufferRead :=
  let bytesReaded := answer z.entry len
  { bytesReaded := bytesReaded
    written := z.entry.rest.take bytesReaded.toNat
    zip :=
      { z with
        entry := ⟨z.entry.rest.drop bytesReaded.toNat,
          z.entry.calls ++ [⟨len, z.entry.rest, bytesReaded⟩]⟩
        lastError := if bytesReaded < 0 then bytesReaded else z.lastError } }

end MzZip

/-! ## The loop -/

/-- `std::length_error`, or a write behind the end of the container. -/
inductive ReadFault where
  | lengthError
  | outside

structure EntryLoop where
  container : Bytes
  freeSize : Nat
  readedSize : Nat
  zip : MzZip

/-- The container and the state that a call leaves. -/
structure ContainerRead where
  container : Bytes
  zip : MzZip

inductive Round where
  | again (s : EntryLoop)
  | done (result : Except ReadFault ContainerRead)

namespace EntryLoop

def round (answer : Answers) (maxSize : MaxSize) (s : EntryLoop) : Round :=
  let curr := s.zip.entryReadBuffer answer (i32 s.freeSize)
  if s.container.length < s.readedSize + curr.written.length then .done (.error .outside)
  else
    let container := overwriteAt s.container s.readedSize curr.written
    if curr.zip.errorOccured then .done (.ok ⟨[], curr.zip⟩)
    else if 0 < curr.bytesReaded then
      let freeSize := s.freeSize - curr.bytesReaded.toNat
      let readedSize := s.readedSize + curr.bytesReaded.toNat
      if freeSize = 0 then
        if maxSize.val < container.length * 2 then .done (.error .lengthError)
        else
          .again ⟨resizeTo 0 container (container.length * 2), container.length, readedSize,
            curr.zip⟩
      else .again ⟨container, freeSize, readedSize, curr.zip⟩
    else .done (.ok ⟨resizeTo 0 container s.readedSize, { curr.zip with lastError := 0 }⟩)

/-- `fuel` bounds the number of calls. -/
def finish (answer : Answers) (maxSize : MaxSize) :
    Nat → EntryLoop → Option (Except ReadFault ContainerRead)
  | 0, _ => none
  | fuel + 1, s =>
    match s.round answer maxSize with
    | .done result => some result
    | .again s' => finish answer maxSize fuel s'

end EntryLoop

namespace MzZip

variable (answer : Answers) (maxSize : MaxSize) (info : EntryInfo)

/-- `need_read_size`, a `size_t`. -/
def needReadSize (z : MzZip) : Nat × MzZip :=
  let size := if z.entryRawOpened then z.entryGetUncompressedSize info
    else z.entryGetCompressedSize info
  let need := (size.1 % 2 ^ 64).toNat
  (if size.2.errorOccured ∨ need = 0 then 1024 else need, size.2)

/-- What the two overloads share. -/
def readContainer (fuel : Nat) (z : MzZip) (container : Bytes) :
    Option (Except ReadFault ContainerRead) :=
  let need := z.needReadSize info
  if maxSize.val < need.1 then some (.error .lengthError)
  else EntryLoop.finish answer maxSize fuel ⟨resizeTo 0 container need.1, need.1, 0, need.2⟩

/-- `int32_t entry_read(Container&)`: what is returned, and the container. -/
def entryReadInto (fuel : Nat) (z : MzZip) (container : Bytes) :
    Option (Except ReadFault (Int × ContainerRead)) :=
  (readContainer answer maxSize info fuel z container).map <| Except.map fun r =>
    (if r.zip.errorOccured then 0 else i32 r.container.length, r)

/-- `Container entry_read()`. -/
def entryRead (fuel : Nat) (z : MzZip) : Option (Except ReadFault ContainerRead) :=
  readContainer answer maxSize info fuel z []

end MzZip

/-! ## Reading right -/

/-- Every call with bytes left asks for at least one; without a negative code the container holds
    the entry, and with one it is empty and the error is there. -/
structure ReadsRight (content : Bytes) (r : ContainerRead) : Prop where
  asked : ∀ c ∈ r.zip.entry.calls, c.rest ≠ [] → 1 ≤ c.len
  whole : (∀ c ∈ r.zip.entry.calls, 0 ≤ c.code) → r.container = content
  failed : (∃ c ∈ r.zip.entry.calls, c.code < 0) → r.container = [] ∧ r.zip.errorOccured = true

/-- The entry is open and nothing of it was delivered. -/
def opened (raw : Bool) (lastError : Int) (content : Bytes) : MzZip :=
  ⟨⟨content, []⟩, raw, lastError⟩

/-- However the entry comes, both overloads come to an end and read right. -/
def Yields (maxSize : MaxSize) (info : EntryInfo) (z : MzZip) (content container : Bytes) : Prop :=
  ∀ answer, Delivers answer → ∃ fuel n r r',
    z.entryReadInto answer maxSize info fuel container = some (.ok (n, r)) ∧
    z.entryRead answer maxSize info fuel = some (.ok r') ∧
    ReadsRight content r ∧ ReadsRight content r'

/-- The first size, from a query that succeeds. -/
def firstSize (info : EntryInfo) (raw : Bool) : Nat :=
  let size := ((if raw then info.uncompressedSize else info.compressedSize) % 2 ^ 64).toNat
  if size = 0 then 1024 else size

/-- The rest of an entry of `total` bytes can be read with `readed` bytes in the container and
    `free` behind them: as long as bytes are left, the free size fits an `int32_t`, or what remains
    of it there covers them. -/
def Fits (total readed free : Nat) : Prop :=
  if free < 2 ^ 31 then ∀ k, 2 ^ 31 ≤ (readed + free) * 2 ^ k → total ≤ (readed + free) * 2 ^ k
  else total ≤ readed + (i32 free).toNat

/-! ## The sizes -/

theorem i32_free_le (free : Nat) : i32 free ≤ free := by
  rw [i32_def]
  split <;> omega

/-- A call that delivers something changes nothing about what fits. -/
theorem fits_step {total readed free n : Nat} (hsize : free < 2 ^ 31 → readed + free ≤ 2 ^ 32)
    (hpos : 0 < n) (hn : (n : Int) ≤ i32 free) :
    Fits total (readed + n) (if free - n = 0 then readed + n else free - n) ↔
      Fits total readed free := by
  unfold Fits
  rcases Nat.lt_or_ge free (2 ^ 31) with hsmall | hlarge
  · have hle : n ≤ free := by
      have := i32_free_le free
      omega
    rw [if_pos hsmall]
    split
    · rename_i hfull
      obtain rfl : n = free := by omega
      have hlimit := hsize hsmall
      split
      · -- the doubled container fits again: the sizes are those from the second on
        rename_i hagain
        have hdouble : ∀ k, (readed + n + (readed + n)) * 2 ^ k = (readed + n) * 2 ^ (k + 1) := by
          intro k
          rw [Nat.pow_succ', ← Nat.mul_assoc, Nat.mul_two]
        constructor
        · intro h k hk
          cases k with
          | zero => omega
          | succ k =>
            rw [← hdouble] at hk ⊢
            exact h k hk
        · intro h k hk
          rw [hdouble] at hk ⊢
          exact h (k + 1) hk
      · -- the free size does not fit any more, and nothing of it remains
        rename_i hover
        have hneg : (i32 ((readed + n : Nat) : Int)).toNat = 0 := by
          rw [i32_def]
          split <;> omega
        rw [hneg, Nat.add_zero]
        constructor
        · intro h k _
          exact h.trans (Nat.le_mul_of_pos_right _ (Nat.two_pow_pos k))
        · intro h
          have hfirst := h 0
          rw [Nat.pow_zero, Nat.mul_one] at hfirst
          exact hfirst (Nat.not_lt.mp hover)
    · have hsum : readed + n + (free - n) = readed + free := by omega
      rw [if_pos (by omega), hsum]
  · rw [if_neg (Nat.not_lt.mpr hlarge)]
    have hnarrow : i32 ((free - n : Nat) : Int) = i32 free - n := by
      rw [i32_def free] at hn ⊢
      rw [i32_def]
      split_ifs at hn ⊢ <;> omega
    have hleft : ¬free - n < 2 ^ 31 := by
      rw [i32_def] at hn
      split at hn <;> omega
    have hnot : ¬free - n = 0 := by omega
    rw [if_neg hnot, if_neg hleft, hnarrow]
    omega

/-- As long as bytes are left, at least one is asked for. -/
theorem Fits.asks {total readed free : Nat} (h : Fits total readed free) (hpos : 0 < free)
    (hleft : readed < total) : 1 ≤ i32 free := by
  unfold Fits at h
  split at h
  · rename_i hsmall
    rw [i32_of_range (by omega) (by omega)]
    omega
  · omega

/-- At the end everything fits. -/
theorem fits_at_end {readed free : Nat} : Fits readed readed free := by
  unfold Fits
  split
  · intro k _
    calc readed
      _ ≤ readed + free := Nat.le_add_right _ _
      _ ≤ (readed + free) * 2 ^ k := Nat.le_mul_of_pos_right _ (Nat.two_pow_pos k)
  · exact Nat.le_add_right _ _

/-! ## The rounds -/

namespace EntryLoop

variable {answer : Answers} {maxSize : MaxSize} {content : Bytes} {s : EntryLoop}

/-- The code of the next call. -/
def nextCode (answer : Answers) (s : EntryLoop) : Int := answer s.zip.entry (i32 s.freeSize)

/-- The call itself. -/
def nextCall (answer : Answers) (s : EntryLoop) : ReadCall :=
  ⟨i32 s.freeSize, s.zip.entry.rest, s.nextCode answer⟩

/-- What holds between two rounds: what was delivered is in front, there is room behind it, and no
    call failed. -/
structure Holds (content : Bytes) (s : EntryLoop) : Prop where
  filled : ∃ data, content = data ++ s.zip.entry.rest ∧ Filled s.container s.readedSize data
  size : s.readedSize + s.freeSize = s.container.length
  room : 0 < s.freeSize
  bound : s.freeSize < 2 ^ 31 → s.readedSize + s.freeSize ≤ 2 ^ 32
  noError : s.zip.lastError = 0

theorem Holds.length (h : Holds content s) :
    content.length = s.readedSize + s.zip.entry.rest.length := by
  obtain ⟨data, hcontent, hfilled⟩ := h.filled
  rw [hcontent, List.length_append, hfilled.length_eq]

section

variable (answer s)

/-- The state behind the next call. -/
def nextZip : MzZip := (s.zip.entryReadBuffer answer (i32 s.freeSize)).zip

theorem nextZip_calls :
    (s.nextZip answer).entry.calls = s.zip.entry.calls ++ [s.nextCall answer] := rfl

theorem nextCall_len : (s.nextCall answer).len = i32 s.freeSize := by
  rw [nextCall]

theorem nextCall_mem : s.nextCall answer ∈ (s.nextZip answer).entry.calls := by
  rw [nextZip_calls]
  exact List.mem_append_right _ (List.mem_singleton_self _)

theorem nextZip_lastError : (s.nextZip answer).lastError =
    if s.nextCode answer < 0 then s.nextCode answer else s.zip.lastError := rfl

/-- A round, in terms of the code. -/
theorem round_eq : s.round answer maxSize =
    if s.container.length <
        s.readedSize + (s.zip.entry.rest.take (s.nextCode answer).toNat).length then
      .done (.error .outside)
    else
      let container := overwriteAt s.container s.readedSize
        (s.zip.entry.rest.take (s.nextCode answer).toNat)
      if (s.nextZip answer).errorOccured then .done (.ok ⟨[], s.nextZip answer⟩)
      else if 0 < s.nextCode answer then
        if s.freeSize - (s.nextCode answer).toNat = 0 then
          if maxSize.val < container.length * 2 then .done (.error .lengthError)
          else
            .again ⟨resizeTo 0 container (container.length * 2), container.length,
              s.readedSize + (s.nextCode answer).toNat, s.nextZip answer⟩
        else
          .again ⟨container, s.freeSize - (s.nextCode answer).toNat,
            s.readedSize + (s.nextCode answer).toNat, s.nextZip answer⟩
      else .done (.ok ⟨resizeTo 0 container s.readedSize,
        { s.nextZip answer with lastError := 0 }⟩) := rfl

end

/-- A call that does not fail leaves no error. -/
theorem Holds.noError_next (h : Holds content s) (hcode : 0 ≤ s.nextCode answer) :
    (s.nextZip answer).lastError = 0 ∧ ¬(s.nextZip answer).errorOccured = true := by
  have hnone : (s.nextZip answer).lastError = 0 := by
    rw [nextZip_lastError, if_neg (Int.not_lt.mpr hcode), h.noError]
  refine ⟨hnone, ?_⟩
  rw [MzZip.errorOccured, hnone]
  decide

/-- A call that fails empties the container. -/
theorem Holds.round_error (h : Holds content s) (maxSize : MaxSize)
    (hcode : s.nextCode answer < 0) :
    s.round answer maxSize = .done (.ok ⟨[], s.nextZip answer⟩) ∧
      (s.nextZip answer).errorOccured = true := by
  have hsize := h.size
  have hnone : (s.nextCode answer).toNat = 0 := by omega
  have herror : (s.nextZip answer).errorOccured = true := by
    rw [MzZip.errorOccured, nextZip_lastError, if_pos hcode]
    exact decide_eq_true (by omega)
  have hinside : ¬s.container.length < s.readedSize := by omega
  refine ⟨?_, herror⟩
  rw [round_eq, hnone, List.take_zero, List.length_nil, Nat.add_zero, if_neg hinside]
  exact if_pos herror

/-- The call behind the last byte ends the loop, with what was delivered. -/
theorem Holds.round_end (h : Holds content s) (maxSize : MaxSize)
    (hrest : s.zip.entry.rest = []) (hcode : s.nextCode answer = 0) :
    s.round answer maxSize =
      .done (.ok ⟨content, { s.nextZip answer with lastError := 0 }⟩) := by
  have hsize := h.size
  have hinside : s.readedSize + ([] : Bytes).length ≤ s.container.length := by
    rw [List.length_nil]
    omega
  obtain ⟨data, hcontent, hfilled⟩ := h.filled
  have hcut := (hfilled.overwriteAt hinside).cut 0
  rw [List.length_nil, Nat.add_zero, List.append_nil] at hcut
  rw [hrest, List.append_nil] at hcontent
  have hok := (h.noError_next hcode.ge).2
  rw [round_eq, hcode, Int.toNat_zero, List.take_zero, if_neg (Nat.not_lt.mpr hinside)]
  dsimp only
  rw [if_neg hok, if_neg (Int.lt_irrefl 0), hcut, hcontent]

/-- The number of bytes that a call delivers. -/
theorem count_of_pos (hdelivers : Delivers answer) (hcode : 0 < s.nextCode answer) :
    ∃ n : Nat, s.nextCode answer = n ∧ 0 < n ∧ (n : Int) ≤ i32 s.freeSize ∧
      n ≤ s.zip.entry.rest.length := by
  have hasked : s.nextCode answer ≤ max (i32 s.freeSize) 0 := hdelivers.asked _ _
  have hthere : s.nextCode answer ≤ s.zip.entry.rest.length := hdelivers.there _ _
  exact ⟨(s.nextCode answer).toNat, (Int.toNat_of_nonneg hcode.le).symm, by omega, by omega,
    by omega⟩

/-- The container with the next `n` bytes. -/
def nextContainer (s : EntryLoop) (n : Nat) : Bytes :=
  overwriteAt s.container s.readedSize (s.zip.entry.rest.take n)

theorem Holds.nextContainer (h : Holds content s) {n : Nat} (hthere : n ≤ s.zip.entry.rest.length)
    (hroom : n ≤ s.freeSize) :
    (s.nextContainer n).length = s.container.length ∧
      ∃ data, content = data ++ s.zip.entry.rest.drop n ∧
        Filled (s.nextContainer n) (s.readedSize + n) data := by
  have hsize := h.size
  have hlen : (s.zip.entry.rest.take n).length = n := by
    rw [List.length_take, Nat.min_eq_left hthere]
  have hinside : s.readedSize + (s.zip.entry.rest.take n).length ≤ s.container.length := by omega
  obtain ⟨data, hcontent, hfilled⟩ := h.filled
  have hnext := hfilled.overwriteAt hinside
  rw [hlen] at hnext
  refine ⟨overwriteAt_length hinside, data ++ s.zip.entry.rest.take n, ?_, hnext⟩
  rw [List.append_assoc, List.take_append_drop, hcontent]

/-- The round of a call that delivers `n` bytes. -/
theorem Holds.round_count (h : Holds content s) (maxSize : MaxSize) {n : Nat}
    (hn : s.nextCode answer = n) (hpos : 0 < n) (hthere : n ≤ s.zip.entry.rest.length)
    (hroom : n ≤ s.freeSize) :
    s.round answer maxSize =
      if s.freeSize - n = 0 then
        if maxSize.val < s.container.length * 2 then .done (.error .lengthError)
        else
          .again ⟨resizeTo 0 (s.nextContainer n) (s.container.length * 2), s.container.length,
            s.readedSize + n, s.nextZip answer⟩
      else
        .again ⟨s.nextContainer n, s.freeSize - n, s.readedSize + n, s.nextZip answer⟩ := by
  have hsize := h.size
  have hcode : 0 ≤ s.nextCode answer := by omega
  have hok := (h.noError_next hcode).2
  have hinside : ¬s.container.length <
      s.readedSize + (s.zip.entry.rest.take n).length := by
    rw [List.length_take]
    omega
  have hlength : (overwriteAt s.container s.readedSize (s.zip.entry.rest.take n)).length =
    s.container.length := (h.nextContainer hthere hroom).1
  rw [round_eq, hn, Int.toNat_natCast, if_neg hinside]
  dsimp only
  rw [if_neg hok, if_pos (by omega), hlength]
  rfl

/-- A call that delivers something leads to the next round. -/
theorem Holds.round_again (h : Holds content s) (maxSize : MaxSize)
    (hdelivers : Delivers answer) (hcode : 0 < s.nextCode answer) :
    ∃ s', s.round answer maxSize = .again s' ∧ Holds content s' ∧
      s'.zip = s.nextZip answer ∧ s'.zip.entry.rest.length < s.zip.entry.rest.length ∧
      (Fits content.length s'.readedSize s'.freeSize ↔
        Fits content.length s.readedSize s.freeSize) := by
  obtain ⟨n, hn, hpos, hasked, hthere⟩ := count_of_pos hdelivers hcode
  have hsize := h.size
  have hfree := i32_free_le s.freeSize
  have hroom : n ≤ s.freeSize := by omega
  have hrest : (s.nextZip answer).entry.rest = s.zip.entry.rest.drop n := by
    show s.zip.entry.rest.drop (s.nextCode answer).toNat = _
    rw [hn, Int.toNat_natCast]
  have hshorter : (s.nextZip answer).entry.rest.length < s.zip.entry.rest.length := by
    rw [hrest, List.length_drop]
    omega
  have hnoError := (h.noError_next hcode.le).1
  have hfits := @fits_step content.length _ _ _ h.bound hpos hasked
  obtain ⟨hlength, data, hcontent, hfilled⟩ := h.nextContainer hthere hroom
  rw [← hrest] at hcontent
  rw [h.round_count maxSize hn hpos hthere hroom]
  split
  · -- the container is full; the free size was one that an `int32_t` holds
    rename_i hfull
    rw [if_pos hfull] at hfits
    have hsmall : s.freeSize < 2 ^ 31 := by
      rw [i32_def] at hasked
      split at hasked <;> omega
    have hbound := h.bound hsmall
    have hlarge := maxSize.large
    have hcontainer : s.container.length = s.readedSize + n := by omega
    rw [if_neg (by omega)]
    refine ⟨_, rfl, ⟨⟨data, hcontent, hfilled.resizeTo 0 (by omega)⟩, ?_, ?_, ?_, hnoError⟩, rfl,
      hshorter, ?_⟩
    · rw [resizeTo_length]
      dsimp only
      omega
    · show 0 < s.container.length
      omega
    · intro hagain
      dsimp only at hagain ⊢
      omega
    · rw [hcontainer]
      exact hfits
  · rename_i hmore
    rw [if_neg hmore] at hfits
    refine ⟨_, rfl, ⟨⟨data, hcontent, hfilled⟩, ?_, Nat.pos_of_ne_zero hmore, ?_, hnoError⟩, rfl,
      hshorter, hfits⟩
    · rw [hlength]
      dsimp only
      omega
    · intro hsmall
      have hbound := h.bound
      dsimp only at hsmall ⊢
      rw [i32_def] at hasked
      split at hasked <;> omega

/-! ## Whole reads -/

/-- The calls so far asked for something as long as bytes were left, and none failed. -/
structure Clean (s : EntryLoop) : Prop where
  asked : ∀ c ∈ s.zip.entry.calls, c.rest ≠ [] → 1 ≤ c.len
  codes : ∀ c ∈ s.zip.entry.calls, 0 ≤ c.code

theorem Holds.asks (h : Holds content s)
    (hfits : Fits content.length s.readedSize s.freeSize) (answer : Answers)
    (hrest : s.zip.entry.rest ≠ []) : 1 ≤ (s.nextCall answer).len := by
  have hlength := h.length
  have hleft := List.length_pos_iff.mpr hrest
  rw [nextCall_len]
  exact hfits.asks h.room (by omega)

/-- If the entry fits, the loop comes to an end, and it has read right. -/
theorem Holds.finish (hdelivers : Delivers answer) {fuel : Nat} (h : Holds content s)
    (hclean : Clean s) (hfits : Fits content.length s.readedSize s.freeSize)
    (hfuel : s.zip.entry.rest.length < fuel) :
    ∃ r, s.finish answer maxSize fuel = some (.ok r) ∧ ReadsRight content r := by
  induction fuel generalizing s with
  | zero => omega
  | succ fuel ih =>
    have hcalls := nextZip_calls answer s
    have hasked : ∀ c ∈ (s.nextZip answer).entry.calls, c.rest ≠ [] → 1 ≤ c.len := by
      rw [hcalls, List.forall_mem_append, List.forall_mem_singleton]
      exact ⟨hclean.asked, h.asks hfits answer⟩
    unfold EntryLoop.finish
    rcases Int.lt_trichotomy (s.nextCode answer) 0 with hcode | hcode | hcode
    · obtain ⟨hround, herror⟩ := h.round_error maxSize hcode
      rw [hround]
      refine ⟨_, rfl, hasked, fun hnone => ?_, fun _ => ⟨rfl, herror⟩⟩
      exact absurd (hnone _ (nextCall_mem answer s)) (Int.not_le.mpr hcode)
    · have hround := h.round_end maxSize (hdelivers.ends _ _ hcode) hcode
      rw [hround]
      refine ⟨_, rfl, hasked, fun _ => rfl, fun hfailed => ?_⟩
      obtain ⟨c, hc, hneg⟩ := hfailed
      have hcodes : ∀ c ∈ (s.nextZip answer).entry.calls, 0 ≤ c.code := by
        rw [hcalls, List.forall_mem_append, List.forall_mem_singleton]
        exact ⟨hclean.codes, hcode.ge⟩
      exact absurd (hcodes c hc) (Int.not_le.mpr hneg)
    · obtain ⟨s', hround, hs', hzip, hshorter, hsame⟩ :=
        h.round_again maxSize hdelivers hcode
      rw [hround]
      refine ih hs' ⟨hzip ▸ hasked, ?_⟩ (hsame.mpr hfits) (by omega)
      rw [hzip, hcalls, List.forall_mem_append, List.forall_mem_singleton]
      exact ⟨hclean.codes, hcode.le⟩

/-- If it does not fit, and the library delivers whenever it is asked for something, some call asks
    for nothing although bytes are left. -/
theorem Holds.not_readsRight (hdelivers : Delivers answer)
    (hwilling : ∀ e len, 0 < len → 0 ≤ answer e len) {fuel : Nat} (h : Holds content s)
    (hfits : ¬Fits content.length s.readedSize s.freeSize) {r : ContainerRead}
    (hr : s.finish answer maxSize fuel = some (.ok r)) : ¬ReadsRight content r := by
  induction fuel generalizing s with
  | zero => cases hr
  | succ fuel ih =>
    have hlength := h.length
    have hleft : s.zip.entry.rest ≠ [] := by
      intro hnil
      rw [hnil, List.length_nil, Nat.add_zero] at hlength
      rw [hlength] at hfits
      exact hfits fits_at_end
    have hend : s.nextCode answer ≠ 0 := fun hzero => hleft (hdelivers.ends _ _ hzero)
    unfold EntryLoop.finish at hr
    rcases Int.lt_or_gt_of_ne hend with hcode | hcode
    · obtain ⟨hround, -⟩ := h.round_error maxSize hcode
      rw [hround] at hr
      obtain rfl := Except.ok.inj (Option.some.inj hr)
      intro hright
      have hlen := hright.asked _ (nextCall_mem answer s) hleft
      rw [nextCall_len] at hlen
      exact absurd (hwilling s.zip.entry _ (by omega)) (Int.not_le.mpr hcode)
    · obtain ⟨s', hround, hs', -, -, hsame⟩ :=
        h.round_again maxSize hdelivers hcode
      rw [hround] at hr
      exact ih hs' (mt hsame.mp hfits) hr

/-- An error that was there before the first call empties the container. -/
theorem round_stale (maxSize : MaxSize) (hdelivers : Delivers answer) (hstale : s.zip.lastError ≠ 0)
    (hroom : 0 < s.freeSize) (hsize : s.readedSize + s.freeSize = s.container.length) :
    s.round answer maxSize = .done (.ok ⟨[], s.nextZip answer⟩) ∧
      (s.nextZip answer).errorOccured = true := by
  have herror : (s.nextZip answer).errorOccured = true := by
    rw [MzZip.errorOccured, nextZip_lastError]
    refine decide_eq_true ?_
    split
    · omega
    · exact hstale
  have hasked : s.nextCode answer ≤ max (i32 s.freeSize) 0 := hdelivers.asked _ _
  have hfree := i32_free_le s.freeSize
  have hinside : ¬s.container.length <
      s.readedSize + (s.zip.entry.rest.take (s.nextCode answer).toNat).length := by
    rw [List.length_take]
    omega
  refine ⟨?_, herror⟩
  rw [round_eq, if_neg hinside]
  exact if_pos herror

end EntryLoop

/-- A library that gives all it can. -/
def willing : Answers := fun e len =>
  if 0 < len then min len e.rest.length else if e.rest = [] then 0 else -1

theorem delivers_willing : Delivers willing where
  asked e len := by
    unfold willing
    split_ifs <;> omega
  there e len := by
    unfold willing
    split_ifs <;> omega
  ends e len h := by
    unfold willing at h
    split_ifs at h with hlen hrest
    · exact List.length_eq_zero_iff.mp (by omega)
    · exact hrest

theorem willing_nonneg (e : OpenEntry) (len : Int) (h : 0 < len) : 0 ≤ willing e len := by
  unfold willing
  rw [if_pos h]
  omega

/-! ## Both overloads -/

section

variable (answer : Answers) (maxSize : MaxSize) (info : EntryInfo) (raw : Bool) (lastError : Int)
  (content container : Bytes)

theorem needReadSize_eq : (opened raw lastError content).needReadSize info =
    (if info.code = 0 then firstSize info raw else 1024, opened raw info.code content) := by
  have hsize : (if raw then (opened raw lastError content).entryGetUncompressedSize info
      else (opened raw lastError content).entryGetCompressedSize info) =
      (if info.code ≠ 0 then info.code
        else if raw then info.uncompressedSize else info.compressedSize,
        opened raw info.code content) := by
    cases raw <;> rfl
  unfold MzZip.needReadSize
  rw [show (opened raw lastError content).entryRawOpened = raw from rfl, hsize]
  by_cases hcode : info.code = 0
  · simp [hcode, MzZip.errorOccured, opened, firstSize]
  · simp [hcode, MzZip.errorOccured, opened]

/-- The loop begins with the first size. -/
def EntryLoop.start (size : Nat) : EntryLoop :=
  ⟨resizeTo 0 container size, size, 0, opened raw info.code content⟩

theorem readContainer_eq (fuel : Nat) :
    (opened raw lastError content).readContainer answer maxSize info fuel container =
      if maxSize.val < (if info.code = 0 then firstSize info raw else 1024) then
        some (.error .lengthError)
      else
        (EntryLoop.start info raw content container
          (if info.code = 0 then firstSize info raw else 1024)).finish answer maxSize fuel := by
  rw [MzZip.readContainer, needReadSize_eq]
  rfl

end

section

variable {answer : Answers} {maxSize : MaxSize} {info : EntryInfo} {raw : Bool}
  {content : Bytes}

theorem firstSize_pos (info : EntryInfo) (raw : Bool) : 0 < firstSize info raw := by
  unfold firstSize
  dsimp only
  generalize ((if raw then info.uncompressedSize else info.compressedSize) % 2 ^ 64).toNat = size
  split <;> omega

theorem holds_start (hcode : info.code = 0) (container : Bytes) :
    (EntryLoop.start info raw content container (firstSize info raw)).Holds content where
  filled := ⟨[], rfl, Filled.empty _⟩
  size := by
    rw [EntryLoop.start, resizeTo_length, Nat.zero_add]
  room := firstSize_pos info raw
  bound hsmall := by
    rw [EntryLoop.start] at hsmall ⊢
    dsimp only at hsmall ⊢
    omega
  noError := hcode

theorem clean_start (size : Nat) (container : Bytes) :
    (EntryLoop.start info raw content container size).Clean where
  asked _ hc := absurd hc List.not_mem_nil
  codes _ hc := absurd hc List.not_mem_nil

/-- With a size from the query, the entry is read right if it fits. -/
theorem readContainer_right (hdelivers : Delivers answer) (hcode : info.code = 0)
    (hsize : firstSize info raw ≤ maxSize.val)
    (hfits : Fits content.length 0 (firstSize info raw)) (lastError : Int) (container : Bytes) :
    ∃ r, (opened raw lastError content).readContainer answer maxSize info (content.length + 1)
      container = some (.ok r) ∧ ReadsRight content r := by
  rw [readContainer_eq, if_pos hcode, if_neg (Nat.not_lt.mpr hsize)]
  exact (holds_start hcode container).finish hdelivers (clean_start _ container) hfits
    (Nat.lt_succ_self _)

/-- Otherwise a willing library is not asked for all of it, or no container has that size. -/
theorem readContainer_not_right (hcode : info.code = 0)
    (hbad : ¬(firstSize info raw ≤ maxSize.val ∧ Fits content.length 0 (firstSize info raw)))
    {lastError : Int} {container : Bytes} {fuel : Nat} {r : ContainerRead}
    (hr : (opened raw lastError content).readContainer willing maxSize info fuel container =
      some (.ok r)) : ¬ReadsRight content r := by
  rw [readContainer_eq, if_pos hcode] at hr
  split at hr
  · cases hr
  · rename_i hsize
    have hfits := fun hfits => hbad ⟨Nat.not_lt.mp hsize, hfits⟩
    exact (holds_start hcode container).not_readsRight delivers_willing willing_nonneg hfits hr

/-- After a query that failed, the container stays empty, whatever the one call delivers. -/
theorem readContainer_stale (hdelivers : Delivers answer) (hcode : info.code ≠ 0) (raw : Bool)
    (lastError : Int) (content container : Bytes) (fuel : Nat) :
    ∃ r, (opened raw lastError content).readContainer answer maxSize info (fuel + 1) container =
        some (.ok r) ∧ r.container = [] ∧ r.zip.errorOccured = true ∧
      r.zip.entry.calls = [⟨1024, content, answer ⟨content, []⟩ 1024⟩] := by
  have hlarge := maxSize.large
  have hnarrow : i32 ((1024 : Nat) : Int) = 1024 := i32_of_range (by decide) (by decide)
  obtain ⟨hround, herror⟩ := EntryLoop.round_stale
    (s := EntryLoop.start info raw content container 1024) maxSize hdelivers hcode
    (Nat.succ_pos 1023) (by rw [EntryLoop.start, resizeTo_length, Nat.zero_add])
  rw [readContainer_eq, if_neg hcode, if_neg (by omega), EntryLoop.finish, hround]
  refine ⟨_, rfl, rfl, herror, ?_⟩
  rw [EntryLoop.nextZip_calls, EntryLoop.nextCall, EntryLoop.nextCode, EntryLoop.start, hnarrow]
  rfl

theorem entryReadInto_ok {z : MzZip} {fuel : Nat} {container : Bytes} {r : ContainerRead}
    (h : z.readContainer answer maxSize info fuel container = some (.ok r)) :
    z.entryReadInto answer maxSize info fuel container =
      some (.ok (if r.zip.errorOccured then 0 else i32 r.container.length, r)) := by
  rw [MzZip.entryReadInto, h]
  rfl

theorem readsRight_stale {r : ContainerRead} {code : Int} (hempty : r.container = [])
    (herror : r.zip.errorOccured = true) (hcalls : r.zip.entry.calls = [⟨1024, [], code⟩]) :
    ReadsRight [] r where
  asked c hc hrest := by
    rw [hcalls, List.mem_singleton] at hc
    rw [hc] at hrest
    exact absurd rfl hrest
  whole _ := hempty
  failed _ := ⟨hempty, herror⟩

end

/-- For every entry, every first size and every container: both overloads read right, however the
    entry comes, exactly if the query succeeds with a size that a container can have and that the
    entry fits, or the query fails and the entry is empty. -/
theorem entryRead_iff (maxSize : MaxSize) (info : EntryInfo) (raw : Bool) (lastError : Int)
    (content container : Bytes) :
    Yields maxSize info (opened raw lastError content) content container ↔
      (info.code = 0 ∧ firstSize info raw ≤ maxSize.val ∧
        Fits content.length 0 (firstSize info raw)) ∨ (info.code ≠ 0 ∧ content = []) := by
  constructor
  · intro h
    obtain ⟨fuel, -, -, r, -, hread, -, hright⟩ := h willing delivers_willing
    by_cases hcode : info.code = 0
    · refine .inl ⟨hcode, ?_⟩
      by_contra hbad
      exact readContainer_not_right hcode hbad hread hright
    · refine .inr ⟨hcode, ?_⟩
      cases fuel with
      | zero =>
        have hlarge := maxSize.large
        rw [MzZip.entryRead, readContainer_eq, if_neg hcode, if_neg (by omega)] at hread
        cases hread
      | succ fuel =>
        obtain ⟨r', hread', hempty, -, hcalls⟩ :=
          readContainer_stale delivers_willing hcode raw lastError content [] fuel
        obtain rfl := Except.ok.inj (Option.some.inj (hread.symm.trans hread'))
        rw [← hright.whole, hempty]
        rw [hcalls]
        intro c hc
        rw [List.mem_singleton.mp hc]
        exact willing_nonneg _ 1024 (by decide)
  · intro h
    rcases h with ⟨hcode, hsize, hfits⟩ | ⟨hcode, rfl⟩
    · intro answer hdelivers
      obtain ⟨r, hread, hright⟩ :=
        readContainer_right hdelivers hcode hsize hfits lastError container
      obtain ⟨r', hread', hright'⟩ := readContainer_right hdelivers hcode hsize hfits lastError []
      exact ⟨content.length + 1, _, r, r', entryReadInto_ok hread, hread', hright, hright'⟩
    · intro answer hdelivers
      obtain ⟨r, hread, hempty, herror, hcalls⟩ :=
        readContainer_stale hdelivers hcode raw lastError [] container 0
      obtain ⟨r', hread', hempty', herror', hcalls'⟩ :=
        readContainer_stale hdelivers hcode raw lastError [] [] 0
      exact ⟨1, _, r, r', entryReadInto_ok hread, hread', readsRight_stale hempty herror hcalls,
        readsRight_stale hempty' herror' hcalls'⟩

def vectorSize : MaxSize := ⟨2 ^ 63 - 1, by decide⟩

/-- One byte under a header that says `2 ^ 32`: the library is asked for none. One byte and a query
    that fails: the byte is delivered and dropped. -/
theorem oneByte_not_read :
    ¬Yields vectorSize ⟨0, 2 ^ 32, 2 ^ 32⟩ (opened true 0 [7]) [7] [] ∧
      ¬Yields vectorSize ⟨-102, 0, 0⟩ (opened true 0 [7]) [7] [] := by
  constructor
  · intro h
    obtain ⟨fuel, -, -, r, -, hread, -, hright⟩ := h willing delivers_willing
    refine readContainer_not_right rfl (fun hgood => ?_) hread hright
    have hfits := hgood.2
    have hsize : firstSize ⟨0, 2 ^ 32, 2 ^ 32⟩ true = 2 ^ 32 := by decide
    have hnarrow : i32 ((2 ^ 32 : Nat) : Int) = 0 := by
      rw [i32_def]
      rfl
    rw [hsize, Fits, if_neg (by decide), hnarrow] at hfits
    exact absurd hfits (by decide)
  · intro h
    obtain ⟨fuel, -, -, r, -, hread, -, hright⟩ := h willing delivers_willing
    cases fuel with
    | zero => cases hread
    | succ fuel =>
      obtain ⟨r', hread', hempty, -, hcalls⟩ := readContainer_stale delivers_willing
        (show (⟨-102, 0, 0⟩ : EntryInfo).code ≠ 0 by decide) true 0 [7] [] fuel
      obtain rfl := Except.ok.inj (Option.some.inj (hread.symm.trans hread'))
      have hwhole : r.container = [7] := hright.whole (by rw [hcalls]; decide)
      rw [hempty] at hwhole
      cases hwhole

end CdsGuard.Gateway
