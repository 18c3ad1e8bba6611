import CdsGuard.Guard.L2Admission
import CdsGuard.Lib.FillBuffer

/-
  `run_send_mode`, one connection: the loop that collects what the peer sends in a vector that
  doubles when it is full, and what is handed to `send_reliable_data` when the loop ends.

  `read_some` of the network library gives at least one byte and at most the buffer, or an error
  and no byte. A `resize` beyond `vectorMaxSize` throws and ends the program; the runs are those
  in which the data fits.

  Proved: `send_mode_iff`. Every buffer offered is the free end of the vector and not empty, the
  data read so far stays in front of it, and the streams handed over are the whole ones, unless
  the loop ends with an error behind the first byte.
-/

namespace CdsGuard.Guard

open CdsGuard.Lib

/-- `std::numeric_limits<unsigned short>::max()`. -/
def recvDataBlockSize : Nat := 65535

/-- `recv_data` and `readed_byte_size`. -/
structure ReadLoop where
  recvData : Bytes
  readedByteSize : Nat

/-- How the loop ends: `asio::error::eof`, or any other error. -/
inductive ReadEnd where
  | eof
  | error (code : Int)
  deriving DecidableEq

namespace ReadLoop

/-- In front of the loop. -/
def start : ReadLoop := ⟨List.replicate recvDataBlockSize 0, 0⟩

/-- The size of the buffer that is offered, a difference of two `size_t`. -/
def offered (s : ReadLoop) : Nat := u64 (2 ^ 64 + s.recvData.length - s.readedByteSize)

/-- A round in which `read_some` gives `chunk`. -/
def readSome (s : ReadLoop) (chunk : Bytes) : Option ReadLoop :=
  if 0 < chunk.length ∧ chunk.length ≤ s.offered then
    let recvData := overwriteAt s.recvData s.readedByteSize chunk
    let readedByteSize := s.readedByteSize + chunk.length
    if readedByteSize = recvData.length then
      if vectorMaxSize < recvData.length * 2 then none
      else some ⟨resizeTo 0 recvData (recvData.length * 2), readedByteSize⟩
    else some ⟨recvData, readedByteSize⟩
  else none

/-- Behind the loop: the calls of `send_reliable_data`. -/
def forwardData (s : ReadLoop) : List Bytes :=
  let recvData := resizeTo 0 s.recvData s.readedByteSize
  if recvData.isEmpty then [] else [recvData]

/-- The round in which `read_some` reports an error: both branches leave the loop. -/
def finish (s : ReadLoop) : ReadEnd → List Bytes
  | .eof => s.forwardData
  | .error _ => s.forwardData

/-- The buffer offered is not empty and ends where the vector does. -/
def OffersRoom (s : ReadLoop) : Prop :=
  0 < s.offered ∧ s.readedByteSize + s.offered = s.recvData.length

/-! ## The loop -/

/-- What holds between two rounds: the data so far is in front, and there is room behind it. -/
structure Holds (data : Bytes) (s : ReadLoop) : Prop where
  filled : Filled s.recvData s.readedByteSize data
  room : s.readedByteSize < s.recvData.length
  size : s.recvData.length ≤ vectorMaxSize

variable {s s' : ReadLoop} {data chunk : Bytes}

theorem start_length : start.recvData.length = 65535 := List.length_replicate

theorem holds_start : Holds [] start where
  filled := Filled.empty _
  room := by
    rw [start_length]
    exact Nat.succ_pos 65534
  size := by
    rw [start_length]
    decide

/-- The difference does not wrap. -/
theorem Holds.offered (h : Holds data s) :
    s.offered = s.recvData.length - s.readedByteSize := by
  have hroom := h.room
  have hsize : s.recvData.length ≤ 2 ^ 63 - 1 := h.size
  unfold ReadLoop.offered u64
  omega

theorem Holds.offersRoom (h : Holds data s) : s.OffersRoom := by
  have hroom := h.room
  unfold OffersRoom
  rw [h.offered]
  omega

/-- A round appends what was read to the data. -/
theorem Holds.readSome (h : Holds data s) (hs : s.readSome chunk = some s') :
    Holds (data ++ chunk) s' := by
  unfold ReadLoop.readSome at hs
  rw [h.offered] at hs
  split at hs
  · rename_i hchunk
    have hroom := h.room
    have hinside : s.readedByteSize + chunk.length ≤ s.recvData.length := by omega
    have hfilled := h.filled.overwriteAt hinside
    dsimp only at hs
    rw [overwriteAt_length hinside] at hs
    split at hs
    · rename_i hfull
      split at hs
      · cases hs
      · rename_i hmax
        cases hs
        refine ⟨hfilled.resizeTo 0 (by omega), ?_, ?_⟩
        · show s.readedByteSize + chunk.length < _
          rw [resizeTo_length]
          omega
        · rw [resizeTo_length]
          omega
    · rename_i hfull
      cases hs
      refine ⟨hfilled, ?_, ?_⟩
      · show s.readedByteSize + chunk.length < _
        rw [overwriteAt_length hinside]
        omega
      · rw [overwriteAt_length hinside]
        exact h.size
  · cases hs

theorem chunk_ne_nil (hs : s.readSome chunk = some s') : chunk ≠ [] := by
  unfold ReadLoop.readSome at hs
  split at hs
  · rename_i hchunk
    exact List.ne_nil_of_length_pos hchunk.1
  · cases hs

/-- After any chunks the data is what they add up to. -/
theorem run_holds {chunks : List Bytes} (h : run ReadLoop.readSome start chunks = some s) :
    Holds chunks.flatten s := by
  refine run_history (I := fun hist t => Holds hist.flatten t) h holds_start ?_
  intro hist t chunk t' ht hs
  rw [List.flatten_append, List.flatten_singleton]
  exact ht.readSome hs

/-- Nothing was read only if there was no round. -/
theorem flatten_eq_nil_iff {chunks : List Bytes}
    (h : run ReadLoop.readSome start chunks = some s) : chunks.flatten = [] ↔ chunks = [] := by
  cases chunks with
  | nil => exact ⟨fun _ => rfl, fun _ => rfl⟩
  | cons chunk chunks =>
    obtain ⟨t, ht, -⟩ := run_cons h
    have hne := chunk_ne_nil ht
    simp [hne]

theorem Holds.forwardData (h : Holds data s) :
    s.forwardData = if data = [] then [] else [data] := by
  unfold ReadLoop.forwardData
  dsimp only
  rw [h.filled.cut 0]
  simp only [List.isEmpty_iff]

/-! ## The connection -/

/-- What should be handed over: the whole stream, when the peer closed the connection, and nothing
    else. -/
def expected (stream : Bytes) : ReadEnd → List Bytes
  | .eof => if stream = [] then [] else [stream]
  | .error _ => []

end ReadLoop

open ReadLoop

/-- For every way in which the peer's bytes come in and every end of the loop. -/
theorem send_mode_iff (chunks : List Bytes) (e : ReadEnd) (s : ReadLoop)
    (h : run ReadLoop.readSome ReadLoop.start chunks = some s) :
    (∀ pre t, pre <+: chunks → run ReadLoop.readSome ReadLoop.start pre = some t →
      t.OffersRoom ∧ Filled t.recvData t.readedByteSize pre.flatten) ∧
    (s.finish e = expected chunks.flatten e ↔ e = .eof ∨ chunks = []) := by
  have hholds := run_holds h
  refine ⟨fun pre t _ ht => ⟨(run_holds ht).offersRoom, (run_holds ht).filled⟩, ?_⟩
  cases e with
  | eof => exact ⟨fun _ => .inl rfl, fun _ => hholds.forwardData⟩
  | error code =>
    rw [finish, hholds.forwardData, expected, ← flatten_eq_nil_iff h]
    by_cases hnil : chunks.flatten = []
    · rw [if_pos hnil]
      exact ⟨fun _ => .inr hnil, fun _ => rfl⟩
    · rw [if_neg hnil]
      exact ⟨fun hno => absurd hno (List.cons_ne_nil _ _),
        fun hor => absurd (hor.resolve_left ReadEnd.noConfusion) hnil⟩

/-- The state after one byte. -/
theorem run_oneByte : ∃ s, run ReadLoop.readSome ReadLoop.start [[7]] = some s := by
  rw [run_singleton, ReadLoop.readSome, holds_start.offered]
  have hlen := start_length
  have hread : ReadLoop.start.readedByteSize = 0 := rfl
  have hone : 0 < [(7 : UInt8)].length ∧
      [(7 : UInt8)].length ≤ ReadLoop.start.recvData.length - ReadLoop.start.readedByteSize := by
    rw [hlen, hread]
    decide
  rw [if_pos hone]
  dsimp only
  have hfull : ReadLoop.start.readedByteSize + [(7 : UInt8)].length ≠
      (overwriteAt ReadLoop.start.recvData ReadLoop.start.readedByteSize [7]).length := by
    rw [overwriteAt_length (by rw [hlen, hread]; decide), hlen, hread]
    decide
  rw [if_neg hfull]
  exact ⟨_, rfl⟩

/-- One byte and an orderly close. -/
theorem send_mode_oneByte : ∃ s, run ReadLoop.readSome ReadLoop.start [[7]] = some s ∧
    s.finish .eof = [[7]] := by
  obtain ⟨s, hs⟩ := run_oneByte
  exact ⟨s, hs, (send_mode_iff [[7]] .eof s hs).2.mpr (.inl rfl)⟩

/-- One byte and a reset: the byte is handed over. -/
theorem reset_forwarded : ∃ s, run ReadLoop.readSome ReadLoop.start [[7]] = some s ∧
    s.finish (.error 104) = [[7]] ∧ s.finish (.error 104) ≠ expected [7] (.error 104) := by
  obtain ⟨s, hs⟩ := run_oneByte
  have hforward : s.finish (.error 104) = [[7]] := (run_holds hs).forwardData
  refine ⟨s, hs, hforward, ?_⟩
  rw [hforward]
  exact List.cons_ne_nil _ _

end CdsGuard.Guard
