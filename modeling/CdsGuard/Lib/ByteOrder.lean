import CdsGuard.Lib.Bytes

/-
  Integers in the memory of a host of either byte order, and the conversions between host and
  network order.

  Proved: what is converted and stored lies in memory most significant byte first
  (`store_hton`), what is loaded and converted is read so (`ntoh_load`), and a 64-bit conversion
  may be put together from two of 32 bits (`convert64_eq`).
-/

namespace CdsGuard.Lib

/-- `std::endian::native`. -/
inductive ByteOrder where
  | little
  | big
  deriving DecidableEq

namespace ByteOrder

variable (host : ByteOrder)

/-- An integer of `n` bytes as the host keeps it in memory. -/
def store (n v : Nat) : Bytes :=
  match host with
  | little => leBytes n v
  | big => beBytes n v

/-- The integer that the host finds in memory. -/
def load (bs : Bytes) : Nat :=
  match host with
  | little => leVal bs
  | big => beVal bs

/-- The conversion of an integer of `n` bytes from host to network order, which swaps the bytes of
    a little-endian host. -/
def hton (n v : Nat) : Nat :=
  match host with
  | little => leVal (beBytes n v)
  | big => v % 256 ^ n

/-- The conversion back swaps the same bytes. -/
def ntoh (n v : Nat) : Nat := host.hton n v

/-- A 64-bit conversion from one of 32 bits: the halves of a little-endian host change places. -/
def convert64 (convert32 : Nat → Nat) (x : Nat) : Nat :=
  match host with
  | little => (convert32 (x &&& 0xFFFFFFFF) <<< 32) ||| convert32 (u32 (x >>> 32))
  | big => x

end ByteOrder

/-! ## Fields in two parts -/

theorem leBytes_add (m n v : Nat) : leBytes (m + n) v = leBytes m v ++ leBytes n (v / 256 ^ m) := by
  induction m generalizing v with
  | zero => rw [Nat.zero_add, Nat.pow_zero, Nat.div_one]; rfl
  | succ m ih =>
    rw [Nat.add_right_comm, leBytes, leBytes, ih, Nat.div_div_eq_div_mul, Nat.pow_succ',
      List.cons_append]

theorem leVal_append (xs ys : Bytes) :
    leVal (xs ++ ys) = leVal xs + 256 ^ xs.length * leVal ys := by
  induction xs with
  | nil => rw [List.nil_append, List.length_nil, Nat.pow_zero, Nat.one_mul, leVal, Nat.zero_add]
  | cons x xs ih =>
    rw [List.cons_append, leVal, leVal, ih, List.length_cons, Nat.pow_succ']
    ring

theorem leBytes_mod (n v : Nat) : leBytes n (v % 256 ^ n) = leBytes n v := by
  have h := leBytes_leVal (leBytes n v)
  rwa [leBytes_length, leVal_leBytes] at h

theorem leBytes_zero (n : Nat) : leBytes n 0 = List.replicate n 0 := by
  induction n with
  | zero => rfl
  | succ n ih => rw [leBytes, Nat.zero_div, ih]; rfl

theorem leVal_beBytes_lt (n v : Nat) : leVal (beBytes n v) < 256 ^ n := by
  have h := leVal_lt (beBytes n v)
  rwa [beBytes_length] at h

namespace ByteOrder

variable (host : ByteOrder)

/-! ## Conversions -/

theorem load_lt (bs : Bytes) : host.load bs < 256 ^ bs.length := by
  cases host with
  | little => exact leVal_lt bs
  | big => exact beVal_lt bs

/-- What is converted and stored lies in memory in network order. -/
theorem store_hton (n v : Nat) : host.store n (host.hton n v) = beBytes n v := by
  cases host with
  | little =>
    have h := leBytes_leVal (beBytes n v)
    rwa [beBytes_length] at h
  | big =>
    show (leBytes n (v % 256 ^ n)).reverse = (leBytes n v).reverse
    rw [leBytes_mod]

/-- What is loaded and converted was read in network order. -/
theorem ntoh_load {n : Nat} {bs : Bytes} (h : bs.length = n) :
    host.ntoh n (host.load bs) = beVal bs := by
  subst h
  cases host with
  | little =>
    show leVal (leBytes bs.length (leVal bs)).reverse = leVal bs.reverse
    rw [leBytes_leVal]
  | big => exact Nat.mod_eq_of_lt (beVal_lt bs)

theorem hton_zero (n : Nat) : host.hton n 0 = 0 := by
  cases host with
  | little =>
    show leVal (leBytes n 0).reverse = 0
    rw [leBytes_zero, List.reverse_replicate, ← leBytes_zero, leVal_leBytes, Nat.zero_mod]
  | big => exact Nat.zero_mod _

/-- The two halves make the whole conversion. -/
theorem convert64_eq {x : Nat} (hx : x < 2 ^ 64) :
    host.convert64 (host.hton 4) x = host.hton 8 x := by
  cases host with
  | little =>
    have hlow : x &&& 0xFFFFFFFF = x % 256 ^ 4 := Nat.and_two_pow_sub_one_eq_mod x 32
    have hhigh : u32 (x >>> 32) = x / 256 ^ 4 := by
      rw [Nat.shiftRight_eq_div_pow, u32_of_lt (by omega), show 256 ^ 4 = 2 ^ 32 by norm_num]
    have hbytes : beBytes 8 x = beBytes 4 (x / 256 ^ 4) ++ beBytes 4 x := by
      rw [beBytes, leBytes_add 4 4, List.reverse_append]
      rfl
    show (leVal (beBytes 4 (x &&& 0xFFFFFFFF)) <<< 32) ||| leVal (beBytes 4 (u32 (x >>> 32))) =
      leVal (beBytes 8 x)
    rw [hlow, hhigh, hbytes, leVal_append, beBytes_length, beBytes, leBytes_mod,
      ← Nat.shiftLeft_add_eq_or_of_lt (leVal_beBytes_lt 4 _), Nat.shiftLeft_eq]
    show leVal (beBytes 4 x) * 2 ^ 32 + _ = _
    ring
  | big => exact (Nat.mod_eq_of_lt hx).symm

end ByteOrder

end CdsGuard.Lib
