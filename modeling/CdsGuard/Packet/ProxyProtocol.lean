import CdsGuard.Lib.Bytes

/-
  `ProxyProtocol.hpp`: the 42-byte header in front of every message to the gateway, and the
  tags behind it. The file exists twice, in the client and in the gateway, with one layout.
-/

namespace CdsGuard.Packet

open CdsGuard.Lib

/-- `std::array<std::uint8_t, 16>`. -/
structure Addr16 where
  bytes : Bytes
  length_eq : bytes.length = 16
  deriving DecidableEq

namespace Addr16

/-- The value-initialised array. -/
def zero : Addr16 := ⟨List.replicate 16 0, rfl⟩

/-- `std::copy(bs.begin(), bs.end(), a.begin())`. -/
def overwrite (a : Addr16) (bs : Bytes) : Addr16 :=
  ⟨(bs ++ a.bytes.drop bs.length).take 16, by simp [a.length_eq]; omega⟩

theorem overwrite_take (a : Addr16) (bs : Bytes) (h : bs.length ≤ 16) :
    (a.overwrite bs).bytes.take bs.length = bs := by
  rw [overwrite, List.take_take, Nat.min_eq_left h, List.take_left]

end Addr16

/-- `asio::ip::address`. -/
inductive IpAddress where
  | v4 (bytes : Bytes) (h : bytes.length = 4)
  | v6 (bytes : Addr16)
  deriving DecidableEq

namespace IpAddress

/-- The default-constructed address, 0.0.0.0. -/
def unspecified : IpAddress := v4 [0, 0, 0, 0] rfl

def ver : IpAddress → UInt8
  | v4 _ _ => 4
  | v6 _ => 6

def bytes : IpAddress → Bytes
  | v4 bs _ => bs
  | v6 a => a.bytes

end IpAddress

/-- `ip_ver == 4 ? 4 : 16`. -/
def ipLen (ver : UInt8) : Nat := if ver = 4 then 4 else 16

theorem ipLen_le (ver : UInt8) : ipLen ver ≤ 16 := by
  unfold ipLen
  split <;> omega

/-! ## The header -/

/-- `ProxyHeader::kMagic`. -/
def kMagic : Nat := 0x50524732

structure ProxyHeader where
  srcIpVer : UInt8 := 0
  srcIp : Addr16 := .zero
  srcPort : UInt16 := 0
  destIpVer : UInt8 := 0
  destIp : Addr16 := .zero
  destPort : UInt16 := 0
  deriving DecidableEq

/-- The `push_back` and `insert` calls at the end of every `make_proxy_header`. -/
def ProxyHeader.write (hdr : ProxyHeader) : Bytes :=
  beBytes 4 kMagic ++
    ([hdr.srcIpVer] ++ (hdr.srcIp.bytes ++ (beBytes 2 hdr.srcPort.toNat ++
      ([hdr.destIpVer] ++ (hdr.destIp.bytes ++ beBytes 2 hdr.destPort.toNat)))))

/-- The `if` chain on the size of an address span: the version and the bytes at the front of
    a zeroed array, or nothing for any other size. -/
def storeIp (ip : Bytes) : Option (UInt8 × Addr16) :=
  if ip.length = 4 then some (4, Addr16.zero.overwrite ip)
  else if ip.length = 16 then some (6, Addr16.zero.overwrite ip)
  else none

/-- `"FILE\0"` and `"TEXT\0"`, the tags that say what follows the header. -/
def fileTag : Bytes := [0x46, 0x49, 0x4c, 0x45, 0x00]
def textTag : Bytes := [0x54, 0x45, 0x58, 0x54, 0x00]

theorem ProxyHeader.write_length (hdr : ProxyHeader) : hdr.write.length = 42 := by
  simp [ProxyHeader.write, hdr.srcIp.length_eq, hdr.destIp.length_eq]

end CdsGuard.Packet
