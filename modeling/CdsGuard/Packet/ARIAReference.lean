import CdsGuard.Lib.Bytes
import CdsGuard.Lib.XorSum
import Mathlib.Data.Fintype.Basic
import Mathlib.Tactic.FinCases

/-
  The ARIA reference code (`ARIAReference.cpp`): the four S-boxes, the diffusion layer `DL`,
  `RotXOR`, the two round key schedules and `Crypt`. A 16-byte buffer is a `Block`; a round key
  buffer is read as its 16-byte blocks, `e k` being the bytes at offset `16 * k`.

  Proved:
  * `DL_DL`: the diffusion layer is an involution, and `DL_xor`: it is linear.
  * `S_inv`: table `t` undoes table `t + 2` (mod 4), on every byte.
  * `decKeySetup_keys`: the loop of `DecKeySetup`, with its in-place exchange of the blocks
    `i` and `R - i`, leaves exactly the reversed keys, `DL` applied to the inner ones.
  * `crypt_decKeys_encKeys`, `crypt_encKeys_decKeys`: `Crypt` under either schedule undoes
    `Crypt` under the other, for every even positive number of rounds.
-/

namespace CdsGuard.Packet

open CdsGuard.Lib

/-- A 16-byte buffer. -/
abbrev Block := Fin 16 → UInt8

/-! ## Tables -/

/-- S-box type 1. -/
def sBox1 : List UInt8 := [
  0x63, 0x7c, 0x77, 0x7b, 0xf2, 0x6b, 0x6f, 0xc5, 0x30, 0x01, 0x67, 0x2b, 0xfe, 0xd7, 0xab, 0x76,
  0xca, 0x82, 0xc9, 0x7d, 0xfa, 0x59, 0x47, 0xf0, 0xad, 0xd4, 0xa2, 0xaf, 0x9c, 0xa4, 0x72, 0xc0,
  0xb7, 0xfd, 0x93, 0x26, 0x36, 0x3f, 0xf7, 0xcc, 0x34, 0xa5, 0xe5, 0xf1, 0x71, 0xd8, 0x31, 0x15,
  0x04, 0xc7, 0x23, 0xc3, 0x18, 0x96, 0x05, 0x9a, 0x07, 0x12, 0x80, 0xe2, 0xeb, 0x27, 0xb2, 0x75,
  0x09, 0x83, 0x2c, 0x1a, 0x1b, 0x6e, 0x5a, 0xa0, 0x52, 0x3b, 0xd6, 0xb3, 0x29, 0xe3, 0x2f, 0x84,
  0x53, 0xd1, 0x00, 0xed, 0x20, 0xfc, 0xb1, 0x5b, 0x6a, 0xcb, 0xbe, 0x39, 0x4a, 0x4c, 0x58, 0xcf,
  0xd0, 0xef, 0xaa, 0xfb, 0x43, 0x4d, 0x33, 0x85, 0x45, 0xf9, 0x02, 0x7f, 0x50, 0x3c, 0x9f, 0xa8,
  0x51, 0xa3, 0x40, 0x8f, 0x92, 0x9d, 0x38, 0xf5, 0xbc, 0xb6, 0xda, 0x21, 0x10, 0xff, 0xf3, 0xd2,
  0xcd, 0x0c, 0x13, 0xec, 0x5f, 0x97, 0x44, 0x17, 0xc4, 0xa7, 0x7e, 0x3d, 0x64, 0x5d, 0x19, 0x73,
  0x60, 0x81, 0x4f, 0xdc, 0x22, 0x2a, 0x90, 0x88, 0x46, 0xee, 0xb8, 0x14, 0xde, 0x5e, 0x0b, 0xdb,
  0xe0, 0x32, 0x3a, 0x0a, 0x49, 0x06, 0x24, 0x5c, 0xc2, 0xd3, 0xac, 0x62, 0x91, 0x95, 0xe4, 0x79,
  0xe7, 0xc8, 0x37, 0x6d, 0x8d, 0xd5, 0x4e, 0xa9, 0x6c, 0x56, 0xf4, 0xea, 0x65, 0x7a, 0xae, 0x08,
  0xba, 0x78, 0x25, 0x2e, 0x1c, 0xa6, 0xb4, 0xc6, 0xe8, 0xdd, 0x74, 0x1f, 0x4b, 0xbd, 0x8b, 0x8a,
  0x70, 0x3e, 0xb5, 0x66, 0x48, 0x03, 0xf6, 0x0e, 0x61, 0x35, 0x57, 0xb9, 0x86, 0xc1, 0x1d, 0x9e,
  0xe1, 0xf8, 0x98, 0x11, 0x69, 0xd9, 0x8e, 0x94, 0x9b, 0x1e, 0x87, 0xe9, 0xce, 0x55, 0x28, 0xdf,
  0x8c, 0xa1, 0x89, 0x0d, 0xbf, 0xe6, 0x42, 0x68, 0x41, 0x99, 0x2d, 0x0f, 0xb0, 0x54, 0xbb, 0x16]

/-- S-box type 2. -/
def sBox2 : List UInt8 := [
  0xe2, 0x4e, 0x54, 0xfc, 0x94, 0xc2, 0x4a, 0xcc, 0x62, 0x0d, 0x6a, 0x46, 0x3c, 0x4d, 0x8b, 0xd1,
  0x5e, 0xfa, 0x64, 0xcb, 0xb4, 0x97, 0xbe, 0x2b, 0xbc, 0x77, 0x2e, 0x03, 0xd3, 0x19, 0x59, 0xc1,
  0x1d, 0x06, 0x41, 0x6b, 0x55, 0xf0, 0x99, 0x69, 0xea, 0x9c, 0x18, 0xae, 0x63, 0xdf, 0xe7, 0xbb,
  0x00, 0x73, 0x66, 0xfb, 0x96, 0x4c, 0x85, 0xe4, 0x3a, 0x09, 0x45, 0xaa, 0x0f, 0xee, 0x10, 0xeb,
  0x2d, 0x7f, 0xf4, 0x29, 0xac, 0xcf, 0xad, 0x91, 0x8d, 0x78, 0xc8, 0x95, 0xf9, 0x2f, 0xce, 0xcd,
  0x08, 0x7a, 0x88, 0x38, 0x5c, 0x83, 0x2a, 0x28, 0x47, 0xdb, 0xb8, 0xc7, 0x93, 0xa4, 0x12, 0x53,
  0xff, 0x87, 0x0e, 0x31, 0x36, 0x21, 0x58, 0x48, 0x01, 0x8e, 0x37, 0x74, 0x32, 0xca, 0xe9, 0xb1,
  0xb7, 0xab, 0x0c, 0xd7, 0xc4, 0x56, 0x42, 0x26, 0x07, 0x98, 0x60, 0xd9, 0xb6, 0xb9, 0x11, 0x40,
  0xec, 0x20, 0x8c, 0xbd, 0xa0, 0xc9, 0x84, 0x04, 0x49, 0x23, 0xf1, 0x4f, 0x50, 0x1f, 0x13, 0xdc,
  0xd8, 0xc0, 0x9e, 0x57, 0xe3, 0xc3, 0x7b, 0x65, 0x3b, 0x02, 0x8f, 0x3e, 0xe8, 0x25, 0x92, 0xe5,
  0x15, 0xdd, 0xfd, 0x17, 0xa9, 0xbf, 0xd4, 0x9a, 0x7e, 0xc5, 0x39, 0x67, 0xfe, 0x76, 0x9d, 0x43,
  0xa7, 0xe1, 0xd0, 0xf5, 0x68, 0xf2, 0x1b, 0x34, 0x70, 0x05, 0xa3, 0x8a, 0xd5, 0x79, 0x86, 0xa8,
  0x30, 0xc6, 0x51, 0x4b, 0x1e, 0xa6, 0x27, 0xf6, 0x35, 0xd2, 0x6e, 0x24, 0x16, 0x82, 0x5f, 0xda,
  0xe6, 0x75, 0xa2, 0xef, 0x2c, 0xb2, 0x1c, 0x9f, 0x5d, 0x6f, 0x80, 0x0a, 0x72, 0x44, 0x9b, 0x6c,
  0x90, 0x0b, 0x5b, 0x33, 0x7d, 0x5a, 0x52, 0xf3, 0x61, 0xa1, 0xf7, 0xb0, 0xd6, 0x3f, 0x7c, 0x6d,
  0xed, 0x14, 0xe0, 0xa5, 0x3d, 0x22, 0xb3, 0xf8, 0x89, 0xde, 0x71, 0x1a, 0xaf, 0xba, 0xb5, 0x81]

/-- Inverse of S-box type 1. -/
def sBox1Inv : List UInt8 := [
  0x52, 0x09, 0x6a, 0xd5, 0x30, 0x36, 0xa5, 0x38, 0xbf, 0x40, 0xa3, 0x9e, 0x81, 0xf3, 0xd7, 0xfb,
  0x7c, 0xe3, 0x39, 0x82, 0x9b, 0x2f, 0xff, 0x87, 0x34, 0x8e, 0x43, 0x44, 0xc4, 0xde, 0xe9, 0xcb,
  0x54, 0x7b, 0x94, 0x32, 0xa6, 0xc2, 0x23, 0x3d, 0xee, 0x4c, 0x95, 0x0b, 0x42, 0xfa, 0xc3, 0x4e,
  0x08, 0x2e, 0xa1, 0x66, 0x28, 0xd9, 0x24, 0xb2, 0x76, 0x5b, 0xa2, 0x49, 0x6d, 0x8b, 0xd1, 0x25,
  0x72, 0xf8, 0xf6, 0x64, 0x86, 0x68, 0x98, 0x16, 0xd4, 0xa4, 0x5c, 0xcc, 0x5d, 0x65, 0xb6, 0x92,
  0x6c, 0x70, 0x48, 0x50, 0xfd, 0xed, 0xb9, 0xda, 0x5e, 0x15, 0x46, 0x57, 0xa7, 0x8d, 0x9d, 0x84,
  0x90, 0xd8, 0xab, 0x00, 0x8c, 0xbc, 0xd3, 0x0a, 0xf7, 0xe4, 0x58, 0x05, 0xb8, 0xb3, 0x45, 0x06,
  0xd0, 0x2c, 0x1e, 0x8f, 0xca, 0x3f, 0x0f, 0x02, 0xc1, 0xaf, 0xbd, 0x03, 0x01, 0x13, 0x8a, 0x6b,
  0x3a, 0x91, 0x11, 0x41, 0x4f, 0x67, 0xdc, 0xea, 0x97, 0xf2, 0xcf, 0xce, 0xf0, 0xb4, 0xe6, 0x73,
  0x96, 0xac, 0x74, 0x22, 0xe7, 0xad, 0x35, 0x85, 0xe2, 0xf9, 0x37, 0xe8, 0x1c, 0x75, 0xdf, 0x6e,
  0x47, 0xf1, 0x1a, 0x71, 0x1d, 0x29, 0xc5, 0x89, 0x6f, 0xb7, 0x62, 0x0e, 0xaa, 0x18, 0xbe, 0x1b,
  0xfc, 0x56, 0x3e, 0x4b, 0xc6, 0xd2, 0x79, 0x20, 0x9a, 0xdb, 0xc0, 0xfe, 0x78, 0xcd, 0x5a, 0xf4,
  0x1f, 0xdd, 0xa8, 0x33, 0x88, 0x07, 0xc7, 0x31, 0xb1, 0x12, 0x10, 0x59, 0x27, 0x80, 0xec, 0x5f,
  0x60, 0x51, 0x7f, 0xa9, 0x19, 0xb5, 0x4a, 0x0d, 0x2d, 0xe5, 0x7a, 0x9f, 0x93, 0xc9, 0x9c, 0xef,
  0xa0, 0xe0, 0x3b, 0x4d, 0xae, 0x2a, 0xf5, 0xb0, 0xc8, 0xeb, 0xbb, 0x3c, 0x83, 0x53, 0x99, 0x61,
  0x17, 0x2b, 0x04, 0x7e, 0xba, 0x77, 0xd6, 0x26, 0xe1, 0x69, 0x14, 0x63, 0x55, 0x21, 0x0c, 0x7d]

/-- Inverse of S-box type 2. -/
def sBox2Inv : List UInt8 := [
  0x30, 0x68, 0x99, 0x1b, 0x87, 0xb9, 0x21, 0x78, 0x50, 0x39, 0xdb, 0xe1, 0x72, 0x09, 0x62, 0x3c,
  0x3e, 0x7e, 0x5e, 0x8e, 0xf1, 0xa0, 0xcc, 0xa3, 0x2a, 0x1d, 0xfb, 0xb6, 0xd6, 0x20, 0xc4, 0x8d,
  0x81, 0x65, 0xf5, 0x89, 0xcb, 0x9d, 0x77, 0xc6, 0x57, 0x43, 0x56, 0x17, 0xd4, 0x40, 0x1a, 0x4d,
  0xc0, 0x63, 0x6c, 0xe3, 0xb7, 0xc8, 0x64, 0x6a, 0x53, 0xaa, 0x38, 0x98, 0x0c, 0xf4, 0x9b, 0xed,
  0x7f, 0x22, 0x76, 0xaf, 0xdd, 0x3a, 0x0b, 0x58, 0x67, 0x88, 0x06, 0xc3, 0x35, 0x0d, 0x01, 0x8b,
  0x8c, 0xc2, 0xe6, 0x5f, 0x02, 0x24, 0x75, 0x93, 0x66, 0x1e, 0xe5, 0xe2, 0x54, 0xd8, 0x10, 0xce,
  0x7a, 0xe8, 0x08, 0x2c, 0x12, 0x97, 0x32, 0xab, 0xb4, 0x27, 0x0a, 0x23, 0xdf, 0xef, 0xca, 0xd9,
  0xb8, 0xfa, 0xdc, 0x31, 0x6b, 0xd1, 0xad, 0x19, 0x49, 0xbd, 0x51, 0x96, 0xee, 0xe4, 0xa8, 0x41,
  0xda, 0xff, 0xcd, 0x55, 0x86, 0x36, 0xbe, 0x61, 0x52, 0xf8, 0xbb, 0x0e, 0x82, 0x48, 0x69, 0x9a,
  0xe0, 0x47, 0x9e, 0x5c, 0x04, 0x4b, 0x34, 0x15, 0x79, 0x26, 0xa7, 0xde, 0x29, 0xae, 0x92, 0xd7,
  0x84, 0xe9, 0xd2, 0xba, 0x5d, 0xf3, 0xc5, 0xb0, 0xbf, 0xa4, 0x3b, 0x71, 0x44, 0x46, 0x2b, 0xfc,
  0xeb, 0x6f, 0xd5, 0xf6, 0x14, 0xfe, 0x7c, 0x70, 0x5a, 0x7d, 0xfd, 0x2f, 0x18, 0x83, 0x16, 0xa5,
  0x91, 0x1f, 0x05, 0x95, 0x74, 0xa9, 0xc1, 0x5b, 0x4a, 0x85, 0x6d, 0x13, 0x07, 0x4f, 0x4e, 0x45,
  0xb2, 0x0f, 0xc9, 0x1c, 0xa6, 0xbc, 0xec, 0x73, 0x90, 0x7b, 0xcf, 0x59, 0x8f, 0xa1, 0xf9, 0x2d,
  0xf2, 0xb1, 0x00, 0x94, 0x37, 0x9f, 0xd0, 0x2e, 0x9c, 0x6e, 0x28, 0x3f, 0x80, 0xf0, 0x3d, 0xd3,
  0x25, 0x8a, 0xb5, 0xe7, 0x42, 0xb3, 0xc7, 0xea, 0xf7, 0x4c, 0x11, 0x33, 0x03, 0xa2, 0xac, 0x60]

/-- `S[t][x]`. -/
def S (t : Nat) (x : UInt8) : UInt8 :=
  (match t with
    | 0 => sBox1
    | 1 => sBox2
    | 2 => sBox1Inv
    | _ => sBox2Inv).getD x.toNat 0

/-- The constants of the round key generation. -/
def KRK : List (List UInt8) := [
  [0x51, 0x7c, 0xc1, 0xb7, 0x27, 0x22, 0x0a, 0x94, 0xfe, 0x13, 0xab, 0xe8, 0xfa, 0x9a, 0x6e, 0xe0],
  [0x6d, 0xb1, 0x4a, 0xcc, 0x9e, 0x21, 0xc8, 0x20, 0xff, 0x28, 0xb1, 0xd5, 0xef, 0x5d, 0xe2, 0xb0],
  [0xdb, 0x92, 0x37, 0x1d, 0x21, 0x26, 0xe9, 0x70, 0x03, 0x24, 0x97, 0x75, 0x04, 0xe8, 0xc9, 0x0e]]

/-- `KRK[q][i]`. -/
def krk (q : Nat) : Block := fun i => (KRK.getD q []).getD i.val 0

/-! ## Diffusion layer -/

/-- The diffusion layer `DL(i, o)`, from one 16-byte buffer to another. -/
def DL (i : Block) : Block :=
  let t0 := i 3 ^^^ i 4 ^^^ i 9 ^^^ i 14
  let t1 := i 2 ^^^ i 5 ^^^ i 8 ^^^ i 15
  let t2 := i 1 ^^^ i 6 ^^^ i 11 ^^^ i 12
  let t3 := i 0 ^^^ i 7 ^^^ i 10 ^^^ i 13
  fun
    | ⟨0, _⟩ => i 6 ^^^ i 8 ^^^ i 13 ^^^ t0
    | ⟨5, _⟩ => i 1 ^^^ i 10 ^^^ i 15 ^^^ t0
    | ⟨11, _⟩ => i 2 ^^^ i 7 ^^^ i 12 ^^^ t0
    | ⟨14, _⟩ => i 0 ^^^ i 5 ^^^ i 11 ^^^ t0
    | ⟨1, _⟩ => i 7 ^^^ i 9 ^^^ i 12 ^^^ t1
    | ⟨4, _⟩ => i 0 ^^^ i 11 ^^^ i 14 ^^^ t1
    | ⟨10, _⟩ => i 3 ^^^ i 6 ^^^ i 13 ^^^ t1
    | ⟨15, _⟩ => i 1 ^^^ i 4 ^^^ i 10 ^^^ t1
    | ⟨2, _⟩ => i 4 ^^^ i 10 ^^^ i 15 ^^^ t2
    | ⟨7, _⟩ => i 3 ^^^ i 8 ^^^ i 13 ^^^ t2
    | ⟨9, _⟩ => i 0 ^^^ i 5 ^^^ i 14 ^^^ t2
    | ⟨12, _⟩ => i 2 ^^^ i 7 ^^^ i 9 ^^^ t2
    | ⟨3, _⟩ => i 5 ^^^ i 11 ^^^ i 14 ^^^ t3
    | ⟨6, _⟩ => i 2 ^^^ i 9 ^^^ i 12 ^^^ t3
    | ⟨8, _⟩ => i 1 ^^^ i 4 ^^^ i 15 ^^^ t3
    | ⟨13, _⟩ => i 3 ^^^ i 6 ^^^ i 8 ^^^ t3
    | ⟨n + 16, h⟩ => absurd h (by omega)

/-- The input indices whose bytes `DL` adds up for output byte `o`. -/
def dlRow : Fin 16 → List (Fin 16)
  | ⟨0, _⟩ => [6, 8, 13, 3, 4, 9, 14]
  | ⟨5, _⟩ => [1, 10, 15, 3, 4, 9, 14]
  | ⟨11, _⟩ => [2, 7, 12, 3, 4, 9, 14]
  | ⟨14, _⟩ => [0, 5, 11, 3, 4, 9, 14]
  | ⟨1, _⟩ => [7, 9, 12, 2, 5, 8, 15]
  | ⟨4, _⟩ => [0, 11, 14, 2, 5, 8, 15]
  | ⟨10, _⟩ => [3, 6, 13, 2, 5, 8, 15]
  | ⟨15, _⟩ => [1, 4, 10, 2, 5, 8, 15]
  | ⟨2, _⟩ => [4, 10, 15, 1, 6, 11, 12]
  | ⟨7, _⟩ => [3, 8, 13, 1, 6, 11, 12]
  | ⟨9, _⟩ => [0, 5, 14, 1, 6, 11, 12]
  | ⟨12, _⟩ => [2, 7, 9, 1, 6, 11, 12]
  | ⟨3, _⟩ => [5, 11, 14, 0, 7, 10, 13]
  | ⟨6, _⟩ => [2, 9, 12, 0, 7, 10, 13]
  | ⟨8, _⟩ => [1, 4, 15, 0, 7, 10, 13]
  | ⟨13, _⟩ => [3, 6, 8, 0, 7, 10, 13]
  | ⟨n + 16, h⟩ => absurd h (by omega)

theorem xorLike_uint8 : XorLike (fun x y : UInt8 => x ^^^ y) 0 where
  assoc := UInt8.xor_assoc
  comm := UInt8.xor_comm
  unit := fun _ => UInt8.xor_zero
  self := fun _ => UInt8.xor_self

/-- Bytewise xor of two blocks. -/
def xorBlock (a b : Block) : Block := fun j => a j ^^^ b j

theorem xorBlock_comm (a b : Block) : xorBlock a b = xorBlock b a :=
  funext fun j => UInt8.xor_comm (a j) (b j)

theorem xorBlock_cancel (a b : Block) : xorBlock a (xorBlock a b) = b :=
  funext fun j => xorLike_uint8.cancel_left (a j) (b j)

theorem xorBlock_cancel_right (a b : Block) : xorBlock (xorBlock a b) b = a := by
  rw [xorBlock_comm, xorBlock_comm a, xorBlock_cancel]

/-- `DL` as its rows of indices. -/
theorem DL_eq_xsum (i : Block) (o : Fin 16) : DL i o = xsum (· ^^^ ·) 0 i (dlRow o) := by
  fin_cases o <;>
    simp only [DL, dlRow, xsum_cons, xsum_nil, UInt8.xor_zero, UInt8.xor_assoc]

/-- Applying the rows twice leaves each index an odd number of times exactly at its own place. -/
theorem dlRow_flatMap (o : Fin 16) : reduce ((dlRow o).flatMap dlRow) = [o] := by
  revert o
  decide +kernel

/-- The diffusion layer is an involution. -/
theorem DL_DL (i : Block) : DL (DL i) = i := by
  funext o
  have h : DL i = fun k => xsum (· ^^^ ·) 0 i (dlRow k) := funext (DL_eq_xsum i)
  rw [DL_eq_xsum, h, xsum_flatMap _ xorLike_uint8, ← xsum_reduce _ xorLike_uint8,
    dlRow_flatMap, xsum_cons, xsum_nil, UInt8.xor_zero]

/-- The diffusion layer is linear. -/
theorem DL_xor (a b : Block) : DL (xorBlock a b) = xorBlock (DL a) (DL b) := by
  funext o
  simp only [xorBlock, DL_eq_xsum]
  exact xsum_op a xorLike_uint8 b (dlRow o)

/-! ## Substitution layer -/

/-- A table undoes another on every byte if it does on the other's list of values. -/
theorem table_inv {t u : List UInt8}
    (h : t.map (fun y => u.getD y.toNat 0) = (List.range 256).map UInt8.ofNat) (x : UInt8) :
    u.getD (t.getD x.toNat 0).toNat 0 = x := by
  have hl := congrArg List.length h
  simp only [List.length_map, List.length_range] at hl
  have hx : x.toNat < t.length := by have := x.toNat_lt; omega
  have hg := congrArg (fun l : List UInt8 => l[x.toNat]?) h
  simp only [List.getElem?_map] at hg
  rw [List.getElem?_eq_getElem hx, List.getElem?_range x.toNat_lt] at hg
  simp only [Option.map_some, Option.some.injEq, UInt8.ofNat_toNat] at hg
  rw [List.getD_eq_getElem?_getD (l := t), List.getElem?_eq_getElem hx]
  exact hg

theorem sBox1Inv_sBox1 :
    sBox1.map (fun y => sBox1Inv.getD y.toNat 0) = (List.range 256).map UInt8.ofNat := by
  decide +kernel

theorem sBox2Inv_sBox2 :
    sBox2.map (fun y => sBox2Inv.getD y.toNat 0) = (List.range 256).map UInt8.ofNat := by
  decide +kernel

theorem sBox1_sBox1Inv :
    sBox1Inv.map (fun y => sBox1.getD y.toNat 0) = (List.range 256).map UInt8.ofNat := by
  decide +kernel

theorem sBox2_sBox2Inv :
    sBox2Inv.map (fun y => sBox2.getD y.toNat 0) = (List.range 256).map UInt8.ofNat := by
  decide +kernel

/-- Table `t + 2` (mod 4) undoes table `t`. -/
theorem S_inv (t : Nat) (ht : t < 4) (x : UInt8) : S ((2 + t) % 4) (S t x) = x := by
  match t, ht with
  | 0, _ => exact table_inv sBox1Inv_sBox1 x
  | 1, _ => exact table_inv sBox2Inv_sBox2 x
  | 2, _ => exact table_inv sBox1_sBox1Inv x
  | 3, _ => exact table_inv sBox2_sBox2Inv x

/-- The substitution layer of a round: byte `j` goes through table `(b + j) % 4`, where `b` is
    `0` in the first round of each pair and `2` in the second. -/
def substitute (b : Nat) (x : Block) : Block := fun j => S ((b + j.val) % 4) (x j)

theorem substitute_two_zero (x : Block) : substitute 2 (substitute 0 x) = x := by
  funext j
  have h := S_inv (j.val % 4) (Nat.mod_lt _ (by omega)) (x j)
  simpa [substitute, Nat.add_mod] using h

theorem substitute_zero_two (x : Block) : substitute 0 (substitute 2 x) = x := by
  funext j
  have h := S_inv ((2 + j.val) % 4) (Nat.mod_lt _ (by omega)) (x j)
  have e : (2 + (2 + j.val) % 4) % 4 = (0 + j.val) % 4 := by omega
  rw [e] at h
  exact h

/-! ## Round keys -/

/-- `t[k] = v`. -/
def setByte (t : Block) (k : Nat) (v : UInt8) : Block := fun j => if j.val = k then v else t j

/-- `RotXOR(s, n, t)`: right-rotate `s` by `n` bits and xor it to `t`. -/
def rotXOR (s : Block) (n : Nat) (t : Block) : Block :=
  let q := n / 8
  let n := n % 8
  (List.finRange 16).foldl
    (fun t i =>
      let k := (q + i.val) % 16
      let t := setByte t k (t (Fin.ofNat 16 k) ^^^ (s i >>> UInt8.ofNat n))
      let k := (q + i.val + 1) % 16
      if n ≠ 0 then setByte t k (t (Fin.ofNat 16 k) ^^^ (s i <<< UInt8.ofNat (8 - n))) else t)
    t

/-- The block of zero bytes. -/
def zeroBlock : Block := fun _ => 0

/-- `R`, the number of rounds for a key of `keyBits` bits. -/
def numRounds (keyBits : Nat) : Nat := (keyBits + 256) / 32

/-- The index of the next row of `KRK`. -/
def nextKrk (q : Nat) : Nat := if q = 2 then 0 else q + 1

/-- `EncKeySetup(w0, e, keyBits)`: the round keys `e`, sixteen bytes a block. The number of
    rounds it returns is `numRounds keyBits`. -/
def encKeySetup (w0 : Bytes) (keyBits : Nat) : Nat → Block :=
  let R := numRounds keyBits
  let k0 : Block := fun i => w0.getD i.val 0
  let q := (keyBits - 128) / 64
  let w1 := DL (substitute 0 (xorBlock (krk q) k0))
  let w1 : Block :=
    if R = 14 then fun i => if i.val < 8 then w1 i ^^^ w0.getD (16 + i.val) 0 else w1 i
    else if R = 16 then fun i => w1 i ^^^ w0.getD (16 + i.val) 0
    else w1
  let q := nextKrk q
  let w2 := xorBlock (DL (substitute 2 (xorBlock (krk q) w1))) k0
  let q := nextKrk q
  let w3 := xorBlock (DL (substitute 0 (xorBlock (krk q) w2))) w1
  let key (a : Block) (n : Nat) (b : Block) : Block := rotXOR b n (rotXOR a 0 zeroBlock)
  fun
    | 0 => key k0 19 w1
    | 1 => key w1 19 w2
    | 2 => key w2 19 w3
    | 3 => key w3 19 k0
    | 4 => key k0 31 w1
    | 5 => key w1 31 w2
    | 6 => key w2 31 w3
    | 7 => key w3 31 k0
    | 8 => key k0 67 w1
    | 9 => key w1 67 w2
    | 10 => key w2 67 w3
    | 11 => key w3 67 k0
    | 12 => key k0 97 w1
    | 13 => if R > 12 then key w1 97 w2 else zeroBlock
    | 14 => if R > 12 then key w2 97 w3 else zeroBlock
    | 15 => if R > 14 then key w3 97 k0 else zeroBlock
    | 16 => if R > 14 then key k0 109 w1 else zeroBlock
    | _ => zeroBlock

/-- Overwrite block `k` of a round key buffer. -/
def setBlock (d : Nat → Block) (k : Nat) (v : Block) : Nat → Block :=
  fun m => if m = k then v else d m

/-- The first loop of `DecKeySetup`: exchange the first and the last block. -/
def swapEnds (R : Nat) (d : Nat → Block) : Nat → Block :=
  let t := d 0
  setBlock (setBlock d 0 (d R)) R t

/-- One iteration of the second loop of `DecKeySetup`. At `i = R - i` the source calls `DL`
    with the same buffer as input and output; what that leaves is overwritten by `t`. -/
def decKeyStep (R : Nat) (d : Nat → Block) (i : Nat) : Nat → Block :=
  let t := DL (d i)
  setBlock (setBlock d i (DL (d (R - i)))) (R - i) t

/-- `DecKeySetup(w0, d, keyBits)`: the decryption round keys. -/
def decKeySetup (w0 : Bytes) (keyBits : Nat) : Nat → Block :=
  let R := numRounds keyBits
  (List.range' 1 (R / 2)).foldl (decKeyStep R) (swapEnds R (encKeySetup w0 keyBits))

/-! ## `Crypt` -/

/-- The two rounds of one iteration of the loop of `Crypt`, under the blocks `2 * i` and
    `2 * i + 1` of the round keys. -/
def cryptPair (e : Nat → Block) (c : Block) (i : Nat) : Block :=
  let c := DL (substitute 0 (xorBlock (e (2 * i)) c))
  DL (substitute 2 (xorBlock (e (2 * i + 1)) c))

/-- `Crypt(p, R, e, c)`. -/
def crypt (p : Block) (R : Nat) (e : Nat → Block) : Block :=
  let c := (List.range (R / 2)).foldl (cryptPair e) p
  xorBlock (e (2 * (R / 2))) (DL c)

/-! ## The schedules are inverse to each other -/

/-- The reversed round keys, `DL` applied to all but the first and the last. -/
def revKeys (R : Nat) (e : Nat → Block) : Nat → Block :=
  fun k => if k = 0 then e R else if k = R then e 0 else DL (e (R - k))

/-- After `n` iterations of the second loop the outer `n` inner blocks on both sides are
    reversed and transformed, the ones between are untouched. -/
theorem decKeyLoop (h : Nat) (d : Nat → Block) (n : Nat) (hn : n ≤ h) (k : Nat) :
    (List.range' 1 n).foldl (decKeyStep (2 * h)) d k =
      if (1 ≤ k ∧ k ≤ n) ∨ (2 * h - n ≤ k ∧ k < 2 * h) then DL (d (2 * h - k)) else d k := by
  induction n generalizing k with
  | zero =>
    rw [if_neg (by omega)]
    rfl
  | succ n ih =>
    rw [List.range'_1_concat, List.foldl_append]
    simp only [List.foldl_cons, List.foldl_nil, decKeyStep, setBlock]
    by_cases h1 : k = 2 * h - (1 + n)
    · have e : 2 * h - k = 1 + n := by omega
      rw [if_pos h1, ih (by omega), if_neg (by omega), if_pos (by omega), e]
    · rw [if_neg h1]
      by_cases h2 : k = 1 + n
      · rw [if_pos h2, ih (by omega), if_neg (by omega), if_pos (by omega), h2]
      · rw [if_neg h2, ih (by omega)]
        congr 1
        exact propext (by omega)

/-- `DecKeySetup` leaves the reversed encryption keys. -/
theorem decKeySetup_keys (w0 : Bytes) (keyBits h : Nat) (hR : numRounds keyBits = 2 * h)
    (hh : 0 < h) (k : Nat) (hk : k ≤ 2 * h) :
    decKeySetup w0 keyBits k = revKeys (2 * h) (encKeySetup w0 keyBits) k := by
  unfold decKeySetup
  rw [hR, Nat.mul_div_cancel_left h (by omega), decKeyLoop h _ h (Nat.le_refl h)]
  unfold revKeys
  by_cases h0 : k = 0
  · subst h0
    rw [if_neg (by omega), if_pos rfl]
    simp only [swapEnds, setBlock]
    rw [if_neg (by omega), if_pos trivial]
  · rw [if_neg h0]
    by_cases hl : k = 2 * h
    · subst hl
      rw [if_neg (by omega), if_pos rfl]
      simp only [swapEnds, setBlock, if_pos]
    · rw [if_pos (by omega), if_neg hl]
      simp only [swapEnds, setBlock]
      rw [if_neg (by omega), if_neg (by omega)]

theorem revKeys_revKeys (R : Nat) (e : Nat → Block) (k : Nat) (hk : k ≤ R) :
    revKeys R (revKeys R e) k = e k := by
  unfold revKeys
  by_cases h0 : k = 0
  · subst h0
    by_cases hR : R = 0
    · simp [hR]
    · rw [if_pos rfl, if_neg hR, if_pos rfl]
  · rw [if_neg h0]
    by_cases hl : k = R
    · subst hl; rw [if_pos rfl, if_pos rfl]
    · have e' : R - (R - k) = k := by omega
      rw [if_neg hl, if_neg (by omega), if_neg (by omega), e', DL_DL]

/-- One pair of decryption rounds takes back one pair of encryption rounds: entered with the
    undiffused state after pair `m`, it gives the state before it, keyed and diffused. -/
theorem cryptPair_undo (e d : Nat → Block) (m k : Nat) (p c : Block)
    (hd : d (2 * k + 1) = DL (e (2 * m + 1)))
    (hc : xorBlock (d (2 * k)) c = DL (cryptPair e p m)) :
    cryptPair d c k = DL (xorBlock (e (2 * m)) p) := by
  unfold cryptPair at hc ⊢
  dsimp only at hc ⊢
  rw [DL_DL] at hc
  rw [hc, substitute_zero_two, DL_xor, DL_DL, hd, xorBlock_cancel, substitute_two_zero]

theorem foldl_cryptPair_succ (e : Nat → Block) (p : Block) (n : Nat) :
    (List.range (n + 1)).foldl (cryptPair e) p =
      cryptPair e ((List.range n).foldl (cryptPair e) p) n := by
  rw [List.range_succ, List.foldl_append]
  rfl

/-- The state of the deciphering after `k + 1` pairs. -/
theorem crypt_undo_pairs (e d : Nat → Block) (h : Nat) (p : Block)
    (hd : ∀ k, k ≤ 2 * h → d k = revKeys (2 * h) e k) (k : Nat) (hk : k < h) :
    (List.range (k + 1)).foldl (cryptPair d) (crypt p (2 * h) e) =
      DL (xorBlock (e (2 * (h - (k + 1))))
        ((List.range (h - (k + 1))).foldl (cryptPair e) p)) := by
  have key : ∀ j, j < h → d (2 * j + 1) = DL (e (2 * (h - (j + 1)) + 1)) := by
    intro j hj
    have e' : 2 * h - (2 * j + 1) = 2 * (h - (j + 1)) + 1 := by omega
    rw [hd _ (by omega), revKeys, if_neg (by omega), if_neg (by omega), e']
  induction k with
  | zero =>
    have hs := foldl_cryptPair_succ e p (h - 1)
    rw [Nat.sub_add_cancel hk] at hs
    apply cryptPair_undo e d (h - 1) 0 _ _ (key 0 hk)
    rw [← hs, hd 0 (by omega), revKeys, if_pos rfl, crypt, Nat.mul_div_cancel_left h (by omega)]
    exact xorBlock_cancel _ _
  | succ k ih =>
    have hs := foldl_cryptPair_succ e p (h - (k + 1 + 1))
    have e1 : h - (k + 1 + 1) + 1 = h - (k + 1) := by omega
    rw [e1] at hs
    rw [foldl_cryptPair_succ]
    apply cryptPair_undo e d (h - (k + 1 + 1)) (k + 1) _ _ (key (k + 1) hk)
    have e2 : 2 * h - 2 * (k + 1) = 2 * (h - (k + 1)) := by omega
    rw [← hs, ih (by omega), hd _ (by omega), revKeys, if_neg (by omega), if_neg (by omega), e2,
      DL_xor, xorBlock_cancel]

/-- **`Crypt` under the reversed keys undoes `Crypt`**, for an even positive number of rounds. -/
theorem crypt_crypt (e d : Nat → Block) (h : Nat) (hh : 0 < h) (p : Block)
    (hd : ∀ k, k ≤ 2 * h → d k = revKeys (2 * h) e k) :
    crypt (crypt p (2 * h) e) (2 * h) d = p := by
  have hu := crypt_undo_pairs e d h p hd (h - 1) (by omega)
  rw [Nat.sub_add_cancel hh, Nat.sub_self] at hu
  rw [crypt, Nat.mul_div_cancel_left h (by omega), hu, DL_DL, hd _ (by omega), revKeys,
    if_neg (by omega), if_pos rfl, Nat.mul_zero, List.range_zero, List.foldl_nil, xorBlock_cancel]

/-- The three key sizes give an even number of rounds. -/
theorem numRounds_even {n : Nat} (hn : n = 16 ∨ n = 24 ∨ n = 32) :
    ∃ h, 0 < h ∧ numRounds (n * 8) = 2 * h := by
  rcases hn with rfl | rfl | rfl
  · exact ⟨6, by decide, rfl⟩
  · exact ⟨7, by decide, rfl⟩
  · exact ⟨8, by decide, rfl⟩

/-- `Crypt` under the decryption keys undoes `Crypt` under the encryption keys. -/
theorem crypt_decKeys_encKeys (w0 : Bytes) (n : Nat) (hn : n = 16 ∨ n = 24 ∨ n = 32) (p : Block) :
    crypt (crypt p (numRounds (n * 8)) (encKeySetup w0 (n * 8))) (numRounds (n * 8))
      (decKeySetup w0 (n * 8)) = p := by
  obtain ⟨h, hh, hR⟩ := numRounds_even hn
  rw [hR]
  exact crypt_crypt _ _ h hh p (fun k hk => decKeySetup_keys w0 _ h hR hh k hk)

/-- `Crypt` under the encryption keys undoes `Crypt` under the decryption keys. -/
theorem crypt_encKeys_decKeys (w0 : Bytes) (n : Nat) (hn : n = 16 ∨ n = 24 ∨ n = 32) (c : Block) :
    crypt (crypt c (numRounds (n * 8)) (decKeySetup w0 (n * 8))) (numRounds (n * 8))
      (encKeySetup w0 (n * 8)) = c := by
  obtain ⟨h, hh, hR⟩ := numRounds_even hn
  rw [hR]
  refine crypt_crypt _ _ h hh c (fun k hk => ?_)
  rw [← revKeys_revKeys (2 * h) (encKeySetup w0 (n * 8)) k hk]
  unfold revKeys
  rw [decKeySetup_keys w0 _ h hR hh (2 * h) (Nat.le_refl _),
    decKeySetup_keys w0 _ h hR hh 0 (Nat.zero_le _),
    decKeySetup_keys w0 _ h hR hh (2 * h - k) (Nat.sub_le _ _)]
  rfl

end CdsGuard.Packet
