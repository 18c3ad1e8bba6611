import CdsGuard.Lib.Cbc
import CdsGuard.Packet.ARIAReference

/-
  `ARIAAlgorithm`: PKCS#7 padding and CBC over `Crypt`, the IV in front of the ciphertext.
  `encrypt` takes the IV that `generate_random_iv` drew as an argument, so a statement about
  every IV is a statement about every outcome of the random device.

  Proved, for a key of 16, 24 or 32 bytes: `ariaDecrypt_ariaEncrypt`, for every IV and every
  byte string (the empty one included), and `unique_decoding`, that nothing else is accepted.
  They are assembled from `pkcs7Unpad_pkcs7Pad` and `pkcs7Pad_pkcs7Unpad`, the cutting of a
  byte string into blocks (`blocksFrom_flatMap`, `flatMap_blocksFrom`), `cbcDec_cbcEnc` and
  `cbcEnc_cbcDec`.
-/

namespace CdsGuard.Packet

open CdsGuard.Lib

/-- `ARIAAlgorithm::BLOCK_SIZE`. -/
def blockSize : Nat := 16

/-! ## PKCS#7 -/

/-- The number of padding bytes for `n` bytes of data, from 1 to `blockSize`. -/
def padLen (n : Nat) : Nat :=
  let rem := n % blockSize
  if rem = 0 then blockSize else blockSize - rem

/-- `pkcs7_pad`. -/
def pkcs7Pad (data : Bytes) : Bytes :=
  data ++ List.replicate (padLen data.length) (UInt8.ofNat (padLen data.length))

/-- `pkcs7_unpad`: the empty vector on every malformed padding. -/
def pkcs7Unpad (data : Bytes) : Bytes :=
  let sz := data.length
  if sz = 0 ∨ sz % blockSize ≠ 0 then []
  else
    let padByte := data.getD (sz - 1) 0
    if padByte = 0 ∨ padByte.toNat > blockSize then []
    else if (List.range padByte.toNat).all fun i => data.getD (sz - 1 - i) 0 == padByte then
      data.take (sz - padByte.toNat)
    else []

theorem padLen_pos (n : Nat) : 0 < padLen n := by
  unfold padLen blockSize
  dsimp only
  split <;> omega

theorem padLen_le (n : Nat) : padLen n ≤ blockSize := by
  unfold padLen blockSize
  dsimp only
  split <;> omega

theorem padLen_add_mod (n : Nat) : (n + padLen n) % blockSize = 0 := by
  unfold padLen blockSize
  dsimp only
  split <;> omega

theorem pkcs7Pad_length (data : Bytes) :
    (pkcs7Pad data).length = data.length + padLen data.length := by
  simp [pkcs7Pad]

theorem padByte_toNat (n : Nat) : (UInt8.ofNat (padLen n)).toNat = padLen n := by
  have := padLen_le n
  unfold blockSize at this
  rw [UInt8.toNat_ofNat']
  omega

/-- The bytes that the unpadding loop looks at are the ones that were appended. -/
theorem pkcs7Pad_getD (data : Bytes) (i : Nat) (hi : i < padLen data.length) :
    (pkcs7Pad data).getD ((pkcs7Pad data).length - 1 - i) 0 = UInt8.ofNat (padLen data.length) := by
  have hl := pkcs7Pad_length data
  rw [List.getD_eq_getElem?_getD, hl, pkcs7Pad,
    List.getElem?_append_right (by omega), List.getElem?_replicate, if_pos (by omega)]
  rfl

theorem pkcs7Unpad_pkcs7Pad (data : Bytes) : pkcs7Unpad (pkcs7Pad data) = data := by
  have hpos := padLen_pos data.length
  have hle := padLen_le data.length
  have hmod := padLen_add_mod data.length
  have hl := pkcs7Pad_length data
  have hbyte := padByte_toNat data.length
  have hlast := pkcs7Pad_getD data 0 hpos
  rw [Nat.sub_zero] at hlast
  have hne : UInt8.ofNat (padLen data.length) ≠ 0 := by
    intro h
    rw [h] at hbyte
    simp at hbyte
    omega
  have hall : (List.range (padLen data.length)).all (fun i =>
      (pkcs7Pad data).getD ((pkcs7Pad data).length - 1 - i) 0 ==
        UInt8.ofNat (padLen data.length)) = true := by
    rw [List.all_eq_true]
    intro i hi
    rw [pkcs7Pad_getD data i (List.mem_range.mp hi)]
    exact beq_self_eq_true _
  unfold pkcs7Unpad
  dsimp only
  rw [if_neg (by rw [hl]; omega), hlast, hbyte, if_neg (by simp only [hne, false_or]; omega),
    if_pos hall, hl, Nat.add_sub_cancel, pkcs7Pad, List.take_left]

/-- What the checks of `pkcs7_unpad` leave of a padding that it accepts. -/
theorem pkcs7Unpad_cases {data : Bytes} (h : pkcs7Unpad data ≠ []) :
    ∃ padByte : UInt8, data.length % blockSize = 0 ∧ 0 < padByte.toNat ∧
      padByte.toNat ≤ blockSize ∧ padByte.toNat ≤ data.length ∧
      (∀ i < padByte.toNat, data.getD (data.length - 1 - i) 0 = padByte) ∧
      pkcs7Unpad data = data.take (data.length - padByte.toNat) := by
  unfold pkcs7Unpad at h ⊢
  dsimp only at h ⊢
  split at h
  · exact absurd rfl h
  · rename_i hsize
    split at h
    · exact absurd rfl h
    · rename_i hbyte
      split at h
      · rename_i hall
        push Not at hsize hbyte
        have hpos : 0 < (data.getD (data.length - 1) 0).toNat := by
          by_contra hzero
          exact hbyte.1 (UInt8.toNat_inj.mp (by simpa using hzero))
        have hblock : blockSize ≤ data.length :=
          Nat.le_of_dvd (by omega) (Nat.dvd_of_mod_eq_zero hsize.2)
        rw [if_neg (by simpa using hsize), if_neg (by simpa using hbyte), if_pos hall]
        refine ⟨_, hsize.2, hpos, hbyte.2, by omega, fun i hi => ?_, rfl⟩
        have := List.all_eq_true.mp hall i (List.mem_range.mpr hi)
        simpa using this
      · exact absurd rfl h

theorem padLen_sub {n p : Nat} (hmod : n % blockSize = 0) (hpos : 0 < p) (hle : p ≤ blockSize)
    (hlen : p ≤ n) : padLen (n - p) = p := by
  unfold padLen blockSize at *
  dsimp only
  split <;> omega

/-- `pkcs7_unpad` accepts nothing but paddings: what it leaves, padded, is what it was given. -/
theorem pkcs7Pad_pkcs7Unpad {data : Bytes} (h : pkcs7Unpad data ≠ []) :
    pkcs7Pad (pkcs7Unpad data) = data := by
  obtain ⟨padByte, hmod, hpos, hle, hlen, hall, hunpad⟩ := pkcs7Unpad_cases h
  have htake : (data.take (data.length - padByte.toNat)).length = data.length - padByte.toNat := by
    rw [List.length_take]
    omega
  rw [hunpad, pkcs7Pad, htake, padLen_sub hmod hpos hle hlen, UInt8.ofNat_toNat]
  conv_rhs => rw [← List.take_append_drop (data.length - padByte.toNat) data]
  congr 1
  -- the bytes behind the cut are the ones that the loop compared
  refine (List.eq_replicate_iff.mpr ⟨by rw [List.length_drop]; omega, fun b hb => ?_⟩).symm
  obtain ⟨i, hi, rfl⟩ := List.mem_iff_getElem.mp hb
  rw [List.length_drop] at hi
  have hbyte := hall (padByte.toNat - 1 - i) (by omega)
  have hindex : data.length - 1 - (padByte.toNat - 1 - i) =
      data.length - padByte.toNat + i := by omega
  rw [hindex, List.getD_eq_getElem?_getD, List.getElem?_eq_getElem (by omega)] at hbyte
  rw [List.getElem_drop]
  exact hbyte

/-! ## Blocks of a byte string -/

/-- The 16 bytes at offset `off`. -/
def blockAt (data : Bytes) (off : Nat) : Block := fun j => data.getD (off + j.val) 0

/-- The bytes of a block. -/
def blockBytes (b : Block) : Bytes := List.ofFn b

/-- The `n` consecutive blocks from offset `off`. -/
def blocksFrom (data : Bytes) (off n : Nat) : List Block :=
  (List.range n).map fun bi => blockAt data (off + bi * blockSize)

@[simp] theorem blockBytes_length (b : Block) : (blockBytes b).length = blockSize := by
  simp [blockBytes, blockSize]

theorem blocksFrom_succ (data : Bytes) (off n : Nat) :
    blocksFrom data off (n + 1) = blockAt data off :: blocksFrom data (off + blockSize) n := by
  unfold blocksFrom
  rw [List.range_succ_eq_map, List.map_cons, List.map_map, Nat.zero_mul, Nat.add_zero]
  congr 1
  apply List.map_congr_left
  intro bi _
  have e : off + (bi + 1) * blockSize = off + blockSize + bi * blockSize := by
    rw [Nat.add_one_mul]; omega
  exact congrArg (blockAt data) e

theorem blockAt_append (pre : Bytes) (b : Block) (post : Bytes) :
    blockAt (pre ++ (blockBytes b ++ post)) pre.length = b := by
  funext j
  have hj : j.val < (blockBytes b).length := by rw [blockBytes_length]; exact j.isLt
  rw [blockAt, List.getD_eq_getElem?_getD, List.getElem?_append_right (by omega),
    Nat.add_sub_cancel_left, List.getElem?_append_left hj, List.getElem?_eq_getElem hj]
  simp only [blockBytes, List.getElem_ofFn]
  rfl

/-- Cutting the bytes of a list of blocks gives the blocks back. -/
theorem blocksFrom_flatMap (pre : Bytes) (bs : List Block) :
    blocksFrom (pre ++ bs.flatMap blockBytes) pre.length bs.length = bs := by
  induction bs generalizing pre with
  | nil => rfl
  | cons b bs ih =>
    have hn : pre.length + blockSize = (pre ++ blockBytes b).length := by simp
    have ht : pre ++ (blockBytes b ++ bs.flatMap blockBytes) =
        pre ++ blockBytes b ++ bs.flatMap blockBytes := by rw [List.append_assoc]
    rw [List.length_cons, blocksFrom_succ, List.flatMap_cons, blockAt_append, hn, ht, ih]

theorem blockBytes_blockAt (data : Bytes) (off : Nat) (h : off + blockSize ≤ data.length) :
    blockBytes (blockAt data off) = (data.drop off).take blockSize := by
  unfold blockSize at h
  apply List.ext_getElem
  · simp [blockSize]; omega
  · intro i h1 h2
    have hi : i < 16 := by simpa [blockSize] using h1
    simp only [blockBytes, blockAt, List.getElem_ofFn, List.getElem_take, List.getElem_drop]
    rw [List.getD_eq_getElem?_getD, List.getElem?_eq_getElem (by omega)]
    rfl

/-- The blocks of a byte string of whole blocks are its bytes. -/
theorem flatMap_blocksFrom (data : Bytes) (off n : Nat) (h : data.length = off + n * blockSize) :
    (blocksFrom data off n).flatMap blockBytes = data.drop off := by
  induction n generalizing off with
  | zero =>
    rw [List.drop_eq_nil_of_le (by omega)]
    rfl
  | succ n ih =>
    rw [Nat.add_one_mul] at h
    rw [blocksFrom_succ, List.flatMap_cons, ih (off + blockSize) (by omega),
      blockBytes_blockAt data off (by omega), ← List.drop_drop, List.take_append_drop]

theorem flatMap_blockBytes_length (bs : List Block) :
    (bs.flatMap blockBytes).length = bs.length * blockSize := by
  induction bs with
  | nil => simp
  | cons b bs ih => rw [List.flatMap_cons, List.length_append, ih, blockBytes_length,
      List.length_cons, Nat.add_one_mul, Nat.add_comm]

/-! ## `encrypt` and `decrypt` -/

/-- `ARIAAlgorithm::encrypt`, under the IV that was drawn. -/
def ariaEncrypt (key : Bytes) (iv : Block) (data : Bytes) : Bytes :=
  let padded := pkcs7Pad data
  let numBlocks := padded.length / blockSize
  let keyBits := key.length * 8
  let R := numRounds keyBits
  let roundKeys := encKeySetup key keyBits
  blockBytes iv ++
    (cbcEnc xorBlock (fun x => crypt x R roundKeys) iv
      (blocksFrom padded 0 numBlocks)).flatMap blockBytes

/-- `ARIAAlgorithm::decrypt`: the empty vector on every malformed input. -/
def ariaDecrypt (key : Bytes) (data : Bytes) : Bytes :=
  if data.length < 2 * blockSize then []
  else
    let iv := blockAt data 0
    let cipherLen := data.length - blockSize
    if cipherLen % blockSize ≠ 0 then []
    else
      let numBlocks := cipherLen / blockSize
      let keyBits := key.length * 8
      let R := numRounds keyBits
      let roundKeys := decKeySetup key keyBits
      let decrypted := (cbcDec xorBlock (fun x => crypt x R roundKeys) iv
        (blocksFrom data blockSize numBlocks)).flatMap blockBytes
      let unpadded := pkcs7Unpad decrypted
      if unpadded.isEmpty && !decrypted.isEmpty then [] else unpadded

/-- The key sizes of ARIA, in bytes. -/
def KeySize (n : Nat) : Prop := n = 16 ∨ n = 24 ∨ n = 32

instance : DecidablePred KeySize := fun _ => inferInstanceAs (Decidable (_ ∨ _ ∨ _))

theorem ariaEncrypt_length (key : Bytes) (iv : Block) (data : Bytes) :
    (ariaEncrypt key iv data).length = blockSize + (data.length + padLen data.length) := by
  have hmod := padLen_add_mod data.length
  have hl := pkcs7Pad_length data
  unfold ariaEncrypt
  dsimp only
  rw [List.length_append, blockBytes_length, flatMap_blockBytes_length, cbcEnc_length, blocksFrom,
    List.length_map, List.length_range, hl, Nat.div_mul_cancel (Nat.dvd_of_mod_eq_zero hmod)]

/-- Decryption undoes encryption, for every IV. -/
theorem ariaDecrypt_ariaEncrypt (key : Bytes) (hk : KeySize key.length) (iv : Block)
    (data : Bytes) : ariaDecrypt key (ariaEncrypt key iv data) = data := by
  have hmod := padLen_add_mod data.length
  have hpos := padLen_pos data.length
  have hle := ariaEncrypt_length key iv data
  have hl := pkcs7Pad_length data
  generalize hps : blocksFrom (pkcs7Pad data) 0 ((pkcs7Pad data).length / blockSize) = ps
  generalize hE : (fun x => crypt x (numRounds (key.length * 8))
    (encKeySetup key (key.length * 8))) = E
  have henc : ariaEncrypt key iv data =
      blockBytes iv ++ (cbcEnc xorBlock E iv ps).flatMap blockBytes := by
    rw [← hps, ← hE]; rfl
  have hiv : blockAt (ariaEncrypt key iv data) 0 = iv := by
    rw [henc]
    exact blockAt_append [] iv _
  have hn : ((ariaEncrypt key iv data).length - blockSize) / blockSize = ps.length := by
    rw [hle, Nat.add_sub_cancel_left, ← hl, ← hps]
    simp [blocksFrom]
  have hcs : blocksFrom (ariaEncrypt key iv data) blockSize ps.length =
      cbcEnc xorBlock E iv ps := by
    have h := blocksFrom_flatMap (blockBytes iv) (cbcEnc xorBlock E iv ps)
    rwa [blockBytes_length, cbcEnc_length, ← henc] at h
  have hpad : ps.flatMap blockBytes = pkcs7Pad data := by
    rw [← hps]
    exact flatMap_blocksFrom _ 0 _ (by
      rw [Nat.zero_add, hl, Nat.div_mul_cancel (Nat.dvd_of_mod_eq_zero hmod)])
  have hdec : cbcDec xorBlock (fun x => crypt x (numRounds (key.length * 8))
      (decKeySetup key (key.length * 8))) iv (cbcEnc xorBlock E iv ps) = ps := by
    apply cbcDec_cbcEnc xorBlock_cancel_right
    intro x
    rw [← hE]
    exact crypt_decKeys_encKeys key key.length hk x
  have h16 : blockSize = 16 := rfl
  rw [h16] at hmod
  unfold ariaDecrypt
  dsimp only
  rw [if_neg (by rw [hle, h16]; omega), if_neg (by rw [hle, h16]; omega), hn, hcs, hiv, hdec, hpad,
    pkcs7Unpad_pkcs7Pad]
  cases data with
  | nil => simp
  | cons b bs => simp

/-! ## What `decrypt` accepts -/

/-- The checks of `decrypt` on an input that it accepts. -/
theorem ariaDecrypt_cases {key c : Bytes} (h : ariaDecrypt key c ≠ []) :
    2 * blockSize ≤ c.length ∧ (c.length - blockSize) % blockSize = 0 ∧
      ariaDecrypt key c = pkcs7Unpad
        ((cbcDec xorBlock
          (fun x => crypt x (numRounds (key.length * 8)) (decKeySetup key (key.length * 8)))
          (blockAt c 0)
          (blocksFrom c blockSize ((c.length - blockSize) / blockSize))).flatMap blockBytes) := by
  unfold ariaDecrypt at h ⊢
  dsimp only at h ⊢
  split at h
  · exact absurd rfl h
  · rename_i hshort
    split at h
    · exact absurd rfl h
    · rename_i hblocks
      rw [if_neg hshort, if_neg hblocks]
      split at h
      · exact absurd rfl h
      · rename_i hunpad
        rw [if_neg hunpad]
        exact ⟨by omega, by omega, rfl⟩

/-- Encrypting under the IV in front of an accepted ciphertext gives the ciphertext back. -/
theorem ariaEncrypt_ariaDecrypt {key : Bytes} (hk : KeySize key.length) {c : Bytes}
    (h : ariaDecrypt key c ≠ []) : ariaEncrypt key (blockAt c 0) (ariaDecrypt key c) = c := by
  obtain ⟨hlen, hmod, hdec⟩ := ariaDecrypt_cases h
  generalize hn : (c.length - blockSize) / blockSize = n at hdec
  generalize hps : cbcDec xorBlock
    (fun x => crypt x (numRounds (key.length * 8)) (decKeySetup key (key.length * 8)))
    (blockAt c 0) (blocksFrom c blockSize n) = ps at hdec
  have hpad : pkcs7Pad (ariaDecrypt key c) = ps.flatMap blockBytes := by
    rw [hdec] at h ⊢
    exact pkcs7Pad_pkcs7Unpad h
  have hcount : ps.length = n := by
    rw [← hps, cbcDec_length, blocksFrom, List.length_map, List.length_range]
  have hblocks : blocksFrom (ps.flatMap blockBytes) 0
      ((ps.flatMap blockBytes).length / blockSize) = ps := by
    rw [flatMap_blockBytes_length, Nat.mul_div_cancel _ (by decide)]
    exact blocksFrom_flatMap [] ps
  have henc : cbcEnc xorBlock
      (fun x => crypt x (numRounds (key.length * 8)) (encKeySetup key (key.length * 8)))
      (blockAt c 0) ps = blocksFrom c blockSize n := by
    rw [← hps]
    exact cbcEnc_cbcDec xorBlock_cancel_right (crypt_encKeys_decKeys key key.length hk) _ _
  have hsize : c.length = blockSize + n * blockSize := by
    have := Nat.div_mul_cancel (Nat.dvd_of_mod_eq_zero hmod)
    rw [hn] at this
    omega
  unfold ariaEncrypt
  dsimp only
  rw [hpad, hblocks, henc, flatMap_blocksFrom c blockSize n hsize,
    blockBytes_blockAt c 0 (by omega), List.drop_zero, List.take_append_drop]

/-- `decrypt` accepts only what `encrypt` gives: the input has at least two blocks and whole
    blocks only, its plaintext encrypted under its IV is the input, and so no other input with
    that IV has this plaintext. -/
theorem unique_decoding (key : Bytes) (hk : KeySize key.length) (c : Bytes)
    (h : ariaDecrypt key c ≠ []) :
    2 * blockSize ≤ c.length ∧ c.length % blockSize = 0 ∧
    ariaEncrypt key (blockAt c 0) (ariaDecrypt key c) = c ∧
    ∀ c', blockAt c' 0 = blockAt c 0 → ariaDecrypt key c' = ariaDecrypt key c → c' = c := by
  obtain ⟨hlen, hmod, -⟩ := ariaDecrypt_cases h
  have hback := ariaEncrypt_ariaDecrypt hk h
  refine ⟨hlen, ?_, hback, fun c' hiv hdec => ?_⟩
  · unfold blockSize at *
    omega
  · have hback' := ariaEncrypt_ariaDecrypt (c := c') hk (by rwa [hdec])
    rw [hiv, hdec, hback] at hback'
    exact hback'.symm

/-- The encryption of one byte under a key of 16 zeros. -/
theorem unique_decoding_byte :
    ∃ c, ariaDecrypt (List.replicate 16 0) c ≠ [] ∧ 2 * blockSize ≤ c.length ∧
      c.length % blockSize = 0 ∧
      ariaEncrypt (List.replicate 16 0) (blockAt c 0) (ariaDecrypt (List.replicate 16 0) c) = c ∧
      ∀ c', blockAt c' 0 = blockAt c 0 →
        ariaDecrypt (List.replicate 16 0) c' = ariaDecrypt (List.replicate 16 0) c → c' = c := by
  have hplain := ariaDecrypt_ariaEncrypt (List.replicate 16 0) (by decide) zeroBlock [0x41]
  have hne : ariaDecrypt (List.replicate 16 0)
      (ariaEncrypt (List.replicate 16 0) zeroBlock [0x41]) ≠ [] := by
    rw [hplain]
    exact List.cons_ne_nil _ _
  exact ⟨_, hne, unique_decoding (List.replicate 16 0) (by decide) _ hne⟩

end CdsGuard.Packet
