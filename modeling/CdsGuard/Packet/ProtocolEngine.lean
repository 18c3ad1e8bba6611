import CdsGuard.Packet.ARIAAlgorithm

/-
  `ProtocolEngine` and its three modules. An engine runs its modules in order to encrypt and
  their reverses in the opposite order to decrypt. `generate_random_iv` is the one source of
  randomness: `ivs i` is the IV that the module in place `i` draws.

  Proved: `engine_decrypt_encrypt`, for every stack of modules within their parameter ranges
  and every choice of IVs, for the vector and for the span overloads. One module is undone by
  its own reverse (`reverse_process`); the stack is an induction over the modules.

  In the other direction the stack of `GetProtocolEngine` decodes what was never sent:
  `decodes_sent_iff` says of which byte strings.
-/

namespace CdsGuard.Packet

open CdsGuard.Lib

/-! ## The modules -/

/-- `ShiftModule(offset)`, `PaddingModule(pad)` or `EncryptionModule(key)`. -/
inductive ProtocolModule where
  | shift (offset : Int)
  | padding (pad : Bytes)
  | encryption (key : Bytes)
  deriving DecidableEq

namespace ProtocolModule

/-- `IProtocolModule::process`, under the IV drawn. -/
def process (iv : Block) : ProtocolModule → Bytes → Bytes
  | shift offset, data => data.map fun b => UInt8.ofInt (b.toNat + offset)
  | padding pad, data => pad ++ data
  | encryption key, data => ariaEncrypt key iv data

/-- `IProtocolModule::reverse`. A padding mismatch leaves the data as it is. -/
def reverse : ProtocolModule → Bytes → Bytes
  | shift offset, data => data.map fun b => UInt8.ofInt (b.toNat - offset)
  | padding pad, data => if pad.isPrefixOf data then data.drop pad.length else data
  | encryption key, data => ariaDecrypt key data

/-- The parameter is one the module is meant for: an offset that is a byte, a key of an ARIA
    key size. -/
def WellFormed : ProtocolModule → Prop
  | shift offset => 0 ≤ offset ∧ offset ≤ 255
  | padding _ => True
  | encryption key => KeySize key.length

instance : DecidablePred WellFormed
  | shift offset => inferInstanceAs (Decidable (0 ≤ offset ∧ offset ≤ 255))
  | padding _ => inferInstanceAs (Decidable True)
  | encryption key => inferInstanceAs (Decidable (KeySize key.length))

theorem ofInt_sub_ofInt_add (b : UInt8) (offset : Int) :
    UInt8.ofInt ((UInt8.ofInt (b.toNat + offset)).toNat - offset) = b := by
  have hb := b.toNat_lt
  apply UInt8.toNat.inj
  simp only [UInt8.ofInt, UInt8.toNat_ofNat']
  omega

theorem reverse_process (m : ProtocolModule) (hm : m.WellFormed) (iv : Block) (data : Bytes) :
    m.reverse (m.process iv data) = data := by
  cases m with
  | shift offset =>
    rw [process, reverse, List.map_map]
    conv_rhs => rw [← List.map_id data]
    apply List.map_congr_left
    intro b _
    exact ofInt_sub_ofInt_add b offset
  | padding pad =>
    have hp : pad.isPrefixOf (pad ++ data) = true :=
      List.isPrefixOf_iff_prefix.mpr (List.prefix_append pad data)
    rw [process, reverse, if_pos hp, List.drop_left]
  | encryption key => exact ariaDecrypt_ariaEncrypt key hm iv data

end ProtocolModule

/-! ## The engine -/

/-- `std::span<const uint8_t>`: a window of a buffer that lies inside it. -/
structure Span where
  buf : Bytes
  off : Nat
  len : Nat
  inside : off + len ≤ buf.length

/-- `std::vector(data.begin(), data.end())`. -/
def Span.toVector (s : Span) : Bytes := (s.buf.drop s.off).take s.len

/-- The span of a whole vector. -/
def Span.ofVector (v : Bytes) : Span := ⟨v, 0, v.length, by omega⟩

@[simp] theorem Span.toVector_ofVector (v : Bytes) : (Span.ofVector v).toVector = v := by
  simp [Span.ofVector, Span.toVector]

structure ProtocolEngine where
  modules : List ProtocolModule
  deriving DecidableEq

namespace ProtocolEngine

/-- `ProtocolEngine::addModule`. -/
def addModule (e : ProtocolEngine) (m : ProtocolModule) : ProtocolEngine :=
  { e with modules := e.modules ++ [m] }

/-- The `for` loop of `encrypt`, from the module in place `i` on. -/
def processFrom (ivs : Nat → Block) : Nat → List ProtocolModule → Bytes → Bytes
  | _, [], tmp => tmp
  | i, m :: ms, tmp => processFrom ivs (i + 1) ms (m.process (ivs i) tmp)

/-- The `for` loop of `decrypt`, over the modules from the last to the first. -/
def reverseAll : List ProtocolModule → Bytes → Bytes
  | [], tmp => tmp
  | m :: ms, tmp => reverseAll ms (m.reverse tmp)

/-- `encrypt(const std::vector<uint8_t>&)`. -/
def encrypt (e : ProtocolEngine) (ivs : Nat → Block) (data : Bytes) : Bytes :=
  processFrom ivs 0 e.modules data

/-- `decrypt(const std::vector<uint8_t>&)`. -/
def decrypt (e : ProtocolEngine) (data : Bytes) : Bytes :=
  reverseAll e.modules.reverse data

/-- `encrypt(std::span<const uint8_t>)`. -/
def encryptSpan (e : ProtocolEngine) (ivs : Nat → Block) (data : Span) : Bytes :=
  processFrom ivs 0 e.modules data.toVector

/-- `decrypt(std::span<const uint8_t>)`. -/
def decryptSpan (e : ProtocolEngine) (data : Span) : Bytes :=
  reverseAll e.modules.reverse data.toVector

/-- Every module of the stack is within its parameter range. -/
def WellFormed (e : ProtocolEngine) : Prop := ∀ m ∈ e.modules, m.WellFormed

instance : DecidablePred WellFormed := fun e =>
  inferInstanceAs (Decidable (∀ m ∈ e.modules, m.WellFormed))

theorem reverseAll_append (ms ns : List ProtocolModule) (tmp : Bytes) :
    reverseAll (ms ++ ns) tmp = reverseAll ns (reverseAll ms tmp) := by
  induction ms generalizing tmp with
  | nil => rfl
  | cons m ms ih => rw [List.cons_append, reverseAll, reverseAll, ih]

/-- The last module to run is the first to be undone, so the first module of the stack is
    peeled off on the outside. -/
theorem reverseAll_processFrom (ivs : Nat → Block) (ms : List ProtocolModule)
    (hms : ∀ m ∈ ms, m.WellFormed) (i : Nat) (data : Bytes) :
    reverseAll ms.reverse (processFrom ivs i ms data) = data := by
  induction ms generalizing i data with
  | nil => rfl
  | cons m ms ih =>
    have htail := ih (fun n hn => hms n (List.mem_cons_of_mem m hn)) (i + 1)
      (m.process (ivs i) data)
    rw [List.reverse_cons, reverseAll_append, processFrom, htail, reverseAll, reverseAll]
    exact m.reverse_process (hms m List.mem_cons_self) (ivs i) data

theorem decrypt_encrypt (e : ProtocolEngine) (he : e.WellFormed) (ivs : Nat → Block)
    (data : Bytes) : e.decrypt (e.encrypt ivs data) = data :=
  reverseAll_processFrom ivs e.modules he 0 data

theorem decryptSpan_encryptSpan (e : ProtocolEngine) (he : e.WellFormed) (ivs : Nat → Block)
    (data received : Span) (h : received.toVector = e.encryptSpan ivs data) :
    e.decryptSpan received = data.toVector := by
  rw [decryptSpan, h]
  exact reverseAll_processFrom ivs e.modules he 0 data.toVector

end ProtocolEngine

/-- `GetProtocolEngine`, the same in the gateway and in the receiver. -/
def getProtocolEngine : ProtocolEngine :=
  ((ProtocolEngine.mk []).addModule (.shift 8)
    |>.addModule (.encryption (List.replicate 32 0x01))).addModule (.padding [0, 0, 0, 0])

theorem getProtocolEngine_wellFormed : getProtocolEngine.WellFormed := by decide

/-- Decryption undoes encryption for every stack of modules and every choice of IVs: for the
    vector overloads, for the span overloads on any span that holds the encrypted bytes, and for
    `ARIAAlgorithm` alone. -/
theorem engine_decrypt_encrypt (e : ProtocolEngine) (he : e.WellFormed) (ivs : Nat → Block) :
    (∀ data : Bytes, e.decrypt (e.encrypt ivs data) = data) ∧
    (∀ data received : Span, received.toVector = e.encryptSpan ivs data →
      e.decryptSpan received = data.toVector) ∧
    (∀ (key : Bytes) (iv : Block) (data : Bytes), KeySize key.length →
      ariaDecrypt key (ariaEncrypt key iv data) = data) := by
  refine ⟨fun data => e.decrypt_encrypt he ivs data, fun data received h => ?_,
    fun key iv data hk => ariaDecrypt_ariaEncrypt key hk iv data⟩
  exact e.decryptSpan_encryptSpan he ivs data received h

/-- The engine of the deployed programs with all-zero IVs: the empty byte string, the span of
    three bytes, and ARIA alone under its 16-byte zero key. -/
theorem engine_decrypt_encrypt_deployed :
    getProtocolEngine.decrypt (getProtocolEngine.encrypt (fun _ _ => 0) []) = [] ∧
    getProtocolEngine.decryptSpan (Span.ofVector
      (getProtocolEngine.encryptSpan (fun _ _ => 0) (Span.ofVector [1, 2, 3]))) = [1, 2, 3] ∧
    ariaDecrypt (List.replicate 16 0) (ariaEncrypt (List.replicate 16 0) (fun _ => 0) [7]) =
      [7] := by
  obtain ⟨hvec, hspan, haria⟩ :=
    engine_decrypt_encrypt getProtocolEngine (by decide) (fun _ _ => 0)
  refine ⟨hvec [], ?_, haria _ _ _ (by decide)⟩
  exact hspan (Span.ofVector [1, 2, 3]) _ (Span.toVector_ofVector _)

/-! ## What the receiving engine accepts -/

/-- The prefix that `GetProtocolEngine` gives to its `PaddingModule`. -/
def paddingPrefix : Bytes := [0, 0, 0, 0]

/-- The stack of `GetProtocolEngine` under an encryption key. -/
def protocolStack (key : Bytes) : ProtocolEngine :=
  ((ProtocolEngine.mk []).addModule (.shift 8)
    |>.addModule (.encryption key)).addModule (.padding paddingPrefix)

theorem getProtocolEngine_eq : getProtocolEngine = protocolStack (List.replicate 32 0x01) := rfl

section

variable (key : Bytes)

/-- `ShiftModule(8)`. -/
def shifted (data : Bytes) : Bytes := (ProtocolModule.shift 8).process (fun _ => 0) data

def unshifted (data : Bytes) : Bytes := (ProtocolModule.shift 8).reverse data

theorem shifted_unshifted (data : Bytes) : shifted (unshifted data) = data := by
  unfold shifted unshifted
  rw [ProtocolModule.reverse, ProtocolModule.process, List.map_map]
  conv_rhs => rw [← List.map_id data]
  apply List.map_congr_left
  intro b _
  have hb := b.toNat_lt
  apply UInt8.toNat.inj
  simp only [Function.comp_apply, UInt8.ofInt, UInt8.toNat_ofNat', id_eq]
  omega

theorem unshifted_eq_nil_iff {data : Bytes} : unshifted data = [] ↔ data = [] :=
  List.map_eq_nil_iff

/-- The sender's wire format: the prefix, and the encryption of the shifted data, which begins
    with its IV. -/
theorem protocolStack_encrypt (ivs : Nat → Block) (data : Bytes) :
    (protocolStack key).encrypt ivs data =
      paddingPrefix ++ ariaEncrypt key (ivs 1) (shifted data) := rfl

/-- Behind the prefix, or on the whole input when there is none, `ARIAAlgorithm` decides. -/
theorem protocolStack_decrypt (w : Bytes) :
    (protocolStack key).decrypt w = unshifted (ariaDecrypt key
      (if paddingPrefix.isPrefixOf w then w.drop paddingPrefix.length else w)) := rfl

/-- The engine decodes nothing, or what the sender's engine can have made `w` of. -/
def DecodesSent (e : ProtocolEngine) (w : Bytes) : Prop :=
  e.decrypt w ≠ [] → ∃ ivs, e.encrypt ivs (e.decrypt w) = w

/-- Behind the prefix nothing is decoded but what was sent. -/
theorem decodesSent_of_pad (hk : KeySize key.length) {w : Bytes} (hw : paddingPrefix <+: w) :
    DecodesSent (protocolStack key) w := by
  intro hne
  obtain ⟨c, rfl⟩ := hw
  have hpre : paddingPrefix.isPrefixOf (paddingPrefix ++ c) = true :=
    List.isPrefixOf_iff_prefix.mpr (List.prefix_append _ _)
  have hdec : (protocolStack key).decrypt (paddingPrefix ++ c) =
      unshifted (ariaDecrypt key c) := by
    rw [protocolStack_decrypt, if_pos hpre, List.drop_left]
  rw [hdec] at hne ⊢
  have hplain : ariaDecrypt key c ≠ [] := fun h => hne (unshifted_eq_nil_iff.mpr h)
  refine ⟨fun _ => blockAt c 0, ?_⟩
  rw [protocolStack_encrypt, shifted_unshifted, ariaEncrypt_ariaDecrypt hk hplain]

/-- What is sent has the prefix. -/
theorem prefix_of_encrypt {ivs : Nat → Block} {data w : Bytes}
    (h : (protocolStack key).encrypt ivs data = w) : paddingPrefix <+: w := by
  rw [← h, protocolStack_encrypt]
  exact List.prefix_append _ _

/-- Without the prefix an encryption of anything but the empty vector is decoded all the same. -/
theorem decrypt_of_noPrefix (hk : KeySize key.length) {w : Bytes} (hw : ¬paddingPrefix <+: w) :
    (protocolStack key).decrypt w ≠ [] ↔ ∃ iv data, data ≠ [] ∧ w = ariaEncrypt key iv data := by
  have hpre : ¬paddingPrefix.isPrefixOf w = true :=
    fun h => hw (List.isPrefixOf_iff_prefix.mp h)
  rw [protocolStack_decrypt, if_neg hpre, Ne, unshifted_eq_nil_iff]
  constructor
  · intro hne
    exact ⟨blockAt w 0, ariaDecrypt key w, hne, (ariaEncrypt_ariaDecrypt hk hne).symm⟩
  · intro ⟨iv, data, hne, hdata⟩
    rw [hdata, ariaDecrypt_ariaEncrypt key hk]
    exact hne

/-- For every 32-byte key and every span: what the engine decodes was sent exactly when the span
    has the prefix, or is no IV with the ciphertext of a nonempty plaintext. -/
theorem decodes_sent_iff (hk : key.length = 32) (w : Span) :
    ((protocolStack key).decryptSpan w ≠ [] → ∃ ivs,
        (protocolStack key).encrypt ivs ((protocolStack key).decryptSpan w) = w.toVector) ↔
      paddingPrefix <+: w.toVector ∨
        ¬∃ iv data, data ≠ [] ∧ w.toVector = ariaEncrypt key iv data := by
  have hsize : KeySize key.length := .inr (.inr hk)
  change DecodesSent (protocolStack key) w.toVector ↔ _
  constructor
  · intro h
    by_contra hno
    obtain ⟨hpad, hplain⟩ := not_or.mp hno
    have hne := (decrypt_of_noPrefix key hsize hpad).mpr (not_not.mp hplain)
    obtain ⟨ivs, hsent⟩ := h hne
    exact hpad (prefix_of_encrypt key hsent)
  · intro h hne
    obtain hpad | hplain := h
    · exact decodesSent_of_pad key hsize hpad hne
    · by_contra hno
      have hpad : ¬paddingPrefix <+: w.toVector :=
        fun hp => hno (decodesSent_of_pad key hsize hp hne)
      exact hplain ((decrypt_of_noPrefix key hsize hpad).mp hne)

end

/-- One byte that the deployed engine sent. -/
theorem decodes_sent_iff_byte :
    ∃ w : Span, (protocolStack (List.replicate 32 0x01)).decryptSpan w ≠ [] ∧
      ∃ ivs, (protocolStack (List.replicate 32 0x01)).encrypt ivs
        ((protocolStack (List.replicate 32 0x01)).decryptSpan w) = w.toVector := by
  generalize hw : getProtocolEngine.encrypt (fun _ _ => 0) [1] = w
  have hpad : paddingPrefix <+: (Span.ofVector w).toVector := by
    rw [Span.toVector_ofVector]
    exact prefix_of_encrypt _ hw
  have hne : (protocolStack (List.replicate 32 0x01)).decryptSpan (Span.ofVector w) ≠ [] := by
    have hdec := getProtocolEngine.decrypt_encrypt getProtocolEngine_wellFormed (fun _ _ => 0) [1]
    rw [hw] at hdec
    rw [ProtocolEngine.decryptSpan, Span.toVector_ofVector]
    exact ne_of_eq_of_ne hdec (List.cons_ne_nil _ _)
  exact ⟨_, hne, (decodes_sent_iff _ (by decide) _).mpr (.inl hpad) hne⟩

/-- A ciphertext of the deployed key, without the prefix in front. -/
def barePacket : Bytes := ariaEncrypt (List.replicate 32 0x01) (fun _ => 1) [9]

theorem barePacket_noPrefix : ¬paddingPrefix <+: barePacket := by
  intro h
  have hfirst : barePacket = 1 :: barePacket.tail := rfl
  rw [hfirst, paddingPrefix, List.cons_prefix_cons] at h
  exact absurd h.1 (by decide)

/-- The deployed engine decodes it, though no engine sends it. -/
theorem barePacket_decoded :
    getProtocolEngine.decrypt barePacket = [1] ∧
      (¬∃ ivs data, getProtocolEngine.encrypt ivs data = barePacket) ∧
      ¬DecodesSent getProtocolEngine barePacket := by
  have hpre : ¬paddingPrefix.isPrefixOf barePacket = true :=
    fun h => barePacket_noPrefix (List.isPrefixOf_iff_prefix.mp h)
  have hdec : getProtocolEngine.decrypt barePacket = [1] := by
    rw [getProtocolEngine_eq, protocolStack_decrypt, if_neg hpre, barePacket,
      ariaDecrypt_ariaEncrypt _ (by decide)]
    decide
  have hsent : ¬∃ ivs data, getProtocolEngine.encrypt ivs data = barePacket := by
    intro ⟨ivs, data, h⟩
    rw [getProtocolEngine_eq] at h
    exact barePacket_noPrefix (prefix_of_encrypt _ h)
  refine ⟨hdec, hsent, fun h => ?_⟩
  obtain ⟨ivs, h⟩ := h (by rw [hdec]; exact List.cons_ne_nil _ _)
  exact hsent ⟨ivs, _, h⟩

end CdsGuard.Packet
