/-
  Cipher block chaining over an arbitrary block type. `cbcEnc E prev` encrypts a list of
  blocks from the chaining value `prev`, `cbcDec D prev` decrypts one. When `D` undoes `E` and
  the mixing operation cancels itself, decryption undoes encryption for every chaining
  value (`cbcDec_cbcEnc`), and the other way round (`cbcEnc_cbcDec`).
-/

namespace CdsGuard.Lib

variable {B : Type}

/-- CBC encryption: each block is mixed with the previous ciphertext block first. -/
def cbcEnc (mix : B → B → B) (E : B → B) : B → List B → List B
  | _, [] => []
  | prev, p :: ps =>
    let c := E (mix p prev)
    c :: cbcEnc mix E c ps

/-- CBC decryption: each deciphered block is mixed with the previous ciphertext block. -/
def cbcDec (mix : B → B → B) (D : B → B) : B → List B → List B
  | _, [] => []
  | prev, c :: cs => mix (D c) prev :: cbcDec mix D c cs

variable {mix : B → B → B} {E D : B → B}

@[simp] theorem cbcEnc_length (prev : B) (ps : List B) :
    (cbcEnc mix E prev ps).length = ps.length := by
  induction ps generalizing prev with
  | nil => rfl
  | cons p ps ih => simp [cbcEnc, ih]

@[simp] theorem cbcDec_length (prev : B) (cs : List B) :
    (cbcDec mix D prev cs).length = cs.length := by
  induction cs generalizing prev with
  | nil => rfl
  | cons c cs ih => simp [cbcDec, ih]

/-- Decryption undoes encryption under the same chaining value. -/
theorem cbcDec_cbcEnc (hmix : ∀ x y, mix (mix x y) y = x) (hDE : ∀ x, D (E x) = x)
    (prev : B) (ps : List B) : cbcDec mix D prev (cbcEnc mix E prev ps) = ps := by
  induction ps generalizing prev with
  | nil => rfl
  | cons p ps ih =>
    simp only [cbcEnc, cbcDec, hDE, hmix]
    rw [ih]

/-- Encryption undoes decryption under the same chaining value. -/
theorem cbcEnc_cbcDec (hmix : ∀ x y, mix (mix x y) y = x) (hED : ∀ x, E (D x) = x)
    (prev : B) (cs : List B) : cbcEnc mix E prev (cbcDec mix D prev cs) = cs := by
  induction cs generalizing prev with
  | nil => rfl
  | cons c cs ih =>
    simp only [cbcEnc, cbcDec, hED, hmix]
    rw [ih]

end CdsGuard.Lib
