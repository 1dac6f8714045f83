import RingShamir.Sharing.PublicPoint
import RingShamir.Sharing.Share

/-!
# Sharing polynomials

A dealer hides a secret as the constant coefficient of a polynomial whose other
coefficients are random ring elements.  The value at the public point of a party
is its share; as many shares as the polynomial has coefficients determine the
secret.

A public point that vanishes modulo some prime of the chain is refused, since
the share at that point would show the secret modulo that prime.

Main results:

- Theorem `threshold_pos`: a sharing polynomial has at least one coefficient.
- Theorem `lt_coefficientLimit_iff`: how many coefficients can be addressed.
-/

namespace RingShamir

/-- A polynomial with ring elements as coefficients: the secret and the random
coefficients in ascending order. -/
structure SharingPolynomial (E : Type) where
  /-- The constant coefficient. -/
  secret : E
  /-- The coefficients of the powers from the first on. -/
  masks : List E
deriving DecidableEq

namespace SharingPolynomial

variable {C E L : Type} [ResidueChain C E L] [DecidableEq L]

open ResidueChain

/-- The number of shares that determine the secret. -/
def threshold (p : SharingPolynomial E) : Nat :=
  p.masks.length + 1

theorem threshold_pos (p : SharingPolynomial E) : 0 < p.threshold :=
  Nat.succ_pos _

/-- Overwrite all coefficients by zero. -/
def erase [ResidueElement E] (p : SharingPolynomial E) : SharingPolynomial E where
  secret := ResidueElement.erase p.secret
  masks := p.masks.map ResidueElement.erase

/-- The structured text of a polynomial, which shows the threshold only. -/
def debugText (p : SharingPolynomial E) : String :=
  Text.partialRecord "ShamirPolynomial" [("threshold", toString p.threshold)]

/-! ## Dealing -/

/-- Sample `n` elements of a level. -/
def sampleMasks (chain : C) (l : L) : Nat → Action RingError WordStream (List E)
  | 0 => pure []
  | n + 1 => do
      let e ← randomAt chain l
      let rest ← sampleMasks chain l n
      pure (e :: rest)

/-- The number of coefficients from which on the list of them cannot be addressed. -/
def coefficientLimit (C : Type) {E L : Type} [ResidueChain C E L] : Nat :=
  (Word.addressLimit - 1) / elementSize C + 1

omit [DecidableEq L] in
/-- Below the limit a list of coefficients takes up a number of bytes that can be addressed. -/
theorem lt_coefficientLimit_iff {n : Nat} (h : 0 < elementSize C) :
    n < coefficientLimit C ↔ n * elementSize C < Word.addressLimit := by
  have hlimit : 0 < Word.addressLimit := by decide
  rw [coefficientLimit, Nat.lt_succ_iff, Nat.le_div_iff_mul_le h]
  omega

/-- Hide a secret in a polynomial with `threshold` coefficients, which have to be
addressable. -/
def generate (chain : C) (threshold : Nat) (secret : E) :
    Action SchemeError WordStream (SharingPolynomial E) := do
  if threshold < 1 then Action.fail (.invalidThreshold threshold)
  else
    let l ← (levelOf chain secret).mapError SchemeError.ofRing
    Action.require (threshold < coefficientLimit C)
    let masks ← (sampleMasks chain l (threshold - 1)).mapError SchemeError.ofRing
    pure ⟨secret, masks⟩

/-! ## Evaluation -/

/-- Check that elements are at a level. -/
def checkLevel (chain : C) (l : L) : List E → Outcome SchemeError Unit
  | [] => pure ()
  | e :: rest => do
      let le ← (levelOf chain e).mapError SchemeError.ofRing
      if le ≠ l then
        let expected := levelText chain l
        let found := levelText chain le
        Outcome.fail (.levelMismatch
          s!"Shamir polynomial with coefficients at levels {expected} and {found}")
      else checkLevel chain l rest

/-- The level of a polynomial, at which all its coefficients have to be. -/
def level (chain : C) (p : SharingPolynomial E) : Outcome SchemeError L := do
  let l ← (levelOf chain p.secret).mapError SchemeError.ofRing
  checkLevel chain l p.masks
  pure l

/-- The Montgomery form of a public point, which must not vanish modulo any
prime of the chain. -/
def pointScalar (chain : C) (x : PublicPoint) : Outcome SchemeError Scalar :=
  let s := Scalar.ofWord (moduli chain) x.value
  if s.limbs.contains 0 then Outcome.fail (.invalidPublicPoint x.value)
  else Scalar.toMontgomery (moduli chain) s

/-- Multiply an element by a scalar and add another element. -/
def hornerStep (chain : C) (s : Scalar) (c acc : E) : Outcome RingError E := do
  let scaled ← (scaleAssign chain s).applyTo acc
  (addAssign chain c).applyTo scaled

/-- The value of the polynomial with constant coefficient `c` and further
coefficients `cs` at the point whose Montgomery form is `s`. -/
def horner (chain : C) (s : Scalar) : E → List E → Outcome RingError E
  | c, [] => pure c
  | c, c' :: cs => do
      let acc ← horner chain s c' cs
      hornerStep chain s c acc

/-- The value of a polynomial at a public point. -/
def evaluate (chain : C) (x : PublicPoint) (p : SharingPolynomial E) :
    Outcome SchemeError E := do
  let s ← pointScalar chain x
  (horner chain s p.secret p.masks).mapError SchemeError.ofRing

/-- The share of a public point. -/
def shareAt (chain : C) (x : PublicPoint) (p : SharingPolynomial E) :
    Outcome SchemeError (Share E) := do
  let _ ← level chain p
  let e ← evaluate chain x p
  pure ⟨e⟩

/-- The shares of public points, in their order. -/
def sharesAt (chain : C) (xs : List PublicPoint) (p : SharingPolynomial E) :
    Outcome SchemeError (List (Share E)) := do
  let _ ← level chain p
  xs.mapM fun x => do
    let e ← evaluate chain x p
    pure ⟨e⟩

/-- Store the share of a public point in the output, which has to be at the
level of the polynomial. -/
def shareInto (chain : C) (x : PublicPoint) (p : SharingPolynomial E) :
    Action SchemeError (Share E) Unit := do
  let l ← level chain p
  let lo ← Share.levelOf chain (← get)
  if l ≠ lo then
    let expected := levelText chain l
    let found := levelText chain lo
    Action.fail (.levelMismatch
      s!"share at level {found} for a polynomial at level {expected}")
  else
    let e ← evaluate chain x p
    set (Share.mk e)

end SharingPolynomial

end RingShamir
