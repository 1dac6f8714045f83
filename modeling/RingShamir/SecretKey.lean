import RingShamir.Parameters.Draft
import RingShamir.Random.Binomial

/-!
# Secret keys

A secret key is a polynomial with integer coefficients, usually -1, 0 and 1.
It is embedded into the rings of its parameters by reducing each coefficient
modulo each prime.

Main results:

- Theorem `ofCoefficients_of_length`: coefficients in the right number make a
  key.
- Theorem `length_erase`: erasing keeps the number of coefficients.
-/

namespace RingShamir

/-- A secret key for given parameters. -/
structure SecretKey where
  /-- The parameters. -/
  parameters : Parameters
  /-- The coefficients. -/
  coefficients : List Int
deriving DecidableEq

namespace SecretKey

/-- The key with given coefficients. -/
def ofCoefficients (par : Parameters) (v : List Int) : Outcome SchemeError SecretKey :=
  if v.length ≠ par.degree then
    let expected := par.degree
    let found := v.length
    Outcome.fail (.other s!"Expected {expected} coefficients, found {found}")
  else pure ⟨par, v⟩

theorem ofCoefficients_of_length {par : Parameters} {v : List Int}
    (h : v.length = par.degree) : ofCoefficients par v = .ok ⟨par, v⟩ := by
  simp [ofCoefficients, h, pure, Except.pure]

/-- Draw a key of independent coefficients that are one with probability 1/4,
minus one with probability 1/4, and else zero. -/
def random (par : Parameters) : Action SchemeError WordStream SecretKey := do
  let v ← Binomial.draw 1 par.degree
  ofCoefficients par v

/-- The key as a polynomial over the ciphertext moduli up to a level. -/
def toPlain (key : SecretKey) (l : Nat) : Outcome SchemeError RnsPoly := do
  let b ← key.parameters.basisAt l
  (RnsPoly.ofInts b key.coefficients).mapError SchemeError.ofRing

/-- The key as an element over the ciphertext moduli and the auxiliary moduli. -/
def toExtended (key : SecretKey) : Outcome SchemeError ExtendedPoly := do
  let chain := key.parameters.extended
  let main ← (RnsPoly.ofInts chain.main key.coefficients).mapError SchemeError.ofRing
  match chain.aux with
  | none => pure ⟨main, none⟩
  | some p =>
      let aux ← (RnsPoly.ofInts p key.coefficients).mapError SchemeError.ofRing
      pure ⟨main, some aux⟩

/-- Overwrite all coefficients by zero. -/
def erase (key : SecretKey) : SecretKey :=
  { key with coefficients := key.coefficients.map fun _ => 0 }

@[simp] theorem length_erase (key : SecretKey) :
    key.erase.coefficients.length = key.coefficients.length := by
  simp [erase]

end SecretKey

end RingShamir
