import RingShamir.Text.Structured

/-!
# Errors

The errors of the library, by the part that reports them: arithmetic over
chains of moduli (`RingError`), the choice of parameters (`ParameterError`),
and secret sharing (`SchemeError`), which passes on the errors of the other
two.  Each error has a message for its reader and a structured text for
diagnosis.

Main results:

- Theorem `SchemeError.ofRing_levelMismatch` and `SchemeError.ofRing_of_ne`: a
  mismatch of levels is passed on as the sharing error of the same text, any
  other arithmetic error is wrapped.
-/

namespace RingShamir

/-- Errors of arithmetic over a chain of moduli. -/
inductive RingError where
  /-- A modulus is not a number from 2 to `2 ^ 62 - 1`. -/
  | invalidModulus (modulus : UInt64)
  /-- Bytes do not encode a ring element. -/
  | serialization (text : String)
  /-- No modulus is left to drop. -/
  | noLowerLevel
  /-- An element does not live on the chain. -/
  | invalidContext
  /-- Operands live at different levels of the chain. -/
  | levelMismatch (text : String)
  /-- An argument is not acceptable for the reason stated. -/
  | other (text : String)
deriving DecidableEq

/-- Errors of the choice of parameters. -/
inductive ParameterError where
  /-- The degree is not a power of two from 8 on. -/
  | invalidDegree (degree : Nat)
  /-- A size of a modulus is outside the range of sizes. -/
  | invalidModulusSize (size low high : Nat)
  /-- There are too few primes of a size. -/
  | notEnoughPrimes (size degree : Nat)
  /-- The moduli are not acceptable for the reason stated. -/
  | invalidModuli (text : String)
  /-- Two choices exclude each other. -/
  | tooManySpecified (text : String)
  /-- A choice is missing. -/
  | tooFewSpecified (text : String)
deriving DecidableEq

/-- Errors of secret sharing. -/
inductive SchemeError where
  /-- Arithmetic reported an error. -/
  | ring (error : RingError)
  /-- The choice of parameters reported an error. -/
  | parameters (error : ParameterError)
  /-- A threshold is zero. -/
  | invalidThreshold (threshold : Nat)
  /-- Operands live at different levels of the chain. -/
  | levelMismatch (text : String)
  /-- Fewer parties than the threshold are active. -/
  | insufficientParties (active threshold : Nat)
  /-- A public point cannot be used. -/
  | invalidPublicPoint (point : UInt64)
  /-- A public point was not declared to the combiner. -/
  | unknownPublicPoint (point : UInt64)
  /-- A public point occurs twice in a quorum. -/
  | duplicatePublicPoint (point : UInt64)
  /-- A party combines for a quorum that it is not in. -/
  | publicPointNotInQuorum (point : UInt64)
  /-- An argument is not acceptable for the reason stated. -/
  | other (text : String)
deriving DecidableEq

namespace RingError

/-- The message of an arithmetic error. -/
def message : RingError → String
  | invalidModulus m =>
      s!"Invalid modulus: modulus {m} should be between 2 and (1 << 62) - 1."
  | serialization text => text
  | noLowerLevel => "This is the last level"
  | invalidContext => "Invalid context provided."
  | levelMismatch text => s!"Level mismatch: {text}"
  | other text => text

/-- The name of the kind of an arithmetic error. -/
def kind : RingError → String
  | invalidModulus _ => "InvalidModulus"
  | serialization _ => "Serialization"
  | noLowerLevel => "NoMoreContext"
  | invalidContext => "InvalidContext"
  | levelMismatch _ => "LevelMismatch"
  | other _ => "Default"

/-- The structured text of an arithmetic error. -/
def debugText (e : RingError) : String :=
  match e with
  | invalidModulus m => Text.tagged e.kind [toString m]
  | serialization text | levelMismatch text | other text =>
      Text.tagged e.kind [Text.quoted text]
  | noLowerLevel | invalidContext => e.kind

end RingError

namespace ParameterError

/-- The message of a parameter error. -/
def message : ParameterError → String
  | invalidDegree degree => s!"Invalid degree: {degree} is not a power of 2 larger than 8"
  | invalidModulusSize size low high =>
      s!"Invalid modulus size: {size}, expected an integer between {low} and {high}"
  | notEnoughPrimes size degree =>
      s!"Not enough primes of size {size} for polynomials of degree {degree}"
  | invalidModuli text => s!"Invalid moduli: {text}"
  | tooManySpecified text => text
  | tooFewSpecified text => text

/-- The name of the kind of a parameter error. -/
def kind : ParameterError → String
  | invalidDegree _ => "InvalidDegree"
  | invalidModulusSize .. => "InvalidModulusSize"
  | notEnoughPrimes .. => "NotEnoughPrimes"
  | invalidModuli _ => "InvalidModuli"
  | tooManySpecified _ => "TooManySpecified"
  | tooFewSpecified _ => "TooFewSpecified"

/-- The structured text of a parameter error. -/
def debugText (e : ParameterError) : String :=
  match e with
  | invalidDegree degree => Text.tagged e.kind [toString degree]
  | invalidModulusSize size low high =>
      Text.tagged e.kind [toString size, toString low, toString high]
  | notEnoughPrimes size degree => Text.tagged e.kind [toString size, toString degree]
  | invalidModuli text | tooManySpecified text | tooFewSpecified text =>
      Text.tagged e.kind [Text.quoted text]

end ParameterError

namespace SchemeError

/-- Pass on an arithmetic error.  Mismatches of levels are the caller's own
kind of error and keep their text. -/
def ofRing : RingError → SchemeError
  | .levelMismatch text => levelMismatch text
  | e => ring e

@[simp] theorem ofRing_levelMismatch (text : String) :
    ofRing (.levelMismatch text) = levelMismatch text := rfl

theorem ofRing_of_ne {e : RingError} (h : ∀ text, e ≠ .levelMismatch text) :
    ofRing e = ring e := by
  cases e <;> first | rfl | exact absurd rfl (h _)

/-- The message of a sharing error. -/
def message : SchemeError → String
  | ring e => e.message
  | parameters e => e.message
  | invalidThreshold n => s!"Invalid threshold {n}: the threshold should be at least 1"
  | levelMismatch text => s!"Level mismatch: {text}"
  | insufficientParties active threshold =>
      s!"Not enough active parties: {active} is below the threshold {threshold}"
  | invalidPublicPoint x => s!"Invalid public point {x}"
  | unknownPublicPoint x => s!"Unknown public point {x}"
  | duplicatePublicPoint x => s!"Duplicate public point {x}"
  | publicPointNotInQuorum x => s!"Public point {x} is not part of the quorum"
  | other text => text

/-- The name of the kind of a sharing error. -/
def kind : SchemeError → String
  | ring _ => "MathError"
  | parameters _ => "ParametersError"
  | invalidThreshold _ => "InvalidThreshold"
  | levelMismatch _ => "LevelMismatch"
  | insufficientParties .. => "InsufficientParties"
  | invalidPublicPoint _ => "InvalidPublicPoint"
  | unknownPublicPoint _ => "UnknownPublicPoint"
  | duplicatePublicPoint _ => "DuplicatePublicPoint"
  | publicPointNotInQuorum _ => "PublicPointNotInQuorum"
  | other _ => "DefaultError"

/-- The structured text of a sharing error. -/
def debugText (e : SchemeError) : String :=
  match e with
  | ring inner => Text.tagged e.kind [inner.debugText]
  | parameters inner => Text.tagged e.kind [inner.debugText]
  | invalidThreshold n => Text.tagged e.kind [toString n]
  | levelMismatch text | other text => Text.tagged e.kind [Text.quoted text]
  | insufficientParties active threshold =>
      Text.tagged e.kind [toString active, toString threshold]
  | invalidPublicPoint x | unknownPublicPoint x | duplicatePublicPoint x
  | publicPointNotInQuorum x => Text.tagged e.kind [toString x]

end SchemeError

end RingShamir
