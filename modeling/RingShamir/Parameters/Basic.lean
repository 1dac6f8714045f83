import RingShamir.Chain.Extended
import RingShamir.Chain.Plain

/-!
# Parameters

The parameters of a scheme are a degree, the ciphertext moduli and auxiliary
moduli, which may be absent, together with the chains that they span.
-/

namespace RingShamir

/-- The parameters of a scheme. -/
structure Parameters where
  /-- The number of coefficients of a polynomial. -/
  degree : Nat
  /-- The ciphertext moduli. -/
  moduli : List UInt64
  /-- The numbers of binary digits of the ciphertext moduli. -/
  sizes : List Nat
  /-- The auxiliary moduli. -/
  auxModuli : List UInt64
  /-- The chain of the ciphertext moduli. -/
  plain : PlainChain
  /-- The chain of the ciphertext moduli extended by the auxiliary moduli. -/
  extended : ExtendedChain
deriving DecidableEq

namespace Parameters

/-- The index of the last ciphertext modulus. -/
def maxLevel (par : Parameters) : Nat :=
  par.moduli.length - 1

/-- The basis of the ciphertext moduli up to a level. -/
def basisAt (par : Parameters) (l : Nat) : Outcome SchemeError RnsBasis :=
  (par.plain.basis.atLevel l).mapError SchemeError.ofRing

/-- The structured text of parameters. -/
def debugText (par : Parameters) : String :=
  Text.record "RlweParameters"
    [("polynomial_degree", toString par.degree), ("moduli", Text.words par.moduli),
      ("moduli_p", Text.words par.auxModuli)]

end Parameters

end RingShamir
