import RingShamir.Chain.Class

/-!
# The chain of a single basis

The chain of all levels of one basis.  Its elements are polynomials, and the
level of an element is the level of its basis.

Main results:

- Theorem `levelOf_eq_ok`: an element is on the chain when its basis is a prefix
  of the chain's basis.
-/

namespace RingShamir

/-- The chain of the levels of one basis. -/
structure PlainChain where
  /-- The basis of the highest level. -/
  basis : RnsBasis
deriving DecidableEq

namespace PlainChain

/-- The level of a polynomial on the chain. -/
def levelOf (c : PlainChain) (a : RnsPoly) : Outcome RingError Nat :=
  if a.basis.isPrefixOf c.basis then pure a.level else Outcome.fail .invalidContext

theorem levelOf_eq_ok {c : PlainChain} {a : RnsPoly} {l : Nat} :
    c.levelOf a = .ok l ↔ a.basis.isPrefixOf c.basis = true ∧ a.level = l := by
  unfold levelOf Outcome.fail
  split <;> simp_all [pure, Except.pure]

/-- Check that two polynomials are on the chain at one level. -/
def checkSameLevel (c : PlainChain) (a b : RnsPoly) : Outcome RingError Unit := do
  let la ← c.levelOf a
  let lb ← c.levelOf b
  if la ≠ lb then Outcome.fail (.levelMismatch s!"{la} != {lb}") else pure ()

/-- The zero polynomial of a level. -/
def zeroAt (c : PlainChain) (l : Nat) : Outcome RingError RnsPoly := do
  RnsPoly.zero (← c.basis.atLevel l)

/-- Sample a uniform polynomial of a level. -/
def randomAt (c : PlainChain) (l : Nat) : Action RingError WordStream RnsPoly := do
  RnsPoly.random (← c.basis.atLevel l)

/-- Store the sum of two polynomials in the output. -/
def addInto (c : PlainChain) (a b : RnsPoly) : Action RingError RnsPoly Unit := do
  c.checkSameLevel a b
  c.checkSameLevel a (← get)
  RnsPoly.addInto a b

/-- Add a polynomial in place. -/
def addAssign (c : PlainChain) (b : RnsPoly) : Action RingError RnsPoly Unit := do
  c.checkSameLevel (← get) b
  RnsPoly.addAssign b

/-- Multiply a polynomial in place by a scalar in Montgomery form. -/
def scaleAssign (c : PlainChain) (s : Scalar) : Action RingError RnsPoly Unit := do
  let _ ← c.levelOf (← get)
  RnsPoly.scaleAssign s.limbs

/-- The polynomial of a level that is encoded by bytes. -/
def decode (c : PlainChain) (bytes : List UInt8) (l : Nat) : Outcome RingError RnsPoly := do
  RnsPoly.decode (← c.basis.atLevel l) bytes

instance : ResidueChain PlainChain RnsPoly Nat where
  levelText _ l := toString l
  elementSize := RnsPoly.footprint
  moduli c := c.basis.operators
  maxLevel c := c.basis.level
  levelOf := levelOf
  zeroAt := zeroAt
  randomAt := randomAt
  addInto := addInto
  addAssign := addAssign
  scaleAssign := scaleAssign
  decode := decode

end PlainChain

end RingShamir
