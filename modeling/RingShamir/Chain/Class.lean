import RingShamir.RnsPoly.Codec

/-!
# Chains of moduli

A chain of prime moduli, the elements represented over it limb by limb, and the
levels that say how much of the chain an element uses.  Code that shares
secrets is written against this interface.  Every operation on elements checks
that its operands are on the chain at one level before it touches its output.

Scalars of a chain have one limb for each modulus of the whole chain, whatever
the level of the elements they multiply.
-/

namespace RingShamir

/-- Elements that can be encoded and erased. -/
class ResidueElement (E : Type) where
  /-- The bytes of an element. -/
  encode : E → List UInt8
  /-- The zero element of the same shape. -/
  erase : E → E

/-- A chain of moduli of type `C` with elements of type `E` at levels of
type `L`. -/
class ResidueChain (C : Type) (E L : outParam Type) where
  /-- The text of a level. -/
  levelText : C → L → String
  /-- The number of bytes that an element takes up in a list of elements, its coefficients
  apart. -/
  elementSize : Nat
  /-- The moduli of the whole chain. -/
  moduli : C → List Modulus
  /-- The level of an element that uses the whole chain. -/
  maxLevel : C → L
  /-- The level of an element; elements that do not live on the chain have none. -/
  levelOf : C → E → Outcome RingError L
  /-- The zero element of a level. -/
  zeroAt : C → L → Outcome RingError E
  /-- Sample a uniform element of a level. -/
  randomAt : C → L → Action RingError WordStream E
  /-- Store the sum of two elements in the output. -/
  addInto : C → E → E → Action RingError E Unit
  /-- Add an element in place. -/
  addAssign : C → E → Action RingError E Unit
  /-- Multiply in place by a scalar in Montgomery form. -/
  scaleAssign : C → Scalar → Action RingError E Unit
  /-- The element of a level that is encoded by bytes. -/
  decode : C → List UInt8 → L → Outcome RingError E

namespace RnsPoly

instance : ResidueElement RnsPoly where
  encode := RnsPoly.encode
  erase := RnsPoly.erase

end RnsPoly

end RingShamir
