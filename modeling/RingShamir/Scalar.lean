import RingShamir.Modulus.Montgomery
import RingShamir.Word.LittleEndian

/-!
# Residue scalars

A scalar holds one residue for each modulus of a list.  Whether the residues
are plain or in Montgomery form is up to the caller; each operation says what
it expects.  The operations demand one limb for each modulus.

Main results:

- Theorems `length_zero` and `length_ofWord`: scalars made from a list of moduli
  have one limb for each.
-/

namespace RingShamir

/-- A scalar in residue number system. -/
structure Scalar where
  /-- The residues, in the order of the moduli. -/
  limbs : List UInt64
deriving DecidableEq

namespace Scalar

variable {ε : Type}

/-- The number of limbs. -/
def length (s : Scalar) : Nat :=
  s.limbs.length

/-- The scalar without limbs. -/
def empty : Scalar := ⟨[]⟩

/-- The zero scalar. -/
def zero (qs : List Modulus) : Scalar :=
  ⟨List.replicate qs.length 0⟩

/-- The plain residues of a word. -/
def ofWord (qs : List Modulus) (v : UInt64) : Scalar :=
  ⟨qs.map (·.reduce v)⟩

@[simp] theorem length_zero (qs : List Modulus) : (zero qs).length = qs.length := by
  simp [zero, length]

@[simp] theorem length_ofWord (qs : List Modulus) (v : UInt64) :
    (ofWord qs v).length = qs.length := by
  simp [ofWord, length]

/-- The Montgomery form of a plain scalar. -/
def toMontgomery (qs : List Modulus) (a : Scalar) : Outcome ε Scalar := do
  Outcome.require (a.length = qs.length)
  let limbs ← List.zipWithM (fun q x => q.toMontgomery x) qs a.limbs
  pure ⟨limbs⟩

/-- The difference of two scalars of the same form. -/
def sub (qs : List Modulus) (a b : Scalar) : Outcome ε Scalar := do
  Outcome.require (a.length = qs.length)
  Outcome.require (b.length = qs.length)
  let limbs ← List.zipWithM (fun q (x, y) => q.sub x y) qs (a.limbs.zip b.limbs)
  pure ⟨limbs⟩

/-- The Montgomery product of two scalars, which is in Montgomery form if both
factors are. -/
def mul (qs : List Modulus) (a b : Scalar) : Outcome ε Scalar := do
  Outcome.require (a.length = qs.length)
  Outcome.require (b.length = qs.length)
  let limbs ← List.zipWithM (fun q (x, y) => q.montgomeryMul x y) qs (a.limbs.zip b.limbs)
  pure ⟨limbs⟩

/-- Multiply a scalar in place by another one. -/
def mulAssign (qs : List Modulus) (b : Scalar) : Action ε Scalar Unit := do
  let product ← (mul qs (← get) b : Outcome ε Scalar)
  set product

/-- The inverses of limbs in Montgomery form, up to the first one that has
none. -/
def inverseLimbs : List Modulus → List UInt64 → Outcome ε (Option (List UInt64))
  | q :: qs, x :: xs => do
      match ← q.montgomeryInverse x with
      | none => pure none
      | some y =>
          match ← inverseLimbs qs xs with
          | none => pure none
          | some ys => pure (some (y :: ys))
  | _, _ => pure (some [])

/-- The inverse of a scalar in Montgomery form.  There is none if some limb is
zero. -/
def inverse (qs : List Modulus) (a : Scalar) : Outcome ε (Option Scalar) := do
  Outcome.require (a.length = qs.length)
  match ← inverseLimbs qs a.limbs with
  | none => pure none
  | some limbs => pure (some ⟨limbs⟩)

/-- The scalar one in Montgomery form. -/
def one (qs : List Modulus) : Outcome ε Scalar :=
  toMontgomery qs (ofWord qs 1)

/-- Overwrite a scalar by one with the same number of limbs. -/
def copyFrom (b : Scalar) : Action ε Scalar Unit := do
  let a ← get
  Action.require (a.length = b.length)
  set b

/-- Overwrite one limb, which has to exist. -/
def setLimb (i : Nat) (v : UInt64) : Action ε Scalar Unit := do
  let a ← get
  Action.require (i < a.length)
  set (Scalar.mk (a.limbs.set i v))

/-- Overwrite all limbs by zero. -/
def erase (a : Scalar) : Scalar :=
  ⟨a.limbs.map fun _ => 0⟩

/-- The limbs as little-endian words. -/
def encode (a : Scalar) : List UInt8 :=
  LittleEndian.encodeAll a.limbs

/-- The structured text of a scalar. -/
def debugText (a : Scalar) : String :=
  Text.tagged "RnsScalar" [Text.words a.limbs]

end Scalar

end RingShamir
