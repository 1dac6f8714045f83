import RingShamir.Modulus.Sampling
import RingShamir.RnsBasis
import RingShamir.Scalar

/-!
# Polynomials over a residue basis

A polynomial is held as one row of residues for each prime of its basis.  All
operations work row by row.

Main results:

- Theorem `zero_of_fits`: the zero polynomial exists over every basis whose
  encoding can be addressed.
- Theorems `rows_erase` and `basis_erase`: erasing keeps the shape.
-/

namespace RingShamir

/-- A polynomial over a residue basis. -/
structure RnsPoly where
  /-- The basis of the polynomial. -/
  basis : RnsBasis
  /-- The coefficients, one row for each prime. -/
  rows : List (List UInt64)
deriving DecidableEq

namespace RnsPoly

variable {ε : Type}

/-- The level of a polynomial is that of its basis. -/
def level (a : RnsPoly) : Nat :=
  a.basis.level

/-- The number of bytes that a polynomial takes up in a list of polynomials, its rows apart:
nine words, for the address of the basis, for the address, the length and the capacity of the
storage of the rows, for the address of the first row, and for the shape and the strides. -/
def footprint : Nat :=
  8 * 9

/-- The number of bytes of an encoded polynomial. -/
def encodedSize (b : RnsBasis) : Nat :=
  8 * b.degree * b.operators.length

/-! ## Construction -/

/-- The zero polynomial.  Its coefficients have to be addressable. -/
def zero (b : RnsBasis) : Outcome ε RnsPoly := do
  Outcome.require (encodedSize b < Word.addressLimit)
  pure ⟨b, List.replicate b.operators.length (List.replicate b.degree 0)⟩

/-- Sample a polynomial that is uniform in every row. -/
def random (b : RnsBasis) : Action ε WordStream RnsPoly := do
  Action.require (encodedSize b < Word.addressLimit)
  let rows ← b.operators.mapM (·.sampleVector b.degree)
  pure ⟨b, rows⟩

/-- The polynomial with the residues of integer coefficients. -/
def ofInts (b : RnsBasis) (v : List Int) : Outcome RingError RnsPoly :=
  if v.length ≠ b.degree then
    let expected := b.degree
    let found := v.length
    Outcome.fail (.other s!"Expected {expected} coefficients, found {found}")
  else do
    Outcome.require (encodedSize b < Word.addressLimit)
    pure ⟨b, b.operators.map fun q => v.map q.reduceInt⟩

/-- Check that the entries of each row are residues of its modulus. -/
def checkReduced : List Modulus → List (List UInt64) → Outcome RingError Unit
  | q :: qs, row :: rows =>
      if row.any (q.value ≤ ·) then
        let m := q.value
        Outcome.fail (.other s!"Coefficient not reduced modulo {m}")
      else checkReduced qs rows
  | _, _ => pure ()

/-- The polynomial with given rows of residues. -/
def ofRows (b : RnsBasis) (rows : List (List UInt64)) : Outcome RingError RnsPoly := do
  if rows.length ≠ b.operators.length ∨ rows.any (·.length ≠ b.degree) then
    Outcome.fail (.other "The array of coefficient does not have the correct shape")
  else
    checkReduced b.operators rows
    pure ⟨b, rows⟩

/-- Overwrite all coefficients by zero. -/
def erase (a : RnsPoly) : RnsPoly :=
  { a with rows := a.rows.map (·.map fun _ => 0) }

theorem zero_of_fits {b : RnsBasis} (h : encodedSize b < Word.addressLimit) :
    (zero b : Outcome ε RnsPoly) =
      .ok ⟨b, List.replicate b.operators.length (List.replicate b.degree 0)⟩ := by
  unfold zero
  rw [Outcome.require_of h]
  rfl

@[simp] theorem basis_erase (a : RnsPoly) : a.erase.basis = a.basis := rfl

@[simp] theorem rows_erase (a : RnsPoly) :
    a.erase.rows = a.rows.map (·.map fun _ => 0) := rfl

/-! ## Arithmetic -/

/-- Multiply each row by a limb of a scalar in Montgomery form. -/
def scaleRows (qs : List Modulus) (s : List UInt64) (rows : List (List UInt64)) :
    Outcome ε (List (List UInt64)) :=
  List.zipWithM (fun row (q, x) => row.mapM fun c => Modulus.montgomeryMul q c x)
    rows (qs.zip s)

/-- Add rows of residues entry by entry. -/
def addRows (qs : List Modulus) (rows rows' : List (List UInt64)) :
    Outcome ε (List (List UInt64)) :=
  List.zipWithM
    (fun row (row', q) => List.zipWithM (fun x y => Modulus.add q x y) row row')
    rows (rows'.zip qs)

/-- Multiply a polynomial in place by a scalar in Montgomery form, limb by limb.
Limbs beyond those of the polynomial are left out of account. -/
def scaleAssign (s : List UInt64) : Action RingError RnsPoly Unit := do
  let a ← get
  let limbs := a.basis.operators.length
  if s.length < limbs then
    let given := s.length
    Action.fail (.levelMismatch
      s!"scalar with {given} limbs cannot multiply a polynomial with {limbs} limbs")
  else
    let rows ← (scaleRows a.basis.operators s a.rows : Outcome RingError _)
    set { a with rows := rows }

/-- Add a polynomial over the same basis in place. -/
def addAssign (b : RnsPoly) : Action ε RnsPoly Unit := do
  let a ← get
  Action.require (a.basis = b.basis)
  let rows ← (addRows a.basis.operators a.rows b.rows : Outcome ε _)
  set { a with rows := rows }

/-- Store the sum of two polynomials over the basis of the output. -/
def addInto (a b : RnsPoly) : Action RingError RnsPoly Unit := do
  let out ← get
  if a.basis ≠ b.basis ∨ a.basis ≠ out.basis then
    let la := a.level
    let lb := b.level
    let lo := out.level
    Action.fail (.levelMismatch
      s!"cannot add polynomials at levels {la} and {lb} into level {lo}")
  else
    set { out with rows := a.rows }
    addAssign b

end RnsPoly

end RingShamir
