import RingShamir.Modulus.Montgomery
import RingShamir.Prime.Search

/-!
# Residue bases

A residue basis is a list of distinct odd primes below `2 ^ 62`, over which
polynomials of one degree are represented.  Dropping the last prime gives the
basis of the next lower level; every basis is linked to it.  The level of a
basis is the index of its last prime.

Main results:

- Theorem `shape_of_ofModuli`: the basis of a list of moduli has these moduli and
  the degree that was asked for.
- Theorem `isPrefixOf_iff`: the test for lower levels compares degrees and
  moduli only.
-/

namespace RingShamir

/-- A residue basis, linked to the basis of the next lower level. -/
structure RnsBasis where
  /-- The primes of the basis. -/
  moduli : List UInt64
  /-- The primes with the constants of their arithmetic. -/
  operators : List Modulus
  /-- The number of coefficients of a polynomial. -/
  degree : Nat
  /-- The product of the primes. -/
  product : Nat
  /-- The basis without the last prime. -/
  lower : Option RnsBasis

namespace RnsBasis

/-- Equality of bases compares all fields, down to the lowest level. -/
def decideEq : (a b : RnsBasis) → Decidable (a = b)
  | ⟨ms₁, qs₁, d₁, p₁, none⟩, ⟨ms₂, qs₂, d₂, p₂, none⟩ =>
      if h : ms₁ = ms₂ ∧ qs₁ = qs₂ ∧ d₁ = d₂ ∧ p₁ = p₂ then
        isTrue (by simp [h])
      else isFalse (by simpa using h)
  | ⟨ms₁, qs₁, d₁, p₁, some l₁⟩, ⟨ms₂, qs₂, d₂, p₂, some l₂⟩ =>
      if h : ms₁ = ms₂ ∧ qs₁ = qs₂ ∧ d₁ = d₂ ∧ p₁ = p₂ then
        match decideEq l₁ l₂ with
        | isTrue hl => isTrue (by simp [h, hl])
        | isFalse hl => isFalse (by simp [hl])
      else isFalse fun e => h (by cases e; simp)
  | ⟨_, _, _, _, none⟩, ⟨_, _, _, _, some _⟩ => isFalse (by simp)
  | ⟨_, _, _, _, some _⟩, ⟨_, _, _, _, none⟩ => isFalse (by simp)

instance : DecidableEq RnsBasis := decideEq

/-! ## Construction -/

/-- The modulus of an odd prime. -/
def primeOperator (m : UInt64) : Outcome RingError Modulus := do
  let q ← Modulus.ofWord m
  if q.isOdd && Primality.isPrime m.toNat then pure q
  else Outcome.fail (.other s!"The modulus {m} is not an odd prime")

/-- The checks of a degree and a list of moduli that look at no single modulus. -/
def checkShape (moduli : List UInt64) (degree : Nat) : Outcome RingError Unit :=
  if !PrimeSearch.isPowerOfTwo degree || degree < 8 then
    Outcome.fail (.other "The degree is not a power of two larger or equal to 8")
  else if moduli.isEmpty then
    Outcome.fail (.other "The list of moduli is empty")
  else if !decide moduli.Nodup then
    Outcome.fail (.other "The moduli are not distinct")
  else pure ()

/-- The basis of a list of moduli that is given from the last one to the first
one, with all the bases of lower levels. -/
def ofDescending (degree : Nat) : List UInt64 → Outcome RingError RnsBasis
  | [] => do
      checkShape [] degree
      Outcome.fail (.other "The list of moduli is empty")
  | m :: rest => do
      let moduli := (m :: rest).reverse
      checkShape moduli degree
      let operators ← moduli.mapM primeOperator
      let lower ← if rest.isEmpty then pure none else some <$> ofDescending degree rest
      pure
        { moduli := moduli
          operators := operators
          degree := degree
          product := moduli.foldr (fun m n => m.toNat * n) 1
          lower := lower }

/-- The basis of a list of moduli. -/
def ofModuli (moduli : List UInt64) (degree : Nat) : Outcome RingError RnsBasis :=
  ofDescending degree moduli.reverse

theorem shape_of_ofDescending {degree : Nat} {descending : List UInt64} {b : RnsBasis}
    (h : ofDescending degree descending = .ok b) :
    b.moduli = descending.reverse ∧ b.degree = degree := by
  cases descending with
  | nil =>
      simp only [ofDescending, bind, Except.bind] at h
      split at h <;> cases h
  | cons m rest =>
      simp only [ofDescending, bind, Except.bind, pure, Except.pure] at h
      repeat' split at h
      all_goals cases h
      all_goals exact ⟨rfl, rfl⟩

theorem shape_of_ofModuli {moduli : List UInt64} {degree : Nat} {b : RnsBasis}
    (h : ofModuli moduli degree = .ok b) : b.moduli = moduli ∧ b.degree = degree := by
  simpa using shape_of_ofDescending h

/-! ## Levels -/

/-- The index of the last prime. -/
def level (b : RnsBasis) : Nat :=
  b.moduli.length - 1

/-- Whether `b` has the first primes of `c`, so that it is `c` or a basis of a
lower level of `c`. -/
def isPrefixOf (b c : RnsBasis) : Bool :=
  b.degree = c.degree && b.moduli.isPrefixOf c.moduli

/-- Follow the links down to the first basis that is not above a level. -/
def descend (target : Nat) : RnsBasis → Outcome RingError RnsBasis
  | ⟨ms, qs, d, p, lower⟩ =>
      if ms.length - 1 ≤ target then pure ⟨ms, qs, d, p, lower⟩
      else
        match lower with
        | none => Outcome.fail .noLowerLevel
        | some b => descend target b

/-- The basis of a level. -/
def atLevel (b : RnsBasis) (target : Nat) : Outcome RingError RnsBasis :=
  if b.level < target then
    let top := b.level
    Outcome.fail (.levelMismatch s!"no context at level {target}, the maximum level is {top}")
  else b.descend target

/-- The number of binary digits of the product of the primes. -/
def productBits (b : RnsBasis) : Nat :=
  if b.product = 0 then 0 else b.product.log2 + 1

/-- The structured text of a basis. -/
def debugText (b : RnsBasis) : String :=
  Text.record "Context" [("moduli", Text.words b.moduli), ("degree", toString b.degree)]

theorem isPrefixOf_iff (b c : RnsBasis) :
    b.isPrefixOf c = true ↔ b.degree = c.degree ∧ b.moduli <+: c.moduli := by
  simp [isPrefixOf]

end RnsBasis

end RingShamir
