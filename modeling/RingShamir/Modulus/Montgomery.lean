import RingShamir.Modulus.Basic

/-!
# Montgomery multiplication

The Montgomery form of a residue `a` modulo an odd number is `a * 2 ^ 64`.
Reduction divides by the radix `2 ^ 64` without a division: a multiple of the
modulus is added that clears the low word.

A product of two residues in Montgomery form is in Montgomery form; a product
of a residue in Montgomery form and a plain one is plain.
-/

namespace RingShamir.Modulus

variable {ε : Type}

/-- The number `t / 2 ^ 64` modulo the modulus, for `t` below `2 ^ 64` times
the modulus.  The intermediate sum has to fit in two words. -/
def montgomeryReduce (q : Modulus) (t : Nat) : Outcome ε UInt64 := do
  let m := UInt64.ofNat t * q.negInverse
  let sum := t + Word.wideMul m q.value
  Outcome.require (sum < UInt64.size * UInt64.size)
  reduceOnce (UInt64.ofNat (sum >>> 64)) q.value

/-- The Montgomery form of a residue. -/
def toMontgomery (q : Modulus) (a : UInt64) : Outcome ε UInt64 := do
  Outcome.require (q.isOdd = true ∧ a < q.value)
  q.montgomeryReduce (Word.wideMul a q.radixSquared)

/-- The residue of a Montgomery form. -/
def ofMontgomery (q : Modulus) (a : UInt64) : Outcome ε UInt64 := do
  Outcome.require (q.isOdd = true ∧ a < q.value)
  q.montgomeryReduce a.toNat

/-- The product of two residues divided by the radix. -/
def montgomeryMul (q : Modulus) (a b : UInt64) : Outcome ε UInt64 := do
  Outcome.require (q.isOdd = true ∧ a < q.value ∧ b < q.value)
  q.montgomeryReduce (Word.wideMul a b)

/-- The Montgomery form of the inverse of the residue that `a` is the
Montgomery form of, if there is one. -/
def montgomeryInverse (q : Modulus) (a : UInt64) : Outcome ε (Option UInt64) := do
  match ← q.inverse (← q.ofMontgomery a) with
  | none => pure none
  | some r => pure (some (← q.toMontgomery r))

/-- The structured text of a modulus. -/
def debugText (q : Modulus) : String :=
  Text.record "Modulus"
    [("p", toString q.value), ("is_prime", toString q.isPrime),
      ("minus_p_inv", toString q.negInverse), ("r2", toString q.radixSquared)]

end RingShamir.Modulus
