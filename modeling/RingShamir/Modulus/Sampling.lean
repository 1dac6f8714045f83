import RingShamir.Modulus.Basic
import RingShamir.Random.Stream

/-!
# Uniform residues

Residues drawn uniformly from a stream of words.
-/

namespace RingShamir

namespace Modulus

variable {ε : Type}

/-- Sample `n` uniform residues one after the other. -/
def sample (q : Modulus) : Nat → Action ε WordStream (List UInt64)
  | 0 => pure []
  | n + 1 => do
      let a ← WordStream.below q.value
      let rest ← q.sample n
      pure (a :: rest)

/-- Sample a vector of uniform residues.  It has to be addressable. -/
def sampleVector (q : Modulus) (n : Nat) : Action ε WordStream (List UInt64) := do
  Action.require (8 * n < Word.addressLimit)
  q.sample n

end Modulus

end RingShamir
