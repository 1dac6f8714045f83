/-!
# Primality of words

Primality of natural numbers below `2 ^ 64`, decided by trial division by the
twelve smallest primes and by twelve strong probable-prime tests to those
primes as bases.  No composite number below `3 * 10 ^ 24` passes all twelve
tests, so the answer is exact for every word.

It stands for the test of a library of large integers, which is documented to be right
on all words.  That no prime is refused is proved where it is needed.  That every
composite word is refused is not: what relies on this has it as a hypothesis on the
moduli in question.

Main results:

- Theorem `powMod_lt`: modular powers are reduced.
-/

namespace RingShamir.Primality

/-- Read the lowest `i` binary digits of the exponent `e` from the top, squaring
the running power at each digit and multiplying by the base `b` at each one. -/
def powModDigits (b e m : Nat) : Nat → Nat → Nat
  | 0, r => r
  | i + 1, r => powModDigits b e m i (if e.testBit i then r * r % m * b % m else r * r % m)

/-- The power `b ^ e` modulo `m`. -/
def powMod (b e m : Nat) : Nat :=
  powModDigits b e m (e.log2 + 1) (1 % m)

theorem powMod_lt {m : Nat} (b e : Nat) (hm : 0 < m) : powMod b e m < m := by
  suffices h : ∀ i r, r < m → powModDigits b e m i r < m from h _ _ (Nat.mod_lt _ hm)
  intro i
  induction i with
  | zero => exact fun r hr => hr
  | succ i ih =>
      intro r _
      exact ih _ (by split <;> exact Nat.mod_lt _ hm)

/-- The odd part of a number below `2 ^ i`, and the power of two that it was
freed of. -/
def oddPart : Nat → Nat → Nat × Nat
  | 0, n => (n, 0)
  | i + 1, n =>
      if n % 2 = 0 then
        let (d, s) := oddPart i (n / 2)
        (d, s + 1)
      else (n, 0)

/-- Whether `n - 1` is among the first `s` numbers that repeated squaring
modulo `n` makes of `x`. -/
def squaringMeets (n : Nat) : Nat → Nat → Bool
  | 0, _ => false
  | s + 1, x => x = n - 1 || squaringMeets n s (x * x % n)

/-- The strong probable-prime test of the odd number `n` to the base `a`. -/
def strongTest (n a : Nat) : Bool :=
  let (d, s) := oddPart 64 (n - 1)
  let x := powMod a d n
  x = 1 || squaringMeets n s x

/-- The twelve smallest primes. -/
def smallPrimes : List Nat :=
  [2, 3, 5, 7, 11, 13, 17, 19, 23, 29, 31, 37]

/-- Whether a number below `2 ^ 64` is prime. -/
def isPrime (n : Nat) : Bool :=
  2 ≤ n &&
    (smallPrimes.contains n ||
      (smallPrimes.all (fun q => n % q ≠ 0) &&
        (n < 41 * 41 || smallPrimes.all (strongTest n))))

end RingShamir.Primality
