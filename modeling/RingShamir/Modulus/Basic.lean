import RingShamir.Error
import RingShamir.Prime.Primality
import RingShamir.Word.Checked

/-!
# Word-sized moduli

A modulus is a number from 2 to `2 ^ 62 - 1`.  An odd modulus carries the two
constants of Montgomery multiplication with radix `2 ^ 64`: the negated inverse
of the modulus modulo the radix, and the square of the radix modulo the
modulus.  Residues are words below the modulus; the operations demand reduced
operands.

Main results:

- Theorem `ofWord_eq_ok`: which words are moduli, and which constants they get.
- Theorem `ofWord_eq_error`: the error for the other words.
- Theorems `reduce_lt` and `toNat_reduceWide`: reduction gives the residue below
  the modulus.
-/

namespace RingShamir

/-- A modulus with the constants of its arithmetic. -/
structure Modulus where
  /-- The modulus itself. -/
  value : UInt64
  /-- Whether the modulus is prime. -/
  isPrime : Bool
  /-- The negated inverse of the modulus modulo `2 ^ 64`, zero if there is none. -/
  negInverse : UInt64
  /-- The number `2 ^ 128` modulo the modulus, zero for an even modulus. -/
  radixSquared : UInt64
deriving DecidableEq

namespace Modulus

variable {ε : Type}

/-! ## Construction -/

/-- One Newton step towards the inverse of `p` modulo `2 ^ 64`; it doubles the
number of correct low digits. -/
def newtonStep (p x : UInt64) : UInt64 :=
  x * (2 - p * x)

/-- The inverse of an odd word modulo `2 ^ 64`.  An odd word is its own inverse
modulo 8, so five steps give 96 correct digits. -/
def inverseWord (p : UInt64) : UInt64 :=
  newtonStep p (newtonStep p (newtonStep p (newtonStep p (newtonStep p p))))

/-- The square of the radix `2 ^ 64` modulo `p`. -/
def radixSquaredMod (p : UInt64) : UInt64 :=
  let r := UInt64.size % p.toNat
  UInt64.ofNat (r * r % p.toNat)

/-- The modulus of a word with its constants; the range is not checked. -/
def withConstants (p : UInt64) : Modulus where
  value := p
  isPrime := Primality.isPrime p.toNat
  negInverse := if p % 2 = 1 then -inverseWord p else 0
  radixSquared := if p % 2 = 1 then radixSquaredMod p else 0

/-- The modulus of a word from 2 to `2 ^ 62 - 1`. -/
def ofWord (p : UInt64) : Outcome RingError Modulus :=
  if p < 2 || p >>> 62 ≠ 0 then Outcome.fail (.invalidModulus p)
  else pure (withConstants p)

/-- Whether the modulus is odd, so that Montgomery arithmetic is available. -/
def isOdd (q : Modulus) : Bool :=
  q.value % 2 = 1

@[simp] theorem value_withConstants (p : UInt64) : (withConstants p).value = p := rfl

@[simp] theorem isPrime_withConstants (p : UInt64) :
    (withConstants p).isPrime = Primality.isPrime p.toNat := rfl

theorem ofWord_eq_ok {p : UInt64} {q : Modulus} :
    ofWord p = .ok q ↔ 2 ≤ p ∧ p >>> 62 = 0 ∧ q = withConstants p := by
  unfold ofWord Outcome.fail
  split <;> rename_i h
  · simp only [Bool.or_eq_true, decide_eq_true_eq] at h
    constructor
    · intro h'
      cases h'
    · rintro ⟨h₁, h₂, -⟩
      rcases h with h | h
      · exact absurd h₁ (UInt64.not_le.mpr h)
      · exact absurd h₂ h
  · simp only [Bool.or_eq_true, decide_eq_true_eq, not_or, ne_eq, Decidable.not_not,
      UInt64.not_lt] at h
    simp only [pure, Except.pure, Except.ok.injEq, h.1, h.2, true_and]
    exact eq_comm

theorem ofWord_eq_error {p : UInt64} (h : p < 2 ∨ p >>> 62 ≠ 0) :
    ofWord p = .error (.failure (.invalidModulus p)) := by
  unfold ofWord Outcome.fail
  rw [if_pos]
  simpa using h

/-! ## Reduction -/

/-- The residue of a word. -/
def reduce (q : Modulus) (a : UInt64) : UInt64 :=
  a % q.value

/-- The residue of a natural number. -/
def reduceWide (q : Modulus) (a : Nat) : UInt64 :=
  UInt64.ofNat (a % q.value.toNat)

/-- The least non-negative residue of an integer. -/
def reduceInt (q : Modulus) (a : Int) : UInt64 :=
  UInt64.ofNat (a % (q.value.toNat : Int)).toNat

theorem reduce_lt {q : Modulus} (hq : 0 < q.value) (a : UInt64) : q.reduce a < q.value := by
  rw [UInt64.lt_iff_toNat_lt] at hq ⊢
  rw [reduce, UInt64.toNat_mod]
  exact Nat.mod_lt _ (by simpa using hq)

theorem toNat_reduceWide (q : Modulus) (a : Nat) (hq : 0 < q.value) :
    (q.reduceWide a).toNat = a % q.value.toNat := by
  have hpos : 0 < q.value.toNat := by simpa [UInt64.lt_iff_toNat_lt] using hq
  have hlt := Nat.mod_lt a hpos
  have := q.value.toNat_lt
  rw [reduceWide, UInt64.toNat_ofNat', Nat.mod_eq_of_lt (by omega)]

/-- The word that selects between `x` and `x - p`: all ones if `x - p` does not
wrap around, else zero.  The selection is read off the top digit of the words
and takes no branch. -/
def selector (x p : UInt64) : UInt64 :=
  let y := x - p
  (x ^^^ ((x ^^^ p) ^^^ (y ^^^ p))) >>> 63 - 1

/-- The residue modulo `p` of a word below `2 * p`, for `p` below `2 ^ 63`. -/
def reduceOnce (x p : UInt64) : Outcome ε UInt64 := do
  Outcome.require (p >>> 63 = 0)
  Outcome.require (x < 2 * p)
  let c := selector x p
  let r := (c &&& (x - p)) ||| (~~~c &&& x)
  Outcome.require (r = x % p)
  pure r

/-! ## Arithmetic on residues -/

/-- The sum of two residues. -/
def add (q : Modulus) (a b : UInt64) : Outcome ε UInt64 := do
  Outcome.require (a < q.value ∧ b < q.value)
  reduceOnce (← Word.add a b) q.value

/-- The difference of two residues. -/
def sub (q : Modulus) (a b : UInt64) : Outcome ε UInt64 := do
  Outcome.require (a < q.value ∧ b < q.value)
  reduceOnce (← Word.sub (← Word.add a q.value) b) q.value

/-- The product of two residues. -/
def mul (q : Modulus) (a b : UInt64) : Outcome ε UInt64 := do
  Outcome.require (a < q.value ∧ b < q.value)
  pure (q.reduceWide (Word.wideMul a b))

/-- Read the lowest `i` binary digits of the exponent `n` from the top, squaring
the running power `r` at each digit and multiplying by the base `a` at each one. -/
def powDigits (q : Modulus) (a n : UInt64) : Nat → UInt64 → Outcome ε UInt64
  | 0, r => pure r
  | i + 1, r => do
      let square ← q.mul r r
      let next ← if n.toNat.testBit i then q.mul square a else pure square
      powDigits q a n i next

/-- The power of a residue, for an exponent below the modulus.  The base stands for
the top digit of the exponent, and the digits from the next one on are read. -/
def pow (q : Modulus) (a n : UInt64) : Outcome ε UInt64 := do
  Outcome.require (a < q.value ∧ n < q.value)
  if n = 0 then pure 1
  else if n = 1 then pure a
  else
    let next ← Word.sub 62 (Word.leadingZeros n)
    powDigits q a n (next.toNat + 1) a

/-- The inverse of a residue modulo a prime, by raising it to the power
`p - 2`.  There is none for the residue zero or for a composite modulus. -/
def inverse (q : Modulus) (a : UInt64) : Outcome ε (Option UInt64) := do
  if !q.isPrime || a = 0 then pure none
  else
    let r ← q.pow a (← Word.sub q.value 2)
    let unit ← q.mul a r
    Outcome.require (unit = 1)
    pure (some r)

end Modulus

end RingShamir
