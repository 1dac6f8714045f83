import RingShamir.Random.Stream

/-!
# Centred binomial samples

A sample of variance `k / 2` is the number of ones among `k` random bits less
the number of ones among `k` further bits.  The bits of a vector of samples are
read off a buffer of bytes, the lowest bit of a byte first, and samples follow
each other without a gap.

Main results:

- Theorem `length_samples`: a vector has the length that was asked for.
- Theorem `length_bits`: a byte has eight bits.
-/

namespace RingShamir.Binomial

variable {ε : Type}

/-- The only error of sampling. -/
inductive VarianceError where
  /-- The variance is not a multiple of one half from one half to 16. -/
  | outOfRange
deriving DecidableEq

/-- The message of the error. -/
def VarianceError.message : VarianceError → String
  | outOfRange => "The variance should be a multiple of 1/2 between 1/2 and 16"

/-! ## Variances -/

/-- Twice the positive number with the biased exponent `e` and the fraction `f`
of single precision, if that is a whole number from 1 to 32.  The number is
`(2 ^ 23 + f) / 2 ^ (150 - e)`. -/
def doubledFields? (e f : Nat) : Option Nat :=
  if 126 ≤ e ∧ e ≤ 131 then
    let scaled := (1 <<< 23) + f
    let unit := 1 <<< (149 - e)
    if scaled % unit = 0 ∧ scaled / unit ≤ 32 then some (scaled / unit) else none
  else none

/-- Twice a variance, if that is a whole number from 1 to 32. -/
def doubled? (variance : Float32) : Option Nat :=
  let bits := variance.toBits.toNat
  if bits < 1 <<< 31 then doubledFields? (bits >>> 23) (bits % (1 <<< 23)) else none

/-! ## Samples from bytes -/

/-- The bits of a byte, the lowest first. -/
def bits (b : UInt8) : List Bool :=
  (List.range 8).map b.toNat.testBit

/-- The number of ones among bits. -/
def ones (bs : List Bool) : Int :=
  bs.countP id

/-- `n` samples of variance `k / 2` from a list of bits. -/
def samplesOfBits (k : Nat) : Nat → List Bool → List Int
  | 0, _ => []
  | n + 1, bs =>
      (ones (bs.take k) - ones ((bs.drop k).take k)) :: samplesOfBits k n (bs.drop (2 * k))

/-- `n` samples of variance `k / 2` from a buffer of bytes. -/
def samples (k n : Nat) (buffer : List UInt8) : List Int :=
  samplesOfBits k n (buffer.flatMap bits)

/-- The number of bytes that `n` samples of variance `k / 2` take. -/
def bufferSize (k n : Nat) : Nat :=
  (n * (2 * k) + 7) / 8

@[simp] theorem length_bits (b : UInt8) : (bits b).length = 8 := by
  simp [bits]

@[simp] theorem length_samplesOfBits (k n : Nat) (bs : List Bool) :
    (samplesOfBits k n bs).length = n := by
  induction n generalizing bs with
  | zero => rfl
  | succ n ih => simp [samplesOfBits, ih]

@[simp] theorem length_samples (k n : Nat) (buffer : List UInt8) :
    (samples k n buffer).length = n :=
  length_samplesOfBits k n _

/-! ## Samples from a stream -/

/-- Draw `n` samples of variance `k / 2`.  The number of bits has to be a word.  Whether the
bits, which take up a word each, can be addressed is left out: there are `2 ^ 60` of them
before they cannot, and their bytes fill a buffer of `2 ^ 57` bytes first. -/
def draw (k n : Nat) : Action ε WordStream (List Int) := do
  Action.require (n * (2 * k) < UInt64.size)
  let buffer ← WordStream.bytes (bufferSize k n)
  pure (samples k n buffer)

/-- Draw a vector of samples of a variance. -/
def sampleVector (size : Nat) (variance : Float32) :
    Action VarianceError WordStream (List Int) :=
  match doubled? variance with
  | some k => draw k size
  | none => Action.fail .outOfRange

end RingShamir.Binomial
