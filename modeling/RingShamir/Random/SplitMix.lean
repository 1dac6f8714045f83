import RingShamir.Random.Stream

/-!
# A seeded stream of words

The stream of a seed hashes a counter: the state grows by a fixed odd step with
every word, and a word is the state after three rounds of shifting, folding and
multiplying.  The stream may be preceded by a list of chosen words.

Main results:

- Theorem `word_recurs`: the word zero recurs in the stream of every seed, since
  an odd step takes the state through all words.
-/

namespace RingShamir.SplitMix

/-- The step by which the state grows. -/
def step : UInt64 := 0x9E3779B97F4A7C15

/-- The inverse of the step modulo `2 ^ 64`. -/
def stepInverse : UInt64 := 0xF1DE83E19937733D

/-- The word that a state is hashed to. -/
def mix (state : UInt64) : UInt64 :=
  let z₁ := (state ^^^ state >>> 30) * 0xBF58476D1CE4E5B9
  let z₂ := (z₁ ^^^ z₁ >>> 27) * 0x94D049BB133111EB
  z₂ ^^^ z₂ >>> 31

/-- The word at a position of the stream of a seed. -/
def word (seed : UInt64) (i : Nat) : UInt64 :=
  mix (seed + UInt64.ofNat (i + 1) * step)

theorem mix_zero : mix 0 = 0 := by decide

theorem step_mul_inverse : stepInverse * step = 1 := by decide

theorem word_recurs (seed : UInt64) (n : Nat) : ∃ i, n ≤ i ∧ word seed i = 0 := by
  let t := -seed * stepInverse
  refine ⟨t.toNat + (n + 1) * 2 ^ 64 - 1, by omega, ?_⟩
  have hcount : t.toNat + (n + 1) * 2 ^ 64 - 1 + 1 = t.toNat + (n + 1) * 2 ^ 64 := by omega
  have hword : UInt64.ofNat (t.toNat + (n + 1) * 2 ^ 64) = t := by
    apply UInt64.toNat_inj.mp
    have := t.toNat_lt
    rw [UInt64.toNat_ofNat']
    omega
  rw [word, hcount, hword]
  have hstate : seed + t * step = 0 := by
    rw [UInt64.mul_assoc, step_mul_inverse, UInt64.mul_one]
    exact UInt64.add_right_neg seed
  rw [hstate, mix_zero]

/-- The words of a list followed by the stream of a seed. -/
def queuedWord (queued : Array UInt64) (seed : UInt64) (i : Nat) : UInt64 :=
  if h : i < queued.size then queued[i] else word seed (i - queued.size)

/-- A list of chosen words followed by the stream of a seed. -/
def stream (queued : Array UInt64) (seed : UInt64) : WordStream :=
  WordStream.ofRecurrent (queuedWord queued seed) fun n => by
    obtain ⟨i, hi, hw⟩ := word_recurs seed n
    refine ⟨i + queued.size, by omega, ?_⟩
    rw [queuedWord, dif_neg (by omega), Nat.add_sub_cancel]
    exact hw

end RingShamir.SplitMix
