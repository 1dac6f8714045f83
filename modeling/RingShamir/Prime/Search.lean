import RingShamir.Prime.Primality
import RingShamir.Word.Checked

/-!
# Search for primes in a progression

Polynomial arithmetic of degree `n` wants primes that are one more than a
multiple of `2 * n`.  The search starts at the greatest such number below a
bound, walks down by steps and takes the first prime it meets.

Main results:

- Theorem `searchDown_le`: a prime that is found is not above the start of the
  walk.
- Theorem `greatestPrime_lt`: a prime that is found is smaller than the bound of
  the search.
-/

namespace RingShamir.PrimeSearch

variable {ε : Type}

/-! ## The walk -/

theorem toNat_sub_lt {step candidate : UInt64} (h : 0 < step ∧ step ≤ candidate) :
    (candidate - step).toNat < candidate.toNat := by
  have hpos := UInt64.lt_iff_toNat_lt.mp h.1
  have hle := UInt64.le_iff_toNat_le.mp h.2
  rw [UInt64.toNat_sub_of_le _ _ h.2]
  rw [UInt64.toNat_zero] at hpos
  omega

/-- Walk down from a candidate by steps to the first prime that is not below
`low`.  The walk ends where a further step would pass zero. -/
def searchDown (step low candidate : UInt64) : Option UInt64 :=
  if candidate < low then none
  else if Primality.isPrime candidate.toNat then some candidate
  else if 0 < step ∧ step ≤ candidate then searchDown step low (candidate - step)
  else none
termination_by candidate.toNat
decreasing_by exact toNat_sub_lt ‹_›

theorem searchDown_le {step low candidate p : UInt64}
    (h : searchDown step low candidate = some p) : p ≤ candidate := by
  induction candidate using searchDown.induct step low with
  | case1 candidate hlow => simp [searchDown, hlow] at h
  | case2 candidate hlow hprime =>
      rw [searchDown, if_neg hlow, if_pos hprime] at h
      exact Option.some.inj h ▸ UInt64.le_refl _
  | case3 candidate hlow hprime hstep ih =>
      rw [searchDown, if_neg hlow, if_neg hprime, if_pos hstep] at h
      have hless := toNat_sub_lt hstep
      have hle := UInt64.le_iff_toNat_le.mp (ih h)
      rw [UInt64.le_iff_toNat_le]
      omega
  | case4 candidate hlow hprime hstep =>
      rw [searchDown, if_neg hlow, if_neg hprime, if_neg hstep] at h
      cases h

/-! ## The search -/

/-- Whether a number is a power of two. -/
def isPowerOfTwo (n : Nat) : Bool :=
  n ≠ 0 && 1 <<< n.log2 = n

/-- The greatest number below the bound that is one more than a multiple of the
step. -/
def startBelow (step bound : UInt64) : Outcome ε UInt64 := do
  let top ← Word.sub bound 1
  let excess := (← Word.sub top 1) % step
  let start ← Word.sub top excess
  if start = bound then Word.sub start step else pure start

/-- The greatest prime of `bits` binary digits that lies below `bound` and is
one more than a multiple of `step`.  Numbers of digits from 10 to 62, powers of
two as steps and bounds up to `2 ^ bits` are accepted. -/
def greatestPrime (bits : Nat) (step bound : UInt64) : Outcome ε (Option UInt64) := do
  Outcome.require (10 ≤ bits ∧ bits ≤ 62)
  Outcome.require (isPowerOfTwo step.toNat = true)
  Outcome.require (bound.toNat ≤ 1 <<< bits)
  if bound < 2 || bound ≤ step then pure none
  else
    let start ← startBelow step bound
    pure (searchDown step (1 <<< UInt64.ofNat (bits - 1)) start)

/-- From a bound of two on there is such a number, and no difference wraps around. -/
theorem startBelow_of_two_le (step : UInt64) {bound : UInt64} (h : 2 ≤ bound) :
    ∃ start, (startBelow step bound : Outcome ε UInt64) = .ok start ∧
      start.toNat = bound.toNat - 1 - (bound.toNat - 2) % step.toNat := by
  have hbound : 2 ≤ bound.toNat := UInt64.le_iff_toNat_le.mp h
  have hrest := Nat.mod_le (bound.toNat - 2) step.toNat
  have hone : (1 : UInt64) ≤ bound := by
    rw [UInt64.le_iff_toNat_le, UInt64.toNat_one]
    omega
  have htop : (bound - 1).toNat = bound.toNat - 1 := UInt64.toNat_sub_of_le _ _ hone
  have honeTop : (1 : UInt64) ≤ bound - 1 := by
    rw [UInt64.le_iff_toNat_le, htop, UInt64.toNat_one]
    omega
  have hexcess : ((bound - 1 - 1) % step).toNat = (bound.toNat - 2) % step.toNat := by
    rw [UInt64.toNat_mod, UInt64.toNat_sub_of_le _ _ honeTop, htop, UInt64.toNat_one,
      Nat.sub_sub]
  have hle : (bound - 1 - 1) % step ≤ bound - 1 := by
    rw [UInt64.le_iff_toNat_le, hexcess, htop]
    omega
  have hstart := UInt64.toNat_sub_of_le _ _ hle
  rw [hexcess, htop] at hstart
  have hne : bound - 1 - (bound - 1 - 1) % step ≠ bound := by
    intro heq
    rw [heq] at hstart
    omega
  refine ⟨bound - 1 - (bound - 1 - 1) % step, ?_, hstart⟩
  simp only [startBelow, Word.sub_of_le hone, Word.sub_of_le honeTop, Word.sub_of_le hle, bind,
    Except.bind, if_neg hne]
  rfl

/-- A prime that is found is smaller than the bound of the search. -/
theorem greatestPrime_lt {bits : Nat} {step bound p : UInt64}
    (h : (greatestPrime bits step bound : Outcome ε _) = .ok (some p)) :
    p.toNat < bound.toNat := by
  by_cases hsmall : (bound < 2 || bound ≤ step) = true
  · simp only [greatestPrime, Outcome.require, bind, Except.bind, pure, Except.pure,
      if_pos hsmall] at h
    repeat' split at h
    all_goals cases h
  · have htwo : 2 ≤ bound := by
      simp only [Bool.or_eq_true, decide_eq_true_eq, not_or, UInt64.not_lt] at hsmall
      exact hsmall.1
    obtain ⟨start, hstart, hnat⟩ := startBelow_of_two_le (ε := ε) step htwo
    simp only [greatestPrime, Outcome.require, bind, Except.bind, pure, Except.pure,
      if_neg hsmall, hstart] at h
    repeat' split at h
    all_goals simp only [reduceCtorEq, Except.ok.injEq] at h
    have hle := UInt64.le_iff_toNat_le.mp (searchDown_le h)
    have hbound : 2 ≤ bound.toNat := UInt64.le_iff_toNat_le.mp htwo
    omega

end RingShamir.PrimeSearch
