import Mathlib.Data.Nat.Prime.Basic
import Mathlib.Tactic.IntervalCases
import Mathlib.Tactic.NormNum.Prime
import RingShamir.Prime.Primality

/-!
# Where the primality test is right

Below the square of the first prime that is not tried as a divisor the test is a plain
trial division, and therefore right.  For larger numbers it relies on a table of
strong pseudoprimes; what is proved about those says on which numbers the test is taken
to be right.

Main results:

- Definition `ExactOn`: the test is right on a set of numbers.
- Theorem `exactOn_small`: the test is right on the numbers that trial division decides.
-/

namespace RingShamir.Primality

/-- The test is right on the numbers of a set. -/
def ExactOn (S : Set Nat) : Prop :=
  ∀ n ∈ S, isPrime n = true ↔ n.Prime

theorem ExactOn.mono {S T : Set Nat} (h : ExactOn T) (hsub : S ⊆ T) : ExactOn S :=
  fun n hn => h n (hsub hn)

theorem mem_smallPrimes_iff {q : Nat} : q ∈ smallPrimes ↔ q.Prime ∧ q < 41 := by
  constructor
  · intro hq
    simp only [smallPrimes, List.mem_cons, List.not_mem_nil, or_false] at hq
    rcases hq with rfl | rfl | rfl | rfl | rfl | rfl | rfl | rfl | rfl | rfl | rfl | rfl <;>
      norm_num
  · rintro ⟨hprime, hlt⟩
    interval_cases q <;> first | decide | (revert hprime; norm_num)

/-- The divisors that are tried miss a prime only if it is one of them. -/
theorem all_smallPrimes_of_prime {n : Nat} (hn : n.Prime) (hsmall : n ∉ smallPrimes) :
    ∀ q ∈ smallPrimes, n % q ≠ 0 := by
  intro q hq hmod
  have hprime := (mem_smallPrimes_iff.mp hq).1
  have hdvd := Nat.dvd_of_mod_eq_zero hmod
  rcases (Nat.dvd_prime hn).mp hdvd with hone | rfl
  · exact hprime.ne_one hone
  · exact hsmall hq

/-- A number below the square of 41 without a small prime divisor is prime. -/
theorem prime_of_all_smallPrimes {n : Nat} (htwo : 2 ≤ n) (hlt : n < 41 * 41)
    (hall : ∀ q ∈ smallPrimes, n % q ≠ 0) : n.Prime := by
  by_contra hcomposite
  have hfactor := Nat.minFac_sq_le_self (by omega) hcomposite
  have hsmall : n.minFac < 41 := by
    by_contra hge
    have := Nat.pow_le_pow_left (Nat.le_of_not_lt hge) 2
    omega
  have hmem := mem_smallPrimes_iff.mpr ⟨Nat.minFac_prime (by omega), hsmall⟩
  exact hall _ hmem (Nat.mod_eq_zero_of_dvd n.minFac_dvd)

/-- The test is right on the numbers that trial division decides. -/
theorem exactOn_small : ExactOn {n | n < 41 * 41} := by
  intro n hlt
  have hlt : n < 41 * 41 := hlt
  simp only [isPrime, Bool.and_eq_true, Bool.or_eq_true, decide_eq_true_eq, List.contains_iff_mem,
    List.all_eq_true, hlt, true_or, and_true]
  constructor
  · rintro ⟨htwo, hsmall | hall⟩
    · exact (mem_smallPrimes_iff.mp hsmall).1
    · exact prime_of_all_smallPrimes htwo hlt hall
  · intro hprime
    refine ⟨hprime.two_le, ?_⟩
    by_cases hsmall : n ∈ smallPrimes
    · exact .inl hsmall
    · exact .inr (all_smallPrimes_of_prime hprime hsmall)

end RingShamir.Primality
