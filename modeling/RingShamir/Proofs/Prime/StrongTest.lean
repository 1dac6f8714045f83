import Mathlib.FieldTheory.Finite.Basic
import RingShamir.Proofs.Prime.Primality

/-!
# Primes pass the primality test

By Fermat's little theorem the last of the powers that the strong test of a prime goes
through is one, and modulo a prime the only square roots of one are one and minus one.
So the powers are one from the start on, or they get there by way of minus one, and no
prime is taken for a composite number.  This holds of the test that is run here; the one that
it stands for is documented to accept all primes as well.

Main results:

- Theorem `powMod_eq`: the modular power is the remainder of the power.
- Theorem `strongTest_of_prime`: a prime passes the test to a base that it does not divide.
- Theorem `isPrime_of_prime`: no prime is refused.
-/

namespace RingShamir.Primality

variable {n a x s : Nat}

/-! ## Powers -/

/-- Each digit that is read squares the running power, and a one multiplies it by the
base. -/
theorem powModDigits_modEq (b e m i r : Nat) :
    powModDigits b e m i r ≡ r ^ 2 ^ i * b ^ (e % 2 ^ i) [MOD m] := by
  induction i generalizing r with
  | zero => simp [powModDigits, Nat.mod_one, Nat.ModEq.refl]
  | succ i ih =>
      have hexponent : e % 2 ^ (i + 1) = e % 2 ^ i + 2 ^ i * (e.testBit i).toNat := by
        rw [Nat.mod_pow_succ, Nat.toNat_testBit]
      have hsquare : r * r % m ≡ r ^ 2 [MOD m] := by
        rw [← pow_two]
        exact Nat.mod_modEq _ _
      rw [powModDigits, hexponent]
      split
      next hdigit =>
          have hnext : r * r % m * b % m ≡ r ^ 2 * b [MOD m] :=
            (Nat.mod_modEq _ _).trans (hsquare.mul_right b)
          refine (ih _).trans (((hnext.pow (2 ^ i)).mul_right _).trans ?_)
          rw [hdigit, Bool.toNat_true, pow_succ' 2 i, pow_mul, mul_pow, pow_add, mul_one,
            mul_assoc, mul_comm (b ^ 2 ^ i)]
      next hdigit =>
          rw [Bool.not_eq_true] at hdigit
          refine (ih _).trans (((hsquare.pow (2 ^ i)).mul_right _).trans ?_)
          rw [hdigit, Bool.toNat_false, mul_zero, add_zero, pow_succ' 2 i, pow_mul]

/-- The modular power is the remainder of the power. -/
theorem powMod_eq {m : Nat} (b e : Nat) (hm : 0 < m) : powMod b e m = b ^ e % m := by
  have hdigits : e % 2 ^ (e.log2 + 1) = e := Nat.mod_eq_of_lt Nat.lt_log2_self
  have hone : 1 % m ≡ 1 [MOD m] := Nat.mod_modEq 1 m
  have hpower : powMod b e m ≡ b ^ e [MOD m] := by
    have h := powModDigits_modEq b e m (e.log2 + 1) (1 % m)
    rw [hdigits] at h
    have hstart := (hone.pow (2 ^ (e.log2 + 1))).mul_right (b ^ e)
    rw [one_pow, one_mul] at hstart
    exact h.trans hstart
  rw [← hpower, Nat.mod_eq_of_lt (powMod_lt b e hm)]

/-- A number is the product of the part that is left and of the power of two that it was
freed of. -/
theorem oddPart_eq (i n : Nat) : 2 ^ (oddPart i n).2 * (oddPart i n).1 = n := by
  induction i generalizing n with
  | zero => simp [oddPart]
  | succ i ih =>
      rw [oddPart]
      split
      next heven =>
          have hhalf : 2 * (n / 2) = n := Nat.mul_div_cancel' (Nat.dvd_of_mod_eq_zero heven)
          change 2 ^ ((oddPart i (n / 2)).2 + 1) * (oddPart i (n / 2)).1 = n
          rw [pow_succ', mul_assoc, ih, hhalf]
      next => simp

/-! ## Square roots of one -/

/-- Modulo a prime the only reduced numbers whose square is one are one and minus one. -/
theorem eq_one_or_of_square (hn : n.Prime) (hx : x < n) (hsquare : x * x % n = 1) :
    x = 1 ∨ x = n - 1 := by
  have hpos : 0 < x := by
    rcases Nat.eq_zero_or_pos x with rfl | hpos
    · simp at hsquare
    · exact hpos
  have hone : 1 ≡ x * x [MOD n] := by rw [Nat.ModEq, hsquare, Nat.mod_eq_of_lt hn.one_lt]
  have hdvd : n ∣ (x + 1) * (x - 1) := by
    have hfactors : x * x - 1 = (x + 1) * (x - 1) := by
      rw [← Nat.mul_self_sub_mul_self_eq, one_mul]
    rw [← hfactors]
    exact (Nat.modEq_iff_dvd' (Nat.mul_pos hpos hpos)).mp hone
  rcases hn.dvd_mul.mp hdvd with hplus | hminus
  · have hle := Nat.le_of_dvd (Nat.succ_pos x) hplus
    exact .inr (by omega)
  · rcases Nat.eq_zero_or_pos (x - 1) with hzero | hrest
    · exact .inl (by omega)
    · have hle := Nat.le_of_dvd hrest hminus
      omega

/-- If repeated squaring modulo a prime ends with one, it starts there or meets minus
one. -/
theorem eq_one_or_squaringMeets (hn : n.Prime) (hx : x < n) (h : x ^ 2 ^ s ≡ 1 [MOD n]) :
    x = 1 ∨ squaringMeets n s x = true := by
  induction s generalizing x with
  | zero =>
      rw [pow_zero, pow_one, Nat.ModEq, Nat.mod_eq_of_lt hx, Nat.mod_eq_of_lt hn.one_lt] at h
      exact .inl h
  | succ s ih =>
      have hsquare : x * x % n ≡ x ^ 2 [MOD n] := by
        rw [pow_two]
        exact Nat.mod_modEq _ _
      have hlast : (x * x % n) ^ 2 ^ s ≡ 1 [MOD n] := by
        refine (hsquare.pow _).trans ?_
        rwa [← pow_mul, ← pow_succ']
      rcases ih (Nat.mod_lt _ hn.pos) hlast with hone | hmeets
      · rcases eq_one_or_of_square hn hx hone with rfl | rfl
        · exact .inl rfl
        · exact .inr (by simp [squaringMeets])
      · exact .inr (by simp [squaringMeets, hmeets])

/-! ## The tests -/

/-- A prime passes the strong test to every base that it does not divide. -/
theorem strongTest_of_prime (hn : n.Prime) (hcoprime : a.Coprime n) : strongTest n a = true := by
  have hparts := oddPart_eq 64 (n - 1)
  have hfermat : a ^ (n - 1) ≡ 1 [MOD n] := by
    rw [← Nat.totient_prime hn]
    exact Nat.ModEq.pow_totient hcoprime
  have hpower : (a ^ (oddPart 64 (n - 1)).1 % n) ^ 2 ^ (oddPart 64 (n - 1)).2 ≡ 1 [MOD n] := by
    refine ((Nat.mod_modEq _ _).pow _).trans ?_
    rwa [← pow_mul, mul_comm, hparts]
  have hmeets := eq_one_or_squaringMeets hn (Nat.mod_lt _ hn.pos) hpower
  simpa only [strongTest, powMod_eq _ _ hn.pos, Bool.or_eq_true, decide_eq_true_eq] using hmeets

/-- No prime is refused. -/
theorem isPrime_of_prime (hn : n.Prime) : isPrime n = true := by
  simp only [isPrime, Bool.and_eq_true, Bool.or_eq_true, decide_eq_true_eq, List.contains_iff_mem,
    List.all_eq_true]
  refine ⟨hn.two_le, ?_⟩
  by_cases hsmall : n ∈ smallPrimes
  · exact .inl hsmall
  · refine .inr ⟨all_smallPrimes_of_prime hn hsmall, .inr fun q hq => ?_⟩
    have hprime := (mem_smallPrimes_iff.mp hq).1
    have hne : q ≠ n := fun heq => hsmall (heq ▸ hq)
    exact strongTest_of_prime hn ((Nat.coprime_primes hprime hn).mpr hne)

end RingShamir.Primality
