import RingShamir.Proofs.Modulus.Power
import RingShamir.Proofs.Prime.Primality

/-!
# Inversion modulo a number

Inversion raises to the power `p - 2`, which is right for prime moduli only; the test of
the modulus keeps it from giving a wrong answer for any other one.  Where the test is
right, the words with an inverse are those other than zero modulo a prime, down to the
moduli two and three, whose exponents are zero and one.

Main results:

- Theorem `mul_inverse`: an inverse passes the check that is made before it is returned.
- Theorem `montgomeryMul_eq_one_iff`: what it is to be an inverse in Montgomery form.
- Definition `InversionExact` and theorem `inversion_exact`: which words have inverses,
  and that they have one inverse each.
-/

namespace RingShamir.Modulus

variable {ε : Type} {q : Modulus} {a r s : UInt64}

/-! ## Plain inverses -/

theorem isPrime_iff_of_exact (hq : q.Accepted)
    (hexact : Primality.isPrime q.value.toNat = true ↔ q.value.toNat.Prime) :
    q.isPrime = true ↔ q.value.toNat.Prime := by
  rw [hq.isPrime_eq, hexact]

/-- Where the primality test is right, inversion is defined on all reduced words, and
exactly the ones other than zero modulo a prime have an inverse. -/
theorem inverse_cases (hq : q.Accepted) (htest : q.isPrime = true ↔ q.value.toNat.Prime)
    (ha : a < q.value) :
    ((¬q.value.toNat.Prime ∨ a = 0) ∧ (q.inverse a : Outcome ε _) = .ok none) ∨
      ((q.value.toNat.Prime ∧ a ≠ 0) ∧ ∃ r, (q.inverse a : Outcome ε _) = .ok (some r)) := by
  by_cases hprime : q.value.toNat.Prime
  · have hinverse := inverse_eq (ε := ε) hq (htest.mpr hprime) hprime ha
    by_cases hzero : a = 0
    · rw [if_pos hzero] at hinverse
      exact .inl ⟨.inr hzero, hinverse⟩
    · rw [if_neg hzero] at hinverse
      exact .inr ⟨⟨hprime, hzero⟩, _, hinverse⟩
  · have hfalse : q.isPrime = false := Bool.eq_false_iff.mpr (mt htest.mp hprime)
    exact .inl ⟨.inl hprime, inverse_of_isPrime_eq_false hfalse a⟩

/-- The product of a word and its inverse is one. -/
theorem mul_inverse (hq : q.Accepted) (ha : a < q.value)
    (h : (q.inverse a : Outcome ε _) = .ok (some r)) :
    r < q.value ∧ (q.mul a r : Outcome ε UInt64) = .ok 1 ∧
      a.toNat * r.toNat % q.value.toNat = 1 := by
  obtain ⟨hr, hunit⟩ := residue_mul_of_inverse hq h
  have hclass : ((a.toNat * r.toNat : Nat) : ZMod q.value.toNat) = (1 : Nat) := by
    rw [Nat.cast_mul, Nat.cast_one]
    exact hunit
  have hmod := (ZMod.natCast_eq_natCast_iff' _ _ _).mp hclass
  rw [Nat.mod_eq_of_lt hq.two_le] at hmod
  refine ⟨hr, ?_, hmod⟩
  rw [mul_eq ha hr, hunit, ofResidue_one hq]

/-! ## Inverses in Montgomery form -/

/-- Reduced words that are Montgomery forms of one class are equal. -/
theorem montgomeryResidue_inj (h : q.isOdd = true) (ha : a < q.value) (hs : s < q.value) :
    q.montgomeryResidue a = q.montgomeryResidue s ↔ a = s := by
  rw [← residue_inj ha hs, residue_eq_mul_radix h a, residue_eq_mul_radix h s]
  constructor
  · intro heq
    rw [heq]
  · intro heq
    have hunit : IsUnit q.radix := IsUnit.of_mul_eq_one _ (radix_mul_inv h)
    exact hunit.mul_right_cancel heq

/-- A Montgomery product is the Montgomery form of one exactly when its factors are
Montgomery forms of inverse classes. -/
theorem montgomeryMul_eq_one_iff (hq : q.Accepted) (h : q.isOdd = true) (ha : a < q.value)
    (hs : s < q.value) :
    (q.montgomeryMul a s : Outcome ε UInt64) = q.toMontgomery 1 ↔
      q.montgomeryResidue a * q.montgomeryResidue s = 1 := by
  have hone : (1 : UInt64) < q.value := by
    rw [UInt64.lt_iff_toNat_lt, UInt64.toNat_one]
    exact hq.two_le
  have hclass := residue_eq_mul_radix h a
  have hunit := residue_ofResidue hq (1 : ZMod q.value.toNat)
  rw [ofResidue_one hq] at hunit
  rw [montgomeryMul_eq hq h ha hs, toMontgomery_eq hq h hone, Except.ok.injEq,
    ← residue_inj (ofResidue_lt hq _) (ofResidue_lt hq _), residue_ofResidue hq,
    residue_ofResidue hq, hunit, one_mul, hclass]
  constructor
  · intro heq
    have hproduct : q.montgomeryResidue a * q.montgomeryResidue s * q.radix = q.radix := by
      linear_combination heq
    rw [eq_mul_radix_inv h hproduct, radix_mul_inv h]
  · intro heq
    calc q.montgomeryResidue a * q.radix * q.montgomeryResidue s
        = q.montgomeryResidue a * q.montgomeryResidue s * q.radix := by ring
      _ = q.radix := by rw [heq, one_mul]

/-- Where the primality test is right, inversion of Montgomery forms is defined on all
reduced words; an inverse is the only reduced word whose Montgomery product with the
operand is the Montgomery form of one. -/
theorem montgomeryInverse_cases (hq : q.Accepted) (h : q.isOdd = true)
    (htest : q.isPrime = true ↔ q.value.toNat.Prime) (ha : a < q.value) :
    ((¬q.value.toNat.Prime ∨ a = 0) ∧ (q.montgomeryInverse a : Outcome ε _) = .ok none) ∨
      ((q.value.toNat.Prime ∧ a ≠ 0) ∧ ∃ r,
        (q.montgomeryInverse a : Outcome ε _) = .ok (some r) ∧ r < q.value ∧
          ∀ s < q.value, (q.montgomeryMul a s : Outcome ε UInt64) = q.toMontgomery 1 ↔ s = r) := by
  by_cases hprime : q.value.toNat.Prime
  · have htested : Primality.isPrime q.value.toNat = true := by
      rw [← hq.isPrime_eq, htest]
      exact hprime
    have hsuitable : q.Suitable := ⟨hq, h, htested⟩
    have hinverse := montgomeryInverse_eq (ε := ε) hsuitable hprime ha
    by_cases hzero : a = 0
    · rw [if_pos hzero] at hinverse
      exact .inl ⟨.inr hzero, hinverse⟩
    · rw [if_neg hzero] at hinverse
      have hfield := Fact.mk hprime
      have hclass : q.montgomeryResidue a ≠ 0 :=
        mt (montgomeryResidue_eq_zero_iff hsuitable ha).mp hzero
      have hlt := ofResidue_lt hq ((q.montgomeryResidue a)⁻¹ * q.radix)
      refine .inr ⟨⟨hprime, hzero⟩, _, hinverse, hlt, ?_⟩
      intro s hs
      rw [montgomeryMul_eq_one_iff hq h ha hs, mul_comm, mul_eq_one_iff_eq_inv₀ hclass,
        ← montgomeryResidue_inj h hs hlt, montgomeryResidue_mul_radix hq h]
  · have hfalse : q.isPrime = false := Bool.eq_false_iff.mpr (mt htest.mp hprime)
    refine .inl ⟨.inl hprime, ?_⟩
    simp only [montgomeryInverse, ofMontgomery_eq hq h ha, Outcome.ok_bind,
      inverse_of_isPrime_eq_false hfalse, Outcome.pure_eq_ok]

/-! ## All moduli -/

/-- Inversion modulo a number is exact. -/
structure InversionExact (q : Modulus) : Prop where
  /-- Inversion is defined on all reduced words: its check never fails. -/
  defined : ∀ (ε : Type) (a : UInt64), a < q.value → ∃ o, (q.inverse a : Outcome ε _) = .ok o
  /-- The words with an inverse are those other than zero modulo a prime. -/
  inverse_iff : ∀ (ε : Type) (a : UInt64), a < q.value →
    ((∃ r, (q.inverse a : Outcome ε _) = .ok (some r)) ↔ q.value.toNat.Prime ∧ a ≠ 0)
  /-- An inverse is a reduced word whose product with the operand is one. -/
  mul_inverse : ∀ (ε : Type) (a r : UInt64), a < q.value →
    (q.inverse a : Outcome ε _) = .ok (some r) →
      r < q.value ∧ (q.mul a r : Outcome ε UInt64) = .ok 1 ∧
        a.toNat * r.toNat % q.value.toNat = 1
  /-- The words without an inverse in Montgomery form are the same. -/
  montgomeryInverse_none_iff : q.isOdd = true → ∀ (ε : Type) (a : UInt64), a < q.value →
    ((q.montgomeryInverse a : Outcome ε _) = .ok none ↔ ¬q.value.toNat.Prime ∨ a = 0)
  /-- Any other word has an inverse in Montgomery form, and only one. -/
  montgomeryInverse_unique : q.isOdd = true → ∀ (ε : Type) (a : UInt64), a < q.value →
    q.value.toNat.Prime → a ≠ 0 → ∃ r one,
      (q.montgomeryInverse a : Outcome ε _) = .ok (some r) ∧ r < q.value ∧
        (q.toMontgomery 1 : Outcome ε UInt64) = .ok one ∧
          ∀ s < q.value, (q.montgomeryMul a s : Outcome ε UInt64) = .ok one ↔ s = r

theorem inversionExact_of_accepted (hq : q.Accepted)
    (htest : q.isPrime = true ↔ q.value.toNat.Prime) : q.InversionExact where
  defined ε a ha := by
    rcases inverse_cases (ε := ε) hq htest ha with ⟨-, hnone⟩ | ⟨-, r, hr⟩
    · exact ⟨none, hnone⟩
    · exact ⟨some r, hr⟩
  inverse_iff ε a ha := by
    rcases inverse_cases (ε := ε) hq htest ha with ⟨hno, hnone⟩ | ⟨hyes, r, hr⟩
    · simp only [hnone, Except.ok.injEq, reduceCtorEq, exists_false, false_iff, not_and_or,
        not_not, ne_eq]
      exact hno
    · exact ⟨fun _ => hyes, fun _ => ⟨r, hr⟩⟩
  mul_inverse _ _ _ ha hr := mul_inverse hq ha hr
  montgomeryInverse_none_iff h ε a ha := by
    rcases montgomeryInverse_cases (ε := ε) hq h htest ha with ⟨hno, hnone⟩ | ⟨hyes, r, hr, -⟩
    · exact ⟨fun _ => hno, fun _ => hnone⟩
    · simp [hr, hyes.1, hyes.2]
  montgomeryInverse_unique h ε a ha hprime hne := by
    have hone : (1 : UInt64) < q.value := by
      rw [UInt64.lt_iff_toNat_lt, UInt64.toNat_one]
      exact hq.two_le
    rcases montgomeryInverse_cases (ε := ε) hq h htest ha with ⟨hno, -⟩ | ⟨-, r, hr, hlt, hunique⟩
    · exact absurd hno (not_or.mpr ⟨not_not.mpr hprime, hne⟩)
    · have honeForm := toMontgomery_eq (ε := ε) hq h hone
      refine ⟨r, _, hr, hlt, honeForm, ?_⟩
      rw [← honeForm]
      exact hunique

/-- Inversion is exact modulo every number from 2 to `2 ^ 62 - 1` on which the primality
test is right. -/
theorem inversion_exact {p : UInt64} (hlow : 2 ≤ p.toNat) (hlimit : p.toNat < 2 ^ 62)
    (hexact : Primality.isPrime p.toNat = true ↔ p.toNat.Prime) :
    ∃ q, ofWord p = .ok q ∧ q.value = p ∧ q.InversionExact := by
  have hmodulus := ofWord_of_lt hlow hlimit
  have haccepted := (accepted_of_ofWord hmodulus).2
  exact ⟨_, hmodulus, rfl, inversionExact_of_accepted haccepted
    (isPrime_iff_of_exact haccepted hexact)⟩

/-- The inverse of two modulo 1153 is 577.  Modulo the product of 3, 5, 7 and 11 nothing
has an inverse, not even two. -/
theorem inversion_exact_of_small :
    (∃ q, ofWord 1153 = .ok q ∧ (q.inverse 2 : Outcome RingError _) = .ok (some 577)) ∧
      ∃ q, ofWord 1155 = .ok q ∧ (q.inverse 2 : Outcome RingError _) = .ok none := by
  have hsmall := Primality.exactOn_small
  constructor
  · obtain ⟨q, hq, hvalue, hexact⟩ :=
      inversion_exact (p := 1153) (by decide) (by decide) (hsmall 1153 (by decide))
    have hlt : (2 : UInt64) < q.value := hvalue ▸ by decide
    have hprime : q.value.toNat.Prime := by
      rw [hvalue]
      change Nat.Prime 1153
      norm_num
    obtain ⟨r, hr⟩ := (hexact.inverse_iff RingError 2 hlt).mpr ⟨hprime, by decide⟩
    obtain ⟨hrlt, -, hproduct⟩ := hexact.mul_inverse RingError 2 r hlt hr
    rw [hvalue] at hrlt hproduct
    obtain rfl : r = 577 := by
      have hnat : r.toNat < 1153 := UInt64.lt_iff_toNat_lt.mp hrlt
      have htwice : 2 * r.toNat % 1153 = 1 := hproduct
      apply UInt64.toNat_inj.mp
      change r.toNat = 577
      omega
    exact ⟨q, hq, hr⟩
  · obtain ⟨q, hq, hvalue, hexact⟩ :=
      inversion_exact (p := 1155) (by decide) (by decide) (hsmall 1155 (by decide))
    have hlt : (2 : UInt64) < q.value := hvalue ▸ by decide
    have hcomposite : ¬q.value.toNat.Prime := by
      rw [hvalue]
      change ¬Nat.Prime 1155
      norm_num
    obtain ⟨o, ho⟩ := hexact.defined RingError 2 hlt
    cases o with
    | none => exact ⟨q, hq, ho⟩
    | some r => exact absurd ((hexact.inverse_iff RingError 2 hlt).mp ⟨r, ho⟩).1 hcomposite

end RingShamir.Modulus
