import Mathlib.Data.UInt
import Mathlib.Tactic.LinearCombination
import RingShamir.Modulus.Montgomery
import RingShamir.Proofs.Modulus.Residue
import RingShamir.Proofs.Outcome

/-!
# Exactness of Montgomery arithmetic

For an odd modulus the radix `2 ^ 64` is a unit modulo `p`.  The constants of the
modulus are what the reduction needs, and the reduction divides by the radix
exactly, for every number below the radix times the modulus.

Main results:

- Theorem `mul_iterate_newtonStep`: each Newton step doubles the number of right digits.
- Theorem `mul_inverseWord`: five Newton steps invert an odd word.
- Theorem `montgomeryReduce_eq`: reduction is division by the radix.
- Theorems `toMontgomery_eq`, `ofMontgomery_eq` and `montgomeryMul_eq`: the
  operations on reduced words succeed with the word of the class.
- Theorem `montgomeryResidue_mul`: the product of two Montgomery forms is the
  Montgomery form of the product.
-/

namespace RingShamir.Modulus

variable {ε : Type}

/-! ## The inverse of a word -/

section NewtonIteration

open scoped UInt64.CommRing

/-- A Newton step squares the error. -/
theorem newtonStep_error (p x : UInt64) :
    1 - p * newtonStep p x = (1 - p * x) ^ 2 := by
  unfold newtonStep
  ring

/-- An odd word is its own inverse modulo eight. -/
theorem odd_square_error {p : UInt64} (hp : p.toNat % 2 = 1) :
    ∃ k : UInt64, 1 - p * p = 8 * k := by
  obtain ⟨m, hm⟩ : ∃ m, p.toNat = 2 * m + 1 := ⟨p.toNat / 2, by omega⟩
  have htriangle : 2 ∣ m * (m + 1) := (Nat.even_mul_succ_self m).two_dvd
  rcases htriangle with ⟨j, hj⟩
  have hword : p = 2 * UInt64.ofNat m + 1 := by
    rw [← UInt64.ofNat_toNat (x := p), hm, UInt64.ofNat_add, UInt64.ofNat_mul]
    rfl
  have hproduct : UInt64.ofNat m * (UInt64.ofNat m + 1) = 2 * UInt64.ofNat j := by
    have h := congrArg UInt64.ofNat hj
    rw [UInt64.ofNat_mul, UInt64.ofNat_mul, UInt64.ofNat_add] at h
    exact h
  refine ⟨-UInt64.ofNat j, ?_⟩
  rw [hword]
  linear_combination (-4) * hproduct

/-- The error after `n` steps from an odd word is a multiple of the power of two with
exponent `3 * 2 ^ n`. -/
theorem exists_newtonStep_error {p : UInt64} (hp : p.toNat % 2 = 1) (n : Nat) :
    ∃ k, 1 - p * (newtonStep p)^[n] p = UInt64.ofNat (2 ^ (3 * 2 ^ n)) * k := by
  induction n with
  | zero => exact odd_square_error hp
  | succ n ih =>
      obtain ⟨k, hk⟩ := ih
      have hsquare : UInt64.ofNat (2 ^ (3 * 2 ^ (n + 1))) = UInt64.ofNat (2 ^ (3 * 2 ^ n)) ^ 2 := by
        rw [pow_two, ← UInt64.ofNat_mul, ← pow_add]
        congr 2
        ring
      refine ⟨k ^ 2, ?_⟩
      rw [Function.iterate_succ_apply', newtonStep_error, hk, mul_pow, hsquare]

end NewtonIteration

/-- A multiple of a power of two has zeros as its low digits. -/
theorem dvd_toNat_mul (m : Nat) (k : UInt64) :
    2 ^ min 64 m ∣ (UInt64.ofNat (2 ^ m) * k).toNat := by
  have hword : UInt64.ofNat (2 ^ m) * k = UInt64.ofNat (2 ^ m * k.toNat) := by
    rw [UInt64.ofNat_mul, UInt64.ofNat_toNat]
  have hradix : 2 ^ min 64 m ∣ 2 ^ 64 := pow_dvd_pow 2 (min_le_left 64 m)
  rw [hword, UInt64.toNat_ofNat', Nat.dvd_mod_iff hradix]
  exact (pow_dvd_pow 2 (min_le_right 64 m)).mul_right k.toNat

/-- After `n` steps from an odd word the lowest `3 * 2 ^ n` digits of the inverse are
right. -/
theorem mul_iterate_newtonStep {p : UInt64} (hp : p.toNat % 2 = 1) (n : Nat) :
    p.toNat * ((newtonStep p)^[n] p).toNat ≡ 1 [MOD 2 ^ min 64 (3 * 2 ^ n)] := by
  obtain ⟨k, hk⟩ := exists_newtonStep_error hp n
  have hdvd := dvd_toNat_mul (3 * 2 ^ n) k
  generalize (newtonStep p)^[n] p = x at hk ⊢
  generalize UInt64.ofNat (2 ^ (3 * 2 ^ n)) * k = e at hk hdvd
  have hone : p * x + e = 1 := by
    open scoped UInt64.CommRing in
    rw [← hk, add_sub_cancel]
  have hnat := congrArg UInt64.toNat hone
  rw [UInt64.toNat_add, UInt64.toNat_mul] at hnat
  have hradix : 2 ^ min 64 (3 * 2 ^ n) ∣ 2 ^ 64 := pow_dvd_pow 2 (min_le_left 64 _)
  calc p.toNat * x.toNat
      ≡ p.toNat * x.toNat % 2 ^ 64 + 0 [MOD 2 ^ min 64 (3 * 2 ^ n)] :=
        ((Nat.mod_modEq _ _).symm).of_dvd hradix
    _ ≡ p.toNat * x.toNat % 2 ^ 64 + e.toNat [MOD 2 ^ min 64 (3 * 2 ^ n)] :=
        (Nat.modEq_zero_iff_dvd.mpr hdvd).symm.add_left _
    _ ≡ 1 [MOD 2 ^ min 64 (3 * 2 ^ n)] := Nat.ModEq.of_dvd hradix hnat

/-- Five steps are enough for the inverse of an odd word. -/
theorem mul_inverseWord {p : UInt64} (hp : p.toNat % 2 = 1) : p * inverseWord p = 1 := by
  have hdigits : p.toNat * (inverseWord p).toNat ≡ 1 [MOD 2 ^ 64] := mul_iterate_newtonStep hp 5
  apply UInt64.toNat_inj.mp
  rw [UInt64.toNat_mul]
  exact hdigits

/-! ## The radix -/

/-- The radix of Montgomery arithmetic modulo `p`. -/
def radix (q : Modulus) : ZMod q.value.toNat :=
  ((2 ^ 64 : Nat) : ZMod q.value.toNat)

theorem radix_eq (q : Modulus) : q.radix = 2 ^ 64 := by
  simp only [radix, Nat.cast_pow, Nat.cast_ofNat]

/-- The class that a word is the Montgomery form of. -/
def montgomeryResidue (q : Modulus) (a : UInt64) : ZMod q.value.toNat :=
  q.residue a * q.radix⁻¹

theorem odd_of_isOdd {q : Modulus} (h : q.isOdd = true) : q.value.toNat % 2 = 1 := by
  have hword := congrArg UInt64.toNat (of_decide_eq_true h)
  rwa [UInt64.toNat_mod] at hword

/-- The radix is a unit modulo an odd number. -/
theorem radix_mul_inv {q : Modulus} (h : q.isOdd = true) : q.radix * q.radix⁻¹ = 1 := by
  have hodd : Odd q.value.toNat := Nat.odd_iff.mpr (odd_of_isOdd h)
  have hcoprime : Nat.Coprime (2 ^ 64) q.value.toNat :=
    Nat.Coprime.pow_left 64 (Nat.coprime_two_left.mpr hodd)
  exact ZMod.coe_mul_inv_eq_one (2 ^ 64) hcoprime

theorem residue_eq_mul_radix {q : Modulus} (h : q.isOdd = true) (a : UInt64) :
    q.residue a = q.montgomeryResidue a * q.radix := by
  rw [montgomeryResidue, mul_assoc, mul_comm q.radix⁻¹, radix_mul_inv h, mul_one]

theorem eq_mul_radix_inv {q : Modulus} (h : q.isOdd = true) {x y : ZMod q.value.toNat}
    (hxy : x * q.radix = y) : x = y * q.radix⁻¹ := by
  rw [← hxy, mul_assoc, radix_mul_inv h, mul_one]

/-- The constants of an odd modulus are those of its word. -/
theorem constants_of_isOdd {q : Modulus} (hq : q.Accepted) (h : q.isOdd = true) :
    q.negInverse = -inverseWord q.value ∧ q.radixSquared = radixSquaredMod q.value := by
  have hone : q.value % 2 = 1 := of_decide_eq_true h
  have hinverse := congrArg Modulus.negInverse hq.eq_withConstants
  have hsquare := congrArg Modulus.radixSquared hq.eq_withConstants
  simp only [withConstants, if_pos hone] at hinverse hsquare
  exact ⟨hinverse, hsquare⟩

/-- The stored square of the radix. -/
theorem residue_radixSquared {q : Modulus} (hq : q.Accepted) (h : q.isOdd = true) :
    q.residue q.radixSquared = q.radix * q.radix := by
  have hsize : UInt64.size = 2 ^ 64 := rfl
  have hlt := Nat.mod_lt (UInt64.size % q.value.toNat * (UInt64.size % q.value.toNat)) hq.pos
  have hword := q.value.toNat_lt
  simp only [(constants_of_isOdd hq h).2, radixSquaredMod, residue, radix]
  rw [UInt64.toNat_ofNat', Nat.mod_eq_of_lt (by omega), ZMod.natCast_mod, Nat.cast_mul,
    ZMod.natCast_mod, hsize]

/-- The stored negated inverse clears the low word: a number plus its product
with the inverse and the modulus is a multiple of the radix. -/
theorem clears_low_word {q : Modulus} (hq : q.Accepted) (h : q.isOdd = true) (t : Nat) :
    (t + Word.wideMul (UInt64.ofNat t * q.negInverse) q.value) % 2 ^ 64 = 0 := by
  have hinverse := mul_inverseWord (odd_of_isOdd h)
  have hword :
      UInt64.ofNat (t + Word.wideMul (UInt64.ofNat t * q.negInverse) q.value) = 0 := by
    open scoped UInt64.CommRing in
    rw [Word.wideMul, UInt64.ofNat_add, UInt64.ofNat_mul, UInt64.ofNat_toNat,
      UInt64.ofNat_toNat, (constants_of_isOdd hq h).1]
    linear_combination (-UInt64.ofNat t) * hinverse
  have hnat := congrArg UInt64.toNat hword
  rwa [UInt64.toNat_ofNat'] at hnat

/-! ## Exact operations -/

/-- Reduction divides by the radix. -/
theorem montgomeryReduce_eq {q : Modulus} (hq : q.Accepted) (h : q.isOdd = true) {t : Nat}
    (ht : t < q.value.toNat * 2 ^ 64) :
    (q.montgomeryReduce t : Outcome ε UInt64) =
      .ok (q.ofResidue ((t : ZMod q.value.toNat) * q.radix⁻¹)) := by
  have hlimit := hq.lt_limit
  have hclear := clears_low_word hq h t
  have hfactor := (UInt64.ofNat t * q.negInverse).toNat_lt
  have hwide : Word.wideMul (UInt64.ofNat t * q.negInverse) q.value <
      2 ^ 64 * q.value.toNat := by
    exact Nat.mul_lt_mul_of_pos_right hfactor hq.pos
  generalize hsum : t + Word.wideMul (UInt64.ofNat t * q.negInverse) q.value = sum at hclear
  have hbound : sum < 2 * q.value.toNat * 2 ^ 64 := by omega
  have hquotient : sum / 2 ^ 64 < 2 * q.value.toNat := by omega
  have hexact : sum / 2 ^ 64 * 2 ^ 64 = sum := by omega
  have hdouble : 2 * q.value.toNat ≤ 2 ^ 64 := by omega
  have hfits : sum < UInt64.size * UInt64.size :=
    hbound.trans_le (Nat.mul_le_mul_right (2 ^ 64) hdouble)
  have hword : (UInt64.ofNat (sum >>> 64)).toNat = sum / 2 ^ 64 := by
    rw [UInt64.toNat_ofNat', Nat.shiftRight_eq_div_pow, Nat.mod_eq_of_lt (by omega)]
  have hclass : q.residue (UInt64.ofNat (sum >>> 64)) =
      (t : ZMod q.value.toNat) * q.radix⁻¹ := by
    apply eq_mul_radix_inv h
    rw [residue, hword, radix, ← Nat.cast_mul, hexact, ← hsum, Nat.cast_add, Word.wideMul,
      Nat.cast_mul, ZMod.natCast_self, mul_zero, add_zero]
  have hreduce := reduceOnce_eq (ε := ε) hq (x := UInt64.ofNat (sum >>> 64)) (by omega)
  simp only [montgomeryReduce, hsum, Outcome.require_of hfits, bind, Except.bind, hreduce,
    hclass]

theorem toMontgomery_eq {q : Modulus} (hq : q.Accepted) (h : q.isOdd = true) {a : UInt64}
    (ha : a < q.value) :
    (q.toMontgomery a : Outcome ε UInt64) = .ok (q.ofResidue (q.residue a * q.radix)) := by
  have hbound : Word.wideMul a q.radixSquared < q.value.toNat * 2 ^ 64 :=
    Nat.mul_lt_mul'' (UInt64.lt_iff_toNat_lt.mp ha) q.radixSquared.toNat_lt
  have hclass : ((Word.wideMul a q.radixSquared : Nat) : ZMod q.value.toNat) * q.radix⁻¹ =
      q.residue a * q.radix := by
    have hsquare := residue_radixSquared hq h
    rw [residue] at hsquare
    rw [Word.wideMul, Nat.cast_mul, hsquare, mul_assoc, mul_assoc, radix_mul_inv h, mul_one,
      residue]
  simp only [toMontgomery, Outcome.require_of (And.intro h ha), bind, Except.bind,
    montgomeryReduce_eq hq h hbound, hclass]

theorem ofMontgomery_eq {q : Modulus} (hq : q.Accepted) (h : q.isOdd = true) {a : UInt64}
    (ha : a < q.value) :
    (q.ofMontgomery a : Outcome ε UInt64) = .ok (q.ofResidue (q.montgomeryResidue a)) := by
  have hlt := UInt64.lt_iff_toNat_lt.mp ha
  have hbound : a.toNat < q.value.toNat * 2 ^ 64 := by omega
  simp only [ofMontgomery, Outcome.require_of (And.intro h ha), bind, Except.bind,
    montgomeryReduce_eq hq h hbound]
  rfl

theorem montgomeryMul_eq {q : Modulus} (hq : q.Accepted) (h : q.isOdd = true) {a b : UInt64}
    (ha : a < q.value) (hb : b < q.value) :
    (q.montgomeryMul a b : Outcome ε UInt64) =
      .ok (q.ofResidue (q.residue a * q.montgomeryResidue b)) := by
  have hbound : Word.wideMul a b < q.value.toNat * 2 ^ 64 :=
    Nat.mul_lt_mul'' (UInt64.lt_iff_toNat_lt.mp ha) b.toNat_lt
  have hclass : ((Word.wideMul a b : Nat) : ZMod q.value.toNat) * q.radix⁻¹ =
      q.residue a * q.montgomeryResidue b := by
    rw [Word.wideMul, Nat.cast_mul, mul_assoc]
    rfl
  simp only [montgomeryMul, Outcome.require_of (And.intro h (And.intro ha hb)), bind,
    Except.bind, montgomeryReduce_eq hq h hbound, hclass]

/-! ## Montgomery forms -/

theorem montgomeryResidue_ofResidue {q : Modulus} (hq : q.Accepted) (z : ZMod q.value.toNat) :
    q.montgomeryResidue (q.ofResidue z) = z * q.radix⁻¹ := by
  rw [montgomeryResidue, residue_ofResidue hq]

/-- The word that `toMontgomery` returns is the Montgomery form of its operand. -/
theorem montgomeryResidue_mul_radix {q : Modulus} (hq : q.Accepted) (h : q.isOdd = true)
    (z : ZMod q.value.toNat) : q.montgomeryResidue (q.ofResidue (z * q.radix)) = z := by
  rw [montgomeryResidue_ofResidue hq, mul_assoc, radix_mul_inv h, mul_one]

/-- The product of two Montgomery forms is the Montgomery form of the product. -/
theorem montgomeryResidue_mul {q : Modulus} (hq : q.Accepted) (a b : UInt64) :
    q.montgomeryResidue (q.ofResidue (q.residue a * q.montgomeryResidue b)) =
      q.montgomeryResidue a * q.montgomeryResidue b := by
  rw [montgomeryResidue_ofResidue hq, montgomeryResidue, montgomeryResidue]
  ring

/-! ## Inverses -/

/-- An inverse that is returned was checked to be one. -/
theorem residue_mul_of_inverse {q : Modulus} (hq : q.Accepted) {a r : UInt64}
    (h : (q.inverse a : Outcome ε _) = .ok (some r)) :
    r < q.value ∧ q.residue a * q.residue r = 1 := by
  unfold inverse at h
  split at h
  · cases h
  · simp only [Outcome.bind_eq_ok, Outcome.require_eq_ok] at h
    rcases h with ⟨-, -, r', -, unit, hmul, -, hunit, hr⟩
    simp only [Outcome.pure_eq_ok, Except.ok.injEq, Option.some.injEq] at hr
    subst hr
    have hoperands : a < q.value ∧ r' < q.value := by
      simp only [mul, Outcome.bind_eq_ok, Outcome.require_eq_ok] at hmul
      exact hmul.choose_spec.1
    rw [mul_eq hoperands.1 hoperands.2, Except.ok.injEq] at hmul
    have hclass := congrArg q.residue (hmul.trans hunit)
    rw [residue_ofResidue hq] at hclass
    refine ⟨hoperands.2, ?_⟩
    rw [hclass, residue]
    simp

/-- An inverse of a Montgomery form is the Montgomery form of an inverse. -/
theorem montgomeryResidue_of_inverse {q : Modulus} (hq : q.Accepted) (h : q.isOdd = true)
    {a b : UInt64} (ha : a < q.value)
    (hinv : (q.montgomeryInverse a : Outcome ε _) = .ok (some b)) :
    b < q.value ∧ IsUnit (q.montgomeryResidue a) ∧
      q.montgomeryResidue b = (q.montgomeryResidue a)⁻¹ := by
  simp only [montgomeryInverse, ofMontgomery_eq hq h ha, Outcome.ok_bind,
    Outcome.bind_eq_ok] at hinv
  rcases hinv with ⟨o, hinverse, hrest⟩
  cases o with
  | none => cases hrest
  | some r =>
      obtain ⟨hr, hunit⟩ := residue_mul_of_inverse hq hinverse
      simp only [toMontgomery_eq hq h hr, Outcome.ok_bind, Outcome.pure_eq_ok,
        Except.ok.injEq, Option.some.injEq] at hrest
      subst hrest
      rw [residue_ofResidue hq] at hunit
      refine ⟨ofResidue_lt hq _, IsUnit.of_mul_eq_one _ hunit, ?_⟩
      rw [montgomeryResidue_mul_radix hq h]
      have hinverse := ZMod.mul_inv_of_unit _ (IsUnit.of_mul_eq_one _ hunit)
      calc q.residue r
          = q.residue r * (q.montgomeryResidue a * (q.montgomeryResidue a)⁻¹) := by
            rw [hinverse, mul_one]
        _ = (q.montgomeryResidue a)⁻¹ * (q.montgomeryResidue a * q.residue r) := by ring
        _ = (q.montgomeryResidue a)⁻¹ := by rw [hunit, mul_one]

/-! ## Moduli of bases -/

/-- A modulus that a basis can be made of: it is accepted, odd and found to be
prime. -/
structure Suitable (q : Modulus) : Prop extends Accepted q where
  /-- The modulus is odd. -/
  odd : q.isOdd = true
  /-- The modulus passes the primality test. -/
  tested : Primality.isPrime q.value.toNat = true

/-- The primality test is right on moduli. -/
def PrimalityExact (qs : List Modulus) : Prop :=
  ∀ q ∈ qs, Primality.isPrime q.value.toNat = true ↔ q.value.toNat.Prime

theorem Suitable.prime {q : Modulus} {qs : List Modulus} (h : q.Suitable)
    (hexact : PrimalityExact qs) (hq : q ∈ qs) : q.value.toNat.Prime :=
  (hexact q hq).mp h.tested

end RingShamir.Modulus
