import Mathlib.FieldTheory.Finite.Basic
import RingShamir.Proofs.Modulus.MontgomeryForm

/-!
# Powers and inverses of residues

Reading the digits of an exponent from the top raises a residue to the power of the
exponent.  For a prime modulus the power with exponent `p - 2` is therefore an
inverse, by Fermat's little theorem, and the check of the inverse that the
operations make before they return it cannot fail.

Main results:

- Theorem `powDigits_eq`: the running power after the lowest digits are read.
- Theorem `pow_eq`: the power of a reduced word.
- Theorems `inverse_eq` and `montgomeryInverse_eq`: every reduced word other than
  zero has an inverse modulo a prime.
-/

namespace RingShamir.Modulus

variable {ε : Type} {q : Modulus} {a b : UInt64}

/-! ## Powers -/

/-- Each digit that is read squares the running power, and a one multiplies it by
the base. -/
theorem powDigits_eq (hq : q.Accepted) (ha : a < q.value) (n : UInt64) (i : Nat) {r : UInt64}
    (hr : r < q.value) : (powDigits q a n i r : Outcome ε UInt64) =
      .ok (q.ofResidue (q.residue r ^ 2 ^ i * q.residue a ^ (n.toNat % 2 ^ i))) := by
  induction i generalizing r with
  | zero =>
      rw [powDigits, Outcome.pure_eq_ok, pow_zero, pow_one, Nat.mod_one, pow_zero, mul_one,
        ofResidue_residue hr]
  | succ i ih =>
      have hsquare := mul_eq (ε := ε) hr hr
      have hlt := ofResidue_lt hq (q.residue r * q.residue r)
      have hexponent : n.toNat % 2 ^ (i + 1) =
          n.toNat % 2 ^ i + 2 ^ i * (n.toNat.testBit i).toNat := by
        rw [Nat.mod_pow_succ, Nat.toNat_testBit]
      simp only [powDigits, hsquare, Outcome.ok_bind]
      split
      next hdigit =>
          rw [mul_eq hlt ha, Outcome.ok_bind, ih (ofResidue_lt hq _), residue_ofResidue hq,
            residue_ofResidue hq, hexponent, hdigit, Bool.toNat_true]
          congr 2
          ring
      next hdigit =>
          rw [Bool.not_eq_true] at hdigit
          rw [Outcome.pure_eq_ok, Outcome.ok_bind, ih hlt, residue_ofResidue hq, hexponent,
            hdigit, Bool.toNat_false]
          congr 2
          ring

theorem ofResidue_one (hq : q.Accepted) : q.ofResidue (1 : ZMod q.value.toNat) = 1 := by
  have hone : (1 : UInt64) < q.value := by
    rw [UInt64.lt_iff_toNat_lt, UInt64.toNat_one]
    exact hq.two_le
  have hword := ofResidue_residue hone
  rwa [residue, UInt64.toNat_one, Nat.cast_one] at hword

/-- An exponent of two or more digits has one below the top digit. -/
theorem exists_nextDigit {n : UInt64} (hzero : n ≠ 0) (hone : n ≠ 1) :
    ∃ i, (Word.sub 62 (Word.leadingZeros n) : Outcome ε UInt64) = .ok i ∧
      i.toNat + 1 = n.toNat.log2 := by
  have htwo : 2 ≤ n.toNat := by
    have hne : n.toNat ≠ 0 := fun h => hzero (UInt64.toNat_inj.mp h)
    have hne' : n.toNat ≠ 1 := fun h => hone (UInt64.toNat_inj.mp h)
    omega
  have hlow : 1 ≤ n.toNat.log2 := (Nat.le_log2 (by omega)).mpr htwo
  have htop : n.toNat.log2 < 64 := (Nat.log2_lt (by omega)).mpr n.toNat_lt
  have hle : Word.leadingZeros n ≤ 62 := by
    rw [UInt64.le_iff_toNat_le, Word.toNat_leadingZeros hzero]
    exact Nat.sub_le_sub_left hlow 63
  refine ⟨_, Word.sub_of_le hle, ?_⟩
  rw [UInt64.toNat_sub_of_le _ _ hle, Word.toNat_leadingZeros hzero]
  change 62 - (63 - n.toNat.log2) + 1 = n.toNat.log2
  omega

theorem pow_eq (hq : q.Accepted) (ha : a < q.value) {n : UInt64} (hn : n < q.value) :
    (q.pow a n : Outcome ε UInt64) = .ok (q.ofResidue (q.residue a ^ n.toNat)) := by
  simp only [pow, Outcome.require_of (And.intro ha hn), Outcome.ok_bind]
  split
  next hzero => rw [hzero, UInt64.toNat_zero, pow_zero, ofResidue_one hq, Outcome.pure_eq_ok]
  next hzero =>
      split
      next hn => rw [hn, UInt64.toNat_one, pow_one, ofResidue_residue ha, Outcome.pure_eq_ok]
      next hone =>
          have hpos : n.toNat ≠ 0 := fun h => hzero (UInt64.toNat_inj.mp h)
          have htop := Nat.log2_self_le hpos
          have hbelow := @Nat.lt_log2_self n.toNat
          have hrest : n.toNat % 2 ^ n.toNat.log2 = n.toNat - 2 ^ n.toNat.log2 := by
            rw [Nat.mod_eq_sub_mod htop, Nat.mod_eq_of_lt]
            rw [Nat.pow_succ] at hbelow
            omega
          obtain ⟨i, hi, hplace⟩ := exists_nextDigit (ε := ε) hzero hone
          rw [hi, Outcome.ok_bind, powDigits_eq hq ha n _ ha, hplace, ← pow_add, hrest,
            Nat.add_sub_cancel' htop]

/-! ## Inverses -/

/-- Fermat's little theorem, as an inverse. -/
theorem residue_mul_pow (hprime : q.value.toNat.Prime) (ha : a < q.value) (hne : a ≠ 0) :
    q.residue a * q.residue a ^ (q.value.toNat - 2) = 1 := by
  have := Fact.mk hprime
  have hclass : q.residue a ≠ 0 := by
    intro hzero
    have hpos : (0 : UInt64) < q.value := by
      rw [UInt64.lt_iff_toNat_lt]
      simpa using hprime.pos
    exact hne ((residue_inj ha hpos).mp (hzero.trans (residue_zero q).symm))
  rw [← pow_succ', show q.value.toNat - 2 + 1 = q.value.toNat - 1 by
    have := hprime.two_le
    omega]
  exact ZMod.pow_card_sub_one_eq_one hclass

/-- A modulus carries the answer of the primality test. -/
theorem Accepted.isPrime_eq (hq : q.Accepted) : q.isPrime = Primality.isPrime q.value.toNat := by
  rw [hq.eq_withConstants, isPrime_withConstants, value_withConstants]

theorem Suitable.isPrime (hq : q.Suitable) : q.isPrime = true := by
  rw [hq.toAccepted.isPrime_eq, hq.tested]

/-- Modulo a number that fails the primality test nothing has an inverse. -/
theorem inverse_of_isPrime_eq_false (h : q.isPrime = false) (a : UInt64) :
    (q.inverse a : Outcome ε _) = .ok none := by
  simp only [inverse, h, Bool.not_false, Bool.true_or, if_true, Outcome.pure_eq_ok]

theorem inverse_eq (hq : q.Accepted) (htested : q.isPrime = true) (hprime : q.value.toNat.Prime)
    (ha : a < q.value) : (q.inverse a : Outcome ε _) = .ok
      (if a = 0 then none else some (q.ofResidue (q.residue a ^ (q.value.toNat - 2)))) := by
  have htwo : 2 ≤ q.value := by
    rw [UInt64.le_iff_toNat_le]
    exact hq.two_le
  have hexponent : (q.value - 2).toNat = q.value.toNat - 2 := UInt64.toNat_sub_of_le _ _ htwo
  have hlt : q.value - 2 < q.value := by
    have := hq.two_le
    rw [UInt64.lt_iff_toNat_lt, hexponent]
    omega
  simp only [inverse, htested, Bool.not_true, Bool.false_or, decide_eq_true_eq]
  split
  next => rfl
  next hne =>
      have hproduct := residue_mul_pow hprime ha hne
      have hpower := ofResidue_lt hq (q.residue a ^ (q.value.toNat - 2))
      rw [Word.sub_of_le htwo, Outcome.ok_bind, pow_eq hq ha hlt, hexponent, Outcome.ok_bind,
        mul_eq ha hpower, Outcome.ok_bind, residue_ofResidue hq, hproduct, ofResidue_one hq,
        Outcome.require_of rfl, Outcome.ok_bind, Outcome.pure_eq_ok]

theorem ofResidue_eq_zero_iff (hq : q.Accepted) (z : ZMod q.value.toNat) :
    q.ofResidue z = 0 ↔ z = 0 := by
  constructor
  · intro hzero
    rw [← residue_ofResidue hq z, hzero, residue_zero]
  · rintro rfl
    simp [ofResidue]

theorem montgomeryResidue_eq_zero_iff (hq : q.Suitable) (ha : a < q.value) :
    q.montgomeryResidue a = 0 ↔ a = 0 := by
  constructor
  · intro hzero
    have hclass := residue_eq_mul_radix hq.odd a
    rw [hzero, zero_mul] at hclass
    exact (residue_inj ha hq.zero_lt).mp (hclass.trans (residue_zero q).symm)
  · rintro rfl
    rw [montgomeryResidue, residue_zero, zero_mul]

/-- The inverse of a Montgomery form other than zero is the Montgomery form of the
inverse class. -/
theorem montgomeryInverse_eq (hq : q.Suitable) (hprime : q.value.toNat.Prime) (ha : a < q.value) :
    (q.montgomeryInverse a : Outcome ε _) = .ok
      (if a = 0 then none else some (q.ofResidue ((q.montgomeryResidue a)⁻¹ * q.radix))) := by
  have hplain := ofResidue_lt hq.toAccepted (q.montgomeryResidue a)
  have hzero : q.ofResidue (q.montgomeryResidue a) = 0 ↔ a = 0 :=
    (ofResidue_eq_zero_iff hq.toAccepted _).trans (montgomeryResidue_eq_zero_iff hq ha)
  simp only [montgomeryInverse, ofMontgomery_eq hq.toAccepted hq.odd ha, Outcome.ok_bind,
    inverse_eq hq.toAccepted hq.isPrime hprime hplain, hzero]
  by_cases hne : a = 0
  · rw [if_pos hne, if_pos hne, Outcome.pure_eq_ok]
  · have := Fact.mk hprime
    have hpower := residue_mul_pow hprime hplain (mt hzero.mp hne)
    rw [residue_ofResidue hq.toAccepted] at hpower
    rw [if_neg hne, if_neg hne, residue_ofResidue hq.toAccepted,
      eq_inv_of_mul_eq_one_right hpower]
    simp only [toMontgomery_eq hq.toAccepted hq.odd (ofResidue_lt hq.toAccepted _),
      residue_ofResidue hq.toAccepted, Outcome.ok_bind, Outcome.pure_eq_ok]

end RingShamir.Modulus
