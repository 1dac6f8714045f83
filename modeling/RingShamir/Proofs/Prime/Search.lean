import Mathlib.Data.Nat.ModEq
import Mathlib.Data.Nat.Size
import Mathlib.Order.Bounds.Basic
import RingShamir.Prime.Search
import RingShamir.Proofs.Outcome
import RingShamir.Proofs.Prime.Primality

/-!
# The greatest prime of a progression

The search visits every member of the progression between its bound and the least number
of the size that is asked for, so the first prime that it meets is the greatest one, and
if it meets none there is none.  No word operation of the search wraps around.

Main results:

- Definition `GreatestWord`: a word is the greatest member of a set of numbers, or the
  set is empty.
- Theorem `searchDown_greatest`: what a walk down the progression finds.
- Theorem `exists_greatestPrime`: what the search finds, by the primality test.
-/

namespace RingShamir.PrimeSearch

variable {ε : Type}

/-! ## Greatest members -/

/-- An optional word is the greatest member of a set of numbers; there is none if the set
is empty. -/
def GreatestWord (S : Set Nat) : Option UInt64 → Prop
  | some p => IsGreatest S p.toNat
  | none => S = ∅

/-- A set has at most one greatest member. -/
theorem GreatestWord.unique {S : Set Nat} {o o' : Option UInt64} (h : GreatestWord S o)
    (h' : GreatestWord S o') : o = o' := by
  cases o with
  | none =>
      cases o' with
      | none => rfl
      | some p => exact absurd h'.1 (Set.eq_empty_iff_forall_notMem.mp h p.toNat)
  | some p =>
      cases o' with
      | none => exact absurd h.1 (Set.eq_empty_iff_forall_notMem.mp h' p.toNat)
      | some p' => rw [UInt64.toNat_inj.mp (IsGreatest.unique h h')]

theorem isPowerOfTwo_iff {n : Nat} : isPowerOfTwo n = true ↔ n.isPowerOfTwo := by
  simp only [isPowerOfTwo, Nat.shiftLeft_eq, one_mul, ne_eq, Bool.and_eq_true, decide_eq_true_eq,
    Nat.isPowerOfTwo]
  constructor
  · rintro ⟨-, hlog⟩
    exact ⟨n.log2, hlog.symm⟩
  · rintro ⟨k, rfl⟩
    exact ⟨(Nat.two_pow_pos k).ne', by rw [Nat.log2_two_pow]⟩

/-! ## The walk -/

section Walk

variable {step low candidate : UInt64}

/-- The members of the progression through a candidate that a walk down from it can find:
those that pass the test and are not below `low`. -/
def visited (step low candidate : UInt64) : Set Nat :=
  {n | Primality.isPrime n = true ∧ n ≡ candidate.toNat [MOD step.toNat] ∧ low.toNat ≤ n ∧
    n ≤ candidate.toNat}

/-- Smaller members of a progression are smaller by a whole step. -/
theorem le_sub_of_modEq {n c d : Nat} (h : n ≡ c [MOD d]) (hlt : n < c) : n ≤ c - d ∧ d ≤ c := by
  have hdvd := (Nat.modEq_iff_dvd' hlt.le).mp h
  have hle := Nat.le_of_dvd (Nat.sub_pos_of_lt hlt) hdvd
  omega

/-- A candidate that fails the test is passed over. -/
theorem visited_sub (hfail : ¬Primality.isPrime candidate.toNat = true) (hle : step ≤ candidate) :
    visited step low (candidate - step) = visited step low candidate := by
  have hstep := UInt64.le_iff_toNat_le.mp hle
  have hclass : candidate.toNat - step.toNat ≡ candidate.toNat [MOD step.toNat] :=
    (Nat.modEq_iff_dvd' (Nat.sub_le _ _)).mpr (by rw [Nat.sub_sub_self hstep])
  ext n
  simp only [visited, Set.mem_ofPred_eq, UInt64.toNat_sub_of_le _ _ hle]
  constructor
  · rintro ⟨hprime, hmod, hlow, hmax⟩
    exact ⟨hprime, hmod.trans hclass, hlow, hmax.trans (Nat.sub_le _ _)⟩
  · rintro ⟨hprime, hmod, hlow, hmax⟩
    have hne : n ≠ candidate.toNat := by
      rintro rfl
      exact hfail hprime
    have hlt := lt_of_le_of_ne hmax hne
    exact ⟨hprime, hmod.trans hclass.symm, hlow, (le_sub_of_modEq hmod hlt).1⟩

/-- A walk finds the greatest member of the progression that passes the test and is not
below `low`. -/
theorem searchDown_greatest (hstep : 0 < step) (low candidate : UInt64) :
    GreatestWord (visited step low candidate) (searchDown step low candidate) := by
  induction candidate using searchDown.induct step low with
  | case1 candidate hlow =>
      rw [searchDown, if_pos hlow]
      apply Set.eq_empty_of_forall_notMem
      rintro n ⟨-, -, hge, hle⟩
      have hlt := UInt64.lt_iff_toNat_lt.mp hlow
      omega
  | case2 candidate hlow hprime =>
      rw [searchDown, if_neg hlow, if_pos hprime]
      have hle := UInt64.le_iff_toNat_le.mp (UInt64.not_lt.mp hlow)
      exact ⟨⟨hprime, rfl, hle, le_rfl⟩, fun n hn => hn.2.2.2⟩
  | case3 candidate hlow hprime hsub ih =>
      rw [searchDown, if_neg hlow, if_neg hprime, if_pos hsub, ← visited_sub hprime hsub.2]
      exact ih
  | case4 candidate hlow hprime hsub =>
      rw [searchDown, if_neg hlow, if_neg hprime, if_neg hsub]
      apply Set.eq_empty_of_forall_notMem
      rintro n ⟨htested, hmod, -, hle⟩
      rcases eq_or_lt_of_le hle with rfl | hlt
      · exact hprime htested
      · have hstepLe := (le_sub_of_modEq hmod hlt).2
        exact hsub ⟨hstep, UInt64.le_iff_toNat_le.mpr hstepLe⟩

end Walk

/-! ## The search -/

/-- The numbers of `bits` binary digits that are one more than a multiple of the step and
have a property. -/
def progression (P : Nat → Prop) (bits step : Nat) : Set Nat :=
  {n | P n ∧ n.size = bits ∧ n ≡ 1 [MOD step]}

theorem size_eq_iff {n bits : Nat} (hbits : 0 < bits) :
    n.size = bits ↔ 2 ^ (bits - 1) ≤ n ∧ n < 2 ^ bits := by
  rw [← Nat.lt_size, ← Nat.size_le]
  omega

/-- Powers of two below the radix are words. -/
theorem toNat_one_shiftLeft {k : Nat} (hk : k < 64) :
    ((1 : UInt64) <<< UInt64.ofNat k).toNat = 2 ^ k := by
  have hword : (UInt64.ofNat k).toNat = k := by
    rw [UInt64.toNat_ofNat', Nat.mod_eq_of_lt (by omega)]
  have hlt : 2 ^ k < 2 ^ 64 := Nat.pow_lt_pow_right (by decide) hk
  rw [UInt64.toNat_shiftLeft, hword, UInt64.toNat_one, Nat.mod_eq_of_lt hk, Nat.shiftLeft_eq,
    one_mul, Nat.mod_eq_of_lt hlt]

/-- No number of ten or more digits below the bound is one more than a multiple of a step
that is not below the bound. -/
theorem progression_eq_empty {P : Nat → Prop} {bits step bound : Nat} (hbits : 10 ≤ bits)
    (h : bound < 2 ∨ bound ≤ step) : progression P bits step ∩ Set.Iio bound = ∅ := by
  apply Set.eq_empty_of_forall_notMem
  rintro n ⟨⟨-, hsize, hmod⟩, hlt⟩
  have hlt : n < bound := hlt
  have hlow := ((size_eq_iff (by omega)).mp hsize).1
  have hpow : 2 ^ 9 ≤ 2 ^ (bits - 1) := Nat.pow_le_pow_right (by decide) (by omega)
  have hone : n % step = 1 % step := hmod
  rw [Nat.mod_eq_of_lt (by omega), Nat.mod_eq_of_lt (by omega)] at hone
  omega

/-- The members of the progression that a walk from the start below a bound can find are
all those below the bound. -/
theorem visited_eq_progression {bits : Nat} {step bound low start : UInt64} (hbits : 0 < bits)
    (hstep : 0 < step.toNat) (htwo : 2 ≤ bound.toNat) (hbound : bound.toNat ≤ 2 ^ bits)
    (hlow : low.toNat = 2 ^ (bits - 1))
    (hstart : start.toNat = bound.toNat - 1 - (bound.toNat - 2) % step.toNat) :
    visited step low start =
      progression (Primality.isPrime · = true) bits step.toNat ∩ Set.Iio bound.toNat := by
  have hrest := Nat.mod_lt (bound.toNat - 2) hstep
  have hquotient := Nat.div_add_mod (bound.toNat - 2) step.toNat
  have hone : start.toNat ≡ 1 [MOD step.toNat] := by
    have hform : start.toNat = 1 + step.toNat * ((bound.toNat - 2) / step.toNat) := by omega
    rw [hform, Nat.ModEq, Nat.add_mul_mod_self_left]
  ext n
  simp only [visited, progression, size_eq_iff hbits, Set.mem_ofPred_eq, Set.mem_inter_iff,
    Set.mem_Iio, hlow]
  constructor
  · rintro ⟨htested, hmod, hmin, hmax⟩
    exact ⟨⟨htested, ⟨hmin, by omega⟩, hmod.trans hone⟩, by omega⟩
  · rintro ⟨⟨htested, ⟨hmin, -⟩, hmod⟩, hlt⟩
    have hclass := hmod.trans hone.symm
    refine ⟨htested, hclass, hmin, ?_⟩
    by_contra hgt
    have hgap := (le_sub_of_modEq hclass.symm (Nat.lt_of_not_le hgt)).1
    omega

/-- The search finds the greatest number below the bound that passes the test, has the
size that is asked for and is one more than a multiple of the step. -/
theorem exists_greatestPrime {bits : Nat} {step bound : UInt64} (hbits : 10 ≤ bits ∧ bits ≤ 62)
    (hstep : step.toNat.isPowerOfTwo) (hbound : bound.toNat ≤ 2 ^ bits) :
    ∃ o, (greatestPrime bits step bound : Outcome ε _) = .ok o ∧
      GreatestWord
        (progression (Primality.isPrime · = true) bits step.toNat ∩ Set.Iio bound.toNat) o := by
  have hpower := isPowerOfTwo_iff.mpr hstep
  have hpos : 0 < step.toNat := by
    rcases hstep with ⟨k, hk⟩
    rw [hk]
    exact Nat.two_pow_pos k
  have hshift : bound.toNat ≤ 1 <<< bits := by rwa [Nat.one_shiftLeft]
  simp only [greatestPrime, Outcome.require_of hbits, Outcome.require_of hpower,
    Outcome.require_of hshift, Outcome.ok_bind]
  by_cases hsmall : (bound < 2 || bound ≤ step) = true
  · have hempty : bound.toNat < 2 ∨ bound.toNat ≤ step.toNat := by
      simpa only [Bool.or_eq_true, decide_eq_true_eq, UInt64.lt_iff_toNat_lt,
        UInt64.le_iff_toNat_le, UInt64.reduceToNat] using hsmall
    rw [if_pos hsmall]
    exact ⟨none, rfl, progression_eq_empty hbits.1 hempty⟩
  · have htwo : 2 ≤ bound := by
      simp only [Bool.or_eq_true, decide_eq_true_eq, not_or, UInt64.not_lt] at hsmall
      exact hsmall.1
    obtain ⟨start, hstart, hnat⟩ := startBelow_of_two_le (ε := ε) step htwo
    have hvisited := visited_eq_progression (by omega) hpos (UInt64.le_iff_toNat_le.mp htwo)
      hbound (toNat_one_shiftLeft (show bits - 1 < 64 by omega)) hnat
    rw [if_neg hsmall, hstart, Outcome.ok_bind, ← hvisited]
    exact ⟨_, rfl, searchDown_greatest (UInt64.lt_iff_toNat_lt.mpr hpos) _ start⟩

end RingShamir.PrimeSearch
