import Mathlib.Algebra.BigOperators.Fin
import RingShamir.Proofs.Sharing.Projection

/-!
# Shares as sums of powers

The coefficient of a share at a position is the sum of the coefficients of the
sharing polynomial there times the powers of the public point, reduced by the
modulus of the position.  The sum is one of natural numbers: neither the point nor
the intermediate values of Horner's rule have to fit into a residue, and no
Montgomery factor is left over.  A share that is dealt into an output, or together
with the shares of other points, is the same one.

Main results:

- Definition `powerSum`: the value of a sharing polynomial at a position.
- Theorem `natCast_powerSum`: it is in the class that Horner's rule computes.
- Theorem `sharing_evaluates`: which points have shares, and what these are.
-/

namespace RingShamir

open Polynomial ResidueChain

/-- The value of a polynomial with given coefficients is their sum with the powers. -/
theorem eval_ascending_map {R α : Type} [CommRing R] (f : α → R) (as : List α) (r : R) :
    (ascending (as.map f)).eval r = ∑ k : Fin as.length, f as[k] * r ^ (k : Nat) := by
  induction as with
  | nil => simp
  | cons a as ih =>
      rw [List.map_cons, ascending_cons, eval_add, eval_C, eval_mul, eval_X, ih]
      simp only [List.length_cons, Fin.sum_univ_succ, Finset.mul_sum]
      congr 1
      · simp
      · refine Finset.sum_congr rfl fun k _ => ?_
        simp only [Fin.getElem_fin, Fin.val_succ, List.getElem_cons_succ]
        ring

/-- A point vanishes modulo a modulus when the modulus divides it. -/
theorem PublicPoint.classes_eq_zero_iff (x : PublicPoint) (q : Modulus) :
    x.classes q = 0 ↔ q.value.toNat ∣ x.value.toNat :=
  ZMod.natCast_eq_zero_iff _ _

namespace SharingPolynomial

section Sums

variable {C E : Type} [ChainView C E]

/-- The sum of the coefficients at a position times the powers of a point. -/
def powerSum (c : C) (p : SharingPolynomial E) (x : PublicPoint) (i j : Nat) : Nat :=
  ∑ k : Fin p.coefficients.length,
    (coefficient c p.coefficients[k] i j).toNat * x.value.toNat ^ (k : Nat)

/-- The sum of powers is in the class of the value of the class polynomial. -/
theorem natCast_powerSum (c : C) (p : SharingPolynomial E) (x : PublicPoint) (q : Modulus)
    (i j : Nat) : (powerSum c p x i j : ZMod q.value.toNat) =
      (classPolynomial c p q i j).eval (x.classes q) := by
  rw [classPolynomial, eval_ascending_map, powerSum]
  push_cast
  rfl

end Sums

section Runs

variable {C E L : Type} [ResidueChain C E L] [DecidableEq L] {c : C} {l : L}
  {p : SharingPolynomial E}

/-- Dealing into an output at the level of the polynomial. -/
theorem run_shareInto (hlevel : level c p = .ok l) (x : PublicPoint) {out : Share E}
    (hout : Share.levelOf c out = .ok l) :
    EStateM.run (shareInto c x p) out = match shareAt c x p with
      | .ok share => .ok () share
      | .error e => .error e out := by
  simp only [shareInto, shareAt, EStateM.run_bind, EStateM.run_get, Action.run_lift, hlevel, hout,
    Outcome.ok_bind, ne_eq, not_true_eq_false, if_false]
  cases evaluate c x p <;> rfl

theorem sharesAt_eq_mapM (hlevel : level c p = .ok l) (xs : List PublicPoint) :
    sharesAt c xs p = xs.mapM fun x => shareAt c x p := by
  simp only [sharesAt, shareAt, hlevel, Outcome.ok_bind]

end Runs

section Laws

variable {C E L : Type} [ResidueElement E] [ResidueChain C E L] [DecidableEq L]
  [ReducedElement E] [ChainView C E]

/-- The shares of a polynomial with coefficients at a level: single ones, those that
are dealt into an output, and those of a list of points. -/
structure Evaluates (c : C) (l : L) (p : SharingPolynomial E) : Prop where
  /-- A point that some modulus of the whole chain divides is refused. -/
  refused : ∀ x : PublicPoint, (∃ q ∈ moduli c, q.value.toNat ∣ x.value.toNat) →
    shareAt c x p = .error (.failure (.invalidPublicPoint x.value))
  /-- The share of any other point is at the level, and has the remainders of the sums
  of powers as coefficients. -/
  value : ∀ x : PublicPoint, (∀ q ∈ moduli c, ¬q.value.toNat ∣ x.value.toNat) →
    ∃ share, shareAt c x p = .ok share ∧ ElementAt c l share.value ∧
      ∀ (i : Nat) (q : Modulus) (j : Nat), (moduli c)[i]? = some q →
        (coefficient c share.value i j).toNat = powerSum c p x i j % q.value.toNat
  /-- An output at the level ends up as the share, or the error is the same. -/
  into : ∀ (x : PublicPoint) (out : Share E), Share.levelOf c out = .ok l →
    EStateM.run (shareInto c x p) out = match shareAt c x p with
      | .ok share => .ok () share
      | .error e => .error e out
  /-- A list of points has the shares of its entries, in the order of the list. -/
  list : ∀ (xs : List PublicPoint) (shares : List (Share E)),
    sharesAt c xs p = .ok shares ↔
      List.Forall₂ (fun x share => shareAt c x p = .ok share) xs shares
  /-- A list of points has shares exactly when each of its entries has one. -/
  list_exists : ∀ xs : List PublicPoint, (∃ shares, sharesAt c xs p = .ok shares) ↔
    ∀ x ∈ xs, ∃ share, shareAt c x p = .ok share

variable [LawfulChain C E L] {c : C} {l : L} {p : SharingPolynomial E}

theorem evaluates_of_laws (hc : Built c) (hp : ∀ e ∈ p.coefficients, ElementAt c l e) :
    Evaluates c l p := by
  have hlevel : level c p = .ok l := level_eq_ok.mpr fun e he => (hp e he).level
  constructor
  case refused =>
    rintro x ⟨q, hq, hdvd⟩
    have hx : ¬x.Admissible (moduli c) := fun h => h q hq ((x.classes_eq_zero_iff q).mpr hdvd)
    rw [shareAt, hlevel, Outcome.ok_bind, evaluate_of_not_admissible hc hx, Outcome.error_bind]
  case value =>
    intro x hx
    have hadmissible : x.Admissible (moduli c) :=
      fun q hq hzero => hx q hq ((x.classes_eq_zero_iff q).mp hzero)
    obtain ⟨share, hshare, hat, hvalue⟩ := shareAt_of_admissible hc hp hadmissible
    refine ⟨share, hshare, hat, fun i q j hq => ?_⟩
    apply Modulus.toNat_eq_mod (LawfulChain.coefficient_lt hc hat hq j)
    rw [natCast_powerSum]
    exact hvalue i q j hq
  case into => exact fun x out hout => run_shareInto hlevel x hout
  case list =>
    intro xs shares
    rw [sharesAt_eq_mapM hlevel, Outcome.mapM_eq_ok_iff]
  case list_exists =>
    intro xs
    rw [sharesAt_eq_mapM hlevel, Outcome.exists_mapM_iff]

end Laws

end SharingPolynomial

/-- Sharing is evaluation of polynomials, over the chains of a single basis and over
those of two bases. -/
theorem sharing_evaluates :
    (∀ (c : PlainChain) (l : Nat) (p : SharingPolynomial RnsPoly), Built c →
      (∀ e ∈ p.coefficients, ElementAt c l e) → p.Evaluates c l) ∧
    ∀ (c : ExtendedChain) (l : Nat × Option Nat) (p : SharingPolynomial ExtendedPoly), Built c →
      (∀ e ∈ p.coefficients, ElementAt c l e) → p.Evaluates c l :=
  ⟨fun _ _ _ hc hp => SharingPolynomial.evaluates_of_laws hc hp,
    fun _ _ _ hc hp => SharingPolynomial.evaluates_of_laws hc hp⟩

section FiveSeven

open PlainChain

/-- The sum of the first three powers, which all have the coefficient one. -/
def threePowers : SharingPolynomial RnsPoly :=
  ⟨oneOverFiveSeven, [oneOverFiveSeven, oneOverFiveSeven]⟩

/-- The first three powers of twelve add up to 157, and ten has no share. -/
theorem sharing_evaluates_threePowers :
    threePowers.powerSum fiveSeven ⟨12, by decide⟩ 1 0 = 157 ∧
    (∃ share, SharingPolynomial.shareAt fiveSeven ⟨12, by decide⟩ threePowers = .ok share ∧
      (coefficient fiveSeven share.value 1 0).toNat = 157 % 7) ∧
    SharingPolynomial.shareAt fiveSeven ⟨10, by decide⟩ threePowers =
      .error (.failure (.invalidPublicPoint 10)) := by
  have hp : ∀ e ∈ threePowers.coefficients, ElementAt fiveSeven 1 e := by
    intro e he
    obtain rfl : e = oneOverFiveSeven := by
      simpa [threePowers, SharingPolynomial.coefficients] using he
    exact elementAt_oneOverFiveSeven
  have hevaluates := sharing_evaluates.1 fiveSeven 1 threePowers fiveSeven_built hp
  have hsum : threePowers.powerSum fiveSeven ⟨12, by decide⟩ 1 0 = 157 := by decide +kernel
  refine ⟨hsum, ?_, hevaluates.refused ⟨10, by decide⟩ (by decide +kernel)⟩
  obtain ⟨share, hshare, -, hvalue⟩ :=
    hevaluates.value ⟨12, by decide⟩ (by decide +kernel)
  refine ⟨share, hshare, ?_⟩
  rw [hvalue 1 (.withConstants 7) 0 rfl, hsum]
  rfl

end FiveSeven

end RingShamir
