import Mathlib.Data.Nat.ModEq
import RingShamir.Proofs.Chain.Extended
import RingShamir.Proofs.Chain.Plain
import RingShamir.Proofs.Scalar.Reduced
import RingShamir.Proofs.Sharing.Combination

/-!
# Which combiners can be made

A combiner is made of points that are told apart from its own point by every modulus
of the chain.  The first point in the list that is not is reported.  Otherwise the
combiner has exactly one factor for each point other than its own, whatever the order
of the list and however often a point is in it: a factor depends on the two points
alone.

Main results:

- Theorem `Combiner.factorOf_cases`: a factor exists unless the points agree modulo
  some modulus.
- Theorem `Combiner.enterFactors_cases`: the first point without a factor is reported.
- Theorem `Combiner.HasFactors.factor?_eq`: combiners of the same points have the same
  factors.
- Theorem `combiners_made`: when a combiner is made, and of which factors.
-/

namespace RingShamir

open ResidueChain

/-! ## Agreeing points -/

namespace PublicPoint

variable {qs : List Modulus} {own x : PublicPoint}

/-- Two points agree modulo one of some moduli. -/
def Agrees (qs : List Modulus) (x y : PublicPoint) : Prop :=
  ∃ q ∈ qs, x.value.toNat ≡ y.value.toNat [MOD q.value.toNat]

instance (qs : List Modulus) (x y : PublicPoint) : Decidable (x.Agrees qs y) :=
  inferInstanceAs (Decidable (∃ q ∈ qs, x.value.toNat % q.value.toNat = y.value.toNat % _))

theorem sub_classes_eq_zero_iff (x y : PublicPoint) (q : Modulus) :
    (x.classes - y.classes) q = 0 ↔ x.value.toNat ≡ y.value.toNat [MOD q.value.toNat] := by
  rw [Pi.sub_apply, sub_eq_zero]
  exact ZMod.natCast_eq_natCast_iff _ _ _

/-- A limb of the factor of a point: the reduced Montgomery form of the quotient of the
point by its difference to the own point. -/
def factorForm (own x : PublicPoint) (q : Modulus) : Nat :=
  ((x.value.toNat : ZMod q.value.toNat) *
    ((x.value.toNat : ZMod q.value.toNat) - own.value.toNat)⁻¹ * 2 ^ 64).val

end PublicPoint

namespace Combiner

/-! ## Factors -/

section Factors

variable {qs : List Modulus} {own : PublicPoint} {ownScalar : Scalar}

/-- A factor is computed, unless the points agree modulo some modulus. -/
theorem factorOf_cases (hqs : ∀ q ∈ qs, q.Suitable) (hexact : Modulus.PrimalityExact qs)
    (hown : Scalar.Represents qs ownScalar own.classes) (x : PublicPoint) :
    (x.Agrees qs own ∧
        factorOf qs ownScalar x = .error (.failure (.invalidPublicPoint x.value))) ∨
      (¬x.Agrees qs own ∧ ∃ s, factorOf qs ownScalar x = .ok s) := by
  obtain ⟨other, hother, hrep⟩ := Scalar.represents_ofWord (ε := SchemeError) hqs x.value
  obtain ⟨difference, hdifference, hdrep⟩ :=
    Scalar.represents_sub (ε := SchemeError) hqs hrep hown
  have hagrees : x.Agrees qs own ↔ ∃ q ∈ qs, (x.classes - own.classes) q = 0 := by
    simp only [PublicPoint.Agrees, PublicPoint.sub_classes_eq_zero_iff]
  simp only [factorOf, pointScalar, hother, hdifference, Outcome.ok_bind, hagrees]
  rcases Scalar.inverse_of_represents (ε := SchemeError)
      (fun q hq => ⟨hqs q hq, (hqs q hq).prime hexact hq⟩) hdrep with
    ⟨hzero, hnone⟩ | ⟨hne, inverse, hinverse, hirep⟩
  · left
    exact ⟨hzero, by rw [hnone]; rfl⟩
  · right
    obtain ⟨product, hproduct, -⟩ :=
      Scalar.represents_mul (ε := SchemeError) hqs hirep hrep
    refine ⟨?_, product, by rw [hinverse]; exact hproduct⟩
    rintro ⟨q, hq, hzero⟩
    exact hne q hq hzero

/-- Entering the factors of points stops at the first one that agrees with the own point,
and otherwise adds a factor for each of them. -/
theorem enterFactors_cases (hqs : ∀ q ∈ qs, q.Suitable) (hexact : Modulus.PrimalityExact qs)
    (hown : Scalar.Represents qs ownScalar own.classes) (xs : List PublicPoint)
    (t : FactorTable) :
    (∃ x, xs.find? (·.Agrees qs own) = some x ∧
        enterFactors qs ownScalar xs t = .error (.failure (.invalidPublicPoint x.value))) ∨
      (xs.find? (·.Agrees qs own) = none ∧ ∃ t', enterFactors qs ownScalar xs t = .ok t' ∧
        ∀ y, (t'.factor? y).isSome ↔ y ∈ xs ∨ (t.factor? y).isSome) := by
  induction xs generalizing t with
  | nil => exact .inr ⟨rfl, t, rfl, by simp⟩
  | cons x xs ih =>
      rw [enterFactors, List.find?_cons]
      rcases factorOf_cases hqs hexact hown x with ⟨hagrees, hfault⟩ | ⟨happart, s, hs⟩
      · left
        exact ⟨x, by simp [hagrees], by rw [hfault, Outcome.error_bind]⟩
      · simp only [happart, decide_false, hs, Outcome.ok_bind]
        rcases ih (t.insert x s) with hfault | ⟨hnone, t', ht', hfactors⟩
        · exact .inl hfault
        · refine .inr ⟨hnone, t', ht', fun y => ?_⟩
          rw [hfactors y, FactorTable.factor?_insert, List.mem_cons]
          by_cases hxy : x = y
          · simp [hxy]
          · simp [hxy, Ne.symm hxy]

end Factors

/-! ## Construction -/

section Made

variable {C E L : Type} [ResidueChain C E L] {chain : C} {own : PublicPoint}
  {others others' : List PublicPoint} {k k' : Combiner C}

/-- A combiner has the factors of points other than its own. -/
structure HasFactors (chain : C) (own : PublicPoint) (others : List PublicPoint)
    (k : Combiner C) : Prop where
  /-- There are factors of all these points and of no other ones. -/
  isSome_iff : ∀ x, (k.factor? x).isSome ↔ x ∈ others ∧ x ≠ own
  /-- The difference of a point with a factor to the own point has an inverse. -/
  inverse : ∀ x s, k.factor? x = some s → ∀ q ∈ moduli chain,
    ((x.value.toNat : ZMod q.value.toNat) - own.value.toNat) *
      ((x.value.toNat : ZMod q.value.toNat) - own.value.toNat)⁻¹ = 1
  /-- A factor has one limb for each modulus of the chain. -/
  limbs : ∀ x s, k.factor? x = some s →
    s.limbs.map UInt64.toNat = (moduli chain).map (own.factorForm x)

/-- Combiners of the same points have the same factors. -/
theorem HasFactors.factor?_eq (hk : HasFactors chain own others k)
    (hk' : HasFactors chain own others' k') (h : ∀ x, x ≠ own → (x ∈ others ↔ x ∈ others'))
    (x : PublicPoint) : k.factor? x = k'.factor? x := by
  have hsome : (k.factor? x).isSome ↔ (k'.factor? x).isSome := by
    rw [hk.isSome_iff, hk'.isSome_iff]
    exact and_congr_left (h x)
  cases hs : k.factor? x with
  | none =>
      rw [hs] at hsome
      exact (Option.not_isSome_iff_eq_none.mp (mt hsome.mpr (by simp))).symm
  | some s =>
      obtain ⟨s', hs'⟩ := Option.isSome_iff_exists.mp (hsome.mp (by rw [hs]; rfl))
      have hlimbs := (hk.limbs x s hs).trans (hk'.limbs x s' hs').symm
      rw [hs', Scalar.eq_of_limbs hlimbs]

/-- When combiners of a chain are made, and what they hold. -/
structure CombinersMade (chain : C) : Prop where
  /-- Quorums without members are refused. -/
  threshold : ∀ (own : PublicPoint) (others : List PublicPoint),
    make chain own others 0 = .error (.failure (.invalidThreshold 0))
  /-- The first other point that agrees with the own one modulo some modulus is refused. -/
  point : ∀ (own : PublicPoint) (others : List PublicPoint) (t : Nat) (x : PublicPoint), 1 ≤ t →
    others.find? (fun y => y ≠ own ∧ y.Agrees (moduli chain) own) = some x →
      make chain own others t = .error (.failure (.invalidPublicPoint x.value))
  /-- If there is none, then a combiner is made of the factors of the other points. -/
  made : ∀ (own : PublicPoint) (others : List PublicPoint) (t : Nat), 1 ≤ t →
    others.find? (fun y => y ≠ own ∧ y.Agrees (moduli chain) own) = none →
      ∃ k, make chain own others t = .ok k ∧ HasFactors chain own others k
  /-- Combiners of the same other points hold the same factors. -/
  factors : ∀ (own : PublicPoint) (others others' : List PublicPoint) (t t' : Nat)
    (k k' : Combiner C), make chain own others t = .ok k → make chain own others' t' = .ok k' →
      (∀ x, x ≠ own → (x ∈ others ↔ x ∈ others')) → ∀ x, k.factor? x = k'.factor? x

end Made

section Laws

variable {C E L : Type} [ResidueElement E] [ResidueChain C E L] [ReducedElement E]
  [ChainView C E] [LawfulChain C E L] {chain : C} {own : PublicPoint}
  {others : List PublicPoint} {t : Nat}

/-- The factors of a sound combiner have the limbs that they should. -/
theorem Sound.limbs {k : Combiner C} (hk : k.Sound) {x : PublicPoint} {s : Scalar}
    (hs : k.factor? x = some s) :
    s.limbs.map UInt64.toNat = (moduli k.chain).map (k.own.factorForm x) := by
  rw [(hk.factors x s hs).2.limbs_eq (LawfulChain.suitable hk.built)]
  refine List.map_congr_left fun q _ => ?_
  rw [PublicPoint.factorForm, mul_comm (x.value.toNat : ZMod q.value.toNat), ← Modulus.radix_eq]
  rfl

theorem make_cases (hchain : Built chain) (hexact : Modulus.PrimalityExact (moduli chain))
    (own : PublicPoint) (others : List PublicPoint) (ht : 1 ≤ t) :
    (∃ x, others.find? (fun y => y ≠ own ∧ y.Agrees (moduli chain) own) = some x ∧
        make chain own others t = .error (.failure (.invalidPublicPoint x.value))) ∨
      (others.find? (fun y => y ≠ own ∧ y.Agrees (moduli chain) own) = none ∧
        ∃ k, make chain own others t = .ok k ∧ HasFactors chain own others k) := by
  have hqs := LawfulChain.suitable hchain
  obtain ⟨ownScalar, hown, hrep⟩ := Scalar.represents_ofWord (ε := SchemeError) hqs own.value
  obtain ⟨one, hone, -⟩ := Scalar.represents_one (ε := SchemeError) hqs
  have hfind : others.find? (fun y => y ≠ own ∧ y.Agrees (moduli chain) own) =
      (others.filter (· ≠ own)).find? (·.Agrees (moduli chain) own) := by
    rw [List.find?_filter]
    simp
  have hmake : make chain own others t = (do
      let factors ← enterFactors (moduli chain) ownScalar (others.filter (· ≠ own)) .empty
      pure ⟨chain, own, t, one, .zero (moduli chain), factors⟩) := by
    simp only [make, pointScalar, hown, hone, Outcome.ok_bind]
    rw [if_neg (by omega)]
  rw [hfind]
  rcases enterFactors_cases hqs hexact hrep (others.filter (· ≠ own)) .empty with
    ⟨x, hx, hfault⟩ | ⟨hnone, factors, hfactors, hsome⟩
  · left
    exact ⟨x, hx, by rw [hmake, hfault, Outcome.error_bind]⟩
  · right
    rw [hfactors, Outcome.ok_bind, Outcome.pure_eq_ok] at hmake
    obtain ⟨hsound, -⟩ := sound_of_make hchain hmake
    refine ⟨hnone, _, hmake, ?_, ?_, ?_⟩
    · intro x
      change (factors.factor? x).isSome ↔ _
      simpa using hsome x
    · intro x s hs q hq
      have hunit := (hsound.factors x s hs).1 q hq
      exact ZMod.mul_inv_of_unit _ hunit
    · intro x s hs
      exact hsound.limbs hs

/-- A combiner that was made has the factors of the other points. -/
theorem hasFactors_of_make {k : Combiner C} (hchain : Built chain)
    (hexact : Modulus.PrimalityExact (moduli chain)) (h : make chain own others t = .ok k) :
    HasFactors chain own others k := by
  have ht : 1 ≤ t := by
    by_contra hlt
    rw [make, if_pos (by omega)] at h
    cases h
  rcases make_cases hchain hexact own others ht with
    ⟨x, -, hfault⟩ | ⟨-, k', hk', hfactors⟩
  · rw [h] at hfault
    cases hfault
  · obtain rfl : k' = k := Except.ok.inj (hk'.symm.trans h)
    exact hfactors

theorem combinersMade_of_laws (hchain : Built chain)
    (hexact : Modulus.PrimalityExact (moduli chain)) : CombinersMade chain := by
  constructor
  case threshold =>
    intro own others
    rfl
  case point =>
    intro own others t x ht hx
    rcases make_cases hchain hexact own others ht with ⟨y, hy, hfault⟩ | ⟨hnone, -⟩
    · obtain rfl : x = y := Option.some.inj (hx.symm.trans hy)
      exact hfault
    · rw [hx] at hnone
      cases hnone
  case made =>
    intro own others t ht hnone
    rcases make_cases hchain hexact own others ht with ⟨y, hy, -⟩ | ⟨-, hmade⟩
    · rw [hnone] at hy
      cases hy
    · exact hmade
  case factors =>
    intro own others others' t t' k k' hk hk'
    exact (hasFactors_of_make hchain hexact hk).factor?_eq (hasFactors_of_make hchain hexact hk')

end Laws

end Combiner

/-- Combiners are made of the points that are told apart from their own by every
modulus, over the chains of a single basis and over those of two bases. -/
theorem combiners_made :
    (∀ c : PlainChain, Built c → Modulus.PrimalityExact (moduli c) →
      Combiner.CombinersMade c) ∧
    ∀ c : ExtendedChain, Built c → Modulus.PrimalityExact (moduli c) →
      Combiner.CombinersMade c :=
  ⟨fun _ hc hexact => Combiner.combinersMade_of_laws hc hexact,
    fun _ hc hexact => Combiner.combinersMade_of_laws hc hexact⟩

section FiveSeven

open PlainChain

/-- The point sixteen. -/
def pointSixteen : PublicPoint :=
  ⟨16, by decide⟩

/-- The point nineteen, which differs from sixteen modulo five and seven. -/
def pointNineteen : PublicPoint :=
  ⟨19, by decide⟩

/-- Of the points after nineteen, the first agrees with sixteen modulo five and the
second does modulo seven. -/
def agreeingPoints : List PublicPoint :=
  [pointNineteen, ⟨21, by decide⟩, ⟨23, by decide⟩]

theorem combiners_made_fiveSeven :
    (∃ k, Combiner.make fiveSeven pointSixteen [pointSixteen, pointNineteen] 2 = .ok k ∧
      Combiner.HasFactors fiveSeven pointSixteen [pointSixteen, pointNineteen] k) ∧
    Combiner.make fiveSeven pointSixteen agreeingPoints 2 =
      .error (.failure (.invalidPublicPoint 21)) := by
  have hmade := combiners_made.1 fiveSeven fiveSeven_built primalityExact_fiveSeven
  constructor
  · exact hmade.made _ _ 2 (by decide) (by decide +kernel)
  · exact hmade.point _ agreeingPoints 2 ⟨21, by decide⟩ (by decide) (by decide +kernel)

end FiveSeven

end RingShamir
