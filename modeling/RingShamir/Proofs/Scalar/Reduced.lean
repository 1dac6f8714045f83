import RingShamir.Proofs.Modulus.Power
import RingShamir.Proofs.Scalar

/-!
# Scalars with reduced limbs

A scalar with one reduced limb for each modulus is a fit operand, whether its limbs
are plain residues or Montgomery forms.  The operations on such scalars breach
nothing, and what they return is reduced again.

Main results:

- Theorem `reduced_ofWord`: plain scalars are reduced.
- Theorems `toMontgomery_of_reduced`, `sub_of_reduced` and `mul_of_reduced`: the
  operations succeed on reduced scalars.
- Theorems `inverse_eq` and `inverse_of_reduced`: over prime moduli a reduced scalar
  without a limb that is zero has a reduced inverse, and others are found to have none.
- Theorem `inverse_of_represents`: which families have an inverse.
-/

namespace RingShamir.Scalar

variable {ε : Type} {qs : List Modulus} {a b : Scalar}

/-! ## Construction -/

theorem reduced_ofWord (hqs : ∀ q ∈ qs, q.Suitable) (v : UInt64) : Reduced qs (ofWord qs v) := by
  rw [Reduced, ofWord, List.forall₂_map_right_iff, List.forall₂_same]
  intro q hq
  exact Modulus.reduce_lt (hqs q hq).zero_lt v

theorem zero_eq_ofWord (qs : List Modulus) : zero qs = ofWord qs 0 := by
  rw [zero, ofWord, mk.injEq, eq_comm, List.eq_replicate_iff]
  refine ⟨List.length_map _, ?_⟩
  intro x hx
  rcases List.mem_map.mp hx with ⟨q, -, rfl⟩
  simp [Modulus.reduce]

theorem reduced_zero (hqs : ∀ q ∈ qs, q.Suitable) : Reduced qs (zero qs) := by
  rw [zero_eq_ofWord]
  exact reduced_ofWord hqs 0

theorem reduced_erase (hqs : ∀ q ∈ qs, q.Suitable) (ha : Reduced qs a) :
    Reduced qs a.erase := by
  have hlength : a.limbs.length = qs.length := ha.length_eq
  rw [erase, List.map_const', hlength]
  exact reduced_zero hqs

/-! ## Operations -/

theorem toMontgomery_of_reduced (hqs : ∀ q ∈ qs, q.Suitable) (ha : Reduced qs a) :
    ∃ d, (toMontgomery qs a : Outcome ε Scalar) = .ok d ∧ Reduced qs d := by
  apply exists_toMontgomery _ ha
  intro q hq x hx
  have hq := hqs q hq
  exact ⟨_, Modulus.toMontgomery_eq hq.toAccepted hq.odd hx, Modulus.ofResidue_lt hq.toAccepted _⟩

theorem sub_of_reduced (hqs : ∀ q ∈ qs, q.Suitable) (ha : Reduced qs a) (hb : Reduced qs b) :
    ∃ d, (sub qs a b : Outcome ε Scalar) = .ok d ∧ Reduced qs d := by
  apply exists_sub _ ha hb
  intro q hq x y hx hy
  have hq := (hqs q hq).toAccepted
  exact ⟨_, Modulus.sub_eq hq hx hy, Modulus.ofResidue_lt hq _⟩

theorem mul_of_reduced (hqs : ∀ q ∈ qs, q.Suitable) (ha : Reduced qs a) (hb : Reduced qs b) :
    ∃ d, (mul qs a b : Outcome ε Scalar) = .ok d ∧ Reduced qs d := by
  apply exists_mul _ ha hb
  intro q hq x y hx hy
  have hq := hqs q hq
  exact ⟨_, Modulus.montgomeryMul_eq hq.toAccepted hq.odd hx hy,
    Modulus.ofResidue_lt hq.toAccepted _⟩

/-- The Montgomery forms of the inverse classes of limbs. -/
def inverseForms (qs : List Modulus) (xs : List UInt64) : List UInt64 :=
  List.zipWith (fun q x => Modulus.ofResidue q ((q.montgomeryResidue x)⁻¹ * q.radix)) qs xs

/-- The limbs are inverted one after the other, up to the first one that is zero. -/
theorem inverseLimbs_eq {xs : List UInt64} (hqs : ∀ q ∈ qs, q.Suitable ∧ q.value.toNat.Prime)
    (hxs : List.Forall₂ (fun q x => x < q.value) qs xs) :
    (inverseLimbs qs xs : Outcome ε _) =
      .ok (if 0 ∈ xs then none else some (inverseForms qs xs)) := by
  induction hxs with
  | nil => rfl
  | @cons q x qs xs hx _ ih =>
      obtain ⟨hq, hprime⟩ := hqs q List.mem_cons_self
      have hrest := ih fun r hr => hqs r (List.mem_cons_of_mem _ hr)
      simp only [inverseLimbs, Modulus.montgomeryInverse_eq hq hprime hx, hrest, Outcome.ok_bind,
        List.mem_cons, @eq_comm _ 0 x]
      by_cases hzero : x = 0
      · simp [hzero]
      · by_cases hmem : 0 ∈ xs <;> simp [hzero, hmem, inverseForms]

theorem inverse_eq (hqs : ∀ q ∈ qs, q.Suitable ∧ q.value.toNat.Prime) (ha : Reduced qs a) :
    (inverse qs a : Outcome ε _) =
      .ok (if 0 ∈ a.limbs then none else some ⟨inverseForms qs a.limbs⟩) := by
  simp only [inverse, Outcome.require_of ha.length_eq, Outcome.ok_bind, inverseLimbs_eq hqs ha]
  by_cases hmem : 0 ∈ a.limbs <;> simp [hmem]

/-- Over primes the check that an inverse is one cannot fail. -/
theorem inverse_of_reduced (hqs : ∀ q ∈ qs, q.Suitable ∧ q.value.toNat.Prime)
    (ha : Reduced qs a) :
    ∃ o, (inverse qs a : Outcome ε _) = .ok o ∧ ∀ b ∈ o, Reduced qs b := by
  refine ⟨_, inverse_eq hqs ha, ?_⟩
  intro b hb
  split at hb
  · cases hb
  · obtain rfl := Option.some.inj hb
    apply forall₂_of_getElem?
    · have hlength : a.limbs.length = qs.length := ha.length_eq
      simp [inverseForms, hlength]
    · intro i q y hq hy
      rcases List.getElem?_zipWith_eq_some.mp hy with ⟨q', x, hq', -, rfl⟩
      obtain rfl : q = q' := Option.some.inj (hq.symm.trans hq')
      exact Modulus.ofResidue_lt (hqs q (List.mem_of_getElem? hq)).1.toAccepted _

/-- A scalar that represents a family has an inverse exactly when no class of the
family is zero. -/
theorem inverse_of_represents {f : ResidueFamily}
    (hqs : ∀ q ∈ qs, q.Suitable ∧ q.value.toNat.Prime) (ha : Represents qs a f) :
    ((∃ q ∈ qs, f q = 0) ∧ (inverse qs a : Outcome ε _) = .ok none) ∨
      (∀ q ∈ qs, f q ≠ 0) ∧ ∃ b, (inverse qs a : Outcome ε _) = .ok (some b) ∧
        Represents qs b f⁻¹ := by
  have hlimb : ∀ q ∈ qs, ∀ x, LimbOf f q x → (x = 0 ↔ f q = 0) := by
    rintro q hq x ⟨hlt, hclass⟩
    rw [← hclass, Modulus.montgomeryResidue_eq_zero_iff (hqs q hq).1 hlt]
  have hinverse := inverse_eq (ε := ε) hqs ha.reduced
  by_cases hmem : 0 ∈ a.limbs
  · left
    obtain ⟨q, hq, hzero⟩ := exists_mem_of_forall₂ (List.Forall₂.flip ha) hmem
    rw [if_pos hmem] at hinverse
    exact ⟨⟨q, hq, (hlimb q hq 0 hzero).mp rfl⟩, hinverse⟩
  · right
    rw [if_neg hmem] at hinverse
    refine ⟨?_, _, hinverse, (represents_inverse (fun q hq => (hqs q hq).1) ha hinverse).2⟩
    intro q hq hzero
    obtain ⟨x, hx, hlimbOf⟩ := exists_mem_of_forall₂ ha hq
    exact hmem ((hlimb q hq x hlimbOf).mpr hzero ▸ hx)

end RingShamir.Scalar
