import RingShamir.Proofs.Scalar.Reduced

/-!
# Scalars as elements of a product of fields

The limbs of a reduced scalar are the Montgomery forms of one residue class at each
position.  These classes determine the scalar, and the operations on scalars are those of
the product of the fields of the moduli, position by position.  No class is tied to a
modulus: where a list of moduli repeats one, the limbs may differ.

Main results:

- Definition `limbClass`: the class at a position.
- Theorem `Reduced.ext`: the classes determine a reduced scalar.
- Theorems `mul_spec`, `inverse_spec` and `one_spec`: products, inverses and one.
- Definition `FormOf` and theorem `formOf_of_represents`: Montgomery forms of integers.
-/

namespace RingShamir.Scalar

variable {ε : Type} {qs : List Modulus} {a b s : Scalar} {q : Modulus} {i : Nat} {x : UInt64}

/-! ## Classes -/

/-- The class that the limb at a position is the Montgomery form of. -/
def limbClass (s : Scalar) (q : Modulus) (i : Nat) : ZMod q.value.toNat :=
  q.montgomeryResidue (s.limbs.getD i 0)

theorem limbClass_of_limb (h : s.limbs[i]? = some x) (q : Modulus) :
    s.limbClass q i = q.montgomeryResidue x := by
  rw [limbClass, List.getD_eq_getElem?_getD, h, Option.getD_some]

theorem Reduced.limb (h : Reduced qs s) (hq : qs[i]? = some q) :
    ∃ x, s.limbs[i]? = some x ∧ x < q.value :=
  exists_getElem?_of_forall₂ h hq

theorem limbClass_of_represents {f : ResidueFamily} (h : Represents qs s f)
    (hq : qs[i]? = some q) : s.limbClass q i = f q := by
  obtain ⟨x, hx, -, hclass⟩ := h.getElem? hq
  rw [limbClass_of_limb hx, hclass]

/-- The classes determine a reduced scalar. -/
theorem Reduced.ext (hqs : ∀ q ∈ qs, q.Suitable) (ha : Reduced qs a) (hb : Reduced qs b)
    (h : ∀ (i : Nat) q, qs[i]? = some q → a.limbClass q i = b.limbClass q i) : a = b := by
  have hlimbs : a.limbs = b.limbs := by
    rw [← List.forall₂_eq_eq_eq]
    apply forall₂_of_getElem? (ha.length_eq.trans hb.length_eq.symm)
    intro i x y hx hy
    have hlt : i < qs.length := ha.length_eq ▸ (List.getElem?_eq_some_iff.mp hx).1
    have hq := List.getElem?_eq_getElem hlt
    have hodd := (hqs _ (List.getElem_mem hlt)).odd
    have hclass := h i _ hq
    rw [limbClass_of_limb hx, limbClass_of_limb hy] at hclass
    apply (Modulus.residue_inj (ha.lt hq hx) (hb.lt hq hy)).mp
    rw [Modulus.residue_eq_mul_radix hodd, hclass, ← Modulus.residue_eq_mul_radix hodd]
  cases a
  cases b
  exact congrArg mk hlimbs

/-! ## Operations -/

/-- The scalar with the words of the products of the classes. -/
def product (qs : List Modulus) (a b : Scalar) : Scalar :=
  ⟨List.zipWith (fun q (x, y) => q.ofResidue (q.residue x * q.montgomeryResidue y)) qs
    (a.limbs.zip b.limbs)⟩

theorem product_limb {y : UInt64} (hq : qs[i]? = some q) (hx : a.limbs[i]? = some x)
    (hy : b.limbs[i]? = some y) : (product qs a b).limbs[i]? =
      some (q.ofResidue (q.residue x * q.montgomeryResidue y)) := by
  have hzip : (a.limbs.zip b.limbs)[i]? = some (x, y) := List.getElem?_zip_eq_some.mpr ⟨hx, hy⟩
  rw [product, List.getElem?_zipWith, hq, hzip]

theorem mul_eq (hqs : ∀ q ∈ qs, q.Suitable) (ha : Reduced qs a) (hb : Reduced qs b) :
    (mul qs a b : Outcome ε Scalar) = .ok (product qs a b) := by
  have hlimbs : List.zipWithM (fun q (x, y) => (q.montgomeryMul x y : Outcome ε UInt64)) qs
      (a.limbs.zip b.limbs) = .ok (product qs a b).limbs := by
    apply Outcome.zipWithM_eq_ok
    rintro ⟨q, x, y⟩ hmem
    obtain ⟨i, hq, hpair⟩ := mem_zip_iff.mp hmem
    obtain ⟨hx, hy⟩ := List.getElem?_zip_eq_some.mp hpair
    have hsuitable := hqs q (List.mem_of_getElem? hq)
    exact Modulus.montgomeryMul_eq hsuitable.toAccepted hsuitable.odd (ha.lt hq hx) (hb.lt hq hy)
  simp only [mul, Outcome.require_of ha.length_eq, Outcome.require_of hb.length_eq,
    Outcome.ok_bind, hlimbs, Outcome.pure_eq_ok]

/-- The product of reduced scalars has the products of the classes. -/
theorem mul_spec (hqs : ∀ q ∈ qs, q.Suitable) (ha : Reduced qs a) (hb : Reduced qs b) :
    ∃ p, (mul qs a b : Outcome ε Scalar) = .ok p ∧ Reduced qs p ∧
      ∀ (i : Nat) q, qs[i]? = some q → p.limbClass q i = a.limbClass q i * b.limbClass q i := by
  obtain ⟨p, hp, hreduced⟩ := mul_of_reduced (ε := ε) hqs ha hb
  obtain rfl := Except.ok.inj ((mul_eq hqs ha hb).symm.trans hp)
  refine ⟨_, hp, hreduced, fun i q hq => ?_⟩
  obtain ⟨x, hx, -⟩ := ha.limb hq
  obtain ⟨y, hy, -⟩ := hb.limb hq
  rw [limbClass_of_limb (product_limb hq hx hy), limbClass_of_limb hx,
    limbClass_of_limb hy,
    Modulus.montgomeryResidue_mul (hqs q (List.mem_of_getElem? hq)).toAccepted]

/-- A scalar has no inverse exactly if some limb is zero. -/
theorem inverse_eq_none_iff (hqs : ∀ q ∈ qs, q.Suitable ∧ q.value.toNat.Prime)
    (ha : Reduced qs a) : (inverse qs a : Outcome ε _) = .ok none ↔ 0 ∈ a.limbs := by
  rw [inverse_eq hqs ha]
  by_cases hmem : 0 ∈ a.limbs <;> simp [hmem]

/-- The inverse of a scalar without a limb that is zero has the inverse classes. -/
theorem inverse_spec (hqs : ∀ q ∈ qs, q.Suitable ∧ q.value.toNat.Prime) (ha : Reduced qs a)
    (hne : 0 ∉ a.limbs) :
    ∃ r, (inverse qs a : Outcome ε _) = .ok (some r) ∧ Reduced qs r ∧
      ∀ (i : Nat) q, qs[i]? = some q → a.limbClass q i * r.limbClass q i = 1 := by
  have hinverse := inverse_eq (ε := ε) hqs ha
  obtain ⟨o, ho, hreduced⟩ := inverse_of_reduced (ε := ε) hqs ha
  rw [if_neg hne] at hinverse
  rw [hinverse, Except.ok.injEq] at ho
  refine ⟨_, hinverse, hreduced _ ho.symm, fun i q hq => ?_⟩
  obtain ⟨x, hx, hxlt⟩ := ha.limb hq
  obtain ⟨hsuitable, hprime⟩ := hqs q (List.mem_of_getElem? hq)
  have := Fact.mk hprime
  have hclass : q.montgomeryResidue x ≠ 0 := by
    rw [ne_eq, Modulus.montgomeryResidue_eq_zero_iff hsuitable hxlt]
    rintro rfl
    exact hne (List.mem_of_getElem? hx)
  have hform : (Scalar.mk (inverseForms qs a.limbs)).limbs[i]? =
      some (q.ofResidue ((q.montgomeryResidue x)⁻¹ * q.radix)) := by
    rw [inverseForms, List.getElem?_zipWith, hq, hx]
  rw [limbClass_of_limb hform, limbClass_of_limb hx,
    Modulus.montgomeryResidue_mul_radix hsuitable.toAccepted hsuitable.odd,
    mul_inv_cancel₀ hclass]

theorem one_spec (hqs : ∀ q ∈ qs, q.Suitable) :
    ∃ o, (one qs : Outcome ε Scalar) = .ok o ∧ Reduced qs o ∧
      ∀ (i : Nat) q, qs[i]? = some q → o.limbClass q i = 1 := by
  obtain ⟨o, ho, hrep⟩ := represents_one (ε := ε) hqs
  exact ⟨o, ho, hrep.reduced, fun i q hq => limbClass_of_represents hrep hq⟩

/-- Multiplying by scalars with inverse classes, one after the other, changes nothing. -/
theorem mul_mul_inverse {r : Scalar} (hqs : ∀ q ∈ qs, q.Suitable) (ha : Reduced qs a)
    (hs : Reduced qs s) (hr : Reduced qs r)
    (hclass : ∀ (i : Nat) q, qs[i]? = some q → s.limbClass q i * r.limbClass q i = 1) :
    (do mul qs (← mul qs a s) r : Outcome ε Scalar) = .ok a := by
  obtain ⟨y, hy, hyreduced, hyclass⟩ := mul_spec (ε := ε) hqs ha hs
  obtain ⟨z, hz, hzreduced, hzclass⟩ := mul_spec (ε := ε) hqs hyreduced hr
  have hsame : z = a := by
    apply hzreduced.ext hqs ha
    intro i q hq
    rw [hzclass i q hq, hyclass i q hq, mul_assoc, hclass i q hq, mul_one]
  rw [hy, Outcome.ok_bind, hz, hsame]

/-! ## Montgomery forms of integers -/

/-- The limbs of a scalar are the Montgomery forms of an integer. -/
def FormOf (qs : List Modulus) (s : Scalar) (z : Int) : Prop :=
  s.limbs.map UInt64.toNat = qs.map fun q => (z * 2 ^ 64 % q.value.toNat).toNat

theorem formOf_of_represents {z : Int} (hqs : ∀ q ∈ qs, q.Suitable)
    (h : Represents qs s (z : ResidueFamily)) : FormOf qs s z := by
  rw [FormOf, h.limbs_eq hqs]
  refine List.map_congr_left fun q hq => ?_
  have := (hqs q hq).toAccepted.neZero
  have hclass : (z : ResidueFamily) q * q.radix = ((z * 2 ^ 64 : Int) : ZMod q.value.toNat) := by
    rw [Modulus.radix_eq, Pi.intCast_apply, Int.cast_mul, Int.cast_pow, Int.cast_ofNat]
  rw [hclass, ← ZMod.val_intCast, Int.toNat_natCast]

/-- The Montgomery forms of two words have the Montgomery forms of the difference and of the
product of the words as difference and product. -/
theorem formOf_words (hqs : ∀ q ∈ qs, q.Suitable) (u v : UInt64) :
    ∃ a b d p, (toMontgomery qs (ofWord qs u) : Outcome ε Scalar) = .ok a ∧
      (toMontgomery qs (ofWord qs v) : Outcome ε Scalar) = .ok b ∧
      (sub qs a b : Outcome ε Scalar) = .ok d ∧ (mul qs a b : Outcome ε Scalar) = .ok p ∧
        FormOf qs a u.toNat ∧ FormOf qs b v.toNat ∧ FormOf qs d (u.toNat - v.toNat) ∧
          FormOf qs p (u.toNat * v.toNat) := by
  obtain ⟨a, ha, harep⟩ := represents_ofWord (ε := ε) hqs u
  obtain ⟨b, hb, hbrep⟩ := represents_ofWord (ε := ε) hqs v
  obtain ⟨d, hd, hdrep⟩ := represents_sub (ε := ε) hqs harep hbrep
  obtain ⟨p, hp, hprep⟩ := represents_mul (ε := ε) hqs harep hbrep
  refine ⟨a, b, d, p, ha, hb, hd, hp, formOf_of_represents hqs ?_, formOf_of_represents hqs ?_,
    formOf_of_represents hqs ?_, formOf_of_represents hqs ?_⟩
  · simpa using harep
  · simpa using hbrep
  · simpa using hdrep
  · simpa using hprep

end RingShamir.Scalar
