import Mathlib.Algebra.Ring.Pi
import RingShamir.Proofs.Modulus.MontgomeryForm
import RingShamir.Scalar

/-!
# Scalars as families of residue classes

A scalar in Montgomery form over suitable moduli represents a residue class for
every modulus.  The operations on scalars are the ring operations of such
families, taken modulus by modulus.

Main results:

- Definition `Represents`: a scalar has one reduced limb for each modulus, the
  Montgomery form of the class of a family.
- Definition `Reduced`: a scalar has one reduced limb for each modulus.
- Theorems `represents_ofWord`, `represents_sub`, `represents_mul` and
  `represents_inverse`: the operations succeed on scalars that represent
  families, and so does what they return.
- Theorems `sub_first`, `mul_first` and `inverse_first`: the first limbs of what an
  operation returns are computed from the first limbs of its operands.
- Theorem `exists_represents`: every family is represented.
-/

namespace RingShamir

/-- A residue class for every modulus. -/
abbrev ResidueFamily : Type :=
  (q : Modulus) → ZMod q.value.toNat

namespace Scalar

variable {ε : Type} {qs : List Modulus} {a b s : Scalar} {f g : ResidueFamily}

/-- A word is reduced and the Montgomery form of the class of a family. -/
def LimbOf (f : ResidueFamily) (q : Modulus) (x : UInt64) : Prop :=
  x < q.value ∧ q.montgomeryResidue x = f q

/-- A scalar has one limb for each modulus, which is the Montgomery form of the
class of a family. -/
def Represents (qs : List Modulus) (s : Scalar) (f : ResidueFamily) : Prop :=
  List.Forall₂ (LimbOf f) qs s.limbs

theorem Represents.length_eq (h : Represents qs s f) : s.length = qs.length :=
  (List.Forall₂.length_eq h).symm

/-- A scalar has one reduced limb for each modulus. -/
def Reduced (qs : List Modulus) (s : Scalar) : Prop :=
  List.Forall₂ (fun q x => x < q.value) qs s.limbs

theorem Reduced.length_eq (h : Reduced qs s) : s.length = qs.length :=
  (List.Forall₂.length_eq h).symm

theorem Reduced.lt (h : Reduced qs s) {i : Nat} {q : Modulus} {x : UInt64}
    (hq : qs[i]? = some q) (hx : s.limbs[i]? = some x) : x < q.value :=
  getElem?_of_forall₂ h hq hx

theorem Represents.reduced (h : Represents qs s f) : Reduced qs s :=
  h.imp fun _ _ hlimb => hlimb.1

theorem Represents.getElem? (h : Represents qs s f) {i : Nat} {q : Modulus}
    (hq : qs[i]? = some q) : ∃ x, s.limbs[i]? = some x ∧ LimbOf f q x :=
  exists_getElem?_of_forall₂ h hq

/-- A limb is the reduced Montgomery form of its class. -/
theorem LimbOf.toNat_eq {q : Modulus} {y : UInt64} (hq : q.Suitable) (h : LimbOf f q y) :
    y.toNat = (f q * q.radix).val := by
  rw [← h.2, ← Modulus.residue_eq_mul_radix hq.odd, Modulus.residue, ZMod.val_natCast,
    Nat.mod_eq_of_lt (UInt64.lt_iff_toNat_lt.mp h.1)]

/-- The limbs of a scalar are determined by the classes that it represents. -/
theorem Represents.limbs_eq (hqs : ∀ q ∈ qs, q.Suitable) (h : Represents qs s f) :
    s.limbs.map UInt64.toNat = qs.map fun q => (f q * q.radix).val := by
  refine (map_eq_map_of_forall₂ (forall₂_of_getElem? h.length_eq.symm ?_)).symm
  intro i q y hq hy
  symm
  exact (getElem?_of_forall₂ h hq hy).toNat_eq (hqs q (List.mem_of_getElem? hq))

/-- Scalars with the same numbers as limbs are equal. -/
theorem eq_of_limbs (h : a.limbs.map UInt64.toNat = b.limbs.map UInt64.toNat) : a = b := by
  have hinjective : Function.Injective UInt64.toNat := fun _ _ => UInt64.toNat_inj.mp
  cases a
  cases b
  exact congrArg mk (List.map_injective_iff.mpr hinjective h)

/-- A family is represented by one scalar only. -/
theorem Represents.unique (hqs : ∀ q ∈ qs, q.Suitable) (ha : Represents qs a f)
    (hb : Represents qs b f) : a = b :=
  eq_of_limbs ((ha.limbs_eq hqs).trans (hb.limbs_eq hqs).symm)

/-- Only the classes of the moduli matter. -/
theorem Represents.congr (h : Represents qs s f) (hfg : ∀ q ∈ qs, f q = g q) :
    Represents qs s g := by
  rcases s with ⟨limbs⟩
  simp only [Represents] at h ⊢
  induction h with
  | nil => exact .nil
  | cons hhead _ ih =>
      refine .cons ⟨hhead.1, ?_⟩ (ih fun q hq => hfg q (List.mem_cons_of_mem _ hq))
      rw [hhead.2, hfg _ List.mem_cons_self]

/-! ## Operations -/

section Limbs

variable {R S T : Modulus → UInt64 → Prop}

/-- Multiplication by the radix of limbs with a property. -/
theorem exists_toMontgomery
    (hop : ∀ q ∈ qs, ∀ x, R q x → ∃ z, (q.toMontgomery x : Outcome ε UInt64) = .ok z ∧ T q z)
    (ha : List.Forall₂ R qs a.limbs) :
    ∃ d, (toMontgomery qs a : Outcome ε Scalar) = .ok d ∧ List.Forall₂ T qs d.limbs := by
  obtain ⟨limbs, hlimbs, hT⟩ := Outcome.exists_zipWithM hop ha
  refine ⟨⟨limbs⟩, ?_, hT⟩
  have hlength : a.length = qs.length := ha.length_eq.symm
  simp only [toMontgomery, Outcome.require_of hlength, Outcome.ok_bind, hlimbs,
    Outcome.pure_eq_ok]

/-- A limb-wise operation on limbs with properties. -/
theorem exists_limbs {op : Modulus → UInt64 → UInt64 → Outcome ε UInt64}
    (hop : ∀ q ∈ qs, ∀ x y, R q x → S q y → ∃ z, op q x y = .ok z ∧ T q z)
    (ha : List.Forall₂ R qs a.limbs) (hb : List.Forall₂ S qs b.limbs) :
    ∃ limbs, List.zipWithM (fun q (x, y) => op q x y) qs (a.limbs.zip b.limbs) = .ok limbs ∧
      List.Forall₂ T qs limbs := by
  apply Outcome.exists_zipWithM _ (forall₂_zip ha hb)
  rintro q hq ⟨x, y⟩ ⟨hx, hy⟩
  exact hop q hq x y hx hy

theorem exists_sub
    (hop : ∀ q ∈ qs, ∀ x y, R q x → S q y → ∃ z, (q.sub x y : Outcome ε UInt64) = .ok z ∧ T q z)
    (ha : List.Forall₂ R qs a.limbs) (hb : List.Forall₂ S qs b.limbs) :
    ∃ d, (sub qs a b : Outcome ε Scalar) = .ok d ∧ List.Forall₂ T qs d.limbs := by
  obtain ⟨limbs, hlimbs, hT⟩ := exists_limbs hop ha hb
  refine ⟨⟨limbs⟩, ?_, hT⟩
  have hlength : a.length = qs.length := ha.length_eq.symm
  have hlength' : b.length = qs.length := hb.length_eq.symm
  simp only [sub, Outcome.require_of hlength, Outcome.require_of hlength', Outcome.ok_bind,
    hlimbs, Outcome.pure_eq_ok]

theorem exists_mul
    (hop : ∀ q ∈ qs, ∀ x y, R q x → S q y →
      ∃ z, (q.montgomeryMul x y : Outcome ε UInt64) = .ok z ∧ T q z)
    (ha : List.Forall₂ R qs a.limbs) (hb : List.Forall₂ S qs b.limbs) :
    ∃ d, (mul qs a b : Outcome ε Scalar) = .ok d ∧ List.Forall₂ T qs d.limbs := by
  obtain ⟨limbs, hlimbs, hT⟩ := exists_limbs hop ha hb
  refine ⟨⟨limbs⟩, ?_, hT⟩
  have hlength : a.length = qs.length := ha.length_eq.symm
  have hlength' : b.length = qs.length := hb.length_eq.symm
  simp only [mul, Outcome.require_of hlength, Outcome.require_of hlength', Outcome.ok_bind,
    hlimbs, Outcome.pure_eq_ok]

end Limbs

theorem represents_sub (hqs : ∀ q ∈ qs, q.Suitable) (ha : Represents qs a f)
    (hb : Represents qs b g) :
    ∃ d, (sub qs a b : Outcome ε Scalar) = .ok d ∧ Represents qs d (f - g) := by
  apply exists_sub _ ha hb
  rintro q hq x y ⟨hx, hxclass⟩ ⟨hy, hyclass⟩
  have hq := (hqs q hq).toAccepted
  refine ⟨_, Modulus.sub_eq hq hx hy, Modulus.ofResidue_lt hq _, ?_⟩
  rw [Modulus.montgomeryResidue_ofResidue hq, sub_mul, Pi.sub_apply, ← hxclass, ← hyclass]
  rfl

theorem represents_mul (hqs : ∀ q ∈ qs, q.Suitable) (ha : Represents qs a f)
    (hb : Represents qs b g) :
    ∃ d, (mul qs a b : Outcome ε Scalar) = .ok d ∧ Represents qs d (f * g) := by
  apply exists_mul _ ha hb
  rintro q hq x y ⟨hx, hxclass⟩ ⟨hy, hyclass⟩
  have hq := hqs q hq
  refine ⟨_, Modulus.montgomeryMul_eq hq.toAccepted hq.odd hx hy,
    Modulus.ofResidue_lt hq.toAccepted _, ?_⟩
  rw [Modulus.montgomeryResidue_mul hq.toAccepted, hxclass, hyclass, Pi.mul_apply]

theorem length_of_mul (h : (mul qs a b : Outcome ε Scalar) = .ok s) : s.length = a.length := by
  simp only [mul, Outcome.bind_eq_ok, Outcome.require_eq_ok, Outcome.pure_eq_ok,
    Except.ok.injEq] at h
  rcases h with ⟨_, ha, _, hb, limbs, hlimbs, rfl⟩
  have hlength := Outcome.length_of_zipWithM hlimbs
  simp only [length, List.length_zip] at ha hb hlength ⊢
  omega

theorem run_mulAssign (hqs : ∀ q ∈ qs, q.Suitable) (ha : Represents qs a f)
    (hb : Represents qs b g) :
    ∃ d, EStateM.run (mulAssign qs b : Action ε Scalar Unit) a = .ok () d ∧
      Represents qs d (f * g) := by
  obtain ⟨d, hd, hrep⟩ := represents_mul (ε := ε) hqs ha hb
  refine ⟨d, ?_, hrep⟩
  simp [mulAssign, hd]

/-- The Montgomery form of a word represents the classes of the word. -/
theorem represents_ofWord (hqs : ∀ q ∈ qs, q.Suitable) (v : UInt64) :
    ∃ s, (toMontgomery qs (ofWord qs v) : Outcome ε Scalar) = .ok s ∧
      Represents qs s (v.toNat : ResidueFamily) := by
  have hplain : List.Forall₂ (fun q x => x < q.value ∧ q.residue x = q.residue v) qs
      (ofWord qs v).limbs := by
    rw [ofWord, List.forall₂_map_right_iff, List.forall₂_same]
    intro q hq
    exact ⟨Modulus.reduce_lt (hqs q hq).zero_lt v, Modulus.residue_reduce q v⟩
  apply exists_toMontgomery _ hplain
  rintro q hq x ⟨hx, hclass⟩
  have hq := hqs q hq
  refine ⟨_, Modulus.toMontgomery_eq hq.toAccepted hq.odd hx,
    Modulus.ofResidue_lt hq.toAccepted _, ?_⟩
  rw [Modulus.montgomeryResidue_mul_radix hq.toAccepted hq.odd, hclass]
  rfl

theorem represents_one (hqs : ∀ q ∈ qs, q.Suitable) :
    ∃ s, (one qs : Outcome ε Scalar) = .ok s ∧ Represents qs s 1 := by
  obtain ⟨s, hs, hrep⟩ := represents_ofWord (ε := ε) hqs 1
  refine ⟨s, hs, hrep.congr ?_⟩
  intro q _
  simp

/-- Inverse limbs that are returned are those of the inverse classes, and all
classes have one. -/
theorem limbOf_of_inverseLimbs {xs ys : List UInt64} (hqs : ∀ q ∈ qs, q.Suitable)
    (hxs : List.Forall₂ (LimbOf f) qs xs)
    (h : (inverseLimbs qs xs : Outcome ε _) = .ok (some ys)) :
    (∀ q ∈ qs, IsUnit (f q)) ∧ List.Forall₂ (LimbOf f⁻¹) qs ys := by
  induction hxs generalizing ys with
  | nil =>
      simp only [inverseLimbs, Outcome.pure_eq_ok, Except.ok.injEq, Option.some.injEq] at h
      rw [← h]
      exact ⟨by simp, .nil⟩
  | @cons q x qs xs hx hrest ih =>
      have hq := hqs q List.mem_cons_self
      simp only [inverseLimbs, Outcome.bind_eq_ok] at h
      rcases h with ⟨o, ho, h⟩
      cases o with
      | none => cases h
      | some y =>
          simp only [Outcome.bind_eq_ok] at h
          rcases h with ⟨o', ho', h⟩
          cases o' with
          | none => cases h
          | some zs =>
              simp only [Outcome.pure_eq_ok, Except.ok.injEq, Option.some.injEq] at h
              obtain ⟨hunits, hlimbs⟩ := ih (fun r hr => hqs r (List.mem_cons_of_mem _ hr)) ho'
              obtain ⟨hlt, hunit, hclass⟩ :=
                Modulus.montgomeryResidue_of_inverse hq.toAccepted hq.odd hx.1 ho
              rw [hx.2] at hunit hclass
              rw [← h]
              refine ⟨?_, .cons ⟨hlt, hclass⟩ hlimbs⟩
              intro r hr
              rcases List.mem_cons.mp hr with rfl | hr
              · exact hunit
              · exact hunits r hr

/-- An inverse that is returned represents the inverse classes, and all classes
have one. -/
theorem represents_inverse (hqs : ∀ q ∈ qs, q.Suitable) (ha : Represents qs a f)
    (h : (inverse qs a : Outcome ε _) = .ok (some b)) :
    (∀ q ∈ qs, IsUnit (f q)) ∧ Represents qs b f⁻¹ := by
  simp only [inverse, Outcome.bind_eq_ok] at h
  rcases h with ⟨-, -, o, ho, h⟩
  cases o with
  | none => cases h
  | some limbs =>
      simp only [Outcome.pure_eq_ok, Except.ok.injEq, Option.some.injEq] at h
      rw [← h]
      exact limbOf_of_inverseLimbs hqs ha ho

/-! ## First limbs -/

/-- The first limbs of a scalar. -/
def first (n : Nat) (s : Scalar) : Scalar :=
  ⟨s.limbs.take n⟩

theorem length_first (n : Nat) (h : a.length = qs.length) :
    (a.first n).length = (qs.take n).length := by
  simp only [length, first, List.length_take] at h ⊢
  rw [h]

theorem first_ofWord (n : Nat) (qs : List Modulus) (v : UInt64) :
    (ofWord qs v).first n = ofWord (qs.take n) v := by
  simp only [first, ofWord, List.map_take]

theorem toMontgomery_first (n : Nat) (h : (toMontgomery qs a : Outcome ε Scalar) = .ok b) :
    (toMontgomery (qs.take n) (a.first n) : Outcome ε Scalar) = .ok (b.first n) := by
  simp only [toMontgomery, Outcome.bind_eq_ok, Outcome.require_eq_ok, Outcome.pure_eq_ok,
    Except.ok.injEq] at h
  rcases h with ⟨_, ha, limbs, hlimbs, rfl⟩
  have hfirst := Outcome.zipWithM_take hlimbs n
  simp only [toMontgomery, Outcome.require_of (length_first n ha), Outcome.ok_bind]
  simp only [first, hfirst, Outcome.ok_bind, Outcome.pure_eq_ok]

/-- The first limbs of a limb-wise operation on two scalars. -/
theorem zipWithM_first {op : Modulus → UInt64 → UInt64 → Outcome ε UInt64} {limbs : List UInt64}
    (h : List.zipWithM (fun q (x, y) => op q x y) qs (a.limbs.zip b.limbs) = .ok limbs) (n : Nat) :
    List.zipWithM (fun q (x, y) => op q x y) (qs.take n)
      ((a.first n).limbs.zip (b.first n).limbs) = .ok (limbs.take n) := by
  have hfirst := Outcome.zipWithM_take h n
  rwa [List.zip, List.take_zipWith] at hfirst

theorem sub_first (n : Nat) (h : (sub qs a b : Outcome ε Scalar) = .ok s) :
    (sub (qs.take n) (a.first n) (b.first n) : Outcome ε Scalar) = .ok (s.first n) := by
  simp only [sub, Outcome.bind_eq_ok, Outcome.require_eq_ok, Outcome.pure_eq_ok,
    Except.ok.injEq] at h
  rcases h with ⟨_, ha, _, hb, limbs, hlimbs, rfl⟩
  simp only [sub, Outcome.require_of (length_first n ha), Outcome.require_of (length_first n hb),
    Outcome.ok_bind, zipWithM_first hlimbs n, Outcome.pure_eq_ok]
  rfl

theorem mul_first (n : Nat) (h : (mul qs a b : Outcome ε Scalar) = .ok s) :
    (mul (qs.take n) (a.first n) (b.first n) : Outcome ε Scalar) = .ok (s.first n) := by
  simp only [mul, Outcome.bind_eq_ok, Outcome.require_eq_ok, Outcome.pure_eq_ok,
    Except.ok.injEq] at h
  rcases h with ⟨_, ha, _, hb, limbs, hlimbs, rfl⟩
  simp only [mul, Outcome.require_of (length_first n ha), Outcome.require_of (length_first n hb),
    Outcome.ok_bind, zipWithM_first hlimbs n, Outcome.pure_eq_ok]
  rfl

theorem inverseLimbs_first {xs ys : List UInt64}
    (h : (inverseLimbs qs xs : Outcome ε _) = .ok (some ys)) (n : Nat) :
    (inverseLimbs (qs.take n) (xs.take n) : Outcome ε _) = .ok (some (ys.take n)) := by
  induction qs generalizing xs ys n with
  | nil =>
      obtain rfl := Option.some.inj (Except.ok.inj h)
      simp [inverseLimbs]
  | cons q qs ih =>
      cases xs with
      | nil =>
          obtain rfl := Option.some.inj (Except.ok.inj h)
          simp [inverseLimbs]
      | cons x xs =>
          simp only [inverseLimbs, Outcome.bind_eq_ok] at h
          rcases h with ⟨o, ho, h⟩
          cases o with
          | none => cases h
          | some y =>
              rcases Outcome.bind_eq_ok.mp h with ⟨o', ho', h⟩
              cases o' with
              | none => cases h
              | some zs =>
                  obtain rfl := Option.some.inj (Except.ok.inj h)
                  cases n with
                  | zero => simp [inverseLimbs]
                  | succ n => simp [inverseLimbs, ho, ih ho' n]

theorem inverse_first (n : Nat) (h : (inverse qs a : Outcome ε _) = .ok (some b)) :
    (inverse (qs.take n) (a.first n) : Outcome ε _) = .ok (some (b.first n)) := by
  simp only [inverse, Outcome.bind_eq_ok, Outcome.require_eq_ok] at h
  rcases h with ⟨_, ha, o, ho, h⟩
  cases o with
  | none => cases h
  | some limbs =>
      obtain rfl := Option.some.inj (Except.ok.inj h)
      have hfirst := inverseLimbs_first ho n
      simp only [inverse, Outcome.require_of (length_first n ha), Outcome.ok_bind]
      simp only [first, hfirst, Outcome.ok_bind, Outcome.pure_eq_ok]

/-- The Montgomery forms of the classes of a family represent it. -/
theorem exists_represents (hqs : ∀ q ∈ qs, q.Suitable) (f : ResidueFamily) :
    ∃ s, Represents qs s f := by
  refine ⟨⟨qs.map fun q => q.ofResidue (f q * q.radix)⟩, ?_⟩
  unfold Represents
  rw [List.forall₂_map_right_iff, List.forall₂_same]
  intro q hq
  have hq := hqs q hq
  exact ⟨Modulus.ofResidue_lt hq.toAccepted _,
    Modulus.montgomeryResidue_mul_radix hq.toAccepted hq.odd _⟩

end Scalar

end RingShamir
