import Mathlib.Data.Nat.ChineseRemainder
import RingShamir.Proofs.RnsPoly

/-!
# Integers from their residues

The polynomial of integer coefficients holds the least non-negative residues of every
coefficient.  Where the moduli are pairwise coprime, a coefficient can be read back from its
residues: it is the only integer that has them and whose absolute value is less than half of
the product of the moduli.

Main results:

- Definition `centredLift`: an integer of least absolute value with given residues.
- Theorem `centredLift_eq`: small integers are read back.
- Definition `HasResidues`: rows of least non-negative residues.
- Theorem `hasResidues_of_ofInts`: the rows of the polynomial of integer coefficients.
- Theorem `HasResidues.lift_eq`: small coefficients are read back from a polynomial.
-/

namespace RingShamir.RnsPoly

/-! ## Centred lifts -/

/-- An integer of least absolute value with given residues, each of which comes after its
modulus.  The moduli have to be pairwise coprime. -/
def centredLift (residues : List (Nat × Nat)) : Int :=
  if h : residues.Pairwise fun p p' => p.1.Coprime p'.1 then
    Int.bmod (Nat.chineseRemainderOfList Prod.snd Prod.fst residues h)
      (residues.map Prod.fst).prod
  else 0

/-- An integer whose absolute value is less than half of the product of the moduli is read back
from its residues. -/
theorem centredLift_eq {residues : List (Nat × Nat)} {c : Int}
    (hcoprime : residues.Pairwise fun p p' => p.1.Coprime p'.1)
    (hresidues : ∀ p ∈ residues, (p.2 : Int) = c % p.1)
    (hsmall : 2 * |c| < (residues.map Prod.fst).prod) : centredLift residues = c := by
  set product := (residues.map Prod.fst).prod
  have hbounds := abs_le.mp (le_refl |c|)
  have hpos : (0 : Int) < product := by omega
  -- The remainder of the integer modulo the product has the residues, too.
  have hremainder : ((c % product).toNat : Int) = c % product :=
    Int.toNat_of_nonneg (Int.emod_nonneg c hpos.ne')
  have hmod : ∀ p ∈ residues, (c % product).toNat ≡ p.2 [MOD p.1] := by
    intro p hp
    have hdvd : (p.1 : Int) ∣ product :=
      Int.natCast_dvd_natCast.mpr (List.dvd_prod (List.mem_map_of_mem hp))
    rw [← Int.natCast_modEq_iff, hremainder, hresidues p hp, Int.ModEq, Int.emod_emod_of_dvd c hdvd,
      Int.emod_emod]
  have hunique := Nat.chineseRemainderOfList_modEq_unique Prod.snd Prod.fst residues hcoprime hmod
  rw [← Int.natCast_modEq_iff, hremainder, Int.ModEq, Int.emod_emod] at hunique
  rw [centredLift, dif_pos hcoprime, ← Int.emod_bmod, ← hunique, Int.emod_bmod]
  exact Int.bmod_eq_of_le_mul_two (by omega) (by omega)

/-- Distinct primes are pairwise coprime. -/
theorem pairwise_coprime {ms : List UInt64} (hnodup : ms.Nodup)
    (hprime : ∀ m ∈ ms, m.toNat.Prime) : ms.Pairwise fun m m' => m.toNat.Coprime m'.toNat := by
  refine hnodup.imp_of_mem ?_
  intro m m' hm hm' hne
  exact (Nat.coprime_primes (hprime m hm) (hprime m' hm')).mpr fun h => hne (UInt64.toNat_inj.mp h)

/-! ## Rows of residues -/

/-- Each row holds the least non-negative residues of the coefficients modulo its modulus. -/
def HasResidues (ms : List UInt64) (v : List Int) (rows : List (List UInt64)) : Prop :=
  List.Forall₂ (fun m row => List.Forall₂ (fun (c : Int) (x : UInt64) =>
    (x.toNat : Int) = c % (m.toNat : Int)) v row) ms rows

/-- The residues at a position of rows, each after its modulus. -/
def residuesAt (ms : List UInt64) (rows : List (List UInt64)) (j : Nat) : List (Nat × Nat) :=
  List.zipWith (fun m row => (m.toNat, ((row[j]?).getD 0).toNat)) ms rows

/-- The centred lift of the coefficient at a position. -/
def lift (a : RnsPoly) (j : Nat) : Int :=
  centredLift (residuesAt a.basis.moduli a.rows j)

variable {a : RnsPoly} {b : RnsBasis} {ms : List UInt64} {v : List Int}
  {rows : List (List UInt64)}

/-- The residues at a position are those of the coefficient. -/
theorem HasResidues.residuesAt_eq (h : HasResidues ms v rows) {j : Nat} {c : Int}
    (hc : v[j]? = some c) :
    residuesAt ms rows j = ms.map fun m => (m.toNat, (c % (m.toNat : Int)).toNat) := by
  unfold residuesAt
  induction h with
  | nil => rfl
  | @cons m row ms rows hrow _ ih =>
      obtain ⟨x, hx, hresidue⟩ := exists_getElem?_of_forall₂ hrow hc
      rw [List.zipWith_cons_cons, List.map_cons, ih, hx, Option.getD_some, ← hresidue,
        Int.toNat_natCast]

/-- A coefficient whose absolute value is less than half of the product of the moduli is the
centred lift of its residues. -/
theorem HasResidues.lift_eq (h : HasResidues a.basis.moduli v a.rows)
    (hnodup : a.basis.moduli.Nodup) (hprime : ∀ m ∈ a.basis.moduli, m.toNat.Prime) {j : Nat}
    {c : Int} (hc : v[j]? = some c)
    (hsmall : 2 * |c| < ((a.basis.moduli.map (·.toNat)).prod : Nat)) : a.lift j = c := by
  rw [lift, h.residuesAt_eq hc]
  apply centredLift_eq
  · rw [List.pairwise_map]
    exact pairwise_coprime hnodup hprime
  · intro p hp
    obtain ⟨m, hm, rfl⟩ := List.mem_map.mp hp
    have hpos : (0 : Int) < m.toNat := by exact_mod_cast (hprime m hm).pos
    exact Int.toNat_of_nonneg (Int.emod_nonneg c hpos.ne')
  · rw [List.map_map]
    exact hsmall

/-! ## Polynomials of integer coefficients -/

/-- The rows of the polynomial of integer coefficients are their residues. -/
theorem hasResidues_of_ofInts (hb : b.Built) (h : ofInts b v = .ok a) :
    HasResidues b.moduli v a.rows := by
  obtain ⟨-, -, rfl⟩ := ofInts_eq_ok_iff.mp h
  have hsuitable := hb.suitable
  rw [HasResidues, hb.operators_eq, List.forall₂_map_right_iff, List.forall₂_map_right_iff,
    List.forall₂_same]
  rw [hb.operators_eq] at hsuitable
  intro m hm
  rw [List.forall₂_map_right_iff, List.forall₂_same]
  intro c _
  exact Modulus.toNat_reduceInt (hsuitable _ (List.mem_map_of_mem hm)).toAccepted c

end RingShamir.RnsPoly
