import RingShamir.Chain.Plain
import RingShamir.Proofs.Chain.Lawful
import RingShamir.Proofs.Chain.Part

/-!
# Laws of the chain of a single basis

An element of the chain is a part over its only basis.

Main results:

- Theorem `elementAt_iff`: elements at a level are parts at this level.
- The instance of the laws of chains.
-/

namespace RingShamir

instance : ReducedElement RnsPoly where
  Valid := RnsPoly.Valid

namespace PlainChain

open ResidueChain

instance : ChainView PlainChain RnsPoly where
  Built c := c.basis.Built
  coefficient _ a i j := a.coefficient i j

variable {c : PlainChain} {a b out : RnsPoly} {l : Nat}

/-! ## Levels -/

/-- Elements at a level are parts at this level. -/
theorem elementAt_iff : ElementAt c l a ↔ a.PartOf c.basis ∧ a.level = l := by
  constructor
  · intro h
    obtain ⟨hfirst, hlevel⟩ := levelOf_eq_ok.mp h.level
    exact ⟨⟨h.valid, hfirst⟩, hlevel⟩
  · rintro ⟨hpart, hlevel⟩
    exact ⟨hpart.valid, levelOf_eq_ok.mpr ⟨hpart.isPrefix, hlevel⟩⟩

theorem levelOf_ok_or_invalid (c : PlainChain) (a : RnsPoly) :
    (∃ l, c.levelOf a = .ok l) ∨ c.levelOf a = .error (.failure .invalidContext) := by
  unfold levelOf
  split
  · exact .inl ⟨_, rfl⟩
  · exact .inr rfl

theorem addInto_eq (c : PlainChain) (a b : RnsPoly) :
    c.addInto a b = withOperandsChecked c a b (RnsPoly.addInto a b) := rfl

theorem addAssign_eq (c : PlainChain) (b : RnsPoly) :
    c.addAssign b = withOperandChecked c b (RnsPoly.addAssign b) := rfl

theorem of_zeroAt {z : RnsPoly} (hc : c.basis.Built) (h : c.zeroAt l = .ok z) :
    ElementAt c l z ∧ ∀ i j, z.coefficient i j = 0 := by
  simp only [zeroAt, Outcome.bind_eq_ok] at h
  rcases h with ⟨basis, hbasis, hzero⟩
  obtain ⟨hpart, hlevel, hcoefficients⟩ := RnsPoly.PartOf.of_zero hc hbasis hzero
  exact ⟨elementAt_iff.mpr ⟨hpart, hlevel⟩, hcoefficients⟩

theorem decode_encode {z : RnsPoly} (hc : c.basis.Built) (ha : ElementAt c l a)
    (h : c.zeroAt l = .ok z) : c.decode a.encode l = .ok a := by
  rcases elementAt_iff.mp ha with ⟨hpart, rfl⟩
  simp only [zeroAt, hpart.atLevel hc, Outcome.ok_bind] at h
  simp only [decode, hpart.atLevel hc, Outcome.ok_bind, hpart.decode_encode h]

/-! ## Operations -/

theorem run_scaleAssign {s : Scalar} (hc : c.basis.Built) (ha : ElementAt c l a)
    (hlength : s.length = c.basis.operators.length)
    (hs : RnsPoly.ReducedLimbs c.basis.operators s.limbs) :
    ∃ e, EStateM.run (c.scaleAssign s) a = .ok () e ∧ ElementAt c l e ∧
      ∀ (i : Nat) (q : Modulus) (x : UInt64) (j : Nat), c.basis.operators[i]? = some q →
        s.limbs[i]? = some x → q.residue (e.coefficient i j) =
          q.residue (a.coefficient i j) * q.montgomeryResidue x := by
  rcases elementAt_iff.mp ha with ⟨hpart, hlevel⟩
  have hlimbs : a.basis.operators.length ≤ s.limbs.length :=
    (hpart.length_operators_le hc).trans_eq hlength.symm
  obtain ⟨e, he, hepart, helevel, hclass⟩ := hpart.run_scaleAssign hc hlimbs hs
  refine ⟨e, ?_, elementAt_iff.mpr ⟨hepart, helevel.trans hlevel⟩, hclass⟩
  have hlevelOf : c.levelOf a = .ok l := ha.level
  simp [scaleAssign, hlevelOf, he]

/-- A scalar that is too short is refused before the polynomial is touched. -/
theorem scaleAssign_atomic {s : Scalar} (hc : c.basis.Built) (ha : a.Valid)
    (hs : RnsPoly.ReducedLimbs c.basis.operators s.limbs) :
    Action.Atomic (c.scaleAssign s) a := by
  rcases levelOf_ok_or_invalid c a with ⟨l, hlevel⟩ | hlevel
  · have hpart : a.PartOf c.basis := ⟨ha, (levelOf_eq_ok.mp hlevel).1⟩
    rcases Nat.lt_or_ge s.limbs.length a.basis.operators.length with hshort | hlong
    · right
      simp [scaleAssign, hlevel, RnsPoly.scaleAssign, hshort]
    · left
      obtain ⟨e, he, -⟩ := hpart.run_scaleAssign hc hlong hs
      exact ⟨(), e, by simp [scaleAssign, hlevel, he]⟩
  · right
    exact ⟨_, by simp [scaleAssign, hlevel]; rfl⟩

theorem run_addInto (hc : c.basis.Built) (ha : ElementAt c l a) (hb : ElementAt c l b)
    (hout : ElementAt c l out) :
    ∃ e, EStateM.run (c.addInto a b) out = .ok () e ∧ ElementAt c l e ∧
      ∀ (i : Nat) (q : Modulus) (j : Nat), c.basis.operators[i]? = some q →
        q.residue (e.coefficient i j) =
          q.residue (a.coefficient i j) + q.residue (b.coefficient i j) := by
  rcases elementAt_iff.mp ha with ⟨hpart, hlevel⟩
  rcases elementAt_iff.mp hb with ⟨hbpart, hblevel⟩
  rcases elementAt_iff.mp hout with ⟨houtpart, houtlevel⟩
  obtain ⟨e, he, hepart, helevel, hsum⟩ :=
    hpart.run_addInto hc hbpart houtpart (hlevel.trans hblevel.symm)
      (hlevel.trans houtlevel.symm)
  refine ⟨e, ?_, elementAt_iff.mpr ⟨hepart, helevel.trans hlevel⟩, hsum⟩
  rw [addInto_eq, run_withOperandsChecked ha.level hb.level hout.level, he]

theorem run_addAssign (hc : c.basis.Built) (ha : ElementAt c l a) (hb : ElementAt c l b) :
    ∃ e, EStateM.run (c.addAssign b) a = .ok () e ∧ ElementAt c l e ∧
      ∀ (i : Nat) (q : Modulus) (j : Nat), c.basis.operators[i]? = some q →
        q.residue (e.coefficient i j) =
          q.residue (a.coefficient i j) + q.residue (b.coefficient i j) := by
  rcases elementAt_iff.mp ha with ⟨hpart, hlevel⟩
  rcases elementAt_iff.mp hb with ⟨hbpart, hblevel⟩
  obtain ⟨e, he, hepart, helevel, hsum⟩ :=
    hpart.run_addAssign (ε := RingError) hc hbpart (hlevel.trans hblevel.symm)
  refine ⟨e, ?_, elementAt_iff.mpr ⟨hepart, helevel.trans hlevel⟩, hsum⟩
  rw [addAssign_eq, run_withOperandChecked ha.level hb.level, he]

end PlainChain

instance : LawfulChain PlainChain RnsPoly Nat where
  suitable hc := hc.suitable
  levelOf_cases := PlainChain.levelOf_ok_or_invalid
  coefficient_lt hc ha hq := (PlainChain.elementAt_iff.mp ha).1.coefficient_lt hc hq
  ext hc ha hb := by
    rcases PlainChain.elementAt_iff.mp ha with ⟨hpart, hlevel⟩
    rcases PlainChain.elementAt_iff.mp hb with ⟨hpart', hlevel'⟩
    exact hpart.ext hc hpart' (hlevel.trans hlevel'.symm)
  finite l hc := by
    simp only [PlainChain.elementAt_iff]
    exact RnsPoly.PartOf.finite hc l
  of_zeroAt := PlainChain.of_zeroAt
  decode_encode := PlainChain.decode_encode
  run_scaleAssign := PlainChain.run_scaleAssign
  scaleAssign_atomic := PlainChain.scaleAssign_atomic
  run_addInto := PlainChain.run_addInto
  run_addAssign := PlainChain.run_addAssign
  run_addInto_fault := run_withOperandsChecked_fault (PlainChain.levelOf_ok_or_invalid _)
  run_addAssign_fault := run_withOperandChecked_fault (PlainChain.levelOf_ok_or_invalid _)

namespace PlainChain

open ResidueChain

/-! ## A small chain -/

/-- The chain of the primes five and seven, for polynomials of degree eight. -/
def fiveSeven : PlainChain where
  basis :=
    { moduli := [5, 7]
      operators := [.withConstants 5, .withConstants 7]
      degree := 8
      product := 35
      lower := some ⟨[5], [.withConstants 5], 8, 5, none⟩ }

theorem fiveSeven_built : Built fiveSeven := by
  have h : RnsBasis.ofModuli [5, 7] 8 = .ok fiveSeven.basis := by decide +kernel
  exact RnsBasis.built_of_ofModuli h

theorem primalityExact_fiveSeven : Modulus.PrimalityExact (moduli fiveSeven) := by
  change ∀ q ∈ [Modulus.withConstants 5, Modulus.withConstants 7],
    Primality.isPrime q.value.toNat = true ↔ q.value.toNat.Prime
  decide +kernel

/-- The element with given rows. -/
def elementOverFiveSeven (rows : List (List UInt64)) : RnsPoly :=
  ⟨fiveSeven.basis, rows⟩

/-- Rows that pass the check make an element at the highest level. -/
theorem elementAt_fiveSeven {rows : List (List UInt64)}
    (h : RnsPoly.ofRows fiveSeven.basis rows = .ok (elementOverFiveSeven rows)) :
    ElementAt fiveSeven 1 (elementOverFiveSeven rows) := by
  obtain ⟨hvalid, -⟩ := RnsPoly.valid_of_ofRows fiveSeven_built h
  exact elementAt_iff.mpr ⟨⟨hvalid, rfl⟩, rfl⟩

/-- The constant zero. -/
def zeroOverFiveSeven : RnsPoly :=
  elementOverFiveSeven [[0, 0, 0, 0, 0, 0, 0, 0], [0, 0, 0, 0, 0, 0, 0, 0]]

/-- The constant one. -/
def oneOverFiveSeven : RnsPoly :=
  elementOverFiveSeven [[1, 0, 0, 0, 0, 0, 0, 0], [1, 0, 0, 0, 0, 0, 0, 0]]

theorem elementAt_zeroOverFiveSeven : ElementAt fiveSeven 1 zeroOverFiveSeven :=
  elementAt_fiveSeven (by decide +kernel)

theorem elementAt_oneOverFiveSeven : ElementAt fiveSeven 1 oneOverFiveSeven :=
  elementAt_fiveSeven (by decide +kernel)

end PlainChain

end RingShamir
