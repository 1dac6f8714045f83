import Mathlib.Data.Finite.Prod
import Mathlib.Data.Fintype.EquivFin
import RingShamir.Proofs.RnsPoly

/-!
# Parts of elements

An element of a chain has a part over each basis of the chain: a valid polynomial
over a prefix of the basis.  Positions are counted over the whole basis, and a
part has the coefficient zero where its own basis ends.  With that convention
the operations on parts act the same way at all positions, whatever the level.

Main results:

- Definition `PartOf`: a valid polynomial over a prefix of a basis.
- Theorem `PartOf.ext`: level and coefficients determine a part.
- Theorems `PartOf.run_scaleAssign`, `PartOf.run_addAssign` and
  `PartOf.run_addInto`: the operations in place at every position of the basis.
-/

namespace RingShamir.RnsPoly

variable {ε : Type} {a b : RnsPoly} {c basis : RnsBasis}

/-- A valid polynomial over a prefix of a basis. -/
structure PartOf (c : RnsBasis) (a : RnsPoly) : Prop where
  /-- The polynomial is valid. -/
  valid : a.Valid
  /-- Its basis is a prefix. -/
  isPrefix : a.basis.isPrefixOf c = true

namespace PartOf

/-- Parts at one level live over one basis. -/
theorem basis_eq (ha : PartOf c a) (hb : PartOf c b) (h : a.level = b.level) :
    a.basis = b.basis :=
  ha.valid.built.eq_of_level hb.valid.built ha.isPrefix hb.isPrefix h

theorem of_basis_eq (ha : PartOf c a) (hb : b.Valid) (h : b.basis = a.basis) : PartOf c b :=
  ⟨hb, h ▸ ha.isPrefix⟩

/-- At a position of the basis, a part has the same modulus, or it has ended. -/
theorem operator_or_ended (hc : c.Built) (ha : PartOf c a) {i : Nat} {q : Modulus}
    (hq : c.operators[i]? = some q) :
    a.basis.operators[i]? = some q ∨ ∀ j, a.coefficient i j = 0 := by
  rcases Nat.lt_or_ge i a.basis.operators.length with hi | hi
  · left
    rw [← hq, ha.valid.built.getElem?_operators hc ha.isPrefix hi]
  · right
    exact coefficient_of_length_le (ha.valid.length_rows ▸ hi)

theorem coefficient_lt (hc : c.Built) (ha : PartOf c a) {i : Nat} {q : Modulus}
    (hq : c.operators[i]? = some q) (j : Nat) : a.coefficient i j < q.value := by
  rcases ha.operator_or_ended hc hq with h | h
  · exact ha.valid.coefficient_lt h j
  · rw [h j]
    exact (hc.suitable q (List.mem_of_getElem? hq)).zero_lt

/-- Level and coefficients determine a part. -/
theorem ext (hc : c.Built) (ha : PartOf c a) (hb : PartOf c b) (hlevel : a.level = b.level)
    (h : ∀ (i : Nat) (q : Modulus) (j : Nat), c.operators[i]? = some q →
      a.coefficient i j = b.coefficient i j) : a = b := by
  apply ha.valid.ext hb.valid (ha.basis_eq hb hlevel)
  intro i hi j
  have hfirst := ha.valid.built.operators_prefix hc ha.isPrefix
  exact h i _ j (List.getElem?_eq_getElem (hi.trans_le hfirst.length_le))

theorem length_operators_le (hc : c.Built) (ha : PartOf c a) :
    a.basis.operators.length ≤ c.operators.length :=
  (ha.valid.built.operators_prefix hc ha.isPrefix).length_le

/-! ## Operations -/

theorem run_scaleAssign (hc : c.Built) (ha : PartOf c a) {s : List UInt64}
    (hlength : a.basis.operators.length ≤ s.length) (hs : ReducedLimbs c.operators s) :
    ∃ e, EStateM.run (scaleAssign s) a = .ok () e ∧ PartOf c e ∧ e.level = a.level ∧
      ∀ (i : Nat) (q : Modulus) (x : UInt64) (j : Nat), c.operators[i]? = some q →
        s[i]? = some x → q.residue (e.coefficient i j) =
          q.residue (a.coefficient i j) * q.montgomeryResidue x := by
  have hs' : ReducedLimbs a.basis.operators s := by
    intro i q x hq hx
    have hi := (List.getElem?_eq_some_iff.mp hq).1
    rw [ha.valid.built.getElem?_operators hc ha.isPrefix hi] at hq
    exact hs i q x hq hx
  obtain ⟨e, he, hvalid, hbasis, hcoefficient⟩ :=
    RnsPoly.run_scaleAssign ha.valid hlength hs'
  have hpart := ha.of_basis_eq hvalid hbasis
  refine ⟨e, he, hpart, by rw [level, level, hbasis], ?_⟩
  intro i q x j hq hx
  rcases ha.operator_or_ended hc hq with h | h
  · exact hcoefficient i q x j h hx
  · rcases hpart.operator_or_ended hc hq with h' | h'
    · exact hcoefficient i q x j (hbasis ▸ h') hx
    · rw [h j, h' j, Modulus.residue_zero, zero_mul]

/-- Sums at the positions of a part are sums at all positions of the basis. -/
theorem sum_of_sum {e : RnsPoly} (hc : c.Built) (ha : PartOf c a) (hb : PartOf c b)
    (he : PartOf c e) (hab : b.basis = a.basis) (hea : e.basis = a.basis)
    (h : ∀ (i : Nat) (q : Modulus) (j : Nat), a.basis.operators[i]? = some q →
      q.residue (e.coefficient i j) =
        q.residue (a.coefficient i j) + q.residue (b.coefficient i j))
    (i : Nat) (q : Modulus) (j : Nat) (hq : c.operators[i]? = some q) :
    q.residue (e.coefficient i j) =
      q.residue (a.coefficient i j) + q.residue (b.coefficient i j) := by
  rcases Nat.lt_or_ge i a.basis.operators.length with hi | hi
  · apply h i q j
    rw [← hq, ha.valid.built.getElem?_operators hc ha.isPrefix hi]
  · rw [coefficient_of_length_le (he.valid.length_rows ▸ hea ▸ hi),
      coefficient_of_length_le (ha.valid.length_rows ▸ hi),
      coefficient_of_length_le (hb.valid.length_rows ▸ hab ▸ hi), Modulus.residue_zero, add_zero]

theorem run_addAssign (hc : c.Built) (ha : PartOf c a) (hb : PartOf c b)
    (hlevel : a.level = b.level) :
    ∃ e, EStateM.run (addAssign b : Action ε RnsPoly Unit) a = .ok () e ∧ PartOf c e ∧
      e.level = a.level ∧ ∀ (i : Nat) (q : Modulus) (j : Nat), c.operators[i]? = some q →
        q.residue (e.coefficient i j) =
          q.residue (a.coefficient i j) + q.residue (b.coefficient i j) := by
  have hab := ha.basis_eq hb hlevel
  obtain ⟨e, he, hvalid, hbasis, hsum⟩ := RnsPoly.run_addAssign (ε := ε) ha.valid hb.valid hab
  have hpart := ha.of_basis_eq hvalid hbasis
  exact ⟨e, he, hpart, by rw [level, level, hbasis],
    sum_of_sum hc ha hb hpart hab.symm hbasis hsum⟩

theorem run_addInto {out : RnsPoly} (hc : c.Built) (ha : PartOf c a) (hb : PartOf c b)
    (hout : PartOf c out) (hlevel : a.level = b.level) (hlevel' : a.level = out.level) :
    ∃ e, EStateM.run (addInto a b) out = .ok () e ∧ PartOf c e ∧ e.level = a.level ∧
      ∀ (i : Nat) (q : Modulus) (j : Nat), c.operators[i]? = some q →
        q.residue (e.coefficient i j) =
          q.residue (a.coefficient i j) + q.residue (b.coefficient i j) := by
  have hab := ha.basis_eq hb hlevel
  obtain ⟨e, he, hvalid, hbasis, hsum⟩ :=
    RnsPoly.run_addInto ha.valid hb.valid hab (ha.basis_eq hout hlevel')
  have hpart := ha.of_basis_eq hvalid hbasis
  exact ⟨e, he, hpart, by rw [level, level, hbasis],
    sum_of_sum hc ha hb hpart hab.symm hbasis hsum⟩

/-! ## Parts at a level -/

/-- The zero polynomial over the basis of a level is a part at that level. -/
theorem of_zero (hc : c.Built) {l : Nat} (hbasis : c.atLevel l = .ok basis)
    (h : (zero basis : Outcome ε RnsPoly) = .ok a) :
    PartOf c a ∧ a.level = l ∧ ∀ i j, a.coefficient i j = 0 := by
  obtain ⟨hbuilt, hfirst, hlevel⟩ := hc.of_atLevel hbasis
  obtain ⟨hvalid, rfl, hzero⟩ := valid_of_zero hbuilt h
  exact ⟨⟨hvalid, hfirst⟩, hlevel, hzero⟩

/-- The basis of a part is the one of its level. -/
theorem atLevel (hc : c.Built) (ha : PartOf c a) : c.atLevel a.level = .ok a.basis :=
  ha.valid.built.atLevel_of_prefix hc ha.isPrefix

/-- A part is read back from its bytes where the zero polynomial of its level can
be addressed. -/
theorem decode_encode (ha : PartOf c a) (h : (zero a.basis : Outcome ε RnsPoly) = .ok b) :
    decode a.basis a.encode = .ok a := by
  exact RnsPoly.decode_encode ha.valid (encodedSize_lt_of_zero h)

/-- There are finitely many parts at a level. -/
theorem finite (hc : c.Built) (l : Nat) : Finite {a : RnsPoly // PartOf c a ∧ a.level = l} := by
  let entries : {a : RnsPoly // PartOf c a ∧ a.level = l} →
      Fin c.operators.length → Fin c.degree → Fin UInt64.size :=
    fun a i j => (a.1.coefficient i j).toFin
  apply Finite.of_injective entries
  rintro ⟨a, ha, hla⟩ ⟨b, hb, hlb⟩ h
  rw [Subtype.mk.injEq]
  apply ha.ext hc hb (hla.trans hlb.symm)
  intro i q j hq
  have hdegree := ((RnsBasis.isPrefixOf_iff _ _).mp ha.isPrefix).1
  have hdegree' := ((RnsBasis.isPrefixOf_iff _ _).mp hb.isPrefix).1
  rcases Nat.lt_or_ge j c.degree with hj | hj
  · have hi := (List.getElem?_eq_some_iff.mp hq).1
    have hentry := congrFun (congrFun h ⟨i, hi⟩) ⟨j, hj⟩
    exact UInt64.toFin_inj.mp hentry
  · rw [ha.valid.coefficient_of_degree_le (hdegree ▸ hj),
      hb.valid.coefficient_of_degree_le (hdegree' ▸ hj)]

end PartOf

end RingShamir.RnsPoly
