import RingShamir.Proofs.Chain.Extended
import RingShamir.Proofs.Chain.Plain
import RingShamir.Proofs.Sharing.Combination

/-!
# Atomicity

Every operation in place succeeds, or it reports an error and leaves its output as
it was; none breaks a precondition.  The operands may be any valid elements: of
any level, of a foreign chain, or without a part that the chain asks for.  What
carries this is that a level on a chain determines the bases of an element, so
that nothing can fail once the levels have been compared.

Main results:

- Definition `AddsAtOneLevel`: a sum succeeds exactly for elements at one level,
  and otherwise says why it does not.
- Theorem `shareInto_atomic`: dealing a share in place is atomic.
- Definition `OperationsAtomic` and theorem `operations_atomic`: all operations in
  place, over both kinds of chains.
-/

namespace RingShamir

open ResidueChain

/-! ## Sums -/

section Sums

variable {C E L : Type} [ResidueChain C E L]

/-- All elements of a list are on a chain at one level. -/
def AtOneLevel (c : C) (es : List E) : Prop :=
  ∃ l, ∀ e ∈ es, levelOf c e = .ok l

/-- An action succeeds if elements are at one level.  Otherwise it leaves its
state alone and reports that an element is not on the chain or that two levels
differ, as is the case; `wrap` restates the error. -/
structure AddsAtOneLevel {ε σ : Type} (c : C) (wrap : RingError → ε) (es : List E)
    (x : Action ε σ Unit) (s : σ) : Prop where
  /-- Elements at one level are added. -/
  of_level : AtOneLevel c es → ∃ s', EStateM.run x s = .ok () s'
  /-- Other elements are not, and the error says why. -/
  of_fault : ¬AtOneLevel c es → ∃ err, EStateM.run x s = .error (.failure (wrap err)) s ∧
    LevelFault c es err

theorem atOneLevel_pair {c : C} {a b : E} :
    AtOneLevel c [a, b] ↔ ∃ l, levelOf c a = .ok l ∧ levelOf c b = .ok l := by
  simp [AtOneLevel]

theorem atOneLevel_triple {c : C} {a b d : E} : AtOneLevel c [a, b, d] ↔
    ∃ l, levelOf c a = .ok l ∧ levelOf c b = .ok l ∧ levelOf c d = .ok l := by
  simp [AtOneLevel]

end Sums

section Laws

variable {C E L : Type} [ResidueElement E] [ResidueChain C E L] [ReducedElement E]
  [ChainView C E] [LawfulChain C E L] {c : C} {a b out : E}

theorem addInto_addsAtOneLevel (hc : Built c) (ha : Valid a) (hb : Valid b)
    (hout : Valid out) : AddsAtOneLevel c id [a, b, out] (addInto c a b) out := by
  constructor
  · intro h
    rcases atOneLevel_triple.mp h with ⟨l, hal, hbl, hol⟩
    obtain ⟨e, he, -⟩ := LawfulChain.run_addInto hc ⟨ha, hal⟩ ⟨hb, hbl⟩ ⟨hout, hol⟩
    exact ⟨e, he⟩
  · intro h
    rw [atOneLevel_triple] at h
    exact LawfulChain.run_addInto_fault h

theorem addAssign_addsAtOneLevel (hc : Built c) (ha : Valid a) (hb : Valid b) :
    AddsAtOneLevel c id [a, b] (addAssign c b) a := by
  constructor
  · intro h
    rcases atOneLevel_pair.mp h with ⟨l, hal, hbl⟩
    obtain ⟨e, he, -⟩ := LawfulChain.run_addAssign hc ⟨ha, hal⟩ ⟨hb, hbl⟩
    exact ⟨e, he⟩
  · intro h
    rw [atOneLevel_pair] at h
    exact LawfulChain.run_addAssign_fault h

variable [DecidableEq L] {s r share : Share E}

theorem shareAddInto_addsAtOneLevel (hc : Built c) (hs : Valid s.value) (hr : Valid r.value)
    (hshare : Valid share.value) :
    AddsAtOneLevel c SchemeError.ofRing [s.value, r.value, share.value]
      (Share.addInto c s r) share := by
  constructor
  · intro h
    rcases atOneLevel_triple.mp h with ⟨l, hsl, hrl, hol⟩
    obtain ⟨e, he, -⟩ := Share.run_addInto hc ⟨hs, hsl⟩ ⟨hr, hrl⟩ ⟨hshare, hol⟩
    exact ⟨e, he⟩
  · intro h
    rw [atOneLevel_triple] at h
    exact Share.run_addInto_fault h

theorem shareAddAssign_addsAtOneLevel (hc : Built c) (hs : Valid s.value)
    (hr : Valid r.value) :
    AddsAtOneLevel c SchemeError.ofRing [s.value, r.value] (Share.addAssign c r) s := by
  constructor
  · intro h
    rcases atOneLevel_pair.mp h with ⟨l, hsl, hrl⟩
    obtain ⟨e, he, -⟩ := Share.run_addAssign hc ⟨hs, hsl⟩ ⟨hr, hrl⟩
    exact ⟨e, he⟩
  · intro h
    rw [atOneLevel_pair] at h
    exact Share.run_addAssign_fault h

/-! ## Shares -/

/-- Dealing a share in place is atomic. -/
theorem shareInto_atomic (hc : Built c) {p : SharingPolynomial E}
    (hp : ∀ e ∈ p.coefficients, Valid e) (x : PublicPoint) :
    Action.Atomic (SharingPolynomial.shareInto c x p) share := by
  apply Action.atomic_lift_bind (SharingPolynomial.level_reported c p)
  intro l hl
  apply Action.atomic_get_bind
  apply Action.atomic_lift_bind
  · rcases Share.levelOf_cases c share with ⟨lo, hlo⟩ | ⟨hlo, -⟩
    · exact hlo ▸ Outcome.reported_ok lo
    · exact hlo ▸ Outcome.reported_failure _
  intro lo _
  dsimp only
  split
  · exact Action.atomic_fail _ share
  · have hat : ∀ e ∈ p.coefficients, ElementAt c l e := fun e he =>
      ⟨hp e he, SharingPolynomial.level_eq_ok.mp hl e he⟩
    by_cases hx : x.Admissible (moduli c)
    · obtain ⟨v, hv, -⟩ := SharingPolynomial.evaluate_of_admissible hc hat hx
      rw [hv]
      exact .inl ⟨(), ⟨v⟩, rfl⟩
    · rw [SharingPolynomial.evaluate_of_not_admissible hc hx]
      exact .inr ⟨_, rfl⟩

/-! ## All operations -/

/-- The operations in place of a chain, of shares over it and of its combiners
are atomic on valid operands, whatever their levels and bases; the sums succeed
exactly at one level. -/
structure OperationsAtomic (c : C) : Prop where
  /-- The sum of two elements. -/
  addInto : ∀ a b out : E, Valid a → Valid b → Valid out →
    AddsAtOneLevel c id [a, b, out] (ResidueChain.addInto c a b) out
  /-- The sum of two elements in place. -/
  addAssign : ∀ a b : E, Valid a → Valid b →
    AddsAtOneLevel c id [a, b] (ResidueChain.addAssign c b) a
  /-- The product by a scalar of any length with reduced limbs. -/
  scaleAssign : ∀ (s : Scalar) (a : E), RnsPoly.ReducedLimbs (moduli c) s.limbs → Valid a →
    Action.Atomic (ResidueChain.scaleAssign c s) a
  /-- The share of a point. -/
  shareInto : ∀ (x : PublicPoint) (p : SharingPolynomial E) (out : Share E),
    (∀ e ∈ p.coefficients, Valid e) → Valid out.value →
      Action.Atomic (SharingPolynomial.shareInto c x p) out
  /-- The sum of two shares. -/
  shareAddInto : ∀ a b out : Share E, Valid a.value → Valid b.value → Valid out.value →
    AddsAtOneLevel c SchemeError.ofRing [a.value, b.value, out.value] (Share.addInto c a b) out
  /-- The sum of two shares in place. -/
  shareAddAssign : ∀ a b : Share E, Valid a.value → Valid b.value →
    AddsAtOneLevel c SchemeError.ofRing [a.value, b.value] (Share.addAssign c b) a
  /-- The additive share of a share, for a combiner that may have been used. -/
  additiveInto : ∀ (combiner : Combiner C) (actives : List PublicPoint) (own : PublicPoint)
    (share : Share E) (out : E), Combiner.Reachable c combiner → Valid share.value → Valid out →
      Action.Atomic (Combiner.additiveInto actives own share) ⟨combiner, out⟩

theorem operationsAtomic_of_laws (hc : Built c) : OperationsAtomic c where
  addInto _ _ _ ha hb hout := addInto_addsAtOneLevel hc ha hb hout
  addAssign _ _ ha hb := addAssign_addsAtOneLevel hc ha hb
  scaleAssign _ _ hs ha := LawfulChain.scaleAssign_atomic hc ha hs
  shareInto x _ _ hp _ := shareInto_atomic hc hp x
  shareAddInto _ _ _ ha hb hout := shareAddInto_addsAtOneLevel hc ha hb hout
  shareAddAssign _ _ ha hb := shareAddAssign_addsAtOneLevel hc ha hb
  additiveInto combiner actives own share out hreachable hshare _ := by
    obtain ⟨hsound, -⟩ := hreachable.sound hc
    rcases Combiner.run_additiveInto hsound hshare actives own out with
      ⟨_, _, _, _, _, _, _, _, hrun⟩ | ⟨err, hrun⟩
    · exact .inl ⟨(), _, hrun⟩
    · exact .inr ⟨err, hrun⟩

end Laws

/-- All operations in place are atomic, over the chains of a single basis and over
those of two bases. -/
theorem operations_atomic :
    (∀ c : PlainChain, Built c → OperationsAtomic c) ∧
      ∀ c : ExtendedChain, Built c → OperationsAtomic c :=
  ⟨fun _ hc => operationsAtomic_of_laws hc, fun _ hc => operationsAtomic_of_laws hc⟩

section FiveSeven

open PlainChain

/-- The constant one at the lower level. -/
def oneOverFive : RnsPoly :=
  ⟨⟨[5], [.withConstants 5], 8, 5, none⟩, [[1, 0, 0, 0, 0, 0, 0, 0]]⟩

theorem oneOverFive_valid : oneOverFive.Valid := by
  have hbasis : RnsBasis.ofModuli [5] 8 = .ok oneOverFive.basis := by decide +kernel
  have hrows : RnsPoly.ofRows oneOverFive.basis oneOverFive.rows = .ok oneOverFive := by
    decide +kernel
  exact (RnsPoly.valid_of_ofRows (RnsBasis.built_of_ofModuli hbasis) hrows).1

/-- One can be added to one at the same level, but not at the lower level. -/
theorem operations_atomic_fiveSeven :
    (∃ s, EStateM.run (fiveSeven.addAssign oneOverFiveSeven) oneOverFiveSeven = .ok () s) ∧
      ∃ err, EStateM.run (fiveSeven.addAssign oneOverFive) oneOverFiveSeven =
        .error (.failure err) oneOverFiveSeven ∧
          LevelFault fiveSeven [oneOverFiveSeven, oneOverFive] err := by
  have hatomic := operations_atomic.1 fiveSeven fiveSeven_built
  have hone := elementAt_oneOverFiveSeven
  constructor
  · apply (hatomic.addAssign _ _ hone.valid hone.valid).of_level
    exact atOneLevel_pair.mpr ⟨1, hone.level, hone.level⟩
  · apply (hatomic.addAssign _ _ hone.valid oneOverFive_valid).of_fault
    rw [atOneLevel_pair]
    rintro ⟨l, htop, hlow⟩
    obtain rfl : 1 = l := Except.ok.inj (hone.level.symm.trans htop)
    exact absurd hlow (by decide +kernel)

end FiveSeven

end RingShamir
