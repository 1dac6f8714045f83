import Mathlib.Algebra.BigOperators.Pi
import RingShamir.Proofs.Sharing.Aggregation
import RingShamir.Proofs.Sharing.Evaluation
import RingShamir.Proofs.Sharing.Quorum

/-!
# Additive shares

The scalars of a combiner represent residue classes: its factors are those of
Lagrange interpolation at zero, and their product for a quorum multiplies the
share.  A combiner keeps these properties through all of its runs, whatever they
end with.

Main results:

- Definition `Combiner.Sound`: the scalars of a combiner represent what they
  should.
- Definition `Combiner.Reachable` and theorem `Reachable.sound`: a combiner is
  sound when it was made, and keeps sound however it is used.
- Theorem `run_additiveInto`: a sound combiner stores the additive share, or it
  reports an error and changes nothing.
- Theorem `additive_eq_ok`: what an additive share says about the quorum, and
  its residue classes.
-/

namespace RingShamir

open ResidueChain

namespace PublicPoint

/-- Two points differ by a unit modulo all moduli. -/
def Apart (qs : List Modulus) (x y : PublicPoint) : Prop :=
  ∀ q ∈ qs, IsUnit ((x.classes - y.classes) q)

/-- The classes of the factor of a point in an interpolation at zero, for the
party at `own`. -/
def interpolationFactor (own x : PublicPoint) : ResidueFamily :=
  (x.classes - own.classes)⁻¹ * x.classes

end PublicPoint

namespace Combiner

/-! ## Factors -/

section Factors

variable {qs : List Modulus} {own x : PublicPoint} {s ownScalar : Scalar} {t t' : FactorTable}

/-- A factor that is returned represents the classes of the factor, and the
points are apart. -/
theorem factorOf_eq_ok (hqs : ∀ q ∈ qs, q.Suitable)
    (hown : Scalar.Represents qs ownScalar own.classes) (h : factorOf qs ownScalar x = .ok s) :
    x.Apart qs own ∧ Scalar.Represents qs s (own.interpolationFactor x) := by
  obtain ⟨other, hother, hrep⟩ :=
    Scalar.represents_ofWord (ε := SchemeError) hqs x.value
  obtain ⟨difference, hdifference, hdrep⟩ :=
    Scalar.represents_sub (ε := SchemeError) hqs hrep hown
  simp only [factorOf, pointScalar, hother, hdifference, Outcome.ok_bind,
    Outcome.bind_eq_ok] at h
  rcases h with ⟨o, ho, h⟩
  cases o with
  | none => cases h
  | some inverse =>
      obtain ⟨hunits, hirep⟩ := Scalar.represents_inverse hqs hdrep ho
      obtain ⟨product, hproduct, hprep⟩ :=
        Scalar.represents_mul (ε := SchemeError) hqs hirep hrep
      obtain rfl : product = s := Except.ok.inj (hproduct.symm.trans h)
      exact ⟨hunits, hprep⟩

/-- All factors of a table represent what they should. -/
def SoundTable (qs : List Modulus) (own : PublicPoint) (t : FactorTable) : Prop :=
  ∀ x s, t.factor? x = some s →
    x.Apart qs own ∧ Scalar.Represents qs s (own.interpolationFactor x)

theorem soundTable_of_enterFactors (hqs : ∀ q ∈ qs, q.Suitable)
    (hown : Scalar.Represents qs ownScalar own.classes) {xs : List PublicPoint}
    (ht : SoundTable qs own t) (h : enterFactors qs ownScalar xs t = .ok t') :
    SoundTable qs own t' := by
  induction xs generalizing t with
  | nil =>
      obtain rfl : t = t' := Except.ok.inj h
      exact ht
  | cons x xs ih =>
      rcases Outcome.bind_eq_ok.mp h with ⟨s, hs, h⟩
      apply ih _ h
      intro y r hr
      rw [FactorTable.factor?_insert] at hr
      split at hr
      next hxy =>
          obtain rfl := Option.some.inj hr
          exact hxy ▸ factorOf_eq_ok hqs hown hs
      next => exact ht y r hr

end Factors

/-! ## Scalars of a combiner -/

theorem run_onScratch {C E : Type} {c : Combiner C} {out : E} {s : Scalar}
    {x : Action SchemeError Scalar Unit} (h : EStateM.run x c.scratch = .ok () s) :
    EStateM.run (Work.onScratch x) (Work.mk c out) = .ok () ⟨{ c with scratch := s }, out⟩ := by
  simp only [Work.onScratch, Action.run_within, h]

section Scalars

variable {C E L : Type} [ResidueChain C E L] [ChainView C E] {c : Combiner C}

/-- The scalars of a combiner represent what they should. -/
structure Sound (c : Combiner C) : Prop where
  /-- The chain was made of its moduli. -/
  built : Built c.chain
  /-- The scalar one represents one. -/
  one : Scalar.Represents (moduli c.chain) c.one 1
  /-- The scratch scalar has the length of the scalars of the chain. -/
  scratch : c.scratch.length = (moduli c.chain).length
  /-- The factors represent those of an interpolation at zero. -/
  factors : SoundTable (moduli c.chain) c.own c.factors

/-- Only the length of the scratch scalar matters. -/
theorem Sound.setScratch (hc : c.Sound) {s : Scalar}
    (hs : s.length = (moduli c.chain).length) : Sound { c with scratch := s } :=
  ⟨hc.built, hc.one, hs, hc.factors⟩

end Scalars

/-! ## Reachable combiners -/

section Reached

variable {C E L : Type} [ResidueChain C E L] [ReducedElement E] [DecidableEq L]

/-- The combiners of a chain: one that was made, and what the calculation of an
additive share leaves of one, however it ends. -/
inductive Reachable (chain : C) : Combiner C → Prop
  | made {c : Combiner C} {own : PublicPoint} {others : List PublicPoint} {t : Nat}
      (h : make chain own others t = .ok c) : Reachable chain c
  | used {c : Combiner C} {share : Share E} (h : Reachable chain c) (hshare : Valid share.value)
      (actives : List PublicPoint) (own : PublicPoint) (out : E) :
      Reachable chain
        (Action.finalState (EStateM.run (additiveInto actives own share) ⟨c, out⟩)).combiner

end Reached

/-! ## Additive shares -/

section Laws

variable {C E L : Type} [ResidueElement E] [ResidueChain C E L] [ReducedElement E]
  [ChainView C E] [LawfulChain C E L] {c : Combiner C} {own : PublicPoint}
  {actives members xs : List PublicPoint}

/-- A combiner that was made is sound. -/
theorem sound_of_make {chain : C} {others : List PublicPoint} {t : Nat} (hchain : Built chain)
    (h : make chain own others t = .ok c) :
    c.Sound ∧ c.chain = chain ∧ c.own = own ∧ c.threshold = t := by
  have hqs := LawfulChain.suitable hchain
  unfold make at h
  split at h
  · cases h
  · rcases Outcome.bind_eq_ok.mp h with ⟨ownScalar, hown, h⟩
    rcases Outcome.bind_eq_ok.mp h with ⟨factors, hfactors, h⟩
    rcases Outcome.bind_eq_ok.mp h with ⟨one, hone, h⟩
    obtain ⟨s, hs, hrep⟩ := Scalar.represents_ofWord (ε := SchemeError) hqs own.value
    obtain rfl : s = ownScalar := Except.ok.inj (hs.symm.trans hown)
    obtain ⟨r, hr, honerep⟩ := Scalar.represents_one (ε := SchemeError) hqs
    obtain rfl : r = one := Except.ok.inj (hr.symm.trans hone)
    have hempty : SoundTable (moduli chain) own .empty := by
      intro x s hx
      cases hx
    rw [Outcome.pure_eq_ok, Except.ok.injEq] at h
    subst h
    exact ⟨⟨hchain, honerep, Scalar.length_zero _,
      soundTable_of_enterFactors hqs hrep hempty hfactors⟩, rfl, rfl, rfl⟩

/-- The classes of the product of factors for a list of members. -/
def productClasses (own : PublicPoint) (members : List PublicPoint) : ResidueFamily :=
  ((members.filter (· ≠ own)).map own.interpolationFactor).prod

/-- Multiplying by the factors of points multiplies by their classes. -/
theorem run_multiplyFactors (hc : c.Sound) (hxs : ∀ x ∈ xs, (c.factor? x).isSome) {s : Scalar}
    {f : ResidueFamily} (hs : Scalar.Represents (moduli c.chain) s f) :
    ∃ r, EStateM.run (c.multiplyFactors xs) s = .ok () r ∧
      Scalar.Represents (moduli c.chain) r (f * (xs.map c.own.interpolationFactor).prod) := by
  induction xs generalizing s f with
  | nil => exact ⟨s, rfl, by simpa using hs⟩
  | cons x xs ih =>
      rcases Option.isSome_iff_exists.mp (hxs x List.mem_cons_self) with ⟨t, ht⟩
      obtain ⟨-, htrep⟩ := hc.factors x t ht
      obtain ⟨u, hu, hurep⟩ := Scalar.run_mulAssign (ε := SchemeError)
        (LawfulChain.suitable hc.built) hs htrep
      obtain ⟨r, hr, hrrep⟩ := ih (fun y hy => hxs y (List.mem_cons_of_mem x hy)) hurep
      refine ⟨r, ?_, ?_⟩
      · simp [multiplyFactors, ht, hu, hr]
      · rwa [List.map_cons, List.prod_cons, ← mul_assoc]

/-- The scratch scalar is left with the product of the factors, whatever it was
before. -/
theorem run_gatherFactors (hc : c.Sound) (hquorum : c.QuorumOf actives own members) :
    ∃ r, EStateM.run (c.gatherFactors (members.filter (· ≠ own))) c.scratch = .ok () r ∧
      Scalar.Represents (moduli c.chain) r (productClasses own members) := by
  have hlength : c.scratch.length = c.one.length := hc.scratch.trans hc.one.length_eq.symm
  have hfactors : ∀ x ∈ members.filter (· ≠ own), (c.factor? x).isSome := by
    intro x hx
    rcases List.mem_filter.mp hx with ⟨hmem, hne⟩
    exact hquorum.factors x hmem (by simpa using hne)
  obtain ⟨r, hr, hrep⟩ := run_multiplyFactors hc hfactors hc.one
  rw [one_mul, ← hquorum.own_eq] at hrep
  refine ⟨r, ?_, hrep⟩
  simp only [gatherFactors, Scalar.copyFrom, bind_assoc, EStateM.run_bind, EStateM.run_get,
    Action.run_require_of hlength, EStateM.run_set, hr]

/-- What an additive share at a level stores: the share with its classes
multiplied by those of the factors. -/
structure AdditiveOf (c : Combiner C) (own : PublicPoint) (members : List PublicPoint) (l : L)
    (share : Share E) (e : E) : Prop where
  /-- The share is at the level. -/
  share_level : ElementAt c.chain l share.value
  /-- The additive share is at the level. -/
  elementAt : ElementAt c.chain l e
  /-- The classes are multiplied by those of the factors. -/
  classAt_eq : ∀ (i : Nat) (q : Modulus) (j : Nat), (moduli c.chain)[i]? = some q →
    classAt c.chain e q i j = classAt c.chain share.value q i j * productClasses own members q

variable [DecidableEq L] {share : Share E}

/-- For a quorum and a share at a level, a sound combiner computes the product of the
factors and multiplies the share by it.  Every output at the level ends up as this
additive share, and the product is left in the scratch scalar. -/
theorem run_additiveInto_of_level {l : L} (hc : c.Sound)
    (hmembers : c.quorum actives own = .ok members) (hshare : ElementAt c.chain l share.value) :
    ∃ e s, c.AdditiveOf own members l share e ∧
      Scalar.Represents (moduli c.chain) s (productClasses own members) ∧
        EStateM.run (c.gatherFactors (members.filter (· ≠ own))) c.scratch = .ok () s ∧
          EStateM.run (scaleAssign c.chain s) share.value = .ok () e ∧
            ∀ out, levelOf c.chain out = .ok l →
              EStateM.run (additiveInto actives own share) ⟨c, out⟩ =
                .ok () ⟨{ c with scratch := s }, e⟩ := by
  have hl := Share.levelOf_eq_ok.mpr hshare.level
  obtain ⟨s, hs, hsrep⟩ := run_gatherFactors hc (quorumOf_of_quorum hmembers)
  obtain ⟨e, he, heat, hclass⟩ := run_scaleAssign_of_represents hc.built hshare hsrep
  refine ⟨e, s, ⟨hshare, heat, hclass⟩, hsrep, hs, he, fun out hout => ?_⟩
  have hlo : Share.levelOf c.chain (Share.mk out) = .ok l := Share.levelOf_eq_ok.mpr hout
  simp only [additiveInto, EStateM.run_bind, EStateM.run_get, Action.run_lift, hmembers,
    hl, hlo, ne_eq, not_true_eq_false, if_false, run_onScratch hs,
    Action.applyTo_eq_ok.mpr he, Outcome.mapError_ok, EStateM.run_modify]

/-- A sound combiner stores the additive share of a valid share, or it reports an error
and changes nothing. -/
theorem run_additiveInto (hc : c.Sound) (hshare : Valid share.value)
    (actives : List PublicPoint) (own : PublicPoint) (out : E) :
    (∃ members l e s, c.QuorumOf actives own members ∧ levelOf c.chain out = .ok l ∧
      c.AdditiveOf own members l share e ∧
        Scalar.Represents (moduli c.chain) s (productClasses own members) ∧
          EStateM.run (additiveInto actives own share) ⟨c, out⟩ =
            .ok () ⟨{ c with scratch := s }, e⟩) ∨
      ∃ err, EStateM.run (additiveInto actives own share) ⟨c, out⟩ =
        .error (.failure err) ⟨c, out⟩ := by
  rcases (quorum_reported c actives own).cases with ⟨members, hmembers⟩ | ⟨err, herr⟩
  · rcases Share.levelOf_cases c.chain share with ⟨l, hl⟩ | ⟨hl, -⟩
    · rcases Share.levelOf_cases c.chain (Share.mk out) with ⟨lo, hlo⟩ | ⟨hlo, -⟩
      · by_cases hsame : l = lo
        · subst hsame
          left
          have hout := Share.levelOf_eq_ok.mp hlo
          obtain ⟨e, s, hadditive, hrep, -, -, hrun⟩ := run_additiveInto_of_level hc hmembers
            ⟨hshare, Share.levelOf_eq_ok.mp hl⟩
          exact ⟨members, l, e, s, quorumOf_of_quorum hmembers, hout, hadditive, hrep,
            hrun out hout⟩
        · right
          simp only [additiveInto, EStateM.run_bind, EStateM.run_get, Action.run_lift, hmembers,
            hl, hlo, ne_eq, hsame, not_false_eq_true, if_true, Action.run_fail]
          exact ⟨_, rfl⟩
      · right
        simp only [additiveInto, EStateM.run_bind, EStateM.run_get, Action.run_lift, hmembers,
          hl, hlo]
        exact ⟨_, rfl⟩
    · right
      simp only [additiveInto, EStateM.run_bind, EStateM.run_get, Action.run_lift, hmembers, hl]
      exact ⟨_, rfl⟩
  · right
    simp only [additiveInto, EStateM.run_bind, EStateM.run_get, Action.run_lift, herr]
    exact ⟨_, rfl⟩

/-- Every reachable combiner is sound. -/
theorem Reachable.sound {chain : C} (hchain : Built chain) (h : Reachable chain c) :
    c.Sound ∧ c.chain = chain := by
  induction h with
  | made h =>
      obtain ⟨hsound, hsame, -, -⟩ := sound_of_make hchain h
      exact ⟨hsound, hsame⟩
  | used h hshare actives own out ih =>
      rcases ih with ⟨hsound, hsame⟩
      rcases run_additiveInto hsound hshare actives own out with
        ⟨_, _, _, _, _, _, _, hrep, hrun⟩ | ⟨err, hrun⟩
      · rw [hrun]
        exact ⟨hsound.setScratch hrep.length_eq, hsame⟩
      · rw [hrun]
        exact ⟨hsound, hsame⟩

/-- For a quorum and a share at a level that can be addressed, a sound combiner
returns the additive share. -/
theorem run_additive_of_level {l : L} {z : E} (hc : c.Sound)
    (hmembers : c.quorum actives own = .ok members) (hshare : ElementAt c.chain l share.value)
    (hz : zeroAt c.chain l = .ok z) :
    ∃ e c', EStateM.run (additive actives own share) c = .ok e c' ∧
      c.AdditiveOf own members l share e := by
  have hl := Share.levelOf_eq_ok.mpr hshare.level
  obtain ⟨e, s, hadditive, -, -, -, hrun⟩ := run_additiveInto_of_level hc hmembers hshare
  have hzero := hrun z (LawfulChain.of_zeroAt hc.built hz).1.level
  refine ⟨e, { c with scratch := s }, ?_, hadditive⟩
  simp only [additive, EStateM.run_bind, EStateM.run_get, Action.run_lift, hmembers, hl, hz,
    Outcome.mapError_ok, hzero, EStateM.run_set, EStateM.run_pure]

/-- What a successful run says about the quorum and the additive share. -/
theorem additive_eq_ok {c' : Combiner C} {e : E} (hc : c.Sound) (hshare : Valid share.value)
    (h : EStateM.run (additive actives own share) c = .ok e c') :
    c'.Sound ∧ ∃ members l z, c.QuorumOf actives own members ∧ zeroAt c.chain l = .ok z ∧
      c.AdditiveOf own members l share e := by
  simp only [additive, Action.run_bind_eq_ok, EStateM.run_get, EStateM.Result.ok.injEq,
    Action.run_lift_eq_ok, Outcome.mapError_eq_ok] at h
  rcases h with ⟨c, _, ⟨rfl, rfl⟩, _, _, ⟨-, rfl⟩, l, _, ⟨hl, rfl⟩, z, _, ⟨hz, rfl⟩, h⟩
  rcases run_additiveInto hc hshare actives own z with
    ⟨members, l', v, s, hquorum, hlevel, hadditive, hrep, hrun⟩ | ⟨err, hrun⟩
  · rw [hrun] at h
    cases h
    have hzero := (LawfulChain.of_zeroAt hc.built hz).1.level
    obtain rfl : l = l' := Except.ok.inj (hzero.symm.trans hlevel)
    exact ⟨hc.setScratch hrep.length_eq, members, l, z, hquorum, hz, hadditive⟩
  · rw [hrun] at h
    cases h

end Laws

end Combiner

end RingShamir
