import RingShamir.Proofs.Sharing.Acceptance
import RingShamir.Proofs.Sharing.Reconstruction

/-!
# The order of a quorum

The members of a quorum are looked at one after the other, and so are their factors.
Neither order matters: points stay a quorum when they are put into another order, and
the product of the factors is the same scalar, since the classes of a product determine
its reduced limbs.  So a member may list the quorum in any order, and need not list it as
the others do.  The order does show in what is reported for points that are not a quorum.

Main results:

- Theorem `Combiner.QuorumOf.perm`: a quorum in another order is one.
- Theorem `Combiner.run_gatherFactors_perm`: the product of the factors is the same scalar.
- Theorem `additive_orderless`: the additive share depends on the set of the members only.
-/

namespace RingShamir

open ResidueChain

namespace Combiner

/-! ## Quorums -/

section Quorums

variable {C : Type} {k : Combiner C} {own : PublicPoint}
  {actives actives' members members' : List PublicPoint}

/-- A quorum in another order is one, whatever points follow it. -/
theorem QuorumOf.perm (h : k.QuorumOf actives own members) (henough : k.threshold ≤ actives'.length)
    (hperm : members.Perm (actives'.take k.threshold)) :
    k.QuorumOf actives' own (actives'.take k.threshold) where
  threshold_le := henough
  members_eq := rfl
  own_eq := h.own_eq
  nodup := hperm.nodup h.nodup
  own_mem := hperm.mem_iff.mp h.own_mem
  factors x hx := h.factors x (hperm.mem_iff.mpr hx)

theorem productClasses_perm (hperm : members.Perm members') :
    productClasses own members = productClasses own members' :=
  ((hperm.filter _).map _).prod_eq

end Quorums

/-! ## Runs -/

section Runs

variable {C E L : Type} [ResidueElement E] [ResidueChain C E L] [ReducedElement E]
  [ChainView C E] [LawfulChain C E L] {k : Combiner C} {own : PublicPoint}
  {actives actives' members members' : List PublicPoint}

/-- The product of the factors of a quorum is the same scalar in every order. -/
theorem run_gatherFactors_perm (hk : k.Sound) (h : k.QuorumOf actives own members)
    (h' : k.QuorumOf actives' own members') (hperm : members.Perm members') :
    EStateM.run (k.gatherFactors (members.filter (· ≠ own))) k.scratch =
      EStateM.run (k.gatherFactors (members'.filter (· ≠ own))) k.scratch := by
  obtain ⟨s, hs, hrep⟩ := run_gatherFactors hk h
  obtain ⟨s', hs', hrep'⟩ := run_gatherFactors hk h'
  rw [← productClasses_perm hperm] at hrep'
  rw [hs, hs', hrep.unique (LawfulChain.suitable hk.built) hrep']

variable [DecidableEq L]

theorem run_additiveInto_perm (hk : k.Sound) (h : k.QuorumOf actives own members)
    (h' : k.QuorumOf actives' own members') (hperm : members.Perm members') (share : Share E)
    (out : E) : EStateM.run (additiveInto actives own share) ⟨k, out⟩ =
      EStateM.run (additiveInto actives' own share) ⟨k, out⟩ := by
  rw [run_additiveInto_eq, run_additiveInto_eq, admission_of_quorumOf h,
    admission_of_quorumOf h']
  cases Share.levelOf k.chain share with
  | error e => rfl
  | ok l =>
      cases Share.levelOf k.chain (Share.mk out) with
      | error e => rfl
      | ok lo =>
          simp only [Outcome.ok_bind]
          by_cases hsame : l = lo
          · simp only [hsame, ne_eq, not_true_eq_false, if_false]
            exact congrArg (k.finish share out) (run_gatherFactors_perm hk h h' hperm)
          · simp only [hsame, ne_eq, not_false_eq_true, if_true]

theorem run_additive_perm (hk : k.Sound) (h : k.QuorumOf actives own members)
    (h' : k.QuorumOf actives' own members') (hperm : members.Perm members') (share : Share E) :
    EStateM.run (additive actives own share) k = EStateM.run (additive actives' own share) k := by
  simp only [additive, EStateM.run_bind, EStateM.run_get, Action.run_lift, quorum_of_quorumOf h,
    quorum_of_quorumOf h', run_additiveInto_perm hk h h' hperm]

/-- An additive share for a quorum is the one for the quorum in another order. -/
theorem exists_additive_of_perm (hk : k.Sound) (henough : k.threshold ≤ actives'.length)
    (hperm : (actives.take k.threshold).Perm (actives'.take k.threshold)) {share : Share E} {e : E}
    (h : ∃ w, EStateM.run (additive actives own share) k = .ok e w) :
    ∃ w, EStateM.run (additive actives' own share) k = .ok e w := by
  rcases quorumOf_or_fault k actives own with ⟨members, hquorum⟩ | ⟨fault, hfault⟩
  · have hmembers := hquorum.members_eq
    subst hmembers
    rwa [← run_additive_perm hk hquorum (hquorum.perm henough hperm) hperm]
  · rw [run_additive_of_fault hfault] at h
    obtain ⟨w, hw⟩ := h
    cases hw

theorem exists_additiveInto_of_perm (hk : k.Sound) (henough : k.threshold ≤ actives'.length)
    (hperm : (actives.take k.threshold).Perm (actives'.take k.threshold)) {share : Share E}
    {out e : E} (h : ∃ w, EStateM.run (additiveInto actives own share) ⟨k, out⟩ = .ok () ⟨w, e⟩) :
    ∃ w, EStateM.run (additiveInto actives' own share) ⟨k, out⟩ = .ok () ⟨w, e⟩ := by
  rcases quorumOf_or_fault k actives own with ⟨members, hquorum⟩ | ⟨fault, hfault⟩
  · have hmembers := hquorum.members_eq
    subst hmembers
    rwa [← run_additiveInto_perm hk hquorum (hquorum.perm henough hperm) hperm]
  · rw [run_additiveInto_of_fault hfault] at h
    obtain ⟨w, hw⟩ := h
    cases hw

end Runs

/-! ## Calls -/

section Calls

variable {C E L : Type} [ResidueElement E] [ResidueChain C E L] [ReducedElement E]
  [ChainView C E] [DecidableEq L]

/-- A combiner goes by the set of the members of a quorum: for lists whose first points
are the same in some order it gives the same additive shares, whatever calls it has
answered before each of them, and these are reduced. -/
structure Orderless (chain : C) (t : Nat) (k : Combiner C) : Prop where
  /-- Additive shares in new elements. -/
  allocated : ∀ (calls calls' : List (Call E)) (actives actives' : List PublicPoint)
    (x : PublicPoint) (share : Share E) (e : E), t ≤ actives.length → t ≤ actives'.length →
      (actives.take t).Perm (actives'.take t) →
        ((∃ w, EStateM.run (additive actives x share) (k.after calls) = .ok e w) ↔
          ∃ w, EStateM.run (additive actives' x share) (k.after calls') = .ok e w)
  /-- Additive shares in an output. -/
  into : ∀ (calls calls' : List (Call E)) (actives actives' : List PublicPoint)
    (x : PublicPoint) (share : Share E) (out e : E), t ≤ actives.length → t ≤ actives'.length →
      (actives.take t).Perm (actives'.take t) →
        ((∃ w, EStateM.run (additiveInto actives x share) ⟨k.after calls, out⟩ = .ok () ⟨w, e⟩) ↔
          ∃ w, EStateM.run (additiveInto actives' x share) ⟨k.after calls', out⟩ = .ok () ⟨w, e⟩)
  /-- An additive share of a valid share is at the level of the share, and has reduced
  coefficients. -/
  reduced : ∀ (calls : List (Call E)) (actives : List PublicPoint) (x : PublicPoint)
    (share : Share E) (e : E), Valid share.value →
      (∃ w, EStateM.run (additive actives x share) (k.after calls) = .ok e w) →
        ∃ l, ElementAt chain l share.value ∧ ElementAt chain l e ∧
          ∀ (i : Nat) (q : Modulus) (j : Nat), (moduli chain)[i]? = some q →
            coefficient chain e i j < q.value

variable [LawfulChain C E L] {k : Combiner C}

theorem orderless_of_sound (hk : k.Sound) : Orderless k.chain k.threshold k := by
  constructor
  case allocated =>
    intro calls calls' actives actives' x share e henough henough' hperm
    rw [run_additive_after, run_additive_after]
    exact ⟨exists_additive_of_perm hk henough' hperm,
      exists_additive_of_perm hk henough hperm.symm⟩
  case into =>
    intro calls calls' actives actives' x share out e henough henough' hperm
    rw [run_additiveInto_after, run_additiveInto_after]
    exact ⟨exists_additiveInto_of_perm hk henough' hperm,
      exists_additiveInto_of_perm hk henough hperm.symm⟩
  case reduced =>
    intro calls actives x share e hshare h
    rw [run_additive_after] at h
    obtain ⟨w, hw⟩ := h
    obtain ⟨-, members, l, -, -, -, hadditive⟩ := additive_eq_ok hk hshare hw
    exact ⟨l, hadditive.share_level, hadditive.elementAt, fun i q j hq =>
      LawfulChain.coefficient_lt hk.built hadditive.elementAt hq j⟩

end Calls

end Combiner

/-- The additive share depends on the set of the members of the quorum only, over the
chains of a single basis and over those of two bases. -/
theorem additive_orderless :
    (∀ (c : PlainChain) (own : PublicPoint) (others : List PublicPoint) (t : Nat)
      (k : Combiner PlainChain), Built c → Combiner.make c own others t = .ok k →
        Combiner.Orderless c t k) ∧
    ∀ (c : ExtendedChain) (own : PublicPoint) (others : List PublicPoint) (t : Nat)
      (k : Combiner ExtendedChain), Built c → Combiner.make c own others t = .ok k →
        Combiner.Orderless c t k := by
  constructor
  · intro c own others t k hc hk
    obtain ⟨hsound, rfl, -, rfl⟩ := Combiner.sound_of_make hc hk
    exact Combiner.orderless_of_sound hsound
  · intro c own others t k hc hk
    obtain ⟨hsound, rfl, -, rfl⟩ := Combiner.sound_of_make hc hk
    exact Combiner.orderless_of_sound hsound

section FiveSeven

open PlainChain

/-- The additive share of the member at two of a quorum of three is the same if the quorum is
listed backwards and with further points, by a combiner that was used before. -/
theorem additive_orderless_threePoints :
    ∃ k e, Combiner.make fiveSeven ⟨2, by decide⟩ threePoints 3 = .ok k ∧
      (∃ w, EStateM.run (Combiner.additive threePoints ⟨2, by decide⟩ ⟨oneOverFiveSeven⟩) k =
        .ok e w) ∧
      ∃ w, EStateM.run (Combiner.additive (threePoints.reverse ++ agreeingPoints)
        ⟨2, by decide⟩ ⟨oneOverFiveSeven⟩) (k.after mixedCalls) = .ok e w := by
  have hcontribution : (do
      let k ← Combiner.make fiveSeven ⟨2, by decide⟩ threePoints 3
      Action.ending (EStateM.run
        (Combiner.additive threePoints ⟨2, by decide⟩ ⟨oneOverFiveSeven⟩) k)) =
      .ok (elementOverFiveSeven [[2, 0, 0, 0, 0, 0, 0, 0], [4, 0, 0, 0, 0, 0, 0, 0]]) := by
    decide +kernel
  obtain ⟨k, hk, hending⟩ := Outcome.bind_eq_ok.mp hcontribution
  have he := Action.ending_eq_ok.mp hending
  have horderless :=
    additive_orderless.1 fiveSeven ⟨2, by decide⟩ threePoints 3 k fiveSeven_built hk
  refine ⟨k, _, hk, he, ?_⟩
  exact (horderless.allocated [] mixedCalls threePoints (threePoints.reverse ++ agreeingPoints)
    ⟨2, by decide⟩ ⟨oneOverFiveSeven⟩ _ (by decide) (by decide) (by decide)).mp he

end FiveSeven

end RingShamir
