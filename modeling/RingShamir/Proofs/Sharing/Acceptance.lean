import RingShamir.Proofs.Chain.Levels
import RingShamir.Proofs.Sharing.Factors
import RingShamir.Proofs.Sharing.Memoryless

/-!
# Which quorums are accepted

A calculation checks the quorum first.  Only for points that pass are the levels of the
share and the output looked at, and once these agree nothing else can fail: every
factor is there, and the product of the factors fits the share.

Main results:

- Definition `Combiner.AcceptsExactly`: which calculations succeed, and what the others
  report.
- Theorem `Combiner.run_additive_eq`: storage that is allocated makes no difference.
- Theorem `quorums_accepted`: which calculations succeed, and what the others report.
-/

namespace RingShamir

open ResidueChain

namespace Combiner

/-! ## Calculations -/

section Calculations

variable {C E L : Type} [ResidueChain C E L] [DecidableEq L] {k : Combiner C}
  {own : PublicPoint} {actives members : List PublicPoint} {e : SchemeError}

/-- A calculation for points that are not a quorum reports their fault and does nothing. -/
theorem run_additiveInto_of_fault (h : k.QuorumFault actives own e) (share : Share E) (out : E) :
    EStateM.run (additiveInto actives own share) ⟨k, out⟩ = .error (.failure e) ⟨k, out⟩ := by
  rw [run_additiveInto_eq, admission, quorum_of_fault h, Outcome.error_bind]

theorem run_additive_of_fault (h : k.QuorumFault actives own e) (share : Share E) :
    EStateM.run (additive actives own share) k = .error (.failure e) k := by
  simp only [additive, EStateM.run_bind, EStateM.run_get, Action.run_lift, quorum_of_fault h]

/-- For a quorum the levels of the share and the output are compared. -/
theorem admission_of_quorumOf (h : k.QuorumOf actives own members) (share : Share E) (out : E) :
    k.admission actives own share out = (do
      let l ← Share.levelOf k.chain share
      let lo ← Share.levelOf k.chain (Share.mk out)
      if l ≠ lo then
        let found := levelText k.chain lo
        let expected := levelText k.chain l
        Outcome.fail (.levelMismatch
          s!"additive share at level {found} for a Shamir share at level {expected}")
      else pure members) := by
  rw [admission, quorum_of_quorumOf h, Outcome.ok_bind]

end Calculations

section Laws

variable {C E L : Type} [ResidueElement E] [ResidueChain C E L] [ReducedElement E]
  [ChainView C E] [LawfulChain C E L] {k : Combiner C} {own : PublicPoint}
  {actives members : List PublicPoint} {share : Share E} {out : E} {l : L}

/-- A share that is not on the chain has the level error of the chain. -/
theorem levelOf_of_ne (h : ∀ l, levelOf k.chain share.value ≠ .ok l) :
    Share.levelOf k.chain share = .error (.failure (.ring .invalidContext)) := by
  rcases Share.levelOf_cases k.chain share with ⟨l, hl⟩ | ⟨hl, -⟩
  · exact absurd (Share.levelOf_eq_ok.mp hl) (h l)
  · exact hl

variable [DecidableEq L]

/-- A combiner that was made is sound after any calls, and still has its chain, own point
and threshold. -/
theorem sound_after {chain : C} {others : List PublicPoint} {t : Nat} (hchain : Built chain)
    (h : make chain own others t = .ok k) (calls : List (Call E)) :
    (k.after calls).Sound ∧ (k.after calls).chain = chain ∧ (k.after calls).own = own ∧
      (k.after calls).threshold = t := by
  obtain ⟨hk, rfl, rfl, rfl⟩ := sound_of_make hchain h
  obtain ⟨s, hafter, hlength⟩ := k.after_eq_withScratch calls
  rw [hafter]
  exact ⟨hk.setScratch (hlength.trans hk.scratch), rfl, rfl, rfl⟩

end Laws

/-! ## Acceptance -/

section Acceptance

variable {C E L : Type} [ResidueElement E] [ResidueChain C E L] [ReducedElement E]
  [ChainView C E] [DecidableEq L] [BasedElement E]

/-- Which calculations of a combiner succeed, and what the others report.  Shares are
valid, as all are that were made, and can be addressed where one of their shape is
allocated. -/
structure AcceptsExactly (chain : C) (own : PublicPoint) (t : Nat) (k : Combiner C) :
    Prop where
  /-- The combiner is one of the chain. -/
  chain_eq : k.chain = chain
  /-- The combiner has the own point that it was made with. -/
  own_eq : k.own = own
  /-- The combiner has the threshold that it was made with. -/
  threshold_eq : k.threshold = t
  /-- Active points make a quorum, or there is something to refuse them for. -/
  quorum_or_fault : ∀ (actives : List PublicPoint) (x : PublicPoint),
    (∃ members, k.QuorumOf actives x members) ∨ ∃ e, k.QuorumFault actives x e
  /-- A calculation succeeds for a quorum and a share at the level of the output, and in
  no other case. -/
  success_iff : ∀ (actives : List PublicPoint) (x : PublicPoint) (share : Share E) (out : E),
    Valid share.value →
      ((∃ w, EStateM.run (additiveInto actives x share) ⟨k, out⟩ = .ok () w) ↔
        (∃ members, k.QuorumOf actives x members) ∧
          ∃ l, levelOf chain share.value = .ok l ∧ levelOf chain out = .ok l)
  /-- Faults of a quorum are reported whatever the share and the output are. -/
  quorum_fault : ∀ (actives : List PublicPoint) (x : PublicPoint) (share : Share E) (out : E)
    (e : SchemeError), k.QuorumFault actives x e →
      EStateM.run (additiveInto actives x share) ⟨k, out⟩ = .error (.failure e) ⟨k, out⟩ ∧
        EStateM.run (additive actives x share) k = .error (.failure e) k
  /-- For a quorum a share that is not on the chain is reported, whatever the output is. -/
  share_fault : ∀ (actives : List PublicPoint) (x : PublicPoint) (members : List PublicPoint)
    (share : Share E) (out : E), k.QuorumOf actives x members →
      (∀ l, levelOf chain share.value ≠ .ok l) →
        EStateM.run (additiveInto actives x share) ⟨k, out⟩ =
            .error (.failure (.ring .invalidContext)) ⟨k, out⟩ ∧
          EStateM.run (additive actives x share) k =
            .error (.failure (.ring .invalidContext)) k
  /-- For a quorum and a share on the chain an output that is not on it is reported. -/
  output_fault : ∀ (actives : List PublicPoint) (x : PublicPoint) (members : List PublicPoint)
    (share : Share E) (out : E) (l : L), k.QuorumOf actives x members →
      levelOf chain share.value = .ok l → (∀ lo, levelOf chain out ≠ .ok lo) →
        EStateM.run (additiveInto actives x share) ⟨k, out⟩ =
          .error (.failure (.ring .invalidContext)) ⟨k, out⟩
  /-- For a quorum a share and an output at different levels are reported. -/
  level_fault : ∀ (actives : List PublicPoint) (x : PublicPoint) (members : List PublicPoint)
    (share : Share E) (out : E) (l lo : L), k.QuorumOf actives x members →
      levelOf chain share.value = .ok l → levelOf chain out = .ok lo → l ≠ lo →
        ∃ text, EStateM.run (additiveInto actives x share) ⟨k, out⟩ =
          .error (.failure (.levelMismatch text)) ⟨k, out⟩
  /-- For a quorum all factors are found, and their product fits the share. -/
  product : ∀ (actives : List PublicPoint) (x : PublicPoint) (members : List PublicPoint)
    (share : Share E) (l : L), k.QuorumOf actives x members → Valid share.value →
      levelOf chain share.value = .ok l →
        ∃ s e, EStateM.run (k.gatherFactors (members.filter (· ≠ x))) k.scratch = .ok () s ∧
          EStateM.run (scaleAssign chain s) share.value = .ok () e ∧
            ∀ out, levelOf chain out = .ok l →
              EStateM.run (additiveInto actives x share) ⟨k, out⟩ = .ok () ⟨k.withScratch s, e⟩
  /-- Storage that is allocated makes no difference to an output at the level of the
  share. -/
  allocated : ∀ (actives : List PublicPoint) (x : PublicPoint) (share : Share E) (out : E),
    Valid share.value → BothBases RnsBasis.Addressable (bases share.value) →
      (∀ l, levelOf chain share.value = .ok l → levelOf chain out = .ok l) →
        EStateM.run (additive actives x share) k =
          match EStateM.run (additiveInto actives x share) ⟨k, out⟩ with
          | .ok _ w => .ok w.output w.combiner
          | .error e w => .error e w.combiner

variable [LawfulChain C E L] [BasedChain C E L] {k : Combiner C} {own : PublicPoint}
  {actives : List PublicPoint} {share : Share E} {out : E}

/-- Storage that is allocated makes no difference. -/
theorem run_additive_eq (hk : k.Sound) (hshare : Valid share.value)
    (hfits : BothBases RnsBasis.Addressable (bases share.value))
    (hout : ∀ l, levelOf k.chain share.value = .ok l → levelOf k.chain out = .ok l) :
    EStateM.run (additive actives own share) k =
      match EStateM.run (additiveInto actives own share) ⟨k, out⟩ with
      | .ok _ w => .ok w.output w.combiner
      | .error e w => .error e w.combiner := by
  rcases quorumOf_or_fault k actives own with ⟨members, hquorum⟩ | ⟨e, hfault⟩
  · have hmembers := quorum_of_quorumOf hquorum
    by_cases hlevel : ∃ l, levelOf k.chain share.value = .ok l
    · obtain ⟨l, hl⟩ := hlevel
      obtain ⟨z, hz, -⟩ := exists_zeroAt hk.built hfits hl
      obtain ⟨e, s, -, -, -, -, hrun⟩ := run_additiveInto_of_level hk hmembers ⟨hshare, hl⟩
      have hzero := hrun z (LawfulChain.of_zeroAt hk.built hz).1.level
      simp only [additive, EStateM.run_bind, EStateM.run_get, Action.run_lift, hmembers,
        Share.levelOf_eq_ok.mpr hl, hz, Outcome.mapError_ok, hzero, hrun out (hout l hl),
        EStateM.run_set, EStateM.run_pure]
    · have hnone := levelOf_of_ne (not_exists.mp hlevel)
      simp only [run_additiveInto_eq, admission_of_quorumOf hquorum, hnone, Outcome.error_bind,
        additive, EStateM.run_bind, EStateM.run_get, Action.run_lift, hmembers]
  · rw [run_additive_of_fault hfault, run_additiveInto_of_fault hfault]

theorem acceptsExactly_of_sound (hk : k.Sound) :
    AcceptsExactly k.chain k.own k.threshold k := by
  constructor
  case chain_eq => rfl
  case own_eq => rfl
  case threshold_eq => rfl
  case quorum_or_fault => exact quorumOf_or_fault k
  case success_iff =>
    intro actives x share out hshare
    constructor
    · rintro ⟨w, hw⟩
      rcases run_additiveInto hk hshare actives x out with
        ⟨members, l, e, s, hquorum, hout, hadditive, -, -⟩ | ⟨err, herr⟩
      · exact ⟨⟨members, hquorum⟩, l, hadditive.share_level.level, hout⟩
      · rw [hw] at herr
        cases herr
    · rintro ⟨⟨members, hquorum⟩, l, hl, hout⟩
      obtain ⟨e, s, -, -, -, -, hrun⟩ :=
        run_additiveInto_of_level hk (quorum_of_quorumOf hquorum) ⟨hshare, hl⟩
      exact ⟨_, hrun out hout⟩
  case quorum_fault =>
    intro actives x share out e hfault
    exact ⟨run_additiveInto_of_fault hfault share out, run_additive_of_fault hfault share⟩
  case share_fault =>
    intro actives x members share out hquorum hne
    have hlevel := levelOf_of_ne hne
    constructor
    · rw [run_additiveInto_eq, admission_of_quorumOf hquorum, hlevel, Outcome.error_bind]
    · simp only [additive, EStateM.run_bind, EStateM.run_get, Action.run_lift,
        quorum_of_quorumOf hquorum, hlevel]
  case output_fault =>
    intro actives x members share out l hquorum hl hne
    have hlevel : Share.levelOf k.chain (Share.mk out) = _ := levelOf_of_ne hne
    rw [run_additiveInto_eq, admission_of_quorumOf hquorum, Share.levelOf_eq_ok.mpr hl, hlevel,
      Outcome.ok_bind, Outcome.error_bind]
  case level_fault =>
    intro actives x members share out l lo hquorum hl hlo hne
    have hlevel : Share.levelOf k.chain (Share.mk out) = .ok lo := Share.levelOf_eq_ok.mpr hlo
    rw [run_additiveInto_eq, admission_of_quorumOf hquorum, Share.levelOf_eq_ok.mpr hl, hlevel,
      Outcome.ok_bind, Outcome.ok_bind, if_pos hne]
    exact ⟨_, rfl⟩
  case product =>
    intro actives x members share l hquorum hshare hl
    obtain ⟨e, s, -, -, hs, he, hrun⟩ :=
      run_additiveInto_of_level hk (quorum_of_quorumOf hquorum) ⟨hshare, hl⟩
    exact ⟨s, e, hs, he, hrun⟩
  case allocated =>
    intro actives x share out hshare hfits hout
    exact run_additive_eq hk hshare hfits hout

end Acceptance

end Combiner

/-- A combiner accepts exactly the quorums with its own point, and shares at the level of
the output, when it was made and after any calls.  This holds over the chains of a
single basis and over those of two bases. -/
theorem quorums_accepted :
    (∀ (c : PlainChain) (own : PublicPoint) (others : List PublicPoint) (t : Nat)
      (k : Combiner PlainChain) (calls : List (Combiner.Call RnsPoly)), Built c →
        Combiner.make c own others t = .ok k →
          Combiner.AcceptsExactly c own t (k.after calls)) ∧
    ∀ (c : ExtendedChain) (own : PublicPoint) (others : List PublicPoint) (t : Nat)
      (k : Combiner ExtendedChain) (calls : List (Combiner.Call ExtendedPoly)), Built c →
        Combiner.make c own others t = .ok k →
          Combiner.AcceptsExactly c own t (k.after calls) := by
  constructor
  · intro c own others t k calls hc hk
    obtain ⟨hsound, rfl, rfl, rfl⟩ := Combiner.sound_after hc hk calls
    exact Combiner.acceptsExactly_of_sound hsound
  · intro c own others t k calls hc hk
    obtain ⟨hsound, rfl, rfl, rfl⟩ := Combiner.sound_after hc hk calls
    exact Combiner.acceptsExactly_of_sound hsound

section FiveSeven

open PlainChain

/-- The party at sixteen combines with the one at nineteen, also where a point is repeated
after the quorum.  A repetition in the quorum is reported, whatever the share is. -/
theorem quorums_accepted_fiveSeven :
    ∃ k, Combiner.make fiveSeven pointSixteen [pointNineteen] 2 = .ok k ∧
      (∃ w, EStateM.run (Combiner.additiveInto [pointNineteen, pointSixteen, pointSixteen]
        pointSixteen ⟨oneOverFiveSeven⟩) ⟨k, zeroOverFiveSeven⟩ = .ok () w) ∧
      EStateM.run (Combiner.additive [pointNineteen, pointNineteen, pointSixteen] pointSixteen
        ⟨oneOverFive⟩) k = .error (.failure (.duplicatePublicPoint 19)) k := by
  obtain ⟨k, hk⟩ : ∃ k, Combiner.make fiveSeven pointSixteen [pointNineteen] 2 = .ok k :=
    ⟨_, rfl⟩
  have haccepts :=
    quorums_accepted.1 fiveSeven pointSixteen [pointNineteen] 2 k [] fiveSeven_built hk
  have hown : pointSixteen = k.own := haccepts.own_eq.symm
  have hthreshold : k.threshold = 2 := haccepts.threshold_eq
  have hknown : (k.factor? pointNineteen).isSome := by
    rw [(Combiner.hasFactors_of_make fiveSeven_built primalityExact_fiveSeven hk).isSome_iff]
    decide
  refine ⟨k, hk, ?_, ?_⟩
  · have hquorum : k.QuorumOf [pointNineteen, pointSixteen, pointSixteen] pointSixteen
        [pointNineteen, pointSixteen] := by
      refine ⟨hthreshold ▸ by decide, hthreshold ▸ rfl, hown, by decide, by decide, ?_⟩
      intro x hx hne
      rcases List.mem_pair.mp hx with rfl | rfl
      · exact hknown
      · exact absurd rfl hne
    exact (haccepts.success_iff _ _ ⟨oneOverFiveSeven⟩ zeroOverFiveSeven
      elementAt_oneOverFiveSeven.valid).mpr
        ⟨⟨_, hquorum⟩, 1, elementAt_oneOverFiveSeven.level, elementAt_zeroOverFiveSeven.level⟩
  · have hbefore : k.Cleared pointSixteen [pointNineteen] :=
      ⟨List.nodup_singleton _, fun x hx _ => List.mem_singleton.mp hx ▸ hknown⟩
    have hsplit : [pointNineteen, pointNineteen, pointSixteen].take k.threshold =
        [pointNineteen] ++ pointNineteen :: [] := hthreshold ▸ rfl
    have hfault := Combiner.QuorumFault.repeated (hthreshold ▸ by decide) hown hsplit hbefore
      (List.mem_singleton.mpr rfl)
    exact (haccepts.quorum_fault _ _ ⟨oneOverFive⟩ oneOverFive _ hfault).2

end FiveSeven

end RingShamir
