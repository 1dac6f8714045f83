import RingShamir.Proofs.Chain.Safety
import RingShamir.Proofs.Sharing.Factors

/-!
# Safe sharing

Dealing, aggregating and combining break no precondition on valid elements, over a
chain whose elements can be addressed.  Two things are asked for besides: a dealer
does not ask for more coefficients than can be addressed, and the primality test is
right about the moduli, so that a combiner can rely on its inverses.

Main results:

- Theorem `generate_keeps`: sharing polynomials of fewer than `coefficientLimit`
  coefficients are sampled safely.
- Theorems `shareAt_ensures`, `sharesAt_ensures` and `shareInto_keeps`: the shares of
  a polynomial whose coefficients are valid, at whatever levels.
- Theorem `Combiner.make_ensures`: combiners are made safely.
- Theorems `Combiner.additiveInto_keeps` and `Combiner.additive_keeps`: a sound
  combiner is used safely and stays sound.
-/

namespace RingShamir

open ResidueChain

variable {C E L : Type} [ResidueChain C E L] [ReducedElement E] [ChainView C E] {c : C}

/-! ## Shares -/

namespace Share

theorem onValue_keeps {x : Action RingError E Unit} (h : Action.Keeps Valid x fun _ => True) :
    Action.Keeps (fun s : Share E => Valid s.value) (onValue x) fun _ => True :=
  (h.mapError SchemeError.ofRing).within (fun _ hs => hs) fun _ _ _ he => he

variable [ResidueElement E] [LawfulChain C E L]

theorem levelOf_ensures (c : C) (s : Share E) : (levelOf c s).Ensures fun _ => True :=
  (RingShamir.levelOf_ensures c s.value).mapError _

variable [DecidableEq L] {a b : Share E}

theorem addInto_keeps (hc : Built c) (ha : Valid a.value) (hb : Valid b.value) :
    Action.Keeps (fun s : Share E => Valid s.value) (addInto c a b) fun _ => True := by
  refine (Action.keeps_lift (levelOf_ensures c a)).bind fun la _ => ?_
  refine (Action.keeps_lift (levelOf_ensures c b)).bind fun lb _ => ?_
  refine Action.keeps_get.bind fun out _ => ?_
  refine (Action.keeps_lift (levelOf_ensures c out)).bind fun lo _ => ?_
  dsimp only
  split
  · exact Action.keeps_fail _
  · exact onValue_keeps (RingShamir.addInto_keeps hc ha hb)

theorem addAssign_keeps (hc : Built c) (hb : Valid b.value) :
    Action.Keeps (fun s : Share E => Valid s.value) (addAssign c b) fun _ => True := by
  refine Action.keeps_get.bind fun a _ => ?_
  refine (Action.keeps_lift (levelOf_ensures c a)).bind fun la _ => ?_
  refine (Action.keeps_lift (levelOf_ensures c b)).bind fun lb _ => ?_
  dsimp only
  split
  · exact Action.keeps_fail _
  · exact onValue_keeps (RingShamir.addAssign_keeps hc hb)

end Share

/-! ## Polynomials -/

namespace SharingPolynomial

variable [ResidueElement E] {l : L} {p : SharingPolynomial E}

theorem valid_erase [ErasableElement E] (hp : ∀ e ∈ p.coefficients, Valid e) :
    ∀ e ∈ p.erase.coefficients, Valid e := by
  intro e he
  have hcoefficients : p.erase.coefficients = p.coefficients.map ResidueElement.erase := rfl
  rw [hcoefficients] at he
  rcases List.mem_map.mp he with ⟨r, hr, rfl⟩
  exact ErasableElement.valid_erase (hp r hr)

section Sampling

variable [ChainLayout C L] [SafeChain C E L]

theorem sampleMasks_keeps (hc : Built c) (hfits : Fits c) (l : L) (n : Nat) :
    Action.Keeps (fun _ => True) (sampleMasks c l n) fun es => ∀ e ∈ es, Valid e := by
  induction n with
  | zero => exact Action.keeps_pure (by simp)
  | succ n ih =>
      refine (SafeChain.randomAt_keeps hc hfits l).bind fun e he => ?_
      exact ih.bind fun es hes => Action.keeps_pure (List.forall_mem_cons.mpr ⟨he, hes⟩)

theorem generate_keeps [LawfulChain C E L] (hc : Built c) (hfits : Fits c) {threshold : Nat}
    {secret : E} (hthreshold : threshold < coefficientLimit C) (hsecret : Valid secret) :
    Action.Keeps (fun _ => True) (generate c threshold secret)
      fun p => ∀ e ∈ p.coefficients, Valid e := by
  unfold generate
  split
  · exact Action.keeps_fail _
  · refine (Action.keeps_lift ((levelOf_ensures c secret).mapError _)).bind fun l _ => ?_
    refine (Action.keeps_require hthreshold).bind fun _ _ => ?_
    refine ((sampleMasks_keeps hc hfits l _).mapError _).bind fun masks hmasks => ?_
    exact Action.keeps_pure (List.forall_mem_cons.mpr ⟨hsecret, hmasks⟩)

end Sampling

omit [ReducedElement E] [ChainView C E] [ResidueElement E] in
/-- From the limit on a polynomial cannot be addressed, so none is sampled. -/
theorem run_generate_of_limit_le {threshold : Nat} {secret : E} {s : WordStream}
    (hsecret : levelOf c secret = .ok l) (h : coefficientLimit C ≤ threshold) :
    EStateM.run (generate c threshold secret) s = .error .breach s := by
  have hlimit : 0 < coefficientLimit C := Nat.succ_pos _
  have hpos : ¬threshold < 1 := by omega
  simp only [generate, if_neg hpos, EStateM.run_bind, Action.run_lift, hsecret,
    Outcome.mapError_ok, Action.run_require_of_not (Nat.not_lt.mpr h)]

example : coefficientLimit PlainChain = 128102389400760776 := by decide

example : coefficientLimit ExtendedChain = 64051194700380388 := by decide

variable [LawfulChain C E L]

/-- The value of a polynomial at a level, at a point that is admissible or not. -/
theorem evaluate_ensures (hc : Built c) (hp : ∀ e ∈ p.coefficients, ElementAt c l e)
    (x : PublicPoint) : (evaluate c x p).Ensures Valid := by
  by_cases hx : x.Admissible (moduli c)
  · obtain ⟨v, hv, hat, -⟩ := evaluate_of_admissible hc hp hx
    exact Outcome.ensures_of_eq_ok hv hat.valid
  · exact evaluate_of_not_admissible hc hx ▸ Outcome.ensures_failure _

variable [DecidableEq L]

/-- Either the coefficients are found to be at one level, or that is reported. -/
theorem level_ensures (hp : ∀ e ∈ p.coefficients, Valid e) :
    (level c p).Ensures fun l => ∀ e ∈ p.coefficients, ElementAt c l e :=
  ⟨level_reported c p, fun _ hl e he => ⟨hp e he, level_eq_ok.mp hl e he⟩⟩

theorem shareAt_ensures (hc : Built c) (hp : ∀ e ∈ p.coefficients, Valid e) (x : PublicPoint) :
    (shareAt c x p).Ensures fun s => Valid s.value :=
  (level_ensures hp).bind fun _ hl =>
    (evaluate_ensures hc hl x).bind fun _ he => Outcome.ensures_ok he

theorem sharesAt_ensures (hc : Built c) (hp : ∀ e ∈ p.coefficients, Valid e)
    (xs : List PublicPoint) : (sharesAt c xs p).Ensures fun ss => ∀ s ∈ ss, Valid s.value := by
  refine (level_ensures hp).bind fun l hl => Outcome.ensures_mapM (fun x => ?_) xs
  exact (evaluate_ensures hc hl x).bind fun _ he => Outcome.ensures_ok he

theorem shareInto_keeps (hc : Built c) (hp : ∀ e ∈ p.coefficients, Valid e) (x : PublicPoint) :
    Action.Keeps (fun s : Share E => Valid s.value) (shareInto c x p) fun _ => True := by
  refine (Action.keeps_lift (level_ensures hp)).bind fun l hl => ?_
  refine Action.keeps_get.bind fun out _ => ?_
  refine (Action.keeps_lift (Share.levelOf_ensures c out)).bind fun lo _ => ?_
  dsimp only
  split
  · exact Action.keeps_fail _
  · exact (Action.keeps_lift (evaluate_ensures hc hl x)).bind fun e he => Action.keeps_set he

end SharingPolynomial

/-! ## Combiners -/

namespace Combiner

variable {k : Combiner C}

/-- A sound combiner of a chain, with a scratch scalar that is fit for use. -/
structure SoundOver (c : C) (k : Combiner C) : Prop where
  /-- The combiner is sound. -/
  sound : k.Sound
  /-- It is a combiner of the chain. -/
  chain_eq : k.chain = c
  /-- The scratch scalar has reduced limbs. -/
  scratch : k.scratch.Reduced (moduli c)

omit [ReducedElement E] [ChainView C E] in
theorem scratch_of_make {own : PublicPoint} {others : List PublicPoint} {threshold : Nat}
    (h : make c own others threshold = .ok k) : k.scratch = Scalar.zero (moduli c) := by
  unfold make at h
  split at h
  · cases h
  · simp only [Outcome.bind_eq_ok, Outcome.pure_eq_ok, Except.ok.injEq] at h
    rcases h with ⟨_, -, _, -, _, -, rfl⟩
    rfl

variable [ResidueElement E] [LawfulChain C E L]

theorem make_reported (hc : Built c) (hexact : Modulus.PrimalityExact (moduli c))
    (own : PublicPoint) (others : List PublicPoint) (threshold : Nat) :
    (make c own others threshold).Reported := by
  rcases Nat.lt_or_ge threshold 1 with hlow | hthreshold
  · rw [make, if_pos hlow]
    exact Outcome.reported_failure _
  · rcases make_cases hc hexact own others hthreshold with ⟨x, -, hfault⟩ | ⟨-, k, hk, -⟩
    · exact hfault ▸ Outcome.reported_failure _
    · exact hk ▸ Outcome.reported_ok k

theorem make_ensures (hc : Built c) (hexact : Modulus.PrimalityExact (moduli c))
    (own : PublicPoint) (others : List PublicPoint) (threshold : Nat) :
    (make c own others threshold).Ensures (SoundOver c) := by
  refine ⟨make_reported hc hexact own others threshold, ?_⟩
  intro k hk
  obtain ⟨hsound, hchain, -⟩ := sound_of_make hc hk
  refine ⟨hsound, hchain, ?_⟩
  rw [scratch_of_make hk]
  exact Scalar.reduced_zero (LawfulChain.suitable hc)

variable [DecidableEq L] {share : Share E}

/-- A combiner and the output it works on are used safely. -/
theorem additiveInto_keeps (hshare : Valid share.value) (actives : List PublicPoint)
    (own : PublicPoint) :
    Action.Keeps (fun w : Work C E => SoundOver c w.combiner ∧ Valid w.output)
      (additiveInto actives own share) fun _ => True := by
  apply Action.keeps_of_cases
  rintro ⟨k, out⟩ ⟨hk, hout⟩
  rcases run_additiveInto hk.sound hshare actives own out with
    ⟨members, l, e, s, -, -, hadditive, hrep, hrun⟩ | ⟨err, hrun⟩
  · refine .inl ⟨(), _, hrun, ⟨⟨hk.sound.setScratch hrep.length_eq, hk.chain_eq, ?_⟩,
      hadditive.elementAt.valid⟩, trivial⟩
    exact hk.chain_eq ▸ hrep.reduced
  · exact .inr ⟨err, _, hrun, hk, hout⟩

theorem additive_keeps [ChainLayout C L] [SafeChain C E L] (hc : Built c) (hfits : Fits c)
    (hshare : Valid share.value) (actives : List PublicPoint) (own : PublicPoint) :
    Action.Keeps (SoundOver c) (additive actives own share) Valid := by
  refine Action.keeps_get.bind fun k hk => ?_
  refine (Action.keeps_lift (quorum_reported k actives own).ensures).bind fun _ _ => ?_
  refine (Action.keeps_lift (Share.levelOf_ensures k.chain share)).bind fun l _ => ?_
  have hzero := SafeChain.zeroAt_ensures hc hfits l
  rw [← hk.chain_eq] at hzero
  refine (Action.keeps_lift (hzero.mapError _)).bind fun z hz => ?_
  rcases (additiveInto_keeps hshare actives own).cases (s := ⟨k, z⟩) ⟨hk, hz⟩ with
    ⟨_, w, hrun, ⟨hw, hout⟩, -⟩ | ⟨err, w, hrun, hw, -⟩
  · rw [hrun]
    exact (Action.keeps_set hw).bind fun _ _ => Action.keeps_pure hout
  · rw [hrun]
    exact (Action.keeps_set hw).bind fun _ _ => Action.keeps_throw err

end Combiner

end RingShamir
