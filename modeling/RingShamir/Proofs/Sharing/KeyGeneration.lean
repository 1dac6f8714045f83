import RingShamir.Proofs.SecretKey
import RingShamir.Proofs.Sharing.Reconstruction

/-!
# Key generation without a dealer

Every party shares a secret key of its own.  A party adds the shares that it
receives as bytes, in the order and the grouping in which they arrive; its
aggregate is its share of the sum of all keys.  A quorum reconstructs that sum.

Main results:

- Theorem `classAt_of_delivered`: a share that is sent as bytes is received.
- Theorem `run_of_receives`: an aggregate has the values of the sum of the
  polynomials of all dealers.
- Theorem `exists_key_of_deals`: the value of that sum at zero is the key of the
  summed coefficients.
- Definition `KeyGenerationExact` and theorem `keyGeneration_exact`: a quorum
  reconstructs the key of the summed coefficients, over both chains of parameters.
-/

namespace RingShamir

open Polynomial ResidueChain

section Sums

variable {C E : Type} [ChainView C E] {c : C}

/-- The sum of the class polynomials of dealers. -/
noncomputable def summedPolynomial (c : C) (ps : List (SharingPolynomial E)) (q : Modulus)
    (i j : Nat) : (ZMod q.value.toNat)[X] :=
  (ps.map fun p => SharingPolynomial.classPolynomial c p q i j).sum

theorem degree_summedPolynomial_lt {t : Nat} {ps : List (SharingPolynomial E)}
    (h : ∀ p ∈ ps, p.threshold ≤ t) (q : Modulus) (i j : Nat) :
    (summedPolynomial c ps q i j).degree < t := by
  induction ps with
  | nil =>
      rw [summedPolynomial, List.map_nil, List.sum_nil, degree_zero]
      exact WithBot.bot_lt_coe t
  | cons p ps ih =>
      have hfirst : (SharingPolynomial.classPolynomial c p q i j).degree < t :=
        (SharingPolynomial.degree_classPolynomial_lt c p q i j).trans_le
          (by exact_mod_cast h p List.mem_cons_self)
      have hrest := ih fun r hr => h r (List.mem_cons_of_mem p hr)
      rw [summedPolynomial, List.map_cons, List.sum_cons]
      exact (degree_add_le _ _).trans_lt (max_lt hfirst hrest)

end Sums

section Delivery

variable {C E L : Type} [ResidueElement E] [ResidueChain C E L] [DecidableEq L]

/-- The share that the party at a point receives of a dealer: it is dealt into an
allocated share, encoded and decoded. -/
def delivered (c : C) (l : L) (x : PublicPoint) (p : SharingPolynomial E) :
    Outcome SchemeError (Share E) := do
  let z ← Share.zeroAt c l
  let share ← (SharingPolynomial.shareInto c x p).applyTo z
  Share.decode c share.encode l

/-- A schedule adds the shares that the party at a point receives, each dealer's
once, in any order. -/
def Receives (c : C) (l : L) (ps : List (SharingPolynomial E)) (x : PublicPoint)
    (schedule : Schedule E) : Prop :=
  ∃ shares, List.Forall₂ (fun p s => delivered c l x p = .ok s) ps shares ∧
    schedule.leaves.Perm shares

/-- Shares that are received in some order may be added one after the other. -/
theorem receives_fold {c : C} {l : L} {ps : List (SharingPolynomial E)} {x : PublicPoint}
    {shares shares' : List (Share E)} (hperm : shares.Perm shares')
    (h : List.Forall₂ (fun p s => delivered c l x p = .ok s) ps shares') :
    Receives c l ps x (.fold shares) := by
  refine ⟨shares', h, ?_⟩
  rw [Schedule.leaves_fold]
  exact hperm

variable [ReducedElement E] [ChainView C E] [LawfulChain C E L] {c : C} {l : L}
  {x : PublicPoint} {p : SharingPolynomial E} {share : Share E}

/-- A delivered share is at the level of its polynomial, and its classes are the
values of the class polynomials. -/
theorem classAt_of_delivered (hc : Built c) (hp : ∀ e ∈ p.coefficients, Valid e)
    (h : delivered c l x p = .ok share) :
    (∃ z, Share.zeroAt c l = .ok z) ∧ (∀ e ∈ p.coefficients, ElementAt c l e) ∧
      ElementAt c l share.value ∧ ∀ (i : Nat) (q : Modulus) (j : Nat), (moduli c)[i]? = some q →
        classAt c share.value q i j =
          (SharingPolynomial.classPolynomial c p q i j).eval (x.classes q) := by
  rcases Outcome.bind_eq_ok.mp h with ⟨z, hz, h⟩
  rcases Outcome.bind_eq_ok.mp h with ⟨dealt, hdealt, hdecode⟩
  obtain ⟨l', hlevel, hzlevel, hv⟩ :=
    SharingPolynomial.shareInto_eq_ok (Action.applyTo_eq_ok.mp hdealt)
  obtain ⟨hzat, -⟩ := Share.of_zeroAt hc hz
  obtain rfl : l = l' :=
    Except.ok.inj ((Share.levelOf_eq_ok.mpr hzat.level).symm.trans hzlevel)
  have hat : ∀ e ∈ p.coefficients, ElementAt c l e := fun e he =>
    ⟨hp e he, SharingPolynomial.level_eq_ok.mp hlevel e he⟩
  obtain ⟨hdealtAt, hvalue⟩ := SharingPolynomial.classAt_of_evaluate hc hat hv
  obtain rfl : dealt = share :=
    Except.ok.inj ((Share.decode_encode hc hdealtAt hz).symm.trans hdecode)
  exact ⟨⟨z, hz⟩, hat, hdealtAt, hvalue⟩

/-- What a schedule of received shares says about the dealers and the shares. -/
theorem elementAt_of_receives {ps : List (SharingPolynomial E)} {schedule : Schedule E}
    (hc : Built c) (hne : ps ≠ []) (hps : ∀ p ∈ ps, ∀ e ∈ p.coefficients, Valid e)
    (h : Receives c l ps x schedule) : (∃ z, Share.zeroAt c l = .ok z) ∧
      (∀ p ∈ ps, ∀ e ∈ p.coefficients, ElementAt c l e) ∧
        ∀ s ∈ schedule.leaves, ElementAt c l s.value := by
  rcases h with ⟨shares, hshares, hperm⟩
  refine ⟨?_, ?_, ?_⟩
  · obtain ⟨p, hp⟩ := List.exists_mem_of_ne_nil ps hne
    obtain ⟨s, -, hs⟩ := exists_mem_of_forall₂ hshares hp
    exact (classAt_of_delivered hc (hps p hp) hs).1
  · intro p hp
    obtain ⟨s, -, hs⟩ := exists_mem_of_forall₂ hshares hp
    exact (classAt_of_delivered hc (hps p hp) hs).2.1
  · intro s hs
    obtain ⟨p, hp, hdelivered⟩ := exists_mem_of_forall₂ hshares.flip (hperm.mem_iff.mp hs)
    exact (classAt_of_delivered hc (hps p hp) hdelivered).2.2.1

/-- A schedule of received shares succeeds, and its aggregate has the values of
the summed polynomials. -/
theorem run_of_receives {ps : List (SharingPolynomial E)} {schedule : Schedule E}
    (hc : Built c) (hne : ps ≠ []) (hps : ∀ p ∈ ps, ∀ e ∈ p.coefficients, Valid e)
    (h : Receives c l ps x schedule) :
    ∃ share, schedule.run c l = .ok share ∧ ElementAt c l share.value ∧
      ∀ (i : Nat) (q : Modulus) (j : Nat), (moduli c)[i]? = some q →
        classAt c share.value q i j = (summedPolynomial c ps q i j).eval (x.classes q) := by
  obtain ⟨⟨z, hz⟩, -, hleaves⟩ := elementAt_of_receives hc hne hps h
  rcases h with ⟨shares, hshares, hperm⟩
  obtain ⟨share, hshare, hat, hsum⟩ := Schedule.run_of_elementAt hc hz hleaves
  refine ⟨share, hshare, hat, ?_⟩
  intro i q j hq
  have hvalues : ps.map (fun p =>
      (SharingPolynomial.classPolynomial c p q i j).eval (x.classes q)) =
        shares.map fun s => classAt c s.value q i j := by
    refine map_eq_map_of_forall₂ (forall₂_of_getElem? hshares.length_eq ?_)
    intro k p s hp hs
    have hdelivered := getElem?_of_forall₂ hshares hp hs
    have hvalid := hps p (List.mem_of_getElem? hp)
    exact ((classAt_of_delivered hc hvalid hdelivered).2.2.2 i q j hq).symm
  rw [hsum i q j hq, (hperm.map _).sum_eq, ← hvalues, summedPolynomial, eval_listSum, List.map_map]
  rfl

/-- The aggregate depends neither on the order in which shares arrive nor on how
they are grouped. -/
theorem run_eq_of_receives {ps : List (SharingPolynomial E)} {a b : Schedule E}
    (hc : Built c) (hne : ps ≠ []) (hps : ∀ p ∈ ps, ∀ e ∈ p.coefficients, Valid e)
    (ha : Receives c l ps x a) (hb : Receives c l ps x b) :
    ∃ share, a.run c l = .ok share ∧ b.run c l = .ok share := by
  obtain ⟨⟨z, hz⟩, -, hleaves⟩ := elementAt_of_receives hc hne hps ha
  obtain ⟨share, hshare, -⟩ := run_of_receives hc hne hps ha
  rcases ha with ⟨shares, hshares, hperm⟩
  rcases hb with ⟨shares', hshares', hperm'⟩
  have hunique : Relator.RightUnique fun p s => delivered c l x p = .ok s := by
    intro p s s' hs hs'
    exact Except.ok.inj (hs.symm.trans hs')
  obtain rfl : shares = shares' := List.right_unique_forall₂' hunique hshares hshares'
  have hsame := Schedule.run_eq_of_perm hc hz hleaves (hperm.trans hperm'.symm)
  exact ⟨share, hshare, hsame ▸ hshare⟩

end Delivery

/-! ## Summed keys -/

section Dealers

variable {C E L : Type} [ResidueChain C E L] [ReducedElement E] [ChainView C E]
  {par : Parameters} {c : C} {l : L} {active : Nat → Prop}
  {embed : SecretKey → Outcome SchemeError E}

/-- A dealer shares the key with given coefficients by a polynomial with `t`
coefficients. -/
structure Deals (par : Parameters) (embed : SecretKey → Outcome SchemeError E)
    (t : Nat) (v : List Int) (p : SharingPolynomial E) : Prop where
  /-- The coefficients make a key. -/
  ofCoefficients : SecretKey.ofCoefficients par v = .ok ⟨par, v⟩
  /-- The secret is the key. -/
  secret : embed ⟨par, v⟩ = .ok p.secret
  /-- The polynomial has `t` coefficients. -/
  threshold_eq : p.threshold = t
  /-- The other coefficients are valid. -/
  masks : ∀ e ∈ p.masks, Valid e

/-- The coefficients of a dealer's polynomial are valid. -/
theorem Deals.valid {t : Nat} {v : List Int} {p : SharingPolynomial E}
    (hembed : SecretKey.Embeds par c l active embed) (h : Deals par embed t v p) :
    ∀ e ∈ p.coefficients, Valid e := by
  intro e he
  rcases List.mem_cons.mp he with rfl | he
  · exact (hembed.classAt_eq v p.secret h.secret).1.valid
  · exact h.masks e he

/-- The key of the summed coefficients has the values at zero of the sum of the
dealers' polynomials. -/
theorem exists_key_of_deals {t : Nat} {vs : List (List Int)} {ps : List (SharingPolynomial E)}
    (hembed : SecretKey.Embeds par c l active embed) (hvs : vs ≠ [])
    (hdeals : List.Forall₂ (Deals par embed t) vs ps) :
    ∃ key e, SecretKey.ofCoefficients par (SecretKey.sumVectors par.degree vs) = .ok key ∧
      embed key = .ok e ∧ ElementAt c l e ∧
        ∀ (i : Nat) (q : Modulus) (j : Nat), (moduli c)[i]? = some q →
          classAt c e q i j = (summedPolynomial c ps q i j).eval 0 := by
  have hlengths : ∀ v ∈ vs, v.length = par.degree := by
    intro v hv
    obtain ⟨p, -, hp⟩ := exists_mem_of_forall₂ hdeals hv
    exact SecretKey.length_of_ofCoefficients hp.ofCoefficients
  have hsecrets : List.Forall₂ (fun v e => embed ⟨par, v⟩ = .ok e) vs
      (ps.map SharingPolynomial.secret) := by
    rw [List.forall₂_map_right_iff]
    exact hdeals.imp fun v p hp => hp.secret
  obtain ⟨e, he, hat, hsum⟩ := hembed.exists_sum hvs hlengths hsecrets
  have hkey := SecretKey.ofCoefficients_of_length (SecretKey.length_sumVectors par.degree vs)
  refine ⟨_, e, hkey, he, hat, ?_⟩
  intro i q j hq
  rw [hsum i q j hq, summedPolynomial, eval_listSum, List.map_map, List.map_map]
  congr 1
  apply List.map_congr_left
  intro p _
  exact (SharingPolynomial.eval_zero_classPolynomial c p q i j).symm

end Dealers

section Keys

variable {C E L : Type} [ResidueElement E] [ResidueChain C E L] [DecidableEq L]

/-- The party at a point aggregates the shares that it receives of the dealers and
contributes to the quorum with the aggregate. -/
def ContributesAggregate (c : C) (l : L) (t : Nat) (ps : List (SharingPolynomial E))
    (actives : List PublicPoint) (x : PublicPoint) (e : E) : Prop :=
  ∃ schedule share, Receives c l ps x schedule ∧ schedule.run c l = .ok share ∧
    Contributes c t actives x share e

/-- Key generation without a dealer over a chain at a level: what a party
aggregates of the shares of all dealers depends neither on the order nor on the
grouping, and the contributions of a quorum add up to the key of the summed
coefficients. -/
def KeyGenerationExact [ReducedElement E] (par : Parameters) (c : C) (l : L)
    (embed : SecretKey → Outcome SchemeError E) : Prop :=
  ∀ (t : Nat) (vs : List (List Int)) (ps : List (SharingPolynomial E)), vs ≠ [] →
    List.Forall₂ (Deals par embed t) vs ps →
      (∀ (x : PublicPoint) (a b : Schedule E), Receives c l ps x a → Receives c l ps x b →
        ∃ share, a.run c l = .ok share ∧ b.run c l = .ok share) ∧
      ∀ (actives : List PublicPoint) (es : List E), t ≤ actives.length →
        List.Forall₂ (ContributesAggregate c l t ps actives) (actives.take t) es →
          ∃ key e, SecretKey.ofCoefficients par (SecretKey.sumVectors par.degree vs) = .ok key ∧
            embed key = .ok e ∧ total c l es = .ok e

variable [ReducedElement E] [ChainView C E] [LawfulChain C E L] {par : Parameters} {c : C} {l : L}
  {active : Nat → Prop} {embed : SecretKey → Outcome SchemeError E}

/-- Key generation is exact for every embedding over a chain that satisfies the
laws. -/
theorem keyGenerationExact_of_embeds (hc : Built c)
    (hexact : Modulus.PrimalityExact (moduli c)) (hembed : SecretKey.Embeds par c l active embed) :
    KeyGenerationExact par c l embed := by
  intro t vs ps hvs hdeals
  have hne : ps ≠ [] := by
    rintro rfl
    exact hvs (List.forall₂_nil_right_iff.mp hdeals)
  have hps : ∀ p ∈ ps, (∀ e ∈ p.coefficients, Valid e) ∧ p.threshold = t := by
    intro p hp
    obtain ⟨v, -, hv⟩ := exists_mem_of_forall₂ hdeals.flip hp
    exact ⟨hv.valid hembed, hv.threshold_eq⟩
  have ht : 1 ≤ t := by
    obtain ⟨p, hp⟩ := List.exists_mem_of_ne_nil ps hne
    rw [← (hps p hp).2]
    exact SharingPolynomial.threshold_pos p
  have hvalid := fun p hp => (hps p hp).1
  refine ⟨fun x a b ha hb => run_eq_of_receives hc hne hvalid ha hb, ?_⟩
  intro actives es hlength hes
  have hvalues : List.Forall₂ (fun x e => ∃ share, Contributes c t actives x share e ∧
      ElementAt c l share.value ∧ ∀ (i : Nat) (q : Modulus) (j : Nat), (moduli c)[i]? = some q →
        classAt c share.value q i j = (summedPolynomial c ps q i j).eval (x.classes q))
          (actives.take t) es := by
    apply hes.imp
    rintro x e ⟨schedule, share, hreceives, hrun, hcontributes⟩
    obtain ⟨share', hrun', hat, hvalue⟩ := run_of_receives hc hne hvalid hreceives
    obtain rfl : share' = share := Except.ok.inj (hrun'.symm.trans hrun)
    exact ⟨share', hcontributes, hat, hvalue⟩
  have hdegree := degree_summedPolynomial_lt (c := c) fun p hp => (hps p hp).2.le
  obtain ⟨s, hs, hat, hclass⟩ := total_of_values hc hexact ht hlength hdegree hvalues
  obtain ⟨key, e, hkey, he, heat, hzero⟩ := exists_key_of_deals hembed hvs hdeals
  have hequal : s = e := by
    apply eq_of_classAt hc hat heat
    intro i q j hq
    rw [hclass i q j hq, hzero i q j hq]
  exact ⟨key, e, hkey, he, hequal ▸ hs⟩

end Keys

/-- Key generation is exact for all parameters, over all moduli and over the
ciphertext moduli up to any level. -/
theorem keyGeneration_exact {d : ParameterDraft} {par : Parameters} (h : d.build = .ok par)
    (hexact : Modulus.PrimalityExact (moduli par.extended)) :
    KeyGenerationExact par par.extended (maxLevel par.extended) SecretKey.toExtended ∧
      ∀ l, KeyGenerationExact par par.plain l (SecretKey.toPlain · l) := by
  have hpar := Parameters.built_of_build h
  have hplain : Modulus.PrimalityExact (moduli par.plain) := fun q hq =>
    hexact q (hpar.mem_moduli_extended hq)
  exact ⟨keyGenerationExact_of_embeds hpar.extended hexact (SecretKey.embeds_toExtended hpar),
    fun l => keyGenerationExact_of_embeds hpar.plain hplain (SecretKey.embeds_toPlain hpar l)⟩

section FiveSevenEleven

/-- The draft of parameters with the ciphertext moduli five and seven and the
auxiliary modulus eleven. -/
def draftFiveSevenEleven : ParameterDraft where
  degree := 8
  moduli := [5, 7]
  auxModuli := [11]

/-- The parameters of the draft. -/
def fiveSevenEleven : Parameters where
  degree := 8
  moduli := [5, 7]
  sizes := [3, 3]
  auxModuli := [11]
  plain := PlainChain.fiveSeven
  extended :=
    { main := PlainChain.fiveSeven.basis
      aux := some ⟨[11], [.withConstants 11], 8, 11, none⟩
      operators := [.withConstants 5, .withConstants 7, .withConstants 11] }

/-- The element of a key. -/
def embedded (main : List (List UInt64)) (aux : List (List UInt64)) : ExtendedPoly where
  main := ⟨PlainChain.fiveSeven.basis, main⟩
  aux := some ⟨⟨[11], [.withConstants 11], 8, 11, none⟩, aux⟩

/-- The keys of two dealers. -/
def twoKeys : List (List Int) :=
  [[1, -1, 0, 1, 0, 0, -1, 1], [-1, -1, 1, 1, 0, 1, 0, 0]]

/-- The polynomials of two dealers. -/
def twoDealers : List (SharingPolynomial ExtendedPoly) :=
  [⟨embedded [[1, 4, 0, 1, 0, 0, 4, 1], [1, 6, 0, 1, 0, 0, 6, 1]]
      [[1, 10, 0, 1, 0, 0, 10, 1]],
    [embedded [[4, 0, 3, 3, 0, 1, 3, 3], [4, 0, 0, 3, 4, 1, 5, 1]]
      [[4, 0, 4, 3, 3, 1, 9, 8]]]⟩,
   ⟨embedded [[4, 4, 1, 1, 0, 1, 0, 0], [6, 6, 1, 1, 0, 1, 0, 0]]
      [[10, 10, 1, 1, 0, 1, 0, 0]],
    [embedded [[0, 1, 2, 1, 1, 3, 0, 1], [0, 6, 2, 3, 1, 5, 5, 5]]
      [[0, 6, 2, 7, 1, 0, 5, 2]]]⟩]

/-- The first recipient adds the shares one after the other, the last one first. -/
def foldedSchedule : Schedule ExtendedPoly :=
  .fold
    [⟨embedded [[4, 0, 3, 2, 1, 4, 0, 1], [6, 5, 3, 4, 1, 6, 5, 5]]
        [[10, 5, 3, 8, 1, 1, 5, 2]]⟩,
      ⟨embedded [[0, 4, 3, 4, 0, 1, 2, 4], [5, 6, 0, 4, 4, 1, 4, 2]]
        [[5, 10, 4, 4, 3, 1, 8, 9]]⟩]

/-- The second recipient adds the shares in a pair. -/
def pairedSchedule : Schedule ExtendedPoly :=
  .paired
    (.received ⟨embedded [[4, 4, 1, 2, 0, 2, 0, 2], [2, 6, 0, 0, 1, 2, 2, 3]]
      [[9, 10, 8, 7, 6, 2, 6, 6]]⟩)
    (.received ⟨embedded [[4, 1, 0, 3, 2, 2, 0, 2], [6, 4, 5, 0, 2, 4, 3, 3]]
      [[10, 0, 5, 4, 2, 1, 10, 4]]⟩)

theorem receives_foldedSchedule :
    Receives fiveSevenEleven.extended (maxLevel fiveSevenEleven.extended) twoDealers
      ⟨1, by decide⟩ foldedSchedule := by
  unfold foldedSchedule
  refine receives_fold (.swap _ _ _) (.cons ?_ (.cons ?_ .nil))
  · decide +kernel
  · decide +kernel

theorem receives_pairedSchedule :
    Receives fiveSevenEleven.extended (maxLevel fiveSevenEleven.extended) twoDealers
      ⟨2, by decide⟩ pairedSchedule := by
  refine ⟨pairedSchedule.leaves, .cons ?_ (.cons ?_ .nil), .refl _⟩
  · decide +kernel
  · decide +kernel

/-- Two recipients of the shares of two dealers reconstruct the key of the summed
coefficients. -/
theorem keyGeneration_of_twoDealers :
    ∃ es, List.Forall₂ (ContributesAggregate fiveSevenEleven.extended
      (maxLevel fiveSevenEleven.extended) 2 twoDealers threePoints) (threePoints.take 2) es ∧
        ∃ key e, SecretKey.ofCoefficients fiveSevenEleven (SecretKey.sumVectors 8 twoKeys) =
          .ok key ∧ key.toExtended = .ok e ∧
            total fiveSevenEleven.extended (maxLevel fiveSevenEleven.extended) es = .ok e := by
  have hbuild : draftFiveSevenEleven.build = .ok fiveSevenEleven := by decide +kernel
  have hexact : Modulus.PrimalityExact (moduli fiveSevenEleven.extended) := by
    change ∀ q ∈ [Modulus.withConstants 5, Modulus.withConstants 7, Modulus.withConstants 11],
      Primality.isPrime q.value.toNat = true ↔ q.value.toNat.Prime
    decide +kernel
  have hembeds := SecretKey.embeds_toExtended (Parameters.built_of_build hbuild)
  have hdeals : List.Forall₂ (Deals fiveSevenEleven SecretKey.toExtended 2) twoKeys
      twoDealers := by
    refine .cons ⟨rfl, rfl, rfl, ?_⟩ (.cons ⟨rfl, rfl, rfl, ?_⟩ .nil)
    · intro e he
      obtain rfl := List.mem_singleton.mp he
      exact (hembeds.classAt_eq [4, 0, -7, 3, 25, 1, -2, 8] _ rfl).1.valid
    · intro e he
      obtain rfl := List.mem_singleton.mp he
      exact (hembeds.classAt_eq [0, 6, 2, -4, 1, 33, 5, -9] _ rfl).1.valid
  obtain ⟨es, hes⟩ : ∃ es, List.Forall₂ (ContributesAggregate fiveSevenEleven.extended
      (maxLevel fiveSevenEleven.extended) 2 twoDealers threePoints) (threePoints.take 2) es := by
    refine ⟨[embedded [[2, 0, 4, 0, 3, 1, 0, 1], [6, 4, 2, 0, 4, 1, 2, 1]]
        [[3, 1, 9, 0, 3, 8, 6, 1]],
      embedded [[3, 3, 2, 2, 2, 0, 4, 0], [1, 1, 6, 2, 3, 0, 4, 0]]
        [[8, 8, 3, 2, 8, 4, 4, 0]]], .cons ?_ (.cons ?_ .nil)⟩
    · exact ⟨_, ⟨embedded [[3, 0, 1, 0, 2, 4, 0, 4], [1, 3, 5, 0, 3, 6, 5, 6]]
        [[8, 10, 2, 0, 8, 3, 5, 10]]⟩, receives_pairedSchedule, by decide +kernel,
        contributes_of_ending threePoints (by decide +kernel)⟩
    · exact ⟨_, ⟨embedded [[4, 4, 1, 1, 1, 0, 2, 0], [4, 4, 3, 1, 5, 0, 2, 0]]
        [[4, 4, 7, 1, 4, 2, 2, 0]]⟩, receives_foldedSchedule, by decide +kernel,
        contributes_of_ending threePoints (by decide +kernel)⟩
  exact ⟨es, hes, ((keyGeneration_exact hbuild hexact).1 2 twoKeys twoDealers
    (by decide) hdeals).2 threePoints es (by decide) hes⟩

end FiveSevenEleven

end RingShamir
