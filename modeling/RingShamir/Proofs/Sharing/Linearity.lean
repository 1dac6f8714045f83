import RingShamir.Proofs.Sharing.Acceptance
import RingShamir.Proofs.Sharing.Reconstruction

/-!
# Combination is linear

For a fixed quorum a combiner multiplies shares by classes that do not depend on the
share.  So sums of shares have the sums of the additive shares.  Where the dealer
accepts all points of the quorum, no factor vanishes modulo any modulus, and neither
does their product: the combiner has inverses of the differences of the points, the
dealer refuses points that vanish.  Then combining is a bijection on the elements of a
level, and each share of a quorum counts, position by position.

Main results:

- Theorem `productClasses_ne_zero`: the product of the factors vanishes nowhere.
- Definition `Combiner.CombinesLinearly`: sums are kept, and without vanishing points
  combination is a bijection.
- Definitions `Reconstructs` and `SharesCount`: a share that is replaced changes what is
  reconstructed exactly where it is changed.
- Theorem `combination_linear`: both properties, over both kinds of chains.
-/

namespace RingShamir

open ResidueChain

/-! ## Products of factors -/

/-- The product of the factors of a quorum does not vanish modulo any modulus if no member
does. -/
theorem productClasses_ne_zero {qs : List Modulus} {own : PublicPoint} {members : List PublicPoint}
    {q : Modulus} (hprime : q.value.toNat.Prime) (hq : q ∈ qs)
    (hapart : ∀ x ∈ members, x ≠ own → x.Apart qs own)
    (hmembers : ∀ x ∈ members, x.Admissible qs) : Combiner.productClasses own members q ≠ 0 := by
  have := Fact.mk hprime
  rw [Combiner.productClasses, Pi.list_prod_apply, List.map_map]
  refine List.prod_ne_zero fun hzero => ?_
  rcases List.mem_map.mp hzero with ⟨x, hx, hfactor⟩
  obtain ⟨hmem, hne⟩ := List.mem_filter.mp hx
  have hunit := hapart x hmem (by simpa using hne) q hq
  exact mul_ne_zero (inv_ne_zero hunit.ne_zero) (hmembers x hmem q hq) hfactor

/-! ## Additive shares -/

namespace Combiner

section Statements

variable {C E L : Type} [ResidueElement E] [ResidueChain C E L] [ReducedElement E]
  [ChainView C E] [DecidableEq L]

/-- An element is the additive share of another one for the quorum made of the first active
points: whatever calls came before, it is stored in every output at the level, and it is
returned in new storage if this can be allocated. -/
structure AdditiveShare (k : Combiner C) (actives : List PublicPoint) (l : L) (a e : E) :
    Prop where
  /-- The additive share is stored in an output. -/
  into : ∀ (calls : List (Call E)) (out : E), ElementAt k.chain l out →
    ∃ w, EStateM.run (additiveInto actives k.own ⟨a⟩) ⟨k.after calls, out⟩ = .ok () ⟨w, e⟩
  /-- The additive share is stored in a new element. -/
  allocated : ∀ (calls : List (Call E)) (z : E), zeroAt k.chain l = .ok z →
    ∃ w, EStateM.run (additive actives k.own ⟨a⟩) (k.after calls) = .ok e w

/-- Combining the shares of a level for a quorum is additive, and without vanishing points
it is a bijection. -/
structure CombinesLinearly (k : Combiner C) (actives members : List PublicPoint) (l : L) :
    Prop where
  /-- Every element at the level has an additive share, which is at the level. -/
  exists_share : ∀ a, ElementAt k.chain l a →
    ∃ e, ElementAt k.chain l e ∧ AdditiveShare k actives l a e
  /-- The additive share of a sum is the sum of the additive shares. -/
  sum : ∀ a b ea eb out out', ElementAt k.chain l a → ElementAt k.chain l b →
    ElementAt k.chain l out → ElementAt k.chain l out' → AdditiveShare k actives l a ea →
      AdditiveShare k actives l b eb → ∃ s e, EStateM.run (addInto k.chain a b) out = .ok () s ∧
        EStateM.run (addInto k.chain ea eb) out' = .ok () e ∧ AdditiveShare k actives l s e
  /-- If a dealer over the chain accepts all members, then the elements at the level are in
  bijection with their additive shares. -/
  bijective : Modulus.PrimalityExact (moduli k.chain) →
    (∀ x ∈ members, ∃ s, SharingPolynomial.pointScalar k.chain x = .ok s) →
      ∃ φ : {e : E // ElementAt k.chain l e} ≃ {e : E // ElementAt k.chain l e},
        ∀ a, AdditiveShare k actives l a.1 (φ a).1

end Statements

section Laws

variable {C E L : Type} [ResidueElement E] [ResidueChain C E L] [ReducedElement E]
  [ChainView C E] [LawfulChain C E L] {k : Combiner C} {own : PublicPoint}
  {actives members : List PublicPoint} {l : L} {a b e e' : E}

/-- A share has one additive share. -/
theorem AdditiveOf.unique {share : Share E} (hk : k.Sound)
    (h : AdditiveOf k own members l share e) (h' : AdditiveOf k own members l share e') :
    e = e' := by
  apply eq_of_classAt hk.built h.elementAt h'.elementAt
  intro i q j hq
  rw [h.classAt_eq i q j hq, h'.classAt_eq i q j hq]

/-- Elements with the same additive share are equal if no product of factors vanishes. -/
theorem eq_of_additiveOf (hk : k.Sound) (hexact : Modulus.PrimalityExact (moduli k.chain))
    (hproduct : ∀ q ∈ moduli k.chain, productClasses own members q ≠ 0)
    (ha : AdditiveOf k own members l ⟨a⟩ e) (hb : AdditiveOf k own members l ⟨b⟩ e) : a = b := by
  apply eq_of_classAt hk.built ha.share_level hb.share_level
  intro i q j hq
  have hmem := List.mem_of_getElem? hq
  have := Fact.mk (prime_of_mem hk.built hexact hmem)
  apply mul_right_cancel₀ (hproduct q hmem)
  exact (ha.classAt_eq i q j hq).symm.trans (hb.classAt_eq i q j hq)

/-- The product of the factors of a quorum vanishes nowhere if a dealer accepts all members. -/
theorem productClasses_ne_zero_of_quorum (hk : k.Sound)
    (hexact : Modulus.PrimalityExact (moduli k.chain)) (hquorum : k.QuorumOf actives own members)
    (hpoints : ∀ x ∈ members, ∃ s, SharingPolynomial.pointScalar k.chain x = .ok s) :
    ∀ q ∈ moduli k.chain, productClasses own members q ≠ 0 := by
  intro q hq
  apply productClasses_ne_zero (prime_of_mem hk.built hexact hq) hq
  · intro x hx hne
    obtain ⟨s, hs⟩ := Option.isSome_iff_exists.mp (hquorum.factors x hx hne)
    exact hquorum.own_eq ▸ (hk.factors x s hs).1
  · intro x hx
    obtain ⟨s, hs⟩ := hpoints x hx
    exact SharingPolynomial.admissible_of_pointScalar hk.built hs

variable [DecidableEq L]

theorem exists_additiveShare (hk : k.Sound) (hmembers : k.quorum actives k.own = .ok members)
    (ha : ElementAt k.chain l a) :
    ∃ e, AdditiveShare k actives l a e ∧ AdditiveOf k k.own members l ⟨a⟩ e := by
  have hshare : ElementAt k.chain l (Share.mk a).value := ha
  obtain ⟨e, s, hadditive, -, -, -, hrun⟩ := run_additiveInto_of_level hk hmembers hshare
  refine ⟨e, ⟨?_, ?_⟩, hadditive⟩
  · intro calls out hout
    rw [run_additiveInto_after]
    exact ⟨_, hrun out hout.level⟩
  · intro calls z hz
    rw [run_additive_after]
    obtain ⟨e', w, hw, hadditive'⟩ := run_additive_of_level hk hmembers hshare hz
    exact ⟨w, hadditive.unique hk hadditive' ▸ hw⟩

theorem AdditiveShare.additiveOf (hk : k.Sound) (hmembers : k.quorum actives k.own = .ok members)
    (ha : ElementAt k.chain l a) (h : AdditiveShare k actives l a e) :
    AdditiveOf k k.own members l ⟨a⟩ e := by
  obtain ⟨e', hshare', hadditive⟩ := exists_additiveShare hk hmembers ha
  obtain ⟨w, hw⟩ := h.into [] a ha
  obtain ⟨w', hw'⟩ := hshare'.into [] a ha
  rw [hw'] at hw
  cases hw
  exact hadditive

/-- The additive share of a sum is the sum of the additive shares. -/
theorem exists_sum_additiveShare {out out' ea eb : E} (hk : k.Sound)
    (hmembers : k.quorum actives k.own = .ok members) (ha : ElementAt k.chain l a)
    (hb : ElementAt k.chain l b) (hout : ElementAt k.chain l out)
    (hout' : ElementAt k.chain l out') (hea : AdditiveShare k actives l a ea)
    (heb : AdditiveShare k actives l b eb) :
    ∃ s e, EStateM.run (addInto k.chain a b) out = .ok () s ∧
      EStateM.run (addInto k.chain ea eb) out' = .ok () e ∧ AdditiveShare k actives l s e := by
  have hea' := hea.additiveOf hk hmembers ha
  have heb' := heb.additiveOf hk hmembers hb
  obtain ⟨s, hs, hsAt, hsum⟩ := LawfulChain.run_addInto hk.built ha hb hout
  obtain ⟨e, he, heAt, hsum'⟩ :=
    LawfulChain.run_addInto hk.built hea'.elementAt heb'.elementAt hout'
  obtain ⟨d, hshare, hd⟩ := exists_additiveShare hk hmembers hsAt
  refine ⟨s, e, hs, he, ?_⟩
  suffices hsame : d = e from hsame ▸ hshare
  apply eq_of_classAt hk.built hd.elementAt heAt
  intro i q j hq
  rw [hd.classAt_eq i q j hq, hsum i q j hq, hsum' i q j hq, hea'.classAt_eq i q j hq,
    heb'.classAt_eq i q j hq, add_mul]

/-- Where no product of factors vanishes, combining is a bijection on a level. -/
theorem exists_equiv_additiveShare (hk : k.Sound)
    (hexact : Modulus.PrimalityExact (moduli k.chain))
    (hmembers : k.quorum actives k.own = .ok members)
    (hproduct : ∀ q ∈ moduli k.chain, productClasses k.own members q ≠ 0) :
    ∃ φ : {e : E // ElementAt k.chain l e} ≃ {e : E // ElementAt k.chain l e},
      ∀ a, AdditiveShare k actives l a.1 (φ a).1 := by
  choose φ hφ using fun a : {e : E // ElementAt k.chain l e} =>
    exists_additiveShare hk hmembers a.2
  have hinjective : Function.Injective
      (fun a => (⟨φ a, (hφ a).2.elementAt⟩ : {e : E // ElementAt k.chain l e})) := by
    intro a b hab
    have hsame : φ a = φ b := congrArg Subtype.val hab
    apply Subtype.ext
    exact eq_of_additiveOf hk hexact hproduct (hφ a).2 (hsame ▸ (hφ b).2)
  -- A level has finitely many elements, so no inverse has to be constructed.
  have := LawfulChain.finite l hk.built
  exact ⟨Equiv.ofBijective _ (Finite.injective_iff_bijective.mp hinjective), fun a => (hφ a).1⟩

theorem combinesLinearly_of_sound (hk : k.Sound)
    (hmembers : k.quorum actives k.own = .ok members) :
    CombinesLinearly k actives members l := by
  constructor
  case exists_share =>
    intro a ha
    obtain ⟨e, hshare, hadditive⟩ := exists_additiveShare hk hmembers ha
    exact ⟨e, hadditive.elementAt, hshare⟩
  case sum =>
    intro a b ea eb out out' ha hb hout hout' hea heb
    exact exists_sum_additiveShare hk hmembers ha hb hout hout' hea heb
  case bijective =>
    intro hexact hpoints
    have hproduct :=
      productClasses_ne_zero_of_quorum hk hexact (quorumOf_of_quorum hmembers) hpoints
    exact exists_equiv_additiveShare hk hexact hmembers hproduct

end Laws

end Combiner

/-! ## Parties -/

/-- Replacing the element of a party leaves the points as they are. -/
theorem map_fst_set {E : Type} {parties : List (PublicPoint × E)} {n : Nat} {x : PublicPoint}
    {a v : E} (hn : parties[n]? = some (x, a)) :
    (parties.set n (x, v)).map Prod.fst = parties.map Prod.fst := by
  obtain ⟨hlt, hget⟩ := List.getElem?_eq_some_iff.mp hn
  have hlt' : n < (parties.map Prod.fst).length := by rwa [List.length_map]
  have hpoint : x = (parties.map Prod.fst)[n] := by rw [List.getElem_map, hget]
  rw [List.map_set, hpoint, List.set_getElem_self]

theorem elementAt_set {C E L : Type} [ResidueChain C E L] [ReducedElement E] {c : C} {l : L}
    {parties : List (PublicPoint × E)} {n : Nat} {x : PublicPoint} {v : E}
    (hparties : ∀ p ∈ parties, ElementAt c l p.2) (hv : ElementAt c l v) :
    ∀ p ∈ parties.set n (x, v), ElementAt c l p.2 := by
  intro p hp
  rcases List.mem_or_eq_of_mem_set hp with hp | rfl
  · exact hparties p hp
  · exact hv

/-! ## Reconstruction -/

section Quorums

variable {C E L : Type} [ResidueElement E] [ResidueChain C E L] [DecidableEq L]

/-- The members of a quorum, each with the element of its share, reconstruct an element: each
member contributes an additive share, and these add up to the element. -/
def Reconstructs (c : C) (l : L) (t : Nat) (actives : List PublicPoint)
    (parties : List (PublicPoint × E)) (s : E) : Prop :=
  parties.map Prod.fst = actives.take t ∧
    ∃ es, List.Forall₂ (fun p e => Contributes c t actives p.1 ⟨p.2⟩ e) parties es ∧
      total c l es = .ok s

variable [ReducedElement E] [ChainView C E]

/-- Every share of a quorum counts: if a member replaces its share, then an element is
reconstructed again, and it differs from the one before exactly at the positions at which
the share was changed. -/
def SharesCount (c : C) (l : L) : Prop :=
  ∀ (t : Nat) (actives : List PublicPoint) (parties : List (PublicPoint × E)) (s : E) (n : Nat)
    (x : PublicPoint) (a v : E),
      (∀ p ∈ parties, ∃ r, SharingPolynomial.pointScalar c p.1 = .ok r) →
        (∀ p ∈ parties, ElementAt c l p.2) → ElementAt c l v →
          Reconstructs c l t actives parties s → parties[n]? = some (x, a) →
            (∃ s', Reconstructs c l t actives (parties.set n (x, v)) s') ∧
              ∀ s', Reconstructs c l t actives (parties.set n (x, v)) s' → (s' = s ↔ v = a) ∧
                ∀ (i : Nat) (q : Modulus) (j : Nat), (moduli c)[i]? = some q →
                  (coefficient c s' i j = coefficient c s i j ↔
                    coefficient c v i j = coefficient c a i j)

variable [LawfulChain C E L] {c : C} {l : L} {t : Nat} {actives : List PublicPoint}
  {parties : List (PublicPoint × E)} {s s' a v : E} {x : PublicPoint} {n : Nat}

/-- A member that contributes for one share can do so for every other one. -/
theorem Contributes.exists_other {share : Share E} {e : E} (hc : Built c)
    (hshare : ElementAt c l share.value) (ha : ElementAt c l a)
    (h : Contributes c t actives x share e) : ∃ e', Contributes c t actives x ⟨a⟩ e' := by
  obtain ⟨-, ⟨z, hz⟩, -⟩ := contribution_spec hc hshare h
  rcases h with ⟨others, combiner, combiner', hmake, hrun⟩
  obtain ⟨hsound, rfl, rfl, -⟩ := Combiner.sound_of_make hc hmake
  obtain ⟨-, members, -, -, hquorum, -⟩ := Combiner.additive_eq_ok hsound hshare.valid hrun
  have hother : ElementAt combiner.chain l (Share.mk a).value := ha
  obtain ⟨e', w, hw, -⟩ := Combiner.run_additive_of_level hsound
    (Combiner.quorum_of_quorumOf hquorum) hother hz
  exact ⟨e', others, combiner, w, hmake, hw⟩

/-- What is reconstructed is the sum of the shares times the products of factors, and the
members are apart. -/
theorem Reconstructs.spec (hc : Built c) (hparties : ∀ p ∈ parties, ElementAt c l p.2)
    (h : Reconstructs c l t actives parties s) :
    (∃ z, zeroAt c l = .ok z) ∧ ElementAt c l s ∧
      (∀ p ∈ parties, ∀ y ∈ actives.take t, y ≠ p.1 → y.Apart (moduli c) p.1) ∧
        ∀ (i : Nat) (q : Modulus) (j : Nat), (moduli c)[i]? = some q →
          classAt c s q i j = (parties.map fun p =>
            classAt c p.2 q i j * Combiner.productClasses p.1 (actives.take t) q).sum := by
  obtain ⟨-, es, hes, htotal⟩ := h
  obtain ⟨z, hz, -⟩ := Outcome.bind_eq_ok.mp htotal
  have hspec : List.Forall₂ (fun p e =>
      (∀ y ∈ actives.take t, y ≠ p.1 → y.Apart (moduli c) p.1) ∧ ElementAt c l e ∧
        ∀ (i : Nat) (q : Modulus) (j : Nat), (moduli c)[i]? = some q →
          classAt c e q i j = classAt c p.2 q i j *
            Combiner.productClasses p.1 (actives.take t) q) parties es := by
    apply ((List.forall₂_and_left parties es).mpr ⟨hparties, hes⟩).imp
    rintro p e ⟨hat, hcontributes⟩
    obtain ⟨⟨-, hapart⟩, -, heAt, hclass⟩ := contribution_spec hc hat hcontributes
    exact ⟨hapart, heAt, hclass⟩
  obtain ⟨r, hr, hrAt, hsum⟩ := total_of_classes hc hz (hspec.imp fun _ _ h => h.2)
  obtain rfl : r = s := Except.ok.inj (hr.symm.trans htotal)
  refine ⟨⟨z, hz⟩, hrAt, fun p hp => ?_, hsum⟩
  obtain ⟨e, -, hapart, -⟩ := exists_mem_of_forall₂ hspec hp
  exact hapart

/-- Whatever their shares are, members that reconstruct an element once do it again. -/
theorem Reconstructs.exists_other {parties' : List (PublicPoint × E)} (hc : Built c)
    (hparties : ∀ p ∈ parties, ElementAt c l p.2) (h : Reconstructs c l t actives parties s)
    (hsame : parties'.map Prod.fst = parties.map Prod.fst)
    (hparties' : ∀ p ∈ parties', ElementAt c l p.2) :
    ∃ s', Reconstructs c l t actives parties' s' := by
  obtain ⟨⟨z, hz⟩, -⟩ := h.spec hc hparties
  obtain ⟨hmembers, es, hes, -⟩ := h
  have hcontributes : ∀ p ∈ parties', ∃ e, Contributes c t actives p.1 ⟨p.2⟩ e ∧
      ElementAt c l e := by
    intro p hp
    have hmem : p.1 ∈ parties.map Prod.fst := hsame ▸ List.mem_map_of_mem hp
    obtain ⟨p', hp', hpoint⟩ := List.mem_map.mp hmem
    obtain ⟨e, -, he⟩ := exists_mem_of_forall₂ hes hp'
    obtain ⟨e', he'⟩ := he.exists_other hc (hparties p' hp') (hparties' p hp)
    rw [hpoint] at he'
    obtain ⟨-, -, heAt, -⟩ := contribution_spec hc (hparties' p hp) he'
    exact ⟨e', he', heAt⟩
  obtain ⟨es', hes'⟩ := exists_forall₂ hcontributes
  have hat : ∀ e ∈ es', ElementAt c l e := by
    intro e he
    obtain ⟨p, -, -, heAt⟩ := exists_mem_of_forall₂ hes'.flip he
    exact heAt
  obtain ⟨s', hs', -⟩ := total_of_elementAt hc hz hat
  exact ⟨s', hsame.trans hmembers, es', hes'.imp fun _ _ he => he.1, hs'⟩

/-- Replacing a share changes the sum by the change of the share, times the product of the
factors of the member. -/
theorem Reconstructs.classAt_set {i : Nat} {q : Modulus} (hc : Built c)
    (hparties : ∀ p ∈ parties, ElementAt c l p.2) (hv : ElementAt c l v)
    (h : Reconstructs c l t actives parties s)
    (h' : Reconstructs c l t actives (parties.set n (x, v)) s') (hn : parties[n]? = some (x, a))
    (hq : (moduli c)[i]? = some q) (j : Nat) :
    classAt c s' q i j = classAt c s q i j + (classAt c v q i j - classAt c a q i j) *
      Combiner.productClasses x (actives.take t) q := by
  have hparties' := elementAt_set (x := x) (n := n) hparties hv
  obtain ⟨-, -, -, hsum⟩ := h.spec hc hparties
  obtain ⟨-, -, -, hsum'⟩ := h'.spec hc hparties'
  obtain ⟨hlt, hget⟩ := List.getElem?_eq_some_iff.mp hn
  rw [hsum i q j hq, hsum' i q j hq, List.map_set, List.sum_set', dif_pos (by simpa using hlt),
    List.getElem_map, hget]
  ring

/-- No product of factors of a member vanishes if a dealer accepts all of them. -/
theorem Reconstructs.productClasses_ne_zero (hc : Built c)
    (hexact : Modulus.PrimalityExact (moduli c))
    (hpoints : ∀ p ∈ parties, ∃ r, SharingPolynomial.pointScalar c p.1 = .ok r)
    (hparties : ∀ p ∈ parties, ElementAt c l p.2) (h : Reconstructs c l t actives parties s)
    {p : PublicPoint × E} (hp : p ∈ parties) :
    ∀ q ∈ moduli c, Combiner.productClasses p.1 (actives.take t) q ≠ 0 := by
  obtain ⟨-, -, hapart, -⟩ := h.spec hc hparties
  intro q hq
  apply RingShamir.productClasses_ne_zero (prime_of_mem hc hexact hq) hq (hapart p hp)
  intro y hy
  rw [← h.1] at hy
  obtain ⟨p, hp, rfl⟩ := List.mem_map.mp hy
  obtain ⟨r, hr⟩ := hpoints p hp
  exact SharingPolynomial.admissible_of_pointScalar hc hr

/-- Replacing a share changes what is reconstructed exactly at the positions at which the share
is changed. -/
theorem Reconstructs.coefficient_set_iff {i : Nat} {q : Modulus} (hc : Built c)
    (hexact : Modulus.PrimalityExact (moduli c))
    (hpoints : ∀ p ∈ parties, ∃ r, SharingPolynomial.pointScalar c p.1 = .ok r)
    (hparties : ∀ p ∈ parties, ElementAt c l p.2) (hv : ElementAt c l v)
    (h : Reconstructs c l t actives parties s)
    (h' : Reconstructs c l t actives (parties.set n (x, v)) s') (hn : parties[n]? = some (x, a))
    (hq : (moduli c)[i]? = some q) (j : Nat) :
    coefficient c s' i j = coefficient c s i j ↔ coefficient c v i j = coefficient c a i j := by
  have hmem : (x, a) ∈ parties := List.mem_of_getElem? hn
  have hmemq := List.mem_of_getElem? hq
  obtain ⟨-, hs, -, -⟩ := h.spec hc hparties
  obtain ⟨-, hs', -, -⟩ := h'.spec hc (elementAt_set hparties hv)
  have hproduct := h.productClasses_ne_zero hc hexact hpoints hparties hmem q hmemq
  have := Fact.mk (prime_of_mem hc hexact hmemq)
  rw [← classAt_inj hc hs' hs hq, ← classAt_inj hc hv (hparties _ hmem) hq,
    h.classAt_set hc hparties hv h' hn hq, add_eq_left, mul_eq_zero, or_iff_left hproduct,
    sub_eq_zero]

theorem sharesCount_of_laws (hc : Built c) (hexact : Modulus.PrimalityExact (moduli c)) :
    SharesCount c l := by
  intro t actives parties s n x a v hpoints hparties hv h hn
  have ha : ElementAt c l a := hparties _ (List.mem_of_getElem? hn)
  have hparties' := elementAt_set (x := x) (n := n) hparties hv
  refine ⟨h.exists_other hc hparties (map_fst_set hn) hparties', fun s' h' => ?_⟩
  have hposition : ∀ (i : Nat) (q : Modulus) (j : Nat), (moduli c)[i]? = some q →
      (coefficient c s' i j = coefficient c s i j ↔ coefficient c v i j = coefficient c a i j) :=
    fun i q j hq => h.coefficient_set_iff hc hexact hpoints hparties hv h' hn hq j
  refine ⟨⟨fun hsame => ?_, fun hsame => ?_⟩, hposition⟩
  · apply LawfulChain.ext hc hv ha
    intro i q j hq
    exact (hposition i q j hq).mp (by rw [hsame])
  · obtain ⟨-, hs, -, -⟩ := h.spec hc hparties
    obtain ⟨-, hs', -, -⟩ := h'.spec hc hparties'
    apply LawfulChain.ext hc hs' hs
    intro i q j hq
    exact (hposition i q j hq).mpr (by rw [hsame])

end Quorums

/-- Combination is linear: for every quorum that a combiner accepts, and every level. -/
structure CombinationLinear (C : Type) {E L : Type} [ResidueElement E] [ResidueChain C E L]
    [DecidableEq L] [ReducedElement E] [ChainView C E] : Prop where
  /-- Combining is additive, and a bijection if no member vanishes. -/
  combines : ∀ (c : C) (own : PublicPoint) (others : List PublicPoint) (t : Nat) (k : Combiner C)
    (actives members : List PublicPoint) (l : L), Built c → Combiner.make c own others t = .ok k →
      k.quorum actives own = .ok members → Combiner.CombinesLinearly k actives members l
  /-- The share of every member counts. -/
  counts : ∀ (c : C) (l : L), Built c → Modulus.PrimalityExact (moduli c) → SharesCount c l

theorem combinationLinear_of_laws {C E L : Type} [ResidueElement E] [ResidueChain C E L]
    [DecidableEq L] [ReducedElement E] [ChainView C E] [LawfulChain C E L] :
    CombinationLinear C where
  combines c own others t k actives members l hc hk hmembers := by
    obtain ⟨hsound, -, rfl, -⟩ := Combiner.sound_of_make hc hk
    exact Combiner.combinesLinearly_of_sound hsound hmembers
  counts c l hc hexact := sharesCount_of_laws hc hexact

/-- Combination is linear, over the chains of a single basis and over those of two bases. -/
theorem combination_linear : CombinationLinear PlainChain ∧ CombinationLinear ExtendedChain :=
  ⟨combinationLinear_of_laws, combinationLinear_of_laws⟩

section FiveSeven

open PlainChain

/-- The shares that the points two and one have of the line. -/
def partiesOfLine : List (PublicPoint × RnsPoly) :=
  threePoints.zip
    [elementOverFiveSeven [[3, 0, 4, 2, 0, 3, 1, 4], [4, 1, 5, 6, 6, 3, 0, 4]],
      elementOverFiveSeven [[2, 1, 1, 3, 0, 2, 4, 1], [5, 3, 1, 1, 4, 2, 0, 5]]]

/-- The first share with another constant coefficient modulo seven. -/
def alteredShare : RnsPoly :=
  elementOverFiveSeven [[3, 0, 4, 2, 0, 3, 1, 4], [3, 1, 5, 6, 6, 3, 0, 4]]

theorem reconstructs_partiesOfLine :
    Reconstructs fiveSeven 1 2 threePoints partiesOfLine lineOverFiveSeven.secret := by
  refine ⟨rfl, [elementOverFiveSeven [[2, 0, 1, 3, 0, 2, 4, 1], [3, 6, 2, 1, 1, 4, 0, 3]],
    elementOverFiveSeven [[4, 2, 2, 1, 0, 4, 3, 2], [3, 6, 2, 2, 1, 4, 0, 3]]],
    .cons ?_ (.cons ?_ .nil), by decide +kernel⟩
  · exact contributes_of_ending threePoints (by decide +kernel)
  · exact contributes_of_ending threePoints (by decide +kernel)

/-- With the altered share another element is reconstructed, whose constant coefficient
differs from that of the secret modulo seven and not modulo five. -/
theorem combination_linear_partiesOfLine :
    ∃ s, Reconstructs fiveSeven 1 2 threePoints
        (partiesOfLine.set 0 (⟨2, by decide⟩, alteredShare)) s ∧
      s ≠ lineOverFiveSeven.secret ∧
      coefficient fiveSeven s 0 0 = coefficient fiveSeven lineOverFiveSeven.secret 0 0 ∧
      coefficient fiveSeven s 1 0 ≠ coefficient fiveSeven lineOverFiveSeven.secret 1 0 := by
  have hparties : ∀ p ∈ partiesOfLine, ElementAt fiveSeven 1 p.2 := by
    intro p hp
    rcases List.mem_pair.mp hp with rfl | rfl
    · exact elementAt_fiveSeven (by decide +kernel)
    · exact elementAt_fiveSeven (by decide +kernel)
  have hpoints : ∀ p ∈ partiesOfLine, ∃ r, SharingPolynomial.pointScalar fiveSeven p.1 = .ok r := by
    intro p hp
    rcases List.mem_pair.mp hp with rfl | rfl
    · exact ⟨_, rfl⟩
    · exact ⟨_, rfl⟩
  have haltered : ElementAt fiveSeven 1 alteredShare := elementAt_fiveSeven (by decide +kernel)
  have hcounts := combination_linear.1.counts fiveSeven 1 fiveSeven_built primalityExact_fiveSeven
  obtain ⟨⟨s, hs⟩, hchanges⟩ := hcounts 2 threePoints partiesOfLine _ 0 _ _ alteredShare hpoints
    hparties haltered reconstructs_partiesOfLine rfl
  obtain ⟨hsame, hposition⟩ := hchanges s hs
  refine ⟨s, hs, fun h => absurd (hsame.mp h) (by decide +kernel), ?_, fun h => ?_⟩
  · exact (hposition 0 (.withConstants 5) 0 rfl).mpr (by decide +kernel)
  · exact absurd ((hposition 1 (.withConstants 7) 0 rfl).mp h) (by decide +kernel)

end FiveSeven

end RingShamir
