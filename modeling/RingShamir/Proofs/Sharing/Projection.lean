import RingShamir.Proofs.Chain.Encoding
import RingShamir.Proofs.Chain.Projection
import RingShamir.Proofs.Sharing.Memoryless

/-!
# Projections of sharing

Forgetting rows of ring elements commutes with sharing: where a share, a sum or an
additive share is calculated over a chain, the same calculation on what is left of
its inputs succeeds and gives what is left of its result.  A combiner over fewer
moduli has the first limbs of the scalars of a combiner over more of them.

Main results:

- Definition `Combiner.restrict` and theorem `make_restrict`: the combiner over the
  first moduli of a chain.
- Theorems `shareAt_projection`, `addInto_projection`, `addAssign_projection` and
  `additive_projection`: each calculation commutes with a projection.
- Definition `SharingProjects` and theorem `sharing_projects`: the projections of
  extended chains to their main bases, and of all levels to lower ones.
-/

namespace RingShamir

open ResidueChain

/-! ## Combiners over the first moduli -/

namespace FactorTable

/-- Change all factors. -/
def map (f : Scalar → Scalar) (t : FactorTable) : FactorTable :=
  ⟨t.entries.map fun entry => (entry.1, f entry.2)⟩

@[simp] theorem map_empty (f : Scalar → Scalar) : empty.map f = empty := rfl

@[simp] theorem map_insert (f : Scalar → Scalar) (t : FactorTable) (x : PublicPoint)
    (s : Scalar) : (t.insert x s).map f = (t.map f).insert x (f s) := rfl

@[simp] theorem factor?_map (f : Scalar → Scalar) (t : FactorTable) (x : PublicPoint) :
    (t.map f).factor? x = (t.factor? x).map f := by
  simp only [factor?, map, List.find?_map, Option.map_map]
  rfl

end FactorTable

namespace Combiner

section Restriction

variable {qs : List Modulus} {own x : PublicPoint} {s ownScalar : Scalar} {t t' : FactorTable}

theorem pointScalar_first (n : Nat) (h : pointScalar qs x = .ok s) :
    pointScalar (qs.take n) x = .ok (s.first n) := by
  rw [pointScalar, ← Scalar.first_ofWord]
  exact Scalar.toMontgomery_first n h

theorem factorOf_first (n : Nat) (h : factorOf qs ownScalar x = .ok s) :
    factorOf (qs.take n) (ownScalar.first n) x = .ok (s.first n) := by
  simp only [factorOf, Outcome.bind_eq_ok] at h
  rcases h with ⟨other, hother, difference, hdifference, o, ho, h⟩
  cases o with
  | none => cases h
  | some inverse =>
      simp only [factorOf, pointScalar_first n hother, Scalar.sub_first n hdifference,
        Scalar.inverse_first n ho, Outcome.ok_bind, Scalar.mul_first n h]

theorem enterFactors_first (n : Nat) {xs : List PublicPoint}
    (h : enterFactors qs ownScalar xs t = .ok t') :
    enterFactors (qs.take n) (ownScalar.first n) xs (t.map (Scalar.first n)) =
      .ok (t'.map (Scalar.first n)) := by
  induction xs generalizing t with
  | nil =>
      obtain rfl : t = t' := Except.ok.inj h
      rfl
  | cons x xs ih =>
      rcases Outcome.bind_eq_ok.mp h with ⟨s, hs, h⟩
      rw [enterFactors, factorOf_first n hs, Outcome.ok_bind, ← FactorTable.map_insert, ih h]

variable {C E L C' E' L' : Type} [ResidueChain C E L] [ResidueChain C' E' L'] {c : C} {c' : C'}

/-- The combiner over a chain with fewer moduli, which has the first limbs of all
scalars. -/
def restrict (c' : C') (K : Combiner C) : Combiner C' where
  chain := c'
  own := K.own
  threshold := K.threshold
  one := K.one.first (moduli c').length
  scratch := K.scratch.first (moduli c').length
  factors := K.factors.map (Scalar.first (moduli c').length)

@[simp] theorem factor?_restrict (c' : C') (K : Combiner C) (x : PublicPoint) :
    (K.restrict c').factor? x = (K.factor? x).map (Scalar.first (moduli c').length) :=
  FactorTable.factor?_map _ _ _

/-- Where a combiner can be made, one over the first moduli can be made, and its
scalars have the first limbs. -/
theorem make_restrict {others : List PublicPoint} {threshold : Nat} {K : Combiner C}
    (hinitial : moduli c' <+: moduli c) (h : make c own others threshold = .ok K) :
    make c' own others threshold = .ok (K.restrict c') := by
  have hqs : moduli c' = (moduli c).take (moduli c').length :=
    List.prefix_iff_eq_take.mp hinitial
  unfold make at h
  split at h
  · cases h
  · rename_i hthreshold
    rcases Outcome.bind_eq_ok.mp h with ⟨ownScalar, hown, h⟩
    rcases Outcome.bind_eq_ok.mp h with ⟨factors, hfactors, h⟩
    rcases Outcome.bind_eq_ok.mp h with ⟨one, hone, h⟩
    obtain rfl := Except.ok.inj h
    have hown' := pointScalar_first (moduli c').length hown
    have hfactors' := enterFactors_first (moduli c').length hfactors
    have hone' := Scalar.toMontgomery_first (moduli c').length hone
    rw [← hqs] at hown' hfactors'
    rw [Scalar.first_ofWord, ← hqs] at hone'
    have hzero : Scalar.zero (moduli c') = (Scalar.zero (moduli c)).first (moduli c').length := by
      rw [Scalar.zero, Scalar.zero, Scalar.first, List.take_replicate,
        Nat.min_eq_left hinitial.length_le]
    rw [FactorTable.map_empty] at hfactors'
    simp only [make, if_neg hthreshold, hown', hfactors', Scalar.one, hone', hzero,
      Outcome.ok_bind]
    rfl

theorem checkMembers_restrict (c' : C') (K : Combiner C) (own : PublicPoint)
    (seen xs : List PublicPoint) :
    (K.restrict c').checkMembers own seen xs = K.checkMembers own seen xs := by
  induction xs generalizing seen with
  | nil => rfl
  | cons x xs ih => simp only [checkMembers, factor?_restrict, Option.isNone_map, ih]

theorem quorum_restrict (c' : C') (K : Combiner C) (actives : List PublicPoint)
    (own : PublicPoint) : (K.restrict c').quorum actives own = K.quorum actives own := by
  simp only [quorum, checkMembers_restrict]
  rfl

end Restriction

/-- A call that succeeds has a quorum and a share on the chain. -/
theorem checked_of_additive {C E L : Type} [ResidueChain C E L] [DecidableEq L]
    {K K' : Combiner C} {actives : List PublicPoint} {own : PublicPoint} {share : Share E} {e : E}
    (h : EStateM.run (additive actives own share) K = .ok e K') :
    (∃ members, K.quorum actives own = .ok members) ∧
      ∃ l, levelOf K.chain share.value = .ok l := by
  simp only [additive, Action.run_bind_eq_ok, EStateM.run_get, EStateM.Result.ok.injEq,
    Action.run_lift_eq_ok] at h
  rcases h with ⟨K, _, ⟨rfl, rfl⟩, members, _, ⟨hmembers, -⟩, l, _, ⟨hl, -⟩, -⟩
  exact ⟨⟨members, hmembers⟩, l, Share.levelOf_eq_ok.mp hl⟩

end Combiner

/-! ## Sharing under a projection -/

/-- The projection of a share. -/
def Share.map {E E' : Type} (π : E → E') (s : Share E) : Share E' :=
  ⟨π s.value⟩

/-- The projection of a polynomial. -/
def SharingPolynomial.map {E E' : Type} (π : E → E') (p : SharingPolynomial E) :
    SharingPolynomial E' where
  secret := π p.secret
  masks := p.masks.map π

theorem SharingPolynomial.coefficients_map {E E' : Type} (π : E → E')
    (p : SharingPolynomial E) : (p.map π).coefficients = p.coefficients.map π := rfl

section Classes

variable {C E L C' E' L' : Type} [ResidueChain C E L] [ReducedElement E] [ChainView C E]
  [ResidueChain C' E' L'] [ReducedElement E'] [ChainView C' E'] {c : C} {l : L} {c' : C'}
  {l' : L'} {π : E → E'} {kept : Nat → Prop}

/-- At a position that is kept the class polynomials agree. -/
theorem classPolynomial_kept (hπ : Projection c l c' l' π kept) {p : SharingPolynomial E}
    (hp : ∀ e ∈ p.coefficients, ElementAt c l e) {i : Nat} {q : Modulus}
    (hq : (moduli c')[i]? = some q) (hi : kept i) (j : Nat) :
    SharingPolynomial.classPolynomial c' (p.map π) q i j =
      SharingPolynomial.classPolynomial c p q i j := by
  rw [SharingPolynomial.classPolynomial, SharingPolynomial.coefficients_map, List.map_map]
  apply congrArg ascending
  apply List.map_congr_left
  intro e he
  exact hπ.classAt_kept e i q j (hp e he) hq hi

/-- At the other positions the class polynomial is zero. -/
theorem classPolynomial_dropped (hπ : Projection c l c' l' π kept) {p : SharingPolynomial E}
    (hp : ∀ e ∈ p.coefficients, ElementAt c l e) {i : Nat} {q : Modulus}
    (hq : (moduli c')[i]? = some q) (hi : ¬kept i) (j : Nat) :
    SharingPolynomial.classPolynomial c' (p.map π) q i j = 0 := by
  have hzeros : ∀ es : List E, (∀ e ∈ es, ElementAt c l e) →
      ascending (es.map fun e => classAt c' (π e) q i j) = 0 := by
    intro es hes
    induction es with
    | nil => rfl
    | cons e es ih =>
        have hhead := hπ.classAt_dropped e i q j (hes e List.mem_cons_self) hq hi
        rw [List.map_cons, ascending_cons, hhead,
          ih fun e' he' => hes e' (List.mem_cons_of_mem e he')]
        simp
  rw [SharingPolynomial.classPolynomial, SharingPolynomial.coefficients_map, List.map_map]
  exact hzeros p.coefficients hp

/-- Sums of classes are kept or become zero together with their terms. -/
theorem sum_projection [ResidueElement E'] [LawfulChain C' E' L'] (hc' : Built c')
    (hπ : Projection c l c' l' π kept) {a b e : E} {v : E'} (ha : ElementAt c l a)
    (hb : ElementAt c l b) (he : ElementAt c l e) (hv : ElementAt c' l' v)
    (hsum : ∀ (i : Nat) (q : Modulus) (j : Nat), (moduli c)[i]? = some q →
      classAt c e q i j = classAt c a q i j + classAt c b q i j)
    (hsum' : ∀ (i : Nat) (q : Modulus) (j : Nat), (moduli c')[i]? = some q →
      classAt c' v q i j = classAt c' (π a) q i j + classAt c' (π b) q i j) : v = π e := by
  apply hπ.eq_of_classAt hc' he hv
  · intro i q j hq hi
    rw [hsum' i q j hq, hπ.classAt_kept a i q j ha hq hi, hπ.classAt_kept b i q j hb hq hi,
      hsum i q j (hπ.getElem?_moduli hq)]
  · intro i q j hq hi
    rw [hsum' i q j hq, hπ.classAt_dropped a i q j ha hq hi,
      hπ.classAt_dropped b i q j hb hq hi, add_zero]

end Classes

section Laws

variable {C E L C' E' L' : Type} [ResidueElement E] [ResidueChain C E L] [ReducedElement E]
  [ChainView C E] [LawfulChain C E L] [DecidableEq L] [ResidueElement E']
  [ResidueChain C' E' L'] [ReducedElement E'] [ChainView C' E'] [LawfulChain C' E' L']
  [DecidableEq L'] {c : C} {l : L} {c' : C'} {l' : L'} {π : E → E'} {kept : Nat → Prop}
  {x : PublicPoint}

/-- The share of what is left of a polynomial is what is left of its share. -/
theorem shareAt_projection (hc : Built c) (hc' : Built c') (hπ : Projection c l c' l' π kept)
    {p : SharingPolynomial E} {share : Share E} (hp : ∀ e ∈ p.coefficients, ElementAt c l e)
    (h : SharingPolynomial.shareAt c x p = .ok share) :
    SharingPolynomial.shareAt c' x (p.map π) = .ok (share.map π) := by
  have hx : x.Admissible (moduli c') := fun q hq =>
    SharingPolynomial.admissible_of_shareAt hc h q (hπ.moduli_isPrefix.subset hq)
  have hp' : ∀ e ∈ (p.map π).coefficients, ElementAt c' l' e := by
    intro e he
    rw [SharingPolynomial.coefficients_map] at he
    rcases List.mem_map.mp he with ⟨a, ha, rfl⟩
    exact hπ.elementAt a (hp a ha)
  obtain ⟨hat, hvalue⟩ := SharingPolynomial.classAt_of_shareAt hc hp h
  obtain ⟨share', hshare', hat', hvalue'⟩ := SharingPolynomial.shareAt_of_admissible hc' hp' hx
  have hsame : share'.value = π share.value := by
    apply hπ.eq_of_classAt hc' hat hat'
    · intro i q j hq hi
      rw [hvalue' i q j hq, classPolynomial_kept hπ hp hq hi,
        hvalue i q j (hπ.getElem?_moduli hq)]
    · intro i q j hq hi
      rw [hvalue' i q j hq, classPolynomial_dropped hπ hp hq hi, Polynomial.eval_zero]
  rw [hshare']
  exact congrArg Except.ok (Share.ext hsame)

theorem addInto_projection (hc : Built c) (hc' : Built c') (hπ : Projection c l c' l' π kept)
    {a b out s : Share E} (ha : ElementAt c l a.value) (hb : ElementAt c l b.value)
    (hout : ElementAt c l out.value) (h : EStateM.run (Share.addInto c a b) out = .ok () s) :
    EStateM.run (Share.addInto c' (a.map π) (b.map π)) (out.map π) = .ok () (s.map π) := by
  obtain ⟨s', hs', hat, hsum⟩ := Share.run_addInto hc ha hb hout
  obtain ⟨-, rfl⟩ := EStateM.Result.ok.inj (hs'.symm.trans h)
  have hout' : ElementAt c' l' (out.map π).value := hπ.elementAt _ hout
  obtain ⟨r, hr, hrat, hrsum⟩ := Share.run_addInto (a := a.map π) (b := b.map π) hc'
    (hπ.elementAt _ ha) (hπ.elementAt _ hb) hout'
  have hsame : r = s'.map π := Share.ext (sum_projection hc' hπ ha hb hat hrat hsum hrsum)
  rw [hr, hsame]

theorem addAssign_projection (hc : Built c) (hc' : Built c') (hπ : Projection c l c' l' π kept)
    {a b s : Share E} (ha : ElementAt c l a.value) (hb : ElementAt c l b.value)
    (h : EStateM.run (Share.addAssign c b) a = .ok () s) :
    EStateM.run (Share.addAssign c' (b.map π)) (a.map π) = .ok () (s.map π) := by
  obtain ⟨s', hs', hat, hsum⟩ := Share.run_addAssign hc ha hb
  obtain ⟨-, rfl⟩ := EStateM.Result.ok.inj (hs'.symm.trans h)
  obtain ⟨r, hr, hrat, hrsum⟩ := Share.run_addAssign (a := a.map π) (b := b.map π) hc'
    (hπ.elementAt _ ha) (hπ.elementAt _ hb)
  have hsame : r = s'.map π := Share.ext (sum_projection hc' hπ ha hb hat hrat hsum hrsum)
  rw [hr, hsame]

/-- The additive share of what is left of a share is what is left of its additive
share, for combiners that may have answered other calls before. -/
theorem additive_projection (hc : Built c) (hc' : Built c') (hπ : Projection c l c' l' π kept)
    {own : PublicPoint} {others : List PublicPoint} {t : Nat} {K K₁ : Combiner C}
    (hK : Combiner.make c own others t = .ok K) {before : List (Combiner.Call E)}
    {before' : List (Combiner.Call E')} {actives : List PublicPoint} {share : Share E} {e : E}
    (hshare : ElementAt c l share.value)
    (h : EStateM.run (Combiner.additive actives x share) (K.after before) = .ok e K₁) :
    ∃ K₁', EStateM.run (Combiner.additive actives x (share.map π))
      ((K.restrict c').after before') = .ok (π e) K₁' := by
  have hK' := Combiner.make_restrict hπ.moduli_isPrefix hK
  obtain ⟨hsound, rfl, -⟩ := Combiner.sound_of_make hc hK
  obtain ⟨hsound', -⟩ := Combiner.sound_of_make hc' hK'
  obtain ⟨s, hs, hlength⟩ := K.after_eq_withScratch before
  obtain ⟨s', hs', hlength'⟩ := (K.restrict c').after_eq_withScratch before'
  rw [hs] at h
  rw [hs']
  obtain ⟨⟨members, hmembers⟩, -⟩ := Combiner.checked_of_additive h
  obtain ⟨-, members', l₀, z, hquorum, hz, hadditive⟩ :=
    Combiner.additive_eq_ok (hsound.setScratch (hlength.trans hsound.scratch)) hshare.valid h
  obtain rfl : members = members' :=
    (Combiner.quorum_eq_ok hmembers).1.trans hquorum.members_eq.symm
  obtain rfl : l = l₀ := Except.ok.inj (hshare.level.symm.trans hadditive.share_level.level)
  obtain ⟨z', hz'⟩ := hπ.zeroAt z hz
  have hmembers' : ((K.restrict c').withScratch s').quorum actives x = .ok members := by
    rw [Combiner.quorum_withScratch, Combiner.quorum_restrict, ← hmembers,
      Combiner.quorum_withScratch]
  have hshare' : ElementAt c' l' (share.map π).value := hπ.elementAt _ hshare
  obtain ⟨v, K₁', hrun, hadditive'⟩ := Combiner.run_additive_of_level
    (hsound'.setScratch (hlength'.trans hsound'.scratch)) hmembers' hshare' hz'
  have hsame : v = π e := by
    apply hπ.eq_of_classAt hc' hadditive.elementAt hadditive'.elementAt
    · intro i q j hq hi
      rw [hadditive.classAt_eq i q j (hπ.getElem?_moduli hq)]
      exact (hadditive'.classAt_eq i q j hq).trans
        (congrArg (· * _) (hπ.classAt_kept _ i q j hshare hq hi))
    · intro i q j hq hi
      refine (hadditive'.classAt_eq i q j hq).trans ?_
      exact (congrArg (· * _) (hπ.classAt_dropped _ i q j hshare hq hi)).trans (zero_mul _)
  exact ⟨K₁', hsame ▸ hrun⟩

/-! ## All calculations -/

/-- Calculations on the elements of a domain commute with a function: where one over
the first chain succeeds, the same one over the second chain succeeds on the images
and gives the image of the result.  The combiners are made of the same points, and
each may have answered calls of its own before. -/
structure SharingProjects (c : C) (c' : C') (π : E → E') (Domain : E → Prop) : Prop where
  /-- The share of a point. -/
  shareAt : ∀ (x : PublicPoint) (p : SharingPolynomial E) (share : Share E),
    (∀ e ∈ p.coefficients, Domain e) → SharingPolynomial.shareAt c x p = .ok share →
      SharingPolynomial.shareAt c' x (p.map π) = .ok (share.map π)
  /-- The sum of two shares. -/
  addInto : ∀ a b out s : Share E, Domain a.value → Domain b.value → Domain out.value →
    EStateM.run (Share.addInto c a b) out = .ok () s →
      EStateM.run (Share.addInto c' (a.map π) (b.map π)) (out.map π) = .ok () (s.map π)
  /-- The sum of two shares in place. -/
  addAssign : ∀ a b s : Share E, Domain a.value → Domain b.value →
    EStateM.run (Share.addAssign c b) a = .ok () s →
      EStateM.run (Share.addAssign c' (b.map π)) (a.map π) = .ok () (s.map π)
  /-- The additive share of a share. -/
  additive : ∀ (own : PublicPoint) (others : List PublicPoint) (t : Nat) (K : Combiner C)
    (K' : Combiner C'), Combiner.make c own others t = .ok K →
      Combiner.make c' own others t = .ok K' → ∀ (before : List (Combiner.Call E))
        (before' : List (Combiner.Call E')) (actives : List PublicPoint) (x : PublicPoint)
        (share : Share E) (e : E) (K₁ : Combiner C), Domain share.value →
          EStateM.run (Combiner.additive actives x share) (K.after before) = .ok e K₁ →
            ∃ K₁', EStateM.run (Combiner.additive actives x (share.map π)) (K'.after before') =
              .ok (π e) K₁'

/-- A function commutes with all calculations on a domain if it is a projection from
every level of the domain. -/
theorem sharingProjects_of_projections {Domain : E → Prop} (hc : Built c) (hc' : Built c')
    (hvalid : ∀ e, Domain e → Valid e)
    (hπ : ∀ (l : L) e, Domain e → ElementAt c l e → ∃ l' kept, Projection c l c' l' π kept) :
    SharingProjects c c' π Domain where
  shareAt x p share hp h := by
    obtain ⟨⟨l, hl⟩, -⟩ := SharingPolynomial.shareAt_eq_ok.mp h
    have hat : ∀ e ∈ p.coefficients, ElementAt c l e := fun e he =>
      ⟨hvalid e (hp e he), SharingPolynomial.level_eq_ok.mp hl e he⟩
    have hmem : p.secret ∈ p.coefficients := List.mem_cons_self
    obtain ⟨l', kept, hπ⟩ := hπ l p.secret (hp _ hmem) (hat _ hmem)
    exact shareAt_projection hc hc' hπ hat h
  addInto a b out s ha hb hout h := by
    have hlevel : ∃ l, levelOf c a.value = .ok l ∧ levelOf c b.value = .ok l ∧
        levelOf c out.value = .ok l := by
      by_contra hnone
      obtain ⟨err, herr, -⟩ := Share.run_addInto_fault hnone
      rw [h] at herr
      cases herr
    rcases hlevel with ⟨l, hal, hbl, hol⟩
    have hat : ElementAt c l a.value := ⟨hvalid _ ha, hal⟩
    obtain ⟨l', kept, hπ⟩ := hπ l a.value ha hat
    exact addInto_projection hc hc' hπ hat ⟨hvalid _ hb, hbl⟩ ⟨hvalid _ hout, hol⟩ h
  addAssign a b s ha hb h := by
    have hlevel : ∃ l, levelOf c a.value = .ok l ∧ levelOf c b.value = .ok l := by
      by_contra hnone
      obtain ⟨err, herr, -⟩ := Share.run_addAssign_fault hnone
      rw [h] at herr
      cases herr
    rcases hlevel with ⟨l, hal, hbl⟩
    have hat : ElementAt c l a.value := ⟨hvalid _ ha, hal⟩
    obtain ⟨l', kept, hπ⟩ := hπ l a.value ha hat
    exact addAssign_projection hc hc' hπ hat ⟨hvalid _ hb, hbl⟩ h
  additive own others t K K' hK hK' before before' actives x share e K₁ hshare h := by
    have hlevel : ∃ l, levelOf c share.value = .ok l := by
      obtain ⟨s, hafter, -⟩ := K.after_eq_withScratch before
      obtain ⟨-, l, hl⟩ := Combiner.checked_of_additive h
      rw [hafter, Combiner.chain_withScratch, (Combiner.sound_of_make hc hK).2.1] at hl
      exact ⟨l, hl⟩
    rcases hlevel with ⟨l, hl⟩
    have hat : ElementAt c l share.value := ⟨hvalid _ hshare, hl⟩
    obtain ⟨l', kept, hπ⟩ := hπ l share.value hshare hat
    obtain rfl : K.restrict c' = K' :=
      Except.ok.inj ((Combiner.make_restrict hπ.moduli_isPrefix hK).symm.trans hK')
    exact additive_projection hc hc' hπ hK hat h

end Laws

/-- Sharing over an extended chain projects onto sharing over its main basis: the
main parts are calculated in the same way, and the factors of a combiner are the
first limbs.  Over both kinds of chains the first rows of elements of a level, up
to a lower level, are calculated in the same way as all of them, by the same
combiners. -/
theorem sharing_projects :
    (∀ c : ExtendedChain, Built c →
      SharingProjects c (PlainChain.mk c.main) ExtendedPoly.main Valid ∧
        ∀ (own : PublicPoint) (others : List PublicPoint) (t : Nat) (K : Combiner ExtendedChain),
          Combiner.make c own others t = .ok K →
            ∃ K', Combiner.make (PlainChain.mk c.main) own others t = .ok K' ∧
              ∀ x, K'.factor? x = (K.factor? x).map (Scalar.first c.main.operators.length)) ∧
      (∀ (c : PlainChain) (l l' : Nat), Built c → l' ≤ l →
        SharingProjects c c (RnsPoly.truncate l') (ElementAt c l)) ∧
        ∀ (c : ExtendedChain) (l l' : Nat × Option Nat), Built c →
          ExtendedChain.LowerLevel l' l →
            SharingProjects c c (ExtendedPoly.truncate l') (ElementAt c l) := by
  refine ⟨fun c hc => ⟨?_, ?_⟩, fun c l l' hc hle => ?_, fun c l l' hc hle => ?_⟩
  · have hmain : Built (PlainChain.mk c.main) := ExtendedChain.Built.main hc
    exact sharingProjects_of_projections hc hmain (fun _ he => he)
      fun l _ _ _ => ⟨l.1, _, ExtendedChain.projection_main hc⟩
  · intro own others t K hK
    have hinitial : moduli (PlainChain.mk c.main) <+: moduli c :=
      (ExtendedChain.projection_main (l := (0, none)) hc).moduli_isPrefix
    exact ⟨_, Combiner.make_restrict hinitial hK, Combiner.factor?_restrict _ K⟩
  · apply sharingProjects_of_projections hc hc fun _ he => he.valid
    intro l₀ e he he₀
    obtain rfl : l = l₀ := Except.ok.inj (he.level.symm.trans he₀.level)
    exact ⟨l', _, PlainChain.projection_truncate hc hle⟩
  · apply sharingProjects_of_projections hc hc fun _ he => he.valid
    intro l₀ e he he₀
    obtain rfl : l = l₀ := Except.ok.inj (he.level.symm.trans he₀.level)
    exact ⟨l', _, ExtendedChain.projection_truncate hc hle⟩

section FiveSeven

open PlainChain (fiveSeven fiveSeven_built oneOverFiveSeven elementAt_oneOverFiveSeven)

/-- The constant one with an auxiliary part. -/
def oneByEleven : ExtendedPoly where
  main := oneOverFiveSeven
  aux := some ⟨⟨[11], [.withConstants 11], 8, 11, none⟩, [[1, 0, 0, 0, 0, 0, 0, 0]]⟩

theorem elementAt_oneByEleven : ElementAt fiveSevenByEleven (1, some 0) oneByEleven := by
  have hbasis : RnsBasis.ofModuli [11] 8 = .ok ⟨[11], [.withConstants 11], 8, 11, none⟩ := by
    decide +kernel
  have hrows : ∀ p ∈ oneByEleven.aux, RnsPoly.ofRows p.basis p.rows = .ok p := by
    decide +kernel
  have haux : ∀ p ∈ oneByEleven.aux, RnsPoly.Valid p := by
    intro p hp
    obtain rfl := Option.some.inj hp
    exact (RnsPoly.valid_of_ofRows (RnsBasis.built_of_ofModuli hbasis) (hrows _ rfl)).1
  exact ⟨⟨elementAt_oneOverFiveSeven.valid, haux⟩, by decide +kernel⟩

/-- The share of a line with an auxiliary part, and what is left of it over the main
basis and at the lower level. -/
theorem sharing_projects_of_line :
    ∃ share, SharingPolynomial.shareAt fiveSevenByEleven ⟨2, by decide⟩
        ⟨oneByEleven, [oneByEleven]⟩ = .ok share ∧
      SharingPolynomial.shareAt fiveSeven ⟨2, by decide⟩
        ⟨oneOverFiveSeven, [oneOverFiveSeven]⟩ = .ok (share.map ExtendedPoly.main) ∧
      SharingPolynomial.shareAt fiveSevenByEleven ⟨2, by decide⟩
          ((SharingPolynomial.mk oneByEleven [oneByEleven]).map
            (ExtendedPoly.truncate (0, some 0))) =
        .ok (share.map (ExtendedPoly.truncate (0, some 0))) ∧
      SharingPolynomial.shareAt fiveSeven ⟨2, by decide⟩
          ((SharingPolynomial.mk oneOverFiveSeven [oneOverFiveSeven]).map
            (RnsPoly.truncate 0)) =
        .ok ((share.map ExtendedPoly.main).map (RnsPoly.truncate 0)) := by
  obtain ⟨hmain, hplain, hextended⟩ := sharing_projects
  have hp : ∀ e ∈ SharingPolynomial.coefficients ⟨oneByEleven, [oneByEleven]⟩,
      ElementAt fiveSevenByEleven (1, some 0) e := by
    intro e he
    obtain rfl : e = oneByEleven := by simpa [SharingPolynomial.coefficients] using he
    exact elementAt_oneByEleven
  have hp' : ∀ e ∈ SharingPolynomial.coefficients ⟨oneOverFiveSeven, [oneOverFiveSeven]⟩,
      ElementAt fiveSeven 1 e := by
    intro e he
    obtain rfl : e = oneOverFiveSeven := by simpa [SharingPolynomial.coefficients] using he
    exact elementAt_oneOverFiveSeven
  have hadmissible : PublicPoint.Admissible (moduli fiveSevenByEleven) ⟨2, by decide⟩ := by
    change ∀ q ∈ [Modulus.withConstants 5, Modulus.withConstants 7, Modulus.withConstants 11],
      ((2 : Nat) : ZMod q.value.toNat) ≠ 0
    decide +kernel
  obtain ⟨share, hshare, -⟩ :=
    SharingPolynomial.shareAt_of_admissible fiveSevenByEleven_built hp hadmissible
  have hleft := (hmain _ fiveSevenByEleven_built).1.shareAt _ _ _ (fun e he => (hp e he).valid)
    hshare
  refine ⟨share, hshare, hleft, ?_, ?_⟩
  · exact (hextended _ (1, some 0) (0, some 0) fiveSevenByEleven_built
      ⟨by decide, .some (by decide)⟩).shareAt _ _ _ hp hshare
  · exact (hplain _ 1 0 fiveSeven_built (by decide)).shareAt _ _ _ hp' hleft

end FiveSeven

end RingShamir
