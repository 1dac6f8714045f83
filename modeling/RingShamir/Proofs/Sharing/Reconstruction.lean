import Mathlib.Algebra.Field.ZMod
import Mathlib.LinearAlgebra.Lagrange
import RingShamir.Proofs.Chain.Extended
import RingShamir.Proofs.Chain.Plain
import RingShamir.Proofs.Sharing.Combination
import RingShamir.Proofs.Sharing.Evaluation

/-!
# Reconstruction

The additive shares of the members of a quorum add up to the secret.  At each
position this is Lagrange interpolation at zero over the field of the modulus:
that the combiners of all members accept the quorum makes the public points
distinct there.

Main results:

- Theorem `eval_zero_eq_sum`: Lagrange interpolation at zero.
- Theorem `total_of_values`: the additive shares of shares that are values of
  polynomials add up to the values at zero.
- Definition `ReconstructionExact` and theorem `reconstruction_exact`: a quorum
  reconstructs the secret, over both kinds of chains.
-/

namespace RingShamir

open Polynomial ResidueChain

/-! ## Interpolation at zero -/

/-- A polynomial of low degree is determined at zero by its values at distinct
other points. -/
theorem eval_zero_eq_sum {F ι : Type} [Field F] [DecidableEq ι] {s : Finset ι} {v : ι → F}
    (hv : Set.InjOn v s) {f : F[X]} (hf : f.degree < s.card) :
    f.eval 0 = ∑ i ∈ s, f.eval (v i) * ∏ j ∈ s.erase i, (v j - v i)⁻¹ * v j := by
  conv_lhs => rw [Lagrange.eq_interpolate hv hf, Lagrange.interpolate_apply]
  rw [eval_finsetSum]
  apply Finset.sum_congr rfl
  intro i _
  rw [eval_mul, eval_C, Lagrange.basis, eval_prod]
  congr 1
  apply Finset.prod_congr rfl
  intro j _
  rw [Lagrange.basisDivisor, eval_mul, eval_C, eval_sub, eval_X, eval_C, zero_sub, mul_neg,
    ← neg_mul, ← inv_neg, neg_sub]

/-- The product of factors for distinct members, over a finite set. -/
theorem productClasses_apply {members : List PublicPoint} (hnodup : members.Nodup)
    (own : PublicPoint) (q : Modulus) :
    Combiner.productClasses own members q =
      ∏ y ∈ members.toFinset.erase own, (y.classes q - own.classes q)⁻¹ * y.classes q := by
  have hset : (members.filter (· ≠ own)).toFinset = members.toFinset.erase own := by
    ext y
    simp [and_comm]
  rw [Combiner.productClasses, Pi.list_prod_apply, ← hset,
    List.prod_toFinset _ (hnodup.filter _), List.map_map]
  rfl

/-- Points that differ by units modulo a prime have distinct classes there. -/
theorem injOn_classes {qs : List Modulus} {members : List PublicPoint} {q : Modulus}
    (hprime : q.value.toNat.Prime) (hq : q ∈ qs)
    (h : ∀ y ∈ members, ∀ x ∈ members, x ≠ y → x.Apart qs y) :
    Set.InjOn (fun x : PublicPoint => x.classes q) members.toFinset := by
  have : Fact q.value.toNat.Prime := ⟨hprime⟩
  intro x hx y hy hxy
  by_contra hne
  have hunit := h y (List.mem_toFinset.mp hy) x (List.mem_toFinset.mp hx) hne q hq
  rw [Pi.sub_apply, sub_eq_zero.mpr hxy] at hunit
  exact not_isUnit_zero hunit

/-- The values of a polynomial at the members of a quorum, each multiplied by the
product of its factors, add up to the value at zero. -/
theorem sum_eval_mul_productClasses {members : List PublicPoint} {q : Modulus}
    (hprime : q.value.toNat.Prime) (hnodup : members.Nodup)
    (hdistinct : Set.InjOn (fun x : PublicPoint => x.classes q) members.toFinset)
    {f : (ZMod q.value.toNat)[X]} (hf : f.degree < members.length) :
    (members.map fun x => f.eval (x.classes q) * Combiner.productClasses x members q).sum =
      f.eval 0 := by
  have : Fact q.value.toNat.Prime := ⟨hprime⟩
  have hdegree : f.degree < members.toFinset.card := by
    rw [List.toFinset_card_of_nodup hnodup]
    exact hf
  calc (members.map fun x => f.eval (x.classes q) * Combiner.productClasses x members q).sum
      = ∑ x ∈ members.toFinset, f.eval (x.classes q) * Combiner.productClasses x members q :=
        (List.sum_toFinset _ hnodup).symm
    _ = f.eval 0 := by
        rw [eval_zero_eq_sum hdistinct hdegree]
        simp only [productClasses_apply hnodup]

/-! ## Sums of elements -/

section Totals

variable {C E L : Type} [ResidueElement E] [ResidueChain C E L]

/-- Add elements in place, one after the other, to the zero element of a level. -/
def total (c : C) (l : L) (es : List E) : Outcome RingError E := do
  let z ← zeroAt c l
  (forM es (addAssign c)).applyTo z

variable [ReducedElement E] [ChainView C E] [LawfulChain C E L] {c : C} {l : L} {es : List E}

theorem run_addAll {a : E} (hc : Built c) (ha : ElementAt c l a)
    (hes : ∀ e ∈ es, ElementAt c l e) :
    ∃ s, EStateM.run (forM es (addAssign c)) a = .ok () s ∧ ElementAt c l s ∧
      ∀ (i : Nat) (q : Modulus) (j : Nat), (moduli c)[i]? = some q →
        classAt c s q i j = classAt c a q i j + (es.map fun e => classAt c e q i j).sum := by
  induction es generalizing a with
  | nil => exact ⟨a, rfl, ha, by simp⟩
  | cons e es ih =>
      obtain ⟨b, hb, hbat, hsum⟩ := LawfulChain.run_addAssign hc ha (hes e List.mem_cons_self)
      obtain ⟨s, hs, hsat, hsums⟩ := ih hbat fun a ha => hes a (List.mem_cons_of_mem e ha)
      refine ⟨s, ?_, hsat, ?_⟩
      · rw [List.forM_cons, EStateM.run_bind, hb]
        exact hs
      · intro i q j hq
        rw [hsums i q j hq, hsum i q j hq, List.map_cons, List.sum_cons, add_assoc]

/-- Elements at one level have a total, whose classes are the sums of theirs. -/
theorem total_of_elementAt {z : E} (hc : Built c) (hz : zeroAt c l = .ok z)
    (hes : ∀ e ∈ es, ElementAt c l e) :
    ∃ s, total c l es = .ok s ∧ ElementAt c l s ∧
      ∀ (i : Nat) (q : Modulus) (j : Nat), (moduli c)[i]? = some q →
        classAt c s q i j = (es.map fun e => classAt c e q i j).sum := by
  obtain ⟨s, hs, hat, hsum⟩ := run_addAll hc (LawfulChain.of_zeroAt hc hz).1 hes
  refine ⟨s, ?_, hat, ?_⟩
  · rw [total, hz, Outcome.ok_bind, Action.applyTo_eq_ok.mpr hs]
  · intro i q j hq
    rw [hsum i q j hq, classAt_of_zeroAt hc hz, zero_add]

/-- Elements whose classes are values of a function have the sums of its values as classes of
the total. -/
theorem total_of_classes {α : Type} {as : List α} {z : E}
    {g : (q : Modulus) → Nat → Nat → α → ZMod q.value.toNat} (hc : Built c)
    (hz : zeroAt c l = .ok z) (h : List.Forall₂ (fun a e => ElementAt c l e ∧
      ∀ (i : Nat) (q : Modulus) (j : Nat), (moduli c)[i]? = some q →
        classAt c e q i j = g q i j a) as es) :
    ∃ s, total c l es = .ok s ∧ ElementAt c l s ∧
      ∀ (i : Nat) (q : Modulus) (j : Nat), (moduli c)[i]? = some q →
        classAt c s q i j = (as.map (g q i j)).sum := by
  have hes : ∀ e ∈ es, ElementAt c l e := by
    intro e he
    obtain ⟨a, -, hat, -⟩ := exists_mem_of_forall₂ h.flip he
    exact hat
  obtain ⟨s, hs, hat, hsum⟩ := total_of_elementAt hc hz hes
  refine ⟨s, hs, hat, fun i q j hq => ?_⟩
  rw [hsum i q j hq, map_eq_map_of_forall₂ (h.flip.imp fun e a hea => hea.2 i q j hq)]

end Totals

/-! ## Quorums -/

section Quorums

variable {C E L : Type} [ResidueElement E] [ResidueChain C E L] [DecidableEq L]

/-- The party at a point contributes an element to a quorum: it is the additive
share that a combiner made of other points of its choice gives for a share. -/
def Contributes (c : C) (t : Nat) (actives : List PublicPoint) (x : PublicPoint)
    (share : Share E) (e : E) : Prop :=
  ∃ others combiner combiner', Combiner.make c x others t = .ok combiner ∧
    EStateM.run (Combiner.additive actives x share) combiner = .ok e combiner'

variable {c : C} {l : L} {t : Nat} {actives : List PublicPoint} {es : List E}

omit [ResidueElement E] in
/-- What a combiner made of given points computes is a contribution. -/
theorem contributes_of_ending {x : PublicPoint} {share : Share E} {e : E}
    (others : List PublicPoint)
    (h : (do
      let combiner ← Combiner.make c x others t
      Action.ending (EStateM.run (Combiner.additive actives x share) combiner)) = .ok e) :
    Contributes c t actives x share e := by
  rcases Outcome.bind_eq_ok.mp h with ⟨combiner, hmake, hending⟩
  rcases Action.ending_eq_ok.mp hending with ⟨combiner', hrun⟩
  exact ⟨others, combiner, combiner', hmake, hrun⟩

variable [ReducedElement E] [ChainView C E] [LawfulChain C E L]

/-- What a contribution says about the quorum and its classes. -/
theorem contribution_spec {x : PublicPoint} {share : Share E} {e : E} (hc : Built c)
    (hshare : ElementAt c l share.value) (h : Contributes c t actives x share e) :
    ((actives.take t).Nodup ∧ (∀ y ∈ actives.take t, y ≠ x → y.Apart (moduli c) x)) ∧
      (∃ z, zeroAt c l = .ok z) ∧ ElementAt c l e ∧
        ∀ (i : Nat) (q : Modulus) (j : Nat), (moduli c)[i]? = some q →
          classAt c e q i j =
            classAt c share.value q i j * Combiner.productClasses x (actives.take t) q := by
  rcases h with ⟨others, combiner, combiner', hmake, hrun⟩
  obtain ⟨hsound, rfl, rfl, rfl⟩ := Combiner.sound_of_make hc hmake
  obtain ⟨-, members, l', z, hquorum, hz, hadditive⟩ :=
    Combiner.additive_eq_ok hsound hshare.valid hrun
  obtain rfl : l' = l := Except.ok.inj (hadditive.share_level.level.symm.trans hshare.level)
  have hmembers := hquorum.members_eq
  subst hmembers
  refine ⟨⟨hquorum.nodup, ?_⟩, ⟨z, hz⟩, hadditive.elementAt, hadditive.classAt_eq⟩
  intro y hy hne
  rcases Option.isSome_iff_exists.mp (hquorum.factors y hy hne) with ⟨s, hs⟩
  exact (hsound.factors y s hs).1

/-- The contributions of a quorum whose shares are values of polynomials of low
degree add up to the values at zero. -/
theorem total_of_values (hc : Built c) (hexact : Modulus.PrimalityExact (moduli c))
    (ht : 1 ≤ t) (hlength : t ≤ actives.length)
    {F : (q : Modulus) → Nat → Nat → (ZMod q.value.toNat)[X]}
    (hF : ∀ q i j, (F q i j).degree < t)
    (h : List.Forall₂ (fun x e => ∃ share, Contributes c t actives x share e ∧
      ElementAt c l share.value ∧ ∀ (i : Nat) (q : Modulus) (j : Nat), (moduli c)[i]? = some q →
        classAt c share.value q i j = (F q i j).eval (x.classes q)) (actives.take t) es) :
    ∃ s, total c l es = .ok s ∧ ElementAt c l s ∧
      ∀ (i : Nat) (q : Modulus) (j : Nat), (moduli c)[i]? = some q →
        classAt c s q i j = (F q i j).eval 0 := by
  have hspec : List.Forall₂ (fun x e =>
      ((actives.take t).Nodup ∧ (∀ y ∈ actives.take t, y ≠ x → y.Apart (moduli c) x)) ∧
        (∃ z, zeroAt c l = .ok z) ∧ ElementAt c l e ∧
          ∀ (i : Nat) (q : Modulus) (j : Nat), (moduli c)[i]? = some q →
            classAt c e q i j = (F q i j).eval (x.classes q) *
              Combiner.productClasses x (actives.take t) q) (actives.take t) es := by
    apply h.imp
    rintro x e ⟨share, hcontributes, hat, hvalue⟩
    obtain ⟨hquorum, hz, heat, hclass⟩ := contribution_spec hc hat hcontributes
    refine ⟨hquorum, hz, heat, ?_⟩
    intro i q j hq
    rw [hclass i q j hq, hvalue i q j hq]
  have hcard : (actives.take t).length = t := List.length_take_of_le hlength
  obtain ⟨x₀, hx₀⟩ : ∃ x, x ∈ actives.take t :=
    List.exists_mem_of_length_pos (by omega)
  obtain ⟨-, -, ⟨hnodup, -⟩, ⟨z, hz⟩, -⟩ := exists_mem_of_forall₂ hspec hx₀
  obtain ⟨s, hs, hat, hsum⟩ := total_of_classes hc hz (hspec.imp fun _ _ h => h.2.2)
  refine ⟨s, hs, hat, ?_⟩
  intro i q j hq
  have hmem := List.mem_of_getElem? hq
  have hprime := prime_of_mem hc hexact hmem
  -- The combiner of each member has the inverses of the differences to the others.
  have hdistinct : Set.InjOn (fun x : PublicPoint => x.classes q) (actives.take t).toFinset := by
    apply injOn_classes hprime hmem
    intro y hy
    obtain ⟨-, -, ⟨-, hapart⟩, -⟩ := exists_mem_of_forall₂ hspec hy
    exact hapart
  have hdegree : (F q i j).degree < (actives.take t).length := by
    rw [hcard]
    exact hF q i j
  rw [hsum i q j hq, sum_eval_mul_productClasses hprime hnodup hdistinct hdegree]

/-- A quorum reconstructs the secret of a sharing polynomial with at most as many
coefficients as the quorum has members: each member evaluates its share, makes
a combiner of points of its choice and contributes an additive share, and these
add up to the secret. -/
def ReconstructionExact (C : Type) {E L : Type} [ResidueElement E] [ResidueChain C E L]
    [DecidableEq L] [ReducedElement E] [ChainView C E] : Prop :=
  ∀ (c : C) (l : L) (t : Nat) (p : SharingPolynomial E) (actives : List PublicPoint)
    (es : List E), Built c → Modulus.PrimalityExact (moduli c) →
      1 ≤ t → p.threshold ≤ t → (∀ e ∈ p.coefficients, ElementAt c l e) → t ≤ actives.length →
        List.Forall₂ (fun x e => ∃ share, SharingPolynomial.shareAt c x p = .ok share ∧
          Contributes c t actives x share e) (actives.take t) es →
            total c l es = .ok p.secret

/-- Over every chain that satisfies the laws a quorum reconstructs the secret. -/
theorem reconstructionExact_of_laws : ReconstructionExact C := by
  intro c l t p actives es hc hexact ht hthreshold hp hlength h
  have hdegree : ∀ q i j, (SharingPolynomial.classPolynomial c p q i j).degree < t := by
    intro q i j
    exact (SharingPolynomial.degree_classPolynomial_lt c p q i j).trans_le
      (by exact_mod_cast hthreshold)
  have hvalues : List.Forall₂ (fun x e => ∃ share, Contributes c t actives x share e ∧
      ElementAt c l share.value ∧ ∀ (i : Nat) (q : Modulus) (j : Nat), (moduli c)[i]? = some q →
        classAt c share.value q i j =
          (SharingPolynomial.classPolynomial c p q i j).eval (x.classes q))
        (actives.take t) es := by
    apply h.imp
    rintro x e ⟨share, hshare, hcontributes⟩
    obtain ⟨hat, hvalue⟩ := SharingPolynomial.classAt_of_shareAt hc hp hshare
    exact ⟨share, hcontributes, hat, hvalue⟩
  obtain ⟨s, hs, hat, hclass⟩ := total_of_values hc hexact ht hlength hdegree hvalues
  have hsecret : s = p.secret := by
    apply eq_of_classAt hc hat (hp p.secret List.mem_cons_self)
    intro i q j hq
    rw [hclass i q j hq, SharingPolynomial.eval_zero_classPolynomial]
  rw [hs, hsecret]

end Quorums

/-- A quorum reconstructs the secret exactly, over the chains of a single basis
and over those of two bases. -/
theorem reconstruction_exact :
    ReconstructionExact PlainChain ∧ ReconstructionExact ExtendedChain :=
  ⟨reconstructionExact_of_laws, reconstructionExact_of_laws⟩

section FiveSeven

open PlainChain

/-- A sharing polynomial of degree one. -/
def lineOverFiveSeven : SharingPolynomial RnsPoly where
  secret := elementOverFiveSeven [[1, 2, 3, 4, 0, 1, 2, 3], [6, 5, 4, 3, 2, 1, 0, 6]]
  masks := [elementOverFiveSeven [[1, 4, 3, 4, 0, 1, 2, 3], [6, 5, 4, 5, 2, 1, 0, 6]]]

/-- The points two, one and three. -/
def threePoints : List PublicPoint :=
  [⟨2, by decide⟩, ⟨1, by decide⟩, ⟨3, by decide⟩]

/-- The first two of three parties reconstruct the secret of a line. -/
theorem reconstruction_of_line :
    ∃ es, List.Forall₂ (fun x e => ∃ share,
      SharingPolynomial.shareAt fiveSeven x lineOverFiveSeven = .ok share ∧
        Contributes fiveSeven 2 threePoints x share e) (threePoints.take 2) es ∧
          total fiveSeven 1 es = .ok lineOverFiveSeven.secret := by
  have hes : List.Forall₂ (fun x e => ∃ share,
      SharingPolynomial.shareAt fiveSeven x lineOverFiveSeven = .ok share ∧
        Contributes fiveSeven 2 threePoints x share e) (threePoints.take 2)
      [elementOverFiveSeven [[2, 0, 1, 3, 0, 2, 4, 1], [3, 6, 2, 1, 1, 4, 0, 3]],
        elementOverFiveSeven [[4, 2, 2, 1, 0, 4, 3, 2], [3, 6, 2, 2, 1, 4, 0, 3]]] := by
    refine .cons ⟨_, rfl, ?_⟩ (.cons ⟨_, rfl, ?_⟩ .nil)
    · exact contributes_of_ending threePoints (by decide +kernel)
    · exact contributes_of_ending threePoints (by decide +kernel)
  have hp : ∀ e ∈ lineOverFiveSeven.coefficients, ElementAt fiveSeven 1 e := by
    intro e he
    rcases List.mem_pair.mp he with rfl | rfl
    · exact elementAt_fiveSeven (by decide +kernel)
    · exact elementAt_fiveSeven (by decide +kernel)
  exact ⟨_, hes, reconstruction_exact.1 fiveSeven 1 2 lineOverFiveSeven threePoints _
    fiveSeven_built primalityExact_fiveSeven (by decide) (by decide) hp (by decide) hes⟩

end FiveSeven

end RingShamir
