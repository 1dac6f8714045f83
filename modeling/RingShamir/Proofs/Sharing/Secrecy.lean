import Mathlib.Algebra.Field.ZMod
import Mathlib.Probability.Distributions.Uniform
import RingShamir.Proofs.Chain.Extended
import RingShamir.Proofs.Chain.Plain
import RingShamir.Proofs.Sharing.Evaluation

/-!
# Secrecy

Fewer shares than the threshold are independent of the secret.  For the points
of these shares there is a polynomial with constant coefficient one that vanishes
at all of them, modulo every modulus of the chain.  Adding multiples of it to a
sharing polynomial changes the secret and no share; on the masks this is a
bijection.

Main results:

- Definition `vanishing`: the polynomial that vanishes at points.
- Theorem `exists_translation`: adding an element is a bijection of a level.
- Definition `Indistinguishable`: two secrets have the same shares at points, up
  to a bijection of the masks, and hence in distribution.
- Definition `SecrecyPerfect` and theorem `secrecy_perfect`: fewer shares than the
  threshold do not tell secrets apart, over both kinds of chains.
-/

namespace RingShamir

open Polynomial ResidueChain

/-! ## Vanishing polynomials -/

section Vanishing

variable {R : Type} [CommRing R] [Inv R]

/-- The polynomial with constant coefficient one that vanishes at units. -/
noncomputable def vanishing : List R → R[X]
  | [] => 1
  | a :: as => (1 - Polynomial.C a⁻¹ * X) * vanishing as

theorem coeff_zero_vanishing (as : List R) : (vanishing as).coeff 0 = 1 := by
  induction as with
  | nil => simp [vanishing]
  | cons a as ih => simp [vanishing, mul_coeff_zero, ih]

theorem natDegree_vanishing_le (as : List R) : (vanishing as).natDegree ≤ as.length := by
  induction as with
  | nil => simp [vanishing]
  | cons a as ih =>
      have hfactor : (1 - Polynomial.C a⁻¹ * X : R[X]).natDegree ≤ 1 := by
        compute_degree
      calc (vanishing (a :: as)).natDegree
          ≤ (1 - Polynomial.C a⁻¹ * X : R[X]).natDegree + (vanishing as).natDegree :=
            natDegree_mul_le
        _ ≤ 1 + as.length := Nat.add_le_add hfactor ih
        _ = (a :: as).length := by rw [List.length_cons, Nat.add_comm]

end Vanishing

theorem eval_vanishing {F : Type} [Field F] {as : List F} {a : F} (ha : a ∈ as) (hne : a ≠ 0) :
    (vanishing as).eval a = 0 := by
  induction as with
  | nil => cases ha
  | cons b as ih =>
      rw [vanishing, eval_mul]
      rcases List.mem_cons.mp ha with rfl | ha
      · rw [eval_sub, eval_one, eval_mul, eval_C, eval_X, inv_mul_cancel₀ hne, sub_self,
          zero_mul]
      · rw [ih ha, mul_zero]

theorem coeff_ascending {R : Type} [CommRing R] (as : List R) (n : Nat) :
    (ascending as).coeff n = as.getD n 0 := by
  induction as generalizing n with
  | nil => simp
  | cons a as ih =>
      cases n with
      | zero => simp
      | succ n => rw [ascending_cons, coeff_add, coeff_C_succ, coeff_X_mul, zero_add, ih,
          List.getD_cons_succ]

/-! ## Translations -/

section Translations

variable {C E L : Type} [ResidueElement E] [ResidueChain C E L] [ReducedElement E]
  [ChainView C E] [LawfulChain C E L] {c : C} {l : L} {a b d : E}

/-- Elements at a level can be combined with any families as coefficients. -/
theorem exists_combination (hc : Built c) (ha : ElementAt c l a) (hb : ElementAt c l b)
    (f g : ResidueFamily) : ∃ e, ElementAt c l e ∧
      ∀ (i : Nat) (q : Modulus) (j : Nat), (moduli c)[i]? = some q →
        classAt c e q i j = classAt c a q i j * f q + classAt c b q i j * g q := by
  obtain ⟨s, hs⟩ := Scalar.exists_represents (LawfulChain.suitable hc) f
  obtain ⟨r, hr⟩ := Scalar.exists_represents (LawfulChain.suitable hc) g
  obtain ⟨a', -, ha', haclass⟩ := run_scaleAssign_of_represents hc ha hs
  obtain ⟨b', -, hb', hbclass⟩ := run_scaleAssign_of_represents hc hb hr
  obtain ⟨e, -, he, hsum⟩ := LawfulChain.run_addAssign hc ha' hb'
  refine ⟨e, he, ?_⟩
  intro i q j hq
  rw [hsum i q j hq, haclass i q j hq, hbclass i q j hq]

/-- Adding an element is a bijection of a level. -/
theorem exists_translation (hc : Built c) (hd : ElementAt c l d) :
    ∃ φ : {e : E // ElementAt c l e} ≃ {e : E // ElementAt c l e}, ∀ e, ∀ (i : Nat) (q : Modulus)
      (j : Nat), (moduli c)[i]? = some q →
        classAt c (φ e).1 q i j = classAt c e.1 q i j + classAt c d q i j := by
  have hplus : ∀ e : {e : E // ElementAt c l e}, ∃ e', ElementAt c l e' ∧ ∀ (i : Nat)
      (q : Modulus) (j : Nat), (moduli c)[i]? = some q →
        classAt c e' q i j = classAt c e.1 q i j + classAt c d q i j := by
    intro e
    simpa using exists_combination hc e.2 hd 1 1
  have hminus : ∀ e : {e : E // ElementAt c l e}, ∃ e', ElementAt c l e' ∧ ∀ (i : Nat)
      (q : Modulus) (j : Nat), (moduli c)[i]? = some q →
        classAt c e' q i j = classAt c e.1 q i j - classAt c d q i j := by
    intro e
    simpa [sub_eq_add_neg] using exists_combination hc e.2 hd 1 (-1)
  choose plus hplusAt hplusClass using hplus
  choose minus hminusAt hminusClass using hminus
  let φ : {e : E // ElementAt c l e} ≃ {e : E // ElementAt c l e} :=
    { toFun := fun e => ⟨plus e, hplusAt e⟩
      invFun := fun e => ⟨minus e, hminusAt e⟩
      left_inv := by
        intro e
        apply Subtype.ext
        apply eq_of_classAt hc (hminusAt _) e.2
        intro i q j hq
        rw [hminusClass _ i q j hq, hplusClass _ i q j hq, add_sub_cancel_right]
      right_inv := by
        intro e
        apply Subtype.ext
        apply eq_of_classAt hc (hplusAt _) e.2
        intro i q j hq
        rw [hplusClass _ i q j hq, hminusClass _ i q j hq, sub_add_cancel] }
  exact ⟨φ, hplusClass⟩

end Translations

/-! ## Masks -/

section Masks

variable {C E L : Type} [ResidueChain C E L] [ReducedElement E]

/-- Masks of a sharing polynomial: as many elements at a level. -/
abbrev Masks (c : C) (l : L) (n : Nat) : Type :=
  Fin n → {e : E // ElementAt c l e}

variable {c : C} {l : L} {n : Nat} {s s' : E}

/-- The sharing polynomial that hides a secret behind masks. -/
def masked (s : E) (m : Masks c l n) : SharingPolynomial E where
  secret := s
  masks := List.ofFn fun k => (m k).1

/-- The coefficients of a masked polynomial are at the level of the masks. -/
theorem elementAt_of_masked (hs : ElementAt c l s) (m : Masks c l n) :
    ∀ e ∈ (masked s m).coefficients, ElementAt c l e := by
  intro e he
  rcases List.mem_cons.mp he with rfl | he
  · exact hs
  · rcases List.mem_ofFn.mp he with ⟨k, rfl⟩
    exact (m k).2

variable [ChainView C E]

/-- The coefficients of the class polynomial are the classes of secret and masks. -/
theorem coeff_classPolynomial_masked (s : E) (m : Masks c l n) (q : Modulus) (i j k : Nat) :
    (SharingPolynomial.classPolynomial c (masked s m) q i j).coeff k =
      if k = 0 then classAt c s q i j
      else if h : k - 1 < n then classAt c (m ⟨k - 1, h⟩).1 q i j else 0 := by
  rw [SharingPolynomial.classPolynomial, coeff_ascending]
  cases k with
  | zero => simp [SharingPolynomial.coefficients, masked]
  | succ k =>
      by_cases hk : k < n
      · simp [SharingPolynomial.coefficients, masked, hk]
      · simp [SharingPolynomial.coefficients, masked, hk]

/-- Adding multiples of the coefficients of a polynomial to secret and masks adds
its multiple to the class polynomial. -/
theorem classPolynomial_masked_eq_add {m m' : Masks c l n} {q : Modulus} {i j : Nat}
    {δ : ZMod q.value.toNat} {w : (ZMod q.value.toNat)[X]} (hw : w.coeff 0 = 1)
    (hdegree : w.natDegree ≤ n) (hs : classAt c s' q i j = classAt c s q i j + δ)
    (hm : ∀ k : Fin n,
      classAt c (m' k).1 q i j = classAt c (m k).1 q i j + δ * w.coeff (k + 1)) :
    SharingPolynomial.classPolynomial c (masked s' m') q i j =
      SharingPolynomial.classPolynomial c (masked s m) q i j + Polynomial.C δ * w := by
  ext k
  rw [coeff_add, coeff_C_mul, coeff_classPolynomial_masked, coeff_classPolynomial_masked]
  cases k with
  | zero => simp [hw, hs]
  | succ k =>
      by_cases hk : k < n
      · simp [hk, hm ⟨k, hk⟩]
      · have hzero : w.coeff (k + 1) = 0 := coeff_eq_zero_of_natDegree_lt (by omega)
        simp [hk, hzero]

variable [DecidableEq L]

/-- The shares of points for given masks. -/
def sharesOf (points : List PublicPoint) (s : E) (m : Masks c l n) :
    List (Outcome SchemeError (Share E)) :=
  points.map fun x => SharingPolynomial.shareAt c x (masked s m)

/-- The joint distribution of the shares of points for uniformly distributed
masks. -/
noncomputable def shareDistribution (c : C) (l : L) (n : Nat) [Fintype (Masks c l n)]
    [Nonempty (Masks c l n)] (points : List PublicPoint) (s : E) :
    PMF (List (Outcome SchemeError (Share E))) :=
  (PMF.uniformOfFintype (Masks c l n)).map (sharesOf points s)

/-- Two secrets have the same shares at points: a bijection of the masks matches
the shares, and their joint distribution for uniformly distributed masks, of
which there are finitely many, is the same. -/
structure Indistinguishable (c : C) (l : L) (n : Nat) (points : List PublicPoint) (s s' : E) :
    Prop where
  /-- There are finitely many masks. -/
  finite : Finite (Masks c l n)
  /-- There are masks. -/
  nonempty : Nonempty (Masks c l n)
  /-- The shares for one secret are those for the other one and other masks. -/
  bijection : ∃ φ : Masks c l n ≃ Masks c l n, ∀ m, ∀ x ∈ points, ∃ share,
    SharingPolynomial.shareAt c x (masked s m) = .ok share ∧
      SharingPolynomial.shareAt c x (masked s' (φ m)) = .ok share
  /-- The joint distributions of the shares are equal. -/
  distribution : ∀ [Fintype (Masks c l n)] [Nonempty (Masks c l n)],
    shareDistribution c l n points s = shareDistribution c l n points s'

end Masks

/-! ## Distributions -/

/-- A bijection keeps the uniform distribution. -/
theorem map_uniformOfFintype_equiv {α : Type} [Fintype α] [Nonempty α] (φ : α ≃ α) :
    (PMF.uniformOfFintype α).map φ = PMF.uniformOfFintype α := by
  ext b
  rw [PMF.map_apply, tsum_eq_single (φ.symm b)]
  · simp
  · intro a ha
    rw [if_neg]
    rintro rfl
    exact ha (φ.symm_apply_apply a).symm

/-- Functions that a bijection matches have the same distribution. -/
theorem map_uniformOfFintype_eq {α β : Type} [Fintype α] [Nonempty α] {f g : α → β}
    (φ : α ≃ α) (h : ∀ a, f a = g (φ a)) :
    (PMF.uniformOfFintype α).map f = (PMF.uniformOfFintype α).map g := by
  have hcomp : f = g ∘ φ := funext h
  rw [hcomp, ← PMF.map_comp, map_uniformOfFintype_equiv]

/-! ## Secrets -/

section Secrets

variable {C E L : Type} [ResidueElement E] [ResidueChain C E L] [ReducedElement E]
  [ChainView C E] [LawfulChain C E L] {c : C} {l : L} {n : Nat} {s s' : E}
  {points : List PublicPoint}

/-- The polynomial that vanishes at points modulo a modulus. -/
noncomputable def vanishingAt (points : List PublicPoint) (q : Modulus) :
    (ZMod q.value.toNat)[X] :=
  vanishing (points.map fun x => x.classes q)

theorem eval_vanishingAt {q : Modulus} (hprime : q.value.toNat.Prime) {x : PublicPoint}
    (hx : x ∈ points) (hne : x.classes q ≠ 0) :
    (vanishingAt points q).eval (x.classes q) = 0 := by
  have : Fact q.value.toNat.Prime := ⟨hprime⟩
  exact eval_vanishing (List.mem_map_of_mem hx) hne

/-- Adding the difference of two secrets times the coefficients of the vanishing
polynomial is a bijection of the masks. -/
theorem exists_maskTranslation (hc : Built c) (points : List PublicPoint)
    (hs : ElementAt c l s) (hs' : ElementAt c l s') :
    ∃ φ : Masks c l n ≃ Masks c l n, ∀ (m : Masks c l n) (k : Fin n) (i : Nat) (q : Modulus)
      (j : Nat), (moduli c)[i]? = some q →
        classAt c (φ m k).1 q i j = classAt c (m k).1 q i j +
          (classAt c s' q i j - classAt c s q i j) * (vanishingAt points q).coeff (k + 1) := by
  have hshift : ∀ k : Fin n, ∃ φ : {e : E // ElementAt c l e} ≃ {e : E // ElementAt c l e},
      ∀ e, ∀ (i : Nat) (q : Modulus) (j : Nat), (moduli c)[i]? = some q →
        classAt c (φ e).1 q i j = classAt c e.1 q i j +
          (classAt c s' q i j - classAt c s q i j) * (vanishingAt points q).coeff (k + 1) := by
    intro k
    obtain ⟨d, hd, hdclass⟩ := exists_combination hc hs' hs
      (fun q => (vanishingAt points q).coeff (k + 1))
      (fun q => -(vanishingAt points q).coeff (k + 1))
    obtain ⟨φ, hφ⟩ := exists_translation hc hd
    refine ⟨φ, ?_⟩
    intro e i q j hq
    rw [hφ e i q j hq, hdclass i q j hq]
    ring
  choose φ hφ using hshift
  exact ⟨Equiv.piCongrRight φ, fun m k => hφ k (m k)⟩

variable [DecidableEq L]

/-- The translated masks give the same shares for the other secret. -/
theorem exists_matching (hc : Built c) (hexact : Modulus.PrimalityExact (moduli c))
    (hlength : points.length ≤ n) (hpoints : ∀ x ∈ points, x.Admissible (moduli c))
    (hs : ElementAt c l s) (hs' : ElementAt c l s') :
    ∃ φ : Masks c l n ≃ Masks c l n, ∀ m, ∀ x ∈ points, ∃ share,
      SharingPolynomial.shareAt c x (masked s m) = .ok share ∧
        SharingPolynomial.shareAt c x (masked s' (φ m)) = .ok share := by
  obtain ⟨φ, hφ⟩ := exists_maskTranslation hc points hs hs'
  refine ⟨φ, ?_⟩
  intro m x hx
  obtain ⟨share, hshare, hat, hvalue⟩ := SharingPolynomial.shareAt_of_admissible hc
    (elementAt_of_masked hs m) (hpoints x hx)
  obtain ⟨share', hshare', hat', hvalue'⟩ := SharingPolynomial.shareAt_of_admissible hc
    (elementAt_of_masked hs' (φ m)) (hpoints x hx)
  have hequal : share' = share := by
    apply Share.ext
    apply eq_of_classAt hc hat' hat
    intro i q j hq
    have hmem := List.mem_of_getElem? hq
    have hprime := prime_of_mem hc hexact hmem
    have hzero := eval_vanishingAt hprime hx (hpoints x hx q hmem)
    have hdegree : (vanishingAt points q).natDegree ≤ n :=
      (natDegree_vanishing_le _).trans (by rwa [List.length_map])
    have hsecret := (add_sub_cancel (classAt c s q i j) (classAt c s' q i j)).symm
    have hconstant : (vanishingAt points q).coeff 0 = 1 := coeff_zero_vanishing _
    have hsum := classPolynomial_masked_eq_add hconstant hdegree hsecret
      fun k => hφ m k i q j hq
    rw [hvalue' i q j hq, hvalue i q j hq, hsum, eval_add, eval_mul, hzero, mul_zero, add_zero]
  exact ⟨share, hshare, hequal ▸ hshare'⟩

/-- Fewer shares than the threshold do not tell two secrets apart: whatever
admissible points there are, repeated or congruent ones among them, and at every
level of a chain. -/
def SecrecyPerfect (C : Type) {E L : Type} [ResidueElement E] [ResidueChain C E L]
    [DecidableEq L] [ReducedElement E] [ChainView C E] : Prop :=
  ∀ (c : C) (l : L) (t : Nat) (points : List PublicPoint) (s s' : E), Built c →
    Modulus.PrimalityExact (moduli c) → 1 ≤ t → points.length ≤ t - 1 →
      (∀ x ∈ points, ∃ p share, SharingPolynomial.shareAt c x p = .ok share) →
        ElementAt c l s → ElementAt c l s' → Indistinguishable c l (t - 1) points s s'

/-- Over every chain that satisfies the laws fewer shares than the threshold do
not tell secrets apart. -/
theorem secrecyPerfect_of_laws : SecrecyPerfect C := by
  intro c l t points s s' hc hexact _ hlength hpoints hs hs'
  have hadmissible : ∀ x ∈ points, x.Admissible (moduli c) := by
    intro x hx
    obtain ⟨p, share, hshare⟩ := hpoints x hx
    exact SharingPolynomial.admissible_of_shareAt hc hshare
  obtain ⟨φ, hφ⟩ := exists_matching hc hexact hlength hadmissible hs hs'
  have := LawfulChain.finite l hc
  refine ⟨inferInstance, ⟨fun _ => ⟨s, hs⟩⟩, ⟨φ, hφ⟩, ?_⟩
  intro _ _
  apply map_uniformOfFintype_eq φ
  intro m
  apply List.map_congr_left
  intro x hx
  obtain ⟨share, hshare, hshare'⟩ := hφ m x hx
  rw [hshare, hshare']

end Secrets

/-- Fewer shares than the threshold carry no information about the secret, over
the chains of a single basis and over those of two bases. -/
theorem secrecy_perfect : SecrecyPerfect PlainChain ∧ SecrecyPerfect ExtendedChain :=
  ⟨secrecyPerfect_of_laws, secrecyPerfect_of_laws⟩

section FiveSeven

open PlainChain

/-- One share of a line does not tell the secrets zero and one apart. -/
theorem secrecy_of_line :
    Indistinguishable fiveSeven 1 1 [⟨8, by decide⟩] zeroOverFiveSeven oneOverFiveSeven := by
  apply secrecy_perfect.1 fiveSeven 1 2 [⟨8, by decide⟩] _ _ fiveSeven_built
    primalityExact_fiveSeven (by decide) (by decide) _ elementAt_zeroOverFiveSeven
    elementAt_oneOverFiveSeven
  intro x hx
  obtain rfl := List.mem_singleton.mp hx
  exact ⟨⟨zeroOverFiveSeven, []⟩, _, rfl⟩

end FiveSeven

end RingShamir
