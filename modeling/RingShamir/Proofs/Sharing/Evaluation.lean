import Mathlib.Algebra.Polynomial.Degree.Defs
import Mathlib.Algebra.Polynomial.Eval.Degree
import RingShamir.Proofs.Chain.Lawful
import RingShamir.Sharing.Polynomial

/-!
# Values of sharing polynomials

At each position a sharing polynomial is a polynomial over the residue classes
of the modulus there, with the classes of the ring elements as coefficients.
Horner's rule on ring elements evaluates all these polynomials at the classes of
the public point.  A point is accepted exactly when it vanishes modulo no modulus
of the whole chain, whatever the polynomial and its level.

Main results:

- Definition `classPolynomial`: the polynomial at a position.
- Definition `Admissible`: a point that vanishes modulo no modulus.
- Theorem `shareAt_eq_ok_iff`: a share exists exactly at admissible points.
- Theorem `classAt_of_shareAt`: the classes of a share are values of the class
  polynomials.
-/

namespace RingShamir

open Polynomial ResidueChain

/-! ## Polynomials from coefficients -/

section Coefficients

variable {R : Type} [CommRing R]

/-- The polynomial with given coefficients, in ascending order. -/
noncomputable def ascending : List R → R[X]
  | [] => 0
  | a :: as => Polynomial.C a + X * ascending as

@[simp] theorem ascending_nil : ascending ([] : List R) = 0 := rfl

@[simp] theorem ascending_cons (a : R) (as : List R) :
    ascending (a :: as) = Polynomial.C a + X * ascending as := rfl

/-- The constant coefficient is the value at zero. -/
theorem eval_zero_ascending_cons (a : R) (as : List R) : (ascending (a :: as)).eval 0 = a := by
  simp

theorem degree_ascending_lt (as : List R) : (ascending as).degree < as.length := by
  rw [degree_lt_iff_coeff_zero]
  induction as with
  | nil => simp
  | cons a as ih =>
      intro m hm
      obtain ⟨m, rfl⟩ : ∃ k, m = k + 1 := ⟨m - 1, by simp at hm; omega⟩
      rw [ascending_cons, coeff_add, coeff_X_mul, coeff_C_succ, zero_add]
      exact ih m (by simpa using hm)

end Coefficients

namespace PublicPoint

/-- The classes of a point. -/
def classes (x : PublicPoint) : ResidueFamily :=
  (x.value.toNat : ResidueFamily)

/-- A point vanishes modulo none of some moduli. -/
def Admissible (qs : List Modulus) (x : PublicPoint) : Prop :=
  ∀ q ∈ qs, x.classes q ≠ 0

end PublicPoint

namespace SharingPolynomial

section ClassPolynomials

variable {C E : Type} [ChainView C E]

/-- All coefficients of a polynomial, in ascending order. -/
def coefficients (p : SharingPolynomial E) : List E :=
  p.secret :: p.masks

/-- The polynomial of the residue classes at a position. -/
noncomputable def classPolynomial (c : C) (p : SharingPolynomial E) (q : Modulus) (i j : Nat) :
    (ZMod q.value.toNat)[X] :=
  ascending (p.coefficients.map fun e => classAt c e q i j)

/-- The secret is the value at zero. -/
theorem eval_zero_classPolynomial (c : C) (p : SharingPolynomial E) (q : Modulus) (i j : Nat) :
    (classPolynomial c p q i j).eval 0 = classAt c p.secret q i j :=
  eval_zero_ascending_cons _ _

theorem degree_classPolynomial_lt (c : C) (p : SharingPolynomial E) (q : Modulus) (i j : Nat) :
    (classPolynomial c p q i j).degree < p.threshold := by
  have h := degree_ascending_lt (p.coefficients.map fun e => classAt c e q i j)
  rwa [List.length_map, coefficients, List.length_cons] at h

end ClassPolynomials

section Levels

variable {C E L : Type} [ResidueChain C E L] [DecidableEq L] {c : C} {l : L}
  {p : SharingPolynomial E}

/-- A polynomial has a level exactly when all its coefficients are there. -/
theorem level_eq_ok : level c p = .ok l ↔ ∀ e ∈ p.coefficients, levelOf c e = .ok l := by
  have hcheck : ∀ es : List E,
      checkLevel c l es = .ok () ↔ ∀ e ∈ es, levelOf c e = .ok l := by
    intro es
    induction es with
    | nil => simp [checkLevel]
    | cons e es ih =>
        rw [checkLevel, List.forall_mem_cons, ← ih, Outcome.bind_eq_ok]
        constructor
        · rintro ⟨le, hle, hrest⟩
          rw [Outcome.mapError_eq_ok] at hle
          split at hrest
          next => cases hrest
          next heq =>
              rw [not_ne_iff] at heq
              exact ⟨heq ▸ hle, hrest⟩
        · rintro ⟨he, hes⟩
          exact ⟨l, Outcome.mapError_eq_ok.mpr he, by rw [if_neg (not_not.mpr rfl), hes]⟩
  rw [coefficients, List.forall_mem_cons, ← hcheck p.masks, level, Outcome.bind_eq_ok]
  constructor
  · rintro ⟨l', hl', hrest⟩
    rcases Outcome.bind_eq_ok.mp hrest with ⟨_, hmasks, hl⟩
    obtain rfl : l' = l := Except.ok.inj hl
    exact ⟨Outcome.mapError_eq_ok.mp hl', hmasks⟩
  · rintro ⟨hsecret, hmasks⟩
    exact ⟨l, Outcome.mapError_eq_ok.mpr hsecret, by rw [hmasks]; rfl⟩

theorem shareAt_eq_ok {x : PublicPoint} {share : Share E} : shareAt c x p = .ok share ↔
    (∃ l, level c p = .ok l) ∧ evaluate c x p = .ok share.value := by
  simp only [shareAt, Outcome.bind_eq_ok, Outcome.pure_eq_ok, Except.ok.injEq]
  constructor
  · rintro ⟨l, hl, v, hv, rfl⟩
    exact ⟨⟨l, hl⟩, hv⟩
  · rintro ⟨⟨l, hl⟩, hv⟩
    exact ⟨l, hl, share.value, hv, rfl⟩

/-- A share that is dealt in place has the level of the polynomial and overwrites
a share at that level. -/
theorem shareInto_eq_ok {x : PublicPoint} {s share : Share E}
    (h : EStateM.run (shareInto c x p) s = .ok () share) :
    ∃ l, level c p = .ok l ∧ Share.levelOf c s = .ok l ∧ evaluate c x p = .ok share.value := by
  simp only [shareInto, Action.run_bind_eq_ok, Action.run_lift_eq_ok, EStateM.run_get,
    EStateM.Result.ok.injEq] at h
  rcases h with ⟨l, _, ⟨hl, rfl⟩, s, _, ⟨rfl, rfl⟩, lo, _, ⟨hlo, rfl⟩, h⟩
  split at h
  · cases h
  · rename_i hsame
    rw [not_ne_iff] at hsame
    simp only [Action.run_bind_eq_ok, Action.run_lift_eq_ok, EStateM.run_set,
      EStateM.Result.ok.injEq] at h
    rcases h with ⟨v, _, ⟨hv, rfl⟩, -, rfl⟩
    exact ⟨l, hl, hsame ▸ hlo, hv⟩

end Levels

section Laws

variable {C E L : Type} [ResidueElement E] [ResidueChain C E L] [ReducedElement E]
  [ChainView C E] [LawfulChain C E L] {c : C} {l : L} {x : PublicPoint}

/-! ## Points -/

/-- A point is refused exactly when one of its limbs is zero. -/
theorem contains_zero_iff (hc : Built c) :
    (Scalar.ofWord (moduli c) x.value).limbs.contains 0 = false ↔ x.Admissible (moduli c) := by
  have hlimb : ∀ q ∈ moduli c,
      q.reduce x.value = 0 ↔ x.classes q = 0 := by
    intro q hq
    have hpos := (LawfulChain.suitable hc q hq).zero_lt
    have hreduced := Modulus.residue_inj (Modulus.reduce_lt hpos x.value) hpos
    rw [Modulus.residue_reduce, Modulus.residue_zero] at hreduced
    exact hreduced.symm
  rw [← Bool.not_eq_true, List.contains_iff_mem, Scalar.ofWord, List.mem_map]
  constructor
  · intro h q hq hzero
    exact h ⟨q, hq, (hlimb q hq).mpr hzero⟩
  · rintro h ⟨q, hq, hzero⟩
    exact h q hq ((hlimb q hq).mp hzero)

/-- The scalar of an admissible point represents its classes. -/
theorem pointScalar_of_admissible (hc : Built c) (hx : x.Admissible (moduli c)) :
    ∃ s, pointScalar c x = .ok s ∧
      Scalar.Represents (moduli c) s x.classes := by
  have hzero := (contains_zero_iff hc).mpr hx
  obtain ⟨s, hs, hrep⟩ :=
    Scalar.represents_ofWord (ε := SchemeError) (LawfulChain.suitable hc) x.value
  refine ⟨s, ?_, hrep⟩
  rw [pointScalar, hzero, if_neg Bool.false_ne_true, hs]

theorem pointScalar_of_not_admissible (hc : Built c) (hx : ¬x.Admissible (moduli c)) :
    pointScalar c x = .error (.failure (.invalidPublicPoint x.value)) := by
  rw [← contains_zero_iff hc, Bool.not_eq_false] at hx
  rw [pointScalar, hx, if_pos rfl, Outcome.fail_eq]

theorem admissible_of_pointScalar {s : Scalar} (hc : Built c) (h : pointScalar c x = .ok s) :
    x.Admissible (moduli c) := by
  by_contra hx
  rw [pointScalar_of_not_admissible hc hx] at h
  cases h

/-! ## Horner's rule -/

theorem hornerStep_of_represents {s : Scalar} {f : ResidueFamily} {e acc : E} (hc : Built c)
    (hs : Scalar.Represents (moduli c) s f) (he : ElementAt c l e) (hacc : ElementAt c l acc) :
    ∃ v, hornerStep c s e acc = .ok v ∧ ElementAt c l v ∧
      ∀ (i : Nat) (q : Modulus) (j : Nat), (moduli c)[i]? = some q →
        classAt c v q i j = classAt c e q i j + f q * classAt c acc q i j := by
  obtain ⟨scaled, hscaled, hscaledAt, hproduct⟩ := run_scaleAssign_of_represents hc hacc hs
  obtain ⟨v, hv, hvAt, hsum⟩ := LawfulChain.run_addAssign hc hscaledAt he
  refine ⟨v, ?_, hvAt, ?_⟩
  · simp only [hornerStep, Action.applyTo_eq_ok.mpr hscaled, Outcome.ok_bind,
      Action.applyTo_eq_ok.mpr hv]
  · intro i q j hq
    rw [hsum i q j hq, hproduct i q j hq]
    ring

/-- Horner's rule computes the values of the class polynomials. -/
theorem horner_of_represents {s : Scalar} {f : ResidueFamily} (hc : Built c)
    (hs : Scalar.Represents (moduli c) s f) {e : E} {es : List E}
    (hes : ∀ a ∈ e :: es, ElementAt c l a) :
    ∃ v, horner c s e es = .ok v ∧ ElementAt c l v ∧
      ∀ (i : Nat) (q : Modulus) (j : Nat), (moduli c)[i]? = some q →
        classAt c v q i j = (ascending ((e :: es).map fun a => classAt c a q i j)).eval (f q) := by
  induction es generalizing e with
  | nil =>
      refine ⟨e, rfl, hes e List.mem_cons_self, ?_⟩
      intro i q j _
      simp
  | cons e' es ih =>
      obtain ⟨acc, hacc, haccAt, hvalue⟩ :=
        ih fun a ha => hes a (List.mem_cons_of_mem e ha)
      obtain ⟨v, hv, hvAt, hclass⟩ :=
        hornerStep_of_represents hc hs (hes e List.mem_cons_self) haccAt
      refine ⟨v, ?_, hvAt, ?_⟩
      · rw [horner, hacc, Outcome.ok_bind, hv]
      · intro i q j hq
        rw [hclass i q j hq, hvalue i q j hq, List.map_cons (a := e) (l := e' :: es),
          ascending_cons, eval_add, eval_C, eval_mul, eval_X]

/-! ## Shares -/

variable {p : SharingPolynomial E}

/-- At an admissible point Horner's rule gives the values of the class
polynomials. -/
theorem evaluate_of_admissible (hc : Built c) (hp : ∀ e ∈ p.coefficients, ElementAt c l e)
    (hx : x.Admissible (moduli c)) :
    ∃ v, evaluate c x p = .ok v ∧ ElementAt c l v ∧
      ∀ (i : Nat) (q : Modulus) (j : Nat), (moduli c)[i]? = some q →
        classAt c v q i j = (classPolynomial c p q i j).eval (x.classes q) := by
  obtain ⟨s, hs, hrep⟩ := pointScalar_of_admissible hc hx
  obtain ⟨v, hv, hvAt, hvalue⟩ := horner_of_represents hc hrep hp
  refine ⟨v, ?_, hvAt, hvalue⟩
  rw [evaluate, hs, Outcome.ok_bind, hv, Outcome.mapError_ok]

theorem evaluate_of_not_admissible (hc : Built c) (hx : ¬x.Admissible (moduli c)) :
    evaluate c x p = .error (.failure (.invalidPublicPoint x.value)) := by
  rw [evaluate, pointScalar_of_not_admissible hc hx, Outcome.error_bind]

theorem admissible_of_evaluate {v : E} (hc : Built c) (h : evaluate c x p = .ok v) :
    x.Admissible (moduli c) := by
  by_contra hx
  rw [evaluate_of_not_admissible hc hx] at h
  cases h

theorem classAt_of_evaluate {v : E} (hc : Built c) (hp : ∀ e ∈ p.coefficients, ElementAt c l e)
    (h : evaluate c x p = .ok v) :
    ElementAt c l v ∧ ∀ (i : Nat) (q : Modulus) (j : Nat), (moduli c)[i]? = some q →
      classAt c v q i j = (classPolynomial c p q i j).eval (x.classes q) := by
  obtain ⟨v', hv', hat, hvalue⟩ := evaluate_of_admissible hc hp (admissible_of_evaluate hc h)
  obtain rfl : v' = v := Except.ok.inj (hv'.symm.trans h)
  exact ⟨hat, hvalue⟩

variable [DecidableEq L] {share : Share E}

/-- At an admissible point a polynomial at a level has a share at that level. -/
theorem shareAt_of_admissible (hc : Built c) (hp : ∀ e ∈ p.coefficients, ElementAt c l e)
    (hx : x.Admissible (moduli c)) :
    ∃ share, shareAt c x p = .ok share ∧ ElementAt c l share.value ∧
      ∀ (i : Nat) (q : Modulus) (j : Nat), (moduli c)[i]? = some q →
        classAt c share.value q i j = (classPolynomial c p q i j).eval (x.classes q) := by
  obtain ⟨v, hv, hat, hvalue⟩ := evaluate_of_admissible hc hp hx
  have hlevel : level c p = .ok l := level_eq_ok.mpr fun e he => (hp e he).level
  exact ⟨⟨v⟩, shareAt_eq_ok.mpr ⟨⟨l, hlevel⟩, hv⟩, hat, hvalue⟩

theorem admissible_of_shareAt (hc : Built c) (h : shareAt c x p = .ok share) :
    x.Admissible (moduli c) :=
  admissible_of_evaluate hc (shareAt_eq_ok.mp h).2

/-- A polynomial at a level has a share exactly at the admissible points. -/
theorem shareAt_eq_ok_iff (hc : Built c) (hp : ∀ e ∈ p.coefficients, ElementAt c l e) :
    (∃ share, shareAt c x p = .ok share) ↔ x.Admissible (moduli c) := by
  constructor
  · rintro ⟨share, hshare⟩
    exact admissible_of_shareAt hc hshare
  · intro hx
    obtain ⟨share, hshare, -⟩ := shareAt_of_admissible hc hp hx
    exact ⟨share, hshare⟩

/-- The classes of a share are the values of the class polynomials. -/
theorem classAt_of_shareAt (hc : Built c) (hp : ∀ e ∈ p.coefficients, ElementAt c l e)
    (h : shareAt c x p = .ok share) :
    ElementAt c l share.value ∧ ∀ (i : Nat) (q : Modulus) (j : Nat), (moduli c)[i]? = some q →
      classAt c share.value q i j = (classPolynomial c p q i j).eval (x.classes q) :=
  classAt_of_evaluate hc hp (shareAt_eq_ok.mp h).2

/-! ## Errors -/

theorem level_reported (c : C) (p : SharingPolynomial E) : (level c p).Reported := by
  have hlevelOf : ∀ e : E, (levelOf c e).Reported := by
    intro e
    rcases LawfulChain.levelOf_cases c e with ⟨l, hl⟩ | hl
    · exact hl ▸ Outcome.reported_ok l
    · exact hl ▸ Outcome.reported_failure _
  have hcheck : ∀ l (es : List E), (checkLevel c l es).Reported := by
    intro l es
    induction es with
    | nil => exact Outcome.reported_ok ()
    | cons e es ih =>
        apply ((hlevelOf e).mapError _).bind
        intro le _
        dsimp only
        split
        · exact Outcome.reported_failure _
        · exact ih
  apply ((hlevelOf p.secret).mapError _).bind
  intro l _
  apply (hcheck l p.masks).bind
  intro _ _
  exact Outcome.reported_ok l

end Laws

end SharingPolynomial

end RingShamir
