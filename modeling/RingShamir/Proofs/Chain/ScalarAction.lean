import RingShamir.Proofs.Chain.Extended
import RingShamir.Proofs.Chain.Plain
import RingShamir.Proofs.Scalar.Classes

/-!
# Scalars act on elements

Multiplying an element by a scalar multiplies each coefficient by the class of the limb for
its modulus.  So a product of scalars acts as its factors do one after the other, an inverse
undoes what the scalar did, one does nothing, and sums may be taken before or after.  This is
so for every scalar with reduced limbs, whether it stands for an integer or not, and for
elements at every level: the limbs for moduli that an element does not use are passed over.

Main results:

- Theorem `run_scaleAssign_of_reduced`: multiplication by a reduced scalar.
- Definition `ScalarsAct` and theorem `scalars_act`: the laws of the action, over both kinds
  of chains.
-/

namespace RingShamir

open ResidueChain

section Statements

variable {C E L : Type} [ResidueElement E] [ResidueChain C E L] [ReducedElement E]
  [ChainView C E]

/-- The scalars of a chain with reduced limbs act on its elements as elements of the product
of the fields of its moduli. -/
structure ScalarsAct (ε : Type) (c : C) : Prop where
  /-- Multiplication by a scalar multiplies the class of each coefficient by that of the limb
  for its modulus, and keeps the level. -/
  product : ∀ s (l : L) (e : E), Scalar.Reduced (moduli c) s → ElementAt c l e →
    ∃ e', EStateM.run (scaleAssign c s) e = .ok () e' ∧ ElementAt c l e' ∧
      ∀ (i : Nat) (q : Modulus) (j : Nat), (moduli c)[i]? = some q →
        classAt c e' q i j = classAt c e q i j * s.limbClass q i
  /-- Differences and products of Montgomery forms of words are those of the words. -/
  words : ∀ u v : UInt64, ∃ a b d p,
    (Scalar.toMontgomery (moduli c) (Scalar.ofWord (moduli c) u) : Outcome ε Scalar) = .ok a ∧
    (Scalar.toMontgomery (moduli c) (Scalar.ofWord (moduli c) v) : Outcome ε Scalar) = .ok b ∧
    (Scalar.sub (moduli c) a b : Outcome ε Scalar) = .ok d ∧
    (Scalar.mul (moduli c) a b : Outcome ε Scalar) = .ok p ∧
      Scalar.FormOf (moduli c) a u.toNat ∧ Scalar.FormOf (moduli c) b v.toNat ∧
        Scalar.FormOf (moduli c) d (u.toNat - v.toNat) ∧
          Scalar.FormOf (moduli c) p (u.toNat * v.toNat)
  /-- Scalars with a limb that is zero have no inverse, and all others have one. -/
  inverse_none : ∀ s, Scalar.Reduced (moduli c) s →
    ((Scalar.inverse (moduli c) s : Outcome ε _) = .ok none ↔ 0 ∈ s.limbs)
  /-- The inverse undoes the multiplication of scalars and of elements. -/
  inverse_some : ∀ s, Scalar.Reduced (moduli c) s → 0 ∉ s.limbs →
    ∃ r, (Scalar.inverse (moduli c) s : Outcome ε _) = .ok (some r) ∧
      Scalar.Reduced (moduli c) r ∧
        (∀ a, Scalar.Reduced (moduli c) a →
          (do Scalar.mul (moduli c) (← Scalar.mul (moduli c) a s) r : Outcome ε Scalar) = .ok a) ∧
        ∀ (l : L) (e : E), ElementAt c l e →
          EStateM.run (do scaleAssign c s; scaleAssign c r) e = .ok () e
  /-- Multiplication by a product is multiplication by the factors. -/
  mul : ∀ s r, Scalar.Reduced (moduli c) s → Scalar.Reduced (moduli c) r →
    ∃ p, (Scalar.mul (moduli c) s r : Outcome ε Scalar) = .ok p ∧ Scalar.Reduced (moduli c) p ∧
      EStateM.run (Scalar.mulAssign (moduli c) r : Action ε Scalar Unit) s = .ok () p ∧
        ∀ (l : L) (e : E), ElementAt c l e → ∃ e', ElementAt c l e' ∧
          EStateM.run (scaleAssign c p) e = .ok () e' ∧
            EStateM.run (do scaleAssign c s; scaleAssign c r) e = .ok () e'
  /-- Multiplication by one changes nothing. -/
  one : ∃ o, (Scalar.one (moduli c) : Outcome ε Scalar) = .ok o ∧ Scalar.Reduced (moduli c) o ∧
    ∀ (l : L) (e : E), ElementAt c l e → EStateM.run (scaleAssign c o) e = .ok () e
  /-- The product of a sum is the sum of the products. -/
  add : ∀ s (l : L) (a b out out' : E), Scalar.Reduced (moduli c) s → ElementAt c l a →
    ElementAt c l b → ElementAt c l out → ElementAt c l out' → ∃ a' b' sum e,
      EStateM.run (scaleAssign c s) a = .ok () a' ∧ EStateM.run (scaleAssign c s) b = .ok () b' ∧
      EStateM.run (addInto c a b) out = .ok () sum ∧
      EStateM.run (scaleAssign c s) sum = .ok () e ∧
      EStateM.run (addInto c a' b') out' = .ok () e
  /-- The same holds of sums in place. -/
  add_assign : ∀ s (l : L) (a b : E), Scalar.Reduced (moduli c) s → ElementAt c l a →
    ElementAt c l b → ∃ a' b' sum e,
      EStateM.run (scaleAssign c s) a = .ok () a' ∧ EStateM.run (scaleAssign c s) b = .ok () b' ∧
      EStateM.run (addAssign c b) a = .ok () sum ∧
      EStateM.run (scaleAssign c s) sum = .ok () e ∧
      EStateM.run (addAssign c b') a' = .ok () e

end Statements

section Laws

variable {C E L : Type} [ResidueElement E] [ResidueChain C E L] [ReducedElement E]
  [ChainView C E] [LawfulChain C E L] {ε : Type} {c : C} {l : L} {a b e sum : E}
  {s r : Scalar}

/-- Multiplication by a reduced scalar multiplies by the classes of its limbs. -/
theorem run_scaleAssign_of_reduced (hc : Built c) (he : ElementAt c l e)
    (hs : Scalar.Reduced (moduli c) s) :
    ∃ e', EStateM.run (scaleAssign c s) e = .ok () e' ∧ ElementAt c l e' ∧
      ∀ (i : Nat) (q : Modulus) (j : Nat), (moduli c)[i]? = some q →
        classAt c e' q i j = classAt c e q i j * s.limbClass q i := by
  obtain ⟨e', he', hat, hclass⟩ := LawfulChain.run_scaleAssign hc he hs.length_eq hs.reducedLimbs
  refine ⟨e', he', hat, fun i q j hq => ?_⟩
  obtain ⟨x, hx, -⟩ := hs.limb hq
  rw [hclass i q x j hq hx, Scalar.limbClass_of_limb hx]

/-- Multiplication by two scalars, one after the other. -/
theorem run_scaleAssign_twice (hc : Built c) (he : ElementAt c l e)
    (hs : Scalar.Reduced (moduli c) s) (hr : Scalar.Reduced (moduli c) r) :
    ∃ e', EStateM.run (do scaleAssign c s; scaleAssign c r) e = .ok () e' ∧ ElementAt c l e' ∧
      ∀ (i : Nat) (q : Modulus) (j : Nat), (moduli c)[i]? = some q →
        classAt c e' q i j = classAt c e q i j * (s.limbClass q i * r.limbClass q i) := by
  obtain ⟨d, hd, hdAt, hdclass⟩ := run_scaleAssign_of_reduced hc he hs
  obtain ⟨e', he', hat, hclass⟩ := run_scaleAssign_of_reduced hc hdAt hr
  refine ⟨e', ?_, hat, fun i q j hq => ?_⟩
  · rw [EStateM.run_bind, hd]
    exact he'
  · rw [hclass i q j hq, hdclass i q j hq, mul_assoc]

/-- Multiplication by the factors of a product of classes. -/
theorem run_scaleAssign_of_classes {p : Scalar} (hc : Built c) (he : ElementAt c l e)
    (hs : Scalar.Reduced (moduli c) s) (hr : Scalar.Reduced (moduli c) r)
    (hp : Scalar.Reduced (moduli c) p) (hclass : ∀ (i : Nat) q, (moduli c)[i]? = some q →
      p.limbClass q i = s.limbClass q i * r.limbClass q i) :
    ∃ e', ElementAt c l e' ∧ EStateM.run (scaleAssign c p) e = .ok () e' ∧
      EStateM.run (do scaleAssign c s; scaleAssign c r) e = .ok () e' := by
  obtain ⟨e', he', hat, hproduct⟩ := run_scaleAssign_of_reduced hc he hp
  obtain ⟨d, hd, hdAt, hdclass⟩ := run_scaleAssign_twice hc he hs hr
  have hsame : d = e' := by
    apply eq_of_classAt hc hdAt hat
    intro i q j hq
    rw [hproduct i q j hq, hdclass i q j hq, hclass i q hq]
  exact ⟨e', hat, he', hsame ▸ hd⟩

theorem run_scaleAssign_one (hc : Built c) (he : ElementAt c l e)
    (hs : Scalar.Reduced (moduli c) s)
    (hclass : ∀ (i : Nat) q, (moduli c)[i]? = some q → s.limbClass q i = 1) :
    EStateM.run (scaleAssign c s) e = .ok () e := by
  obtain ⟨e', he', hat, hproduct⟩ := run_scaleAssign_of_reduced hc he hs
  have hsame : e' = e := by
    apply eq_of_classAt hc hat he
    intro i q j hq
    rw [hproduct i q j hq, hclass i q hq, mul_one]
  rw [he', hsame]

/-- The product of a sum of classes is the only element with the sum of the products. -/
theorem exists_scaled_sum (hc : Built c) (hs : Scalar.Reduced (moduli c) s)
    (ha : ElementAt c l a) (hb : ElementAt c l b) (hat : ElementAt c l sum)
    (hsum : ∀ (i : Nat) (q : Modulus) (j : Nat), (moduli c)[i]? = some q →
      classAt c sum q i j = classAt c a q i j + classAt c b q i j) :
    ∃ a' b' e, EStateM.run (scaleAssign c s) a = .ok () a' ∧
      EStateM.run (scaleAssign c s) b = .ok () b' ∧ EStateM.run (scaleAssign c s) sum = .ok () e ∧
        ElementAt c l a' ∧ ElementAt c l b' ∧ ∀ d, ElementAt c l d →
          (∀ (i : Nat) (q : Modulus) (j : Nat), (moduli c)[i]? = some q →
            classAt c d q i j = classAt c a' q i j + classAt c b' q i j) → d = e := by
  obtain ⟨a', ha', haAt, haclass⟩ := run_scaleAssign_of_reduced hc ha hs
  obtain ⟨b', hb', hbAt, hbclass⟩ := run_scaleAssign_of_reduced hc hb hs
  obtain ⟨e, he, heAt, heclass⟩ := run_scaleAssign_of_reduced hc hat hs
  refine ⟨a', b', e, ha', hb', he, haAt, hbAt, fun d hd hdclass => ?_⟩
  apply eq_of_classAt hc hd heAt
  intro i q j hq
  rw [hdclass i q j hq, haclass i q j hq, hbclass i q j hq, heclass i q j hq, hsum i q j hq,
    add_mul]

theorem scalarsAct_of_laws (hc : Built c) (hexact : Modulus.PrimalityExact (moduli c)) :
    ScalarsAct ε c := by
  have hqs := LawfulChain.suitable hc
  have hprime : ∀ q ∈ moduli c, q.Suitable ∧ q.value.toNat.Prime :=
    fun q hq => ⟨hqs q hq, (hqs q hq).prime hexact hq⟩
  constructor
  case product => exact fun s l e hs he => run_scaleAssign_of_reduced hc he hs
  case words => exact Scalar.formOf_words hqs
  case inverse_none => exact fun s hs => Scalar.inverse_eq_none_iff hprime hs
  case inverse_some =>
    intro s hs hne
    obtain ⟨r, hr, hreduced, hclass⟩ := Scalar.inverse_spec (ε := ε) hprime hs hne
    refine ⟨r, hr, hreduced, fun a ha => ?_, fun l e he => ?_⟩
    · exact Scalar.mul_mul_inverse hqs ha hs hreduced hclass
    · obtain ⟨o, -, horeduced, hoclass⟩ := Scalar.one_spec (ε := ε) hqs
      obtain ⟨e', -, hone, hrun⟩ := run_scaleAssign_of_classes hc he hs hreduced horeduced
        fun i q hq => (hoclass i q hq).trans (hclass i q hq).symm
      rw [run_scaleAssign_one hc he horeduced hoclass] at hone
      cases hone
      exact hrun
  case mul =>
    intro s r hs hr
    obtain ⟨p, hp, hreduced, hclass⟩ := Scalar.mul_spec (ε := ε) hqs hs hr
    refine ⟨p, hp, hreduced, ?_, fun l e he => ?_⟩
    · simp only [Scalar.mulAssign, EStateM.run_bind, EStateM.run_get, Action.run_lift, hp,
        EStateM.run_set]
    · exact run_scaleAssign_of_classes hc he hs hr hreduced hclass
  case one =>
    obtain ⟨o, ho, hreduced, hclass⟩ := Scalar.one_spec (ε := ε) hqs
    exact ⟨o, ho, hreduced, fun l e he => run_scaleAssign_one hc he hreduced hclass⟩
  case add =>
    intro s l a b out out' hs ha hb hout hout'
    obtain ⟨sum, hsum, hat, hclass⟩ := LawfulChain.run_addInto hc ha hb hout
    obtain ⟨a', b', e, ha', hb', he, haAt, hbAt, hunique⟩ :=
      exists_scaled_sum hc hs ha hb hat hclass
    obtain ⟨d, hd, hdAt, hdclass⟩ := LawfulChain.run_addInto hc haAt hbAt hout'
    exact ⟨a', b', sum, e, ha', hb', hsum, he, hunique d hdAt hdclass ▸ hd⟩
  case add_assign =>
    intro s l a b hs ha hb
    obtain ⟨sum, hsum, hat, hclass⟩ := LawfulChain.run_addAssign hc ha hb
    obtain ⟨a', b', e, ha', hb', he, haAt, hbAt, hunique⟩ :=
      exists_scaled_sum hc hs ha hb hat hclass
    obtain ⟨d, hd, hdAt, hdclass⟩ := LawfulChain.run_addAssign hc haAt hbAt
    exact ⟨a', b', sum, e, ha', hb', hsum, he, hunique d hdAt hdclass ▸ hd⟩

end Laws

/-- Scalars act on elements, over the chains of a single basis and over those of two bases. -/
theorem scalars_act :
    (∀ (ε : Type) (c : PlainChain), Built c → Modulus.PrimalityExact (moduli c) →
      ScalarsAct ε c) ∧
    ∀ (ε : Type) (c : ExtendedChain), Built c → Modulus.PrimalityExact (moduli c) →
      ScalarsAct ε c :=
  ⟨fun _ _ hc hexact => scalarsAct_of_laws hc hexact,
    fun _ _ hc hexact => scalarsAct_of_laws hc hexact⟩

section FiveSeven

open PlainChain

/-- The constant two modulo five and five modulo seven. -/
def twoFiveOverFiveSeven : RnsPoly :=
  elementOverFiveSeven [[2, 0, 0, 0, 0, 0, 0, 0], [5, 0, 0, 0, 0, 0, 0, 0]]

/-- Over five and seven the limbs two and three stand for two and five, as three is the
Montgomery form of five: the constant one is multiplied by these classes.  The limbs have an
inverse that brings one back, and two and zero have none. -/
theorem scalars_act_fiveSeven :
    (EStateM.run (ResidueChain.scaleAssign fiveSeven ⟨[2, 3]⟩) oneOverFiveSeven =
        .ok () twoFiveOverFiveSeven ∧
      ∀ (i : Nat) (q : Modulus) (j : Nat), (moduli fiveSeven)[i]? = some q →
        classAt fiveSeven twoFiveOverFiveSeven q i j =
          classAt fiveSeven oneOverFiveSeven q i j * Scalar.limbClass ⟨[2, 3]⟩ q i) ∧
    (∃ r, (Scalar.inverse (moduli fiveSeven) ⟨[2, 3]⟩ : Outcome RingError _) = .ok (some r) ∧
      EStateM.run (do
        ResidueChain.scaleAssign fiveSeven ⟨[2, 3]⟩
        ResidueChain.scaleAssign fiveSeven r) oneOverFiveSeven = .ok () oneOverFiveSeven) ∧
    (Scalar.inverse (moduli fiveSeven) ⟨[2, 0]⟩ : Outcome RingError _) = .ok none := by
  have hacts := scalars_act.1 RingError fiveSeven fiveSeven_built primalityExact_fiveSeven
  have hreduced : Scalar.Reduced (moduli fiveSeven) ⟨[2, 3]⟩ :=
    .cons (by decide) (.cons (by decide) .nil)
  have hreduced' : Scalar.Reduced (moduli fiveSeven) ⟨[2, 0]⟩ :=
    .cons (by decide) (.cons (by decide) .nil)
  refine ⟨?_, ?_, ?_⟩
  · have hrun : EStateM.run (ResidueChain.scaleAssign fiveSeven ⟨[2, 3]⟩) oneOverFiveSeven =
        .ok () twoFiveOverFiveSeven := Action.applyTo_eq_ok.mp (by decide +kernel)
    obtain ⟨e, he, -, hclass⟩ := hacts.product _ 1 _ hreduced elementAt_oneOverFiveSeven
    obtain rfl : e = twoFiveOverFiveSeven := by
      rw [hrun] at he
      cases he
      rfl
    exact ⟨hrun, hclass⟩
  · obtain ⟨r, hr, -, -, hundo⟩ := hacts.inverse_some _ hreduced (by decide)
    exact ⟨r, hr, hundo 1 _ elementAt_oneOverFiveSeven⟩
  · exact (hacts.inverse_none _ hreduced').mpr (by decide)

end FiveSeven

end RingShamir
