import RingShamir.Chain.Class
import RingShamir.Proofs.RnsPoly
import RingShamir.Proofs.Scalar

/-!
# Laws of chains

What secret sharing relies on in a chain of moduli: an element at a level is a
family of residue classes, one for each modulus of the whole chain and each
position of a coefficient, and the operations on elements at one level are the
ring operations of these classes.  A modulus that an element does not use has
the class zero throughout.  Operations on elements that are not at one level
report why and leave their output alone.

Main results:

- Definition `ElementAt`: a valid element of a chain at a level.
- Class `LawfulChain`: the laws.
- Theorem `eq_of_classAt`: residue classes determine an element at a level.
-/

namespace RingShamir

open ResidueChain

/-- Elements that can be told to be well formed. -/
class ReducedElement (E : Type) where
  /-- The parts of the element have the shape of bases that were made of their
  moduli, and reduced coefficients. -/
  Valid : E → Prop

export ReducedElement (Valid)

/-- A view of the elements of a chain as coefficients. -/
class ChainView (C : Type) (E : outParam Type) where
  /-- The chain consists of bases that were made of their moduli. -/
  Built : C → Prop
  /-- The coefficient of an element for a modulus of the whole chain, zero where
  the element has none. -/
  coefficient : C → E → Nat → Nat → UInt64

export ChainView (Built coefficient)

section Elements

variable {C E L : Type} [ResidueChain C E L] [ReducedElement E] [ChainView C E]

/-- A valid element of a chain at a level. -/
structure ElementAt (c : C) (l : L) (e : E) : Prop where
  /-- The element is valid. -/
  valid : Valid e
  /-- The element is on the chain at the level. -/
  level : levelOf c e = .ok l

/-- The residue class of a coefficient. -/
def classAt (c : C) (e : E) (q : Modulus) (i j : Nat) : ZMod q.value.toNat :=
  q.residue (coefficient c e i j)

end Elements

section Faults

variable {C E L : Type} [ResidueChain C E L]

/-- Some elements are not on a chain, or two of them are at different levels;
the errors that say so. -/
def LevelFault (c : C) (es : List E) : RingError → Prop
  | .invalidContext => ∃ e ∈ es, ∀ l, levelOf c e ≠ .ok l
  | .levelMismatch _ =>
      ∃ a ∈ es, ∃ b ∈ es, ∃ la lb, levelOf c a = .ok la ∧ levelOf c b = .ok lb ∧ la ≠ lb
  | _ => False

theorem LevelFault.mono {c : C} {es es' : List E} {err : RingError} (h : LevelFault c es err)
    (hsub : es ⊆ es') : LevelFault c es' err := by
  cases err with
  | invalidContext =>
      rcases h with ⟨e, he, hlevel⟩
      exact ⟨e, hsub he, hlevel⟩
  | levelMismatch text =>
      rcases h with ⟨a, ha, b, hb, hlevels⟩
      exact ⟨a, hsub ha, b, hsub hb, hlevels⟩
  | _ => exact h

end Faults

/-- The laws of a chain. -/
class LawfulChain (C : Type) (E L : outParam Type) [ResidueElement E] [ResidueChain C E L]
    [ReducedElement E] [ChainView C E] : Prop where
  /-- The moduli suit Montgomery arithmetic and pass the primality test. -/
  suitable {c : C} : Built c → ∀ q ∈ moduli c, q.Suitable
  /-- An element has a level, or it is not on the chain. -/
  levelOf_cases (c : C) (e : E) :
    (∃ l, levelOf c e = .ok l) ∨ levelOf c e = .error (.failure .invalidContext)
  /-- Coefficients are reduced. -/
  coefficient_lt {c : C} {l : L} {e : E} {i : Nat} {q : Modulus} : Built c → ElementAt c l e →
    (moduli c)[i]? = some q → ∀ j, coefficient c e i j < q.value
  /-- Coefficients determine an element at a level. -/
  ext {c : C} {l : L} {a b : E} : Built c → ElementAt c l a → ElementAt c l b →
    (∀ (i : Nat) (q : Modulus) (j : Nat), (moduli c)[i]? = some q →
      coefficient c a i j = coefficient c b i j) → a = b
  /-- There are finitely many elements at a level. -/
  finite {c : C} (l : L) : Built c → Finite {e : E // ElementAt c l e}
  /-- The zero element of a level is at that level and has no other coefficients
  than zero. -/
  of_zeroAt {c : C} {l : L} {z : E} : Built c → zeroAt c l = .ok z →
    ElementAt c l z ∧ ∀ i j, coefficient c z i j = 0
  /-- An element at a level that can be addressed is read back from its bytes. -/
  decode_encode {c : C} {l : L} {e z : E} : Built c → ElementAt c l e → zeroAt c l = .ok z →
    decode c (ResidueElement.encode e) l = .ok e
  /-- Multiplication by a scalar with a reduced limb for each modulus. -/
  run_scaleAssign {c : C} {l : L} {a : E} {s : Scalar} : Built c → ElementAt c l a →
    s.length = (moduli c).length → RnsPoly.ReducedLimbs (moduli c) s.limbs →
      ∃ e, EStateM.run (scaleAssign c s) a = .ok () e ∧ ElementAt c l e ∧
        ∀ (i : Nat) (q : Modulus) (x : UInt64) (j : Nat), (moduli c)[i]? = some q →
          s.limbs[i]? = some x → classAt c e q i j = classAt c a q i j * q.montgomeryResidue x
  /-- Multiplication by a scalar of any length is atomic. -/
  scaleAssign_atomic {c : C} {a : E} {s : Scalar} : Built c → Valid a →
    RnsPoly.ReducedLimbs (moduli c) s.limbs → Action.Atomic (scaleAssign c s) a
  /-- The sum of two elements at the level of the output. -/
  run_addInto {c : C} {l : L} {a b out : E} : Built c → ElementAt c l a → ElementAt c l b →
    ElementAt c l out → ∃ e, EStateM.run (addInto c a b) out = .ok () e ∧ ElementAt c l e ∧
      ∀ (i : Nat) (q : Modulus) (j : Nat), (moduli c)[i]? = some q →
        classAt c e q i j = classAt c a q i j + classAt c b q i j
  /-- The sum of two elements at one level, in place. -/
  run_addAssign {c : C} {l : L} {a b : E} : Built c → ElementAt c l a → ElementAt c l b →
    ∃ e, EStateM.run (addAssign c b) a = .ok () e ∧ ElementAt c l e ∧
      ∀ (i : Nat) (q : Modulus) (j : Nat), (moduli c)[i]? = some q →
        classAt c e q i j = classAt c a q i j + classAt c b q i j
  /-- Elements that are not at one level are not added into an output. -/
  run_addInto_fault {c : C} {a b out : E} :
    (¬∃ l, levelOf c a = .ok l ∧ levelOf c b = .ok l ∧ levelOf c out = .ok l) →
      ∃ err, EStateM.run (addInto c a b) out = .error (.failure err) out ∧
        LevelFault c [a, b, out] err
  /-- Elements that are not at one level are not added in place. -/
  run_addAssign_fault {c : C} {a b : E} :
    (¬∃ l, levelOf c a = .ok l ∧ levelOf c b = .ok l) →
      ∃ err, EStateM.run (addAssign c b) a = .error (.failure err) a ∧
        LevelFault c [a, b] err

section Laws

variable {C E L : Type} [ResidueElement E] [ResidueChain C E L] [ReducedElement E]
  [ChainView C E] [LawfulChain C E L] {c : C} {l : L} {a b : E}

/-- Where the primality test is right, the moduli are prime. -/
theorem prime_of_mem {q : Modulus} (hc : Built c) (hexact : Modulus.PrimalityExact (moduli c))
    (hq : q ∈ moduli c) : q.value.toNat.Prime :=
  (LawfulChain.suitable hc q hq).prime hexact hq

theorem classAt_inj {i : Nat} {q : Modulus} (hc : Built c) (ha : ElementAt c l a)
    (hb : ElementAt c l b) (hq : (moduli c)[i]? = some q) (j : Nat) :
    classAt c a q i j = classAt c b q i j ↔ coefficient c a i j = coefficient c b i j :=
  Modulus.residue_inj (LawfulChain.coefficient_lt hc ha hq j)
    (LawfulChain.coefficient_lt hc hb hq j)

/-- Residue classes determine an element at a level. -/
theorem eq_of_classAt (hc : Built c) (ha : ElementAt c l a) (hb : ElementAt c l b)
    (h : ∀ (i : Nat) (q : Modulus) (j : Nat), (moduli c)[i]? = some q →
      classAt c a q i j = classAt c b q i j) : a = b := by
  apply LawfulChain.ext hc ha hb
  intro i q j hq
  exact (classAt_inj hc ha hb hq j).mp (h i q j hq)

/-- The zero element has the class zero everywhere. -/
theorem classAt_of_zeroAt {z : E} (hc : Built c) (h : zeroAt c l = .ok z) (q : Modulus)
    (i j : Nat) : classAt c z q i j = 0 := by
  rw [classAt, (LawfulChain.of_zeroAt hc h).2 i j, Modulus.residue_zero]

theorem Scalar.Reduced.reducedLimbs {s : Scalar} {qs : List Modulus}
    (h : Scalar.Reduced qs s) : RnsPoly.ReducedLimbs qs s.limbs :=
  fun _ _ _ hq hx => h.lt hq hx

/-- Multiplication by a scalar multiplies by the classes that it represents. -/
theorem run_scaleAssign_of_represents {s : Scalar} {f : ResidueFamily} (hc : Built c)
    (ha : ElementAt c l a) (hs : Scalar.Represents (moduli c) s f) :
    ∃ e, EStateM.run (scaleAssign c s) a = .ok () e ∧ ElementAt c l e ∧
      ∀ (i : Nat) (q : Modulus) (j : Nat), (moduli c)[i]? = some q →
        classAt c e q i j = classAt c a q i j * f q := by
  obtain ⟨e, he, hat, hclass⟩ :=
    LawfulChain.run_scaleAssign hc ha hs.length_eq hs.reduced.reducedLimbs
  refine ⟨e, he, hat, ?_⟩
  intro i q j hq
  obtain ⟨x, hx, -, hresidue⟩ := hs.getElem? hq
  rw [hclass i q x j hq hx, hresidue]

end Laws

/-! ## Checks of levels -/

section Checks

variable {C E L : Type} [ResidueChain C E L] [DecidableEq L]

/-- Check that two elements are on a chain at one level. -/
def checkLevels (c : C) (a b : E) : Outcome RingError Unit := do
  let la ← levelOf c a
  let lb ← levelOf c b
  if la ≠ lb then
    let ta := levelText c la
    let tb := levelText c lb
    Outcome.fail (.levelMismatch s!"{ta} != {tb}")
  else pure ()

theorem checkLevels_of_level {c : C} {l : L} {a b : E} (ha : levelOf c a = .ok l)
    (hb : levelOf c b = .ok l) : checkLevels c a b = .ok () := by
  simp [checkLevels, ha, hb]

/-- Elements of which one has no level, or two have different ones, fail the
check. -/
theorem checkLevels_fault {c : C} {a b : E}
    (hcases : ∀ e : E, (∃ l : L, levelOf c e = .ok l) ∨
      levelOf c e = .error (.failure .invalidContext))
    (h : ¬∃ l : L, levelOf c a = .ok l ∧ levelOf c b = .ok l) :
    ∃ err, checkLevels c a b = .error (.failure err) ∧ LevelFault c [a, b] err := by
  rcases hcases a with ⟨la, ha⟩ | ha
  · rcases hcases b with ⟨lb, hb⟩ | hb
    · have hne : la ≠ lb := by
        rintro rfl
        exact h ⟨la, ha, hb⟩
      have hcheck : checkLevels c a b = .error (.failure (.levelMismatch
          s!"{levelText c la} != {levelText c lb}")) := by
        simp only [checkLevels, ha, hb, Outcome.ok_bind, if_pos hne, Outcome.fail_eq]
      exact ⟨_, hcheck, a, by simp, b, by simp, la, lb, ha, hb, hne⟩
    · refine ⟨.invalidContext, ?_, b, by simp, by simp [hb]⟩
      simp [checkLevels, ha, hb]
  · refine ⟨.invalidContext, ?_, a, by simp, by simp [ha]⟩
    simp [checkLevels, ha]

/-- Check an operand against the other one and the output before an action. -/
def withOperandsChecked (c : C) (a b : E) (x : Action RingError E Unit) :
    Action RingError E Unit := do
  checkLevels c a b
  checkLevels c a (← get)
  x

/-- Check an operand against the output before an action. -/
def withOperandChecked (c : C) (b : E) (x : Action RingError E Unit) :
    Action RingError E Unit := do
  checkLevels c (← get) b
  x

variable {c : C} {l : L} {a b out : E} {x : Action RingError E Unit}

theorem run_withOperandsChecked (ha : levelOf c a = .ok l) (hb : levelOf c b = .ok l)
    (hout : levelOf c out = .ok l) :
    EStateM.run (withOperandsChecked c a b x) out = EStateM.run x out := by
  simp [withOperandsChecked, checkLevels_of_level ha hb, checkLevels_of_level ha hout]

theorem run_withOperandsChecked_fault
    (hcases : ∀ e : E, (∃ l : L, levelOf c e = .ok l) ∨
      levelOf c e = .error (.failure .invalidContext))
    (h : ¬∃ l : L, levelOf c a = .ok l ∧ levelOf c b = .ok l ∧ levelOf c out = .ok l) :
    ∃ err, EStateM.run (withOperandsChecked c a b x) out = .error (.failure err) out ∧
      LevelFault c [a, b, out] err := by
  by_cases hab : ∃ l : L, levelOf c a = .ok l ∧ levelOf c b = .ok l
  · rcases hab with ⟨l, ha, hb⟩
    have haout : ¬∃ l : L, levelOf c a = .ok l ∧ levelOf c out = .ok l := by
      rintro ⟨l', ha', hout⟩
      obtain rfl : l' = l := Except.ok.inj (ha'.symm.trans ha)
      exact h ⟨l', ha, hb, hout⟩
    obtain ⟨err, herr, hfault⟩ := checkLevels_fault hcases haout
    refine ⟨err, ?_, hfault.mono (by simp)⟩
    simp [withOperandsChecked, checkLevels_of_level ha hb, herr]
  · obtain ⟨err, herr, hfault⟩ := checkLevels_fault hcases hab
    refine ⟨err, ?_, hfault.mono (by simp)⟩
    simp [withOperandsChecked, herr]

theorem run_withOperandChecked (ha : levelOf c a = .ok l) (hb : levelOf c b = .ok l) :
    EStateM.run (withOperandChecked c b x) a = EStateM.run x a := by
  simp [withOperandChecked, checkLevels_of_level ha hb]

theorem run_withOperandChecked_fault
    (hcases : ∀ e : E, (∃ l : L, levelOf c e = .ok l) ∨
      levelOf c e = .error (.failure .invalidContext))
    (h : ¬∃ l : L, levelOf c a = .ok l ∧ levelOf c b = .ok l) :
    ∃ err, EStateM.run (withOperandChecked c b x) a = .error (.failure err) a ∧
      LevelFault c [a, b] err := by
  obtain ⟨err, herr, hfault⟩ := checkLevels_fault hcases h
  refine ⟨err, ?_, hfault⟩
  simp [withOperandChecked, herr]

end Checks

end RingShamir
