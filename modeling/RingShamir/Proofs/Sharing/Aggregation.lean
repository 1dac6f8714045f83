import RingShamir.Proofs.Chain.Lawful
import RingShamir.Sharing.Share

/-!
# Adding shares

Shares inherit the laws of the elements of a chain.  The operations on shares
check levels on their own before they hand over to the chain; the checks of the
chain then pass.

Main results:

- Theorems `run_addInto` and `run_addAssign`: shares at one level are added class
  by class.
- Theorems `run_addInto_fault` and `run_addAssign_fault`: other shares are not
  added, and the error says why.
- Theorem `decode_encode`: a share is read back from its bytes.
- Theorem `Schedule.run_eq_of_perm`: the aggregate of shares depends neither on
  their order nor on how they are grouped.
-/

namespace RingShamir.Share

open ResidueChain

/-! ## Parts of runs -/

section Runs

variable {C E L : Type} [ResidueChain C E L] {c : C} {l : L} {s : Share E}

theorem levelOf_eq_ok : levelOf c s = .ok l ↔ ResidueChain.levelOf c s.value = .ok l :=
  Outcome.mapError_eq_ok

/-- An action that succeeds on the value succeeds on the share. -/
theorem run_onValue {x : Action RingError E Unit} {e : E}
    (h : EStateM.run x s.value = .ok () e) : EStateM.run (onValue x) s = .ok () ⟨e⟩ := by
  simp only [onValue, Action.run_within, Action.run_mapError, h]

end Runs

section Laws

variable {C E L : Type} [ResidueElement E] [ResidueChain C E L] [ReducedElement E]
  [ChainView C E] [LawfulChain C E L] {c : C} {l : L} {a b out s : Share E}

/-! ## Levels -/

theorem levelOf_cases (c : C) (s : Share E) :
    (∃ l, levelOf c s = .ok l) ∨
      levelOf c s = .error (.failure (.ofRing .invalidContext)) ∧
        ∀ l, ResidueChain.levelOf c s.value ≠ .ok l := by
  rcases LawfulChain.levelOf_cases c s.value with ⟨l, hl⟩ | hl
  · exact .inl ⟨l, levelOf_eq_ok.mpr hl⟩
  · right
    rw [levelOf, hl]
    exact ⟨rfl, by simp⟩

theorem of_zeroAt {z : Share E} (hc : Built c) (h : zeroAt c l = .ok z) :
    ElementAt c l z.value ∧ ∀ q i j, classAt c z.value q i j = 0 := by
  simp only [zeroAt, Outcome.bind_eq_ok, Outcome.mapError_eq_ok, Outcome.pure_eq_ok,
    Except.ok.injEq] at h
  rcases h with ⟨e, he, rfl⟩
  exact ⟨(LawfulChain.of_zeroAt hc he).1, classAt_of_zeroAt hc he⟩

/-- A share at a level that can be addressed is read back from its bytes. -/
theorem decode_encode {z : Share E} (hc : Built c) (hs : ElementAt c l s.value)
    (h : zeroAt c l = .ok z) : decode c s.encode l = .ok s := by
  simp only [zeroAt, Outcome.bind_eq_ok, Outcome.mapError_eq_ok] at h
  rcases h with ⟨e, he, -⟩
  have hvalue := LawfulChain.decode_encode hc hs he
  simp only [decode, encode, hvalue, Outcome.mapError_ok, Outcome.ok_bind, Outcome.pure_eq_ok]

/-! ## Sums -/

variable [DecidableEq L]

theorem run_addInto (hc : Built c) (ha : ElementAt c l a.value) (hb : ElementAt c l b.value)
    (hout : ElementAt c l out.value) :
    ∃ s, EStateM.run (addInto c a b) out = .ok () s ∧ ElementAt c l s.value ∧
      ∀ (i : Nat) (q : Modulus) (j : Nat), (moduli c)[i]? = some q →
        classAt c s.value q i j = classAt c a.value q i j + classAt c b.value q i j := by
  obtain ⟨e, he, hat, hsum⟩ := LawfulChain.run_addInto hc ha hb hout
  refine ⟨⟨e⟩, ?_, hat, hsum⟩
  simp only [addInto, EStateM.run_bind, EStateM.run_get, Action.run_lift,
    levelOf_eq_ok.mpr ha.level, levelOf_eq_ok.mpr hb.level, levelOf_eq_ok.mpr hout.level, ne_eq,
    not_true_eq_false, or_self, if_false, run_onValue he]

theorem run_addAssign (hc : Built c) (ha : ElementAt c l a.value)
    (hb : ElementAt c l b.value) :
    ∃ s, EStateM.run (addAssign c b) a = .ok () s ∧ ElementAt c l s.value ∧
      ∀ (i : Nat) (q : Modulus) (j : Nat), (moduli c)[i]? = some q →
        classAt c s.value q i j = classAt c a.value q i j + classAt c b.value q i j := by
  obtain ⟨e, he, hat, hsum⟩ := LawfulChain.run_addAssign hc ha hb
  refine ⟨⟨e⟩, ?_, hat, hsum⟩
  simp only [addAssign, EStateM.run_bind, EStateM.run_get, Action.run_lift,
    levelOf_eq_ok.mpr ha.level, levelOf_eq_ok.mpr hb.level, ne_eq, not_true_eq_false, if_false,
    run_onValue he]

/-! ## Shares at several levels -/

theorem run_addInto_fault (h : ¬∃ l, ResidueChain.levelOf c a.value = .ok l ∧
      ResidueChain.levelOf c b.value = .ok l ∧ ResidueChain.levelOf c out.value = .ok l) :
    ∃ err, EStateM.run (addInto c a b) out = .error (.failure (.ofRing err)) out ∧
      LevelFault c [a.value, b.value, out.value] err := by
  rcases levelOf_cases c a with ⟨la, ha⟩ | ⟨ha, hnone⟩
  · rcases levelOf_cases c b with ⟨lb, hb⟩ | ⟨hb, hnone⟩
    · rcases levelOf_cases c out with ⟨lo, ho⟩ | ⟨ho, hnone⟩
      · have hne : la ≠ lb ∨ la ≠ lo := by
          by_contra hsame
          simp only [ne_eq, not_or, not_not] at hsame
          rcases hsame with ⟨rfl, rfl⟩
          exact h ⟨la, levelOf_eq_ok.mp ha, levelOf_eq_ok.mp hb, levelOf_eq_ok.mp ho⟩
        obtain ⟨text, htext⟩ : ∃ text, EStateM.run (addInto c a b) out =
            .error (.failure (.levelMismatch text)) out := by
          simp only [addInto, EStateM.run_bind, EStateM.run_get, Action.run_lift, ha, hb, ho,
            if_pos hne, Action.run_fail]
          exact ⟨_, rfl⟩
        refine ⟨.levelMismatch text, htext, a.value, by simp, ?_⟩
        rw [levelOf_eq_ok] at ha hb ho
        rcases hne with hne | hne
        · exact ⟨b.value, by simp, la, lb, ha, hb, hne⟩
        · exact ⟨out.value, by simp, la, lo, ha, ho, hne⟩
      · refine ⟨.invalidContext, ?_, out.value, by simp, hnone⟩
        simp only [addInto, EStateM.run_bind, EStateM.run_get, Action.run_lift, ha, hb, ho]
    · refine ⟨.invalidContext, ?_, b.value, by simp, hnone⟩
      simp only [addInto, EStateM.run_bind, Action.run_lift, ha, hb]
  · refine ⟨.invalidContext, ?_, a.value, by simp, hnone⟩
    simp only [addInto, EStateM.run_bind, Action.run_lift, ha]

theorem run_addAssign_fault (h : ¬∃ l, ResidueChain.levelOf c a.value = .ok l ∧
      ResidueChain.levelOf c b.value = .ok l) :
    ∃ err, EStateM.run (addAssign c b) a = .error (.failure (.ofRing err)) a ∧
      LevelFault c [a.value, b.value] err := by
  rcases levelOf_cases c a with ⟨la, ha⟩ | ⟨ha, hnone⟩
  · rcases levelOf_cases c b with ⟨lb, hb⟩ | ⟨hb, hnone⟩
    · have hne : la ≠ lb := by
        rintro rfl
        exact h ⟨la, levelOf_eq_ok.mp ha, levelOf_eq_ok.mp hb⟩
      obtain ⟨text, htext⟩ : ∃ text, EStateM.run (addAssign c b) a =
          .error (.failure (.levelMismatch text)) a := by
        simp only [addAssign, EStateM.run_bind, EStateM.run_get, Action.run_lift, ha, hb,
          if_pos hne, Action.run_fail]
        exact ⟨_, rfl⟩
      rw [levelOf_eq_ok] at ha hb
      exact ⟨.levelMismatch text, htext, a.value, by simp, b.value, by simp, la, lb, ha, hb, hne⟩
    · refine ⟨.invalidContext, ?_, b.value, by simp, hnone⟩
      simp only [addAssign, EStateM.run_bind, EStateM.run_get, Action.run_lift, ha, hb]
  · refine ⟨.invalidContext, ?_, a.value, by simp, hnone⟩
    simp only [addAssign, EStateM.run_bind, EStateM.run_get, Action.run_lift, ha]

end Laws

end RingShamir.Share

namespace RingShamir

open ResidueChain

/-- A schedule of additions of shares. -/
inductive Schedule (E : Type) where
  /-- The zero share, allocated at a level. -/
  | allocated
  /-- A share that was received. -/
  | received (s : Share E)
  /-- The second aggregate is added to the first one in place. -/
  | inPlace (a b : Schedule E)
  /-- The sum of two aggregates is stored in an allocated share. -/
  | paired (a b : Schedule E)

namespace Schedule

/-- The shares that a schedule adds, in order. -/
def leaves {E : Type} : Schedule E → List (Share E)
  | allocated => []
  | received s => [s]
  | inPlace a b => a.leaves ++ b.leaves
  | paired a b => a.leaves ++ b.leaves

/-- The schedule that adds shares one after the other to an allocated one. -/
def fold {E : Type} (shares : List (Share E)) : Schedule E :=
  shares.foldl (fun a s => inPlace a (received s)) allocated

theorem leaves_fold {E : Type} (shares : List (Share E)) : (fold shares).leaves = shares := by
  suffices h : ∀ a : Schedule E, (shares.foldl (fun a s => inPlace a (received s)) a).leaves =
      a.leaves ++ shares from h allocated
  induction shares with
  | nil => intro a; simp
  | cons s shares ih =>
      intro a
      rw [List.foldl_cons, ih, leaves, leaves, List.append_assoc, List.singleton_append]

variable {C E L : Type} [ResidueElement E] [ResidueChain C E L] [DecidableEq L]

/-- The aggregate of a schedule. -/
def run (c : C) (l : L) : Schedule E → Outcome SchemeError (Share E)
  | allocated => Share.zeroAt c l
  | received s => pure s
  | inPlace a b => do
      let x ← a.run c l
      let y ← b.run c l
      (Share.addAssign c y).applyTo x
  | paired a b => do
      let x ← a.run c l
      let y ← b.run c l
      let out ← Share.zeroAt c l
      (Share.addInto c x y).applyTo out

variable [ReducedElement E] [ChainView C E] [LawfulChain C E L] {c : C} {l : L}

/-- A schedule of shares at one level succeeds, and the classes of its aggregate
are the sums of theirs. -/
theorem run_of_elementAt {z : Share E} (hc : Built c) (hz : Share.zeroAt c l = .ok z)
    {schedule : Schedule E} (h : ∀ s ∈ schedule.leaves, ElementAt c l s.value) :
    ∃ share, schedule.run c l = .ok share ∧ ElementAt c l share.value ∧
      ∀ (i : Nat) (q : Modulus) (j : Nat), (moduli c)[i]? = some q →
        classAt c share.value q i j =
          (schedule.leaves.map fun s => classAt c s.value q i j).sum := by
  obtain ⟨hzat, hzero⟩ := Share.of_zeroAt hc hz
  induction schedule with
  | allocated => exact ⟨z, hz, hzat, fun i q j _ => hzero q i j⟩
  | received s => exact ⟨s, rfl, h s List.mem_cons_self, fun i q j _ => by simp [leaves]⟩
  | inPlace a b iha ihb =>
      obtain ⟨x, hx, hxat, hxsum⟩ := iha fun s hs => h s (List.mem_append_left _ hs)
      obtain ⟨y, hy, hyat, hysum⟩ := ihb fun s hs => h s (List.mem_append_right _ hs)
      obtain ⟨share, hshare, hat, hsum⟩ := Share.run_addAssign hc hxat hyat
      refine ⟨share, ?_, hat, ?_⟩
      · rw [run, hx, Outcome.ok_bind, hy, Outcome.ok_bind, Action.applyTo_eq_ok.mpr hshare]
      · intro i q j hq
        rw [hsum i q j hq, hxsum i q j hq, hysum i q j hq, leaves, List.map_append,
          List.sum_append]
  | paired a b iha ihb =>
      obtain ⟨x, hx, hxat, hxsum⟩ := iha fun s hs => h s (List.mem_append_left _ hs)
      obtain ⟨y, hy, hyat, hysum⟩ := ihb fun s hs => h s (List.mem_append_right _ hs)
      obtain ⟨share, hshare, hat, hsum⟩ := Share.run_addInto hc hxat hyat hzat
      refine ⟨share, ?_, hat, ?_⟩
      · rw [run, hx, Outcome.ok_bind, hy, Outcome.ok_bind, hz, Outcome.ok_bind,
          Action.applyTo_eq_ok.mpr hshare]
      · intro i q j hq
        rw [hsum i q j hq, hxsum i q j hq, hysum i q j hq, leaves, List.map_append,
          List.sum_append]

/-- The aggregate depends neither on the order of the shares nor on how they are
grouped. -/
theorem run_eq_of_perm {z : Share E} (hc : Built c) (hz : Share.zeroAt c l = .ok z)
    {schedule schedule' : Schedule E} (h : ∀ s ∈ schedule.leaves, ElementAt c l s.value)
    (hperm : schedule.leaves.Perm schedule'.leaves) :
    schedule.run c l = schedule'.run c l := by
  obtain ⟨share, hshare, hat, hsum⟩ := run_of_elementAt hc hz h
  obtain ⟨share', hshare', hat', hsum'⟩ :=
    run_of_elementAt hc hz fun s hs => h s (hperm.mem_iff.mpr hs)
  have hsame : share = share' := by
    apply Share.ext
    apply eq_of_classAt hc hat hat'
    intro i q j hq
    rw [hsum i q j hq, hsum' i q j hq]
    exact (hperm.map _).sum_eq
  rw [hshare, hshare', hsame]

end Schedule

end RingShamir
