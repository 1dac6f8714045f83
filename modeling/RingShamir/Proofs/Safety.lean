import RingShamir.Proofs.Outcome

/-!
# Safe outcomes and actions

An operation is safe if it breaks no precondition.  What makes safety compose is
that it is proved together with a property of the value, and for an action with an
invariant of the state that is kept however the action ends.  The rules follow the
way in which operations are put together.

Main results:

- Definition `Outcome.Ensures`: an outcome is safe, and its value has a property.
- Definition `Action.Keeps`: an action is safe and keeps an invariant.
- Definition `Action.Yields`: an action succeeds from every state.
- Theorems `Outcome.Ensures.bind`, `Action.Keeps.bind` and `Action.Yields.bind`: the
  rules for sequences.
- Theorem `Action.Keeps.within`: an action on a part of the state.
-/

namespace RingShamir

namespace Outcome

variable {ε ε' α β : Type} {x : Outcome ε α} {Q Q' : α → Prop} {R : β → Prop}

/-- An outcome breaks no precondition, and its value has a property. -/
structure Ensures (x : Outcome ε α) (Q : α → Prop) : Prop where
  /-- No precondition is broken. -/
  reported : x.Reported
  /-- The value has the property. -/
  of_ok : ∀ a, x = .ok a → Q a

theorem ensures_ok {a : α} (h : Q a) : Ensures (.ok a : Outcome ε α) Q := by
  refine ⟨reported_ok a, ?_⟩
  intro b hb
  exact Except.ok.inj hb ▸ h

theorem ensures_of_eq_ok {a : α} (hx : x = .ok a) (h : Q a) : x.Ensures Q :=
  hx ▸ ensures_ok h

theorem ensures_of_exists (h : ∃ a, x = .ok a ∧ Q a) : x.Ensures Q := by
  rcases h with ⟨a, hx, ha⟩
  exact ensures_of_eq_ok hx ha

theorem ensures_failure (e : ε) : Ensures (.error (.failure e) : Outcome ε α) Q :=
  ⟨reported_failure e, fun _ h => nomatch h⟩

theorem Reported.ensures (h : x.Reported) : x.Ensures fun _ => True :=
  ⟨h, fun _ _ => trivial⟩

theorem Ensures.imp (h : x.Ensures Q) (himp : ∀ a, Q a → Q' a) : x.Ensures Q' :=
  ⟨h.reported, fun a ha => himp a (h.of_ok a ha)⟩

theorem Ensures.bind {f : α → Outcome ε β} (hx : x.Ensures Q) (hf : ∀ a, Q a → (f a).Ensures R) :
    (x >>= f).Ensures R := by
  rcases hx.reported.cases with ⟨a, rfl⟩ | ⟨e, rfl⟩
  · exact hf a (hx.of_ok a rfl)
  · exact ensures_failure e

theorem Ensures.mapError (hx : x.Ensures Q) (f : ε → ε') : (x.mapError f).Ensures Q :=
  ⟨hx.reported.mapError f, fun a ha => hx.of_ok a (mapError_eq_ok.mp ha)⟩

/-- An operation that is safe on every entry is safe on a list. -/
theorem ensures_mapM {f : α → Outcome ε β} (hf : ∀ a, (f a).Ensures R) (as : List α) :
    (as.mapM f).Ensures fun bs => ∀ b ∈ bs, R b := by
  induction as with
  | nil => exact ensures_ok (by simp)
  | cons a as ih =>
      rw [List.mapM_cons]
      refine (hf a).bind fun b hb => ih.bind fun bs hbs => ensures_ok ?_
      exact List.forall_mem_cons.mpr ⟨hb, hbs⟩

end Outcome

namespace Action

variable {ε ε' σ τ α β : Type} {P : σ → Prop} {x : Action ε σ α} {Q Q' : α → Prop}
  {R : β → Prop}

/-- Started in a state with an invariant, an action breaks no precondition and
leaves a state with the invariant, and a value that it returns has a property. -/
structure Keeps (P : σ → Prop) (x : Action ε σ α) (Q : α → Prop) : Prop where
  /-- The ending is safe. -/
  ensures : ∀ s, P s → Outcome.Ensures (ending (EStateM.run x s)) Q
  /-- The final state has the invariant. -/
  invariant : ∀ s, P s → P (finalState (EStateM.run x s))

/-- An action that succeeds or reports an error, from each state with the
invariant. -/
theorem keeps_of_cases (h : ∀ s, P s → (∃ a s', EStateM.run x s = .ok a s' ∧ P s' ∧ Q a) ∨
    ∃ e s', EStateM.run x s = .error (.failure e) s' ∧ P s') : Keeps P x Q := by
  constructor
  · intro s hs
    rcases h s hs with ⟨a, s', hx, -, ha⟩ | ⟨e, s', hx, -⟩
    · rw [hx]
      exact Outcome.ensures_ok ha
    · rw [hx]
      exact Outcome.ensures_failure e
  · intro s hs
    rcases h s hs with ⟨a, s', hx, hs', -⟩ | ⟨e, s', hx, hs'⟩
    · exact hx ▸ hs'
    · exact hx ▸ hs'

/-- A safe run succeeds or reports an error. -/
theorem Keeps.cases (h : Keeps P x Q) {s : σ} (hs : P s) :
    (∃ a s', EStateM.run x s = .ok a s' ∧ P s' ∧ Q a) ∨
      ∃ e s', EStateM.run x s = .error (.failure e) s' ∧ P s' := by
  have hensures := h.ensures s hs
  have hinvariant := h.invariant s hs
  generalize EStateM.run x s = r at hensures hinvariant ⊢
  match r with
  | .ok a s' => exact .inl ⟨a, s', rfl, hinvariant, hensures.of_ok a rfl⟩
  | .error (.failure e) s' => exact .inr ⟨e, s', rfl, hinvariant⟩
  | .error .breach s' => exact absurd rfl hensures.reported

theorem Keeps.of_ok (h : Keeps P x Q) {s s' : σ} {a : α} (hs : P s)
    (hx : EStateM.run x s = .ok a s') : Q a := by
  have hensures := h.ensures s hs
  rw [hx] at hensures
  exact hensures.of_ok a rfl

theorem Keeps.imp (h : Keeps P x Q) (himp : ∀ a, Q a → Q' a) : Keeps P x Q' :=
  ⟨fun s hs => (h.ensures s hs).imp himp, h.invariant⟩

/-! ## Single steps -/

theorem keeps_pure {a : α} (h : Q a) : Keeps P (pure a : Action ε σ α) Q :=
  ⟨fun _ _ => Outcome.ensures_ok h, fun _ hs => hs⟩

theorem keeps_lift {o : Outcome ε α} (h : o.Ensures Q) :
    Keeps P (liftM o : Action ε σ α) Q := by
  constructor
  · intro s _
    cases o <;> exact h
  · intro s hs
    cases o <;> exact hs

theorem keeps_get : Keeps P (get : Action ε σ σ) P :=
  ⟨fun _ hs => Outcome.ensures_ok hs, fun _ hs => hs⟩

theorem keeps_set {s : σ} (h : P s) : Keeps P (set s : Action ε σ PUnit) fun _ => True :=
  ⟨fun _ _ => Outcome.ensures_ok trivial, fun _ _ => h⟩

theorem keeps_modify {f : σ → σ} (h : ∀ s, P s → P (f s)) :
    Keeps P (modify f : Action ε σ PUnit) fun _ => True :=
  ⟨fun _ _ => Outcome.ensures_ok trivial, h⟩

theorem keeps_fail (e : ε) : Keeps P (fail e : Action ε σ α) Q :=
  ⟨fun _ _ => Outcome.ensures_failure e, fun _ hs => hs⟩

theorem keeps_throw (e : ε) : Keeps P (throw (.failure e) : Action ε σ α) Q :=
  ⟨fun _ _ => Outcome.ensures_failure e, fun _ hs => hs⟩

theorem keeps_require {p : Prop} [Decidable p] (h : p) :
    Keeps P (require p : Action ε σ Unit) fun _ => True :=
  keeps_of_cases fun s hs => .inl ⟨(), s, run_require_of h s, hs, trivial⟩

/-! ## Composed actions -/

theorem Keeps.bind {f : α → Action ε σ β} (hx : Keeps P x Q) (hf : ∀ a, Q a → Keeps P (f a) R) :
    Keeps P (x >>= f) R := by
  apply keeps_of_cases
  intro s hs
  simp only [EStateM.run_bind]
  rcases hx.cases hs with ⟨a, s', hrun, hs', ha⟩ | ⟨e, s', hrun, hs'⟩
  · rw [hrun]
    exact (hf a ha).cases hs'
  · rw [hrun]
    exact .inr ⟨e, s', rfl, hs'⟩

theorem Keeps.mapError (h : Keeps P x Q) (f : ε → ε') : Keeps P (x.mapError f) Q := by
  apply keeps_of_cases
  intro s hs
  rw [run_mapError]
  rcases h.cases hs with ⟨a, s', hrun, hs', ha⟩ | ⟨e, s', hrun, hs'⟩
  · exact .inl ⟨a, s', by rw [hrun], hs', ha⟩
  · exact .inr ⟨f e, s', by rw [hrun]; rfl, hs'⟩

/-- An action on a part of the state keeps the invariant of the state if the part has
an invariant of its own and fits wherever that one holds. -/
theorem Keeps.within {P' : τ → Prop} {get : σ → τ} {put : τ → σ → σ} {x : Action ε τ α}
    (h : Keeps P' x Q) (hget : ∀ s, P s → P' (get s)) (hput : ∀ s t, P s → P' t → P (put t s)) :
    Keeps P (within get put x) Q := by
  apply keeps_of_cases
  intro s hs
  rw [run_within]
  rcases h.cases (hget s hs) with ⟨a, t, hrun, ht, ha⟩ | ⟨e, t, hrun, ht⟩
  · exact .inl ⟨a, put t s, by rw [hrun], hput s t hs ht, ha⟩
  · exact .inr ⟨e, put t s, by rw [hrun], hput s t hs ht⟩

theorem Keeps.applyTo {x : Action ε σ Unit} {R : Unit → Prop} (h : Keeps P x R) {s : σ}
    (hs : P s) : (x.applyTo s).Ensures P := by
  unfold Action.applyTo
  rcases h.cases hs with ⟨a, s', hrun, hs', -⟩ | ⟨e, s', hrun, -⟩
  · change x s = _ at hrun
    rw [hrun]
    exact Outcome.ensures_ok hs'
  · change x s = _ at hrun
    rw [hrun]
    exact Outcome.ensures_failure e

/-! ## Actions that succeed -/

/-- Started in any state an action succeeds, and the value that it returns has a
property. -/
def Yields (x : Action ε σ α) (Q : α → Prop) : Prop :=
  ∀ s, ∃ a s', EStateM.run x s = .ok a s' ∧ Q a

/-- An action that succeeds is safe. -/
theorem Yields.keeps (h : Yields x Q) : Keeps (fun _ => True) x Q := by
  apply keeps_of_cases
  intro s _
  obtain ⟨a, s', hrun, ha⟩ := h s
  exact .inl ⟨a, s', hrun, trivial, ha⟩

theorem Yields.imp (h : Yields x Q) (himp : ∀ a, Q a → Q' a) : Yields x Q' := by
  intro s
  obtain ⟨a, s', hrun, ha⟩ := h s
  exact ⟨a, s', hrun, himp a ha⟩

theorem yields_pure {a : α} (h : Q a) : Yields (pure a : Action ε σ α) Q :=
  fun s => ⟨a, s, rfl, h⟩

theorem yields_lift {o : Outcome ε α} {a : α} (ho : o = .ok a) (h : Q a) :
    Yields (liftM o : Action ε σ α) Q :=
  fun s => ⟨a, s, by rw [ho]; rfl, h⟩

theorem yields_require {p : Prop} [Decidable p] (h : p) :
    Yields (require p : Action ε σ Unit) fun _ => True :=
  fun s => ⟨(), s, run_require_of h s, trivial⟩

theorem Yields.bind {f : α → Action ε σ β} (hx : Yields x Q) (hf : ∀ a, Q a → Yields (f a) R) :
    Yields (x >>= f) R := by
  intro s
  obtain ⟨a, s', hrun, ha⟩ := hx s
  obtain ⟨b, s'', hrun', hb⟩ := hf a ha s'
  exact ⟨b, s'', run_bind_eq_ok.mpr ⟨a, s', hrun, hrun'⟩, hb⟩

theorem Yields.mapError (h : Yields x Q) (f : ε → ε') : Yields (x.mapError f) Q := by
  intro s
  obtain ⟨a, s', hrun, ha⟩ := h s
  exact ⟨a, s', by rw [run_mapError, hrun], ha⟩

/-- An action that succeeds for every entry succeeds for a list. -/
theorem yields_mapM {f : α → Action ε σ β} {T : α → β → Prop} {as : List α}
    (hf : ∀ a ∈ as, Yields (f a) (T a)) : Yields (as.mapM f) (List.Forall₂ T as) := by
  induction as with
  | nil => exact yields_pure .nil
  | cons a as ih =>
      rw [List.mapM_cons]
      refine (hf a List.mem_cons_self).bind fun b hb => ?_
      refine (ih fun x hx => hf x (List.mem_cons_of_mem a hx)).bind fun bs hbs => ?_
      exact yields_pure (.cons hb hbs)

end Action

end RingShamir
