import Mathlib.Data.List.Forall2
import RingShamir.Outcome

/-!
# Runs of outcomes and actions

Rules that take a successful run apart into the runs of its parts, and rules
that put lists of successful operations together, entry by entry.

Main results:

- Theorems `Outcome.bind_eq_ok` and `Action.run_bind_eq_ok`: a sequence succeeds
  exactly when its parts do, one on the result of the other.
- Theorems `Outcome.mapM_eq_ok` and `Outcome.zipWithM_eq_ok`: an operation that
  succeeds on every entry of a list succeeds on the list.
- Definition `Outcome.Reported`: an outcome that breaks no precondition.
- Definition `Action.Atomic`: an action that succeeds, or reports an error and
  leaves the state as it was.
- Definitions `Action.finalState` and `Action.ending`: the state that a run
  leaves, however it ends, and how it ends.
-/

namespace RingShamir

/-! ## Entries of lists -/

section Entries

variable {α β : Type} {as : List α} {bs : List β}

theorem mem_zip_iff {p : α × β} :
    p ∈ as.zip bs ↔ ∃ i : Nat, as[i]? = some p.1 ∧ bs[i]? = some p.2 := by
  simp only [List.mem_iff_getElem?, List.getElem?_zip_eq_some]

/-- Related lists have related entries at every position. -/
theorem exists_getElem?_of_forall₂ {R : α → β → Prop} (h : List.Forall₂ R as bs) {i : Nat}
    {a : α} (ha : as[i]? = some a) : ∃ b, bs[i]? = some b ∧ R a b := by
  rcases List.getElem?_eq_some_iff.mp ha with ⟨hi, rfl⟩
  have hi' : i < bs.length := h.length_eq ▸ hi
  exact ⟨bs[i], List.getElem?_eq_getElem hi', h.get hi hi'⟩

/-- Entries of related lists at one position are related. -/
theorem getElem?_of_forall₂ {R : α → β → Prop} (h : List.Forall₂ R as bs) {i : Nat} {a : α} {b : β}
    (ha : as[i]? = some a) (hb : bs[i]? = some b) : R a b := by
  obtain ⟨b', hb', hab⟩ := exists_getElem?_of_forall₂ h ha
  obtain rfl : b' = b := Option.some.inj (hb'.symm.trans hb)
  exact hab

/-- An entry of one of two related lists is related to one of the other list. -/
theorem exists_mem_of_forall₂ {R : α → β → Prop} (h : List.Forall₂ R as bs) {a : α}
    (ha : a ∈ as) : ∃ b ∈ bs, R a b := by
  rcases List.mem_iff_getElem?.mp ha with ⟨i, hi⟩
  obtain ⟨b, hb, hab⟩ := exists_getElem?_of_forall₂ h hi
  exact ⟨b, List.mem_of_getElem? hb, hab⟩

/-- Two lists that are related to one list are related to it together. -/
theorem forall₂_zip {γ : Type} {cs : List γ} {R : α → β → Prop} {S : α → γ → Prop}
    (hb : List.Forall₂ R as bs) (hc : List.Forall₂ S as cs) :
    List.Forall₂ (fun a p => R a p.1 ∧ S a p.2) as (bs.zip cs) := by
  induction hb generalizing cs with
  | nil => exact .nil
  | cons hab _ ih =>
      rcases List.forall₂_cons_left_iff.mp hc with ⟨c, cs, hac, hrest, rfl⟩
      exact .cons ⟨hab, hac⟩ (ih hrest)

/-- Entries that are each related to something make up a list that is related to a list. -/
theorem exists_forall₂ {R : α → β → Prop} (h : ∀ a ∈ as, ∃ b, R a b) :
    ∃ bs, List.Forall₂ R as bs := by
  induction as with
  | nil => exact ⟨[], .nil⟩
  | cons a as ih =>
      obtain ⟨b, hb⟩ := h a List.mem_cons_self
      obtain ⟨bs, hbs⟩ := ih fun a ha => h a (List.mem_cons_of_mem _ ha)
      exact ⟨b :: bs, .cons hb hbs⟩

/-- Lists of one length whose entries are related at every position. -/
theorem forall₂_of_getElem? {R : α → β → Prop} (hlength : as.length = bs.length)
    (h : ∀ (i : Nat) a b, as[i]? = some a → bs[i]? = some b → R a b) : List.Forall₂ R as bs := by
  rw [List.forall₂_iff_zip]
  refine ⟨hlength, fun {a b} hab => ?_⟩
  rcases mem_zip_iff.mp hab with ⟨i, ha, hb⟩
  exact h i a b ha hb

/-- Related entries with equal values have lists of values that are equal. -/
theorem map_eq_map_of_forall₂ {γ : Type} {f : α → γ} {g : β → γ}
    (h : List.Forall₂ (fun a b => f a = g b) as bs) : as.map f = bs.map g := by
  rwa [← List.forall₂_eq_eq_eq, List.forall₂_map_left_iff, List.forall₂_map_right_iff]

end Entries

namespace Outcome

variable {ε ε' α β γ : Type}

/-! ## Successful outcomes -/

theorem bind_eq_ok {x : Outcome ε α} {f : α → Outcome ε β} {b : β} :
    (x >>= f) = .ok b ↔ ∃ a, x = .ok a ∧ f a = .ok b := by
  cases x <;> simp [bind, Except.bind]

theorem bind_eq_error {x : Outcome ε α} {f : α → Outcome ε β} {e : Fault ε} :
    (x >>= f) = .error e ↔ x = .error e ∨ ∃ a, x = .ok a ∧ f a = .error e := by
  cases x <;> simp [bind, Except.bind]

@[simp] theorem ok_bind (a : α) (f : α → Outcome ε β) :
    ((.ok a : Outcome ε α) >>= f) = f a := rfl

@[simp] theorem error_bind (e : Fault ε) (f : α → Outcome ε β) :
    ((.error e : Outcome ε α) >>= f) = .error e := rfl

@[simp] theorem pure_eq_ok (a : α) : (pure a : Outcome ε α) = .ok a := rfl

@[simp] theorem fail_eq (e : ε) : (fail e : Outcome ε α) = .error (.failure e) := rfl

theorem require_eq_ok {p : Prop} [Decidable p] {u : Unit} :
    (require p : Outcome ε Unit) = .ok u ↔ p := by
  by_cases h : p
  · rw [require_of h]
    simp [h]
  · rw [require_of_not h]
    simp [h]

theorem mapError_eq_ok {f : ε → ε'} {x : Outcome ε α} {a : α} :
    mapError f x = .ok a ↔ x = .ok a := by
  cases x <;> simp

/-! ## Reported endings -/

/-- An outcome that breaks no precondition: a value or an error that is told. -/
def Reported (x : Outcome ε α) : Prop :=
  x ≠ .error .breach

theorem Reported.cases {x : Outcome ε α} (h : x.Reported) :
    (∃ a, x = .ok a) ∨ ∃ e, x = .error (.failure e) := by
  match x, h with
  | .ok a, _ => exact .inl ⟨a, rfl⟩
  | .error (.failure e), _ => exact .inr ⟨e, rfl⟩
  | .error .breach, h => exact absurd rfl h

theorem reported_ok (a : α) : Reported (.ok a : Outcome ε α) := by
  simp [Reported]

theorem reported_failure (e : ε) : Reported (.error (.failure e) : Outcome ε α) := by
  simp [Reported]

theorem Reported.bind {x : Outcome ε α} {f : α → Outcome ε β} (hx : x.Reported)
    (hf : ∀ a, x = .ok a → (f a).Reported) : (x >>= f).Reported := by
  rcases hx.cases with ⟨a, rfl⟩ | ⟨e, rfl⟩
  · exact hf a rfl
  · exact reported_failure e

theorem Reported.mapError {x : Outcome ε α} (hx : x.Reported) (f : ε → ε') :
    (x.mapError f).Reported := by
  rcases hx.cases with ⟨a, rfl⟩ | ⟨e, rfl⟩
  · exact reported_ok a
  · exact reported_failure (f e)

/-! ## Lists of outcomes -/

theorem mapM_eq_ok {f : α → Outcome ε β} {g : α → β} {as : List α}
    (h : ∀ a ∈ as, f a = .ok (g a)) : as.mapM f = .ok (as.map g) := by
  induction as with
  | nil => rfl
  | cons a as ih =>
      have hhead := h a List.mem_cons_self
      have htail := ih fun b hb => h b (List.mem_cons_of_mem a hb)
      simp [List.mapM_cons, hhead, htail]

/-- An operation succeeds on a list with the results that it has on the entries. -/
theorem mapM_eq_ok_iff {f : α → Outcome ε β} {as : List α} {bs : List β} :
    as.mapM f = .ok bs ↔ List.Forall₂ (fun a b => f a = .ok b) as bs := by
  induction as generalizing bs with
  | nil => simp [eq_comm]
  | cons a as ih =>
      simp only [List.mapM_cons, bind_eq_ok, pure_eq_ok, Except.ok.injEq, ih,
        List.forall₂_cons_left_iff]
      constructor
      · rintro ⟨b, hb, rest, hrest, rfl⟩
        exact ⟨b, rest, hb, hrest, rfl⟩
      · rintro ⟨b, rest, hb, hrest, rfl⟩
        exact ⟨b, hb, rest, hrest, rfl⟩

/-- An operation succeeds on a list exactly when it succeeds on every entry. -/
theorem exists_mapM_iff {f : α → Outcome ε β} {as : List α} :
    (∃ bs, as.mapM f = .ok bs) ↔ ∀ a ∈ as, ∃ b, f a = .ok b := by
  simp only [mapM_eq_ok_iff]
  constructor
  · rintro ⟨bs, h⟩ a ha
    obtain ⟨b, -, hb⟩ := exists_mem_of_forall₂ h ha
    exact ⟨b, hb⟩
  · intro h
    induction as with
    | nil => exact ⟨[], .nil⟩
    | cons a as ih =>
        obtain ⟨b, hb⟩ := h a List.mem_cons_self
        obtain ⟨bs, hbs⟩ := ih fun a' ha' => h a' (List.mem_cons_of_mem a ha')
        exact ⟨b :: bs, .cons hb hbs⟩

theorem zipWithM_eq_ok {f : α → β → Outcome ε γ} {g : α → β → γ} {as : List α} {bs : List β}
    (h : ∀ p ∈ as.zip bs, f p.1 p.2 = .ok (g p.1 p.2)) :
    List.zipWithM f as bs = .ok (List.zipWith g as bs) := by
  induction as generalizing bs with
  | nil => rfl
  | cons a as ih =>
      cases bs with
      | nil => rfl
      | cons b bs =>
          have hhead := h (a, b) List.mem_cons_self
          have htail := ih fun p hp => h p (List.mem_cons_of_mem (a, b) hp)
          simp only at hhead
          simp [hhead, htail]

/-- An operation that carries a relation of entries to one of its results does so on
lists. -/
theorem exists_zipWithM {f : α → β → Outcome ε γ} {R : α → β → Prop} {T : α → γ → Prop}
    {as : List α} {bs : List β} (hf : ∀ a ∈ as, ∀ b, R a b → ∃ c, f a b = .ok c ∧ T a c)
    (h : List.Forall₂ R as bs) : ∃ cs, List.zipWithM f as bs = .ok cs ∧ List.Forall₂ T as cs := by
  induction h with
  | nil => exact ⟨[], rfl, .nil⟩
  | @cons a b as bs hab _ ih =>
      obtain ⟨c, hc, hac⟩ := hf a List.mem_cons_self b hab
      obtain ⟨cs, hcs, hrest⟩ := ih fun x hx => hf x (List.mem_cons_of_mem a hx)
      exact ⟨c :: cs, by simp [hc, hcs], .cons hac hrest⟩

theorem length_of_zipWithM {f : α → β → Outcome ε γ} {as : List α} {bs : List β} {cs : List γ}
    (h : List.zipWithM f as bs = .ok cs) : cs.length = min as.length bs.length := by
  induction as generalizing bs cs with
  | nil =>
      obtain rfl : [] = cs := Except.ok.inj h
      simp
  | cons a as ih =>
      cases bs with
      | nil =>
          obtain rfl : [] = cs := Except.ok.inj h
          simp
      | cons b bs =>
          simp only [List.zipWithM_cons_cons, bind_eq_ok, pure_eq_ok, Except.ok.injEq] at h
          rcases h with ⟨c, -, rest, hrest, rfl⟩
          simp [ih hrest]

/-- An operation that succeeds on all entries succeeds on the first ones. -/
theorem zipWithM_take {f : α → β → Outcome ε γ} {as : List α} {bs : List β} {cs : List γ}
    (h : List.zipWithM f as bs = .ok cs) (n : Nat) :
    List.zipWithM f (as.take n) (bs.take n) = .ok (cs.take n) := by
  induction as generalizing bs cs n with
  | nil =>
      obtain rfl : [] = cs := Except.ok.inj h
      simp
  | cons a as ih =>
      cases bs with
      | nil =>
          obtain rfl : [] = cs := Except.ok.inj h
          simp
      | cons b bs =>
          simp only [List.zipWithM_cons_cons, bind_eq_ok, pure_eq_ok, Except.ok.injEq] at h
          rcases h with ⟨c, hc, rest, hrest, rfl⟩
          cases n with
          | zero => simp
          | succ n => simp [hc, ih hrest n]

end Outcome

namespace Action

variable {ε ε' σ τ α β : Type}

/-! ## Successful runs -/

theorem run_bind_eq_ok {x : Action ε σ α} {f : α → Action ε σ β} {s s'' : σ} {b : β} :
    EStateM.run (x >>= f) s = .ok b s'' ↔
      ∃ a s', EStateM.run x s = .ok a s' ∧ EStateM.run (f a) s' = .ok b s'' := by
  rw [EStateM.run_bind]
  constructor
  · intro h
    split at h
    next a s' hx => exact ⟨a, s', hx, h⟩
    next => cases h
  · rintro ⟨a, s', hx, hf⟩
    rw [hx]
    exact hf

theorem run_lift_eq_ok {o : Outcome ε α} {s s' : σ} {a : α} :
    EStateM.run (liftM o : Action ε σ α) s = .ok a s' ↔ o = .ok a ∧ s' = s := by
  cases o <;> simp [eq_comm]

theorem run_require_eq_ok {p : Prop} [Decidable p] {s s' : σ} {u : Unit} :
    EStateM.run (require p : Action ε σ Unit) s = .ok u s' ↔ p ∧ s' = s := by
  by_cases h : p
  · simp [run_require_of h, h, eq_comm]
  · simp [run_require_of_not h, h]

theorem run_mapError_eq_ok {x : Action ε σ α} {f : ε → ε'} {s s' : σ} {a : α} :
    EStateM.run (x.mapError f) s = .ok a s' ↔ EStateM.run x s = .ok a s' := by
  rw [run_mapError]
  cases EStateM.run x s <;> simp

/-! ## Atomic actions -/

/-- An action succeeds, or it reports an error and leaves the state as it was. -/
def Atomic (x : Action ε σ α) (s : σ) : Prop :=
  (∃ a s', EStateM.run x s = .ok a s') ∨ ∃ e, EStateM.run x s = .error (.failure e) s

theorem atomic_lift_bind {o : Outcome ε α} {f : α → Action ε σ β} {s : σ} (ho : o.Reported)
    (hf : ∀ a, o = .ok a → Atomic (f a) s) : Atomic (liftM o >>= f) s := by
  rcases ho.cases with ⟨a, rfl⟩ | ⟨e, rfl⟩
  · exact hf a rfl
  · exact .inr ⟨e, rfl⟩

theorem atomic_get_bind {f : σ → Action ε σ β} {s : σ} (h : Atomic (f s) s) :
    Atomic (get >>= f) s := h

theorem atomic_fail (e : ε) (s : σ) : Atomic (fail e : Action ε σ α) s :=
  .inr ⟨e, rfl⟩

/-! ## Final states -/

/-- The state that a run ends in. -/
def finalState : EStateM.Result ε σ α → σ
  | .ok _ s => s
  | .error _ s => s

/-- How a run ends. -/
def ending : EStateM.Result (Fault ε) σ α → Outcome ε α
  | .ok a _ => .ok a
  | .error e _ => .error e

theorem ending_eq_ok {r : EStateM.Result (Fault ε) σ α} {a : α} :
    ending r = .ok a ↔ ∃ s, r = .ok a s := by
  cases r <;> simp [ending]

end Action

end RingShamir
