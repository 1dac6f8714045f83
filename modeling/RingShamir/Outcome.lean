/-!
# Outcomes of operations

An operation of this library ends in one of three ways: with a value, with an
error that its caller is told about, or because the caller broke a
precondition.  The last two are a `Fault`.  Operations without a state have
type `Outcome`; operations that work in place have type `Action` and hand back
their state on every ending, so that what a failed operation leaves behind can
be talked about.

Main results:

- Theorems `Action.run_lift` and `Action.run_within`: how an outcome, and an
  action on a part of the state, run as actions.
- Theorem `Action.applyTo_eq_ok`: an action applied to a value returns the
  final state of a successful run and nothing else.
-/

namespace RingShamir

/-- The endings of an operation other than a value. -/
inductive Fault (ε : Type) where
  /-- A precondition of the operation does not hold. -/
  | breach
  /-- The operation reports an error. -/
  | failure (e : ε)
deriving DecidableEq

namespace Fault

variable {ε ε' : Type}

/-- Restate the reported error, if there is one. -/
def map (f : ε → ε') : Fault ε → Fault ε'
  | breach => breach
  | failure e => failure (f e)

@[simp] theorem map_breach (f : ε → ε') : (breach : Fault ε).map f = breach := rfl

@[simp] theorem map_failure (f : ε → ε') (e : ε) : (failure e).map f = failure (f e) := rfl

end Fault

/-- The result of an operation without a state. -/
abbrev Outcome (ε α : Type) := Except (Fault ε) α

/-- An operation that works in place on a state of type `σ`. -/
abbrev Action (ε σ α : Type) := EStateM (Fault ε) σ α

namespace Outcome

variable {ε ε' α : Type}

/-- Demand a precondition. -/
def require (p : Prop) [Decidable p] : Outcome ε Unit :=
  if p then .ok () else .error .breach

/-- Report an error. -/
def fail (e : ε) : Outcome ε α := .error (.failure e)

/-- Restate the reported error of an outcome. -/
def mapError (f : ε → ε') : Outcome ε α → Outcome ε' α
  | .ok a => .ok a
  | .error e => .error (e.map f)

@[simp] theorem require_of {p : Prop} [Decidable p] (h : p) :
    (require p : Outcome ε Unit) = .ok () := by
  simp [require, h]

theorem require_of_not {p : Prop} [Decidable p] (h : ¬p) :
    (require p : Outcome ε Unit) = .error .breach := by
  simp [require, h]

@[simp] theorem mapError_ok (f : ε → ε') (a : α) :
    mapError f (.ok a : Outcome ε α) = .ok a := rfl

@[simp] theorem mapError_error (f : ε → ε') (e : Fault ε) :
    mapError f (.error e : Outcome ε α) = .error (e.map f) := rfl

end Outcome

namespace Action

variable {ε ε' σ τ α : Type}

/-- Run an outcome as an action that leaves the state alone. -/
def ofOutcome : Outcome ε α → Action ε σ α
  | .ok a => fun s => .ok a s
  | .error e => fun s => .error e s

instance : MonadLift (Except (Fault ε)) (EStateM (Fault ε) σ) where
  monadLift := ofOutcome

/-- Demand a precondition. -/
def require (p : Prop) [Decidable p] : Action ε σ Unit :=
  ofOutcome (Outcome.require p)

/-- Report an error. -/
def fail (e : ε) : Action ε σ α :=
  ofOutcome (Outcome.fail e)

/-- Restate the reported error of an action. -/
def mapError (f : ε → ε') (x : Action ε σ α) : Action ε' σ α := fun s =>
  match x s with
  | .ok a s' => .ok a s'
  | .error e s' => .error (e.map f) s'

/-- Run an action on a part of the state, which `get` reads and `put` writes
back on every ending. -/
def within (get : σ → τ) (put : τ → σ → σ) (x : Action ε τ α) : Action ε σ α := fun s =>
  match x (get s) with
  | .ok a t => .ok a (put t s)
  | .error e t => .error e (put t s)

/-- Apply an action to a value that nobody else holds: what it leaves behind
on a fault is lost. -/
def applyTo (x : Action ε σ Unit) (s : σ) : Outcome ε σ :=
  match x s with
  | .ok _ s' => .ok s'
  | .error e _ => .error e

@[simp] theorem run_lift (o : Outcome ε α) (s : σ) :
    EStateM.run (liftM o : Action ε σ α) s =
      match o with
      | .ok a => .ok a s
      | .error e => .error e s := by
  cases o <;> rfl

@[simp] theorem run_require_of {p : Prop} [Decidable p] (h : p) (s : σ) :
    EStateM.run (require p : Action ε σ Unit) s = .ok () s := by
  simp only [require, Outcome.require_of h]
  rfl

theorem run_require_of_not {p : Prop} [Decidable p] (h : ¬p) (s : σ) :
    EStateM.run (require p : Action ε σ Unit) s = .error .breach s := by
  simp only [require, Outcome.require_of_not h]
  rfl

@[simp] theorem run_fail (e : ε) (s : σ) :
    EStateM.run (fail e : Action ε σ α) s = .error (.failure e) s := rfl

@[simp] theorem run_mapError (f : ε → ε') (x : Action ε σ α) (s : σ) :
    EStateM.run (mapError f x) s =
      match EStateM.run x s with
      | .ok a s' => .ok a s'
      | .error e s' => .error (e.map f) s' := rfl

@[simp] theorem run_within (get : σ → τ) (put : τ → σ → σ) (x : Action ε τ α) (s : σ) :
    EStateM.run (within get put x) s =
      match EStateM.run x (get s) with
      | .ok a t => .ok a (put t s)
      | .error e t => .error e (put t s) := rfl

theorem applyTo_eq_ok {x : Action ε σ Unit} {s s' : σ} :
    x.applyTo s = .ok s' ↔ EStateM.run x s = .ok () s' := by
  unfold applyTo EStateM.run
  cases x s <;> simp

end Action

end RingShamir
