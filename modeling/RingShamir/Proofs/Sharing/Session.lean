import RingShamir.Proofs.Safety
import RingShamir.Sharing.Combiner
import RingShamir.Sharing.Polynomial

/-!
# Sessions

A session keeps elements, scalars, sharing polynomials and combiners in registers
and works on them command by command.  The operands of a command are looked up by
their positions; a command that names a register which does not exist does nothing.
New values are put after the ones that are there, so a run can go on with all that
it has made, at different levels and after failed commands.  Shares are kept as
elements: a share wraps an element and gives it back.

An element may also be supplied from outside.  It need not be on the chain of the
session.

Main results:

- Definition `Command` and its `perform`: the operations on the elements and scalars
  of a chain, of dealers and of combiners.
- Definitions `Session.endings` and `Session.after`: a run of commands.
- Theorems `Registers.Guards.fetch_keeps`, `Registers.Guards.store_keeps` and
  `Registers.Guards.update_keeps`: safe uses of registers whose values have a property
  that an invariant asks for.
-/

namespace RingShamir

open ResidueChain

/-! ## Registers -/

/-- The registers of one kind in a state. -/
structure Registers (σ α : Type) where
  /-- The values. -/
  values : σ → List α
  /-- Replace the values. -/
  replace : List α → σ → σ

namespace Registers

variable {ε σ α : Type} (r : Registers σ α)

/-- Overwrite a register. -/
def set (i : Nat) (a : α) (s : σ) : σ :=
  r.replace ((r.values s).set i a) s

/-- Go on with the value of a register, if there is the register. -/
def fetch (i : Nat) (f : α → Action ε σ Unit) : Action ε σ Unit := do
  match (r.values (← get))[i]? with
  | some a => f a
  | none => pure ()

/-- Put values into new registers. -/
def store (as : List α) : Action ε σ Unit :=
  modify fun s => r.replace (r.values s ++ as) s

/-- Run an action on the value of a register in place. -/
def update (i : Nat) (x : Action ε α Unit) : Action ε σ Unit :=
  r.fetch i fun a => Action.within (fun _ => a) (r.set i) x

/-- A property that an invariant of the state asks of the registers of a kind, and
of no other part of the state. -/
structure Guards (P : σ → Prop) (R : α → Prop) : Prop where
  /-- The values have the property. -/
  of_mem : ∀ s, P s → ∀ a ∈ r.values s, R a
  /-- Values with the property may replace them. -/
  replace : ∀ s as, P s → (∀ a ∈ as, R a) → P (r.replace as s)

variable {r} {P : σ → Prop} {R : α → Prop}

theorem Guards.set (h : r.Guards P R) {i : Nat} {a : α} {s : σ} (hs : P s) (ha : R a) :
    P (r.set i a s) := by
  apply h.replace s _ hs
  intro b hb
  rcases List.mem_or_eq_of_mem_set hb with hb | rfl
  · exact h.of_mem s hs b hb
  · exact ha

theorem Guards.fetch_keeps (h : r.Guards P R) {i : Nat} {f : α → Action ε σ Unit}
    (hf : ∀ a, R a → Action.Keeps P (f a) fun _ => True) :
    Action.Keeps P (r.fetch i f) fun _ => True := by
  refine Action.keeps_get.bind fun s hs => ?_
  split
  next a ha => exact hf a (h.of_mem s hs a (List.mem_of_getElem? ha))
  next => exact Action.keeps_pure trivial

theorem Guards.store_keeps (h : r.Guards P R) {as : List α} (has : ∀ a ∈ as, R a) :
    Action.Keeps P (r.store as : Action ε σ Unit) fun _ => True := by
  apply Action.keeps_modify
  intro s hs
  exact h.replace s _ hs (List.forall_mem_append.mpr ⟨h.of_mem s hs, has⟩)

theorem Guards.store_one_keeps (h : r.Guards P R) {a : α} (ha : R a) :
    Action.Keeps P (r.store [a] : Action ε σ Unit) fun _ => True :=
  h.store_keeps (List.forall_mem_singleton.mpr ha)

/-- What an action returns is put into a new register. -/
theorem Guards.bind_store_keeps {β : Type} (h : r.Guards P R) {x : Action ε σ β} {f : β → α}
    (hx : Action.Keeps P x fun b => R (f b)) :
    Action.Keeps P (x >>= fun b => r.store [f b]) fun _ => True :=
  hx.bind fun _ hb => h.store_one_keeps hb

theorem Guards.update_keeps (h : r.Guards P R) {i : Nat} {x : Action ε α Unit}
    (hx : Action.Keeps R x fun _ => True) : Action.Keeps P (r.update i x) fun _ => True :=
  h.fetch_keeps fun _ ha => hx.within (fun _ _ => ha) fun _ _ hs hb => h.set hs hb

end Registers

/-! ## Sessions -/

/-- The state of a session. -/
structure Session (C E : Type) where
  /-- The elements, which are also the values of shares. -/
  elements : List E
  /-- The scalars. -/
  scalars : List Scalar
  /-- The sharing polynomials. -/
  polynomials : List (SharingPolynomial E)
  /-- The combiners. -/
  combiners : List (Combiner C)
  /-- The source of randomness. -/
  stream : WordStream

namespace Session

variable {C E α : Type}

/-- The session that has made nothing yet. -/
def start (stream : WordStream) : Session C E :=
  ⟨[], [], [], [], stream⟩

/-- The registers of elements. -/
def onElements : Registers (Session C E) E :=
  ⟨elements, fun es s => { s with elements := es }⟩

/-- The registers of scalars. -/
def onScalars : Registers (Session C E) Scalar :=
  ⟨scalars, fun xs s => { s with scalars := xs }⟩

/-- The registers of sharing polynomials. -/
def onPolynomials : Registers (Session C E) (SharingPolynomial E) :=
  ⟨polynomials, fun ps s => { s with polynomials := ps }⟩

/-- The registers of combiners. -/
def onCombiners : Registers (Session C E) (Combiner C) :=
  ⟨combiners, fun ks s => { s with combiners := ks }⟩

/-- Run an action on the source of randomness. -/
def onStream (x : Action SchemeError WordStream α) : Action SchemeError (Session C E) α :=
  Action.within stream (fun w s => { s with stream := w }) x

/-- Run an action on the element of a register as a share. -/
def onShare (i : Nat) (x : Action SchemeError (Share E) Unit) :
    Action SchemeError (Session C E) Unit :=
  onElements.update i (Action.within Share.mk (fun s _ => s.value) x)

end Session

/-! ## Commands -/

/-- Operations on the elements of a chain. -/
inductive ElementCommand (E L : Type) where
  /-- Take an element from outside. -/
  | supply (e : E)
  /-- Make the zero element of a level. -/
  | zeroAt (l : L)
  /-- Sample an element of a level. -/
  | randomAt (l : L)
  /-- Decode an element of a level. -/
  | decode (bytes : List UInt8) (l : L)
  /-- Ask for the level of an element. -/
  | levelOf (a : Nat)
  /-- Store the sum of two elements in an output. -/
  | addInto (a b out : Nat)
  /-- Add an element to an output. -/
  | addAssign (b out : Nat)
  /-- Multiply an output by a scalar. -/
  | scaleAssign (x out : Nat)
  /-- Overwrite an output by zero. -/
  | erase (out : Nat)

/-- Operations on the scalars of a chain. -/
inductive ScalarCommand where
  /-- Make the zero scalar. -/
  | zero
  /-- Make the plain scalar of a word. -/
  | ofWord (v : UInt64)
  /-- Make the scalar one in Montgomery form. -/
  | one
  /-- Make the Montgomery form of a scalar. -/
  | toMontgomery (a : Nat)
  /-- Make the difference of two scalars. -/
  | sub (a b : Nat)
  /-- Make the Montgomery product of two scalars. -/
  | mul (a b : Nat)
  /-- Multiply an output by a scalar. -/
  | mulAssign (b out : Nat)
  /-- Make the inverse of a scalar, if there is one. -/
  | inverse (a : Nat)
  /-- Overwrite an output by zero. -/
  | erase (out : Nat)

/-- Operations of dealers and on shares. -/
inductive DealingCommand (L : Type) where
  /-- Hide an element in a polynomial with `threshold` coefficients. -/
  | generate (threshold secret : Nat)
  /-- Make a polynomial of given elements, as another dealer might have done. -/
  | collect (secret : Nat) (masks : List Nat)
  /-- Overwrite the coefficients of a polynomial by zero. -/
  | erase (p : Nat)
  /-- Make the zero share of a level. -/
  | allocate (l : L)
  /-- Decode a share of a level. -/
  | decode (bytes : List UInt8) (l : L)
  /-- Make the share of a point. -/
  | shareAt (x : PublicPoint) (p : Nat)
  /-- Make the shares of points. -/
  | sharesAt (xs : List PublicPoint) (p : Nat)
  /-- Store the share of a point in an output. -/
  | shareInto (x : PublicPoint) (p out : Nat)
  /-- Store the sum of two shares in an output. -/
  | addInto (a b out : Nat)
  /-- Add a share to an output. -/
  | addAssign (b out : Nat)

/-- Operations of combiners. -/
inductive CombiningCommand where
  /-- Make a combiner. -/
  | make (own : PublicPoint) (others : List PublicPoint) (threshold : Nat)
  /-- Copy the factor of a point, if there is one. -/
  | factor (k : Nat) (x : PublicPoint)
  /-- Store the additive share of a share in an output. -/
  | additiveInto (k : Nat) (actives : List PublicPoint) (own : PublicPoint) (share out : Nat)
  /-- Make the additive share of a share. -/
  | additive (k : Nat) (actives : List PublicPoint) (own : PublicPoint) (share : Nat)

/-- A command of a session. -/
inductive Command (E L : Type) where
  /-- An operation on elements. -/
  | element (command : ElementCommand E L)
  /-- An operation on scalars. -/
  | scalar (command : ScalarCommand)
  /-- An operation of a dealer or on shares. -/
  | dealing (command : DealingCommand L)
  /-- An operation of a combiner. -/
  | combining (command : CombiningCommand)

section Perform

open Session

variable {C E L : Type} [ResidueElement E] [ResidueChain C E L]

/-- Perform an operation on elements. -/
def ElementCommand.perform (c : C) : ElementCommand E L → Action SchemeError (Session C E) Unit
  | .supply e => onElements.store [e]
  | .zeroAt l => do
      let e ← (ResidueChain.zeroAt c l).mapError SchemeError.ofRing
      onElements.store [e]
  | .randomAt l => do
      let e ← onStream ((ResidueChain.randomAt c l).mapError SchemeError.ofRing)
      onElements.store [e]
  | .decode bytes l => do
      let e ← (ResidueChain.decode c bytes l).mapError SchemeError.ofRing
      onElements.store [e]
  | .levelOf a => onElements.fetch a fun e => do
      let _ ← (ResidueChain.levelOf c e).mapError SchemeError.ofRing
  | .addInto a b out => onElements.fetch a fun x => onElements.fetch b fun y =>
      onElements.update out ((ResidueChain.addInto c x y).mapError SchemeError.ofRing)
  | .addAssign b out => onElements.fetch b fun y =>
      onElements.update out ((ResidueChain.addAssign c y).mapError SchemeError.ofRing)
  | .scaleAssign x out => onScalars.fetch x fun s =>
      onElements.update out ((ResidueChain.scaleAssign c s).mapError SchemeError.ofRing)
  | .erase out => onElements.update out (modify ResidueElement.erase)

/-- Perform an operation on scalars. -/
def ScalarCommand.perform (c : C) : ScalarCommand → Action SchemeError (Session C E) Unit
  | .zero => onScalars.store [Scalar.zero (moduli c)]
  | .ofWord v => onScalars.store [Scalar.ofWord (moduli c) v]
  | .one => do
      let x ← (Scalar.one (moduli c) : Outcome SchemeError Scalar)
      onScalars.store [x]
  | .toMontgomery a => onScalars.fetch a fun x => do
      let z ← (Scalar.toMontgomery (moduli c) x : Outcome SchemeError Scalar)
      onScalars.store [z]
  | .sub a b => onScalars.fetch a fun x => onScalars.fetch b fun y => do
      let z ← (Scalar.sub (moduli c) x y : Outcome SchemeError Scalar)
      onScalars.store [z]
  | .mul a b => onScalars.fetch a fun x => onScalars.fetch b fun y => do
      let z ← (Scalar.mul (moduli c) x y : Outcome SchemeError Scalar)
      onScalars.store [z]
  | .mulAssign b out => onScalars.fetch b fun y =>
      onScalars.update out (Scalar.mulAssign (moduli c) y)
  | .inverse a => onScalars.fetch a fun x => do
      match ← (Scalar.inverse (moduli c) x : Outcome SchemeError (Option Scalar)) with
      | some z => onScalars.store [z]
      | none => pure ()
  | .erase out => onScalars.update out (modify Scalar.erase)

variable [DecidableEq L]

/-- Perform an operation of a dealer or on shares. -/
def DealingCommand.perform (c : C) : DealingCommand L → Action SchemeError (Session C E) Unit
  | .generate threshold secret => onElements.fetch secret fun e => do
      let p ← onStream (SharingPolynomial.generate c threshold e)
      onPolynomials.store [p]
  | .collect secret masks => onElements.fetch secret fun e => do
      let es := (← get).elements
      onPolynomials.store [⟨e, masks.filterMap (es[·]?)⟩]
  | .erase p => onPolynomials.update p (modify SharingPolynomial.erase)
  | .allocate l => do
      let s ← Share.zeroAt c l
      onElements.store [s.value]
  | .decode bytes l => do
      let s ← Share.decode c bytes l
      onElements.store [s.value]
  | .shareAt x p => onPolynomials.fetch p fun f => do
      let s ← SharingPolynomial.shareAt c x f
      onElements.store [s.value]
  | .sharesAt xs p => onPolynomials.fetch p fun f => do
      let ss ← SharingPolynomial.sharesAt c xs f
      onElements.store (ss.map Share.value)
  | .shareInto x p out => onPolynomials.fetch p fun f =>
      onShare out (SharingPolynomial.shareInto c x f)
  | .addInto a b out => onElements.fetch a fun x => onElements.fetch b fun y =>
      onShare out (Share.addInto c ⟨x⟩ ⟨y⟩)
  | .addAssign b out => onElements.fetch b fun y =>
      onShare out (Share.addAssign c ⟨y⟩)

/-- Perform an operation of a combiner. -/
def CombiningCommand.perform (c : C) : CombiningCommand → Action SchemeError (Session C E) Unit
  | .make own others threshold => do
      let k ← Combiner.make c own others threshold
      onCombiners.store [k]
  | .factor k x => onCombiners.fetch k fun d =>
      match d.factor? x with
      | some s => onScalars.store [s]
      | none => pure ()
  | .additiveInto k actives own share out => onCombiners.fetch k fun d =>
      onElements.fetch share fun x => onElements.fetch out fun e =>
        Action.within (fun _ => Combiner.Work.mk d e)
          (fun w s => onElements.set out w.output (onCombiners.set k w.combiner s))
          (Combiner.additiveInto actives own ⟨x⟩)
  | .additive k actives own share => onCombiners.fetch k fun d =>
      onElements.fetch share fun x => do
        let e ← Action.within (fun _ => d) (onCombiners.set k)
          (Combiner.additive actives own ⟨x⟩)
        onElements.store [e]

/-- Perform a command. -/
def Command.perform (c : C) : Command E L → Action SchemeError (Session C E) Unit
  | .element command => command.perform c
  | .scalar command => command.perform c
  | .dealing command => command.perform c
  | .combining command => command.perform c

namespace Session

/-- How commands end, one after the other. -/
def endings (c : C) : List (Command E L) → Session C E → List (Outcome SchemeError Unit)
  | [], _ => []
  | command :: commands, s =>
      let r := EStateM.run (command.perform c) s
      Action.ending r :: endings c commands (Action.finalState r)

/-- The session that commands leave, one after the other. -/
def after (c : C) (commands : List (Command E L)) (s : Session C E) : Session C E :=
  commands.foldl (fun s command => Action.finalState (EStateM.run (command.perform c) s)) s

end Session

/-- What is asked of a command: elements come from a known source, and a dealer asks
for less than `limit` coefficients. -/
def Command.Admissible (supplied : E → Prop) (limit : Nat) : Command E L → Prop
  | .element (.supply e) => supplied e
  | .dealing (.generate threshold _) => threshold < limit
  | _ => True

end Perform

end RingShamir
