import RingShamir.Chain.Class

/-!
# Shares

A share is the value of a sharing polynomial at a public point, or the sum of
such values for the polynomials of several dealers.  Shares of several dealers
are aggregated by adding them.  Dealers are not kept track of: the share of one
dealer counts as often as it is added.
-/

namespace RingShamir

/-- A secret share. -/
structure Share (E : Type) where
  /-- The ring element. -/
  value : E
deriving DecidableEq

namespace Share

@[ext] theorem ext {E : Type} {a b : Share E} (h : a.value = b.value) : a = b := by
  cases a
  cases b
  rw [mk.injEq]
  exact h

variable {C E L : Type} [ResidueChain C E L] [DecidableEq L]

open ResidueChain

/-- Run an action of a chain on the element of a share. -/
def onValue (x : Action RingError E Unit) : Action SchemeError (Share E) Unit :=
  Action.within value (fun e _ => ⟨e⟩) (x.mapError SchemeError.ofRing)

/-- The level of a share. -/
def levelOf (chain : C) (s : Share E) : Outcome SchemeError L :=
  (ResidueChain.levelOf chain s.value).mapError SchemeError.ofRing

/-- The zero share of a level. -/
def zeroAt (chain : C) (l : L) : Outcome SchemeError (Share E) := do
  let e ← (ResidueChain.zeroAt chain l).mapError SchemeError.ofRing
  pure ⟨e⟩

/-- The bytes of a share. -/
def encode [ResidueElement E] (s : Share E) : List UInt8 :=
  ResidueElement.encode s.value

/-- The share of a level that is encoded by bytes. -/
def decode (chain : C) (bytes : List UInt8) (l : L) : Outcome SchemeError (Share E) := do
  let e ← (ResidueChain.decode chain bytes l).mapError SchemeError.ofRing
  pure ⟨e⟩

/-- Overwrite a share by zero. -/
def erase [ResidueElement E] (s : Share E) : Share E :=
  ⟨ResidueElement.erase s.value⟩

/-- The structured text of a share, which shows nothing of it. -/
def debugText (_ : Share E) : String :=
  Text.partialRecord "ShamirSecretShare" []

/-- Store the sum of two shares in the output. -/
def addInto (chain : C) (a b : Share E) : Action SchemeError (Share E) Unit := do
  let la ← levelOf chain a
  let lb ← levelOf chain b
  let lo ← levelOf chain (← get)
  if la ≠ lb ∨ la ≠ lo then
    let ta := levelText chain la
    let tb := levelText chain lb
    let output := levelText chain lo
    Action.fail (.levelMismatch
      s!"shares at levels {ta} and {tb} aggregated into a share at level {output}")
  else onValue (ResidueChain.addInto chain a.value b.value)

/-- Add a share in place. -/
def addAssign (chain : C) (b : Share E) : Action SchemeError (Share E) Unit := do
  let la ← levelOf chain (← get)
  let lb ← levelOf chain b
  if la ≠ lb then
    let ta := levelText chain la
    let tb := levelText chain lb
    Action.fail (.levelMismatch s!"share at level {tb} aggregated into a share at level {ta}")
  else onValue (ResidueChain.addAssign chain b.value)

end Share

end RingShamir
