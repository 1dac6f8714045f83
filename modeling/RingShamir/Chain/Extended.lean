import RingShamir.Chain.Class

/-!
# The chain of two bases

A main basis extended by an auxiliary one.  An element has a part over each of
them; the auxiliary part is there exactly when the chain has an auxiliary basis.
A level gives the level of each part.

Scalars have the limbs of the main moduli followed by those of the auxiliary
moduli.  The auxiliary limbs start after all the main ones, also where an
element uses only some of the main moduli.

Main results:

- Theorems `level_main` and `level_aux`: the two levels of an element.
-/

namespace RingShamir

/-- An element over a main basis and possibly an auxiliary one. -/
structure ExtendedPoly where
  /-- The part over the main basis. -/
  main : RnsPoly
  /-- The part over the auxiliary basis. -/
  aux : Option RnsPoly
deriving DecidableEq

namespace ExtendedPoly

/-- The levels of the two parts. -/
def level (a : ExtendedPoly) : Nat × Option Nat :=
  (a.main.level, a.aux.map (·.level))

@[simp] theorem level_main (a : ExtendedPoly) : a.level.1 = a.main.level := rfl

@[simp] theorem level_aux (a : ExtendedPoly) : a.level.2 = a.aux.map (·.level) := rfl

/-- The bytes of the main part followed by those of the auxiliary part. -/
def encode (a : ExtendedPoly) : List UInt8 :=
  a.main.encode ++ (a.aux.map RnsPoly.encode).getD []

/-- The number of bytes that an element takes up in a list of elements, its rows apart.  A
part that is missing takes up as many as one that is there. -/
def footprint : Nat :=
  RnsPoly.footprint + RnsPoly.footprint

/-- Overwrite all coefficients by zero. -/
def erase (a : ExtendedPoly) : ExtendedPoly where
  main := a.main.erase
  aux := a.aux.map RnsPoly.erase

/-- Run an action on the main part. -/
def onMain (x : Action RingError RnsPoly Unit) : Action RingError ExtendedPoly Unit :=
  Action.within main (fun p a => { a with main := p }) x

/-- Run an action on the auxiliary part, which is `p`. -/
def onAux (p : RnsPoly) (x : Action RingError RnsPoly Unit) :
    Action RingError ExtendedPoly Unit :=
  Action.within (fun _ => p) (fun p a => { a with aux := some p }) x

instance : ResidueElement ExtendedPoly where
  encode := encode
  erase := erase

end ExtendedPoly

/-- A main basis extended by an optional auxiliary basis. -/
structure ExtendedChain where
  /-- The main basis. -/
  main : RnsBasis
  /-- The auxiliary basis. -/
  aux : Option RnsBasis
  /-- The main moduli followed by the auxiliary moduli. -/
  operators : List Modulus
deriving DecidableEq

namespace ExtendedChain

/-- The text of a pair of levels. -/
def levelText (l : Nat × Option Nat) : String :=
  Text.tagged "" [toString l.1, Text.option (l.2.map toString)]

/-- The chain of two bases, which have to agree on the degree and to share no
modulus. -/
def ofBases (main : RnsBasis) (aux : Option RnsBasis) : Outcome RingError ExtendedChain :=
  match aux with
  | none => pure ⟨main, none, main.operators⟩
  | some p =>
      if p.degree ≠ main.degree then
        Outcome.fail (.other "The Q and P contexts have different degrees")
      else if ¬(main.moduli ++ p.moduli).Nodup then
        Outcome.fail (.other "The Q and P moduli are not distinct")
      else pure ⟨main, some p, main.operators ++ p.operators⟩

/-- The bases of a level. -/
def basesAt (c : ExtendedChain) (l : Nat × Option Nat) :
    Outcome RingError (RnsBasis × Option RnsBasis) := do
  let main ← c.main.atLevel l.1
  match c.aux, l.2 with
  | some p, some lp => pure (main, some (← p.atLevel lp))
  | none, none => pure (main, none)
  | _, _ =>
      let text := levelText l
      Outcome.fail (.levelMismatch s!"level {text} does not match the P chain")

/-- The level of an element on the chain. -/
def levelOf (c : ExtendedChain) (a : ExtendedPoly) : Outcome RingError (Nat × Option Nat) :=
  if !a.main.basis.isPrefixOf c.main then Outcome.fail .invalidContext
  else
    match c.aux, a.aux with
    | some p, some ap =>
        if ap.basis.isPrefixOf p then pure a.level else Outcome.fail .invalidContext
    | none, none => pure a.level
    | _, _ => Outcome.fail .invalidContext

/-- Check that two elements are on the chain at one level. -/
def checkSameLevel (c : ExtendedChain) (a b : ExtendedPoly) : Outcome RingError Unit := do
  let la ← c.levelOf a
  let lb ← c.levelOf b
  if la ≠ lb then
    let ta := levelText la
    let tb := levelText lb
    Outcome.fail (.levelMismatch s!"{ta} != {tb}")
  else pure ()

/-- The zero element of a level. -/
def zeroAt (c : ExtendedChain) (l : Nat × Option Nat) : Outcome RingError ExtendedPoly := do
  let (main, aux) ← c.basesAt l
  let q ← RnsPoly.zero main
  match aux with
  | none => pure ⟨q, none⟩
  | some p => pure ⟨q, some (← RnsPoly.zero p)⟩

/-- Sample a uniform element of a level, the main part first. -/
def randomAt (c : ExtendedChain) (l : Nat × Option Nat) :
    Action RingError WordStream ExtendedPoly := do
  let (main, aux) ← c.basesAt l
  let q ← RnsPoly.random main
  match aux with
  | none => pure ⟨q, none⟩
  | some p => pure ⟨q, some (← RnsPoly.random p)⟩

/-- Store the sum of two elements in the output, the main part first. -/
def addInto (c : ExtendedChain) (a b : ExtendedPoly) : Action RingError ExtendedPoly Unit := do
  c.checkSameLevel a b
  c.checkSameLevel a (← get)
  ExtendedPoly.onMain (RnsPoly.addInto a.main b.main)
  match a.aux, b.aux, (← get).aux with
  | some ap, some bp, some op => ExtendedPoly.onAux op (RnsPoly.addInto ap bp)
  | _, _, _ => pure ()

/-- Add an element in place, the main part first. -/
def addAssign (c : ExtendedChain) (b : ExtendedPoly) : Action RingError ExtendedPoly Unit := do
  c.checkSameLevel (← get) b
  ExtendedPoly.onMain (RnsPoly.addAssign b.main)
  match (← get).aux, b.aux with
  | some ap, some bp => ExtendedPoly.onAux ap (RnsPoly.addAssign bp)
  | _, _ => pure ()

/-- Multiply an element in place by a scalar in Montgomery form, the main part
first. -/
def scaleAssign (c : ExtendedChain) (s : Scalar) : Action RingError ExtendedPoly Unit := do
  let _ ← c.levelOf (← get)
  if s.length ≠ c.operators.length then
    let given := s.length
    let limbs := c.operators.length
    Action.fail (.levelMismatch
      s!"scalar with {given} limbs does not belong to a chain of {limbs} moduli")
  else
    let offset := c.main.moduli.length
    ExtendedPoly.onMain (RnsPoly.scaleAssign (s.limbs.take offset))
    match (← get).aux with
    | some p => ExtendedPoly.onAux p (RnsPoly.scaleAssign (s.limbs.drop offset))
    | none => pure ()

/-- The element of a level that is encoded by bytes. -/
def decode (c : ExtendedChain) (bytes : List UInt8) (l : Nat × Option Nat) :
    Outcome RingError ExtendedPoly := do
  let (main, aux) ← c.basesAt l
  let size := RnsPoly.encodedSize main
  Outcome.require (size < UInt64.size)
  let found := bytes.length
  if found < size then
    Outcome.fail (.serialization
      s!"Invalid polynomial serialization: expected at least {size} bytes, found {found}")
  else
    let q ← RnsPoly.decode main (bytes.take size)
    let rest := bytes.drop size
    match aux with
    | some p => pure ⟨q, some (← RnsPoly.decode p rest)⟩
    | none =>
        if rest.isEmpty then pure ⟨q, none⟩
        else
          let trailing := rest.length
          Outcome.fail (.serialization
            s!"Invalid polynomial serialization: {trailing} trailing bytes")

instance : ResidueChain ExtendedChain ExtendedPoly (Nat × Option Nat) where
  levelText _ l := levelText l
  elementSize := ExtendedPoly.footprint
  moduli c := c.operators
  maxLevel c := (c.main.level, c.aux.map (·.level))
  levelOf := levelOf
  zeroAt := zeroAt
  randomAt := randomAt
  addInto := addInto
  addAssign := addAssign
  scaleAssign := scaleAssign
  decode := decode

end ExtendedChain

end RingShamir
