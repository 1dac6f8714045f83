import RingShamir.Sharing.FactorTable
import RingShamir.Sharing.Share

/-!
# Combining shares

A combiner turns the share of one party into an additive share for a quorum:
the additive shares of all members of the quorum add up to the secret.  The
additive share is the share times the product of `x / (x - own)` over the public
points `x` of the other members.  These factors are computed when the combiner
is made; the product of the factors of a quorum is computed in a scratch scalar
that the combiner keeps.

Main results:

- Theorem `quorum_eq_ok`: a quorum is made of the first active points.
-/

namespace RingShamir

/-- What a party needs to combine its share. -/
structure Combiner (C : Type) where
  /-- The chain of moduli. -/
  chain : C
  /-- The public point of the party. -/
  own : PublicPoint
  /-- The number of parties of a quorum. -/
  threshold : Nat
  /-- The scalar one in Montgomery form. -/
  one : Scalar
  /-- The product of the factors entered last. -/
  scratch : Scalar
  /-- The factors of the other parties in Montgomery form. -/
  factors : FactorTable

namespace Combiner

variable {C E L : Type} [ResidueChain C E L] [DecidableEq L]

open ResidueChain

/-! ## Construction -/

/-- The Montgomery form of a public point over the moduli of a chain. -/
def pointScalar (qs : List Modulus) (x : PublicPoint) : Outcome SchemeError Scalar :=
  Scalar.toMontgomery qs (Scalar.ofWord qs x.value)

/-- The factor `x / (x - own)` of a point, for `own` in Montgomery form.  The two
points must differ modulo every prime. -/
def factorOf (qs : List Modulus) (own : Scalar) (x : PublicPoint) :
    Outcome SchemeError Scalar := do
  let other ← pointScalar qs x
  let difference ← Scalar.sub qs other own
  match ← (Scalar.inverse qs difference : Outcome SchemeError _) with
  | none => Outcome.fail (.invalidPublicPoint x.value)
  | some inverse => Scalar.mul qs inverse other

/-- Enter the factors of points, in their order. -/
def enterFactors (qs : List Modulus) (own : Scalar) :
    List PublicPoint → FactorTable → Outcome SchemeError FactorTable
  | [], t => pure t
  | x :: xs, t => do
      let s ← factorOf qs own x
      enterFactors qs own xs (t.insert x s)

/-- The combiner of the party at `own` among the points `others`, in which its
own point is passed over. -/
def make (chain : C) (own : PublicPoint) (others : List PublicPoint) (threshold : Nat) :
    Outcome SchemeError (Combiner C) :=
  if threshold < 1 then Outcome.fail (.invalidThreshold threshold)
  else do
    let qs := moduli chain
    let ownScalar ← pointScalar qs own
    let factors ← enterFactors qs ownScalar (others.filter (· ≠ own)) .empty
    let one ← (Scalar.one qs : Outcome SchemeError Scalar)
    pure
      { chain := chain
        own := own
        threshold := threshold
        one := one
        scratch := Scalar.zero qs
        factors := factors }

/-- The factor of a point. -/
def factor? (c : Combiner C) (x : PublicPoint) : Option Scalar :=
  c.factors.factor? x

/-! ## Quorums -/

/-- Check that points are distinct, also from the ones seen before, and known.
The points that are fine are added to the ones seen. -/
def checkMembers (c : Combiner C) (own : PublicPoint) :
    List PublicPoint → List PublicPoint → Outcome SchemeError (List PublicPoint)
  | seen, [] => pure seen
  | seen, x :: xs =>
      if seen.contains x then Outcome.fail (.duplicatePublicPoint x.value)
      else if x ≠ own ∧ (c.factor? x).isNone then
        Outcome.fail (.unknownPublicPoint x.value)
      else checkMembers c own (x :: seen) xs

/-- The quorum made of the first active points, in which the own point has to
be. -/
def quorum (c : Combiner C) (actives : List PublicPoint) (own : PublicPoint) :
    Outcome SchemeError (List PublicPoint) :=
  if actives.length < c.threshold then
    Outcome.fail (.insufficientParties actives.length c.threshold)
  else if own ≠ c.own then Outcome.fail (.unknownPublicPoint own.value)
  else do
    let members := actives.take c.threshold
    let seen ← c.checkMembers own [] members
    if seen.contains own then pure members
    else Outcome.fail (.publicPointNotInQuorum own.value)

theorem quorum_eq_ok {c : Combiner C} {actives members : List PublicPoint}
    {own : PublicPoint} (h : c.quorum actives own = .ok members) :
    members = actives.take c.threshold ∧ c.threshold ≤ actives.length ∧ own = c.own := by
  simp only [quorum, Outcome.fail, bind, Except.bind, pure, Except.pure] at h
  repeat' split at h
  all_goals cases h
  simp_all

/-! ## Additive shares -/

/-- Multiply the scratch scalar by the factors of points. -/
def multiplyFactors (c : Combiner C) : List PublicPoint → Action SchemeError Scalar Unit
  | [] => pure ()
  | x :: xs => do
      match c.factor? x with
      | none => Action.fail (.unknownPublicPoint x.value)
      | some s =>
          Scalar.mulAssign (moduli c.chain) s
          multiplyFactors c xs

/-- Leave the product of the factors of points in the scratch scalar. -/
def gatherFactors (c : Combiner C) (xs : List PublicPoint) :
    Action SchemeError Scalar Unit := do
  Scalar.copyFrom c.one
  c.multiplyFactors xs

/-- A combiner at work on an output element. -/
structure Work (C E : Type) where
  /-- The combiner. -/
  combiner : Combiner C
  /-- The output. -/
  output : E

/-- Run an action on the scratch scalar of the combiner at work. -/
def Work.onScratch (x : Action SchemeError Scalar Unit) : Action SchemeError (Work C E) Unit :=
  Action.within (fun w => w.combiner.scratch)
    (fun s w => { w with combiner := { w.combiner with scratch := s } }) x

/-- Store the additive share of a share in the output, for the quorum made of the
first active points.  Output and share have to be at one level. -/
def additiveInto (actives : List PublicPoint) (own : PublicPoint) (share : Share E) :
    Action SchemeError (Work C E) Unit := do
  let c := (← get).combiner
  let members ← c.quorum actives own
  let l ← Share.levelOf c.chain share
  let lo ← Share.levelOf c.chain (Share.mk (← get).output)
  if l ≠ lo then
    let found := levelText c.chain lo
    let expected := levelText c.chain l
    Action.fail (.levelMismatch
      s!"additive share at level {found} for a Shamir share at level {expected}")
  else
    Work.onScratch (c.gatherFactors (members.filter (· ≠ own)))
    let scratch := (← get).combiner.scratch
    let value ← ((scaleAssign c.chain scratch).applyTo share.value).mapError SchemeError.ofRing
    modify fun w => { w with output := value }

/-- The additive share of a share, for the quorum made of the first active
points. -/
def additive (actives : List PublicPoint) (own : PublicPoint) (share : Share E) :
    Action SchemeError (Combiner C) E := do
  let c ← get
  let _ ← c.quorum actives own
  let l ← Share.levelOf c.chain share
  let zero ← (zeroAt c.chain l).mapError SchemeError.ofRing
  match (additiveInto actives own share).run ⟨c, zero⟩ with
  | .ok _ w => do
      set w.combiner
      pure w.output
  | .error e w => do
      set w.combiner
      throw e

end Combiner

end RingShamir
