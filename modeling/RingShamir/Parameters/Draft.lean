import RingShamir.Parameters.Basic

/-!
# Drafts of parameters

A draft gives each list of moduli either by its members or by their sizes.
Moduli of given sizes are the greatest primes that suit the degree and are still
free.

Main results:

- Theorems `ofParameters_degree`, `ofParameters_moduli` and
  `ofParameters_auxModuli`: the draft of given parameters has their degree and
  moduli.
-/

namespace RingShamir

/-- A draft of parameters.  An empty list stands for a choice that is not
made. -/
structure ParameterDraft where
  /-- The degree. -/
  degree : Nat := 0
  /-- The ciphertext moduli. -/
  moduli : List UInt64 := []
  /-- The sizes of the ciphertext moduli. -/
  sizes : List Nat := []
  /-- The auxiliary moduli. -/
  auxModuli : List UInt64 := []
  /-- The sizes of the auxiliary moduli. -/
  auxSizes : List Nat := []
deriving DecidableEq

namespace ParameterDraft

/-- Report an error of the choice of parameters. -/
def reject {α : Type} (e : ParameterError) : Outcome SchemeError α :=
  Outcome.fail (.parameters e)

/-! ## Generated moduli -/

/-- The greatest prime of a size below `bound` that suits a degree and is not
among the moduli in use.  A prime in use is the bound of the next search. -/
def freePrime (size degree : Nat) (used : List UInt64) (bound : UInt64) :
    Outcome SchemeError UInt64 := do
  Outcome.require (2 * degree < UInt64.size)
  match h : PrimeSearch.greatestPrime size (UInt64.ofNat (2 * degree)) bound with
  | .error e => .error e
  | .ok none => reject (.notEnoughPrimes size degree)
  | .ok (some p) =>
      have := PrimeSearch.greatestPrime_lt h
      if used.contains p then freePrime size degree used p else pure p
termination_by bound.toNat

/-- Moduli of given sizes, each different from the ones before it and from the
moduli that are taken. -/
def generateModuli (degree : Nat) (taken : List UInt64) :
    List UInt64 → List Nat → Outcome SchemeError (List UInt64)
  | found, [] => pure found
  | found, size :: sizes => do
      if size > 62 || size < 10 then reject (.invalidModulusSize size 10 62)
      else
        let p ← freePrime size degree (found ++ taken) (1 <<< UInt64.ofNat size)
        generateModuli degree taken (found ++ [p]) sizes

/-! ## Checks -/

/-- Whether a word is an odd prime below `2 ^ 62`. -/
def isSuitable (m : UInt64) : Bool :=
  m < (1 : UInt64) <<< 62 && m % 2 ≠ 0 && Primality.isPrime m.toNat

/-- Check that moduli are distinct odd primes below `2 ^ 62`. -/
def checkModuli (moduli : List UInt64) : Outcome SchemeError Unit :=
  match moduli.find? (!isSuitable ·) with
  | some m => reject (.invalidModuli s!"{m} is not an odd prime smaller than 2^62")
  | none =>
      if ¬moduli.Nodup then reject (.invalidModuli "the moduli are not distinct") else pure ()

/-- Check the degree, and that each list of moduli is chosen in at most one way
and the ciphertext moduli in one. -/
def checkChoices (d : ParameterDraft) : Outcome SchemeError Unit :=
  if d.degree < 8 || !PrimeSearch.isPowerOfTwo d.degree then
    reject (.invalidDegree d.degree)
  else if !d.moduli.isEmpty && !d.sizes.isEmpty then
    reject (.tooManySpecified
      "Only one of \x60ciphertext_moduli\x60 and \x60ciphertext_moduli_sizes\x60 can be specified")
  else if d.moduli.isEmpty && d.sizes.isEmpty then
    reject (.tooFewSpecified
      "One of \x60ciphertext_moduli\x60 and \x60ciphertext_moduli_sizes\x60 must be specified")
  else if !d.auxModuli.isEmpty && !d.auxSizes.isEmpty then
    reject (.tooManySpecified
      "Only one of \x60p_moduli\x60 and \x60p_moduli_sizes\x60 can be specified")
  else pure ()

/-- The moduli that are given, or else generated from sizes. -/
def chooseModuli (degree : Nat) (given : List UInt64) (sizes : List Nat)
    (taken : List UInt64) : Outcome SchemeError (List UInt64) :=
  if sizes.isEmpty then pure given else generateModuli degree taken [] sizes

/-- The parameters of a draft. -/
def build (d : ParameterDraft) : Outcome SchemeError Parameters := do
  d.checkChoices
  let moduli ← chooseModuli d.degree d.moduli d.sizes []
  let auxModuli ← chooseModuli d.degree d.auxModuli d.auxSizes moduli
  checkModuli (moduli ++ auxModuli)
  let main ← (RnsBasis.ofModuli moduli d.degree).mapError SchemeError.ofRing
  let aux ←
    if auxModuli.isEmpty then pure none
    else some <$> (RnsBasis.ofModuli auxModuli d.degree).mapError SchemeError.ofRing
  let extended ← (ExtendedChain.ofBases main aux).mapError SchemeError.ofRing
  pure
    { degree := d.degree
      moduli := moduli
      sizes := moduli.map fun m => m.toNat.log2 + 1
      auxModuli := auxModuli
      plain := ⟨main⟩
      extended := extended }

/-- The draft that gives the degree and the moduli of parameters. -/
def ofParameters (par : Parameters) : ParameterDraft where
  degree := par.degree
  moduli := par.moduli
  auxModuli := par.auxModuli

@[simp] theorem ofParameters_degree (par : Parameters) :
    (ofParameters par).degree = par.degree := rfl

@[simp] theorem ofParameters_moduli (par : Parameters) :
    (ofParameters par).moduli = par.moduli := rfl

@[simp] theorem ofParameters_auxModuli (par : Parameters) :
    (ofParameters par).auxModuli = par.auxModuli := rfl

/-- The structured text of a draft. -/
def debugText (d : ParameterDraft) : String :=
  Text.record "RlweParametersBuilder"
    [("degree", toString d.degree), ("ciphertext_moduli", Text.words d.moduli),
      ("ciphertext_moduli_sizes", Text.naturals d.sizes), ("p_moduli", Text.words d.auxModuli),
      ("p_moduli_sizes", Text.naturals d.auxSizes)]

end ParameterDraft

end RingShamir
