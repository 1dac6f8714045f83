import RingShamir.Error
import RingShamir.Outcome
import RingShamir.Word.LittleEndian

/-!
# Public points

A party is known by its public point, a word other than zero at which the
sharing polynomials are evaluated.  The secret is their value at zero.

Main results:

- Theorem `ofWord_eq_ok`: every word but zero is a public point.
- Theorem `decode?_encode`: a public point is read back from its bytes.
-/

namespace RingShamir

/-- The public point of a party. -/
structure PublicPoint where
  /-- The word. -/
  value : UInt64
  /-- A share at zero would be the secret. -/
  value_ne_zero : value ≠ 0
deriving DecidableEq

namespace PublicPoint

/-- The public point of a word. -/
def ofWord (x : UInt64) : Outcome SchemeError PublicPoint :=
  if h : x ≠ 0 then pure ⟨x, h⟩ else Outcome.fail (.invalidPublicPoint x)

theorem ofWord_eq_ok {x : UInt64} {p : PublicPoint} :
    ofWord x = .ok p ↔ p.value = x := by
  unfold ofWord Outcome.fail
  split
  · simp only [pure, Except.pure, Except.ok.injEq]
    constructor
    · rintro rfl
      rfl
    · rintro rfl
      rfl
  · rename_i h
    simp only [ne_eq, Decidable.not_not] at h
    simp only [reduceCtorEq, false_iff]
    rintro rfl
    exact p.value_ne_zero h

/-- The order of public points is that of their words. -/
def le (x y : PublicPoint) : Bool :=
  x.value ≤ y.value

/-- Public points in ascending order. -/
def sort (xs : List PublicPoint) : List PublicPoint :=
  xs.mergeSort le

/-- The eight bytes of a public point. -/
def encode (x : PublicPoint) : List UInt8 :=
  LittleEndian.encode x.value

/-- The public point that the first eight bytes encode. -/
def decode? (bytes : List UInt8) : Option PublicPoint :=
  if bytes.length < 8 then none
  else (ofWord (LittleEndian.decode (bytes.take 8))).toOption

@[simp] theorem decode?_encode (x : PublicPoint) : decode? x.encode = some x := by
  have hx : ofWord x.value = .ok x := ofWord_eq_ok.mpr rfl
  simp [decode?, encode, List.take_of_length_le, hx, Except.toOption]

/-- The text of a public point. -/
def text (x : PublicPoint) : String :=
  toString x.value

/-- The structured text of a public point. -/
def debugText (x : PublicPoint) : String :=
  Text.tagged "ShamirPublicPoint" [x.text]

end PublicPoint

end RingShamir
