import RingShamir.Scalar
import RingShamir.Sharing.PublicPoint

/-!
# Tables of factors

The factors that a combiner holds for the other parties, by public point.

Main results:

- Theorem `factor?_insert`: entering a factor replaces an earlier one of the
  same point and leaves the others alone.
-/

namespace RingShamir

/-- A table of factors by public point.  Of several entries of one point the
first one counts. -/
structure FactorTable where
  /-- The entries, the latest first. -/
  entries : List (PublicPoint × Scalar)
deriving DecidableEq

namespace FactorTable

/-- The table without entries. -/
def empty : FactorTable := ⟨[]⟩

/-- Enter the factor of a point. -/
def insert (t : FactorTable) (x : PublicPoint) (s : Scalar) : FactorTable :=
  ⟨(x, s) :: t.entries⟩

/-- The factor of a point. -/
def factor? (t : FactorTable) (x : PublicPoint) : Option Scalar :=
  (t.entries.find? (·.1 = x)).map (·.2)

@[simp] theorem factor?_empty (x : PublicPoint) : empty.factor? x = none := rfl

@[simp] theorem factor?_insert (t : FactorTable) (x y : PublicPoint) (s : Scalar) :
    (t.insert x s).factor? y = if x = y then some s else t.factor? y := by
  by_cases h : x = y <;> simp [insert, factor?, h]

end FactorTable

end RingShamir
