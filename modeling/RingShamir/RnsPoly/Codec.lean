import RingShamir.RnsPoly.Basic

/-!
# Encoding of polynomials

A polynomial is encoded as its residues in little-endian words, row after row,
without a header.

Main results:

- Theorem `length_encode`: eight bytes are written for each coefficient.
- Theorem `length_splitRows`: decoding makes the number of rows it is asked for.
-/

namespace RingShamir.RnsPoly

/-- The bytes of a polynomial. -/
def encode (a : RnsPoly) : List UInt8 :=
  LittleEndian.encodeAll a.rows.flatten

@[simp] theorem length_encode (a : RnsPoly) :
    a.encode.length = 8 * a.rows.flatten.length := by
  simp [encode]

/-- Cut a list into rows of equal width. -/
def splitRows (width : Nat) : Nat → List UInt64 → List (List UInt64)
  | 0, _ => []
  | n + 1, ws => ws.take width :: splitRows width n (ws.drop width)

@[simp] theorem length_splitRows (width n : Nat) (ws : List UInt64) :
    (splitRows width n ws).length = n := by
  induction n generalizing ws with
  | zero => rfl
  | succ n ih => simp [splitRows, ih]

/-- The polynomial over a basis that is encoded by bytes. -/
def decode (b : RnsBasis) (bytes : List UInt8) : Outcome RingError RnsPoly := do
  let expected := encodedSize b
  Outcome.require (expected < UInt64.size)
  let found := bytes.length
  if found ≠ expected then
    Outcome.fail (.serialization
      s!"Invalid polynomial serialization: expected {expected} bytes, found {found}")
  else
    match ofRows b (splitRows b.degree b.operators.length (LittleEndian.decodeAll bytes)) with
    | .ok a => pure a
    | .error .breach => .error .breach
    | .error (.failure e) =>
        let reason := e.message
        Outcome.fail (.serialization s!"Invalid polynomial serialization: {reason}")

end RingShamir.RnsPoly
