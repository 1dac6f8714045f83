/-!
# Hexadecimal text of bytes

A byte is written as two digits of base 16 in lower case, the high digit first.
Reading accepts capital digits too.

Main results:

- Theorem `length_encode`: two digits are written for each byte.
-/

namespace RingShamir.Text.Hexadecimal

/-- The digit of a number below 16. -/
def digit (n : Nat) : Char :=
  if n < 10 then Char.ofNat (48 + n) else Char.ofNat (87 + n)

/-- The number of a digit. -/
def digitValue? (c : Char) : Option Nat :=
  if '0' ≤ c ∧ c ≤ '9' then some (c.toNat - 48)
  else if 'a' ≤ c ∧ c ≤ 'f' then some (c.toNat - 87)
  else if 'A' ≤ c ∧ c ≤ 'F' then some (c.toNat - 55)
  else none

/-- The digits of bytes. -/
def encode (bytes : List UInt8) : List Char :=
  bytes.flatMap fun b => [digit (b.toNat / 16), digit (b.toNat % 16)]

/-- The bytes of digits, which have to come in pairs. -/
def decode? : List Char → Option (List UInt8)
  | [] => some []
  | a :: b :: rest =>
      match digitValue? a, digitValue? b, decode? rest with
      | some x, some y, some bytes => some (UInt8.ofNat (16 * x + y) :: bytes)
      | _, _, _ => none
  | [_] => none

/-- The hexadecimal text of bytes. -/
def text (bytes : List UInt8) : String :=
  String.ofList (encode bytes)

@[simp] theorem length_encode (bytes : List UInt8) :
    (encode bytes).length = 2 * bytes.length := by
  induction bytes with
  | nil => rfl
  | cons b bytes ih =>
      simp only [encode, List.flatMap_cons, List.length_append, List.length_cons,
        List.length_nil] at ih ⊢
      omega

end RingShamir.Text.Hexadecimal
