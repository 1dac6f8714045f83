import RingShamir.Outcome

/-!
# Checked word arithmetic

Sums and differences of 64-bit words that demand that the exact result is
itself a word, and products that are not cut to a word.

Main results:

- Theorems `add_of_lt` and `sub_of_le`: the operations succeed on the inputs
  whose exact result fits.
- Theorem `toNat_leadingZeros`: the zeros above the top digit of a word.
-/

namespace RingShamir.Word

variable {ε : Type}

/-- The number of bytes from which on a buffer cannot be addressed. -/
def addressLimit : Nat := UInt64.size / 2

/-- The exact sum of two words. -/
def add (a b : UInt64) : Outcome ε UInt64 := do
  Outcome.require (a.toNat + b.toNat < UInt64.size)
  pure (a + b)

/-- The exact difference of two words. -/
def sub (a b : UInt64) : Outcome ε UInt64 := do
  Outcome.require (b ≤ a)
  pure (a - b)

/-- The exact product of two words, as a natural number. -/
def wideMul (a b : UInt64) : Nat := a.toNat * b.toNat

/-- The number of zeros above the top digit of a word. -/
def leadingZeros (a : UInt64) : UInt64 :=
  if a = 0 then 64 else 63 - a.log2

theorem add_of_lt {a b : UInt64} (h : a.toNat + b.toNat < UInt64.size) :
    (add a b : Outcome ε UInt64) = .ok (a + b) := by
  unfold add
  rw [Outcome.require_of h]
  rfl

theorem sub_of_le {a b : UInt64} (h : b ≤ a) :
    (sub a b : Outcome ε UInt64) = .ok (a - b) := by
  unfold sub
  rw [Outcome.require_of h]
  rfl

theorem toNat_leadingZeros {a : UInt64} (h : a ≠ 0) :
    (leadingZeros a).toNat = 63 - a.toNat.log2 := by
  have hpos : a.toNat ≠ 0 := fun hzero => h (UInt64.toNat_inj.mp hzero)
  have htop : a.toNat.log2 < 64 := (Nat.log2_lt hpos).mpr a.toNat_lt
  have hlog : a.log2.toNat = a.toNat.log2 := rfl
  have hle : a.log2 ≤ 63 := by
    rw [UInt64.le_iff_toNat_le, hlog]
    exact Nat.le_of_lt_succ htop
  rw [leadingZeros, if_neg h, UInt64.toNat_sub_of_le _ _ hle, hlog]
  rfl

end RingShamir.Word
