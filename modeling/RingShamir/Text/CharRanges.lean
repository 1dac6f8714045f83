/-!
# Ranges of characters

A class of characters is given by closed ranges of code points, in ascending
order and with a gap between any two of them.

Main results:

- Theorem `inRanges_iff`: a character is in a class when one of its ranges has
  its code point.
- Theorem `inRanges_eq_false`: a class that has no range across an interval of
  code points has none of its characters.
-/

namespace RingShamir.Text

/-- Whether a character lies in one of some ranges. -/
def inRanges (ranges : List (Nat × Nat)) (c : Char) : Bool :=
  ranges.any fun (low, high) => low ≤ c.toNat && c.toNat ≤ high

/-- Whether ranges are in ascending order with gaps between them. -/
def areAscending : List (Nat × Nat) → Bool
  | [] => true
  | [(low, high)] => low ≤ high
  | (low, high) :: (low', high') :: rest =>
      low ≤ high && high + 1 < low' && areAscending ((low', high') :: rest)

/-- Whether no range meets the interval from `low` to `high`. -/
def areOutside (low high : Nat) (ranges : List (Nat × Nat)) : Bool :=
  ranges.all fun (first, last) => last < low || high < first

theorem inRanges_iff {ranges : List (Nat × Nat)} {c : Char} :
    inRanges ranges c = true ↔ ∃ r ∈ ranges, r.1 ≤ c.toNat ∧ c.toNat ≤ r.2 := by
  simp [inRanges]

theorem inRanges_eq_false {ranges : List (Nat × Nat)} {low high : Nat} {c : Char}
    (h : areOutside low high ranges = true) (hlow : low ≤ c.toNat) (hhigh : c.toNat ≤ high) :
    inRanges ranges c = false := by
  rw [Bool.eq_false_iff]
  intro hin
  obtain ⟨r, hr, h₁, h₂⟩ := inRanges_iff.mp hin
  have hout := List.all_eq_true.mp h r hr
  simp only [Bool.or_eq_true, decide_eq_true_eq] at hout
  omega

end RingShamir.Text
