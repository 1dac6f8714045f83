import RingShamir.Word.Checked
import RingShamir.Word.LittleEndian

/-!
# Streams of random words

Randomness is an endless stream of words together with the number of words
taken so far.  Sampling below a bound rejects words, so it ends only if
acceptable words keep coming; a stream promises this for every bound.

Main results:

- Theorem `accepts_zero`: the word zero is acceptable for every bound, so a
  stream in which it recurs keeps the promise.
- Theorem `firstFrom_first`: sampling ends with the first acceptable word of
  the stream.
- Theorem `scaleDown_lt`: a word that is scaled down to a bound lies below it.
-/

namespace RingShamir

/-! ## Acceptable words -/

/-- The greatest low word of a product that sampling below `p` accepts: one less
than `p` shifted up to the top of the word. -/
def acceptanceZone (p : UInt64) : UInt64 :=
  (p <<< (63 - p.log2)) - 1

/-- Whether sampling below `p` accepts the word `v`. -/
def accepts (p v : UInt64) : Bool :=
  v * p ≤ acceptanceZone p

@[simp] theorem accepts_zero (p : UInt64) : accepts p 0 = true := by
  simp [accepts]

/-- An endless stream of words of which the first `drawn` are taken. -/
structure WordStream where
  /-- The word at each position. -/
  word : Nat → UInt64
  /-- Acceptable words keep coming, whatever the bound. -/
  fair : ∀ p, p ≠ 0 → ∀ n, ∃ i, n ≤ i ∧ accepts p (word i) = true
  /-- The number of words taken. -/
  drawn : Nat

namespace WordStream

variable {ε : Type}

/-- A stream in which the word zero recurs, with no word taken. -/
def ofRecurrent (word : Nat → UInt64) (recurs : ∀ n, ∃ i, n ≤ i ∧ word i = 0) :
    WordStream where
  word := word
  fair := by
    intro p _ n
    obtain ⟨i, hi, hw⟩ := recurs n
    exact ⟨i, hi, by simp [hw]⟩
  drawn := 0

/-! ## Taking words -/

/-- Take the next word. -/
def next : Action ε WordStream UInt64 := fun s =>
  .ok (s.word s.drawn) { s with drawn := s.drawn + 1 }

/-- Take the next `n` words. -/
def take : Nat → Action ε WordStream (List UInt64)
  | 0 => pure []
  | n + 1 => do
      let w ← next
      let ws ← take n
      pure (w :: ws)

/-- Fill `n` bytes.  Every eight bytes take one word, and so does a shorter
piece at the end. -/
def bytes (n : Nat) : Action ε WordStream (List UInt8) := do
  let ws ← take ((n + 7) / 8)
  pure ((LittleEndian.encodeAll ws).take n)

/-! ## Uniform residues -/

/-- A position of a search for an acceptable one. -/
private structure Position (good : Nat → Bool) where
  index : Nat

/-- A step of the search passes a position that is not acceptable while an
acceptable one lies ahead. -/
private def Passes {good : Nat → Bool} (b a : Position good) : Prop :=
  b.index = a.index + 1 ∧ good a.index = false ∧ ∃ i, a.index ≤ i ∧ good i = true

private theorem passes_wellFounded (good : Nat → Bool) :
    WellFounded (@Passes good) := by
  have reached : ∀ d n, good (n + d) = true → Acc (@Passes good) ⟨n⟩ := by
    intro d
    induction d with
    | zero =>
        intro n h
        constructor
        rintro ⟨_⟩ ⟨-, hn, -⟩
        simp_all
    | succ d ih =>
        intro n h
        constructor
        rintro ⟨m⟩ ⟨hm, -, -⟩
        simp only at hm
        subst hm
        exact ih (n + 1) (by rwa [Nat.add_right_comm, Nat.add_assoc])
  constructor
  rintro ⟨n⟩
  constructor
  rintro ⟨m⟩ ⟨hm, hn, i, hi, hg⟩
  simp only at hm hn hi
  subst hm
  obtain ⟨d, rfl⟩ := Nat.exists_eq_add_of_le hi
  cases d with
  | zero => simp_all
  | succ d => exact reached d (n + 1) (by rwa [Nat.add_right_comm, Nat.add_assoc])

private instance (good : Nat → Bool) : WellFoundedRelation (Position good) :=
  ⟨Passes, passes_wellFounded good⟩

/-- The first acceptable position from `n` on. -/
def firstFrom (good : Nat → Bool) (n : Nat) (h : ∃ i, n ≤ i ∧ good i = true) : Nat :=
  if hn : good n = true then n
  else firstFrom good (n + 1) (by
    obtain ⟨i, hi, hg⟩ := h
    refine ⟨i, ?_, hg⟩
    rcases Nat.lt_or_eq_of_le hi with hlt | rfl
    · exact hlt
    · exact absurd hg hn)
termination_by (Position.mk n : Position good)
decreasing_by exact ⟨rfl, by simpa using hn, h⟩

/-- The search stops at an acceptable position, and all positions before it are
not acceptable. -/
theorem firstFrom_first (good : Nat → Bool) (n : Nat) (h : ∃ i, n ≤ i ∧ good i = true) :
    n ≤ firstFrom good n h ∧ good (firstFrom good n h) = true ∧
      ∀ j, n ≤ j → j < firstFrom good n h → good j = false := by
  fun_induction firstFrom good n h with
  | case1 n h hn => exact ⟨Nat.le_refl n, hn, fun j h₁ h₂ => by omega⟩
  | case2 n h hn ih =>
      obtain ⟨h₁, h₂, h₃⟩ := ih
      refine ⟨by omega, h₂, fun j hj hlt => ?_⟩
      rcases Nat.lt_or_eq_of_le hj with hj | rfl
      · exact h₃ j hj hlt
      · simpa using hn

/-- The high word of the product of a bound and a word. -/
def scaleDown (p v : UInt64) : UInt64 :=
  UInt64.ofNat (Word.wideMul v p >>> 64)

/-- Take words until one is acceptable for the bound `p` and scale that one
down to a word below `p`. -/
def below (p : UInt64) : Action ε WordStream UInt64 := fun s =>
  if hp : p = 0 then .error .breach s
  else
    let i := firstFrom (fun i => accepts p (s.word i)) s.drawn (s.fair p hp s.drawn)
    .ok (scaleDown p (s.word i)) { s with drawn := i + 1 }

theorem scaleDown_lt {p : UInt64} (v : UInt64) (hp : p ≠ 0) : scaleDown p v < p := by
  have hv := v.toNat_lt
  have hlt := p.toNat_lt
  have hpos : 0 < p.toNat :=
    Nat.pos_of_ne_zero fun h => hp (UInt64.toNat_inj.mp (by simpa using h))
  have hdiv : v.toNat * p.toNat / 2 ^ 64 < p.toNat :=
    Nat.div_lt_of_lt_mul (Nat.mul_lt_mul_of_pos_right hv hpos)
  rw [UInt64.lt_iff_toNat_lt, scaleDown, Word.wideMul, Nat.shiftRight_eq_div_pow,
    UInt64.toNat_ofNat', Nat.mod_eq_of_lt (by omega)]
  exact hdiv

end WordStream

end RingShamir
