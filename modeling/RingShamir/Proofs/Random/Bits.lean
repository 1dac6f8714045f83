import Mathlib.Data.Fintype.Vector
import Mathlib.Data.Set.Card
import Mathlib.Data.Set.Finite.List
import RingShamir.Random.Binomial

/-!
# Counting bits

The bits of the buffers of a length are all the bits in eight times this number, each
once.  So buffers are counted by their bits, and bits that are read one piece after
another are counted piece by piece.

Main results:

- Theorem `ncard_append`: choices for a first piece of fixed length and for the rest multiply.
- Theorem `ncard_ones`: bits with a given number of ones are counted by a binomial
  coefficient.
- Theorem `ncard_buffers`: buffers are counted by their bits.
-/

namespace RingShamir.Binomial

variable {A B : Set (List Bool)} {bs : List Bool} {m j : Nat}

/-! ## Pieces -/

/-- Choices for a first piece of fixed length and for the rest multiply. -/
theorem ncard_append (hA : ∀ x ∈ A, x.length = m) :
    (Set.image2 (· ++ ·) A B).ncard = A.ncard * B.ncard := by
  rw [← Set.image_uncurry_prod, ← Set.ncard_prod]
  apply Set.InjOn.ncard_image
  rintro ⟨x, y⟩ ⟨hx, -⟩ ⟨x', y'⟩ ⟨hx', -⟩ h
  obtain ⟨rfl, rfl⟩ := List.append_inj h ((hA x hx).trans (hA x' hx').symm)
  rfl

/-- Bits are counted by the first one and the others. -/
theorem ncard_succ (P : List Bool → Prop) (m : Nat) :
    {bs : List Bool | bs.length = m + 1 ∧ P bs}.ncard =
      {bs : List Bool | bs.length = m ∧ P (false :: bs)}.ncard +
        {bs : List Bool | bs.length = m ∧ P (true :: bs)}.ncard := by
  have hsplit : {bs : List Bool | bs.length = m + 1 ∧ P bs} =
      (false :: ·) '' {bs : List Bool | bs.length = m ∧ P (false :: bs)} ∪
        (true :: ·) '' {bs : List Bool | bs.length = m ∧ P (true :: bs)} := by
    ext bs
    constructor
    · rintro ⟨hlength, hP⟩
      obtain ⟨b, bs, rfl⟩ := List.exists_cons_of_length_eq_add_one hlength
      cases b
      · exact .inl ⟨bs, ⟨Nat.succ.inj hlength, hP⟩, rfl⟩
      · exact .inr ⟨bs, ⟨Nat.succ.inj hlength, hP⟩, rfl⟩
    · rintro (⟨bs, ⟨rfl, hP⟩, rfl⟩ | ⟨bs, ⟨rfl, hP⟩, rfl⟩)
      · exact ⟨rfl, hP⟩
      · exact ⟨rfl, hP⟩
  have hdisjoint : Disjoint
      ((false :: ·) '' {bs : List Bool | bs.length = m ∧ P (false :: bs)})
        ((true :: ·) '' {bs : List Bool | bs.length = m ∧ P (true :: bs)}) := by
    rw [Set.disjoint_left]
    rintro _ ⟨bs, -, rfl⟩ ⟨bs', -, h⟩
    cases h
  have hfinite (b : Bool) : {bs : List Bool | bs.length = m ∧ P (b :: bs)}.Finite :=
    (List.finite_length_eq Bool m).subset fun _ h => h.1
  rw [hsplit, Set.ncard_union_eq hdisjoint ((hfinite false).image _) ((hfinite true).image _),
    Set.ncard_image_of_injective _ List.cons_injective,
    Set.ncard_image_of_injective _ List.cons_injective]

/-- All bits in a number. -/
theorem ncard_length (m : Nat) : {bs : List Bool | bs.length = m}.ncard = 2 ^ m := by
  have hvectors : Nat.card (List.Vector Bool m) = 2 ^ m := by
    rw [Nat.card_eq_fintype_card, card_vector, Fintype.card_bool]
  exact hvectors

/-! ## Ones -/

@[simp] theorem ones_nil : ones [] = 0 := rfl

@[simp] theorem ones_cons (b : Bool) (bs : List Bool) : ones (b :: bs) = ones bs + b.toNat := by
  cases b <;> simp [ones]

theorem ones_nonneg (bs : List Bool) : 0 ≤ ones bs :=
  Int.natCast_nonneg _

theorem ones_le_length (bs : List Bool) : ones bs ≤ bs.length :=
  Int.ofNat_le.mpr List.countP_le_length

theorem ones_append (bs bs' : List Bool) : ones (bs ++ bs') = ones bs + ones bs' := by
  rw [ones, ones, ones, List.countP_append, Nat.cast_add]

/-- The ones among the opposite bits are the zeros. -/
theorem ones_map_not (bs : List Bool) : ones (bs.map not) = bs.length - ones bs := by
  induction bs with
  | nil => rfl
  | cons b bs ih =>
      rw [List.map_cons, ones_cons, ones_cons, ih, List.length_cons]
      cases b with
      | false =>
          simp only [Bool.not_false, Bool.toNat_true, Bool.toNat_false, Nat.cast_succ]
          omega
      | true =>
          simp only [Bool.not_true, Bool.toNat_true, Bool.toNat_false, Nat.cast_succ]
          omega

/-- Bits with a given number of ones are counted by a binomial coefficient. -/
theorem ncard_ones (m j : Nat) :
    {bs : List Bool | bs.length = m ∧ ones bs = j}.ncard = m.choose j := by
  induction m generalizing j with
  | zero =>
      cases j with
      | zero =>
          have hnil : {bs : List Bool | bs.length = 0 ∧ ones bs = (0 : Nat)} = {[]} := by
            ext bs
            constructor
            · rintro ⟨hlength, -⟩
              exact List.length_eq_zero_iff.mp hlength
            · rintro rfl
              exact ⟨rfl, rfl⟩
          rw [hnil, Set.ncard_singleton, Nat.choose_self]
      | succ j =>
          have hnone : {bs : List Bool | bs.length = 0 ∧ ones bs = (j + 1 : Nat)} = ∅ := by
            apply Set.eq_empty_of_forall_notMem
            rintro bs ⟨hlength, hones⟩
            have hle := ones_le_length bs
            omega
          rw [hnone, Set.ncard_empty, Nat.choose_zero_succ]
  | succ m ih =>
      rw [ncard_succ]
      simp only [ones_cons, Bool.toNat_false, Bool.toNat_true, Nat.cast_zero, Nat.cast_one,
        add_zero, ih]
      cases j with
      | zero =>
          have hnone : {bs : List Bool | bs.length = m ∧ ones bs + 1 = (0 : Nat)} = ∅ := by
            apply Set.eq_empty_of_forall_notMem
            rintro bs ⟨-, hones⟩
            have hnonneg := ones_nonneg bs
            omega
          rw [hnone, Set.ncard_empty, Nat.choose_zero_right, Nat.choose_zero_right]
      | succ j =>
          simp only [Nat.cast_succ, add_left_inj, ih]
          rw [Nat.choose_succ_succ, Nat.add_comm]

/-! ## Bytes -/

/-- Bytes with the same bits are equal. -/
theorem bits_injective : Function.Injective bits := by
  intro b b' h
  apply UInt8.toNat_inj.mp
  apply Nat.eq_of_testBit_eq
  intro i
  rcases Nat.lt_or_ge i 8 with hi | hi
  · have hentry := congrArg (·[i]?) h
    simpa [bits, hi] using hentry
  · have hpower : 2 ^ 8 ≤ 2 ^ i := Nat.pow_le_pow_right (by decide) hi
    rw [Nat.testBit_lt_two_pow (b.toNat_lt.trans_le hpower),
      Nat.testBit_lt_two_pow (b'.toNat_lt.trans_le hpower)]

/-- Eight bits are the bits of a byte. -/
theorem exists_bits (h : bs.length = 8) : ∃ b, bits b = bs := by
  have hlt := Nat.ofBits_lt_two_pow fun i : Fin 8 => bs[i.val]
  refine ⟨UInt8.ofNat (Nat.ofBits fun i : Fin 8 => bs[i.val]), ?_⟩
  apply List.ext_getElem
  · rw [length_bits, h]
  · intro i hi hi'
    rw [length_bits] at hi
    simp only [bits, List.getElem_map, List.getElem_range, UInt8.toNat_ofNat', Nat.mod_eq_of_lt hlt,
      Nat.testBit_ofBits_lt _ i hi]

theorem length_flatMap_bits (buffer : List UInt8) :
    (buffer.flatMap bits).length = 8 * buffer.length := by
  induction buffer with
  | nil => rfl
  | cons b buffer ih =>
      rw [List.flatMap_cons, List.length_append, ih, length_bits, List.length_cons]
      omega

/-- Buffers with the same bits are equal. -/
theorem flatMap_bits_injective : Function.Injective fun buffer : List UInt8 =>
    buffer.flatMap bits := by
  intro buffer buffer' h
  induction buffer generalizing buffer' with
  | nil =>
      have hlength := congrArg List.length h
      simp only [length_flatMap_bits, List.length_nil] at hlength
      exact (List.length_eq_zero_iff.mp (by omega)).symm
  | cons b buffer ih =>
      cases buffer' with
      | nil =>
          have hlength := congrArg List.length h
          simp only [length_flatMap_bits, List.length_nil, List.length_cons] at hlength
          omega
      | cons b' buffer' =>
          obtain ⟨hfirst, hrest⟩ := List.append_inj (by simpa using h) (by simp)
          rw [bits_injective hfirst, ih hrest]

/-- Bits in eight times a number are the bits of a buffer of this length. -/
theorem exists_flatMap_bits {length : Nat} (h : bs.length = 8 * length) :
    ∃ buffer : List UInt8, buffer.length = length ∧ buffer.flatMap bits = bs := by
  induction length generalizing bs with
  | zero => exact ⟨[], rfl, (List.length_eq_zero_iff.mp h).symm⟩
  | succ length ih =>
      have hfirst : (bs.take 8).length = 8 := List.length_take_of_le (by omega)
      have hrest : (bs.drop 8).length = 8 * length := by
        rw [List.length_drop]
        omega
      obtain ⟨b, hb⟩ := exists_bits hfirst
      obtain ⟨buffer, hlength, hbuffer⟩ := ih hrest
      refine ⟨b :: buffer, by rw [List.length_cons, hlength], ?_⟩
      rw [List.flatMap_cons, hb, hbuffer, List.take_append_drop]

/-- Buffers of a length are counted by their bits. -/
theorem ncard_buffers (P : List Bool → Prop) (length : Nat) :
    {buffer : List UInt8 | buffer.length = length ∧ P (buffer.flatMap bits)}.ncard =
      {bs : List Bool | bs.length = 8 * length ∧ P bs}.ncard := by
  have himage : {bs : List Bool | bs.length = 8 * length ∧ P bs} =
      (fun buffer : List UInt8 => buffer.flatMap bits) ''
        {buffer : List UInt8 | buffer.length = length ∧ P (buffer.flatMap bits)} := by
    ext bs
    constructor
    · rintro ⟨hlength, hP⟩
      obtain ⟨buffer, hbuffer, rfl⟩ := exists_flatMap_bits hlength
      exact ⟨buffer, ⟨hbuffer, hP⟩, rfl⟩
    · rintro ⟨buffer, ⟨rfl, hP⟩, rfl⟩
      exact ⟨length_flatMap_bits buffer, hP⟩
  rw [himage, Set.ncard_image_of_injective _ flatMap_bits_injective]

end RingShamir.Binomial
