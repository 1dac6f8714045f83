import Mathlib.Algebra.BigOperators.Group.List.Basic
import RingShamir.Proofs.Outcome
import RingShamir.Proofs.Random.Bits

/-!
# Centred binomial samples are exact

A sample of variance `k / 2` reads `2 * k` bits and compares the ones in the two halves.
Turning over the bits of the second half makes it a count of ones among all of them, so the
bits of a sample are counted by a binomial coefficient.  Samples read disjoint pieces of the
bits one after another, and the last bits are left over: bits of a vector of samples are
chosen independently for each of its entries, and freely for the rest.

Main results:

- Theorem `ncard_sampleBits`: the bits of one sample.
- Theorem `ncard_samplesOfBits`: the bits of a vector of samples, by induction on its
  length.
- Theorem `sampleVector_exact`: the buffers of a vector of samples.
-/

namespace RingShamir.Binomial

variable {k n r : Nat} {c : Int} {v : List Int} {bs : List Bool}

/-! ## One sample -/

/-- The sample that is read off the first bits. -/
def sampleBits (k : Nat) (bs : List Bool) : Int :=
  ones (bs.take k) - ones ((bs.drop k).take k)

theorem samplesOfBits_succ (k n : Nat) (bs : List Bool) : samplesOfBits k (n + 1) bs =
    sampleBits k bs :: samplesOfBits k n (bs.drop (2 * k)) := rfl

theorem sampleBits_mem (k : Nat) (bs : List Bool) : -k ≤ sampleBits k bs ∧ sampleBits k bs ≤ k := by
  have hbound (bs : List Bool) : ones (bs.take k) ≤ k :=
    (ones_le_length _).trans (by exact_mod_cast List.length_take_le k bs)
  have hfirst := hbound bs
  have hsecond := hbound (bs.drop k)
  have hfirst' := ones_nonneg (bs.take k)
  have hsecond' := ones_nonneg ((bs.drop k).take k)
  rw [sampleBits]
  omega

/-- A sample does not look past its bits. -/
theorem sampleBits_append (h : bs.length = 2 * k) (rest : List Bool) :
    sampleBits k (bs ++ rest) = sampleBits k bs := by
  rw [sampleBits, sampleBits, List.take_append_of_le_length (by omega),
    List.drop_append_of_le_length (by omega), List.take_append_of_le_length]
  rw [List.length_drop]
  omega

/-- Turn over the bits from position `k` on. -/
def turnOver (k : Nat) (bs : List Bool) : List Bool :=
  bs.take k ++ (bs.drop k).map not

@[simp] theorem length_turnOver (k : Nat) (bs : List Bool) :
    (turnOver k bs).length = bs.length := by
  rw [turnOver, List.length_append, List.length_map, ← List.length_append, List.take_append_drop]

theorem turnOver_involutive (k : Nat) : Function.Involutive (turnOver k) := by
  intro bs
  rcases Nat.lt_or_ge bs.length k with hlt | hge
  · have hsame : turnOver k bs = bs := by
      rw [turnOver, List.take_of_length_le hlt.le, List.drop_eq_nil_of_le hlt.le, List.map_nil,
        List.append_nil]
    rw [hsame, hsame]
  · have hlength : (bs.take k).length = k := List.length_take_of_le hge
    rw [turnOver, turnOver, List.take_left' hlength, List.drop_left' hlength, List.map_map,
      Bool.involutive_not.comp_self, List.map_id, List.take_append_drop]

/-- With the second half turned over, a sample is the number of ones less `k`. -/
theorem sampleBits_eq (h : bs.length = 2 * k) : sampleBits k bs = ones (turnOver k bs) - k := by
  have hhalf : (bs.drop k).length = k := by
    rw [List.length_drop]
    omega
  rw [sampleBits, turnOver, ones_append, ones_map_not, hhalf, List.take_of_length_le hhalf.le]
  omega

/-- The bits of a sample are counted by a binomial coefficient. -/
theorem ncard_sampleBits (hc : -k ≤ c) :
    {bs : List Bool | bs.length = 2 * k ∧ sampleBits k bs = c}.ncard =
      (2 * k).choose (k + c).toNat := by
  have himage : {bs : List Bool | bs.length = 2 * k ∧ sampleBits k bs = c} =
      turnOver k '' {bs : List Bool | bs.length = 2 * k ∧ ones bs = (k + c).toNat} := by
    rw [(turnOver_involutive k).image_eq_preimage_symm]
    ext bs
    have hsum : ((k + c).toNat : Int) = k + c := Int.toNat_of_nonneg (by omega)
    constructor
    · rintro ⟨hlength, rfl⟩
      refine ⟨(length_turnOver k bs).trans hlength, ?_⟩
      rw [hsum, sampleBits_eq hlength]
      omega
    · rintro ⟨hlength, hones⟩
      rw [length_turnOver] at hlength
      refine ⟨hlength, ?_⟩
      rw [sampleBits_eq hlength, hones, hsum]
      omega
  rw [himage, Set.ncard_image_of_injective _ (turnOver_involutive k).injective, ncard_ones]

/-! ## Vectors of samples -/

/-- Samples of variance `k / 2` lie between `-k` and `k`. -/
theorem samplesOfBits_mem (k n : Nat) (bs : List Bool) :
    ∀ c ∈ samplesOfBits k n bs, -k ≤ c ∧ c ≤ k := by
  induction n generalizing bs with
  | zero => simp [samplesOfBits]
  | succ n ih =>
      rw [samplesOfBits_succ, List.forall_mem_cons]
      exact ⟨sampleBits_mem k bs, ih _⟩

/-- The bits of a vector are those of its first sample and those of the others. -/
theorem setOf_samplesOfBits_cons :
    {bs : List Bool | bs.length = (n + 1) * (2 * k) + r ∧ samplesOfBits k (n + 1) bs = c :: v} =
      Set.image2 (· ++ ·) {bs : List Bool | bs.length = 2 * k ∧ sampleBits k bs = c}
        {bs : List Bool | bs.length = n * (2 * k) + r ∧ samplesOfBits k n bs = v} := by
  ext bs
  simp only [Set.mem_image2, samplesOfBits_succ, List.cons.injEq]
  constructor
  · rintro ⟨hlength, hsample, hsamples⟩
    rw [Nat.add_mul n 1 (2 * k)] at hlength
    have hfirst : (bs.take (2 * k)).length = 2 * k := List.length_take_of_le (by omega)
    refine ⟨bs.take (2 * k), ⟨hfirst, ?_⟩, bs.drop (2 * k), ⟨?_, hsamples⟩,
      List.take_append_drop _ _⟩
    · rw [← sampleBits_append hfirst (bs.drop (2 * k)), List.take_append_drop, hsample]
    · rw [List.length_drop]
      omega
  · rintro ⟨first, ⟨hfirst, rfl⟩, rest, ⟨hrest, rfl⟩, rfl⟩
    refine ⟨?_, sampleBits_append hfirst rest, ?_⟩
    · rw [List.length_append, hfirst, hrest, Nat.add_mul n 1 (2 * k)]
      omega
    · rw [List.drop_left' hfirst]

/-- The bits of a vector of samples with `r` bits left over: each sample has its own bits, and
the last ones are free. -/
theorem ncard_samplesOfBits (hv : v.length = n) (hbound : ∀ c ∈ v, -k ≤ c) (r : Nat) :
    {bs : List Bool | bs.length = n * (2 * k) + r ∧ samplesOfBits k n bs = v}.ncard =
      2 ^ r * (v.map fun c : Int => (2 * k).choose (k + c).toNat).prod := by
  induction v generalizing n with
  | nil =>
      obtain rfl : 0 = n := hv
      rw [List.map_nil, List.prod_nil, mul_one, ← ncard_length r, Nat.zero_mul, Nat.zero_add]
      simp only [samplesOfBits, and_true]
  | cons c v ih =>
      obtain rfl : v.length + 1 = n := hv
      obtain ⟨hc, hrest⟩ := List.forall_mem_cons.mp hbound
      rw [setOf_samplesOfBits_cons, ncard_append (fun x hx => hx.1), ncard_sampleBits hc,
        ih rfl hrest, List.map_cons, List.prod_cons, mul_left_comm]

/-- The buffers of a vector of samples. -/
theorem ncard_samples (hv : v.length = n) (hbound : ∀ c ∈ v, -k ≤ c) :
    {buffer : List UInt8 | buffer.length = bufferSize k n ∧ samples k n buffer = v}.ncard =
      2 ^ (8 * bufferSize k n - 2 * k * n) *
        (v.map fun c : Int => (2 * k).choose (k + c).toNat).prod := by
  have hbits : 8 * bufferSize k n = n * (2 * k) + (8 * bufferSize k n - 2 * k * n) := by
    rw [Nat.mul_comm (2 * k) n, bufferSize]
    omega
  have hcount := ncard_buffers (fun bs => samplesOfBits k n bs = v) (bufferSize k n)
  rw [hbits] at hcount
  exact hcount.trans (ncard_samplesOfBits hv hbound _)

/-! ## Samples from a stream -/

/-- A stream never ends. -/
theorem exists_run_take {ε : Type} (n : Nat) (s : WordStream) : ∃ ws s',
    EStateM.run (WordStream.take n : Action ε WordStream _) s = .ok ws s' ∧ ws.length = n := by
  induction n generalizing s with
  | zero => exact ⟨[], s, rfl, rfl⟩
  | succ n ih =>
      obtain ⟨ws, s', hrun, hlength⟩ := ih { s with drawn := s.drawn + 1 }
      refine ⟨s.word s.drawn :: ws, s', ?_, by rw [List.length_cons, hlength]⟩
      exact Action.run_bind_eq_ok.mpr
        ⟨_, _, rfl, Action.run_bind_eq_ok.mpr ⟨_, _, hrun, rfl⟩⟩

/-- A stream fills buffers of every length. -/
theorem exists_run_bytes {ε : Type} (n : Nat) (s : WordStream) : ∃ buffer s',
    EStateM.run (WordStream.bytes n : Action ε WordStream _) s = .ok buffer s' ∧
      buffer.length = n := by
  obtain ⟨ws, s', hrun, hlength⟩ := exists_run_take (ε := ε) ((n + 7) / 8) s
  refine ⟨(LittleEndian.encodeAll ws).take n, s', ?_, ?_⟩
  · exact Action.run_bind_eq_ok.mpr ⟨_, _, hrun, rfl⟩
  · rw [List.length_take, LittleEndian.length_encodeAll, hlength]
    omega

/-- The variances that are accepted are the halves of the numbers from 1 to 32. -/
theorem doubled?_half (hk : 1 ≤ k ∧ k ≤ 32) : doubled? (Float32.ofNat k / 2) = some k := by
  have hall : ∀ i : Fin 33, 1 ≤ i.val → doubled? (Float32.ofNat i.val / 2) = some i.val := by
    decide
  exact hall ⟨k, Nat.lt_succ_of_le hk.2⟩ hk.1

/-- Sampling a vector fills one buffer and reads the samples off it.  These are as many as were
asked for and lie between `-k` and `k`, and every vector of such samples is read off as many
buffers as there are choices of the bits of its entries, one by one, and of the bits that are
left over. -/
theorem sampleVector_exact (hk : 1 ≤ k ∧ k ≤ 32) (hword : n * (2 * k) < UInt64.size) :
    (∀ s : WordStream, ∃ buffer s', buffer.length = bufferSize k n ∧
      EStateM.run (WordStream.bytes (bufferSize k n) : Action VarianceError WordStream _) s =
        .ok buffer s' ∧
      EStateM.run (sampleVector n (Float32.ofNat k / 2)) s = .ok (samples k n buffer) s') ∧
    (∀ buffer, (samples k n buffer).length = n ∧ ∀ c ∈ samples k n buffer, -k ≤ c ∧ c ≤ k) ∧
    ∀ v : List Int, v.length = n → (∀ c ∈ v, -k ≤ c ∧ c ≤ k) →
      {buffer : List UInt8 | buffer.length = bufferSize k n ∧ samples k n buffer = v}.ncard =
        2 ^ (8 * bufferSize k n - 2 * k * n) *
          (v.map fun c : Int => (2 * k).choose (k + c).toNat).prod := by
  refine ⟨fun s => ?_, fun buffer => ?_, fun v hv hbound => ?_⟩
  · obtain ⟨buffer, s', hrun, hlength⟩ :=
      exists_run_bytes (ε := VarianceError) (bufferSize k n) s
    refine ⟨buffer, s', hlength, hrun, ?_⟩
    rw [sampleVector, doubled?_half hk]
    refine Action.run_bind_eq_ok.mpr ⟨(), s, Action.run_require_of hword s, ?_⟩
    exact Action.run_bind_eq_ok.mpr ⟨buffer, s', hrun, rfl⟩
  · exact ⟨length_samples k n buffer, samplesOfBits_mem k n _⟩
  · exact ncard_samples hv fun c hc => (hbound c hc).1

/-- Two samples of variance 3/2 take two bytes and leave four bits over. -/
theorem sampleVector_exact_threeHalves :
    {buffer : List UInt8 | buffer.length = 2 ∧ samples 3 2 buffer = [1, -3]}.ncard =
      2 ^ 4 * 15 := by
  have hcount := (sampleVector_exact (k := 3) (n := 2) (by decide) (by decide)).2.2 [1, -3] rfl
    (by decide)
  exact hcount.trans (by decide)

end RingShamir.Binomial
