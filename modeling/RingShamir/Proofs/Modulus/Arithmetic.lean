import RingShamir.Proofs.Modulus.Power

/-!
# Sums, differences and powers as those of numbers

Seen as numbers, the results of the plain operations are the remainders of sums,
differences and powers.  That holds over the whole range of moduli: a residue and a
modulus add up to a word, one selection between a word and its difference from the
modulus is enough to reduce it, and every exponent but zero and one has a digit below
its top one, from which on its digits are read.

Main results:

- Theorem `reduceOnce_spec`: the selection takes the remainder.
- Theorems `add_spec` and `sub_spec`: sums and differences as numbers.
- Definition `SumsExact` and theorem `sums_exact`: sums and differences modulo all
  numbers from 2 to `2 ^ 62 - 1`.
- Definition `PowersExact` and theorem `powers_exact`: powers modulo all of them.
-/

namespace RingShamir.Modulus

variable {ε : Type} {q : Modulus} {a b n : UInt64}

/-! ## Sums and differences -/

/-- One selection reduces a word below twice the modulus. -/
theorem reduceOnce_spec (hq : q.Accepted) {x : UInt64} (hx : x.toNat < 2 * q.value.toNat) :
    ∃ r, (reduceOnce x q.value : Outcome ε UInt64) = .ok r ∧
      r.toNat = x.toNat % q.value.toNat := by
  have hlimit := hq.lt_limit
  exact ⟨x % q.value, reduceOnce_of_lt (by omega) hx, UInt64.toNat_mod x q.value⟩

/-- The sum of two residues is the remainder of the sum of numbers. -/
theorem add_spec (hq : q.Accepted) (ha : a < q.value) (hb : b < q.value) :
    ∃ r, (q.add a b : Outcome ε UInt64) = .ok r ∧ r < q.value ∧
      r.toNat = (a.toNat + b.toNat) % q.value.toNat := by
  refine ⟨_, add_eq hq ha hb, ofResidue_lt hq _, ?_⟩
  apply toNat_eq_mod (ofResidue_lt hq _)
  rw [residue_ofResidue hq, Nat.cast_add]
  rfl

/-- The difference of two residues is the remainder of the difference of integers. -/
theorem sub_spec (hq : q.Accepted) (ha : a < q.value) (hb : b < q.value) :
    ∃ r, (q.sub a b : Outcome ε UInt64) = .ok r ∧ r < q.value ∧
      (r.toNat : Int) = ((a.toNat : Int) - b.toNat) % q.value.toNat := by
  have hclass : q.residue a - q.residue b =
      q.residue (q.reduceInt ((a.toNat : Int) - b.toNat)) := by
    rw [residue_reduceInt hq]
    push_cast
    rfl
  refine ⟨q.reduceInt ((a.toNat : Int) - b.toNat), ?_, reduceInt_lt hq _, toNat_reduceInt hq _⟩
  rw [sub_eq hq ha hb, hclass, ofResidue_residue (reduceInt_lt hq _)]

theorem add_bind_sub (hq : q.Accepted) (ha : a < q.value) (hb : b < q.value) :
    (q.add a b >>= fun s => q.sub s b : Outcome ε UInt64) = .ok a := by
  rw [add_eq hq ha hb, Outcome.ok_bind, sub_eq hq (ofResidue_lt hq _) hb, residue_ofResidue hq,
    add_sub_cancel_right, ofResidue_residue ha]

theorem sub_bind_add (hq : q.Accepted) (ha : a < q.value) (hb : b < q.value) :
    (q.sub a b >>= fun d => q.add d b : Outcome ε UInt64) = .ok a := by
  rw [sub_eq hq ha hb, Outcome.ok_bind, add_eq hq (ofResidue_lt hq _) hb, residue_ofResidue hq,
    sub_add_cancel, ofResidue_residue ha]

/-- Sums and differences modulo a number are exact: the operations are defined on all
reduced words, whatever errors their callers report. -/
structure SumsExact (q : Modulus) : Prop where
  /-- The selection takes the remainder of every word below twice the modulus. -/
  reduceOnce : ∀ (ε : Type) (x : UInt64), x.toNat < 2 * q.value.toNat →
    ∃ r, (reduceOnce x q.value : Outcome ε UInt64) = .ok r ∧
      r.toNat = x.toNat % q.value.toNat
  /-- Sums are reduced sums of numbers. -/
  add : ∀ (ε : Type) (a b : UInt64), a < q.value → b < q.value →
    ∃ r, (q.add a b : Outcome ε UInt64) = .ok r ∧ r < q.value ∧
      r.toNat = (a.toNat + b.toNat) % q.value.toNat
  /-- Differences are reduced differences of integers. -/
  sub : ∀ (ε : Type) (a b : UInt64), a < q.value → b < q.value →
    ∃ r, (q.sub a b : Outcome ε UInt64) = .ok r ∧ r < q.value ∧
      (r.toNat : Int) = ((a.toNat : Int) - b.toNat) % q.value.toNat
  /-- Subtraction undoes addition. -/
  add_bind_sub : ∀ (ε : Type) (a b : UInt64), a < q.value → b < q.value →
    (q.add a b >>= fun s => q.sub s b : Outcome ε UInt64) = .ok a
  /-- Addition undoes subtraction. -/
  sub_bind_add : ∀ (ε : Type) (a b : UInt64), a < q.value → b < q.value →
    (q.sub a b >>= fun d => q.add d b : Outcome ε UInt64) = .ok a

theorem sumsExact_of_accepted (hq : q.Accepted) : q.SumsExact where
  reduceOnce _ _ hx := reduceOnce_spec hq hx
  add _ _ _ ha hb := add_spec hq ha hb
  sub _ _ _ ha hb := sub_spec hq ha hb
  add_bind_sub _ _ _ ha hb := add_bind_sub hq ha hb
  sub_bind_add _ _ _ ha hb := sub_bind_add hq ha hb

/-- Sums and differences are exact modulo every number from 2 to `2 ^ 62 - 1`. -/
theorem sums_exact {p : UInt64} (hlow : 2 ≤ p.toNat) (hlimit : p.toNat < 2 ^ 62) :
    ∃ q, ofWord p = .ok q ∧ q.value = p ∧ q.SumsExact := by
  have hmodulus := ofWord_of_lt hlow hlimit
  exact ⟨_, hmodulus, rfl, sumsExact_of_accepted (accepted_of_ofWord hmodulus).2⟩

/-- The largest modulus and the largest number below it, which stands for minus one: twice
minus one is minus two, and zero less minus one is one. -/
theorem sums_exact_of_limit :
    ∃ q, ofWord 4611686018427387903 = .ok q ∧
      (∃ r, (q.add 4611686018427387902 4611686018427387902 : Outcome RingError UInt64) = .ok r ∧
        r.toNat = 4611686018427387901) ∧
      ∃ r, (q.sub 0 4611686018427387902 : Outcome RingError UInt64) = .ok r ∧ r.toNat = 1 := by
  obtain ⟨q, hq, hvalue, hexact⟩ :=
    sums_exact (p := 4611686018427387903) (by decide) (by decide)
  have hminusOne : (4611686018427387902 : UInt64) < q.value := by
    rw [hvalue]
    decide
  have hzero : (0 : UInt64) < q.value := by
    rw [hvalue]
    decide
  obtain ⟨r, hr, -, hsum⟩ := hexact.add RingError _ _ hminusOne hminusOne
  obtain ⟨d, hd, -, hdifference⟩ := hexact.sub RingError _ _ hzero hminusOne
  rw [hvalue] at hsum hdifference
  refine ⟨q, hq, ⟨r, hr, ?_⟩, d, hd, ?_⟩
  · rw [hsum]
    decide
  · have hone : (d.toNat : Int) = 1 := by
      rw [hdifference]
      decide
    exact_mod_cast hone

/-! ## Powers -/

/-- The power of a residue is the remainder of the power of numbers. -/
theorem pow_spec (hq : q.Accepted) (ha : a < q.value) (hn : n < q.value) :
    ∃ r, (q.pow a n : Outcome ε UInt64) = .ok r ∧ r < q.value ∧
      r.toNat = a.toNat ^ n.toNat % q.value.toNat := by
  refine ⟨_, pow_eq hq ha hn, ofResidue_lt hq _, ?_⟩
  apply toNat_eq_mod (ofResidue_lt hq _)
  rw [residue_ofResidue hq, Nat.cast_pow]
  rfl

theorem pow_zero_eq (hq : q.Accepted) (ha : a < q.value) :
    (q.pow a 0 : Outcome ε UInt64) = .ok 1 := by
  rw [pow_eq hq ha hq.zero_lt, UInt64.toNat_zero, pow_zero, ofResidue_one hq]

/-- Powers modulo a number are exact: they are defined for all reduced bases and exponents,
whatever errors their callers report. -/
structure PowersExact (q : Modulus) : Prop where
  /-- Powers are reduced powers of numbers. -/
  pow : ∀ (ε : Type) (a n : UInt64), a < q.value → n < q.value →
    ∃ r, (q.pow a n : Outcome ε UInt64) = .ok r ∧ r < q.value ∧
      r.toNat = a.toNat ^ n.toNat % q.value.toNat
  /-- The power with exponent zero is one, also that of zero. -/
  pow_zero : ∀ (ε : Type) (a : UInt64), a < q.value → (q.pow a 0 : Outcome ε UInt64) = .ok 1

/-- Powers are exact modulo every word that is a modulus. -/
theorem powers_exact {p : UInt64} (h : ofWord p = .ok q) : q.value = p ∧ q.PowersExact := by
  obtain ⟨hvalue, hq⟩ := accepted_of_ofWord h
  exact ⟨hvalue, fun _ _ _ ha hn => pow_spec hq ha hn, fun _ _ ha => pow_zero_eq hq ha⟩

/-- Modulo the largest modulus two has the order 62, and the exponent has 62 digits, all
but two of them ones. -/
theorem powers_exact_of_limit :
    ∃ q, ofWord 4611686018427387903 = .ok q ∧
      (∃ r, (q.pow 2 4611686018427387838 : Outcome RingError UInt64) = .ok r ∧ r.toNat = 1) ∧
      (q.pow 0 0 : Outcome RingError UInt64) = .ok 1 := by
  obtain ⟨q, hq⟩ : ∃ q, ofWord 4611686018427387903 = .ok q :=
    ⟨_, ofWord_of_lt (by decide) (by decide)⟩
  obtain ⟨hvalue, hexact⟩ := powers_exact hq
  obtain ⟨r, hr, -, hpower⟩ :=
    hexact.pow RingError 2 4611686018427387838 (by rw [hvalue]; decide) (by rw [hvalue]; decide)
  have horder : (2 : UInt64).toNat ^ 62 % (4611686018427387903 : UInt64).toNat = 1 := by decide
  have hcycle : ∀ n, 62 ∣ n →
      (2 : UInt64).toNat ^ n % (4611686018427387903 : UInt64).toNat = 1 := by
    rintro n ⟨k, rfl⟩
    rw [pow_mul, Nat.pow_mod, horder, one_pow]
    decide
  rw [hvalue] at hpower
  exact ⟨q, hq, ⟨r, hr, hpower.trans (hcycle _ (by decide))⟩,
    hexact.pow_zero RingError 0 (by rw [hvalue]; decide)⟩

end RingShamir.Modulus
