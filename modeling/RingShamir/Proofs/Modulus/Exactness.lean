import RingShamir.Proofs.Modulus.MontgomeryForm

/-!
# Montgomery arithmetic as arithmetic of numbers

The range of Montgomery arithmetic is as large as it can be: for every odd number from
three to `2 ^ 62 - 1` the constants that go with it are exact, and so is every operation
on numbers below it, up to the largest ones.  No sum is cut to two words, no difference
wraps around, and one subtraction is enough to reduce each result.

Main results:

- Theorem `toNat_negInverse` and `toNat_radixSquared`: the constants as numbers.
- Theorem `sum_lt`: the sum of a reduction fits in two words.
- Definition `MontgomeryExact` and theorem `montgomery_exact`: the operations as
  arithmetic of numbers.
-/

namespace RingShamir.Modulus

variable {ε : Type} {q : Modulus} {a b : UInt64}

/-! ## Constants -/

/-- The stored negated inverse times the modulus is minus one modulo the radix. -/
theorem toNat_negInverse (hq : q.Accepted) (h : q.isOdd = true) :
    q.negInverse.toNat * q.value.toNat % 2 ^ 64 = 2 ^ 64 - 1 := by
  have hinverse := mul_inverseWord (odd_of_isOdd h)
  have hword : q.negInverse * q.value = -1 := by
    open scoped UInt64.CommRing in
    rw [(constants_of_isOdd hq h).1]
    linear_combination -hinverse
  have hnat := congrArg UInt64.toNat hword
  rwa [UInt64.toNat_mul] at hnat

theorem toNat_radixSquared (hq : q.Accepted) (h : q.isOdd = true) :
    q.radixSquared.toNat = 2 ^ 128 % q.value.toNat := by
  have hlt : q.radixSquared < q.value := by
    have hbound := Nat.mod_lt (UInt64.size % q.value.toNat * (UInt64.size % q.value.toNat)) hq.pos
    have hword := q.value.toNat_lt
    rw [UInt64.lt_iff_toNat_lt, (constants_of_isOdd hq h).2, radixSquaredMod,
      UInt64.toNat_ofNat', Nat.mod_eq_of_lt (by omega)]
    exact hbound
  apply toNat_eq_mod hlt
  rw [residue_radixSquared hq h, radix, ← Nat.cast_mul, ← pow_add]

/-! ## Operations -/

/-- The sum of a reduction fits in two words. -/
theorem sum_lt (hq : q.Accepted) {t : Nat} (ht : t < q.value.toNat * 2 ^ 64) :
    t + Word.wideMul (UInt64.ofNat t * q.negInverse) q.value < 2 ^ 128 := by
  have hfactor := (UInt64.ofNat t * q.negInverse).toNat_lt
  have hwide : Word.wideMul (UInt64.ofNat t * q.negInverse) q.value < 2 ^ 64 * q.value.toNat :=
    Nat.mul_lt_mul_of_pos_right hfactor hq.pos
  have hlimit := hq.lt_limit
  omega

/-- The Montgomery form is the product with the radix. -/
theorem toMontgomery_spec (hq : q.Accepted) (h : q.isOdd = true) (ha : a < q.value) :
    ∃ r, (q.toMontgomery a : Outcome ε UInt64) = .ok r ∧ r < q.value ∧
      r.toNat = a.toNat * 2 ^ 64 % q.value.toNat := by
  refine ⟨_, toMontgomery_eq hq h ha, ofResidue_lt hq _, ?_⟩
  apply toNat_eq_mod (ofResidue_lt hq _)
  rw [residue_ofResidue hq, Nat.cast_mul]
  rfl

/-- The product of two words divided by the radix. -/
theorem montgomeryMul_spec (hq : q.Accepted) (h : q.isOdd = true) (ha : a < q.value)
    (hb : b < q.value) :
    ∃ r, (q.montgomeryMul a b : Outcome ε UInt64) = .ok r ∧ r < q.value ∧
      r.toNat * 2 ^ 64 ≡ a.toNat * b.toNat [MOD q.value.toNat] := by
  refine ⟨_, montgomeryMul_eq hq h ha hb, ofResidue_lt hq _, ?_⟩
  rw [← ZMod.natCast_eq_natCast_iff, Nat.cast_mul, Nat.cast_mul]
  change q.residue (q.ofResidue _) * q.radix = q.residue a * q.residue b
  rw [residue_ofResidue hq, mul_assoc, ← residue_eq_mul_radix h]

/-- The word that a Montgomery form is that of. -/
theorem ofMontgomery_spec (hq : q.Accepted) (h : q.isOdd = true) (ha : a < q.value) :
    ∃ r, (q.ofMontgomery a : Outcome ε UInt64) = .ok r ∧ r < q.value ∧
      r.toNat * 2 ^ 64 ≡ a.toNat [MOD q.value.toNat] := by
  refine ⟨_, ofMontgomery_eq hq h ha, ofResidue_lt hq _, ?_⟩
  rw [← ZMod.natCast_eq_natCast_iff, Nat.cast_mul]
  change q.residue (q.ofResidue _) * q.radix = q.residue a
  rw [residue_ofResidue hq, ← residue_eq_mul_radix h]

theorem ofMontgomery_toMontgomery (hq : q.Accepted) (h : q.isOdd = true) (ha : a < q.value) :
    (q.toMontgomery a >>= q.ofMontgomery : Outcome ε UInt64) = .ok a := by
  rw [toMontgomery_eq hq h ha, Outcome.ok_bind, ofMontgomery_eq hq h (ofResidue_lt hq _),
    montgomeryResidue_mul_radix hq h, ofResidue_residue ha]

theorem toMontgomery_ofMontgomery (hq : q.Accepted) (h : q.isOdd = true) (ha : a < q.value) :
    (q.ofMontgomery a >>= q.toMontgomery : Outcome ε UInt64) = .ok a := by
  rw [ofMontgomery_eq hq h ha, Outcome.ok_bind, toMontgomery_eq hq h (ofResidue_lt hq _),
    residue_ofResidue hq, ← residue_eq_mul_radix h, ofResidue_residue ha]

/-- The Montgomery arithmetic of a modulus is exact: the operations are defined on all
reduced words, whatever errors their callers report, and compute what they should. -/
structure MontgomeryExact (q : Modulus) : Prop where
  /-- Each Newton step doubles the number of right digits of the inverse, from three on. -/
  digits : ∀ n, q.value.toNat * ((newtonStep q.value)^[n] q.value).toNat ≡
    1 [MOD 2 ^ min 64 (3 * 2 ^ n)]
  /-- The stored inverse is that of the modulus, negated. -/
  negInverse : q.negInverse.toNat * q.value.toNat % 2 ^ 64 = 2 ^ 64 - 1
  /-- The stored square is that of the radix. -/
  radixSquared : q.radixSquared.toNat = 2 ^ 128 % q.value.toNat
  /-- The sum of a reduction fits in two words. -/
  sum_lt : ∀ t < q.value.toNat * 2 ^ 64,
    t + Word.wideMul (UInt64.ofNat t * q.negInverse) q.value < 2 ^ 128
  /-- The Montgomery form of a word is the product with the radix. -/
  toMontgomery : ∀ (ε : Type) (a : UInt64), a < q.value →
    ∃ r, (q.toMontgomery a : Outcome ε UInt64) = .ok r ∧ r < q.value ∧
      r.toNat = a.toNat * 2 ^ 64 % q.value.toNat
  /-- The word that a Montgomery form is that of. -/
  ofMontgomery : ∀ (ε : Type) (a : UInt64), a < q.value →
    ∃ r, (q.ofMontgomery a : Outcome ε UInt64) = .ok r ∧ r < q.value ∧
      r.toNat * 2 ^ 64 ≡ a.toNat [MOD q.value.toNat]
  /-- The product of two words, divided by the radix. -/
  montgomeryMul : ∀ (ε : Type) (a b : UInt64), a < q.value → b < q.value →
    ∃ r, (q.montgomeryMul a b : Outcome ε UInt64) = .ok r ∧ r < q.value ∧
      r.toNat * 2 ^ 64 ≡ a.toNat * b.toNat [MOD q.value.toNat]
  /-- A word is read back from its Montgomery form. -/
  ofMontgomery_toMontgomery : ∀ (ε : Type) (a : UInt64), a < q.value →
    (q.toMontgomery a >>= q.ofMontgomery : Outcome ε UInt64) = .ok a
  /-- Every reduced word is the Montgomery form of the word that is read from it. -/
  toMontgomery_ofMontgomery : ∀ (ε : Type) (a : UInt64), a < q.value →
    (q.ofMontgomery a >>= q.toMontgomery : Outcome ε UInt64) = .ok a

theorem montgomeryExact_of_isOdd (hq : q.Accepted) (h : q.isOdd = true) : q.MontgomeryExact where
  digits := mul_iterate_newtonStep (odd_of_isOdd h)
  negInverse := toNat_negInverse hq h
  radixSquared := toNat_radixSquared hq h
  sum_lt _ ht := sum_lt hq ht
  toMontgomery _ _ ha := toMontgomery_spec hq h ha
  ofMontgomery _ _ ha := ofMontgomery_spec hq h ha
  montgomeryMul _ _ _ ha hb := montgomeryMul_spec hq h ha hb
  ofMontgomery_toMontgomery _ _ ha := ofMontgomery_toMontgomery hq h ha
  toMontgomery_ofMontgomery _ _ ha := toMontgomery_ofMontgomery hq h ha

/-- Montgomery arithmetic is exact over its whole range: every odd number from three to
`2 ^ 62 - 1` is a modulus with exact operations. -/
theorem montgomery_exact {p : UInt64} (hodd : p.toNat % 2 = 1) (hlow : 3 ≤ p.toNat)
    (hlimit : p.toNat < 2 ^ 62) :
    ∃ q, ofWord p = .ok q ∧ q.value = p ∧ q.MontgomeryExact := by
  have htop : p >>> 62 = 0 := by
    apply UInt64.toNat_inj.mp
    rw [UInt64.toNat_shiftRight, Nat.shiftRight_eq_div_pow]
    simp only [UInt64.toNat_ofNat, Nat.reducePow, Nat.reduceMod, Nat.zero_mod]
    omega
  have htwo : 2 ≤ p := by
    rw [UInt64.le_iff_toNat_le]
    exact (Nat.le_succ 2).trans hlow
  have hmodulus : ofWord p = .ok (withConstants p) := ofWord_eq_ok.mpr ⟨htwo, htop, rfl⟩
  have hisOdd : (withConstants p).isOdd = true := by
    apply decide_eq_true
    apply UInt64.toNat_inj.mp
    rw [UInt64.toNat_mod]
    exact hodd
  exact ⟨_, hmodulus, rfl, montgomeryExact_of_isOdd (accepted_of_ofWord hmodulus).2 hisOdd⟩

/-- The largest modulus and the largest number below it, which stands for minus one: the
radix is four modulo this modulus, so the Montgomery form stands for minus four. -/
theorem montgomery_exact_of_limit :
    ∃ q, ofWord 4611686018427387903 = .ok q ∧
      ∃ r, (q.toMontgomery 4611686018427387902 : Outcome RingError UInt64) = .ok r ∧
        r.toNat = 4611686018427387899 := by
  obtain ⟨q, hq, hvalue, hexact⟩ :=
    montgomery_exact (p := 4611686018427387903) (by decide) (by decide) (by decide)
  obtain ⟨r, hr, -, hnat⟩ :=
    hexact.toMontgomery RingError 4611686018427387902 (by rw [hvalue]; decide)
  refine ⟨q, hq, r, hr, ?_⟩
  rw [hnat, hvalue]
  decide

end RingShamir.Modulus
