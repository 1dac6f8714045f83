import Mathlib.Data.ZMod.Basic
import Mathlib.Tactic.Ring
import RingShamir.Modulus.Basic

/-!
# Words as residue classes

A word stands for its residue class, and every class has one reduced word.
Seen through this correspondence, the word operations of a modulus are the ring
operations of its integers modulo `p`, and they keep their demands on reduced
operands.

Main results:

- Theorem `reduceOnce_of_lt`: the reduction without a branch gives the
  remainder for every word below twice the modulus.
- Theorems `add_eq`, `sub_eq` and `mul_eq`: the operations on reduced words
  succeed with the reduced word of the sum, difference and product of classes.
- Theorem `residue_inj`: reduced words of one class are equal.
-/

namespace RingShamir.Modulus

variable {ε : Type}

/-! ## Reduction without a branch -/

/-- The word whose top digit makes the selection is the difference. -/
theorem xor_selection (x p : UInt64) :
    x ^^^ ((x ^^^ p) ^^^ ((x - p) ^^^ p)) = x - p := by
  have hinner : (x ^^^ p) ^^^ ((x - p) ^^^ p) = x ^^^ (x - p) := by
    rw [UInt64.xor_assoc, UInt64.xor_comm (x - p) p, ← UInt64.xor_assoc p p, UInt64.xor_self,
      UInt64.zero_xor]
  rw [hinner, ← UInt64.xor_assoc, UInt64.xor_self, UInt64.zero_xor]

/-- A word has no binary digit from a position on when it is below that power of two. -/
theorem shiftRight_eq_zero_iff {x k : UInt64} (hk : k < 64) :
    x >>> k = 0 ↔ x.toNat < 2 ^ k.toNat := by
  have hposition : k.toNat % 64 = k.toNat := Nat.mod_eq_of_lt (UInt64.lt_iff_toNat_lt.mp hk)
  rw [← UInt64.toNat_inj, UInt64.toNat_shiftRight, hposition, Nat.shiftRight_eq_div_pow,
    UInt64.toNat_zero, Nat.div_eq_zero_iff_lt (Nat.two_pow_pos _)]

/-- The selector has all digits set exactly when the difference does not wrap
around. -/
theorem selector_eq {x p : UInt64} (hp : p.toNat < 2 ^ 63) (hx : x.toNat < 2 * p.toNat) :
    selector x p = if p ≤ x then -1 else 0 := by
  have hlt := x.toNat_lt
  unfold selector
  simp only [xor_selection]
  by_cases h : p ≤ x
  · have hle := UInt64.le_iff_toNat_le.mp h
    have htop : (x - p) >>> 63 = 0 := by
      rw [shiftRight_eq_zero_iff (by decide), UInt64.toNat_sub_of_le _ _ h]
      simp only [UInt64.reduceToNat]
      omega
    rw [if_pos h, htop]
    rfl
  · have hgt := UInt64.lt_iff_toNat_lt.mp (UInt64.not_le.mp h)
    have htop : (x - p) >>> 63 = 1 := by
      apply UInt64.toNat_inj.mp
      rw [UInt64.toNat_shiftRight, UInt64.toNat_sub, Nat.shiftRight_eq_div_pow]
      simp only [UInt64.toNat_ofNat, Nat.reducePow, Nat.reduceMod]
      omega
    rw [if_neg h, htop]
    rfl

/-- The reduction without a branch gives the remainder and breaches nothing. -/
theorem reduceOnce_of_lt {x p : UInt64} (hp : p.toNat < 2 ^ 63)
    (hx : x.toNat < 2 * p.toNat) : (reduceOnce x p : Outcome ε UInt64) = .ok (x % p) := by
  have htop : p >>> 63 = 0 := (shiftRight_eq_zero_iff (by decide)).mpr hp
  have hdouble : x < 2 * p := by
    rw [UInt64.lt_iff_toNat_lt, UInt64.toNat_mul]
    simp only [UInt64.toNat_ofNat, Nat.reducePow, Nat.reduceMod]
    omega
  have hselect :
      ((selector x p) &&& (x - p)) ||| (~~~(selector x p) &&& x) = x % p := by
    rw [selector_eq hp hx]
    by_cases h : p ≤ x
    · have hle := UInt64.le_iff_toNat_le.mp h
      have hsub : x - p = x % p := by
        apply UInt64.toNat_inj.mp
        rw [UInt64.toNat_sub_of_le _ _ h, UInt64.toNat_mod, Nat.mod_eq_sub_mod hle,
          Nat.mod_eq_of_lt (by omega)]
      rw [if_pos h, ← hsub]
      simp
    · have hgt := UInt64.lt_iff_toNat_lt.mp (UInt64.not_le.mp h)
      have hself : x = x % p := by
        apply UInt64.toNat_inj.mp
        rw [UInt64.toNat_mod, Nat.mod_eq_of_lt hgt]
      rw [if_neg h, ← hself]
      simp
  simp only [reduceOnce, Outcome.require_of htop, Outcome.require_of hdouble, hselect,
    Outcome.require_of, bind, Except.bind]
  rfl

/-! ## Accepted moduli -/

/-- A modulus in range that carries the constants of its word. -/
structure Accepted (q : Modulus) : Prop where
  /-- The modulus is at least two. -/
  two_le : 2 ≤ q.value.toNat
  /-- The modulus has at most 62 binary digits. -/
  lt_limit : q.value.toNat < 2 ^ 62
  /-- The constants are those of the word. -/
  eq_withConstants : q = withConstants q.value

theorem accepted_of_ofWord {p : UInt64} {q : Modulus} (h : ofWord p = .ok q) :
    q.value = p ∧ q.Accepted := by
  rcases ofWord_eq_ok.mp h with ⟨htwo, htop, rfl⟩
  refine ⟨rfl, ?_, (shiftRight_eq_zero_iff (by decide)).mp htop, rfl⟩
  simpa [UInt64.le_iff_toNat_le] using htwo

/-- The numbers from 2 to `2 ^ 62 - 1` are moduli. -/
theorem ofWord_of_lt {p : UInt64} (hlow : 2 ≤ p.toNat) (hlimit : p.toNat < 2 ^ 62) :
    ofWord p = .ok (withConstants p) := by
  have htwo : 2 ≤ p := UInt64.le_iff_toNat_le.mpr hlow
  have htop : p >>> 62 = 0 := (shiftRight_eq_zero_iff (by decide)).mpr hlimit
  exact ofWord_eq_ok.mpr ⟨htwo, htop, rfl⟩

theorem Accepted.pos {q : Modulus} (hq : q.Accepted) : 0 < q.value.toNat := by
  have := hq.two_le
  omega

/-- The word zero is reduced. -/
theorem Accepted.zero_lt {q : Modulus} (hq : q.Accepted) : 0 < q.value := by
  rw [UInt64.lt_iff_toNat_lt]
  exact hq.pos

theorem Accepted.neZero {q : Modulus} (hq : q.Accepted) : NeZero q.value.toNat :=
  ⟨hq.pos.ne'⟩

/-! ## Residue classes -/

/-- The residue class of a word. -/
def residue (q : Modulus) (a : UInt64) : ZMod q.value.toNat :=
  (a.toNat : ZMod q.value.toNat)

/-- The reduced word of a residue class. -/
def ofResidue (q : Modulus) (z : ZMod q.value.toNat) : UInt64 :=
  UInt64.ofNat z.val

@[simp] theorem residue_zero (q : Modulus) : q.residue 0 = 0 := by
  simp [residue]

theorem toNat_ofResidue {q : Modulus} (hq : q.Accepted) (z : ZMod q.value.toNat) :
    (q.ofResidue z).toNat = z.val := by
  have := hq.neZero
  have hval := ZMod.val_lt z
  have hword := q.value.toNat_lt
  rw [ofResidue, UInt64.toNat_ofNat', Nat.mod_eq_of_lt (by omega)]

theorem ofResidue_lt {q : Modulus} (hq : q.Accepted) (z : ZMod q.value.toNat) :
    q.ofResidue z < q.value := by
  have := hq.neZero
  rw [UInt64.lt_iff_toNat_lt, toNat_ofResidue hq]
  exact ZMod.val_lt z

@[simp] theorem residue_ofResidue {q : Modulus} (hq : q.Accepted) (z : ZMod q.value.toNat) :
    q.residue (q.ofResidue z) = z := by
  have := hq.neZero
  rw [residue, toNat_ofResidue hq, ZMod.natCast_zmod_val]

theorem ofResidue_natCast {q : Modulus} (n : Nat) :
    q.ofResidue (n : ZMod q.value.toNat) = q.reduceWide n := by
  rw [ofResidue, ZMod.val_natCast, reduceWide]

theorem ofResidue_residue {q : Modulus} {a : UInt64} (ha : a < q.value) :
    q.ofResidue (q.residue a) = a := by
  have hlt := UInt64.lt_iff_toNat_lt.mp ha
  rw [residue, ofResidue_natCast, reduceWide, Nat.mod_eq_of_lt hlt, UInt64.ofNat_toNat]

/-- Reduced words of one class are equal. -/
theorem residue_inj {q : Modulus} {a b : UInt64} (ha : a < q.value) (hb : b < q.value) :
    q.residue a = q.residue b ↔ a = b := by
  constructor
  · intro h
    rw [← ofResidue_residue ha, ← ofResidue_residue hb, h]
  · intro h
    rw [h]

/-- A reduced word of the class of a number is the remainder of the number. -/
theorem toNat_eq_mod {q : Modulus} {a : UInt64} {n : Nat} (ha : a < q.value)
    (h : q.residue a = (n : ZMod q.value.toNat)) : a.toNat = n % q.value.toNat := by
  have hmod := (ZMod.natCast_eq_natCast_iff' a.toNat n q.value.toNat).mp h
  rwa [Nat.mod_eq_of_lt (UInt64.lt_iff_toNat_lt.mp ha)] at hmod

@[simp] theorem residue_reduce (q : Modulus) (a : UInt64) :
    q.residue (q.reduce a) = q.residue a := by
  rw [residue, reduce, UInt64.toNat_mod, ZMod.natCast_mod, residue]

/-- The least non-negative residue of an integer fits in a word. -/
theorem toNat_reduceInt {q : Modulus} (hq : q.Accepted) (a : Int) :
    ((q.reduceInt a).toNat : Int) = a % (q.value.toNat : Int) := by
  have hpos : (0 : Int) < q.value.toNat := by exact_mod_cast hq.pos
  have hnonneg := Int.emod_nonneg a hpos.ne'
  have hlt := Int.emod_lt_of_pos a hpos
  have hword := q.value.toNat_lt
  rw [reduceInt, UInt64.toNat_ofNat', Nat.mod_eq_of_lt (by omega), Int.toNat_of_nonneg hnonneg]

theorem residue_reduceInt {q : Modulus} (hq : q.Accepted) (a : Int) :
    q.residue (q.reduceInt a) = (a : ZMod q.value.toNat) := by
  rw [residue, ← Int.cast_natCast, toNat_reduceInt hq, ZMod.intCast_mod]

theorem reduceInt_lt {q : Modulus} (hq : q.Accepted) (a : Int) :
    q.reduceInt a < q.value := by
  have hpos : (0 : Int) < q.value.toNat := by exact_mod_cast hq.pos
  have hlt := Int.emod_lt_of_pos a hpos
  rw [← toNat_reduceInt hq] at hlt
  rw [UInt64.lt_iff_toNat_lt]
  exact_mod_cast hlt

/-! ## Ring operations -/

/-- The remainder of a word below twice the modulus, as the word of a class. -/
theorem reduceOnce_eq {q : Modulus} (hq : q.Accepted) {x : UInt64}
    (hx : x.toNat < 2 * q.value.toNat) :
    (reduceOnce x q.value : Outcome ε UInt64) = .ok (q.ofResidue (q.residue x)) := by
  have hlimit := hq.lt_limit
  rw [reduceOnce_of_lt (by omega) hx, ← residue_reduce q x, ofResidue_residue]
  · rfl
  · exact reduce_lt hq.zero_lt x

theorem add_eq {q : Modulus} (hq : q.Accepted) {a b : UInt64} (ha : a < q.value)
    (hb : b < q.value) :
    (q.add a b : Outcome ε UInt64) = .ok (q.ofResidue (q.residue a + q.residue b)) := by
  have hlimit := hq.lt_limit
  have ha' := UInt64.lt_iff_toNat_lt.mp ha
  have hb' := UInt64.lt_iff_toNat_lt.mp hb
  have hfits : a.toNat + b.toNat < UInt64.size := by
    simp only [UInt64.size]
    omega
  have hsum : (a + b).toNat = a.toNat + b.toNat := by
    rw [UInt64.toNat_add, Nat.mod_eq_of_lt (by simpa [UInt64.size] using hfits)]
  have hclass : q.residue (a + b) = q.residue a + q.residue b := by
    simp only [residue, hsum, Nat.cast_add]
  have hreduce := reduceOnce_eq (ε := ε) hq (x := a + b) (by omega)
  simp only [add, Outcome.require_of (And.intro ha hb), Word.add_of_lt hfits, bind,
    Except.bind, hreduce, hclass]

theorem sub_eq {q : Modulus} (hq : q.Accepted) {a b : UInt64} (ha : a < q.value)
    (hb : b < q.value) :
    (q.sub a b : Outcome ε UInt64) = .ok (q.ofResidue (q.residue a - q.residue b)) := by
  have hlimit := hq.lt_limit
  have ha' := UInt64.lt_iff_toNat_lt.mp ha
  have hb' := UInt64.lt_iff_toNat_lt.mp hb
  have hfits : a.toNat + q.value.toNat < UInt64.size := by
    simp only [UInt64.size]
    omega
  have hsum : (a + q.value).toNat = a.toNat + q.value.toNat := by
    rw [UInt64.toNat_add, Nat.mod_eq_of_lt (by simpa [UInt64.size] using hfits)]
  have hle : b ≤ a + q.value := by
    rw [UInt64.le_iff_toNat_le, hsum]
    omega
  have hdifference : (a + q.value - b).toNat = a.toNat + q.value.toNat - b.toNat := by
    rw [UInt64.toNat_sub_of_le _ _ hle, hsum]
  have hclass : q.residue (a + q.value - b) = q.residue a - q.residue b := by
    simp only [residue, hdifference]
    rw [Nat.cast_sub (by omega), Nat.cast_add, ZMod.natCast_self, add_zero]
  have hreduce := reduceOnce_eq (ε := ε) hq (x := a + q.value - b) (by omega)
  simp only [sub, Outcome.require_of (And.intro ha hb), Word.add_of_lt hfits,
    Word.sub_of_le hle, bind, Except.bind, hreduce, hclass]

theorem mul_eq {q : Modulus} {a b : UInt64} (ha : a < q.value) (hb : b < q.value) :
    (q.mul a b : Outcome ε UInt64) = .ok (q.ofResidue (q.residue a * q.residue b)) := by
  simp only [mul, Outcome.require_of (And.intro ha hb), Word.wideMul, bind, Except.bind]
  rw [← ofResidue_natCast, Nat.cast_mul]
  rfl

end RingShamir.Modulus
