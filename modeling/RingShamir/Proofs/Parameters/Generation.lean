import Mathlib.Data.List.Induction
import RingShamir.Parameters.Draft
import RingShamir.Proofs.Prime.Search

/-!
# Generated moduli

Moduli of given sizes are chosen greedily: each one is the greatest prime of its size that
suits the degree and is still free.  A prime that is in use bounds the next search, so
that the searches for one modulus together go over the primes of its size in falling
order and pass over none of them.  Generation stops at the first size that is out of
range or of which no prime is left.

Main results:

- Theorem `exists_freePrime`: the greatest free prime is found, or there is none.
- Definition `Greedy`: each modulus is the greatest free number of its size.
- Definition `Generated` and theorem `generateModuli_iff_test`: how generation ends.
-/

namespace RingShamir.ParameterDraft

open PrimeSearch

variable {P P' : Nat → Prop} {degree size : Nat} {used taken found m : List UInt64}
  {sizes : List Nat}

/-! ## One modulus -/

/-- The sizes of moduli that can be generated. -/
def InRange (size : Nat) : Prop :=
  10 ≤ size ∧ size ≤ 62

instance (size : Nat) : Decidable (InRange size) :=
  inferInstanceAs (Decidable (10 ≤ size ∧ size ≤ 62))

/-- The numbers of a size that suit a degree, have a property and are not among the moduli
in use. -/
def free (P : Nat → Prop) (degree size : Nat) (used : List UInt64) : Set Nat :=
  {n | n ∈ progression P size (2 * degree) ∧ ∀ p ∈ used, p.toNat ≠ n}

/-- Below a bound whose search finds a prime in use, the free numbers are those below this
prime. -/
theorem free_inter_of_mem {bound p : UInt64} (hp : p ∈ used)
    (hgreatest : IsGreatest (progression P size (2 * degree) ∩ Set.Iio bound.toNat) p.toNat) :
    free P degree size used ∩ Set.Iio bound.toNat =
      free P degree size used ∩ Set.Iio p.toNat := by
  ext n
  constructor
  · rintro ⟨hn, hlt⟩
    have hle : n ≤ p.toNat := hgreatest.2 ⟨hn.1, hlt⟩
    exact ⟨hn, lt_of_le_of_ne hle (hn.2 p hp).symm⟩
  · rintro ⟨hn, hlt⟩
    have hbelow : p.toNat < bound.toNat := hgreatest.1.2
    exact ⟨hn, hbelow.trans' hlt⟩

/-- The searches for one modulus find the greatest free number that passes the test, or
find out that there is none. -/
theorem exists_freePrime (hsize : InRange size) (hdegree : degree.isPowerOfTwo)
    (hlimit : 2 * degree < UInt64.size) (used : List UInt64) {bound : UInt64}
    (hbound : bound.toNat ≤ 2 ^ size) :
    ∃ o, freePrime size degree used bound =
        o.elim (reject (.notEnoughPrimes size degree)) .ok ∧
      GreatestWord (free (Primality.isPrime · = true) degree size used ∩ Set.Iio bound.toNat)
        o := by
  have hstep : (UInt64.ofNat (2 * degree)).toNat = 2 * degree := by
    rw [UInt64.toNat_ofNat', Nat.mod_eq_of_lt hlimit]
  have hpower : (UInt64.ofNat (2 * degree)).toNat.isPowerOfTwo := by
    rcases hdegree with ⟨k, rfl⟩
    rw [hstep]
    exact ⟨k + 1, (Nat.pow_succ').symm⟩
  -- The bound of the next search is the prime in use that the last one found.
  induction hn : bound.toNat using Nat.strong_induction_on generalizing bound with
  | _ n ih =>
      subst hn
      obtain ⟨o, hsearch, hgreatest⟩ :=
        exists_greatestPrime (ε := SchemeError) hsize hpower hbound
      rw [hstep] at hgreatest
      rw [freePrime, Outcome.require_of hlimit, Outcome.ok_bind]
      split
      next e herror => cases hsearch.symm.trans herror
      next hnone =>
          obtain rfl : o = none := Except.ok.inj (hsearch.symm.trans hnone)
          refine ⟨none, rfl, ?_⟩
          apply Set.eq_empty_of_forall_notMem
          rintro n ⟨hn, hlt⟩
          exact Set.eq_empty_iff_forall_notMem.mp hgreatest n ⟨hn.1, hlt⟩
      next p hsome =>
          obtain rfl : o = some p := Except.ok.inj (hsearch.symm.trans hsome)
          have hlt : p.toNat < bound.toNat := hgreatest.1.2
          by_cases hused : p ∈ used
          · rw [if_pos (List.contains_iff_mem.mpr hused), free_inter_of_mem hused hgreatest]
            exact ih p.toNat hlt (hlt.le.trans hbound) rfl
          · rw [if_neg (mt List.contains_iff_mem.mp hused)]
            refine ⟨some p, rfl, ⟨⟨hgreatest.1.1, ?_⟩, hlt⟩, ?_⟩
            · rintro q hq heq
              exact hused (UInt64.toNat_inj.mp heq ▸ hq)
            · rintro n ⟨hn, hbelow⟩
              exact hgreatest.2 ⟨hn.1, hbelow⟩

/-! ## All moduli -/

/-- Generating moduli of some sizes and then of others generates them of all. -/
theorem generateModuli_append (degree : Nat) (taken found : List UInt64) (before after : List Nat) :
    generateModuli degree taken found (before ++ after) =
      generateModuli degree taken found before >>= fun m =>
        generateModuli degree taken m after := by
  induction before generalizing found with
  | nil => rfl
  | cons size before ih =>
      simp only [List.cons_append, generateModuli]
      split
      · rfl
      · simp only [ih, bind_assoc]

theorem generateModuli_of_not_inRange (h : ¬InRange size) (degree : Nat) (taken found : List UInt64)
    (sizes : List Nat) : generateModuli degree taken found (size :: sizes) =
      reject (.invalidModulusSize size 10 62) := by
  have houtside : (size > 62 || size < 10) = true := by
    simp only [InRange, not_and_or, not_le] at h
    simp only [Bool.or_eq_true, decide_eq_true_eq]
    exact h.symm
  rw [generateModuli, if_pos houtside]

/-- A size in range is searched for. -/
theorem generateModuli_cons (h : InRange size) (degree : Nat) (taken found : List UInt64)
    (sizes : List Nat) : generateModuli degree taken found (size :: sizes) =
      freePrime size degree (found ++ taken) (1 <<< UInt64.ofNat size) >>= fun p =>
        generateModuli degree taken (found ++ [p]) sizes := by
  have hinside : ¬(size > 62 || size < 10) = true := by
    have := h.1
    have := h.2
    simp only [Bool.or_eq_true, decide_eq_true_eq]
    omega
  rw [generateModuli, if_neg hinside]

/-- Each modulus is the greatest number of its size that has a property, suits the degree and
is neither taken nor chosen before. -/
structure Greedy (P : Nat → Prop) (degree : Nat) (taken : List UInt64) (sizes : List Nat)
    (m : List UInt64) : Prop where
  /-- There is one modulus of each size. -/
  length_eq : m.length = sizes.length
  /-- The sizes are in range. -/
  inRange : ∀ size ∈ sizes, InRange size
  /-- Each modulus is the greatest free number. -/
  greatest : ∀ (k size : Nat) (p : UInt64), sizes[k]? = some size → m[k]? = some p →
    IsGreatest (free P degree size (m.take k ++ taken)) p.toNat

theorem greedy_nil_iff : Greedy P degree taken [] m ↔ m = [] := by
  constructor
  · intro h
    exact List.length_eq_zero_iff.mp h.length_eq
  · rintro rfl
    exact ⟨rfl, by simp, by simp⟩

/-- The choice of the last modulus depends on those before it, and not the other way
round. -/
theorem greedy_concat_iff {p : UInt64} : Greedy P degree taken (sizes ++ [size]) (m ++ [p]) ↔
    Greedy P degree taken sizes m ∧ InRange size ∧
      IsGreatest (free P degree size (m ++ taken)) p.toNat := by
  constructor
  · intro h
    have hlength : m.length = sizes.length := by simpa using h.length_eq
    refine ⟨⟨hlength, ?_, ?_⟩, h.inRange size (by simp), ?_⟩
    · intro s hs
      exact h.inRange s (List.mem_append_left _ hs)
    · intro k s x hs hx
      have hk : k < m.length := (List.getElem?_eq_some_iff.mp hx).1
      have hgreatest := h.greatest k s x
        (by rw [List.getElem?_append_left (by omega), hs])
        (by rw [List.getElem?_append_left hk, hx])
      rwa [List.take_append_of_le_length hk.le] at hgreatest
    · have hgreatest := h.greatest m.length size p (by simp [hlength]) (by simp)
      rwa [List.take_left] at hgreatest
  · rintro ⟨h, hsize, hp⟩
    refine ⟨by simp [h.length_eq], ?_, ?_⟩
    · intro s hs
      rcases List.mem_append.mp hs with hs | hs
      · exact h.inRange s hs
      · exact List.mem_singleton.mp hs ▸ hsize
    · intro k s x hs hx
      rcases Nat.lt_or_ge k m.length with hk | hk
      · rw [List.getElem?_append_left hk] at hx
        rw [List.getElem?_append_left (h.length_eq ▸ hk)] at hs
        rw [List.take_append_of_le_length hk.le]
        exact h.greatest k s x hs hx
      · obtain ⟨hlt, -⟩ := List.getElem?_eq_some_iff.mp hx
        obtain rfl : k = m.length := by
          simp only [List.length_append, List.length_singleton] at hlt
          omega
        obtain rfl : p = x := by simpa using hx
        obtain rfl : size = s := by simpa [h.length_eq] using hs
        rw [List.take_left]
        exact hp

/-- How generating moduli ends: with the greedy choice, or with a report of the first size that
stops it. -/
inductive Generated (P : Nat → Prop) (degree : Nat) (taken : List UInt64) (sizes : List Nat) :
    Outcome SchemeError (List UInt64) → Prop
  /-- There is a modulus of every size. -/
  | done {m : List UInt64} (h : Greedy P degree taken sizes m) :
      Generated P degree taken sizes (.ok m)
  /-- There is a modulus of every size before one that is out of range. -/
  | invalidSize {before after : List Nat} {size : Nat} {m : List UInt64}
      (hsplit : sizes = before ++ size :: after) (hbefore : Greedy P degree taken before m)
      (h : ¬InRange size) :
      Generated P degree taken sizes
        (.error (.failure (.parameters (.invalidModulusSize size 10 62))))
  /-- There is a modulus of every size before one in range of which none is left. -/
  | exhausted {before after : List Nat} {size : Nat} {m : List UInt64}
      (hsplit : sizes = before ++ size :: after) (hbefore : Greedy P degree taken before m)
      (hsize : InRange size) (h : free P degree size (m ++ taken) = ∅) :
      Generated P degree taken sizes
        (.error (.failure (.parameters (.notEnoughPrimes size degree))))

/-- Only the primes of the sizes that are asked for play a part. -/
theorem Generated.congr {r : Outcome SchemeError (List UInt64)}
    (h : ∀ size ∈ sizes, InRange size →
      progression P size (2 * degree) = progression P' size (2 * degree))
    (hr : Generated P degree taken sizes r) : Generated P' degree taken sizes r := by
  have hfree : ∀ size ∈ sizes, InRange size → ∀ used,
      free P degree size used = free P' degree size used := by
    intro size hmem hsize used
    rw [free, free, h size hmem hsize]
  have hgreedy : ∀ before m, (∀ size ∈ before, size ∈ sizes) →
      Greedy P degree taken before m → Greedy P' degree taken before m := by
    intro before m hsub hbefore
    refine ⟨hbefore.length_eq, hbefore.inRange, ?_⟩
    intro k size p hs hp
    have hmem := List.mem_of_getElem? hs
    rw [← hfree size (hsub size hmem) (hbefore.inRange size hmem)]
    exact hbefore.greatest k size p hs hp
  cases hr with
  | done hm => exact .done (hgreedy sizes _ (fun _ hs => hs) hm)
  | @invalidSize before after size m hsplit hbefore hsize =>
      exact .invalidSize hsplit (hgreedy before m (by simp +contextual [hsplit]) hbefore) hsize
  | @exhausted before after size m hsplit hbefore hsize hempty =>
      refine .exhausted hsplit (hgreedy before m (by simp +contextual [hsplit]) hbefore) hsize ?_
      rw [← hfree size (by simp [hsplit]) hsize, hempty]

/-- Twice a degree below `2 ^ 63` is a word. -/
theorem two_mul_lt_size (h : degree < 2 ^ 63) : 2 * degree < UInt64.size := by
  simp only [UInt64.size]
  omega

section Run

variable (hdegree : degree.isPowerOfTwo) (hlimit : 2 * degree < UInt64.size)
include hdegree hlimit

/-- The search for a modulus of a size covers all free numbers of the size. -/
theorem exists_greatest_free (hsize : InRange size) (used : List UInt64) :
    ∃ o, freePrime size degree used (1 <<< UInt64.ofNat size) =
        o.elim (reject (.notEnoughPrimes size degree)) .ok ∧
      GreatestWord (free (Primality.isPrime · = true) degree size used) o := by
  have hbound : ((1 : UInt64) <<< UInt64.ofNat size).toNat = 2 ^ size :=
    toNat_one_shiftLeft (lt_of_le_of_lt hsize.2 (by decide))
  obtain ⟨o, hsearch, hgreatest⟩ := exists_freePrime hsize hdegree hlimit used hbound.le
  have hall : free (Primality.isPrime · = true) degree size used ∩
      Set.Iio ((1 : UInt64) <<< UInt64.ofNat size).toNat =
        free (Primality.isPrime · = true) degree size used := by
    rw [Set.inter_eq_left, hbound]
    rintro n ⟨⟨-, hn, -⟩, -⟩
    exact Nat.size_le.mp hn.le
  rw [hall] at hgreatest
  exact ⟨o, hsearch, hgreatest⟩

/-- One step of the generation. -/
theorem generateModuli_of_inRange (hsize : InRange size) (taken found : List UInt64)
    (sizes : List Nat) {o : Option UInt64}
    (ho : GreatestWord (free (Primality.isPrime · = true) degree size (found ++ taken)) o) :
    generateModuli degree taken found (size :: sizes) =
      o.elim (reject (.notEnoughPrimes size degree)) fun p =>
        generateModuli degree taken (found ++ [p]) sizes := by
  obtain ⟨o', hsearch, ho'⟩ := exists_greatest_free hdegree hlimit hsize (found ++ taken)
  obtain rfl := ho.unique ho'
  rw [generateModuli_cons hsize, hsearch]
  cases o <;> rfl

/-- A greedy choice is what is generated. -/
theorem generateModuli_of_greedy (h : Greedy (Primality.isPrime · = true) degree taken sizes m) :
    generateModuli degree taken [] sizes = .ok m := by
  induction sizes using List.reverseRecOn generalizing m with
  | nil =>
      rw [greedy_nil_iff.mp h]
      rfl
  | append_singleton sizes size ih =>
      obtain rfl | ⟨m, p, rfl⟩ := List.eq_nil_or_concat' m
      · simpa using h.length_eq
      · obtain ⟨hbefore, hsize, hp⟩ := greedy_concat_iff.mp h
        rw [generateModuli_append, ih hbefore, Outcome.ok_bind,
          generateModuli_of_inRange hdegree hlimit hsize taken m [] (o := some p) hp]
        rfl

/-- The relation describes what the generation does. -/
theorem Generated.eq {r : Outcome SchemeError (List UInt64)}
    (h : Generated (Primality.isPrime · = true) degree taken sizes r) :
    generateModuli degree taken [] sizes = r := by
  cases h with
  | done hm => exact generateModuli_of_greedy hdegree hlimit hm
  | @invalidSize before after size m hsplit hbefore hsize =>
      rw [hsplit, generateModuli_append, generateModuli_of_greedy hdegree hlimit hbefore,
        Outcome.ok_bind, generateModuli_of_not_inRange hsize]
      rfl
  | @exhausted before after size m hsplit hbefore hsize hempty =>
      rw [hsplit, generateModuli_append, generateModuli_of_greedy hdegree hlimit hbefore,
        Outcome.ok_bind,
        generateModuli_of_inRange hdegree hlimit hsize taken m after (o := none) hempty]
      rfl

/-- The greedy choice goes on to the end, or it stops at some size. -/
theorem exists_generated (taken : List UInt64) (sizes : List Nat) :
    ∃ r, Generated (Primality.isPrime · = true) degree taken sizes r := by
  induction sizes using List.reverseRecOn with
  | nil => exact ⟨_, .done (greedy_nil_iff.mpr rfl)⟩
  | append_singleton sizes size ih =>
      rcases ih with ⟨r, hr⟩
      cases hr with
      | @done m hm =>
          by_cases hsize : InRange size
          · obtain ⟨o, -, ho⟩ := exists_greatest_free hdegree hlimit hsize (m ++ taken)
            cases o with
            | none => exact ⟨_, .exhausted rfl hm hsize ho⟩
            | some p => exact ⟨_, .done (greedy_concat_iff.mpr ⟨hm, hsize, ho⟩)⟩
          · exact ⟨_, .invalidSize rfl hm hsize⟩
      | @invalidSize before after stop m hsplit hbefore hstop =>
          have hlonger : sizes ++ [size] = before ++ stop :: (after ++ [size]) := by simp [hsplit]
          exact ⟨_, .invalidSize hlonger hbefore hstop⟩
      | @exhausted before after stop m hsplit hbefore hstop hempty =>
          have hlonger : sizes ++ [size] = before ++ stop :: (after ++ [size]) := by simp [hsplit]
          exact ⟨_, .exhausted hlonger hbefore hstop hempty⟩

theorem generateModuli_iff_test (taken : List UInt64) (sizes : List Nat)
    (r : Outcome SchemeError (List UInt64)) : generateModuli degree taken [] sizes = r ↔
      Generated (Primality.isPrime · = true) degree taken sizes r := by
  constructor
  · rintro rfl
    obtain ⟨r, hr⟩ := exists_generated hdegree hlimit taken sizes
    rwa [hr.eq hdegree hlimit]
  · exact fun hr => hr.eq hdegree hlimit

end Run

/-- Generated moduli are the greatest free primes: where the primality test is right, the
generation ends as the greedy choice of primes does. -/
theorem generation_exact (hdegree : degree.isPowerOfTwo) (hlimit : degree ≤ 2 ^ 62)
    (taken : List UInt64) (sizes : List Nat)
    (hexact : Primality.ExactOn {n | n.size ∈ sizes ∧ n ≡ 1 [MOD 2 * degree] ∧ n < 2 ^ 62})
    (r : Outcome SchemeError (List UInt64)) :
    generateModuli degree taken [] sizes = r ↔ Generated Nat.Prime degree taken sizes r := by
  have hword : 2 * degree < UInt64.size := by
    simp only [UInt64.size]
    omega
  have hsame : ∀ size ∈ sizes, InRange size →
      progression (Primality.isPrime · = true) size (2 * degree) =
        progression Nat.Prime size (2 * degree) := by
    intro size hmem hsize
    ext n
    have htest : n.size = size ∧ n ≡ 1 [MOD 2 * degree] →
        (Primality.isPrime n = true ↔ n.Prime) := by
      rintro ⟨hn, hmod⟩
      refine hexact n ⟨hn ▸ hmem, hmod, ?_⟩
      exact (Nat.size_le.mp hn.le).trans_le (Nat.pow_le_pow_right (by decide) hsize.2)
    exact and_congr_left htest
  rw [generateModuli_iff_test hdegree hword]
  constructor
  · exact Generated.congr hsame
  · refine Generated.congr ?_
    intro size hmem hsize
    exact (hsame size hmem hsize).symm

/-- The two greatest primes of ten digits that are one more than a multiple of 16 and differ
from 1009 are 977 and 929. -/
theorem generation_exact_besides1009 :
    generateModuli 8 [1009] [] [10, 10] = .ok [977, 929] := by
  have hexact : Primality.ExactOn {n | n.size ∈ [10, 10] ∧ n ≡ 1 [MOD 2 * 8] ∧ n < 2 ^ 62} := by
    refine Primality.exactOn_small.mono ?_
    rintro n ⟨hsize, -, -⟩
    have hten : n.size = 10 := by simpa using hsize
    exact (Nat.size_le.mp hten.le).trans (by decide)
  have hrange : InRange 10 := by decide
  have hfirst : IsGreatest (free Nat.Prime 8 10 ([] ++ [1009])) 977 := by
    refine ⟨⟨⟨by norm_num, by decide, by decide⟩, by simp⟩, ?_⟩
    rintro n ⟨⟨hprime, hsize, hmod⟩, hfree⟩
    have hbits := (size_eq_iff (by decide)).mp hsize
    have hmod : n % 16 = 1 := hmod
    by_contra hgt
    obtain rfl | rfl : n = 993 ∨ n = 1009 := by omega
    · norm_num at hprime
    · exact hfree 1009 (by decide) rfl
  have hsecond : IsGreatest (free Nat.Prime 8 10 ([977] ++ [1009])) 929 := by
    refine ⟨⟨⟨by norm_num, by decide, by decide⟩, by simp⟩, ?_⟩
    rintro n ⟨⟨hprime, hsize, hmod⟩, hfree⟩
    have hbits := (size_eq_iff (by decide)).mp hsize
    have hmod : n % 16 = 1 := hmod
    by_contra hgt
    obtain rfl | rfl | hfar : n = 945 ∨ n = 961 ∨ 977 ≤ n := by omega
    · norm_num at hprime
    · norm_num at hprime
    · have hless : n ≠ 977 := fun h => hfree 977 (by decide) h.symm
      have hle : n ≤ 977 :=
        hfirst.2 ⟨⟨hprime, hsize, hmod⟩, fun p hp => hfree p (List.mem_append_right _ hp)⟩
      omega
  rw [generation_exact ⟨3, rfl⟩ (by decide) [1009] [10, 10] hexact]
  have hone : Greedy Nat.Prime 8 [1009] ([] ++ [10]) ([] ++ [977]) :=
    greedy_concat_iff.mpr ⟨greedy_nil_iff.mpr rfl, hrange, hfirst⟩
  have htwo : Greedy Nat.Prime 8 [1009] ([] ++ [10] ++ [10]) ([] ++ [977] ++ [929]) :=
    greedy_concat_iff.mpr ⟨hone, hrange, hsecond⟩
  exact .done htwo

/-- The greatest prime of ten digits that is one more than a multiple of 16 is 1009. -/
theorem greedy_1009 : Greedy (Primality.isPrime · = true) 8 [] [10] [1009] := by
  refine ⟨rfl, by decide, ?_⟩
  rintro k size p hsize hp
  obtain rfl : k = 0 := by
    have := (List.getElem?_eq_some_iff.mp hsize).1
    simpa using this
  obtain rfl : 10 = size := by simpa using hsize
  obtain rfl : 1009 = p := by simpa using hp
  refine ⟨⟨⟨by decide +kernel, by decide, by decide⟩, by simp⟩, ?_⟩
  rintro n ⟨⟨-, hbits, hmod⟩, -⟩
  have hlt : n < 1024 := ((size_eq_iff (by decide)).mp hbits).2
  have hmod : n % 16 = 1 := hmod
  change n ≤ 1009
  omega

end RingShamir.ParameterDraft
