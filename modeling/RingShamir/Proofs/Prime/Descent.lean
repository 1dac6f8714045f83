import Mathlib.Data.List.Sort
import Mathlib.Tactic.NormNum.Prime
import RingShamir.Error
import RingShamir.Proofs.Prime.Search

/-!
# All primes of a progression

A search that found a prime can go on below it.  Searches in a row, each bounded by the
prime that the last one found, come by all primes of a size in a progression from the
greatest one down, and end at a search that finds none.  The primality test is taken to
be right on the numbers that the first search may visit.

Main results:

- Definition `descent`: the primes that searches in a row find.
- Definition `Falls`: a list runs down through all members of a set.
- Theorem `exists_descent`: searches in a row pass over no number that passes the test.
- Definition `SearchComplete` and theorem `search_complete`: what one search and what
  searches in a row find where the test is right.
-/

namespace RingShamir.PrimeSearch

variable {ε : Type} {bits : Nat} {step bound p : UInt64} {S : Set Nat} {ps ps' : List UInt64}

/-! ## Searches in a row -/

/-- The primes that searches in a row find, each of them below the prime found last. -/
def descent (bits : Nat) (step bound : UInt64) : Outcome ε (List UInt64) :=
  match h : (greatestPrime bits step bound : Outcome ε (Option UInt64)) with
  | .error e => .error e
  | .ok none => pure []
  | .ok (some p) => do
      -- What is found lies below the bound, so the searches come to an end.
      have := greatestPrime_lt h
      let rest ← descent bits step p
      pure (p :: rest)
termination_by bound.toNat

theorem descent_of_none (h : (greatestPrime bits step bound : Outcome ε _) = .ok none) :
    (descent bits step bound : Outcome ε _) = .ok [] := by
  rw [descent]
  split
  next herror => cases herror.symm.trans h
  next => rfl
  next hsome => cases hsome.symm.trans h

theorem descent_of_some (h : (greatestPrime bits step bound : Outcome ε _) = .ok (some p)) :
    (descent bits step bound : Outcome ε _) = descent bits step p >>= fun ps => pure (p :: ps) := by
  rw [descent]
  split
  next herror => cases herror.symm.trans h
  next hnone => cases hnone.symm.trans h
  next p' hsome =>
      obtain rfl : p' = p := Option.some.inj (Except.ok.inj (hsome.symm.trans h))
      rfl

/-! ## Falling lists -/

/-- A list of numbers runs down through all members of a set. -/
structure Falls (S : Set Nat) (ns : List Nat) : Prop where
  /-- Each entry is smaller than those before it. -/
  sorted : ns.SortedGT
  /-- The entries are the members of the set. -/
  mem_iff : ∀ n, n ∈ ns ↔ n ∈ S

theorem falls_nil : Falls ∅ [] :=
  ⟨List.sortedGT_iff_pairwise.mpr .nil, by simp⟩

/-- A list that runs down through the members below the greatest one runs on from it. -/
theorem Falls.cons {n : Nat} {ns : List Nat} (hn : IsGreatest S n)
    (h : Falls (S ∩ Set.Iio n) ns) : Falls S (n :: ns) := by
  constructor
  · rw [List.sortedGT_iff_pairwise]
    exact List.pairwise_cons.mpr
      ⟨fun m hm => ((h.mem_iff m).mp hm).2, h.sorted.pairwise⟩
  · intro m
    rw [List.mem_cons, h.mem_iff]
    constructor
    · rintro (rfl | hm)
      · exact hn.1
      · exact hm.1
    · intro hm
      rcases eq_or_lt_of_le (hn.2 hm) with heq | hlt
      · exact .inl heq
      · exact .inr ⟨hm, hlt⟩

/-- A list that runs down through the members of a set starts with the greatest one. -/
theorem Falls.isGreatest {n : Nat} {ns : List Nat} (h : Falls S (n :: ns)) : IsGreatest S n := by
  refine ⟨(h.mem_iff n).mp List.mem_cons_self, fun m hm => ?_⟩
  rcases List.mem_cons.mp ((h.mem_iff m).mpr hm) with rfl | hlater
  · exact le_rfl
  · exact (List.rel_of_pairwise_cons h.sorted.pairwise hlater).le

/-- Only one list of words runs down through the members of a set. -/
theorem Falls.unique (h : Falls S (ps.map UInt64.toNat)) (h' : Falls S (ps'.map UInt64.toNat)) :
    ps = ps' := by
  have hsame : ps.map UInt64.toNat = ps'.map UInt64.toNat :=
    h.sorted.eq_of_mem_iff h'.sorted fun n => by rw [h.mem_iff, h'.mem_iff]
  exact List.map_injective_iff.mpr (fun _ _ => UInt64.toNat_inj.mp) hsame

/-! ## The search -/

/-- Searches in a row pass over no number that passes the test, has the size that is asked
for and is one more than a multiple of the step. -/
theorem exists_descent (hbits : 10 ≤ bits ∧ bits ≤ 62) (hstep : step.toNat.isPowerOfTwo)
    (hbound : bound.toNat ≤ 2 ^ bits) :
    ∃ ps, (descent bits step bound : Outcome ε _) = .ok ps ∧
      Falls (progression (Primality.isPrime · = true) bits step.toNat ∩ Set.Iio bound.toNat)
        (ps.map UInt64.toNat) := by
  -- Each search has a smaller bound than the one before it.
  induction hn : bound.toNat using Nat.strong_induction_on generalizing bound with
  | _ n ih =>
      subst hn
      obtain ⟨o, hsearch, hgreatest⟩ := exists_greatestPrime (ε := ε) hbits hstep hbound
      cases o with
      | none =>
          have hempty : _ = ∅ := hgreatest
          rw [hempty]
          exact ⟨[], descent_of_none hsearch, falls_nil⟩
      | some p =>
          have hlt : p.toNat < bound.toNat := hgreatest.1.2
          obtain ⟨ps, hps, hfalls⟩ := ih p.toNat hlt (hlt.le.trans hbound) rfl
          refine ⟨p :: ps, by rw [descent_of_some hsearch, hps]; rfl, .cons hgreatest ?_⟩
          rwa [Set.inter_assoc, Set.Iio_inter_Iio, min_eq_right hlt.le]

/-- The search below a bound is complete: it takes no step too far, and misses no prime. -/
structure SearchComplete (bits : Nat) (step bound : UInt64) : Prop where
  /-- One search finds the greatest prime below the bound, or none if there is none. -/
  greatest : ∀ ε : Type, ∃ o, (greatestPrime bits step bound : Outcome ε _) = .ok o ∧
    GreatestWord (progression Nat.Prime bits step.toNat ∩ Set.Iio bound.toNat) o
  /-- Searches in a row find all primes below the bound in falling order. -/
  falls : ∀ ε : Type, ∃ ps, (descent bits step bound : Outcome ε _) = .ok ps ∧
    Falls (progression Nat.Prime bits step.toNat ∩ Set.Iio bound.toNat) (ps.map UInt64.toNat)

/-- Where the primality test is right, the search is complete: for all sizes from 10 to 62,
powers of two as steps and bounds up to the numbers of the size. -/
theorem search_complete (hbits : 10 ≤ bits ∧ bits ≤ 62) (hstep : step.toNat.isPowerOfTwo)
    (hbound : bound.toNat ≤ 2 ^ bits)
    (hexact : Primality.ExactOn
      {n | n.size = bits ∧ n ≡ 1 [MOD step.toNat] ∧ n < bound.toNat}) :
    SearchComplete bits step bound := by
  have hsame : progression (Primality.isPrime · = true) bits step.toNat ∩ Set.Iio bound.toNat =
      progression Nat.Prime bits step.toNat ∩ Set.Iio bound.toNat := by
    ext n
    constructor
    · rintro ⟨⟨htested, hsize, hmod⟩, hlt⟩
      exact ⟨⟨(hexact n ⟨hsize, hmod, hlt⟩).mp htested, hsize, hmod⟩, hlt⟩
    · rintro ⟨⟨hprime, hsize, hmod⟩, hlt⟩
      exact ⟨⟨(hexact n ⟨hsize, hmod, hlt⟩).mpr hprime, hsize, hmod⟩, hlt⟩
  constructor
  · intro ε
    rw [← hsame]
    exact exists_greatestPrime hbits hstep hbound
  · intro ε
    rw [← hsame]
    exact exists_descent hbits hstep hbound

/-- The primes of ten digits below 600 that are one more than a multiple of 16. -/
theorem falls_below_600 : Falls (progression Nat.Prime 10 16 ∩ Set.Iio 600) [593, 577] := by
  refine ⟨by simp [List.sortedGT_iff_pairwise], fun n => ?_⟩
  simp only [List.mem_cons, List.not_mem_nil, or_false]
  constructor
  · rintro (rfl | rfl)
    · exact ⟨⟨by norm_num, by decide, by decide⟩, by simp⟩
    · exact ⟨⟨by norm_num, by decide, by decide⟩, by simp⟩
  · rintro ⟨⟨hprime, hsize, hmod⟩, hlt⟩
    have hlow := ((size_eq_iff (by decide)).mp hsize).1
    have hmod : n % 16 = 1 := hmod
    have hlt : n < 600 := hlt
    have hcases : n = 513 ∨ n = 529 ∨ n = 545 ∨ n = 561 ∨ n = 577 ∨ n = 593 := by omega
    -- 513 and 561 are multiples of three, 529 is a square, 545 is a multiple of five.
    rcases hcases with rfl | rfl | rfl | rfl | rfl | rfl
    · exact absurd hprime (by norm_num)
    · exact absurd hprime (by norm_num)
    · exact absurd hprime (by norm_num)
    · exact absurd hprime (by norm_num)
    · exact .inr rfl
    · exact .inl rfl

/-- The searches below 600 with the step 16 find 593 and 577.  There is no prime of ten
digits that is one more than a multiple of 1024. -/
theorem search_complete_600 :
    ((greatestPrime 10 16 600 : Outcome RingError _) = .ok (some 593) ∧
      (descent 10 16 600 : Outcome RingError _) = .ok [593, 577]) ∧
      (greatestPrime 10 1024 1024 : Outcome RingError _) = .ok none := by
  have hexact : ∀ step bound : UInt64, bound.toNat ≤ 1024 → Primality.ExactOn
      {n | n.size = 10 ∧ n ≡ 1 [MOD step.toNat] ∧ n < bound.toNat} := by
    intro step bound hbound
    refine Primality.exactOn_small.mono ?_
    rintro n ⟨-, -, hlt⟩
    exact (hlt.trans_le hbound).trans (by decide)
  have hbelow : SearchComplete 10 16 600 :=
    search_complete (by decide) ⟨4, rfl⟩ (by decide) (hexact 16 600 (by decide))
  have hall : SearchComplete 10 1024 1024 :=
    search_complete (by decide) ⟨10, rfl⟩ (by decide) (hexact 1024 1024 (by decide))
  refine ⟨⟨?_, ?_⟩, ?_⟩
  · obtain ⟨o, ho, hgreatest⟩ := hbelow.greatest RingError
    have h593 : GreatestWord (progression Nat.Prime 10 16 ∩ Set.Iio 600) (some 593) :=
      falls_below_600.isGreatest
    rw [ho, GreatestWord.unique hgreatest h593]
  · obtain ⟨ps, hps, hfalls⟩ := hbelow.falls RingError
    have hprimes : ps = [593, 577] := hfalls.unique falls_below_600
    rw [hps, hprimes]
  · obtain ⟨o, ho, hgreatest⟩ := hall.greatest RingError
    have hempty : GreatestWord (progression Nat.Prime 10 1024 ∩ Set.Iio 1024) none :=
      progression_eq_empty (by decide) (.inr le_rfl)
    rw [ho, GreatestWord.unique hgreatest hempty]

end RingShamir.PrimeSearch
