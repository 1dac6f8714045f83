import RingShamir.Proofs.Chain.Levels

/-!
# Uniform elements of a level

A level that a stored element has can be sampled: the bases that the level chooses are
those of the element, so they can be addressed, and sampling over such bases succeeds
whatever the random words are.  What is sampled is at the level again.

Main results:

- Definition `Stored`: a valid element that can be addressed.
- Class `SamplingChain`: the chains with uniform elements over the bases that a level
  chooses, and the instances for both kinds of chains.
- Theorem `randomAt_yields`: uniform elements of the level of a stored element.
-/

namespace RingShamir

open ResidueChain

/-- An element as it is stored: it is valid, and its bytes can be addressed. -/
structure Stored {E : Type} [ReducedElement E] [BasedElement E] (e : E) : Prop where
  /-- The element is valid. -/
  valid : Valid e
  /-- The bases of its parts have polynomials that can be addressed. -/
  addressable : BothBases RnsBasis.Addressable (bases e)

/-- Chains on which the levels are sampled over the bases that they choose. -/
class SamplingChain (C : Type) (E L : outParam Type) [ResidueChain C E L] [ReducedElement E]
    [ChainView C E] [BasedElement E] [BasedChain C E L] : Prop where
  /-- A valid element over the chosen bases is sampled if these can be addressed. -/
  randomAt_yields {c : C} {l : L} {bs : RnsBasis × Option RnsBasis} :
    BasedChain.basesAt c l = .ok bs → BothBases RnsBasis.Addressable bs →
      Action.Yields (randomAt c l) fun e => Valid e ∧ bases e = bs

/-- At the level of a stored element uniform elements are sampled. -/
theorem randomAt_yields {C E L : Type} [ResidueChain C E L] [ReducedElement E] [ChainView C E]
    [BasedElement E] [BasedChain C E L] [SamplingChain C E L] {c : C} {e : E} {l : L}
    (hc : Built c) (he : Stored e) (hl : levelOf c e = .ok l) :
    Action.Yields (randomAt c l) (ElementAt c l) := by
  have hbuilt := he.addressable.mono fun _ hb => hb.built
  have hbases := (BasedChain.levelOf_iff hc hbuilt).mp hl
  refine (SamplingChain.randomAt_yields hbases he.addressable).imp fun r ⟨hvalid, hsame⟩ => ?_
  rw [← hsame] at hbases hbuilt
  exact ⟨hvalid, (BasedChain.levelOf_iff hc hbuilt).mpr hbases⟩

/-! ## The two kinds of chains -/

namespace PlainChain

variable {c : PlainChain} {l : Nat} {bs : RnsBasis × Option RnsBasis}

theorem randomAt_yields_of_basesAt (h : c.basesAt l = .ok bs)
    (hbs : BothBases RnsBasis.Addressable bs) :
    Action.Yields (c.randomAt l) fun e => Valid e ∧ bases e = bs := by
  obtain ⟨hbasis, hnone⟩ := basesAt_eq_ok.mp h
  refine (Action.yields_lift (Q := (· = bs.1)) hbasis rfl).bind ?_
  rintro _ rfl
  exact (RnsPoly.random_yields hbs.main).imp fun e ⟨hvalid, hmain⟩ =>
    ⟨hvalid, Prod.ext hmain hnone.symm⟩

instance : SamplingChain PlainChain RnsPoly Nat where
  randomAt_yields := randomAt_yields_of_basesAt

end PlainChain

namespace ExtendedChain

variable {c : ExtendedChain} {l : Nat × Option Nat} {bs : RnsBasis × Option RnsBasis}

theorem randomAt_yields_of_basesAt (h : c.basesAt l = .ok bs)
    (hbs : BothBases RnsBasis.Addressable bs) :
    Action.Yields (c.randomAt l) fun e => Valid e ∧ bases e = bs := by
  refine (Action.yields_lift (Q := (· = bs)) h rfl).bind ?_
  rintro _ rfl
  refine (RnsPoly.random_yields hbs.main).bind fun q ⟨hq, hmain⟩ => ?_
  split
  next hnone =>
      exact Action.yields_pure ⟨⟨hq, by simp⟩, Prod.ext hmain (by simp [bases, hnone])⟩
  next b hsome =>
      refine (RnsPoly.random_yields (hbs.aux b hsome)).bind fun p ⟨hp, haux⟩ => ?_
      exact Action.yields_pure
        ⟨⟨hq, by simpa using hp⟩, Prod.ext hmain (by simp [bases, hsome, haux])⟩

instance : SamplingChain ExtendedChain ExtendedPoly (Nat × Option Nat) where
  randomAt_yields := randomAt_yields_of_basesAt

end ExtendedChain

end RingShamir
