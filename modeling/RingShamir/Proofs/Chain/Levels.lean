import RingShamir.Proofs.Chain.Encoding
import RingShamir.Proofs.RnsPoly.Safety

/-!
# Levels stand for bases

The bases below one basis are told apart in three ways: by following the links
down to a level, by the test for prefixes, which compares lists of moduli, and by
comparing all fields.  On bases that were made of their moduli the three agree.
So the level of an element on a chain says which bases its parts live over, and
checks that compare levels are checks that compare bases.

An element is assumed to be no larger than what can be addressed where a zero
element of its shape is asked for.

Main results:

- Theorem `RnsBasis.Built.isPrefixOf_iff_atLevel`: the prefixes of a basis are the
  bases of its levels.
- Class `BasedChain`: the chains with a level for each choice of bases, and the
  instances for both kinds of chains.
- Theorem `levels_tell_bases`: how levels, prefixes and links agree.
-/

namespace RingShamir

open ResidueChain

/-! ## Bases of levels -/

namespace RnsBasis

variable {a b : RnsBasis} {l : Nat}

theorem Built.eq_iff (ha : a.Built) (hb : b.Built) :
    a = b ↔ a.moduli = b.moduli ∧ a.degree = b.degree := by
  constructor
  · rintro rfl
    exact ⟨rfl, rfl⟩
  · rintro ⟨hmoduli, hdegree⟩
    exact ha.eq_of_moduli hb hmoduli hdegree

/-- Bases that are prefixes of each other are equal. -/
theorem Built.isPrefixOf_antisymm (ha : a.Built) (hb : b.Built) (hab : a.isPrefixOf b = true)
    (hba : b.isPrefixOf a = true) : a = b := by
  rw [isPrefixOf_iff] at hab hba
  exact ha.eq_of_moduli hb (hab.2.eq_of_length_le hba.2.length_le) hab.1

/-- The prefixes of a basis are the bases of its levels. -/
theorem Built.isPrefixOf_iff_atLevel (ha : a.Built) (hb : b.Built) :
    a.isPrefixOf b = true ↔ ∃ l, b.atLevel l = .ok a := by
  constructor
  · intro h
    exact ⟨a.level, ha.atLevel_of_prefix hb h⟩
  · rintro ⟨l, h⟩
    exact (hb.of_atLevel h).2.1

theorem atLevel_of_level_lt (h : b.level < l) :
    ∃ text, b.atLevel l = .error (.failure (.levelMismatch text)) := by
  rw [atLevel, if_pos h]
  exact ⟨_, rfl⟩

/-- The basis at a level is there up to the highest level, it is the one that is
made of the first moduli anew, and no link is missing on the way to it. -/
structure LinkedTo (b : RnsBasis) (l : Nat) : Prop where
  /-- There is a basis at the level unless the level is above that of the basis. -/
  found : (∃ r, b.atLevel l = .ok r) ↔ l ≤ b.level
  /-- The basis at the level is made of the first moduli. -/
  remade : ∀ r, b.atLevel l = .ok r → ofModuli (b.moduli.take (l + 1)) b.degree = .ok r
  /-- The links do not end early. -/
  linked : b.atLevel l ≠ .error (.failure .noLowerLevel)

theorem Built.linkedTo (hb : b.Built) (l : Nat) : b.LinkedTo l := by
  rcases Nat.lt_or_ge b.level l with habove | hl
  · obtain ⟨text, htext⟩ := atLevel_of_level_lt habove
    constructor
    · simp [htext, habove]
    · simp [htext]
    · simp [htext]
  · obtain ⟨r, hr, hbuilt, hdegree, hmoduli⟩ := hb.atLevel hl
    constructor
    · simp [hr, hl]
    · intro r' hr'
      obtain rfl : r = r' := Except.ok.inj (hr.symm.trans hr')
      rw [← hmoduli, ← hdegree]
      exact hbuilt
    · simp [hr]

/-- The test for prefixes is a partial order on bases that were made of their
moduli. -/
theorem isPartialOrder_isPrefixOf :
    IsPartialOrder {b : RnsBasis // b.Built} fun a b => a.1.isPrefixOf b.1 = true where
  refl a := isPrefixOf_refl a.1
  trans _ _ _ := isPrefixOf_trans
  antisymm a b hab hba := Subtype.ext (a.2.isPrefixOf_antisymm b.2 hab hba)

end RnsBasis

/-! ## Bases of elements -/

/-- Elements with a part over a basis and possibly one over a second basis. -/
class BasedElement (E : Type) where
  /-- The bases of the parts. -/
  bases : E → RnsBasis × Option RnsBasis

export BasedElement (bases)

instance : BasedElement RnsPoly where
  bases a := (a.basis, none)

instance : BasedElement ExtendedPoly where
  bases a := (a.main.basis, a.aux.map (·.basis))

/-- A property of both bases of a pair. -/
structure BothBases (P : RnsBasis → Prop) (bs : RnsBasis × Option RnsBasis) : Prop where
  /-- The first basis has the property. -/
  main : P bs.1
  /-- The second basis has the property where there is one. -/
  aux : ∀ b ∈ bs.2, P b

theorem BothBases.mono {P P' : RnsBasis → Prop} {bs : RnsBasis × Option RnsBasis}
    (h : BothBases P bs) (hP : ∀ b, P b → P' b) : BothBases P' bs :=
  ⟨hP _ h.main, fun b hb => hP b (h.aux b hb)⟩

/-- Chains whose levels choose bases: an element is on the chain at a level when
its parts live over the bases that the level chooses, and the zero element of the
level has its parts over them. -/
class BasedChain (C : Type) (E L : outParam Type) [ResidueChain C E L] [ChainView C E]
    [BasedElement E] where
  /-- The bases that a level chooses. -/
  basesAt : C → L → Outcome RingError (RnsBasis × Option RnsBasis)
  /-- Elements are at the level that chooses their bases. -/
  levelOf_iff {c : C} {e : E} {l : L} : Built c → BothBases RnsBasis.Built (bases e) →
    (levelOf c e = .ok l ↔ basesAt c l = .ok (bases e))
  /-- The zero element of a level is over the chosen bases if it can be addressed. -/
  zeroAt_iff {c : C} {l : L} {bs : RnsBasis × Option RnsBasis} :
    (∃ z, zeroAt c l = .ok z ∧ bases z = bs) ↔ basesAt c l = .ok bs ∧
      BothBases (fun b => RnsPoly.encodedSize b < Word.addressLimit) bs

/-- The level of an element and the bases of its parts determine each other. -/
structure LevelsTellBases {C E L : Type} [ResidueChain C E L] [BasedElement E] (c : C) :
    Prop where
  /-- An element is at the level whose zero element has the same bases. -/
  levelOf_iff : ∀ (e : E) (l : L), BothBases RnsBasis.Addressable (bases e) →
    (levelOf c e = .ok l ↔ ∃ z, zeroAt c l = .ok z ∧ bases z = bases e)
  /-- Elements of the chain have the same bases when they have the same level. -/
  bases_eq_iff : ∀ (a b : E) (la lb : L), BothBases RnsBasis.Built (bases a) →
    BothBases RnsBasis.Built (bases b) → levelOf c a = .ok la → levelOf c b = .ok lb →
      (bases a = bases b ↔ la = lb)

section Chains

variable {C E L : Type} [ResidueChain C E L] [ChainView C E] [BasedElement E]
  [BasedChain C E L] {c : C} {e : E} {l : L}

/-- There is a zero element at the level of an element that can be addressed. -/
theorem exists_zeroAt (hc : Built c) (he : BothBases RnsBasis.Addressable (bases e))
    (hl : levelOf c e = .ok l) : ∃ z, zeroAt c l = .ok z ∧ bases z = bases e := by
  have hbases := (BasedChain.levelOf_iff hc (he.mono fun _ hb => hb.built)).mp hl
  exact BasedChain.zeroAt_iff.mpr ⟨hbases, he.mono fun _ hb => hb.size_lt⟩

theorem levelsTellBases (hc : Built c) : LevelsTellBases c where
  levelOf_iff e l he := by
    constructor
    · exact exists_zeroAt hc he
    · intro hzero
      have hbases := (BasedChain.zeroAt_iff.mp hzero).1
      exact (BasedChain.levelOf_iff hc (he.mono fun _ hb => hb.built)).mpr hbases
  bases_eq_iff a b la lb ha hb hla hlb := by
    have hbases := (BasedChain.levelOf_iff hc ha).mp hla
    constructor
    · intro heq
      have hla' : levelOf c b = .ok la := (BasedChain.levelOf_iff hc hb).mpr (heq ▸ hbases)
      exact Except.ok.inj (hla'.symm.trans hlb)
    · rintro rfl
      exact Except.ok.inj (hbases.symm.trans ((BasedChain.levelOf_iff hc hb).mp hlb))

end Chains

/-! ## The two kinds of chains -/

namespace PlainChain

/-- The basis that a level chooses. -/
def basesAt (c : PlainChain) (l : Nat) : Outcome RingError (RnsBasis × Option RnsBasis) := do
  pure (← c.basis.atLevel l, none)

variable {c : PlainChain} {a : RnsPoly} {l : Nat} {bs : RnsBasis × Option RnsBasis}

theorem basesAt_eq_ok : c.basesAt l = .ok bs ↔ c.basis.atLevel l = .ok bs.1 ∧ bs.2 = none := by
  rcases bs with ⟨main, aux⟩
  simp only [basesAt, Outcome.bind_eq_ok, Outcome.pure_eq_ok, Except.ok.injEq, Prod.mk.injEq]
  constructor
  · rintro ⟨b, hb, rfl, rfl⟩
    exact ⟨hb, rfl⟩
  · rintro ⟨hb, rfl⟩
    exact ⟨main, hb, rfl, rfl⟩

theorem levelOf_iff_basesAt (hc : c.basis.Built) (ha : a.basis.Built) :
    c.levelOf a = .ok l ↔ c.basesAt l = .ok (a.basis, none) := by
  rw [levelOf_eq_ok, basesAt_eq_ok]
  constructor
  · rintro ⟨hfirst, rfl⟩
    exact ⟨ha.atLevel_of_prefix hc hfirst, rfl⟩
  · rintro ⟨hb, -⟩
    obtain ⟨-, hfirst, hlevel⟩ := hc.of_atLevel hb
    exact ⟨hfirst, hlevel⟩

theorem zeroAt_iff_basesAt :
    (∃ z, c.zeroAt l = .ok z ∧ bases z = bs) ↔ c.basesAt l = .ok bs ∧
      BothBases (fun b => RnsPoly.encodedSize b < Word.addressLimit) bs := by
  simp only [basesAt_eq_ok, zeroAt, Outcome.bind_eq_ok]
  constructor
  · rintro ⟨z, ⟨b, hb, hz⟩, rfl⟩
    obtain ⟨hsize, rfl⟩ := RnsPoly.zero_eq_ok.mp hz
    exact ⟨⟨hb, rfl⟩, hsize, by simp [bases]⟩
  · rintro ⟨⟨hb, hnone⟩, hsize⟩
    exact ⟨_, ⟨bs.1, hb, RnsPoly.zero_of_fits hsize.main⟩, Prod.ext rfl hnone.symm⟩

instance : BasedChain PlainChain RnsPoly Nat where
  basesAt := basesAt
  levelOf_iff hc he := levelOf_iff_basesAt hc he.main
  zeroAt_iff := zeroAt_iff_basesAt

end PlainChain

namespace ExtendedChain

variable {c : ExtendedChain} {a : ExtendedPoly} {l : Nat × Option Nat}
  {bs : RnsBasis × Option RnsBasis}

theorem levelOf_iff_basesAt (hc : c.Built) (ha : BothBases RnsBasis.Built (bases a)) :
    c.levelOf a = .ok l ↔ c.basesAt l = .ok (bases a) := by
  rw [levelOf_eq_ok, basesAt_eq_ok]
  constructor
  · rintro ⟨⟨hfirst, hlevel⟩, haux⟩
    refine ⟨hlevel ▸ ha.main.atLevel_of_prefix hc.main hfirst, ?_⟩
    rcases haux with ⟨hp, hl, hr⟩ | ⟨p, r, hp, hl, hr, hprefix⟩
    · exact .inl ⟨hp, hl, by simp [bases, hr]⟩
    · have hbuilt : r.basis.Built := ha.aux r.basis (by simp [bases, hr])
      exact .inr ⟨p, r.level, r.basis, hp, hl, by simp [bases, hr],
        hbuilt.atLevel_of_prefix (hc.aux p hp) hprefix⟩
  · rintro ⟨hmain, haux⟩
    obtain ⟨-, hfirst, hlevel⟩ := hc.main.of_atLevel hmain
    refine ⟨⟨hfirst, hlevel⟩, ?_⟩
    rcases haux with ⟨hp, hl, hr⟩ | ⟨p, lp, b, hp, hl, hr, hb⟩
    · exact .inl ⟨hp, hl, Option.map_eq_none_iff.mp hr⟩
    · obtain ⟨r, hr, rfl⟩ := Option.map_eq_some_iff.mp hr
      obtain ⟨-, hprefix, rfl⟩ := (hc.aux p hp).of_atLevel hb
      exact .inr ⟨p, r, hp, hl, by assumption, hprefix⟩

theorem zeroAt_iff_basesAt :
    (∃ z, c.zeroAt l = .ok z ∧ bases z = bs) ↔ c.basesAt l = .ok bs ∧
      BothBases (fun b => RnsPoly.encodedSize b < Word.addressLimit) bs := by
  constructor
  · rintro ⟨z, hz, rfl⟩
    obtain ⟨bs, hbs, hmain, haux⟩ := zeroAt_eq_ok hz
    obtain ⟨hsize, hq⟩ := RnsPoly.zero_eq_ok.mp hmain
    have hbasis : z.main.basis = bs.1 := by rw [hq]
    rcases haux with ⟨hnone, hp⟩ | ⟨b, p, hb, hp, hzero⟩
    · have hz : bases z = bs := Prod.ext hbasis (by simp [bases, hnone, hp])
      rw [hz]
      exact ⟨hbs, hsize, by simp [hnone]⟩
    · obtain ⟨hsize', rfl⟩ := RnsPoly.zero_eq_ok.mp hzero
      have hz : bases z = bs := Prod.ext hbasis (by simp [bases, hb, hp])
      rw [hz]
      exact ⟨hbs, hsize, by simpa [hb] using hsize'⟩
  · rintro ⟨hbs, hsize⟩
    rcases bs with ⟨main, aux⟩
    have hmain := RnsPoly.zero_of_fits (ε := RingError) hsize.main
    cases aux with
    | none => exact ⟨⟨⟨main, _⟩, none⟩, by simp [zeroAt, hbs, hmain]; rfl, rfl⟩
    | some b =>
        have haux := RnsPoly.zero_of_fits (ε := RingError) (hsize.aux b rfl)
        exact ⟨⟨⟨main, _⟩, some ⟨b, _⟩⟩, by simp [zeroAt, hbs, hmain, haux]; exact ⟨rfl, rfl⟩, rfl⟩

instance : BasedChain ExtendedChain ExtendedPoly (Nat × Option Nat) where
  basesAt := basesAt
  levelOf_iff := levelOf_iff_basesAt
  zeroAt_iff := zeroAt_iff_basesAt

end ExtendedChain

/-- On bases that were made of their moduli, equality is equality of moduli and
degrees, every level down from the highest is linked to a basis that is made of the
first moduli, and the prefixes are the bases of the levels, in a partial order.  So
on both kinds of chains the level of an element tells its bases. -/
theorem levels_tell_bases :
    (∀ a b : RnsBasis, a.Built → b.Built →
      (a = b ↔ a.moduli = b.moduli ∧ a.degree = b.degree)) ∧
    (∀ b : RnsBasis, b.Built → ∀ l, b.LinkedTo l) ∧
    (∀ a b : RnsBasis, a.Built → b.Built →
      (a.isPrefixOf b = true ↔ ∃ l, b.atLevel l = .ok a)) ∧
    IsPartialOrder {b : RnsBasis // b.Built} (fun a b => a.1.isPrefixOf b.1 = true) ∧
    (∀ c : PlainChain, Built c → LevelsTellBases c) ∧
    ∀ c : ExtendedChain, Built c → LevelsTellBases c := by
  refine ⟨?equality, ?links, ?prefixes, RnsBasis.isPartialOrder_isPrefixOf, ?plain, ?extended⟩
  case equality => exact fun _ _ ha hb => ha.eq_iff hb
  case links => exact fun _ hb => hb.linkedTo
  case prefixes => exact fun _ _ ha hb => ha.isPrefixOf_iff_atLevel hb
  case plain => exact fun _ hc => levelsTellBases hc
  case extended => exact fun _ hc => levelsTellBases hc

section FiveSeven

open PlainChain ExtendedChain

/-- The basis of the prime five, for polynomials of degree eight. -/
def basisFive : RnsBasis where
  moduli := [5]
  operators := [.withConstants 5]
  degree := 8
  product := 5
  lower := none

theorem atLevel_fiveSeven : fiveSeven.basis.atLevel 0 = .ok basisFive := rfl

theorem levels_tell_bases_fiveSeven :
    (basisFive.Built ∧ basisFive ≠ fiveSeven.basis ∧
      basisFive.isPrefixOf fiveSeven.basis = true) ∧
    fiveSeven.basis.LinkedTo 2 ∧ LevelsTellBases fiveSeven ∧
      LevelsTellBases fiveSevenByEleven := by
  obtain ⟨equality, links, prefixes, -, plain, extended⟩ := levels_tell_bases
  have hfive : basisFive.Built :=
    RnsBasis.built_of_ofModuli ((links _ fiveSeven_built 0).remade _ atLevel_fiveSeven)
  refine ⟨⟨hfive, ?_, ?_⟩, links _ fiveSeven_built 2, plain _ fiveSeven_built,
    extended _ fiveSevenByEleven_built⟩
  · rw [Ne, equality _ _ hfive fiveSeven_built]
    decide
  · exact (prefixes _ _ hfive fiveSeven_built).mpr ⟨0, atLevel_fiveSeven⟩

end FiveSeven

end RingShamir
