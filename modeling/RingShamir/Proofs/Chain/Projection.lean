import RingShamir.Proofs.Chain.Extended
import RingShamir.Proofs.Chain.Plain

/-!
# Projections of elements

Some rows of the elements of a level can be forgotten: the auxiliary part, or the
last rows of each part.  What is left is an element of another chain or of a lower
level.  Its residue classes are those of the element at the positions that are
kept, and zero at the others, so a projection is linear at every position; this is
all that the theory of sharing asks of it.

Main results:

- Structure `Projection`: elements of one level are taken to those of another one,
  class by class.
- Theorem `projection_main`: the main parts over an extended chain.
- Theorems `PlainChain.projection_truncate` and `ExtendedChain.projection_truncate`:
  the first rows of each part.
-/

namespace RingShamir

open ResidueChain

/-- A function from the elements of a level of `c` to those of a level of `c'`,
whose moduli are among the first moduli of `c`.  Classes are kept at some
positions and become zero at the others. -/
structure Projection {C E L C' E' L' : Type} [ResidueChain C E L] [ReducedElement E]
    [ChainView C E] [ResidueChain C' E' L'] [ReducedElement E'] [ChainView C' E']
    (c : C) (l : L) (c' : C') (l' : L') (π : E → E') (kept : Nat → Prop) : Prop where
  /-- The moduli of the second chain are among the first ones. -/
  moduli_isPrefix : moduli c' <+: moduli c
  /-- Elements of the level are taken to elements of the other level. -/
  elementAt : ∀ e, ElementAt c l e → ElementAt c' l' (π e)
  /-- Classes are kept. -/
  classAt_kept : ∀ e (i : Nat) (q : Modulus) (j : Nat), ElementAt c l e →
    (moduli c')[i]? = some q → kept i → classAt c' (π e) q i j = classAt c e q i j
  /-- The other classes become zero. -/
  classAt_dropped : ∀ e (i : Nat) (q : Modulus) (j : Nat), ElementAt c l e →
    (moduli c')[i]? = some q → ¬kept i → classAt c' (π e) q i j = 0
  /-- The other level can be addressed if the first one can. -/
  zeroAt : ∀ z, ResidueChain.zeroAt c l = .ok z → ∃ z', ResidueChain.zeroAt c' l' = .ok z'

namespace Projection

variable {C E L C' E' L' : Type} [ResidueChain C E L] [ReducedElement E] [ChainView C E]
  [ResidueChain C' E' L'] [ReducedElement E'] [ChainView C' E'] {c : C} {l : L} {c' : C'}
  {l' : L'} {π : E → E'} {kept : Nat → Prop}

/-- A position of the second chain has the same modulus in the first one. -/
theorem getElem?_moduli (h : Projection c l c' l' π kept) {i : Nat} {q : Modulus}
    (hq : (moduli c')[i]? = some q) : (moduli c)[i]? = some q := by
  rcases h.moduli_isPrefix with ⟨rest, hrest⟩
  rw [← hrest, List.getElem?_append_left (List.getElem?_eq_some_iff.mp hq).1, hq]

/-- An element whose classes are those that are left is the projection. -/
theorem eq_of_classAt [ResidueElement E'] [LawfulChain C' E' L'] (h : Projection c l c' l' π kept)
    (hc' : Built c') {e : E} {v : E'} (he : ElementAt c l e) (hv : ElementAt c' l' v)
    (hkept : ∀ (i : Nat) (q : Modulus) (j : Nat), (moduli c')[i]? = some q → kept i →
      classAt c' v q i j = classAt c e q i j)
    (hdropped : ∀ (i : Nat) (q : Modulus) (j : Nat), (moduli c')[i]? = some q → ¬kept i →
      classAt c' v q i j = 0) : v = π e := by
  apply RingShamir.eq_of_classAt hc' hv (h.elementAt e he)
  intro i q j hq
  by_cases hi : kept i
  · rw [hkept i q j hq hi, h.classAt_kept e i q j he hq hi]
  · rw [hdropped i q j hq hi, h.classAt_dropped e i q j he hq hi]

end Projection

/-! ## The first rows -/

namespace RnsPoly

/-- The first rows of a polynomial, up to a level that it has. -/
def truncate (l : Nat) (a : RnsPoly) : RnsPoly :=
  match a.basis.atLevel l with
  | .ok b => ⟨b, a.rows.take (l + 1)⟩
  | .error _ => a

variable {a : RnsPoly} {c : RnsBasis} {l : Nat}

/-- Truncating a part gives a part at the lower level, with the coefficients of the
rows that are kept. -/
theorem PartOf.truncate (ha : PartOf c a) (hl : l ≤ a.level) :
    PartOf c (a.truncate l) ∧ (a.truncate l).level = l ∧
      (∀ i ≤ l, ∀ j, (a.truncate l).coefficient i j = a.coefficient i j) ∧
        ∀ i, l < i → ∀ j, (a.truncate l).coefficient i j = 0 := by
  have hbuilt := ha.valid.built
  obtain ⟨b, hb, -, hdegree, hmoduli⟩ := hbuilt.atLevel hl
  obtain ⟨hbbuilt, hprefix, hlevel⟩ := hbuilt.of_atLevel hb
  have htruncate : a.truncate l = ⟨b, a.rows.take (l + 1)⟩ := by
    rw [RnsPoly.truncate, hb]
  have hoperators : b.operators = a.basis.operators.take (l + 1) := by
    rw [hbbuilt.operators_eq, hbuilt.operators_eq, hmoduli, List.map_take]
  rw [htruncate]
  refine ⟨⟨⟨hbbuilt, ?_⟩, RnsBasis.isPrefixOf_trans hprefix ha.isPrefix⟩, hlevel, ?_, ?_⟩
  · rw [hoperators, hdegree]
    exact List.forall₂_take (l + 1) ha.valid.rows
  · intro i hi j
    simp only [coefficient, List.getElem?_take_of_lt (Nat.lt_succ_of_le hi)]
  · intro i hi j
    apply coefficient_of_length_le
    rw [List.length_take]
    omega

/-- The zero polynomial of a lower level can be addressed. -/
theorem exists_zero_of_lower {b r : RnsBasis} {z : RnsPoly} {ε : Type} (hb : b.Built)
    (hr : r.Built) (hlower : b.isPrefixOf r = true)
    (hz : (zero r : Outcome ε RnsPoly) = .ok z) : ∃ z', (zero b : Outcome ε RnsPoly) = .ok z' := by
  have hfits := (zero_eq_ok.mp hz).1
  have hlength := (hb.operators_prefix hr hlower).length_le
  have hdegree := ((RnsBasis.isPrefixOf_iff _ _).mp hlower).1
  refine ⟨_, zero_of_fits (lt_of_le_of_lt ?_ hfits)⟩
  rw [encodedSize, encodedSize, hdegree]
  exact Nat.mul_le_mul_left _ hlength

end RnsPoly

/-- A lower level of a basis that can be addressed can be addressed. -/
theorem RnsBasis.Built.exists_zero_atLevel {c r : RnsBasis} {z : RnsPoly} {l l' : Nat}
    {ε : Type} (hc : c.Built) (hle : l' ≤ l) (hr : c.atLevel l = .ok r)
    (hz : (RnsPoly.zero r : Outcome ε RnsPoly) = .ok z) :
    ∃ b z', c.atLevel l' = .ok b ∧ (RnsPoly.zero b : Outcome ε RnsPoly) = .ok z' := by
  obtain ⟨hrbuilt, hrprefix, rfl⟩ := hc.of_atLevel hr
  obtain ⟨b, hb, -⟩ := hrbuilt.atLevel hle
  obtain ⟨hbbuilt, hprefix, rfl⟩ := hrbuilt.of_atLevel hb
  obtain ⟨z', hz'⟩ := RnsPoly.exists_zero_of_lower hbbuilt hrbuilt hprefix hz
  exact ⟨b, z', hbbuilt.atLevel_of_prefix hc (isPrefixOf_trans hprefix hrprefix), hz'⟩

namespace PlainChain

variable {c : PlainChain} {l l' : Nat}

/-- The first rows of elements of a level are elements of a lower level. -/
theorem projection_truncate (hc : Built c) (hle : l' ≤ l) :
    Projection c l c l' (RnsPoly.truncate l') (· ≤ l') where
  moduli_isPrefix := List.prefix_rfl
  elementAt e he := by
    rcases elementAt_iff.mp he with ⟨hpart, rfl⟩
    obtain ⟨htruncated, hlevel, -⟩ := hpart.truncate hle
    exact elementAt_iff.mpr ⟨htruncated, hlevel⟩
  classAt_kept e i q j he _ hi := by
    rcases elementAt_iff.mp he with ⟨hpart, rfl⟩
    obtain ⟨-, -, hkept, -⟩ := hpart.truncate hle
    exact congrArg q.residue (hkept i hi j)
  classAt_dropped e i q j he _ hi := by
    rcases elementAt_iff.mp he with ⟨hpart, rfl⟩
    obtain ⟨-, -, -, hdropped⟩ := hpart.truncate hle
    exact (congrArg q.residue (hdropped i (by omega) j)).trans q.residue_zero
  zeroAt z hz := by
    rcases Outcome.bind_eq_ok.mp hz with ⟨r, hr, hz⟩
    obtain ⟨b, z', hb, hz'⟩ := RnsBasis.Built.exists_zero_atLevel hc hle hr hz
    refine ⟨z', ?_⟩
    change c.zeroAt l' = _
    rw [zeroAt, hb, Outcome.ok_bind, hz']

end PlainChain

namespace ExtendedPoly

/-- The first rows of both parts, up to levels that they have. -/
def truncate (l : Nat × Option Nat) (a : ExtendedPoly) : ExtendedPoly where
  main := a.main.truncate l.1
  aux :=
    match l.2 with
    | some lp => a.aux.map (RnsPoly.truncate lp)
    | none => a.aux

end ExtendedPoly

namespace ExtendedChain

variable {c : ExtendedChain} {l l' : Nat × Option Nat} {a : ExtendedPoly}

/-- The main part of an element is an element over the main basis. -/
theorem projection_main (hc : c.Built) :
    Projection c l (PlainChain.mk c.main) l.1 ExtendedPoly.main fun _ => True where
  moduli_isPrefix := ⟨_, hc.operators_eq.symm⟩
  elementAt e he := by
    obtain ⟨hpart, hlevel, -⟩ := elementAt_iff.mp he
    exact PlainChain.elementAt_iff.mpr ⟨hpart, hlevel⟩
  classAt_kept e i q j _ hq _ := congrArg q.residue (coefficient_main hq e j).symm
  classAt_dropped e i q j _ _ hi := absurd trivial hi
  zeroAt z hz := by
    obtain ⟨bases, hbases, hzero, -⟩ := zeroAt_eq_ok hz
    refine ⟨z.main, ?_⟩
    change PlainChain.zeroAt _ l.1 = _
    rw [PlainChain.zeroAt, (basesAt_eq_ok.mp hbases).1, Outcome.ok_bind, hzero]

/-- A level is lower than another one in both parts, of which the auxiliary one is
there for both levels or for none. -/
structure LowerLevel (l' l : Nat × Option Nat) : Prop where
  /-- The main part has a lower level. -/
  main : l'.1 ≤ l.1
  /-- The auxiliary part has a lower level. -/
  aux : Option.Rel (· ≤ ·) l'.2 l.2

/-- The positions of the first rows of both parts, up to a level. -/
def KeptAt (c : ExtendedChain) (l : Nat × Option Nat) (i : Nat) : Prop :=
  if i < c.main.operators.length then i ≤ l.1
  else ∃ lp ∈ l.2, i - c.main.operators.length ≤ lp

theorem keptAt_main {i : Nat} (hi : i < c.main.operators.length) :
    KeptAt c l i ↔ i ≤ l.1 := by
  rw [KeptAt, if_pos hi]

theorem keptAt_aux {k lp : Nat} (hl : l.2 = some lp) :
    KeptAt c l (c.main.operators.length + k) ↔ k ≤ lp := by
  rw [KeptAt, if_neg (by omega), hl]
  simp

/-- An auxiliary part at a level is absent, or it is present and the lower level is
one that it has. -/
theorem auxAt_lower_cases {basis : Option RnsBasis} {la lb : Option Nat} {p : Option RnsPoly}
    (h : AuxAt basis la p) (hle : Option.Rel (· ≤ ·) lb la) :
    (basis = none ∧ lb = none ∧ p = none) ∨ ∃ b lp r, basis = some b ∧ lb = some lp ∧
      p = some r ∧ r.PartOf b ∧ lp ≤ r.level := by
  cases h with
  | absent =>
      cases hle
      exact .inl ⟨rfl, rfl, rfl⟩
  | present h =>
      cases hle
      exact .inr ⟨_, _, _, rfl, rfl, rfl, h, ‹_›⟩

theorem elementAt_truncate (ha : ElementAt c l a) (hle : LowerLevel l' l) :
    ElementAt c l' (a.truncate l') := by
  rcases elementAt_iff.mp ha with ⟨hpart, hlevel, haux⟩
  obtain ⟨hmain, hmainlevel, -⟩ := hpart.truncate (hle.main.trans_eq hlevel.symm)
  refine elementAt_iff.mpr ⟨hmain, hmainlevel, ?_⟩
  rcases auxAt_lower_cases haux hle.aux with
    ⟨hnone, hlb, hp⟩ | ⟨b, lp, r, hb, hlb, hp, hrpart, hrlevel⟩
  · simp only [ExtendedPoly.truncate, hnone, hlb, hp]
    exact .absent
  · obtain ⟨hr, hrlevel', -⟩ := hrpart.truncate hrlevel
    have hat := AuxAt.present hr
    rw [hrlevel'] at hat
    simp only [ExtendedPoly.truncate, hb, hlb, hp, Option.map_some]
    exact hat

/-- Truncating keeps the coefficients of the first rows of both parts. -/
theorem coefficient_truncate (hc : c.Built) (ha : ElementAt c l a) (hle : LowerLevel l' l)
    {i : Nat} {q : Modulus} (hq : c.operators[i]? = some q) (j : Nat) :
    (KeptAt c l' i → c.coefficient (a.truncate l') i j = c.coefficient a i j) ∧
      (¬KeptAt c l' i → c.coefficient (a.truncate l') i j = 0) := by
  rcases elementAt_iff.mp ha with ⟨hpart, hlevel, haux⟩
  rcases hc.position_cases hq with hq | ⟨k, basis, rfl, hbasis, hq⟩
  · obtain ⟨-, -, hkept, hdropped⟩ := hpart.truncate (hle.main.trans_eq hlevel.symm)
    rw [keptAt_main (List.getElem?_eq_some_iff.mp hq).1, coefficient_main hq,
      coefficient_main hq]
    exact ⟨fun hi => hkept i hi j, fun hi => hdropped i (by omega) j⟩
  · rcases auxAt_lower_cases haux hle.aux with
      ⟨hnone, -⟩ | ⟨b, lp, r, hb, hlb, hp, hrpart, hrlevel⟩
    · rw [hbasis] at hnone
      cases hnone
    · obtain ⟨-, -, hkept, hdropped⟩ := hrpart.truncate hrlevel
      have haux' : (a.truncate l').aux = some (r.truncate lp) := by
        simp only [ExtendedPoly.truncate, hlb, hp, Option.map_some]
      rw [keptAt_aux hlb, coefficient_aux haux', coefficient_aux hp]
      exact ⟨fun hk => hkept k hk j, fun hk => hdropped k (by omega) j⟩

/-- A lower level can be addressed where a level can. -/
theorem exists_zeroAt_of_lower (hc : c.Built) (hle : LowerLevel l' l) {z : ExtendedPoly}
    (hz : c.zeroAt l = .ok z) : ∃ z', c.zeroAt l' = .ok z' := by
  obtain ⟨bases, hbases, hmainzero, hauxzero⟩ := zeroAt_eq_ok hz
  obtain ⟨hmain, haux⟩ := basesAt_eq_ok.mp hbases
  obtain ⟨b, y, hb, hy⟩ := hc.main.exists_zero_atLevel hle.main hmain hmainzero
  rcases l with ⟨l, la⟩
  rcases l' with ⟨l', lb⟩
  have hrel := hle.aux
  rcases haux with ⟨hnone, hla, -⟩ | ⟨p, lp, r, hp, hla, hr, hat⟩
  · simp only at hla hrel hb
    subst hla
    cases hrel
    exact ⟨⟨y, none⟩, by simp [zeroAt, basesAt, hb, hnone, hy]⟩
  · simp only at hla hrel hb
    subst hla
    rcases hauxzero with ⟨hnone, -⟩ | ⟨r', s, hr', -, hs⟩
    · rw [hr] at hnone
      cases hnone
    · obtain rfl := Option.some.inj (hr.symm.trans hr')
      obtain ⟨lp', rfl, hlp⟩ : ∃ lp', lb = some lp' ∧ lp' ≤ lp := by
        cases hrel
        exact ⟨_, rfl, ‹_›⟩
      obtain ⟨d, x, hd, hx⟩ := (hc.aux p hp).exists_zero_atLevel hlp hat hs
      exact ⟨⟨y, some x⟩, by simp [zeroAt, basesAt, hb, hp, hd, hy, hx]⟩

/-- The first rows of elements of a level are elements of a lower level. -/
theorem projection_truncate (hc : c.Built) (hle : LowerLevel l' l) :
    Projection c l c l' (ExtendedPoly.truncate l') (KeptAt c l') where
  moduli_isPrefix := List.prefix_rfl
  elementAt _ he := elementAt_truncate he hle
  classAt_kept _ _ q j he hq hi :=
    congrArg q.residue ((coefficient_truncate hc he hle hq j).1 hi)
  classAt_dropped _ _ q j he hq hi :=
    (congrArg q.residue ((coefficient_truncate hc he hle hq j).2 hi)).trans q.residue_zero
  zeroAt _ hz := exists_zeroAt_of_lower hc hle hz

end ExtendedChain

end RingShamir
