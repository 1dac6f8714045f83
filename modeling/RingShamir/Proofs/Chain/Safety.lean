import RingShamir.Proofs.Chain.Encoding
import RingShamir.Proofs.RnsPoly.Safety
import RingShamir.Proofs.Scalar.Reduced

/-!
# Safe operations of chains

Over a chain whose elements can be addressed no operation on valid elements and
reduced scalars breaks a precondition, and all of them keep elements valid.  The
elements may be at any levels and on any chains: those that do not fit each other
are reported.

Main results:

- Definition `Fits`: a chain whose elements can be addressed.
- Class `SafeChain`: what safety asks for beyond the laws of chains.
- Theorems `addInto_keeps`, `addAssign_keeps` and `scaleAssign_keeps`: the
  operations in place.
- The instances for both kinds of chains.
-/

namespace RingShamir

open ResidueChain

/-- The bytes of an element of the highest level can be addressed. -/
def Fits {C E L : Type} [ResidueChain C E L] [ChainLayout C L] (c : C) : Prop :=
  8 * degree c * (moduli c).length < Word.addressLimit

/-- Elements that erasing keeps well formed. -/
class ErasableElement (E : Type) [ResidueElement E] [ReducedElement E] : Prop where
  /-- Erasing keeps elements valid. -/
  valid_erase {a : E} : Valid a → Valid (ResidueElement.erase a)

/-- Chains over which elements are made safely. -/
class SafeChain (C : Type) (E L : outParam Type) [ResidueElement E] [ResidueChain C E L]
    [ReducedElement E] [ChainView C E] [ChainLayout C L] : Prop where
  /-- The zero element of a level is made, or the chain does not have the level. -/
  zeroAt_ensures {c : C} : Built c → Fits c → ∀ l, (zeroAt c l).Ensures Valid
  /-- A uniform element of a level is made, or the chain does not have the level. -/
  randomAt_keeps {c : C} : Built c → Fits c → ∀ l,
    Action.Keeps (fun _ => True) (randomAt c l) Valid
  /-- Bytes encode a valid element, or they are refused. -/
  decode_ensures {c : C} : Built c → Fits c → ∀ bytes l, (decode c bytes l).Ensures Valid
  /-- An element that is not on the chain is not multiplied. -/
  run_scaleAssign_fault {c : C} {a : E} (s : Scalar) : (¬∃ l, levelOf c a = .ok l) →
    ∃ err, EStateM.run (scaleAssign c s) a = .error (.failure err) a

/-! ## Operations in place -/

section Operations

variable {C E L : Type} [ResidueElement E] [ResidueChain C E L] [ReducedElement E]
  [ChainView C E] [LawfulChain C E L] {c : C} {a b : E}

theorem levelOf_ensures (c : C) (e : E) : (levelOf c e).Ensures fun _ => True := by
  rcases LawfulChain.levelOf_cases c e with ⟨l, hl⟩ | hl
  · exact Outcome.ensures_of_eq_ok hl trivial
  · exact hl ▸ Outcome.ensures_failure _

theorem addInto_keeps (hc : Built c) (ha : Valid a) (hb : Valid b) :
    Action.Keeps Valid (addInto c a b) fun _ => True := by
  apply Action.keeps_of_cases
  intro out hout
  by_cases hlevel : ∃ l, levelOf c a = .ok l ∧ levelOf c b = .ok l ∧ levelOf c out = .ok l
  · rcases hlevel with ⟨l, hal, hbl, hol⟩
    obtain ⟨e, he, hat, -⟩ := LawfulChain.run_addInto hc ⟨ha, hal⟩ ⟨hb, hbl⟩ ⟨hout, hol⟩
    exact .inl ⟨(), e, he, hat.valid, trivial⟩
  · obtain ⟨err, herr, -⟩ := LawfulChain.run_addInto_fault hlevel
    exact .inr ⟨err, out, herr, hout⟩

theorem addAssign_keeps (hc : Built c) (hb : Valid b) :
    Action.Keeps Valid (addAssign c b) fun _ => True := by
  apply Action.keeps_of_cases
  intro a ha
  by_cases hlevel : ∃ l, levelOf c a = .ok l ∧ levelOf c b = .ok l
  · rcases hlevel with ⟨l, hal, hbl⟩
    obtain ⟨e, he, hat, -⟩ := LawfulChain.run_addAssign hc ⟨ha, hal⟩ ⟨hb, hbl⟩
    exact .inl ⟨(), e, he, hat.valid, trivial⟩
  · obtain ⟨err, herr, -⟩ := LawfulChain.run_addAssign_fault hlevel
    exact .inr ⟨err, a, herr, ha⟩

theorem scaleAssign_keeps [ChainLayout C L] [SafeChain C E L] {s : Scalar} (hc : Built c)
    (hs : s.Reduced (moduli c)) : Action.Keeps Valid (scaleAssign c s) fun _ => True := by
  apply Action.keeps_of_cases
  intro a ha
  by_cases hlevel : ∃ l, levelOf c a = .ok l
  · rcases hlevel with ⟨l, hl⟩
    obtain ⟨e, he, hat, -⟩ :=
      LawfulChain.run_scaleAssign hc ⟨ha, hl⟩ hs.length_eq hs.reducedLimbs
    exact .inl ⟨(), e, he, hat.valid, trivial⟩
  · obtain ⟨err, herr⟩ := SafeChain.run_scaleAssign_fault s hlevel
    exact .inr ⟨err, a, herr, ha⟩

end Operations

/-! ## Bases of levels -/

namespace RnsBasis

variable {a b : RnsBasis}

theorem Addressable.of_prefix (hb : b.Addressable) (ha : a.Built) (h : a.isPrefixOf b = true) :
    a.Addressable := by
  refine ⟨ha, lt_of_le_of_lt ?_ hb.size_lt⟩
  rw [RnsPoly.encodedSize, RnsPoly.encodedSize, ((isPrefixOf_iff a b).mp h).1]
  exact Nat.mul_le_mul_left _ (ha.operators_prefix hb.built h).length_le

/-- The basis of a level is found, or there is no such level. -/
theorem Addressable.atLevel_ensures (hb : b.Addressable) (l : Nat) :
    (b.atLevel l).Ensures fun r => r.Addressable := by
  rcases Nat.lt_or_ge b.level l with hlt | hle
  · rw [atLevel, if_pos hlt]
    exact Outcome.ensures_failure _
  · obtain ⟨r, hr, -⟩ := hb.built.atLevel hle
    obtain ⟨hbuilt, hprefix, -⟩ := hb.built.of_atLevel hr
    exact Outcome.ensures_of_eq_ok hr (hb.of_prefix hbuilt hprefix)

end RnsBasis

/-! ## The chain of a single basis -/

namespace PlainChain

variable {c : PlainChain} {a : RnsPoly} {l : Nat}

theorem addressable_of_fits (hc : c.basis.Built) (hfits : Fits c) : c.basis.Addressable :=
  ⟨hc, hfits⟩

theorem valid_of_randomAt {s s' : WordStream} (hc : c.basis.Built)
    (h : EStateM.run (c.randomAt l) s = .ok a s') : a.Valid := by
  rcases Action.run_bind_eq_ok.mp h with ⟨b, _, hlift, hrandom⟩
  obtain ⟨hb, rfl⟩ := Action.run_lift_eq_ok.mp hlift
  exact RnsPoly.valid_of_random (hc.of_atLevel hb).1 hrandom

theorem valid_of_decode {bytes : List UInt8} (hc : c.basis.Built)
    (h : c.decode bytes l = .ok a) : a.Valid := by
  rcases Outcome.bind_eq_ok.mp h with ⟨b, hb, hdecode⟩
  exact RnsPoly.valid_of_decode (hc.of_atLevel hb).1 hdecode

instance : ErasableElement RnsPoly where
  valid_erase ha := RnsPoly.valid_erase ha

instance : SafeChain PlainChain RnsPoly Nat where
  zeroAt_ensures hc hfits l :=
    ((addressable_of_fits hc hfits).atLevel_ensures l).bind fun _ hb => RnsPoly.zero_ensures hb
  randomAt_keeps hc hfits l :=
    (Action.keeps_lift ((addressable_of_fits hc hfits).atLevel_ensures l)).bind fun _ hb =>
      RnsPoly.random_keeps hb
  decode_ensures hc hfits bytes l :=
    ((addressable_of_fits hc hfits).atLevel_ensures l).bind fun _ hb =>
      RnsPoly.decode_ensures hb bytes
  run_scaleAssign_fault {c a} s hlevel := by
    rcases levelOf_ok_or_invalid c a with hok | hinvalid
    · exact absurd hok hlevel
    · refine ⟨.invalidContext, ?_⟩
      change EStateM.run (c.scaleAssign s) a = _
      simp [scaleAssign, hinvalid]

end PlainChain

/-! ## The chain of two bases -/

namespace ExtendedChain

variable {c : ExtendedChain} {a : ExtendedPoly} {l : Nat × Option Nat}
  {bases : RnsBasis × Option RnsBasis}

/-- Both bases can be addressed where the whole chain can. -/
theorem addressable_of_fits (hc : c.Built) (hfits : Fits c) :
    c.main.Addressable ∧ ∀ p ∈ c.aux, RnsBasis.Addressable p := by
  have hlength : c.operators.length =
      c.main.operators.length + ((c.aux.map (·.operators)).getD []).length := by
    rw [hc.operators_eq, List.length_append]
  have hsize : 8 * c.main.degree * c.operators.length < Word.addressLimit := hfits
  rw [hlength, Nat.mul_add] at hsize
  constructor
  · refine ⟨hc.main, ?_⟩
    rw [RnsPoly.encodedSize]
    omega
  · intro p hp
    refine ⟨hc.aux p hp, ?_⟩
    rw [Option.mem_def.mp hp, Option.map_some, Option.getD_some] at hsize
    rw [RnsPoly.encodedSize, hc.degree_aux hp]
    omega

/-- The bases of a level are found, or the chain does not have the level. -/
theorem basesAt_ensures (hc : c.Built) (hfits : Fits c) (l : Nat × Option Nat) :
    (c.basesAt l).Ensures fun bases =>
      bases.1.Addressable ∧ ∀ b ∈ bases.2, RnsBasis.Addressable b := by
  obtain ⟨hmain, haux⟩ := addressable_of_fits hc hfits
  unfold basesAt
  refine (hmain.atLevel_ensures l.1).bind fun main hmain => ?_
  split
  next p lp hp _ =>
      refine ((haux p hp).atLevel_ensures lp).bind fun b hb => Outcome.ensures_ok ⟨hmain, ?_⟩
      simpa using hb
  next => exact Outcome.ensures_ok ⟨hmain, by simp⟩
  next => exact Outcome.ensures_failure _

theorem zeroAt_ensures (hc : c.Built) (hfits : Fits c) (l : Nat × Option Nat) :
    (c.zeroAt l).Ensures ExtendedPoly.Valid := by
  refine (basesAt_ensures hc hfits l).bind fun bases ⟨hmain, haux⟩ => ?_
  refine (RnsPoly.zero_ensures hmain).bind fun q hq => ?_
  split
  next => exact Outcome.ensures_ok ⟨hq, by simp⟩
  next b hb =>
      refine (RnsPoly.zero_ensures (haux b hb)).bind fun p hp => Outcome.ensures_ok ⟨hq, ?_⟩
      simpa using hp

theorem randomAt_keeps (hc : c.Built) (hfits : Fits c) (l : Nat × Option Nat) :
    Action.Keeps (fun _ => True) (c.randomAt l) ExtendedPoly.Valid := by
  refine (Action.keeps_lift (basesAt_ensures hc hfits l)).bind fun bases ⟨hmain, haux⟩ => ?_
  refine (RnsPoly.random_keeps hmain).bind fun q hq => ?_
  split
  next => exact Action.keeps_pure ⟨hq, by simp⟩
  next b hb =>
      refine (RnsPoly.random_keeps (haux b hb)).bind fun p hp => Action.keeps_pure ⟨hq, ?_⟩
      simpa using hp

theorem decode_ensures (hc : c.Built) (hfits : Fits c) (bytes : List UInt8)
    (l : Nat × Option Nat) : (c.decode bytes l).Ensures ExtendedPoly.Valid := by
  refine (basesAt_ensures hc hfits l).bind fun bases ⟨hmain, haux⟩ => ?_
  have hsize : RnsPoly.encodedSize bases.1 < UInt64.size :=
    hmain.size_lt.trans (by simp [Word.addressLimit, UInt64.size])
  simp only [Outcome.require_of hsize, Outcome.ok_bind]
  split
  · exact Outcome.ensures_failure _
  · refine (RnsPoly.decode_ensures hmain _).bind fun q hq => ?_
    split
    next b hb =>
        refine (RnsPoly.decode_ensures (haux b hb) _).bind fun p hp =>
          Outcome.ensures_ok ⟨hq, ?_⟩
        simpa using hp
    next =>
        split
        · exact Outcome.ensures_ok ⟨hq, by simp⟩
        · exact Outcome.ensures_failure _

theorem built_of_basesAt (hc : c.Built) (h : c.basesAt l = .ok bases) :
    bases.1.Built ∧ ∀ b ∈ bases.2, RnsBasis.Built b := by
  obtain ⟨hmain, haux⟩ := basesAt_eq_ok.mp h
  refine ⟨(hc.main.of_atLevel hmain).1, ?_⟩
  intro b hb
  rcases haux with ⟨-, -, hnone⟩ | ⟨p, lp, r, hp, -, hr, hat⟩
  · rw [hnone] at hb
    cases hb
  · rw [hr] at hb
    obtain rfl := Option.some.inj hb
    exact ((hc.aux p hp).of_atLevel hat).1

theorem valid_of_randomAt {s s' : WordStream} (hc : c.Built)
    (h : EStateM.run (c.randomAt l) s = .ok a s') : a.Valid := by
  rcases Action.run_bind_eq_ok.mp h with ⟨bases, _, hlift, hparts⟩
  obtain ⟨hbases, rfl⟩ := Action.run_lift_eq_ok.mp hlift
  obtain ⟨hmain, haux⟩ := built_of_basesAt hc hbases
  rcases Action.run_bind_eq_ok.mp hparts with ⟨q, _, hq, h⟩
  have hqvalid := RnsPoly.valid_of_random hmain hq
  split at h
  next =>
      cases h
      exact ⟨hqvalid, by simp⟩
  next b hb =>
      rcases Action.run_bind_eq_ok.mp h with ⟨p, _, hp, h⟩
      cases h
      exact ⟨hqvalid, by simpa using RnsPoly.valid_of_random (haux b hb) hp⟩

theorem valid_of_decode {bytes : List UInt8} (hc : c.Built) (h : c.decode bytes l = .ok a) :
    a.Valid := by
  rcases Outcome.bind_eq_ok.mp h with ⟨bases, hbases, h⟩
  obtain ⟨hmain, haux⟩ := built_of_basesAt hc hbases
  rcases Outcome.bind_eq_ok.mp h with ⟨_, -, h⟩
  dsimp only at h
  split at h
  · cases h
  · rcases Outcome.bind_eq_ok.mp h with ⟨q, hq, h⟩
    have hqvalid := RnsPoly.valid_of_decode hmain hq
    split at h
    next b hb =>
        rcases Outcome.bind_eq_ok.mp h with ⟨p, hp, h⟩
        cases h
        exact ⟨hqvalid, by simpa using RnsPoly.valid_of_decode (haux b hb) hp⟩
    next =>
        split at h
        · cases h
          exact ⟨hqvalid, by simp⟩
        · cases h

theorem valid_erase (ha : a.Valid) : a.erase.Valid := by
  refine ⟨RnsPoly.valid_erase ha.main, ?_⟩
  intro p hp
  rcases Option.map_eq_some_iff.mp hp with ⟨r, hr, rfl⟩
  exact RnsPoly.valid_erase (ha.aux r hr)

instance : ErasableElement ExtendedPoly where
  valid_erase ha := valid_erase ha

instance : SafeChain ExtendedChain ExtendedPoly (Nat × Option Nat) where
  zeroAt_ensures := zeroAt_ensures
  randomAt_keeps := randomAt_keeps
  decode_ensures := decode_ensures
  run_scaleAssign_fault {c a} s hlevel := by
    rcases levelOf_ok_or_invalid c a with hok | hinvalid
    · exact absurd hok hlevel
    · refine ⟨.invalidContext, ?_⟩
      change EStateM.run (c.scaleAssign s) a = _
      simp [scaleAssign, hinvalid]

end ExtendedChain

end RingShamir
