import RingShamir.Chain.Extended
import RingShamir.Proofs.Chain.Lawful
import RingShamir.Proofs.Chain.Part

/-!
# Laws of the chain of two bases

An element of the chain has a part over the main basis and, exactly when the
chain has an auxiliary basis, one over it.  The positions of the auxiliary
moduli follow those of all the main ones.

Main results:

- Theorem `elementAt_iff`: elements at a level are pairs of parts.
- The instance of the laws of chains.
-/

namespace RingShamir

namespace ExtendedPoly

/-- Both parts are valid. -/
structure Valid (a : ExtendedPoly) : Prop where
  /-- The main part is valid. -/
  main : a.main.Valid
  /-- The auxiliary part is valid. -/
  aux : ∀ p ∈ a.aux, RnsPoly.Valid p

end ExtendedPoly

namespace ExtendedChain

open ResidueChain

variable {c : ExtendedChain} {a b out : ExtendedPoly} {l : Nat × Option Nat}

/-- A chain that was made of two bases which were made of their moduli. -/
structure Built (c : ExtendedChain) : Prop where
  /-- The main basis was made of its moduli. -/
  main : c.main.Built
  /-- The auxiliary basis was made of its moduli. -/
  aux : ∀ p ∈ c.aux, RnsBasis.Built p
  /-- The chain was made of its bases. -/
  ofBases : ofBases c.main c.aux = .ok c

/-- The coefficient of an element for a modulus of the whole chain. -/
def coefficient (c : ExtendedChain) (a : ExtendedPoly) (i j : Nat) : UInt64 :=
  if i < c.main.operators.length then a.main.coefficient i j
  else (a.aux.map fun p => p.coefficient (i - c.main.operators.length) j).getD 0

end ExtendedChain

instance : ReducedElement ExtendedPoly where
  Valid := ExtendedPoly.Valid

instance : ChainView ExtendedChain ExtendedPoly where
  Built := ExtendedChain.Built
  coefficient := ExtendedChain.coefficient

namespace ExtendedChain

open ResidueChain

variable {c : ExtendedChain} {a b out : ExtendedPoly} {l : Nat × Option Nat}

/-! ## Positions -/

/-- A chain that is made of two bases has them. -/
theorem built_of_ofBases {main : RnsBasis} {aux : Option RnsBasis} (hmain : main.Built)
    (haux : ∀ p ∈ aux, RnsBasis.Built p) (h : ofBases main aux = .ok c) :
    c.Built ∧ c.main = main ∧ c.aux = aux := by
  have hparts : c.main = main ∧ c.aux = aux := by
    cases aux with
    | none =>
        obtain rfl := Except.ok.inj h
        exact ⟨rfl, rfl⟩
    | some p =>
        unfold ofBases at h
        simp only at h
        split at h
        · cases h
        · split at h
          · cases h
          · obtain rfl := Except.ok.inj h
            exact ⟨rfl, rfl⟩
  rcases hparts with ⟨rfl, rfl⟩
  exact ⟨⟨hmain, haux, h⟩, rfl, rfl⟩

theorem Built.operators_eq (hc : c.Built) :
    c.operators = c.main.operators ++ (c.aux.map (·.operators)).getD [] := by
  rcases c with ⟨main, aux, operators⟩
  have h := hc.ofBases
  cases aux with
  | none =>
      simp only [ExtendedChain.ofBases, Outcome.pure_eq_ok, Except.ok.injEq, mk.injEq] at h
      simp [h.2.2]
  | some p =>
      simp only [ExtendedChain.ofBases] at h
      split at h
      · cases h
      · split at h
        · cases h
        · simp only [Outcome.pure_eq_ok, Except.ok.injEq, mk.injEq] at h
          simp [h.2.2]

/-- A position of a modulus of the chain is one of the main basis, or it follows
them and is one of the auxiliary basis. -/
theorem Built.position_cases (hc : c.Built) {i : Nat} {q : Modulus}
    (hq : c.operators[i]? = some q) :
    c.main.operators[i]? = some q ∨ ∃ k p, i = c.main.operators.length + k ∧
      c.aux = some p ∧ p.operators[k]? = some q := by
  rw [hc.operators_eq] at hq
  rcases Nat.lt_or_ge i c.main.operators.length with hi | hi
  · left
    rwa [List.getElem?_append_left hi] at hq
  · right
    rw [List.getElem?_append_right hi] at hq
    cases haux : c.aux with
    | none => simp [haux] at hq
    | some p =>
        refine ⟨i - c.main.operators.length, p, by omega, rfl, ?_⟩
        simpa [haux] using hq

theorem Built.operators_main (hc : c.Built) {i : Nat} {q : Modulus}
    (hq : c.main.operators[i]? = some q) : c.operators[i]? = some q := by
  rw [hc.operators_eq, List.getElem?_append_left (List.getElem?_eq_some_iff.mp hq).1, hq]

theorem Built.operators_aux (hc : c.Built) {k : Nat} {p : RnsBasis} {q : Modulus}
    (hp : c.aux = some p) (hq : p.operators[k]? = some q) :
    c.operators[c.main.operators.length + k]? = some q := by
  rw [hc.operators_eq, List.getElem?_append_right (by omega), hp]
  simpa using hq

/-- The moduli of the chain suit Montgomery arithmetic. -/
theorem Built.suitable (hc : c.Built) : ∀ q ∈ c.operators, q.Suitable := by
  intro q hq
  rcases List.mem_iff_getElem?.mp hq with ⟨i, hi⟩
  rcases hc.position_cases hi with hq | ⟨k, basis, -, hbasis, hq⟩
  · exact hc.main.suitable q (List.mem_of_getElem? hq)
  · exact (hc.aux basis hbasis).suitable q (List.mem_of_getElem? hq)

theorem coefficient_main {i : Nat} {q : Modulus} (hq : c.main.operators[i]? = some q)
    (a : ExtendedPoly) (j : Nat) : c.coefficient a i j = a.main.coefficient i j :=
  if_pos (List.getElem?_eq_some_iff.mp hq).1

theorem coefficient_aux {p : RnsPoly} (hp : a.aux = some p) (k j : Nat) :
    c.coefficient a (c.main.operators.length + k) j = p.coefficient k j := by
  rw [coefficient, if_neg (by omega), hp]
  simp

/-! ## Levels -/

/-- An auxiliary part at a level, which is there exactly when the basis is. -/
inductive AuxAt : Option RnsBasis → Option Nat → Option RnsPoly → Prop
  | absent : AuxAt none none none
  | present {basis : RnsBasis} {p : RnsPoly} (h : p.PartOf basis) :
      AuxAt (some basis) (some p.level) (some p)

theorem auxAt_cases {basis : Option RnsBasis} {la : Option Nat} {p : Option RnsPoly}
    (h : AuxAt basis la p) : (basis = none ∧ la = none ∧ p = none) ∨
      ∃ b r, basis = some b ∧ la = some r.level ∧ p = some r ∧ r.PartOf b := by
  cases h with
  | absent => exact .inl ⟨rfl, rfl, rfl⟩
  | present h => exact .inr ⟨_, _, rfl, rfl, rfl, h⟩

/-- An element is on the chain when its parts live over prefixes of the bases. -/
theorem levelOf_eq_ok : c.levelOf a = .ok l ↔
    (a.main.basis.isPrefixOf c.main = true ∧ a.main.level = l.1) ∧
      ((c.aux = none ∧ l.2 = none ∧ a.aux = none) ∨ ∃ p r, c.aux = some p ∧
        l.2 = some r.level ∧ a.aux = some r ∧ r.basis.isPrefixOf p = true) := by
  constructor
  · intro h
    unfold levelOf at h
    split at h
    · cases h
    · next hfirst =>
        rw [Bool.not_eq_true, Bool.not_eq_false'] at hfirst
        split at h
        · next p r hp hr =>
            split at h
            · next hprefix =>
                cases h
                exact ⟨⟨hfirst, rfl⟩, .inr ⟨p, r, hp, by rw [ExtendedPoly.level_aux, hr]; rfl,
                  hr, hprefix⟩⟩
            · cases h
        · next hp hr =>
            cases h
            exact ⟨⟨hfirst, rfl⟩, .inl ⟨hp, by rw [ExtendedPoly.level_aux, hr]; rfl, hr⟩⟩
        · cases h
  · rintro ⟨⟨hfirst, hlevel⟩, hparts⟩
    rw [levelOf, if_neg (by simp [hfirst])]
    rcases hparts with ⟨hp, hla, hr⟩ | ⟨p, r, hp, hla, hr, hprefix⟩
    · have hl : a.level = l := Prod.ext hlevel (by rw [ExtendedPoly.level_aux, hr, hla]; rfl)
      simp only [hp, hr, hl, Outcome.pure_eq_ok]
    · have hl : a.level = l := Prod.ext hlevel (by rw [ExtendedPoly.level_aux, hr, hla]; rfl)
      simp only [hp, hr, hprefix, if_true, hl, Outcome.pure_eq_ok]

/-- Elements at a level are pairs of parts. -/
theorem elementAt_iff :
    ElementAt c l a ↔ a.main.PartOf c.main ∧ a.main.level = l.1 ∧ AuxAt c.aux l.2 a.aux := by
  constructor
  · rintro ⟨⟨hmain, haux⟩, hlevelOf⟩
    obtain ⟨⟨hfirst, hlevel⟩, hparts⟩ := levelOf_eq_ok.mp hlevelOf
    refine ⟨⟨hmain, hfirst⟩, hlevel, ?_⟩
    rcases hparts with ⟨hbasis, hl, hp⟩ | ⟨basis, p, hbasis, hl, hp, hprefix⟩
    · rw [hbasis, hl, hp]
      exact .absent
    · rw [hbasis, hl, hp]
      exact .present ⟨haux p hp, hprefix⟩
  · rintro ⟨hpart, hlevel, haux⟩
    rcases auxAt_cases haux with ⟨hbasis, hl, hp⟩ | ⟨basis, p, hbasis, hl, hp, hppart⟩
    · refine ⟨⟨hpart.valid, by simp [hp]⟩, levelOf_eq_ok.mpr ⟨⟨hpart.isPrefix, hlevel⟩, ?_⟩⟩
      exact .inl ⟨hbasis, hl, hp⟩
    · refine ⟨⟨hpart.valid, by simp [hp, hppart.valid]⟩,
        levelOf_eq_ok.mpr ⟨⟨hpart.isPrefix, hlevel⟩, ?_⟩⟩
      exact .inr ⟨basis, p, hbasis, hl, hp, hppart.isPrefix⟩

theorem levelOf_ok_or_invalid (c : ExtendedChain) (a : ExtendedPoly) :
    (∃ l, c.levelOf a = .ok l) ∨ c.levelOf a = .error (.failure .invalidContext) := by
  unfold levelOf
  repeat' split
  all_goals first
    | exact .inl ⟨_, rfl⟩
    | exact .inr rfl

/-- Of two auxiliary parts at one level both are absent or both are present. -/
theorem auxAt_pair_cases {basis : Option RnsBasis} {la : Option Nat} {p r : Option RnsPoly}
    (hp : AuxAt basis la p) (hr : AuxAt basis la r) :
    (basis = none ∧ la = none ∧ p = none ∧ r = none) ∨ ∃ b p' r', basis = some b ∧
      la = some p'.level ∧ p'.level = r'.level ∧ p = some p' ∧ r = some r' ∧
        p'.PartOf b ∧ r'.PartOf b := by
  cases hp with
  | absent =>
      cases hr
      exact .inl ⟨rfl, rfl, rfl, rfl⟩
  | @present b p' hp =>
      rcases auxAt_cases hr with ⟨hnone, -⟩ | ⟨_, r', hsome, hlevel, hr, hrpart⟩
      · cases hnone
      · cases hsome
        exact .inr ⟨b, p', r', rfl, rfl, Option.some.inj hlevel, rfl, hr, hp, hrpart⟩

/-! ## Coefficients -/

theorem coefficient_lt {i : Nat} {q : Modulus} (hc : c.Built) (ha : ElementAt c l a)
    (hq : c.operators[i]? = some q) (j : Nat) : c.coefficient a i j < q.value := by
  rcases elementAt_iff.mp ha with ⟨hpart, -, haux⟩
  rcases hc.position_cases hq with hq | ⟨k, basis, rfl, hbasis, hq⟩
  · rw [coefficient_main hq]
    exact hpart.coefficient_lt hc.main hq j
  · rcases auxAt_cases haux with ⟨hnone, -⟩ | ⟨basis', p, hsome, -, hp, hppart⟩
    · rw [hbasis] at hnone
      cases hnone
    · obtain rfl := Option.some.inj (hbasis.symm.trans hsome)
      rw [coefficient_aux hp]
      exact hppart.coefficient_lt (hc.aux basis hbasis) hq j

/-- Coefficients determine an element at a level. -/
theorem ext (hc : c.Built) (ha : ElementAt c l a) (hb : ElementAt c l b)
    (h : ∀ (i : Nat) (q : Modulus) (j : Nat), c.operators[i]? = some q →
      c.coefficient a i j = c.coefficient b i j) : a = b := by
  rcases elementAt_iff.mp ha with ⟨hpart, hlevel, haux⟩
  rcases elementAt_iff.mp hb with ⟨hbpart, hblevel, hbaux⟩
  have hmain : a.main = b.main := by
    apply hpart.ext hc.main hbpart (hlevel.trans hblevel.symm)
    intro i q j hq
    have hentry := h i q j (hc.operators_main hq)
    rwa [coefficient_main hq, coefficient_main hq] at hentry
  have hauxiliary : a.aux = b.aux := by
    rcases auxAt_pair_cases haux hbaux with
      ⟨-, -, hp, hr⟩ | ⟨basis, p, r, hbasis, -, hlevels, hp, hr, hppart, hrpart⟩
    · rw [hp, hr]
    · have hparts : p = r := by
        apply hppart.ext (hc.aux basis hbasis) hrpart hlevels
        intro k q j hq
        have hentry := h _ q j (hc.operators_aux hbasis hq)
        rwa [coefficient_aux hp, coefficient_aux hr] at hentry
      rw [hp, hr, hparts]
  cases a
  cases b
  simp only at hmain hauxiliary
  rw [hmain, hauxiliary]

/-- There are finitely many auxiliary parts at a level. -/
theorem finite_auxAt {basis : Option RnsBasis} (hbasis : ∀ p ∈ basis, RnsBasis.Built p)
    (la : Option Nat) : {p | AuxAt basis la p}.Finite := by
  cases basis with
  | none =>
      apply (Set.finite_singleton none).subset
      rintro p ⟨⟩
      rfl
  | some basis =>
      have hparts := RnsPoly.PartOf.finite (hbasis basis rfl) (la.getD 0)
      apply (Set.Finite.image some hparts).subset
      rintro p ⟨⟩
      exact ⟨_, ⟨‹_›, rfl⟩, rfl⟩

theorem finite (l : Nat × Option Nat) (hc : c.Built) : Finite {a // ElementAt c l a} := by
  have hmain := RnsPoly.PartOf.finite hc.main l.1
  have haux := finite_auxAt hc.aux l.2
  have hpairs := Set.Finite.image2 ExtendedPoly.mk (Set.finite_coe_iff.mp hmain) haux
  apply (hpairs.subset ?_).to_subtype
  intro a ha
  rcases elementAt_iff.mp ha with ⟨hpart, hlevel, hauxAt⟩
  exact ⟨a.main, ⟨hpart, hlevel⟩, a.aux, hauxAt, rfl⟩

/-! ## Elements of a level -/

/-- The bases of a level have the levels that it gives, and there is an auxiliary one
when the chain has one. -/
theorem basesAt_eq_ok {bases : RnsBasis × Option RnsBasis} : c.basesAt l = .ok bases ↔
    c.main.atLevel l.1 = .ok bases.1 ∧
      ((c.aux = none ∧ l.2 = none ∧ bases.2 = none) ∨ ∃ p lp b, c.aux = some p ∧ l.2 = some lp ∧
        bases.2 = some b ∧ p.atLevel lp = .ok b) := by
  constructor
  · intro h
    simp only [basesAt, Outcome.bind_eq_ok] at h
    rcases h with ⟨main, hmain, h⟩
    split at h
    next p lp hp hlp =>
        simp only [Outcome.bind_eq_ok, Outcome.pure_eq_ok, Except.ok.injEq] at h
        rcases h with ⟨b, hb, rfl⟩
        exact ⟨hmain, .inr ⟨p, lp, b, hp, hlp, rfl, hb⟩⟩
    next hp hlp =>
        simp only [Outcome.pure_eq_ok, Except.ok.injEq] at h
        rw [← h]
        exact ⟨hmain, .inl ⟨hp, hlp, rfl⟩⟩
    next => cases h
  · rcases bases with ⟨main, aux⟩
    rintro ⟨hmain, ⟨hp, hl, haux⟩ | ⟨p, lp, b, hp, hl, haux, hb⟩⟩
    · cases haux
      simp [basesAt, hmain, hp, hl]
    · cases haux
      simp [basesAt, hmain, hp, hl, hb]

/-- The zero element of a level consists of the zero polynomials over its bases. -/
theorem zeroAt_eq_ok {z : ExtendedPoly} (h : c.zeroAt l = .ok z) :
    ∃ bases, c.basesAt l = .ok bases ∧
      (RnsPoly.zero bases.1 : Outcome RingError _) = .ok z.main ∧
        ((bases.2 = none ∧ z.aux = none) ∨ ∃ b p, bases.2 = some b ∧ z.aux = some p ∧
          (RnsPoly.zero b : Outcome RingError _) = .ok p) := by
  simp only [zeroAt, Outcome.bind_eq_ok] at h
  rcases h with ⟨bases, hbases, q, hq, h⟩
  refine ⟨bases, hbases, ?_⟩
  split at h
  next haux =>
      simp only [Outcome.pure_eq_ok, Except.ok.injEq] at h
      rw [← h]
      exact ⟨hq, .inl ⟨haux, rfl⟩⟩
  next b haux =>
      simp only [Outcome.bind_eq_ok, Outcome.pure_eq_ok, Except.ok.injEq] at h
      rcases h with ⟨p, hp, rfl⟩
      exact ⟨hq, .inr ⟨b, p, haux, rfl, hp⟩⟩

theorem of_zeroAt {z : ExtendedPoly} (hc : c.Built) (h : c.zeroAt l = .ok z) :
    ElementAt c l z ∧ ∀ i j, c.coefficient z i j = 0 := by
  obtain ⟨bases, hbases, hmainzero, hauxzero⟩ := zeroAt_eq_ok h
  obtain ⟨hmain, haux⟩ := basesAt_eq_ok.mp hbases
  obtain ⟨hpart, hlevel, hzero⟩ := RnsPoly.PartOf.of_zero hc.main hmain hmainzero
  rcases haux with ⟨hnone, hla, hb⟩ | ⟨p, lp, b, hp, hla, hb, hat⟩
  · rcases hauxzero with ⟨-, hz⟩ | ⟨b, r, hb', -⟩
    · refine ⟨elementAt_iff.mpr ⟨hpart, hlevel, ?_⟩, ?_⟩
      · rw [hnone, hla, hz]
        exact .absent
      · intro i j
        rw [coefficient, hz, hzero]
        simp
    · rw [hb] at hb'
      cases hb'
  · rcases hauxzero with ⟨hb', -⟩ | ⟨b', r, hb', hz, hr⟩
    · rw [hb] at hb'
      cases hb'
    · obtain rfl := Option.some.inj (hb.symm.trans hb')
      obtain ⟨hrpart, hrlevel, hrzero⟩ :=
        RnsPoly.PartOf.of_zero (hc.aux p hp) hat hr
      refine ⟨elementAt_iff.mpr ⟨hpart, hlevel, ?_⟩, ?_⟩
      · rw [hp, hla, hz, ← hrlevel]
        exact .present hrpart
      · intro i j
        rw [coefficient, hz, hzero, Option.map_some, hrzero]
        simp

/-- The bases of a level are those of the elements at the level. -/
theorem basesAt_of_elementAt (hc : c.Built) (ha : ElementAt c l a) :
    c.basesAt l = .ok (a.main.basis, a.aux.map (·.basis)) := by
  rcases elementAt_iff.mp ha with ⟨hpart, hlevel, haux⟩
  have hmain := hpart.atLevel hc.main
  rw [hlevel] at hmain
  rcases auxAt_cases haux with ⟨hnone, hla, hp⟩ | ⟨basis, p, hbasis, hla, hp, hppart⟩
  · simp [basesAt, hmain, hnone, hla, hp]
  · simp [basesAt, hmain, hbasis, hla, hp, hppart.atLevel (hc.aux basis hbasis)]

/-- An element is read back from its bytes: the main part is cut off at its own
size, and the rest encodes the auxiliary part. -/
theorem decode_encode_of_fits (hc : c.Built) (ha : ElementAt c l a)
    (hmain : RnsPoly.encodedSize a.main.basis < UInt64.size)
    (haux : ∀ p ∈ a.aux, RnsPoly.encodedSize p.basis < UInt64.size) :
    c.decode a.encode l = .ok a := by
  have hvalid : a.Valid := ha.valid
  have hfirst := RnsPoly.decode_encode hvalid.main hmain
  simp only [decode, basesAt_of_elementAt hc ha, Outcome.ok_bind, Outcome.require_of hmain]
  rcases a with ⟨main, aux⟩
  have hsize : main.encode.length = RnsPoly.encodedSize main.basis := hvalid.main.length_encode
  cases aux with
  | none =>
      have hbytes : ExtendedPoly.encode ⟨main, none⟩ = main.encode := List.append_nil _
      rw [hbytes, hsize, if_neg (lt_irrefl _), List.take_of_length_le hsize.le, hfirst,
        List.drop_of_length_le hsize.le]
      rfl
  | some p =>
      have hbytes : ExtendedPoly.encode ⟨main, some p⟩ = main.encode ++ p.encode := rfl
      have hlength : ¬(main.encode ++ p.encode).length < RnsPoly.encodedSize main.basis := by
        rw [List.length_append, hsize]
        omega
      have hsecond := RnsPoly.decode_encode (hvalid.aux p rfl) (haux p rfl)
      rw [hbytes, if_neg hlength, List.take_left' hsize, List.drop_left' hsize, hfirst]
      simp only [Outcome.ok_bind, Option.map_some, hsecond, Outcome.pure_eq_ok]

theorem decode_encode {z : ExtendedPoly} (hc : c.Built) (ha : ElementAt c l a)
    (h : c.zeroAt l = .ok z) : c.decode a.encode l = .ok a := by
  obtain ⟨bases, hbases, hmain, haux⟩ := zeroAt_eq_ok h
  obtain rfl : (a.main.basis, a.aux.map (·.basis)) = bases :=
    Except.ok.inj ((basesAt_of_elementAt hc ha).symm.trans hbases)
  apply decode_encode_of_fits hc ha (RnsPoly.encodedSize_lt_of_zero hmain)
  intro p hp
  rcases haux with ⟨hnone, -⟩ | ⟨b, r, hb, -, hr⟩
  · rw [Option.mem_def.mp hp] at hnone
    cases hnone
  · rw [Option.mem_def.mp hp] at hb
    obtain rfl := Option.some.inj hb
    exact RnsPoly.encodedSize_lt_of_zero hr

/-! ## Operations -/

/-- The limbs of a scalar for the two parts are reduced where the scalar is. -/
theorem reducedLimbs_take {s : List UInt64} (hc : c.Built)
    (hs : RnsPoly.ReducedLimbs c.operators s) :
    RnsPoly.ReducedLimbs c.main.operators (s.take c.main.operators.length) := by
  intro i q x hq hx
  rw [List.getElem?_take_of_lt (List.getElem?_eq_some_iff.mp hq).1] at hx
  exact hs i q x (hc.operators_main hq) hx

theorem reducedLimbs_drop {s : List UInt64} (hc : c.Built) {p : RnsBasis} (hp : c.aux = some p)
    (hs : RnsPoly.ReducedLimbs c.operators s) :
    RnsPoly.ReducedLimbs p.operators (s.drop c.main.operators.length) := by
  intro k q x hq hx
  rw [List.getElem?_drop] at hx
  exact hs _ q x (hc.operators_aux hp hq) hx

/-- A scalar of the chain has enough limbs for the main part of an element. -/
theorem length_operators_le_take {s : Scalar} {p : RnsPoly} (hc : c.Built)
    (hp : p.PartOf c.main) (hlength : s.length = c.operators.length) :
    p.basis.operators.length ≤ (s.limbs.take c.main.operators.length).length := by
  have hle := hp.length_operators_le hc.main
  have hlimbs : s.limbs.length = c.operators.length := hlength
  rw [hc.operators_eq, List.length_append] at hlimbs
  rw [List.length_take]
  omega

/-- A scalar of the chain has enough limbs for the auxiliary part of an element. -/
theorem length_operators_le_drop {s : Scalar} {basis : RnsBasis} {p : RnsPoly} (hc : c.Built)
    (hbasis : c.aux = some basis) (hp : p.PartOf basis)
    (hlength : s.length = c.operators.length) :
    p.basis.operators.length ≤ (s.limbs.drop c.main.operators.length).length := by
  have hle := hp.length_operators_le (hc.aux basis hbasis)
  have hlimbs : s.limbs.length = c.operators.length := hlength
  rw [hc.operators_eq, hbasis, Option.map_some, Option.getD_some, List.length_append] at hlimbs
  rw [List.length_drop]
  omega

/-- Products at the positions of both bases are products at the positions of the
chain. -/
theorem product_of_parts {limbs : List UInt64} {e : ExtendedPoly} (hc : c.Built)
    (hmain : ∀ (i : Nat) (q : Modulus) (x : UInt64) (j : Nat), c.main.operators[i]? = some q →
      (limbs.take c.main.operators.length)[i]? = some x → q.residue (e.main.coefficient i j) =
        q.residue (a.main.coefficient i j) * q.montgomeryResidue x)
    (haux : ∀ basis, c.aux = some basis → ∃ p r, a.aux = some p ∧ e.aux = some r ∧
      ∀ (k : Nat) (q : Modulus) (x : UInt64) (j : Nat), basis.operators[k]? = some q →
        (limbs.drop c.main.operators.length)[k]? = some x → q.residue (r.coefficient k j) =
          q.residue (p.coefficient k j) * q.montgomeryResidue x)
    (i : Nat) (q : Modulus) (x : UInt64) (j : Nat) (hq : c.operators[i]? = some q)
    (hx : limbs[i]? = some x) :
    q.residue (c.coefficient e i j) = q.residue (c.coefficient a i j) * q.montgomeryResidue x := by
  rcases hc.position_cases hq with hq | ⟨k, basis, rfl, hbasis, hq⟩
  · rw [coefficient_main hq, coefficient_main hq]
    apply hmain i q x j hq
    rw [List.getElem?_take_of_lt (List.getElem?_eq_some_iff.mp hq).1, hx]
  · obtain ⟨p, r, hp, hr, hproduct⟩ := haux basis hbasis
    rw [coefficient_aux hp, coefficient_aux hr]
    apply hproduct k q x j hq
    rw [List.getElem?_drop, hx]

theorem run_scaleAssign {s : Scalar} (hc : c.Built) (ha : ElementAt c l a)
    (hlength : s.length = c.operators.length)
    (hs : RnsPoly.ReducedLimbs c.operators s.limbs) :
    ∃ e, EStateM.run (c.scaleAssign s) a = .ok () e ∧ ElementAt c l e ∧
      ∀ (i : Nat) (q : Modulus) (x : UInt64) (j : Nat), c.operators[i]? = some q →
        s.limbs[i]? = some x → q.residue (c.coefficient e i j) =
          q.residue (c.coefficient a i j) * q.montgomeryResidue x := by
  rcases elementAt_iff.mp ha with ⟨hpart, hlevel, haux⟩
  have hlevelOf : c.levelOf a = .ok l := ha.level
  obtain ⟨e, he, hepart, helevel, hclass⟩ := hpart.run_scaleAssign hc.main
    (length_operators_le_take hc hpart hlength) (reducedLimbs_take hc hs)
  rw [hc.main.length_operators] at he
  rcases auxAt_cases haux with ⟨hnone, hla, hp⟩ | ⟨basis, p, hbasis, hla, hp, hppart⟩
  · refine ⟨⟨e, none⟩, ?_, elementAt_iff.mpr ⟨hepart, helevel.trans hlevel, ?_⟩, ?_⟩
    · simp [scaleAssign, hlevelOf, hlength, ExtendedPoly.onMain, he, hp]
    · rw [hnone, hla]
      exact .absent
    · refine product_of_parts hc hclass ?_
      simp [hnone]
  · obtain ⟨r, hr, hrpart, hrlevel, hrclass⟩ := hppart.run_scaleAssign (hc.aux basis hbasis)
      (length_operators_le_drop hc hbasis hppart hlength) (reducedLimbs_drop hc hbasis hs)
    rw [hc.main.length_operators] at hr
    refine ⟨⟨e, some r⟩, ?_, elementAt_iff.mpr ⟨hepart, helevel.trans hlevel, ?_⟩, ?_⟩
    · simp [scaleAssign, hlevelOf, hlength, ExtendedPoly.onMain, ExtendedPoly.onAux, he, hp, hr]
    · rw [hbasis, hla, ← hrlevel]
      exact .present hrpart
    · refine product_of_parts hc hclass ?_
      intro basis' hbasis'
      obtain rfl := Option.some.inj (hbasis.symm.trans hbasis')
      exact ⟨p, r, hp, rfl, hrclass⟩

/-- A scalar of another length is refused before the element is touched, and one
of the right length has enough limbs for both parts. -/
theorem scaleAssign_atomic {s : Scalar} (hc : c.Built) (ha : a.Valid)
    (hs : RnsPoly.ReducedLimbs c.operators s.limbs) :
    Action.Atomic (c.scaleAssign s) a := by
  rcases levelOf_ok_or_invalid c a with ⟨l, hlevel⟩ | hlevel
  · by_cases hlength : s.length = c.operators.length
    · left
      obtain ⟨e, he, -⟩ := run_scaleAssign hc ⟨ha, hlevel⟩ hlength hs
      exact ⟨(), e, he⟩
    · right
      simp [scaleAssign, hlevel, hlength]
  · right
    simp [scaleAssign, hlevel]

/-- Sums at the positions of both bases are sums at the positions of the chain. -/
theorem sum_of_parts {e : ExtendedPoly} (hc : c.Built)
    (hmain : ∀ (i : Nat) (q : Modulus) (j : Nat), c.main.operators[i]? = some q →
      q.residue (e.main.coefficient i j) =
        q.residue (a.main.coefficient i j) + q.residue (b.main.coefficient i j))
    (haux : ∀ basis, c.aux = some basis → ∃ p r s, a.aux = some p ∧ b.aux = some r ∧
      e.aux = some s ∧ ∀ (k : Nat) (q : Modulus) (j : Nat), basis.operators[k]? = some q →
        q.residue (s.coefficient k j) =
          q.residue (p.coefficient k j) + q.residue (r.coefficient k j))
    (i : Nat) (q : Modulus) (j : Nat) (hq : c.operators[i]? = some q) :
    q.residue (c.coefficient e i j) =
      q.residue (c.coefficient a i j) + q.residue (c.coefficient b i j) := by
  rcases hc.position_cases hq with hq | ⟨k, basis, rfl, hbasis, hq⟩
  · rw [coefficient_main hq, coefficient_main hq, coefficient_main hq]
    exact hmain i q j hq
  · obtain ⟨p, r, s, hp, hr, hs, hsum⟩ := haux basis hbasis
    rw [coefficient_aux hp, coefficient_aux hr, coefficient_aux hs]
    exact hsum k q j hq

/-- Add the parts of two elements, the main part first. -/
def addParts (a b : ExtendedPoly) : Action RingError ExtendedPoly Unit := do
  ExtendedPoly.onMain (RnsPoly.addInto a.main b.main)
  match a.aux, b.aux, (← get).aux with
  | some ap, some bp, some op => ExtendedPoly.onAux op (RnsPoly.addInto ap bp)
  | _, _, _ => pure ()

/-- Add the parts of an element in place, the main part first. -/
def addPartsAssign (b : ExtendedPoly) : Action RingError ExtendedPoly Unit := do
  ExtendedPoly.onMain (RnsPoly.addAssign b.main)
  match (← get).aux, b.aux with
  | some ap, some bp => ExtendedPoly.onAux ap (RnsPoly.addAssign bp)
  | _, _ => pure ()

theorem addInto_eq (c : ExtendedChain) (a b : ExtendedPoly) :
    c.addInto a b = withOperandsChecked c a b (addParts a b) := rfl

theorem addAssign_eq (c : ExtendedChain) (b : ExtendedPoly) :
    c.addAssign b = withOperandChecked c b (addPartsAssign b) := rfl

theorem run_addInto (hc : c.Built) (ha : ElementAt c l a) (hb : ElementAt c l b)
    (hout : ElementAt c l out) :
    ∃ e, EStateM.run (c.addInto a b) out = .ok () e ∧ ElementAt c l e ∧
      ∀ (i : Nat) (q : Modulus) (j : Nat), c.operators[i]? = some q →
        q.residue (c.coefficient e i j) =
          q.residue (c.coefficient a i j) + q.residue (c.coefficient b i j) := by
  rw [addInto_eq, run_withOperandsChecked ha.level hb.level hout.level]
  rcases elementAt_iff.mp ha with ⟨hpart, hlevel, haux⟩
  rcases elementAt_iff.mp hb with ⟨hbpart, hblevel, hbaux⟩
  rcases elementAt_iff.mp hout with ⟨hopart, holevel, hoaux⟩
  obtain ⟨e, he, hepart, helevel, hsum⟩ :=
    hpart.run_addInto hc.main hbpart hopart (hlevel.trans hblevel.symm)
      (hlevel.trans holevel.symm)
  rcases auxAt_pair_cases haux hbaux with
    ⟨hnone, hla, hp, hr⟩ | ⟨basis, p, r, hbasis, hla, hlevels, hp, hr, hppart, hrpart⟩
  · have hs : out.aux = none := by
      rcases auxAt_pair_cases haux hoaux with ⟨-, -, -, hs⟩ | ⟨_, _, _, hbasis, -⟩
      · exact hs
      · rw [hnone] at hbasis
        cases hbasis
    refine ⟨⟨e, none⟩, ?_, elementAt_iff.mpr ⟨hepart, helevel.trans hlevel, ?_⟩, ?_⟩
    · simp [addParts, ExtendedPoly.onMain, he, hp, hs]
    · rw [hnone, hla]
      exact .absent
    · refine sum_of_parts hc hsum ?_
      simp [hnone]
  · obtain ⟨s, hs, hspart, hslevel⟩ :
        ∃ s, out.aux = some s ∧ s.PartOf basis ∧ p.level = s.level := by
      rcases auxAt_cases hoaux with ⟨hnone, -⟩ | ⟨basis', s, hbasis', hlb, hs, hspart⟩
      · rw [hnone] at hbasis
        cases hbasis
      · obtain rfl := Option.some.inj (hbasis.symm.trans hbasis')
        exact ⟨s, hs, hspart, Option.some.inj (hla.symm.trans hlb)⟩
    obtain ⟨t, ht, htpart, htlevel, htsum⟩ :=
      hppart.run_addInto (hc.aux basis hbasis) hrpart hspart hlevels hslevel
    refine ⟨⟨e, some t⟩, ?_, elementAt_iff.mpr ⟨hepart, helevel.trans hlevel, ?_⟩, ?_⟩
    · simp [addParts, ExtendedPoly.onMain, ExtendedPoly.onAux, he, hp, hr, hs, ht]
    · rw [hbasis, hla, ← htlevel]
      exact .present htpart
    · refine sum_of_parts hc hsum ?_
      intro basis' hbasis'
      obtain rfl := Option.some.inj (hbasis.symm.trans hbasis')
      exact ⟨p, r, t, hp, hr, rfl, htsum⟩

theorem run_addAssign (hc : c.Built) (ha : ElementAt c l a) (hb : ElementAt c l b) :
    ∃ e, EStateM.run (c.addAssign b) a = .ok () e ∧ ElementAt c l e ∧
      ∀ (i : Nat) (q : Modulus) (j : Nat), c.operators[i]? = some q →
        q.residue (c.coefficient e i j) =
          q.residue (c.coefficient a i j) + q.residue (c.coefficient b i j) := by
  rw [addAssign_eq, run_withOperandChecked ha.level hb.level]
  rcases elementAt_iff.mp ha with ⟨hpart, hlevel, haux⟩
  rcases elementAt_iff.mp hb with ⟨hbpart, hblevel, hbaux⟩
  obtain ⟨e, he, hepart, helevel, hsum⟩ :=
    hpart.run_addAssign (ε := RingError) hc.main hbpart (hlevel.trans hblevel.symm)
  rcases auxAt_pair_cases haux hbaux with
    ⟨hnone, hla, hp, hr⟩ | ⟨basis, p, r, hbasis, hla, hlevels, hp, hr, hppart, hrpart⟩
  · refine ⟨⟨e, none⟩, ?_, elementAt_iff.mpr ⟨hepart, helevel.trans hlevel, ?_⟩, ?_⟩
    · simp [addPartsAssign, ExtendedPoly.onMain, he, hp]
    · rw [hnone, hla]
      exact .absent
    · refine sum_of_parts hc hsum ?_
      simp [hnone]
  · obtain ⟨t, ht, htpart, htlevel, htsum⟩ :=
      hppart.run_addAssign (ε := RingError) (hc.aux basis hbasis) hrpart hlevels
    refine ⟨⟨e, some t⟩, ?_, elementAt_iff.mpr ⟨hepart, helevel.trans hlevel, ?_⟩, ?_⟩
    · simp [addPartsAssign, ExtendedPoly.onMain, ExtendedPoly.onAux, he, hp, hr, ht]
    · rw [hbasis, hla, ← htlevel]
      exact .present htpart
    · refine sum_of_parts hc hsum ?_
      intro basis' hbasis'
      obtain rfl := Option.some.inj (hbasis.symm.trans hbasis')
      exact ⟨p, r, t, hp, hr, rfl, htsum⟩

end ExtendedChain

instance : LawfulChain ExtendedChain ExtendedPoly (Nat × Option Nat) where
  suitable := ExtendedChain.Built.suitable
  levelOf_cases := ExtendedChain.levelOf_ok_or_invalid
  coefficient_lt := ExtendedChain.coefficient_lt
  ext := ExtendedChain.ext
  finite := ExtendedChain.finite
  of_zeroAt := ExtendedChain.of_zeroAt
  decode_encode := ExtendedChain.decode_encode
  run_scaleAssign := ExtendedChain.run_scaleAssign
  scaleAssign_atomic := ExtendedChain.scaleAssign_atomic
  run_addInto := ExtendedChain.run_addInto
  run_addAssign := ExtendedChain.run_addAssign
  run_addInto_fault := run_withOperandsChecked_fault (ExtendedChain.levelOf_ok_or_invalid _)
  run_addAssign_fault := run_withOperandChecked_fault (ExtendedChain.levelOf_ok_or_invalid _)

end RingShamir
