import RingShamir.Proofs.Chain.Extended
import RingShamir.Proofs.Chain.Plain
import RingShamir.Proofs.RnsPoly.Codec
import RingShamir.Proofs.Sharing.Aggregation

/-!
# Bytes of elements

At each level of a chain the elements are in bijection with the byte strings that
hold a residue for each of the moduli of the level, first those of the main basis
and then those of the auxiliary one.  The decoder accepts these strings and no
others, and it never breaks a precondition as long as the bytes can be counted by
a word.

Main results:

- Class `ChainLayout`: the moduli of the rows of the elements of a level.
- Definition `EncodingExact`: what an encoding at a level is.
- Theorem `encoding_exact`: the encodings of both kinds of chains, and the lengths
  that tell apart the levels of a single basis.
-/

namespace RingShamir

open ResidueChain RnsPoly

/-! ## Layouts -/

/-- The moduli of the first rows of a basis, if it has the level. -/
def RnsBasis.rowModuli (b : RnsBasis) (l : Nat) : Option (List Modulus) :=
  if l ≤ b.level then some (b.operators.take (l + 1)) else none

/-- The shape of the elements of a chain. -/
class ChainLayout (C : Type) (L : outParam Type) where
  /-- The number of coefficients of a row. -/
  degree : C → Nat
  /-- The moduli of the rows of an element of a level; there are none for a level
  that the chain does not have. -/
  rowModuli : C → L → Option (List Modulus)

export ChainLayout (degree rowModuli)

instance : ChainLayout PlainChain Nat where
  degree c := c.basis.degree
  rowModuli c l := c.basis.rowModuli l

instance : ChainLayout ExtendedChain (Nat × Option Nat) where
  degree c := c.main.degree
  rowModuli c l :=
    match c.aux, l.2 with
    | none, none => c.main.rowModuli l.1
    | some p, some lp => do
        let main ← c.main.rowModuli l.1
        let aux ← p.rowModuli lp
        pure (main ++ aux)
    | _, _ => none

/-- A level that a basis has is that of a basis with the moduli of its rows. -/
theorem RnsBasis.Built.atLevel_of_rowModuli {b : RnsBasis} (hb : b.Built) {l : Nat}
    {qs : List Modulus} (h : b.rowModuli l = some qs) :
    ∃ r, b.atLevel l = .ok r ∧ r.Built ∧ r.degree = b.degree ∧ r.operators = qs := by
  unfold rowModuli at h
  split at h
  next hl =>
      obtain ⟨r, hr, hbuilt, hdegree, hmoduli⟩ := hb.atLevel hl
      refine ⟨r, hr, hbuilt, hdegree, ?_⟩
      rw [← Option.some.inj h, hbuilt.operators_eq, hb.operators_eq, hmoduli, List.map_take]
  next => cases h

/-! ## Encodings at a level -/

section Encodings

variable {C E L : Type} [ResidueElement E] [ResidueChain C E L] [ReducedElement E]
  [ChainLayout C L]

/-- The encoding of the elements of a level, whose rows have given moduli. -/
structure EncodingExact (c : C) (l : L) (qs : List Modulus) : Prop where
  /-- Decoding inverts encoding. -/
  decode_eq_ok : ∀ (bytes : List UInt8) (e : E),
    decode c bytes l = .ok e ↔ ElementAt c l e ∧ ResidueElement.encode e = bytes
  /-- Decoding of shares inverts their encoding. -/
  decode_share_eq_ok : ∀ (bytes : List UInt8) (s : Share E),
    Share.decode c bytes l = .ok s ↔ ElementAt c l s.value ∧ s.encode = bytes
  /-- The bytes that are accepted hold a residue at every position. -/
  accepted_iff : ∀ bytes : List UInt8,
    (∃ e : E, decode c bytes l = .ok e) ↔ HoldsResidues (degree c) qs bytes
  /-- Other bytes are refused, and the error says that they encode no element. -/
  refused : ∀ bytes : List UInt8, ¬HoldsResidues (degree c) qs bytes →
    ∃ text, decode c bytes l = .error (.failure (.serialization text))
  /-- Elements of the level and accepted bytes correspond to each other. -/
  bijective : Set.BijOn ResidueElement.encode {e : E | ElementAt c l e}
    {bytes | HoldsResidues (degree c) qs bytes}

/-- An encoding is exact when decoding inverts it, the elements have all the bytes
that hold residues, and the decoder reports what it refuses. -/
theorem encodingExact_of_decode {c : C} {l : L} {qs : List Modulus}
    (hdecode : ∀ (bytes : List UInt8) (e : E),
      decode c bytes l = .ok e ↔ ElementAt c l e ∧ ResidueElement.encode e = bytes)
    (hbytes : ∀ bytes : List UInt8, HoldsResidues (degree c) qs bytes ↔
      ∃ e : E, ElementAt c l e ∧ ResidueElement.encode e = bytes)
    (hcases : ∀ bytes : List UInt8, (∃ e : E, decode c bytes l = .ok e) ∨
      ∃ text, decode c bytes l = .error (.failure (.serialization text))) :
    EncodingExact c l qs := by
  have haccepted : ∀ bytes : List UInt8,
      (∃ e : E, decode c bytes l = .ok e) ↔ HoldsResidues (degree c) qs bytes := by
    intro bytes
    rw [hbytes]
    exact exists_congr fun e => hdecode bytes e
  refine ⟨hdecode, ?_, haccepted, ?_, ?_, ?_, ?_⟩
  · rintro bytes ⟨e⟩
    rw [Share.encode, ← hdecode, Share.decode]
    cases decode c bytes l <;> simp
  · intro bytes hnot
    rcases hcases bytes with hok | hrefused
    · exact absurd ((haccepted bytes).mp hok) hnot
    · exact hrefused
  · intro e he
    exact (hbytes _).mpr ⟨e, he, rfl⟩
  · intro a ha b hb hab
    have hdecoded := (hdecode _ a).mpr ⟨ha, rfl⟩
    rw [hab, (hdecode _ b).mpr ⟨hb, rfl⟩] at hdecoded
    exact (Except.ok.inj hdecoded).symm
  · intro bytes h
    exact (hbytes bytes).mp h

/-- The encodings of all levels whose bytes can be counted by a word. -/
def EncodesElements (C : Type) {E L : Type} [ResidueElement E] [ResidueChain C E L]
    [ReducedElement E] [ChainView C E] [ChainLayout C L] : Prop :=
  ∀ (c : C) (l : L) (qs : List Modulus), Built c → rowModuli c l = some qs →
    8 * degree c * qs.length < UInt64.size → EncodingExact c l qs

end Encodings

/-! ## The chain of a single basis -/

namespace PlainChain

variable {c : PlainChain} {l : Nat} {qs : List Modulus}

/-- The elements at a level are the valid polynomials over its basis. -/
theorem elementAt_iff_basis (hc : c.basis.Built) {b : RnsBasis} (h : c.basis.atLevel l = .ok b)
    (a : RnsPoly) : ElementAt c l a ↔ a.Valid ∧ a.basis = b := by
  obtain ⟨hbuilt, hprefix, hlevel⟩ := hc.of_atLevel h
  rw [elementAt_iff]
  constructor
  · rintro ⟨hpart, rfl⟩
    exact ⟨hpart.valid, Except.ok.inj ((hpart.atLevel hc).symm.trans h)⟩
  · rintro ⟨hvalid, rfl⟩
    exact ⟨⟨hvalid, hprefix⟩, hlevel⟩

theorem encodes : EncodesElements PlainChain := by
  intro c l qs hc hqs hfits
  obtain ⟨b, hb, hbuilt, hdegree, rfl⟩ := RnsBasis.Built.atLevel_of_rowModuli hc hqs
  have hsize : encodedSize b < UInt64.size := by
    rw [encodedSize, hdegree]
    exact hfits
  have hdecode : ∀ bytes, ResidueChain.decode c bytes l = RnsPoly.decode b bytes := by
    intro bytes
    change PlainChain.decode c bytes l = _
    rw [PlainChain.decode, hb, Outcome.ok_bind]
  apply encodingExact_of_decode
  · intro bytes a
    rw [hdecode, RnsPoly.decode_eq_ok hbuilt hsize, elementAt_iff_basis hc hb, and_assoc]
    rfl
  · intro bytes
    change HoldsResidues c.basis.degree _ _ ↔ _
    simp only [← hdegree, holdsResidues_iff hbuilt, elementAt_iff_basis hc hb, and_assoc]
    rfl
  · intro bytes
    rw [hdecode]
    exact decode_cases hsize bytes

/-- The length of accepted bytes tells the level. -/
theorem length_of_decode {bytes : List UInt8} {a : RnsPoly} (hc : c.basis.Built)
    (h : c.decode bytes l = .ok a) : bytes.length = 8 * c.basis.degree * (l + 1) := by
  rcases Outcome.bind_eq_ok.mp h with ⟨b, hb, hbytes⟩
  obtain ⟨hbuilt, hprefix, rfl⟩ := hc.of_atLevel hb
  have hfits : encodedSize b < UInt64.size := by
    rcases Outcome.bind_eq_ok.mp hbytes with ⟨_, hrequire, -⟩
    exact Outcome.require_eq_ok.mp hrequire
  obtain ⟨ha, rfl, rfl⟩ := (RnsPoly.decode_eq_ok hbuilt hfits).mp hbytes
  rw [ha.length_encode, encodedSize, hbuilt.length_operators, hbuilt.length_moduli,
    ((RnsBasis.isPrefixOf_iff _ _).mp hprefix).1]

/-- Bytes that are accepted at one level are refused at the other ones. -/
theorem decode_other_level {bytes : List UInt8} {a : RnsPoly} {l' : Nat} (hc : c.basis.Built)
    (h : c.decode bytes l = .ok a) (hne : l' ≠ l)
    (hfits : l' ≤ c.basis.level → 8 * c.basis.degree * (l' + 1) < UInt64.size) :
    ∃ err, c.decode bytes l' = .error (.failure err) := by
  rcases Nat.lt_or_ge c.basis.level l' with habove | hle
  · rw [PlainChain.decode, RnsBasis.atLevel, if_pos habove]
    exact ⟨_, rfl⟩
  · obtain ⟨b, hb, -⟩ := hc.atLevel hle
    obtain ⟨hbuilt, hprefix, hlevel⟩ := hc.of_atLevel hb
    have hsize : encodedSize b < UInt64.size := by
      rw [encodedSize, hbuilt.length_operators, hbuilt.length_moduli, hlevel,
        ((RnsBasis.isPrefixOf_iff _ _).mp hprefix).1]
      exact hfits hle
    have hdecode : c.decode bytes l' = RnsPoly.decode b bytes := by
      rw [PlainChain.decode, hb, Outcome.ok_bind]
    rcases decode_cases hsize bytes with ⟨a', ha'⟩ | ⟨text, htext⟩
    · rw [← hdecode] at ha'
      have hlength := length_of_decode hc ha'
      rw [length_of_decode hc h] at hlength
      have hpos := hc.eight_le_degree
      have hsame := Nat.eq_of_mul_eq_mul_left (by omega) hlength
      omega
    · exact ⟨_, hdecode.trans htext⟩

end PlainChain

/-! ## The chain of two bases -/

namespace ExtendedChain

variable {c : ExtendedChain} {a : ExtendedPoly} {l : Nat × Option Nat} {qs : List Modulus}
  {bases : RnsBasis × Option RnsBasis}

theorem Built.degree_aux (hc : c.Built) {p : RnsBasis} (hp : c.aux = some p) :
    p.degree = c.main.degree := by
  have h := hc.ofBases
  rw [hp] at h
  simp only [ExtendedChain.ofBases] at h
  split at h
  · cases h
  · rename_i hdegree
    exact not_ne_iff.mp hdegree

/-- The elements at a level are the pairs of valid polynomials over its bases. -/
theorem elementAt_iff_bases (hc : c.Built) (h : c.basesAt l = .ok bases) :
    ElementAt c l a ↔
      a.Valid ∧ a.main.basis = bases.1 ∧ a.aux.map (·.basis) = bases.2 := by
  constructor
  · intro ha
    obtain rfl := Except.ok.inj ((basesAt_of_elementAt hc ha).symm.trans h)
    exact ⟨ha.valid, rfl, rfl⟩
  · rintro ⟨hvalid, hmain, haux⟩
    obtain ⟨hatmain, hataux⟩ := basesAt_eq_ok.mp h
    rw [← hmain] at hatmain
    obtain ⟨-, hprefix, hlevel⟩ := hc.main.of_atLevel hatmain
    refine elementAt_iff.mpr ⟨⟨hvalid.main, hprefix⟩, hlevel, ?_⟩
    rcases hataux with ⟨hnone, hla, hb⟩ | ⟨p, lp, b, hp, hla, hb, hat⟩
    · rw [hb, Option.map_eq_none_iff] at haux
      rw [hnone, hla, haux]
      exact .absent
    · rw [hb, Option.map_eq_some_iff] at haux
      rcases haux with ⟨r, hr, rfl⟩
      obtain ⟨-, hprefix', hlevel'⟩ := (hc.aux p hp).of_atLevel hat
      rw [hp, hla, hr, ← hlevel']
      exact .present ⟨hvalid.aux r hr, hprefix'⟩

/-- The bases of a level and the moduli of its rows. -/
structure HasRows (c : ExtendedChain) (bases : RnsBasis × Option RnsBasis)
    (qs : List Modulus) : Prop where
  /-- The main basis was made of its moduli. -/
  main : bases.1.Built
  /-- The main basis has the degree of the chain. -/
  degree_main : bases.1.degree = c.main.degree
  /-- The auxiliary basis was made of its moduli. -/
  aux : ∀ b ∈ bases.2, RnsBasis.Built b
  /-- The auxiliary basis has the degree of the chain. -/
  degree_aux : ∀ b ∈ bases.2, RnsBasis.degree b = c.main.degree
  /-- The main moduli are followed by the auxiliary ones. -/
  rows : qs = bases.1.operators ++ (bases.2.map (·.operators)).getD []

theorem basesAt_of_rowModuli (hc : c.Built) (h : rowModuli c l = some qs) :
    ∃ bases, c.basesAt l = .ok bases ∧ HasRows c bases qs := by
  change (match c.aux, l.2 with
    | none, none => c.main.rowModuli l.1
    | some p, some lp => do
        let main ← c.main.rowModuli l.1
        let aux ← p.rowModuli lp
        pure (main ++ aux)
    | _, _ => none) = some qs at h
  split at h
  next hp hl =>
      obtain ⟨b, hb, hbuilt, hdegree, rfl⟩ := hc.main.atLevel_of_rowModuli h
      exact ⟨(b, none), by simp [basesAt, hb, hp, hl], hbuilt, hdegree, by simp, by simp,
        by simp⟩
  next p lp hp hl =>
      simp only [Option.bind_eq_bind, Option.bind_eq_some_iff] at h
      rcases h with ⟨main, hmain, aux, haux, h⟩
      obtain ⟨b, hb, hbuilt, hdegree, rfl⟩ := hc.main.atLevel_of_rowModuli hmain
      obtain ⟨r, hr, hrbuilt, hrdegree, rfl⟩ := (hc.aux p hp).atLevel_of_rowModuli haux
      refine ⟨(b, some r), by simp [basesAt, hb, hp, hl, hr], hbuilt, hdegree, ?_, ?_, ?_⟩
      · simpa using hrbuilt
      · simpa [hc.degree_aux hp] using hrdegree
      · simpa using h.symm
  next => cases h

variable {bytes : List UInt8}

/-- The bytes of the elements of a level are those of a main part followed by those
of an auxiliary part. -/
theorem holdsResidues_iff (hc : c.Built) (hbases : c.basesAt l = .ok bases)
    (hrows : HasRows c bases qs) : HoldsResidues c.main.degree qs bytes ↔
      ∃ a : ExtendedPoly, ElementAt c l a ∧ a.encode = bytes := by
  rcases hrows with ⟨hmain, hdegree, haux, hdegreeaux, rfl⟩
  simp only [elementAt_iff_bases hc hbases]
  rcases bases with ⟨b, r⟩
  cases r with
  | none =>
      simp only at hmain hdegree
      rw [Option.map_none, Option.getD_none, List.append_nil, ← hdegree,
        RnsPoly.holdsResidues_iff hmain]
      constructor
      · rintro ⟨m, hm, rfl, rfl⟩
        exact ⟨⟨m, none⟩, ⟨⟨hm, by simp⟩, rfl, rfl⟩, List.append_nil _⟩
      · rintro ⟨⟨m, p⟩, ⟨hvalid, rfl, hp⟩, rfl⟩
        obtain rfl := Option.map_eq_none_iff.mp hp
        exact ⟨m, hvalid.main, rfl, (List.append_nil _).symm⟩
  | some r =>
      simp only at hmain hdegree
      have hfirst : ∀ bs, HoldsResidues c.main.degree b.operators bs ↔
          ∃ m : RnsPoly, m.Valid ∧ m.basis = b ∧ m.encode = bs :=
        fun bs => hdegree ▸ RnsPoly.holdsResidues_iff hmain
      have hsecond : ∀ bs, HoldsResidues c.main.degree r.operators bs ↔
          ∃ p : RnsPoly, p.Valid ∧ p.basis = r ∧ p.encode = bs :=
        fun bs => hdegreeaux r rfl ▸ RnsPoly.holdsResidues_iff (haux r rfl)
      rw [Option.map_some, Option.getD_some, holdsResidues_append_iff, hfirst, hsecond]
      constructor
      · rintro ⟨-, ⟨m, hm, rfl, hmbytes⟩, p, hp, rfl, hpbytes⟩
        refine ⟨⟨m, some p⟩, ⟨⟨hm, by simpa using hp⟩, rfl, rfl⟩, ?_⟩
        rw [← List.take_append_drop (8 * c.main.degree * m.basis.operators.length) bytes,
          ← hmbytes, ← hpbytes]
        rfl
      · rintro ⟨⟨m, p⟩, ⟨hvalid, hm, hp⟩, rfl⟩
        obtain rfl : m.basis = b := hm
        rcases Option.map_eq_some_iff.mp hp with ⟨p, rfl, rfl⟩
        have hbytes : ExtendedPoly.encode ⟨m, some p⟩ = m.encode ++ p.encode := rfl
        have hsize : m.encode.length = 8 * c.main.degree * m.basis.operators.length := by
          rw [hvalid.main.length_encode, encodedSize, ← hdegree]
        rw [hbytes, List.length_append, List.take_left' hsize, List.drop_left' hsize]
        exact ⟨hsize.ge.trans (Nat.le_add_right _ _), ⟨m, hvalid.main, rfl, rfl⟩, p,
          hvalid.aux p rfl, rfl, rfl⟩

/-- The bytes of both parts can be counted where those of the whole element can. -/
theorem HasRows.fits (hrows : HasRows c bases qs)
    (hfits : 8 * c.main.degree * qs.length < UInt64.size) :
    encodedSize bases.1 < UInt64.size ∧ ∀ b ∈ bases.2, encodedSize b < UInt64.size := by
  have hlength := congrArg List.length hrows.rows
  rw [List.length_append] at hlength
  rw [hlength, Nat.mul_add] at hfits
  constructor
  · rw [encodedSize, hrows.degree_main]
    omega
  · intro b hb
    rw [Option.mem_def.mp hb] at hfits
    rw [encodedSize, hrows.degree_aux b hb]
    simp only [Option.map_some, Option.getD_some] at hfits
    omega

/-- Decoding inverts encoding. -/
theorem decode_eq_ok (hc : c.Built) (hbases : c.basesAt l = .ok bases)
    (hrows : HasRows c bases qs) (hfits : 8 * c.main.degree * qs.length < UInt64.size) :
    c.decode bytes l = .ok a ↔ ElementAt c l a ∧ a.encode = bytes := by
  obtain ⟨hmain, haux⟩ := hrows.fits hfits
  constructor
  · intro h
    simp only [decode, hbases, Outcome.ok_bind, Outcome.require_of hmain] at h
    split at h
    · cases h
    · rcases Outcome.bind_eq_ok.mp h with ⟨q, hq, h⟩
      obtain ⟨hqvalid, hqbasis, hqbytes⟩ := (RnsPoly.decode_eq_ok hrows.main hmain).mp hq
      rw [elementAt_iff_bases hc hbases]
      split at h
      next b hb =>
          rcases Outcome.bind_eq_ok.mp h with ⟨p, hp, h⟩
          obtain rfl := Except.ok.inj h
          obtain ⟨hpvalid, hpbasis, hpbytes⟩ :=
            (RnsPoly.decode_eq_ok (hrows.aux b hb) (haux b hb)).mp hp
          refine ⟨⟨⟨hqvalid, by simpa using hpvalid⟩, hqbasis, by simp [hpbasis, hb]⟩, ?_⟩
          rw [← List.take_append_drop (encodedSize bases.1) bytes, ← hqbytes, ← hpbytes]
          rfl
      next hb =>
          split at h
          next hempty =>
              obtain rfl := Except.ok.inj h
              refine ⟨⟨⟨hqvalid, by simp⟩, hqbasis, by simp [hb]⟩, ?_⟩
              rw [← List.take_append_drop (encodedSize bases.1) bytes, ← hqbytes,
                List.isEmpty_iff.mp hempty]
              rfl
          next => cases h
  · rintro ⟨ha, rfl⟩
    obtain ⟨-, hmainbasis, hauxbasis⟩ := (elementAt_iff_bases hc hbases).mp ha
    apply decode_encode_of_fits hc ha (hmainbasis ▸ hmain)
    intro p hp
    exact haux p.basis (by rw [← hauxbasis, Option.mem_def.mp hp]; rfl)

/-- Other bytes are refused as not being an element. -/
theorem decode_cases (hbases : c.basesAt l = .ok bases) (hrows : HasRows c bases qs)
    (hfits : 8 * c.main.degree * qs.length < UInt64.size) (bytes : List UInt8) :
    (∃ a, c.decode bytes l = .ok a) ∨
      ∃ text, c.decode bytes l = .error (.failure (.serialization text)) := by
  obtain ⟨hmain, haux⟩ := hrows.fits hfits
  simp only [decode, hbases, Outcome.ok_bind, Outcome.require_of hmain]
  split
  · exact .inr ⟨_, rfl⟩
  · rcases RnsPoly.decode_cases hmain (bytes.take (encodedSize bases.1)) with
      ⟨q, hq⟩ | ⟨text, htext⟩
    · rw [hq, Outcome.ok_bind]
      split
      next b hb =>
          rcases RnsPoly.decode_cases (haux b hb) (bytes.drop (encodedSize bases.1)) with
            ⟨p, hp⟩ | ⟨text, htext⟩
          · rw [hp]
            exact .inl ⟨_, rfl⟩
          · rw [htext]
            exact .inr ⟨text, rfl⟩
      next =>
          split
          · exact .inl ⟨_, rfl⟩
          · exact .inr ⟨_, rfl⟩
    · rw [htext]
      exact .inr ⟨text, rfl⟩

theorem encodes : EncodesElements ExtendedChain := by
  intro c l qs hc hqs hfits
  obtain ⟨bases, hbases, hrows⟩ := basesAt_of_rowModuli hc hqs
  exact encodingExact_of_decode (fun _ _ => decode_eq_ok hc hbases hrows hfits)
    (fun _ => holdsResidues_iff hc hbases hrows) (decode_cases hbases hrows hfits)

end ExtendedChain

/-- Encoding is a bijection from the elements of a level to the bytes that the
decoder accepts, over the chains of a single basis and over those of two bases.
Over a single basis the bytes of one level are refused at all other ones. -/
theorem encoding_exact :
    EncodesElements PlainChain ∧ EncodesElements ExtendedChain ∧
      ∀ (c : PlainChain) (l l' : Nat) (bytes : List UInt8) (e : RnsPoly), Built c →
        decode c bytes l = .ok e → l' ≠ l →
          (∀ qs, rowModuli c l' = some qs → 8 * degree c * qs.length < UInt64.size) →
            ∃ err, decode c bytes l' = .error (.failure err) := by
  refine ⟨PlainChain.encodes, ExtendedChain.encodes, ?_⟩
  intro c l l' bytes e hc h hne hfits
  apply PlainChain.decode_other_level hc h hne
  intro hl
  have hlength := hfits _ (if_pos hl)
  have hbuilt : c.basis.Built := hc
  rw [List.length_take, hbuilt.length_operators, hbuilt.length_moduli,
    Nat.min_eq_left (by omega)] at hlength
  exact hlength

section FiveSeven

open PlainChain (fiveSeven fiveSeven_built oneOverFiveSeven elementAt_oneOverFiveSeven)

/-- The chain of five and seven with the auxiliary prime eleven. -/
def fiveSevenByEleven : ExtendedChain where
  main := fiveSeven.basis
  aux := some ⟨[11], [.withConstants 11], 8, 11, none⟩
  operators := [.withConstants 5, .withConstants 7, .withConstants 11]

theorem fiveSevenByEleven_built : Built fiveSevenByEleven := by
  have haux : RnsBasis.ofModuli [11] 8 = .ok ⟨[11], [.withConstants 11], 8, 11, none⟩ := by
    decide +kernel
  refine ⟨fiveSeven_built, ?_, by decide +kernel⟩
  intro p hp
  obtain rfl := Option.some.inj hp
  exact RnsBasis.built_of_ofModuli haux

/-- The bytes of one are accepted at its own level and refused at the lower one, and
with an auxiliary prime all bytes that hold residues are accepted. -/
theorem encoding_exact_fiveSeven :
    (∀ bytes, HoldsResidues 8 [.withConstants 5, .withConstants 11] bytes →
      ∃ e : ExtendedPoly, decode fiveSevenByEleven bytes (0, some 0) = .ok e) ∧
      decode fiveSeven oneOverFiveSeven.encode 1 = .ok oneOverFiveSeven ∧
        ∃ err, decode fiveSeven oneOverFiveSeven.encode 0 = .error (.failure err) := by
  obtain ⟨hplain, hextended, hlevels⟩ := encoding_exact
  have hone := ((hplain fiveSeven 1 [.withConstants 5, .withConstants 7] fiveSeven_built rfl
    (by decide)).decode_eq_ok _ _).mpr ⟨elementAt_oneOverFiveSeven, rfl⟩
  refine ⟨fun bytes hbytes => ?_, hone, ?_⟩
  · exact ((hextended fiveSevenByEleven (0, some 0) _ fiveSevenByEleven_built rfl
      (by decide)).accepted_iff bytes).mpr hbytes
  · apply hlevels fiveSeven 1 0 _ _ fiveSeven_built hone (by decide)
    intro qs hqs
    obtain rfl := Option.some.inj hqs
    decide

end FiveSeven

end RingShamir
