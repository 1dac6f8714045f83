import Mathlib.Algebra.BigOperators.Ring.Finset
import RingShamir.Proofs.Parameters.Construction
import RingShamir.SecretKey

/-!
# Secret keys in the rings

A secret key is embedded into a ring of its parameters coefficient by coefficient:
at the moduli of the level its classes are those of the integer coefficients,
negative ones included.  The embedding is additive, and whether it succeeds
depends on the number of coefficients only.

Main results:

- Definition `Embeds`: an embedding of keys at a level, by its classes.
- Theorems `embeds_toPlain` and `embeds_toExtended`: the two embeddings.
- Theorem `Embeds.exists_sum`: the element of the sum of keys has the sums of the
  classes.
-/

namespace RingShamir

open ResidueChain

namespace SecretKey

theorem length_of_ofCoefficients {par : Parameters} {v : List Int} {key : SecretKey}
    (h : ofCoefficients par v = .ok key) : v.length = par.degree := by
  unfold ofCoefficients at h
  split at h
  · cases h
  · rename_i hlength
    simpa using hlength

/-! ## Integer coefficients -/

/-- A coefficient of a vector, zero where there is none. -/
def entry (v : List Int) (j : Nat) : Int :=
  (v[j]?).getD 0

/-- The sum of vectors of a length, coefficient by coefficient. -/
def sumVectors (length : Nat) (vs : List (List Int)) : List Int :=
  (List.range length).map fun j => (vs.map (entry · j)).sum

@[simp] theorem length_sumVectors (length : Nat) (vs : List (List Int)) :
    (sumVectors length vs).length = length := by
  simp [sumVectors]

theorem entry_sumVectors {length : Nat} {vs : List (List Int)}
    (h : ∀ v ∈ vs, v.length = length) (j : Nat) :
    entry (sumVectors length vs) j = (vs.map (entry · j)).sum := by
  rcases Nat.lt_or_ge j length with hj | hj
  · simp [entry, sumVectors, hj]
  · have hzero : vs.map (entry · j) = List.replicate vs.length 0 := by
      rw [List.eq_replicate_iff]
      refine ⟨by simp, ?_⟩
      intro x hx
      rcases List.mem_map.mp hx with ⟨v, hv, rfl⟩
      simp [entry, List.getElem?_eq_none (h v hv ▸ hj)]
    rw [hzero, List.sum_replicate, smul_zero]
    simp [entry, hj]

/-- Whether integers make a polynomial depends on how many there are only. -/
theorem ofInts_of_length {b : RnsBasis} {v w : List Int} {a : RnsPoly}
    (h : RnsPoly.ofInts b v = .ok a) (hlength : w.length = v.length) :
    ∃ a', RnsPoly.ofInts b w = .ok a' := by
  obtain ⟨hdegree, hfits, -⟩ := RnsPoly.ofInts_eq_ok_iff.mp h
  exact ⟨_, RnsPoly.ofInts_eq_ok_iff.mpr ⟨hlength.trans hdegree, hfits, rfl⟩⟩

/-! ## Embeddings -/

section Embeddings

variable {C E L : Type} [ResidueChain C E L] [ReducedElement E] [ChainView C E]

/-- An embedding of the keys of parameters as elements at a level, at which the
moduli are `active`: the classes are those of the coefficients, and whether there
is an element depends on their number only. -/
structure Embeds (par : Parameters) (c : C) (l : L) (active : Nat → Prop)
    (embed : SecretKey → Outcome SchemeError E) : Prop where
  /-- The classes are those of the coefficients. -/
  classAt_eq : ∀ v e, embed ⟨par, v⟩ = .ok e → ElementAt c l e ∧
    ∀ (i : Nat) (q : Modulus) (j : Nat), (moduli c)[i]? = some q →
      (active i → classAt c e q i j = (entry v j : ZMod q.value.toNat)) ∧
        (¬active i → classAt c e q i j = 0)
  /-- Only the number of coefficients matters. -/
  of_length : ∀ v w e, embed ⟨par, v⟩ = .ok e → w.length = v.length →
    ∃ e', embed ⟨par, w⟩ = .ok e'

variable {par : Parameters} {c : C} {l : L} {active : Nat → Prop}
  {embed : SecretKey → Outcome SchemeError E}

/-- The element of the sum of keys has the sums of the classes. -/
theorem Embeds.exists_sum (h : Embeds par c l active embed) {length : Nat}
    {vs : List (List Int)} {es : List E} (hne : vs ≠ []) (hlength : ∀ v ∈ vs, v.length = length)
    (hes : List.Forall₂ (fun v e => embed ⟨par, v⟩ = .ok e) vs es) :
    ∃ e, embed ⟨par, sumVectors length vs⟩ = .ok e ∧ ElementAt c l e ∧
      ∀ (i : Nat) (q : Modulus) (j : Nat), (moduli c)[i]? = some q →
        classAt c e q i j = (es.map fun a => classAt c a q i j).sum := by
  obtain ⟨v, hv⟩ := List.exists_mem_of_ne_nil vs hne
  obtain ⟨a, -, ha⟩ := exists_mem_of_forall₂ hes hv
  have hsame : (sumVectors length vs).length = v.length := by
    rw [length_sumVectors, hlength v hv]
  obtain ⟨e, he⟩ := h.of_length v (sumVectors length vs) a ha hsame
  obtain ⟨hat, hclass⟩ := h.classAt_eq _ e he
  refine ⟨e, he, hat, ?_⟩
  intro i q j hq
  by_cases hi : active i
  · have hterms : es.map (fun a => classAt c a q i j) =
        vs.map fun v => (entry v j : ZMod q.value.toNat) :=
      map_eq_map_of_forall₂ (hes.flip.imp fun a v hva => ((h.classAt_eq v a hva).2 i q j hq).1 hi)
    rw [(hclass i q j hq).1 hi, entry_sumVectors hlength, hterms, Int.cast_list_sum,
      List.map_map]
    rfl
  · have hterms : es.map (fun a => classAt c a q i j) = es.map fun _ => 0 := by
      apply List.map_congr_left
      intro a ha
      obtain ⟨v, -, hva⟩ := exists_mem_of_forall₂ hes.flip ha
      exact ((h.classAt_eq v a hva).2 i q j hq).2 hi
    rw [(hclass i q j hq).2 hi, hterms, List.map_const', List.sum_replicate, smul_zero]

end Embeddings

variable {par : Parameters}

/-- The polynomial of a key is that of its coefficients over the basis of the level. -/
theorem toPlain_eq_ok_iff {v : List Int} {l : Nat} {a : RnsPoly} :
    toPlain ⟨par, v⟩ l = .ok a ↔
      ∃ b, par.basisAt l = .ok b ∧ RnsPoly.ofInts b v = .ok a := by
  simp only [toPlain, Outcome.bind_eq_ok, Outcome.mapError_eq_ok]

/-- The embedding over the ciphertext moduli up to a level. -/
theorem embeds_toPlain (hpar : par.Built) (l : Nat) :
    Embeds par par.plain l (· ≤ l) (toPlain · l) := by
  constructor
  · intro v e h
    obtain ⟨b, hb, h⟩ := toPlain_eq_ok_iff.mp h
    obtain ⟨hbuilt, hfirst, hlevel⟩ :=
      RnsBasis.Built.of_atLevel hpar.plain (Outcome.mapError_eq_ok.mp hb)
    obtain ⟨hvalid, rfl, hentries⟩ := RnsPoly.valid_of_ofInts hbuilt h
    have hpart : e.PartOf par.plain.basis := ⟨hvalid, hfirst⟩
    have hcount : e.basis.operators.length = l + 1 := by
      rw [hbuilt.length_operators, hbuilt.length_moduli, hlevel]
    refine ⟨PlainChain.elementAt_iff.mpr ⟨hpart, hlevel⟩, ?_⟩
    intro i q j hq
    constructor
    · intro hi
      apply hentries i q j
      rw [hbuilt.getElem?_operators hpar.plain hfirst (by omega)]
      exact hq
    · intro hi
      have hzero : e.coefficient i j = 0 :=
        RnsPoly.coefficient_of_length_le (by rw [hvalid.length_rows]; omega) j
      rw [classAt, ← Modulus.residue_zero q, ← hzero]
      rfl
  · intro v w e h hlength
    obtain ⟨b, hb, h⟩ := toPlain_eq_ok_iff.mp h
    obtain ⟨e', he'⟩ := ofInts_of_length h hlength
    exact ⟨e', toPlain_eq_ok_iff.mpr ⟨b, hb, he'⟩⟩

/-- The element of a key consists of the polynomials over its bases. -/
theorem toExtended_eq_ok {v : List Int} {e : ExtendedPoly} :
    toExtended ⟨par, v⟩ = .ok e ↔ RnsPoly.ofInts par.extended.main v = .ok e.main ∧
      ((par.extended.aux = none ∧ e.aux = none) ∨ ∃ b p, par.extended.aux = some b ∧
        e.aux = some p ∧ RnsPoly.ofInts b v = .ok p) := by
  rcases e with ⟨main, aux⟩
  simp only [toExtended, Outcome.bind_eq_ok, Outcome.mapError_eq_ok]
  constructor
  · rintro ⟨a, ha, h⟩
    split at h
    next hnone =>
        obtain ⟨rfl, rfl⟩ : a = main ∧ none = aux := by simpa using h
        exact ⟨ha, .inl ⟨hnone, rfl⟩⟩
    next b hb =>
        simp only [Outcome.bind_eq_ok, Outcome.mapError_eq_ok] at h
        rcases h with ⟨p, hp, h⟩
        obtain ⟨rfl, rfl⟩ : a = main ∧ some p = aux := by simpa using h
        exact ⟨ha, .inr ⟨b, p, hb, rfl, hp⟩⟩
  · rintro ⟨ha, ⟨hnone, rfl⟩ | ⟨b, p, hb, rfl, hp⟩⟩
    · exact ⟨main, ha, by rw [hnone]; rfl⟩
    · exact ⟨main, ha, by rw [hb]; simp [hp]⟩

/-- The embedding over all moduli. -/
theorem embeds_toExtended (hpar : par.Built) :
    Embeds par par.extended (maxLevel par.extended) (fun _ => True) toExtended := by
  have hc : par.extended.Built := hpar.extended
  constructor
  · intro v e h
    rcases toExtended_eq_ok.mp h with ⟨hmain, haux⟩
    obtain ⟨hvalid, hbasis, hentries⟩ := RnsPoly.valid_of_ofInts hc.main hmain
    have hpart : e.main.PartOf par.extended.main :=
      ⟨hvalid, hbasis ▸ RnsBasis.isPrefixOf_refl _⟩
    have hauxAt : ExtendedChain.AuxAt par.extended.aux (par.extended.aux.map (·.level)) e.aux := by
      rcases haux with ⟨hnone, he⟩ | ⟨b, p, hb, he, hp⟩
      · rw [hnone, he]
        exact .absent
      · obtain ⟨hpvalid, rfl, -⟩ := RnsPoly.valid_of_ofInts (hc.aux b hb) hp
        rw [hb, he]
        exact .present ⟨hpvalid, RnsBasis.isPrefixOf_refl _⟩
    refine ⟨ExtendedChain.elementAt_iff.mpr ⟨hpart, by rw [RnsPoly.level, hbasis]; rfl, hauxAt⟩, ?_⟩
    intro i q j hq
    refine ⟨fun _ => ?_, fun hi => absurd trivial hi⟩
    change q.residue (par.extended.coefficient e i j) = _
    rcases hc.position_cases hq with hq | ⟨k, b, rfl, hb, hq⟩
    · rw [ExtendedChain.coefficient_main hq]
      exact hentries i q j hq
    · rcases haux with ⟨hnone, -⟩ | ⟨b', p, hb', he, hp⟩
      · rw [hb] at hnone
        cases hnone
      · obtain rfl := Option.some.inj (hb.symm.trans hb')
        obtain ⟨-, -, hpentries⟩ := RnsPoly.valid_of_ofInts (hc.aux b hb) hp
        rw [ExtendedChain.coefficient_aux he]
        exact hpentries k q j hq
  · intro v w e h hlength
    rcases toExtended_eq_ok.mp h with ⟨hmain, haux⟩
    obtain ⟨main, hmain'⟩ := ofInts_of_length hmain hlength
    rcases haux with ⟨hnone, -⟩ | ⟨b, p, hb, -, hp⟩
    · exact ⟨⟨main, none⟩, toExtended_eq_ok.mpr ⟨hmain', .inl ⟨hnone, rfl⟩⟩⟩
    · obtain ⟨p', hp'⟩ := ofInts_of_length hp hlength
      exact ⟨⟨main, some p'⟩, toExtended_eq_ok.mpr ⟨hmain', .inr ⟨b, p', hb, rfl, hp'⟩⟩⟩

end SecretKey

end RingShamir
