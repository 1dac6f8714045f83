import RingShamir.Proofs.Parameters.Construction
import RingShamir.Proofs.Parameters.Generation

/-!
# Equality of parameters

Parameters hold two chains, with the constants of every modulus and a basis for every level.
All of this follows from the degree and the moduli, so these are what tells parameters apart.
How the moduli came about plays no part: the draft that gives the moduli of parameters, also
of generated ones, has the same parameters again.

Main results:

- Theorem `Parameters.Consistent.ext`: the degree and the moduli determine parameters.
- Theorem `ParameterDraft.Chosen.ofParameters`: what a draft decides on, it may also be given.
- Theorem `ParameterDraft.build_determined`: equality of built parameters, and building them
  again.
-/

namespace RingShamir

namespace Parameters

variable {par par' : Parameters} {degree : Nat} {ms : List UInt64} {o o' : Option RnsBasis}

/-- The auxiliary moduli determine the auxiliary basis. -/
theorem AuxBasis.unique (h : AuxBasis degree ms o) (h' : AuxBasis degree ms o') : o = o' := by
  rcases h with ⟨hempty, rfl⟩ | ⟨hne, b, hb, rfl⟩
  · rcases h' with ⟨-, rfl⟩ | ⟨hne, -⟩
    · rfl
    · exact absurd hempty hne
  · rcases h' with ⟨hempty, -⟩ | ⟨-, b', hb', rfl⟩
    · exact absurd hempty hne
    · rw [Except.ok.inj (hb.symm.trans hb')]

/-- The degree and the moduli determine parameters. -/
theorem Consistent.ext (h : par.Consistent) (h' : par'.Consistent)
    (hdegree : par.degree = par'.degree) (hmoduli : par.moduli = par'.moduli)
    (hauxModuli : par.auxModuli = par'.auxModuli) : par = par' := by
  have hmain : par.plain.basis = par'.plain.basis := by
    have hbasis := h.main
    rw [hmoduli, hdegree, h'.main] at hbasis
    exact (Except.ok.inj hbasis).symm
  have haux : par.extended.aux = par'.extended.aux := by
    have hbasis := h.aux
    rw [hauxModuli, hdegree] at hbasis
    exact hbasis.unique h'.aux
  have hextended : par.extended = par'.extended := by
    have hchain := h.extended
    rw [hmain, haux, h'.extended] at hchain
    exact (Except.ok.inj hchain).symm
  have hsizes : par.sizes = par'.sizes := by
    rw [h.sizes_eq, h'.sizes_eq, hmoduli]
  rcases par with ⟨degree, moduli, sizes, auxModuli, ⟨basis⟩, extended⟩
  rcases par' with ⟨degree', moduli', sizes', auxModuli', ⟨basis'⟩, extended'⟩
  simp_all only

end Parameters

namespace ParameterDraft

variable {d d' : ParameterDraft} {par par' : Parameters}

/-- What a draft decides on, it may also be given. -/
theorem Chosen.ofParameters (h : d.Chosen par.moduli par.auxModuli)
    (hdegree : par.degree = d.degree) :
    (ofParameters par).Chosen par.moduli par.auxModuli := by
  obtain ⟨haccepted, -⟩ := checkChoices_eq_ok_iff.mp h.choices
  rw [← hdegree] at haccepted
  refine ⟨checkChoices_eq_ok_iff.mpr ⟨haccepted, ?_⟩, rfl, rfl, h.checked⟩
  exact ⟨.inr rfl, .inl h.moduli_ne_nil, .inr rfl⟩

/-- Built parameters are equal exactly when their degrees and moduli are, and the draft that
gives these has the same parameters. -/
theorem build_determined (h : d.build = .ok par) (h' : d'.build = .ok par') :
    ((par == par') = true ↔ par.degree = par'.degree ∧ par.moduli = par'.moduli ∧
      par.auxModuli = par'.auxModuli) ∧
    (ofParameters par).build = .ok par := by
  obtain ⟨hchosen, hdegree, hpar⟩ := build_eq_ok_iff.mp h
  obtain ⟨-, -, hpar'⟩ := build_eq_ok_iff.mp h'
  refine ⟨?_, build_eq_ok_iff.mpr ⟨hchosen.ofParameters hdegree, rfl, hpar⟩⟩
  rw [beq_iff_eq]
  constructor
  · rintro rfl
    exact ⟨rfl, rfl, rfl⟩
  · rintro ⟨hsame, hmoduli, hauxModuli⟩
    exact hpar.ext hpar' hsame hmoduli hauxModuli

/-- The modulus 1009 makes the same parameters where it is generated and where it is given. -/
theorem build_determined_1009 : ∃ par par',
    build { degree := 8, sizes := [10] } = .ok par ∧
    build { degree := 8, moduli := [1009] } = .ok par' ∧
    (par == par') = true ∧ (ofParameters par).build = .ok par' := by
  have hmain : generateModuli 8 [] [] [10] = .ok [1009] :=
    generateModuli_of_greedy ⟨3, rfl⟩ (by decide) greedy_1009
  have hgenerated : Chosen { degree := 8, sizes := [10] } [1009] [] :=
    ⟨rfl, hmain, rfl, by decide +kernel⟩
  have hgiven : Chosen { degree := 8, moduli := [1009] } [1009] [] :=
    ⟨rfl, rfl, rfl, by decide +kernel⟩
  obtain ⟨par, hbuild, hmoduli, hauxModuli⟩ := hgenerated.exists_build
  obtain ⟨par', hbuild', hmoduli', hauxModuli'⟩ := hgiven.exists_build
  have hdegree : par.degree = par'.degree :=
    (build_eq_ok_iff.mp hbuild).2.1.trans (build_eq_ok_iff.mp hbuild').2.1.symm
  obtain ⟨hequal, hagain⟩ := build_determined hbuild hbuild'
  have hsame := hequal.mpr
    ⟨hdegree, hmoduli.trans hmoduli'.symm, hauxModuli.trans hauxModuli'.symm⟩
  exact ⟨par, par', hbuild, hbuild', hsame, (beq_iff_eq.mp hsame) ▸ hagain⟩

end ParameterDraft

end RingShamir
