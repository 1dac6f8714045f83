import RingShamir.Proofs.Parameters.Construction
import RingShamir.Proofs.Parameters.Generation

/-!
# Validation of parameters

A draft is the only place where moduli are validated: what it accepts, the bases and
chains accept as well.  So building ends with parameters or with an error of the draft's
own, and never with an error of the arithmetic.

Main results:

- Definition `Settled`: a choice is made, or refused by a parameter error.
- Theorem `settled_choose`: the choice of moduli is settled.
- Definition `Parameters.Validated`: what parameters promise about their moduli, chains,
  levels and sizes.
- Theorem `Parameters.Consistent.validated`: parameters of checked moduli keep it.
-/

namespace RingShamir

namespace ParameterDraft

variable {α β : Type} {d : ParameterDraft}

/-! ## Choices and refusals -/

/-- A choice is made, or it is refused by a parameter error. -/
def Settled (x : Outcome SchemeError α) : Prop :=
  (∃ a, x = .ok a) ∨ ∃ e, x = .error (.failure (.parameters e))

theorem settled_ok (a : α) : Settled (.ok a : Outcome SchemeError α) :=
  .inl ⟨a, rfl⟩

theorem settled_reject (e : ParameterError) : Settled (reject e : Outcome SchemeError α) :=
  .inr ⟨e, rfl⟩

theorem Settled.bind {x : Outcome SchemeError α} {f : α → Outcome SchemeError β} (hx : Settled x)
    (hf : ∀ a, x = .ok a → Settled (f a)) : Settled (x >>= f) := by
  rcases hx with ⟨a, rfl⟩ | ⟨e, rfl⟩
  · exact hf a rfl
  · exact .inr ⟨e, rfl⟩

theorem Settled.reported {x : Outcome SchemeError α} (h : Settled x) : x.Reported := by
  rcases h with ⟨a, rfl⟩ | ⟨e, rfl⟩
  · exact Outcome.reported_ok a
  · exact Outcome.reported_failure _

theorem settled_checkChoices (d : ParameterDraft) : Settled d.checkChoices := by
  unfold checkChoices
  split_ifs
  · exact settled_reject _
  · exact settled_reject _
  · exact settled_reject _
  · exact settled_reject _
  · exact settled_ok ()

theorem settled_checkModuli (ms : List UInt64) : Settled (checkModuli ms) := by
  unfold checkModuli
  split
  · exact settled_reject _
  · split_ifs
    · exact settled_ok ()
    · exact settled_reject _

section Run

variable {degree : Nat} (hdegree : degree.isPowerOfTwo) (hlimit : degree < 2 ^ 63)
include hdegree hlimit

theorem settled_generateModuli (taken : List UInt64) (sizes : List Nat) :
    Settled (generateModuli degree taken [] sizes) := by
  have hword := two_mul_lt_size hlimit
  obtain ⟨r, hr⟩ := exists_generated hdegree hword taken sizes
  rw [hr.eq hdegree hword]
  cases hr with
  | done => exact settled_ok _
  | invalidSize => exact .inr ⟨_, rfl⟩
  | exhausted => exact .inr ⟨_, rfl⟩

theorem settled_chooseModuli (given : List UInt64) (sizes : List Nat) (taken : List UInt64) :
    Settled (chooseModuli degree given sizes taken) := by
  unfold chooseModuli
  split_ifs
  · exact settled_ok given
  · exact settled_generateModuli hdegree hlimit taken sizes

end Run

theorem isPowerOfTwo_of_checkChoices (h : d.checkChoices = .ok ()) : d.degree.isPowerOfTwo :=
  PrimeSearch.isPowerOfTwo_iff.mp (checkChoices_eq_ok_iff.mp h).1.2

/-- The choice of moduli is settled. -/
theorem settled_choose (hlimit : d.degree < 2 ^ 63) : Settled d.choose := by
  refine (settled_checkChoices d).bind fun _ hchoices => ?_
  have hdegree := isPowerOfTwo_of_checkChoices hchoices
  refine (settled_chooseModuli hdegree hlimit _ _ _).bind fun moduli _ => ?_
  refine (settled_chooseModuli hdegree hlimit _ _ _).bind fun auxModuli _ => ?_
  exact (settled_checkModuli _).bind fun _ _ => settled_ok _

end ParameterDraft

/-! ## Valid parameters -/

namespace Parameters

variable {par : Parameters}

/-- What parameters promise about their moduli, chains, levels and sizes. -/
structure Validated (par : Parameters) : Prop where
  /-- All moduli differ. -/
  nodup : (par.moduli ++ par.auxModuli).Nodup
  /-- All moduli are odd primes below `2 ^ 62`. -/
  prime : ∀ m ∈ par.moduli ++ par.auxModuli,
    m.toNat.Prime ∧ m.toNat % 2 = 1 ∧ m.toNat < 2 ^ 62
  /-- The chain of a single basis has the ciphertext moduli. -/
  plain_moduli : (ResidueChain.moduli par.plain).map (·.value) = par.moduli
  /-- The chain of two bases has the ciphertext moduli followed by the auxiliary moduli. -/
  extended_moduli :
    (ResidueChain.moduli par.extended).map (·.value) = par.moduli ++ par.auxModuli
  /-- There is an auxiliary basis if there are auxiliary moduli. -/
  isSome_aux : par.extended.aux.isSome = true ↔ par.auxModuli ≠ []
  /-- Every level up to the last one has the basis of the first moduli. -/
  basisAt : ∀ l ≤ par.maxLevel, ∃ b, par.basisAt l = .ok b ∧ b.moduli = par.moduli.take (l + 1)
  /-- The sizes are the numbers of binary digits. -/
  sizes : par.sizes = par.moduli.map fun m => m.toNat.size

theorem AuxBasis.isSome_iff {degree : Nat} {ms : List UInt64} {o : Option RnsBasis}
    (h : AuxBasis degree ms o) : o.isSome = true ↔ ms ≠ [] := by
  rcases h with ⟨rfl, rfl⟩ | ⟨hne, b, -, rfl⟩
  · simp
  · simp [hne]

theorem AuxBasis.operators_eq {degree : Nat} {ms : List UInt64} {o : Option RnsBasis}
    (h : AuxBasis degree ms o) :
    (o.map (·.operators)).getD [] = ms.map Modulus.withConstants := by
  rcases h with ⟨rfl, rfl⟩ | ⟨-, b, hb, rfl⟩
  · rfl
  · have hoperators := (RnsBasis.built_of_ofModuli hb).operators_eq
    rw [(RnsBasis.shape_of_ofModuli hb).1] at hoperators
    simpa using hoperators

/-- The bit length of a number other than zero, by its logarithm. -/
theorem size_eq_log2 {n : Nat} (h : n ≠ 0) : n.size = n.log2 + 1 := by
  rw [PrimeSearch.size_eq_iff (Nat.succ_pos _)]
  exact ⟨Nat.log2_self_le h, Nat.lt_log2_self⟩

/-- The constants of a modulus keep its value. -/
theorem map_value_withConstants (ms : List UInt64) :
    (ms.map Modulus.withConstants).map (·.value) = ms := by
  rw [List.map_map]
  exact List.map_id ms

namespace Consistent

variable (h : par.Consistent)
include h

theorem operators_plain : par.plain.basis.operators = par.moduli.map Modulus.withConstants := by
  have hoperators := (RnsBasis.built_of_ofModuli h.main).operators_eq
  rwa [(RnsBasis.shape_of_ofModuli h.main).1] at hoperators

theorem operators_extended :
    par.extended.operators = (par.moduli ++ par.auxModuli).map Modulus.withConstants := by
  have hbuilt : par.extended.Built := h.built.extended
  rw [hbuilt.operators_eq, h.built.main_eq, h.operators_plain, h.aux.operators_eq, List.map_append]

theorem exists_basisAt {l : Nat} (hl : l ≤ par.maxLevel) :
    ∃ b, par.basisAt l = .ok b ∧ b.moduli = par.moduli.take (l + 1) := by
  have hbuilt := RnsBasis.built_of_ofModuli h.main
  have hmoduli := (RnsBasis.shape_of_ofModuli h.main).1
  have hlevel : l ≤ par.plain.basis.level := by
    rw [RnsBasis.level, hmoduli]
    exact hl
  obtain ⟨b, hb, -, -, hfirst⟩ := hbuilt.atLevel hlevel
  refine ⟨b, Outcome.mapError_eq_ok.mpr hb, ?_⟩
  rw [hfirst, hmoduli]

/-- Parameters of checked moduli keep what they promise. -/
theorem validated
    (hchecked : ParameterDraft.checkModuli (par.moduli ++ par.auxModuli) = .ok ())
    (hexact : Primality.ExactOn {n | ∃ m ∈ par.moduli ++ par.auxModuli, n = m.toNat}) :
    par.Validated := by
  obtain ⟨hsuitable, hnodup⟩ := ParameterDraft.checkModuli_eq_ok_iff.mp hchecked
  have hprime : ∀ m ∈ par.moduli ++ par.auxModuli,
      m.toNat.Prime ∧ m.toNat % 2 = 1 ∧ m.toNat < 2 ^ 62 := by
    intro m hm
    obtain ⟨hlimit, hodd, htest⟩ := ParameterDraft.isSuitable_iff.mp (hsuitable m hm)
    exact ⟨(hexact m.toNat ⟨m, hm, rfl⟩).mp htest, hodd, hlimit⟩
  refine ⟨hnodup, hprime, ?_, ?_, h.aux.isSome_iff, fun l hl => h.exists_basisAt hl, ?_⟩
  · change par.plain.basis.operators.map (·.value) = par.moduli
    rw [h.operators_plain, map_value_withConstants]
  · change par.extended.operators.map (·.value) = par.moduli ++ par.auxModuli
    rw [h.operators_extended, map_value_withConstants]
  · rw [h.sizes_eq]
    apply List.map_congr_left
    intro m hm
    exact (size_eq_log2 (hprime m (List.mem_append_left _ hm)).1.ne_zero).symm

end Consistent

end Parameters

namespace ParameterDraft

/-- A draft whose own checks pass has parameters, all of whose bases and chains could be
made, and where the primality test is right on their moduli they are valid.  A draft whose
checks fail reports a parameter error. -/
theorem build_validates (d : ParameterDraft) (hlimit : d.degree < 2 ^ 63)
    (hexact : Primality.ExactOn {n | ∃ par, d.build = .ok par ∧
      ∃ m ∈ par.moduli ++ par.auxModuli, n = m.toNat}) :
    (∃ par, d.build = .ok par ∧ d.Chosen par.moduli par.auxModuli ∧ par.Consistent ∧
        par.Validated) ∨
      ∃ e, d.build = .error (.failure (.parameters e)) ∧
        ∀ moduli auxModuli, ¬d.Chosen moduli auxModuli := by
  rcases settled_choose hlimit with ⟨⟨moduli, auxModuli⟩, hchoice⟩ | ⟨e, hchoice⟩
  · left
    obtain ⟨par, hbuild, -⟩ := (choose_eq_ok_iff.mp hchoice).exists_build
    obtain ⟨hchosen, -, hpar⟩ := build_eq_ok_iff.mp hbuild
    refine ⟨par, hbuild, hchosen, hpar, hpar.validated hchosen.checked ?_⟩
    refine hexact.mono ?_
    rintro n hn
    exact ⟨par, hbuild, hn⟩
  · right
    refine ⟨e, build_eq_error_iff.mpr hchoice, ?_⟩
    intro moduli auxModuli hchosen
    cases hchoice.symm.trans (choose_eq_ok_iff.mpr hchosen)

/-- A draft of degree 8 with the moduli 5 and 7 and the auxiliary modulus 11. -/
def fiveSevenDraft : ParameterDraft where
  degree := 8
  moduli := [5, 7]
  auxModuli := [11]

/-- The draft has valid parameters with moduli of three digits. -/
theorem build_validates_fiveSeven : ∃ par, fiveSevenDraft.build = .ok par ∧
    par.moduli = [5, 7] ∧ par.auxModuli = [11] ∧ par.sizes = [3, 3] ∧ par.Validated := by
  have hchosen : fiveSevenDraft.Chosen [5, 7] [11] := ⟨rfl, rfl, rfl, by decide⟩
  obtain ⟨par, hbuild, hmoduli, hauxModuli⟩ := hchosen.exists_build
  have hexact : Primality.ExactOn {n | ∃ par, fiveSevenDraft.build = .ok par ∧
      ∃ m ∈ par.moduli ++ par.auxModuli, n = m.toNat} := by
    refine Primality.exactOn_small.mono ?_
    rintro n ⟨par', hbuild', m, hm, rfl⟩
    obtain rfl := Except.ok.inj (hbuild.symm.trans hbuild')
    rw [hmoduli, hauxModuli] at hm
    change m ∈ [5, 7, 11] at hm
    fin_cases hm <;> decide
  rcases build_validates fiveSevenDraft (by decide) hexact with
    ⟨par', hbuild', -, -, hvalid⟩ | ⟨e, herror, -⟩
  · obtain rfl := Except.ok.inj (hbuild.symm.trans hbuild')
    refine ⟨par, hbuild, hmoduli, hauxModuli, ?_, hvalid⟩
    rw [hvalid.sizes, hmoduli]
    decide
  · cases hbuild.symm.trans herror

end ParameterDraft

end RingShamir
