import RingShamir.Parameters.Draft
import RingShamir.Proofs.Chain.Extended
import RingShamir.Proofs.Chain.Plain

/-!
# Construction of parameters

A draft decides on the moduli and checks them; everything else about the parameters
follows from the degree and the moduli.  The check of the moduli implies all the checks
that the bases and the chain of two bases make of their own, so the construction of these
cannot fail.

Main results:

- Theorem `RnsBasis.exists_ofModuli`: distinct suitable moduli span a basis.
- Definitions `ParameterDraft.Chosen` and `Parameters.Consistent`: what a draft decides on,
  and what its parameters consist of.
- Theorem `Parameters.exists_consistent`: moduli that pass the check span the chains of
  parameters.
- Theorem `ParameterDraft.build_eq`: building is choosing moduli and then construction.
- Theorem `ParameterDraft.build_eq_ok_iff`: which parameters a draft has.
- Theorems `ParameterDraft.Chosen.exists_build` and `ParameterDraft.build_eq_error_iff`:
  only the choice of moduli can fail.
- Theorem `Parameters.built_of_build`: the chains of parameters were made of their
  moduli.
-/

namespace RingShamir

/-! ## Bases of suitable moduli -/

/-- What a suitable word is. -/
theorem ParameterDraft.isSuitable_iff {m : UInt64} : isSuitable m = true ↔
    m.toNat < 2 ^ 62 ∧ m.toNat % 2 = 1 ∧ Primality.isPrime m.toNat = true := by
  have hlimit : ((1 : UInt64) <<< 62).toNat = 2 ^ 62 := rfl
  have hodd : m % 2 ≠ 0 ↔ m.toNat % 2 = 1 := by
    rw [ne_eq, ← UInt64.toNat_inj, UInt64.toNat_mod]
    exact Nat.mod_two_ne_zero
  rw [isSuitable, Bool.and_eq_true, Bool.and_eq_true, decide_eq_true_eq, decide_eq_true_eq, hodd,
    UInt64.lt_iff_toNat_lt, hlimit, and_assoc]

namespace RnsBasis

open ParameterDraft (isSuitable isSuitable_iff)

variable {degree : Nat} {ms : List UInt64} {m : UInt64}

theorem primeOperator_of_isSuitable (h : isSuitable m = true) :
    primeOperator m = .ok (.withConstants m) := by
  obtain ⟨hlimit, hodd, hprime⟩ := isSuitable_iff.mp h
  have htwo : 2 ≤ m.toNat := by
    simp only [Primality.isPrime, Bool.and_eq_true, decide_eq_true_eq] at hprime
    exact hprime.1
  have hisOdd : (Modulus.withConstants m).isOdd = true := by
    apply decide_eq_true
    apply UInt64.toNat_inj.mp
    rw [UInt64.toNat_mod]
    exact hodd
  rw [primeOperator, Modulus.ofWord_of_lt htwo hlimit, Outcome.ok_bind, hisOdd, hprime]
  rfl

theorem checkShape_eq_ok (hdegree : 8 ≤ degree) (hpower : PrimeSearch.isPowerOfTwo degree = true)
    (hne : ms ≠ []) (hnodup : ms.Nodup) : checkShape ms degree = .ok () := by
  have height : ¬degree < 8 := Nat.not_lt.mpr hdegree
  simp [checkShape, hpower, height, hne, hnodup]

/-- Distinct suitable moduli span a basis, level by level. -/
theorem exists_ofDescending (hdegree : 8 ≤ degree)
    (hpower : PrimeSearch.isPowerOfTwo degree = true) (hne : ms ≠ []) (hnodup : ms.Nodup)
    (hsuitable : ∀ m ∈ ms, isSuitable m = true) : ∃ b, ofDescending degree ms = .ok b := by
  induction ms with
  | nil => exact absurd rfl hne
  | cons m rest ih =>
      have hshape := checkShape_eq_ok hdegree hpower
        (List.reverse_ne_nil_iff.mpr (List.cons_ne_nil m rest)) (List.nodup_reverse.mpr hnodup)
      have hoperators : (m :: rest).reverse.mapM primeOperator =
          .ok ((m :: rest).reverse.map Modulus.withConstants) :=
        Outcome.mapM_eq_ok fun x hx =>
          primeOperator_of_isSuitable (hsuitable x (List.mem_reverse.mp hx))
      rw [ofDescending]
      simp only [hshape, hoperators, Outcome.ok_bind]
      by_cases hempty : rest.isEmpty = true
      · rw [if_pos hempty]
        exact ⟨_, rfl⟩
      · obtain ⟨lower, hlower⟩ := ih (mt List.isEmpty_iff.mpr hempty)
          (List.nodup_cons.mp hnodup).2 fun x hx => hsuitable x (List.mem_cons_of_mem m hx)
        rw [if_neg hempty, hlower]
        exact ⟨_, rfl⟩

/-- Distinct suitable moduli span a basis. -/
theorem exists_ofModuli (hdegree : 8 ≤ degree) (hpower : PrimeSearch.isPowerOfTwo degree = true)
    (hne : ms ≠ []) (hnodup : ms.Nodup) (hsuitable : ∀ m ∈ ms, isSuitable m = true) :
    ∃ b, ofModuli ms degree = .ok b :=
  exists_ofDescending hdegree hpower (List.reverse_ne_nil_iff.mpr hne)
    (List.nodup_reverse.mpr hnodup) fun m hm => hsuitable m (List.mem_reverse.mp hm)

end RnsBasis

/-! ## Checks of drafts -/

namespace ParameterDraft

variable {d : ParameterDraft} {ms moduli auxModuli : List UInt64}

theorem reject_ne_ok {α : Type} (e : ParameterError) (a : α) : reject e ≠ .ok a := by
  rintro ⟨⟩

theorem checkModuli_eq_ok_iff : checkModuli ms = .ok () ↔
    (∀ m ∈ ms, isSuitable m = true) ∧ ms.Nodup := by
  unfold checkModuli
  split
  next m hfound =>
      have hbad := List.find?_some hfound
      have hmem := List.mem_of_find?_eq_some hfound
      simp only [reject_ne_ok, false_iff, not_and]
      intro hall
      rw [hall m hmem] at hbad
      cases hbad
  next hnone =>
      have hall : ∀ m ∈ ms, isSuitable m = true := by
        intro m hm
        simpa using List.find?_eq_none.mp hnone m hm
      by_cases hnodup : ms.Nodup
      · simpa [hnodup] using hall
      · simp [hnodup, reject_ne_ok]

theorem checkChoices_eq_ok_iff : d.checkChoices = .ok () ↔
    (8 ≤ d.degree ∧ PrimeSearch.isPowerOfTwo d.degree = true) ∧
      (d.moduli = [] ∨ d.sizes = []) ∧ (d.moduli ≠ [] ∨ d.sizes ≠ []) ∧
        (d.auxModuli = [] ∨ d.auxSizes = []) := by
  unfold checkChoices
  split_ifs with hdegree hmain hnone haux
  all_goals simp only [Bool.or_eq_true, Bool.and_eq_true, Bool.not_eq_true', decide_eq_true_eq,
    List.isEmpty_iff, ← Bool.not_eq_true, ← Nat.not_le, ne_eq] at *
  all_goals simp only [reject_ne_ok, Outcome.pure_eq_ok, false_iff, true_iff]
  all_goals tauto

theorem length_of_generateModuli {degree : Nat} {taken found m : List UInt64} {sizes : List Nat}
    (h : generateModuli degree taken found sizes = .ok m) :
    m.length = found.length + sizes.length := by
  induction sizes generalizing found with
  | nil =>
      obtain rfl : found = m := Except.ok.inj h
      rfl
  | cons size sizes ih =>
      rw [generateModuli] at h
      split at h
      · exact absurd h (reject_ne_ok _ _)
      · obtain ⟨p, -, hrest⟩ := Outcome.bind_eq_ok.mp h
        rw [ih hrest, List.length_append, List.length_singleton, List.length_cons]
        omega

/-- What a draft decides on: its choices are in order, and these are the moduli that are
given or generated. -/
structure Chosen (d : ParameterDraft) (moduli auxModuli : List UInt64) : Prop where
  /-- The degree is accepted, and each list of moduli is chosen in one way. -/
  choices : d.checkChoices = .ok ()
  /-- The ciphertext moduli. -/
  main : chooseModuli d.degree d.moduli d.sizes [] = .ok moduli
  /-- The auxiliary moduli. -/
  aux : chooseModuli d.degree d.auxModuli d.auxSizes moduli = .ok auxModuli
  /-- The moduli pass the check. -/
  checked : checkModuli (moduli ++ auxModuli) = .ok ()

/-- There are ciphertext moduli. -/
theorem Chosen.moduli_ne_nil (h : d.Chosen moduli auxModuli) : moduli ≠ [] := by
  have hmain := h.main
  rcases (checkChoices_eq_ok_iff.mp h.choices).2.2.1 with hgiven | hsizes
  · have hnone : d.sizes = [] :=
      (checkChoices_eq_ok_iff.mp h.choices).2.1.resolve_left hgiven
    rw [chooseModuli, hnone, List.isEmpty_nil, if_pos rfl] at hmain
    exact Except.ok.inj hmain ▸ hgiven
  · rw [chooseModuli, if_neg (mt List.isEmpty_iff.mp hsizes)] at hmain
    have hlength := length_of_generateModuli hmain
    have hpos := List.length_pos_iff.mpr hsizes
    exact List.length_pos_iff.mp (by omega)

end ParameterDraft

/-! ## Parameters of moduli -/

namespace Parameters

open ParameterDraft (isSuitable checkModuli checkModuli_eq_ok_iff)

/-- The auxiliary basis of a list of moduli: there is one if there are moduli. -/
def AuxBasis (degree : Nat) (ms : List UInt64) (o : Option RnsBasis) : Prop :=
  (ms = [] ∧ o = none) ∨ (ms ≠ [] ∧ ∃ b, RnsBasis.ofModuli ms degree = .ok b ∧ o = some b)

theorem AuxBasis.built {degree : Nat} {ms : List UInt64} {o : Option RnsBasis}
    (h : AuxBasis degree ms o) : ∀ p ∈ o, RnsBasis.Built p := by
  rcases h with ⟨-, rfl⟩ | ⟨-, b, hb, rfl⟩
  · simp
  · simpa using RnsBasis.built_of_ofModuli hb

/-- The chains of parameters are those of their degree and moduli. -/
structure Consistent (par : Parameters) : Prop where
  /-- The main basis has the ciphertext moduli. -/
  main : RnsBasis.ofModuli par.moduli par.degree = .ok par.plain.basis
  /-- The auxiliary basis has the auxiliary moduli, if there are any. -/
  aux : AuxBasis par.degree par.auxModuli par.extended.aux
  /-- The extended chain has these bases. -/
  extended : ExtendedChain.ofBases par.plain.basis par.extended.aux = .ok par.extended
  /-- The sizes are the numbers of binary digits. -/
  sizes_eq : par.sizes = par.moduli.map fun m => m.toNat.log2 + 1

/-- Parameters whose chains were made of their moduli. -/
structure Built (par : Parameters) : Prop where
  /-- The chain of a single basis. -/
  plain : RingShamir.Built par.plain
  /-- The chain of two bases. -/
  extended : RingShamir.Built par.extended
  /-- The chains share the main basis. -/
  main_eq : par.extended.main = par.plain.basis

variable {degree : Nat} {moduli auxModuli : List UInt64} {par : Parameters}

theorem Consistent.built (h : par.Consistent) : par.Built := by
  have hmain := RnsBasis.built_of_ofModuli h.main
  obtain ⟨hbuilt, hsame, -⟩ := ExtendedChain.built_of_ofBases hmain h.aux.built h.extended
  exact ⟨hmain, hbuilt, hsame⟩

theorem Built.mem_moduli_extended {par : Parameters} (h : par.Built) {q : Modulus}
    (hq : q ∈ ResidueChain.moduli par.plain) : q ∈ ResidueChain.moduli par.extended := by
  have hextended : par.extended.Built := h.extended
  have hmain : q ∈ par.extended.main.operators := by
    rw [h.main_eq]
    exact hq
  change q ∈ par.extended.operators
  rw [hextended.operators_eq]
  exact List.mem_append_left _ hmain

/-- Moduli that pass the check span the chains of parameters. -/
theorem exists_consistent (hdegree : 8 ≤ degree)
    (hpower : PrimeSearch.isPowerOfTwo degree = true) (hne : moduli ≠ [])
    (hchecked : checkModuli (moduli ++ auxModuli) = .ok ()) :
    ∃ par : Parameters, par.degree = degree ∧ par.moduli = moduli ∧
      par.auxModuli = auxModuli ∧ par.Consistent := by
  obtain ⟨hsuitable, hnodup⟩ := checkModuli_eq_ok_iff.mp hchecked
  obtain ⟨main, hmain⟩ := RnsBasis.exists_ofModuli hdegree hpower hne
    (List.nodup_append.mp hnodup).1 fun m hm => hsuitable m (List.mem_append_left _ hm)
  obtain ⟨hmainModuli, hmainDegree⟩ := RnsBasis.shape_of_ofModuli hmain
  by_cases hempty : auxModuli = []
  · refine ⟨⟨degree, moduli, moduli.map fun m => m.toNat.log2 + 1, auxModuli, ⟨main⟩,
      ⟨main, none, main.operators⟩⟩, rfl, rfl, rfl, ?_⟩
    exact ⟨hmain, .inl ⟨hempty, rfl⟩, rfl, rfl⟩
  · obtain ⟨aux, haux⟩ := RnsBasis.exists_ofModuli hdegree hpower hempty
      (List.nodup_append.mp hnodup).2.1 fun m hm => hsuitable m (List.mem_append_right _ hm)
    obtain ⟨hauxModuli, hauxDegree⟩ := RnsBasis.shape_of_ofModuli haux
    have hextended : ExtendedChain.ofBases main (some aux) =
        .ok ⟨main, some aux, main.operators ++ aux.operators⟩ := by
      have hsame : ¬aux.degree ≠ main.degree := by rw [hauxDegree, hmainDegree]; simp
      have hdistinct : ¬¬(main.moduli ++ aux.moduli).Nodup := by
        rw [hmainModuli, hauxModuli]
        exact not_not.mpr hnodup
      simp only [ExtendedChain.ofBases]
      rw [if_neg hsame, if_neg hdistinct, Outcome.pure_eq_ok]
    refine ⟨⟨degree, moduli, moduli.map fun m => m.toNat.log2 + 1, auxModuli, ⟨main⟩,
      ⟨main, some aux, main.operators ++ aux.operators⟩⟩, rfl, rfl, rfl, ?_⟩
    exact ⟨hmain, .inr ⟨hempty, aux, haux, rfl⟩, hextended, rfl⟩

end Parameters

namespace ParameterDraft

variable {d : ParameterDraft} {moduli auxModuli : List UInt64} {par : Parameters}

/-- The moduli that a draft decides on, checked. -/
def choose (d : ParameterDraft) : Outcome SchemeError (List UInt64 × List UInt64) := do
  d.checkChoices
  let moduli ← chooseModuli d.degree d.moduli d.sizes []
  let auxModuli ← chooseModuli d.degree d.auxModuli d.auxSizes moduli
  checkModuli (moduli ++ auxModuli)
  pure (moduli, auxModuli)

theorem choose_eq_ok_iff : d.choose = .ok (moduli, auxModuli) ↔ d.Chosen moduli auxModuli := by
  simp only [choose, Outcome.bind_eq_ok, Outcome.pure_eq_ok, Except.ok.injEq, Prod.mk.injEq]
  constructor
  · rintro ⟨_, hchoices, _, hmain, _, haux, _, hchecked, rfl, rfl⟩
    exact ⟨hchoices, hmain, haux, hchecked⟩
  · intro h
    exact ⟨(), h.choices, _, h.main, _, h.aux, (), h.checked, rfl, rfl⟩

/-- The parameters of a degree and of moduli. -/
def construct (degree : Nat) (moduli auxModuli : List UInt64) : Outcome SchemeError Parameters := do
  let main ← (RnsBasis.ofModuli moduli degree).mapError SchemeError.ofRing
  let aux ←
    if auxModuli.isEmpty then pure none
    else some <$> (RnsBasis.ofModuli auxModuli degree).mapError SchemeError.ofRing
  let extended ← (ExtendedChain.ofBases main aux).mapError SchemeError.ofRing
  pure ⟨degree, moduli, moduli.map fun m => m.toNat.log2 + 1, auxModuli, ⟨main⟩, extended⟩

/-- A draft decides on moduli, and the parameters are made of these. -/
theorem build_eq (d : ParameterDraft) :
    d.build = d.choose >>= fun c => construct d.degree c.1 c.2 := by
  simp only [build, choose, construct, bind_assoc, pure_bind]

/-- Going on with the auxiliary basis. -/
theorem auxBasis_bind_eq_ok_iff {degree : Nat} {ms : List UInt64}
    {k : Option RnsBasis → Outcome SchemeError Parameters} :
    (if ms.isEmpty then pure none >>= k
      else (some <$> (RnsBasis.ofModuli ms degree).mapError SchemeError.ofRing) >>= k) = .ok par ↔
      ∃ o, Parameters.AuxBasis degree ms o ∧ k o = .ok par := by
  by_cases hempty : ms = []
  · simp [Parameters.AuxBasis, hempty]
  · rw [if_neg (mt List.isEmpty_iff.mp hempty)]
    cases hbasis : RnsBasis.ofModuli ms degree with
    | error e => simp [Parameters.AuxBasis, hempty, hbasis, Functor.map, Except.map]
    | ok b => simp [Parameters.AuxBasis, hempty, hbasis, Functor.map, Except.map]

/-- The parameters of a degree and of moduli are those whose chains are theirs. -/
theorem construct_eq_ok_iff {degree : Nat} : construct degree moduli auxModuli = .ok par ↔
    par.degree = degree ∧ par.moduli = moduli ∧ par.auxModuli = auxModuli ∧ par.Consistent := by
  simp only [construct, Outcome.bind_eq_ok, Outcome.mapError_eq_ok, auxBasis_bind_eq_ok_iff]
  constructor
  · rintro ⟨main, hmain, aux, haux, extended, hextended, h⟩
    obtain rfl := Except.ok.inj h
    obtain ⟨-, -, rfl⟩ := ExtendedChain.built_of_ofBases (RnsBasis.built_of_ofModuli hmain)
      haux.built hextended
    exact ⟨rfl, rfl, rfl, hmain, haux, hextended, rfl⟩
  · rintro ⟨rfl, rfl, rfl, h⟩
    refine ⟨_, h.main, _, h.aux, _, h.extended, ?_⟩
    rw [Outcome.pure_eq_ok, ← h.sizes_eq]

/-- The parameters of a draft are those of the degree and the moduli that it decides on. -/
theorem build_eq_ok_iff : d.build = .ok par ↔
    d.Chosen par.moduli par.auxModuli ∧ par.degree = d.degree ∧ par.Consistent := by
  simp only [build_eq, Outcome.bind_eq_ok, Prod.exists, choose_eq_ok_iff, construct_eq_ok_iff]
  constructor
  · rintro ⟨_, _, h, hdegree, rfl, rfl, hpar⟩
    exact ⟨h, hdegree, hpar⟩
  · rintro ⟨h, hdegree, hpar⟩
    exact ⟨_, _, h, hdegree, rfl, rfl, hpar⟩

/-- A draft that decides on moduli has parameters. -/
theorem Chosen.exists_build (h : d.Chosen moduli auxModuli) :
    ∃ par, d.build = .ok par ∧ par.moduli = moduli ∧ par.auxModuli = auxModuli := by
  obtain ⟨⟨hdegree, hpower⟩, -⟩ := checkChoices_eq_ok_iff.mp h.choices
  obtain ⟨par, hpar, rfl, rfl, hconsistent⟩ :=
    Parameters.exists_consistent hdegree hpower h.moduli_ne_nil h.checked
  exact ⟨par, build_eq_ok_iff.mpr ⟨h, hpar, hconsistent⟩, rfl, rfl⟩

/-- Only the choice of moduli can fail. -/
theorem build_eq_error_iff {e : Fault SchemeError} : d.build = .error e ↔ d.choose = .error e := by
  cases h : d.choose with
  | error e' => rw [build_eq, h, Outcome.error_bind, Except.error.injEq, Except.error.injEq]
  | ok c =>
      obtain ⟨par, hbuild, -⟩ := (choose_eq_ok_iff.mp h).exists_build
      simp [hbuild]

end ParameterDraft

theorem Parameters.built_of_build {d : ParameterDraft} {par : Parameters} (h : d.build = .ok par) :
    par.Built :=
  (ParameterDraft.build_eq_ok_iff.mp h).2.2.built

end RingShamir
