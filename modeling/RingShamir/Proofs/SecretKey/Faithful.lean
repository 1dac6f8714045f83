import Mathlib.Algebra.Order.BigOperators.GroupWithZero.List
import RingShamir.Proofs.Parameters.Validation
import RingShamir.Proofs.RnsPoly.CentredLift
import RingShamir.Proofs.SecretKey

/-!
# Faithful embeddings of secret keys

A key is embedded over all moduli, and over the ciphertext moduli up to each level.  Both
embeddings reduce every coefficient modulo every modulus, so they agree on the rows that they
share.  At each level the coefficients that are small against the product of its moduli can be
read back, and keys of such coefficients have different polynomials.

Polynomials need memory: an embedding succeeds where its rows can be addressed, and fails for no
other reason.

Main results:

- Theorem `Parameters.Consistent.of_basisAt`: the basis of a level.
- Theorem `toPlain_eq_of_toExtended`: the polynomial of a level has the first rows of the
  element over all moduli.
- Definition `EmbedsFaithfully` and theorem `embedsFaithfully`: what the embeddings of the keys
  of parameters keep.
-/

namespace RingShamir

namespace Parameters

variable {par : Parameters} {b : RnsBasis} {l : Nat}

/-- Rows of coefficients in a number that can be addressed. -/
def Addresses (par : Parameters) (rows : Nat) : Prop :=
  8 * par.degree * rows < Word.addressLimit

/-- The product of the moduli up to a level. -/
def productAt (par : Parameters) (l : Nat) : Nat :=
  ((par.moduli.take (l + 1)).map (·.toNat)).prod

theorem Consistent.basis_eq (h : par.Consistent) :
    par.plain.basis.moduli = par.moduli ∧ par.plain.basis.degree = par.degree :=
  RnsBasis.shape_of_ofModuli h.main

/-- The basis of a level is there up to the last level, and has the first moduli. -/
theorem Consistent.of_basisAt (h : par.Consistent) (hb : par.basisAt l = .ok b) :
    b.Built ∧ b.degree = par.degree ∧ b.moduli = par.moduli.take (l + 1) ∧
      b.moduli.length = l + 1 ∧ l ≤ par.maxLevel := by
  obtain ⟨hmoduli, hdegree⟩ := h.basis_eq
  have hplain := RnsBasis.built_of_ofModuli h.main
  obtain ⟨hbuilt, hfirst, rfl⟩ := hplain.of_atLevel (Outcome.mapError_eq_ok.mp hb)
  have htake := hbuilt.moduli_eq_take hfirst
  have hlevel := hbuilt.level_le hplain hfirst
  rw [hmoduli] at htake
  rw [RnsBasis.level.eq_1 par.plain.basis, hmoduli] at hlevel
  exact ⟨hbuilt, ((RnsBasis.isPrefixOf_iff _ _).mp hfirst).1.trans hdegree, htake,
    hbuilt.length_moduli, hlevel⟩

end Parameters

namespace SecretKey

open RnsPoly (HasResidues ofInts ofInts_eq_ok_iff)

variable {par : Parameters} {b : RnsBasis} {v w : List Int} {l : Nat} {a : RnsPoly}
  {e : ExtendedPoly}

/-! ## Success -/

/-- Integers make a polynomial over a basis of the degree where its rows can be addressed. -/
theorem exists_ofInts_iff (hb : b.Built) (hdegree : b.degree = par.degree)
    (hlength : v.length = par.degree) :
    (∃ a, ofInts b v = .ok a) ↔ par.Addresses b.moduli.length := by
  simp only [ofInts_eq_ok_iff, exists_and_left, exists_eq, and_true, hlength, hdegree, true_and,
    RnsPoly.encodedSize, hb.length_operators, Parameters.Addresses]

/-- A key has a polynomial at every level whose rows can be addressed. -/
theorem exists_toPlain_iff (hpar : par.Consistent) (hlength : v.length = par.degree) :
    (∃ a, toPlain ⟨par, v⟩ l = .ok a) ↔ l ≤ par.maxLevel ∧ par.Addresses (l + 1) := by
  constructor
  · rintro ⟨a, ha⟩
    obtain ⟨b, hb, ha⟩ := toPlain_eq_ok_iff.mp ha
    obtain ⟨hbuilt, hdegree, -, hcount, hlevel⟩ := hpar.of_basisAt hb
    exact ⟨hlevel, hcount ▸ (exists_ofInts_iff hbuilt hdegree hlength).mp ⟨a, ha⟩⟩
  · rintro ⟨hlevel, hfits⟩
    obtain ⟨b, hb, -⟩ := hpar.exists_basisAt hlevel
    obtain ⟨hbuilt, hdegree, -, hcount, -⟩ := hpar.of_basisAt hb
    obtain ⟨a, ha⟩ := (exists_ofInts_iff hbuilt hdegree hlength).mpr (hcount ▸ hfits)
    exact ⟨a, toPlain_eq_ok_iff.mpr ⟨b, hb, ha⟩⟩

/-- A key has an element over all moduli where the rows of both parts can be addressed. -/
theorem exists_toExtended_iff (hpar : par.Consistent) (hlength : v.length = par.degree) :
    (∃ e, toExtended ⟨par, v⟩ = .ok e) ↔
      par.Addresses par.moduli.length ∧ par.Addresses par.auxModuli.length := by
  obtain ⟨hmoduli, hdegree⟩ := hpar.basis_eq
  have hmain := exists_ofInts_iff (v := v) (RnsBasis.built_of_ofModuli hpar.main) hdegree hlength
  rw [hmoduli] at hmain
  simp only [toExtended_eq_ok, hpar.built.main_eq, ← hmain]
  rcases hpar.aux with ⟨hempty, hnone⟩ | ⟨-, p, hp, hsome⟩
  · have hfits : par.Addresses par.auxModuli.length := by
      simp [Parameters.Addresses, hempty, Word.addressLimit, UInt64.size]
    constructor
    · rintro ⟨e, ha, -⟩
      exact ⟨⟨_, ha⟩, hfits⟩
    · rintro ⟨⟨a, ha⟩, -⟩
      exact ⟨⟨a, none⟩, ha, .inl ⟨hnone, rfl⟩⟩
  · obtain ⟨hauxModuli, hauxDegree⟩ := RnsBasis.shape_of_ofModuli hp
    have haux :=
      exists_ofInts_iff (v := v) (RnsBasis.built_of_ofModuli hp) hauxDegree hlength
    rw [hauxModuli] at haux
    rw [← haux]
    constructor
    · rintro ⟨e, ha, ⟨hnone, -⟩ | ⟨p', c, hp', -, hc⟩⟩
      · cases hsome.symm.trans hnone
      · obtain rfl := Option.some.inj (hsome.symm.trans hp')
        exact ⟨⟨_, ha⟩, c, hc⟩
    · rintro ⟨⟨a, ha⟩, c, hc⟩
      exact ⟨⟨a, some c⟩, ha, .inr ⟨p, c, hsome, rfl, hc⟩⟩

/-! ## Residues -/

/-- Each row of the element over all moduli holds the residues of the coefficients. -/
theorem hasResidues_of_toExtended (hpar : par.Consistent) (h : toExtended ⟨par, v⟩ = .ok e) :
    HasResidues par.moduli v e.main.rows ∧
      HasResidues par.auxModuli v ((e.aux.map (·.rows)).getD []) := by
  obtain ⟨hmain, haux⟩ := toExtended_eq_ok.mp h
  rw [hpar.built.main_eq] at hmain
  refine ⟨?_, ?_⟩
  · rw [← hpar.basis_eq.1]
    exact RnsPoly.hasResidues_of_ofInts (RnsBasis.built_of_ofModuli hpar.main) hmain
  · rcases hpar.aux with ⟨hempty, hnone⟩ | ⟨-, p, hp, hsome⟩
    · rcases haux with ⟨-, he⟩ | ⟨p, c, hp, -⟩
      · rw [hempty, he]
        exact .nil
      · cases hnone.symm.trans hp
    · rcases haux with ⟨hnone, -⟩ | ⟨p', c, hp', he, hc⟩
      · cases hsome.symm.trans hnone
      · obtain rfl := Option.some.inj (hsome.symm.trans hp')
        rw [he, ← (RnsBasis.shape_of_ofModuli hp).1]
        exact RnsPoly.hasResidues_of_ofInts (RnsBasis.built_of_ofModuli hp) hc

/-- Each row of the polynomial of a level holds the residues of the coefficients. -/
theorem hasResidues_of_toPlain (hpar : par.Consistent) (h : toPlain ⟨par, v⟩ l = .ok a) :
    a.basis.moduli = par.moduli.take (l + 1) ∧ HasResidues a.basis.moduli v a.rows := by
  obtain ⟨b, hb, ha⟩ := toPlain_eq_ok_iff.mp h
  obtain ⟨hbuilt, -, hmoduli, -⟩ := hpar.of_basisAt hb
  have hrows := RnsPoly.hasResidues_of_ofInts hbuilt ha
  obtain ⟨-, -, rfl⟩ := ofInts_eq_ok_iff.mp ha
  exact ⟨hmoduli, hrows⟩

/-- The polynomial of a level has the first rows of the element over all moduli. -/
theorem toPlain_eq_of_toExtended (hpar : par.Consistent) (h : toExtended ⟨par, v⟩ = .ok e)
    (hl : l ≤ par.maxLevel) : ∃ b, par.basisAt l = .ok b ∧
      toPlain ⟨par, v⟩ l = .ok ⟨b, e.main.rows.take (l + 1)⟩ := by
  obtain ⟨hmain, -⟩ := toExtended_eq_ok.mp h
  rw [hpar.built.main_eq] at hmain
  obtain ⟨hlength, hfits, hrows⟩ := ofInts_eq_ok_iff.mp hmain
  obtain ⟨hplainModuli, hplainDegree⟩ := hpar.basis_eq
  have hplain := RnsBasis.built_of_ofModuli hpar.main
  obtain ⟨b, hb, -⟩ := hpar.exists_basisAt hl
  obtain ⟨hbuilt, hdegree, hmoduli, -⟩ := hpar.of_basisAt hb
  have hoperators : b.operators = par.plain.basis.operators.take (l + 1) := by
    rw [hbuilt.operators_eq, hplain.operators_eq, hmoduli, hplainModuli, List.map_take]
  refine ⟨b, hb, toPlain_eq_ok_iff.mpr ⟨b, hb, ofInts_eq_ok_iff.mpr ⟨?_, ?_, ?_⟩⟩⟩
  · rw [hlength, hplainDegree, hdegree]
  · refine lt_of_le_of_lt (Nat.mul_le_mul (Nat.mul_le_mul_left 8 ?_) ?_) hfits
    · rw [hdegree, hplainDegree]
    · rw [hoperators, List.length_take]
      exact Nat.min_le_right _ _
  · rw [hrows, hoperators, List.map_take]

/-! ## Reading coefficients back -/

section Lifts

variable (hpar : par.Consistent) (hvalid : par.Validated)
include hpar hvalid

/-- Small coefficients are the centred lifts of their residues. -/
theorem lift_eq_of_toPlain (h : toPlain ⟨par, v⟩ l = .ok a) {j : Nat} {c : Int}
    (hc : v[j]? = some c) (hsmall : 2 * |c| < par.productAt l) : a.lift j = c := by
  obtain ⟨hmoduli, hrows⟩ := hasResidues_of_toPlain hpar h
  have hfirst : ∀ m ∈ a.basis.moduli, m ∈ par.moduli := by
    intro m hm
    rw [hmoduli] at hm
    exact List.mem_of_mem_take hm
  refine hrows.lift_eq ?_ (fun m hm => ?_) hc ?_
  · rw [hmoduli]
    exact (List.nodup_append.mp hvalid.nodup).1.sublist (List.take_sublist _ _)
  · exact (hvalid.prime m (List.mem_append_left _ (hfirst m hm))).1
  · rw [hmoduli]
    exact hsmall

/-- Keys of small coefficients are told apart by their polynomials. -/
theorem eq_of_toPlain (hv : toPlain ⟨par, v⟩ l = .ok a) (hw : toPlain ⟨par, w⟩ l = .ok a)
    (hsmall : ∀ c ∈ v ++ w, 2 * |c| < par.productAt l) : v = w := by
  have hlength : v.length = w.length := by
    obtain ⟨b, hb, ha⟩ := toPlain_eq_ok_iff.mp hv
    obtain ⟨b', hb', ha'⟩ := toPlain_eq_ok_iff.mp hw
    obtain rfl := Except.ok.inj (hb.symm.trans hb')
    rw [(ofInts_eq_ok_iff.mp ha).1, (ofInts_eq_ok_iff.mp ha').1]
  apply List.ext_getElem hlength
  intro j hj hj'
  rw [← lift_eq_of_toPlain hpar hvalid hv (List.getElem?_eq_getElem hj)
      (hsmall _ (List.mem_append_left _ (List.getElem_mem hj))),
    ← lift_eq_of_toPlain hpar hvalid hw (List.getElem?_eq_getElem hj')
      (hsmall _ (List.mem_append_right _ (List.getElem_mem hj')))]

/-- There is a modulus, and it is at least three. -/
theorem two_lt_productAt (l : Nat) : 2 < par.productAt l := by
  have hne : par.moduli ≠ [] := hpar.basis_eq.1 ▸
    (RnsBasis.built_of_ofModuli hpar.main).moduli_ne_nil
  obtain ⟨m, rest, hmoduli⟩ := List.exists_cons_of_ne_nil hne
  have hprime : ∀ x ∈ par.moduli, x.toNat.Prime := fun x hx =>
    (hvalid.prime x (List.mem_append_left _ hx)).1
  have hodd := (hvalid.prime m (by simp [hmoduli])).2.1
  have htwo := (hprime m (by simp [hmoduli])).two_le
  have hrest : 0 < ((rest.take l).map (·.toNat)).prod := by
    apply List.prod_pos
    intro n hn
    obtain ⟨x, hx, rfl⟩ := List.mem_map.mp hn
    have hmem : x ∈ par.moduli := hmoduli ▸ List.mem_cons_of_mem m (List.mem_of_mem_take hx)
    exact (hprime x hmem).pos
  rw [Parameters.productAt, hmoduli, List.take_succ_cons, List.map_cons, List.prod_cons]
  calc 2 < m.toNat := by omega
    _ ≤ m.toNat * ((rest.take l).map (·.toNat)).prod := Nat.le_mul_of_pos_right _ hrest

end Lifts

/-! ## Faithful parameters -/

/-- What the embeddings of the keys of parameters keep. -/
structure EmbedsFaithfully (par : Parameters) : Prop where
  /-- There is an element over all moduli where its rows can be addressed. -/
  exists_toExtended : ∀ v : List Int, v.length = par.degree →
    ((∃ e, toExtended ⟨par, v⟩ = .ok e) ↔
      par.Addresses par.moduli.length ∧ par.Addresses par.auxModuli.length)
  /-- There is a polynomial at every level where its rows can be addressed. -/
  exists_toPlain : ∀ (v : List Int) (l : Nat), v.length = par.degree →
    ((∃ a, toPlain ⟨par, v⟩ l = .ok a) ↔ l ≤ par.maxLevel ∧ par.Addresses (l + 1))
  /-- All residues are the least non-negative ones. -/
  hasResidues : ∀ (v : List Int) (e : ExtendedPoly), toExtended ⟨par, v⟩ = .ok e →
    HasResidues par.moduli v e.main.rows ∧
      HasResidues par.auxModuli v ((e.aux.map (·.rows)).getD [])
  /-- The polynomial of a level has the first rows of the element over all moduli. -/
  toPlain_eq : ∀ (v : List Int) (e : ExtendedPoly) (l : Nat), toExtended ⟨par, v⟩ = .ok e →
    l ≤ par.maxLevel → ∃ b, par.basisAt l = .ok b ∧
      toPlain ⟨par, v⟩ l = .ok ⟨b, e.main.rows.take (l + 1)⟩
  /-- Small coefficients are read back. -/
  lift_eq : ∀ (v : List Int) (l : Nat) (a : RnsPoly), toPlain ⟨par, v⟩ l = .ok a →
    ∀ (j : Nat) (c : Int), v[j]? = some c → 2 * |c| < par.productAt l → a.lift j = c
  /-- Keys of small coefficients are told apart. -/
  injective : ∀ (v w : List Int) (l : Nat) (a : RnsPoly), toPlain ⟨par, v⟩ l = .ok a →
    toPlain ⟨par, w⟩ l = .ok a → (∀ c ∈ v ++ w, 2 * |c| < par.productAt l) → v = w
  /-- Ternary keys are told apart. -/
  injective_ternary : ∀ (v w : List Int) (l : Nat) (a : RnsPoly), toPlain ⟨par, v⟩ l = .ok a →
    toPlain ⟨par, w⟩ l = .ok a → (∀ c ∈ v ++ w, c = -1 ∨ c = 0 ∨ c = 1) → v = w

/-- Keys are embedded faithfully. -/
theorem embedsFaithfully {d : ParameterDraft} (hbuild : d.build = .ok par)
    (hexact : Primality.ExactOn {n | ∃ m ∈ par.moduli ++ par.auxModuli, n = m.toNat}) :
    EmbedsFaithfully par := by
  obtain ⟨hchosen, -, hpar⟩ := ParameterDraft.build_eq_ok_iff.mp hbuild
  have hvalid := hpar.validated hchosen.checked hexact
  constructor
  case exists_toExtended => exact fun v => exists_toExtended_iff hpar
  case exists_toPlain => exact fun v l => exists_toPlain_iff hpar
  case hasResidues => exact fun v e => hasResidues_of_toExtended hpar
  case toPlain_eq => exact fun v e l => toPlain_eq_of_toExtended hpar
  case lift_eq => exact fun v l a ha j c => lift_eq_of_toPlain hpar hvalid ha
  case injective => exact fun v w l a => eq_of_toPlain hpar hvalid
  case injective_ternary =>
    intro v w l a hv hw hternary
    have hproduct := two_lt_productAt hpar hvalid l
    refine eq_of_toPlain hpar hvalid hv hw fun c hc => ?_
    rcases hternary c hc with rfl | rfl | rfl
    · simpa using hproduct
    · simpa using Nat.zero_lt_of_lt hproduct
    · simpa using hproduct

/-- A key with the least coefficient of 64 bits and with ternary ones. -/
def extremeKey : List Int :=
  [-2 ^ 63, 2 ^ 63 - 1, -1, 0, 1, 17, -17, 0]

/-- Over the moduli 5 and 7 the coefficients 17 and -17 are read back. -/
theorem embedsFaithfully_fiveSeven : ∃ par e a, ParameterDraft.fiveSevenDraft.build = .ok par ∧
    toExtended ⟨par, extremeKey⟩ = .ok e ∧ toPlain ⟨par, extremeKey⟩ 1 = .ok a ∧
    a.rows = e.main.rows.take 2 ∧ a.lift 5 = 17 ∧ a.lift 6 = -17 := by
  have hchosen : ParameterDraft.fiveSevenDraft.Chosen [5, 7] [11] := ⟨rfl, rfl, rfl, by decide⟩
  obtain ⟨par, hbuild, hmoduli, hauxModuli⟩ := hchosen.exists_build
  have hdegree : par.degree = 8 := (ParameterDraft.build_eq_ok_iff.mp hbuild).2.1
  have hexact : Primality.ExactOn {n | ∃ m ∈ par.moduli ++ par.auxModuli, n = m.toNat} := by
    refine Primality.exactOn_small.mono ?_
    rintro n ⟨m, hm, rfl⟩
    rw [hmoduli, hauxModuli] at hm
    change m ∈ [5, 7, 11] at hm
    fin_cases hm <;> decide
  have hfaithful := embedsFaithfully hbuild hexact
  have hlength : extremeKey.length = par.degree := hdegree.symm
  obtain ⟨e, he⟩ := (hfaithful.exists_toExtended extremeKey hlength).mpr (by
    rw [Parameters.Addresses, Parameters.Addresses, hdegree, hmoduli, hauxModuli]
    decide)
  obtain ⟨b, -, ha⟩ := hfaithful.toPlain_eq extremeKey e 1 he (by
    rw [Parameters.maxLevel, hmoduli]
    decide)
  have hproduct : par.productAt 1 = 35 := by
    rw [Parameters.productAt, hmoduli]
    decide
  refine ⟨par, e, _, hbuild, he, ha, rfl, ?_, ?_⟩
  · exact hfaithful.lift_eq _ _ _ ha 5 17 rfl (by rw [hproduct]; decide)
  · exact hfaithful.lift_eq _ _ _ ha 6 (-17) rfl (by rw [hproduct]; decide)

end SecretKey

end RingShamir
