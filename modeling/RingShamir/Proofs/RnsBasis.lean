import Mathlib.Data.List.Basic
import RingShamir.Proofs.Modulus.MontgomeryForm
import RingShamir.RnsBasis

/-!
# Bases that were made of their moduli

A basis that was made of a list of moduli is determined by the list and the
degree: so are the constants of its primes and the bases of all lower levels.
Therefore two numbers, the level and the degree, tell apart all the bases of
one chain, and checks of levels stand in for comparisons of bases.

Main results:

- Definition `Built`: the basis is the one that its moduli and degree give.
- Theorem `Built.eq_of_level`: two bases of lower levels of one basis are equal
  if their levels are.
- Theorem `Built.atLevel`: the basis of a level has the first primes.
- Theorem `Built.atLevel_of_prefix`: a basis that is a prefix is found at its own
  level.
-/

namespace RingShamir.RnsBasis

variable {a b c : RnsBasis} {degree : Nat}

/-! ## Construction -/

/-- The operators of a basis are those of suitable moduli. -/
theorem primeOperator_eq_ok {m : UInt64} {q : Modulus} (h : primeOperator m = .ok q) :
    q = Modulus.withConstants m ∧ q.Suitable := by
  simp only [primeOperator, Outcome.bind_eq_ok] at h
  rcases h with ⟨q', hq', h⟩
  have hmodulus := (Modulus.ofWord_eq_ok.mp hq').2.2
  split at h
  next hprime =>
      rw [Outcome.pure_eq_ok, Except.ok.injEq] at h
      subst h
      obtain ⟨hvalue, haccepted⟩ := Modulus.accepted_of_ofWord hq'
      rw [Bool.and_eq_true] at hprime
      exact ⟨hmodulus, haccepted, hprime.1, hvalue ▸ hprime.2⟩
  next => cases h

theorem mapM_primeOperator {ms : List UInt64} {qs : List Modulus}
    (h : ms.mapM primeOperator = .ok qs) :
    qs = ms.map Modulus.withConstants ∧ ∀ q ∈ qs, q.Suitable := by
  induction ms generalizing qs with
  | nil =>
      rw [List.mapM_nil, Outcome.pure_eq_ok, Except.ok.injEq] at h
      simp [← h]
  | cons m ms ih =>
      simp only [List.mapM_cons, Outcome.bind_eq_ok] at h
      rcases h with ⟨q, hq, rest, hrest, h⟩
      rw [Outcome.pure_eq_ok, Except.ok.injEq] at h
      obtain ⟨hvalue, hsuitable⟩ := primeOperator_eq_ok hq
      obtain ⟨hvalues, hall⟩ := ih hrest
      rw [← h]
      refine ⟨by rw [hvalue, hvalues, List.map_cons], ?_⟩
      intro r hr
      rcases List.mem_cons.mp hr with rfl | hr
      · exact hsuitable
      · exact hall r hr

/-- What the construction of a basis checks, and what it links the basis to. -/
theorem ofDescending_cons {m : UInt64} {rest : List UInt64}
    (h : ofDescending degree (m :: rest) = .ok b) :
    checkShape (m :: rest).reverse degree = .ok () ∧
      (m :: rest).reverse.mapM primeOperator = .ok b.operators ∧
        (rest ≠ [] → ∃ l, b.lower = some l ∧ ofDescending degree rest = .ok l) := by
  simp only [ofDescending, Outcome.bind_eq_ok] at h
  rcases h with ⟨_, hshape, qs, hqs, h⟩
  split at h
  next hempty =>
      simp only [Outcome.pure_eq_ok, Except.ok.injEq, Outcome.ok_bind] at h
      subst h
      refine ⟨hshape, hqs, ?_⟩
      intro hne
      exact absurd (List.isEmpty_iff.mp hempty) hne
  next =>
      cases hrest : ofDescending degree rest with
      | error e =>
          rw [hrest] at h
          cases h
      | ok l =>
          rw [hrest] at h
          cases h
          exact ⟨hshape, hqs, fun _ => ⟨l, rfl, rfl⟩⟩

/-- A basis is the one that its moduli and degree give. -/
def Built (b : RnsBasis) : Prop :=
  ofModuli b.moduli b.degree = .ok b

theorem built_of_ofModuli {moduli : List UInt64} (h : ofModuli moduli degree = .ok b) :
    b.Built := by
  obtain ⟨hmoduli, hdegree⟩ := shape_of_ofModuli h
  rw [Built, hmoduli, hdegree, h]

theorem built_of_ofDescending {descending : List UInt64}
    (h : ofDescending degree descending = .ok b) : b.Built := by
  have hmoduli : ofModuli descending.reverse degree = .ok b := by
    rw [ofModuli, List.reverse_reverse, h]
  exact built_of_ofModuli hmoduli

/-- Moduli and degree determine a basis. -/
theorem Built.eq_of_moduli (ha : a.Built) (hb : b.Built) (hmoduli : a.moduli = b.moduli)
    (hdegree : a.degree = b.degree) : a = b := by
  have h : (.ok a : Outcome RingError RnsBasis) = .ok b := by
    rw [← ha, ← hb, hmoduli, hdegree]
  exact Except.ok.inj h

theorem Built.moduli_ne_nil (hb : b.Built) : b.moduli ≠ [] := by
  intro hnil
  rw [Built, hnil, ofModuli] at hb
  simp only [List.reverse_nil, ofDescending, Outcome.bind_eq_ok] at hb
  rcases hb with ⟨-, -, hb⟩
  cases hb

theorem Built.checked (hb : b.Built) :
    checkShape b.moduli b.degree = .ok () ∧ b.moduli.mapM primeOperator = .ok b.operators := by
  have hne := hb.moduli_ne_nil
  obtain ⟨m, rest, hreverse⟩ : ∃ m rest, b.moduli.reverse = m :: rest :=
    List.exists_cons_of_ne_nil (by simpa using hne)
  rw [Built, ofModuli, hreverse] at hb
  obtain ⟨hshape, hoperators, -⟩ := ofDescending_cons hb
  rw [← hreverse, List.reverse_reverse] at hshape hoperators
  exact ⟨hshape, hoperators⟩

theorem Built.eight_le_degree (hb : b.Built) : 8 ≤ b.degree := by
  have hshape := hb.checked.1
  unfold checkShape at hshape
  split at hshape
  · cases hshape
  · rename_i hdegree
    simp only [Bool.or_eq_true, decide_eq_true_eq, not_or] at hdegree
    omega

theorem Built.operators_eq (hb : b.Built) :
    b.operators = b.moduli.map Modulus.withConstants :=
  (mapM_primeOperator hb.checked.2).1

theorem Built.suitable (hb : b.Built) : ∀ q ∈ b.operators, q.Suitable :=
  (mapM_primeOperator hb.checked.2).2

theorem Built.length_operators (hb : b.Built) : b.operators.length = b.moduli.length := by
  rw [hb.operators_eq, List.length_map]

theorem Built.length_moduli (hb : b.Built) : b.moduli.length = b.level + 1 := by
  have hpos := List.length_pos_iff.mpr hb.moduli_ne_nil
  unfold level
  omega

/-! ## Prefixes and levels -/

theorem isPrefixOf_refl (b : RnsBasis) : b.isPrefixOf b = true :=
  (isPrefixOf_iff b b).mpr ⟨rfl, List.prefix_rfl⟩

theorem isPrefixOf_trans (hab : a.isPrefixOf b = true) (hbc : b.isPrefixOf c = true) :
    a.isPrefixOf c = true := by
  rw [isPrefixOf_iff] at hab hbc ⊢
  exact ⟨hab.1.trans hbc.1, hab.2.trans hbc.2⟩

/-- A prefix has the first operators. -/
theorem Built.operators_prefix (ha : a.Built) (hc : c.Built) (h : a.isPrefixOf c = true) :
    a.operators <+: c.operators := by
  rw [ha.operators_eq, hc.operators_eq]
  exact ((isPrefixOf_iff a c).mp h).2.map _

theorem Built.getElem?_operators (ha : a.Built) (hc : c.Built) (h : a.isPrefixOf c = true)
    {i : Nat} (hi : i < a.operators.length) : a.operators[i]? = c.operators[i]? := by
  obtain ⟨rest, hrest⟩ := ha.operators_prefix hc h
  rw [← hrest, List.getElem?_append_left hi]

theorem Built.moduli_eq_take (ha : a.Built) (h : a.isPrefixOf c = true) :
    a.moduli = c.moduli.take (a.level + 1) := by
  rw [← ha.length_moduli]
  exact List.prefix_iff_eq_take.mp ((isPrefixOf_iff a c).mp h).2

theorem Built.level_le (ha : a.Built) (hc : c.Built) (h : a.isPrefixOf c = true) :
    a.level ≤ c.level := by
  have hlength := ((isPrefixOf_iff a c).mp h).2.length_le
  rw [ha.length_moduli, hc.length_moduli] at hlength
  omega

/-- Among the prefixes of one basis the level tells which one it is. -/
theorem Built.eq_of_level (ha : a.Built) (hb : b.Built) (hac : a.isPrefixOf c = true)
    (hbc : b.isPrefixOf c = true) (h : a.level = b.level) : a = b := by
  apply ha.eq_of_moduli hb
  · rw [ha.moduli_eq_take hac, hb.moduli_eq_take hbc, h]
  · exact ((isPrefixOf_iff a c).mp hac).1.trans ((isPrefixOf_iff b c).mp hbc).1.symm

/-- Descending stops at a basis that is not above the level. -/
theorem descend_of_le {target : Nat} (h : b.level ≤ target) : descend target b = .ok b := by
  rcases b with ⟨ms, qs, d, p, lower⟩
  cases lower <;> simp_all [descend, level]

/-- Above the level descending follows the link. -/
theorem descend_of_lt {target : Nat} (h : target < b.level) (hlower : b.lower = some c) :
    descend target b = descend target c := by
  rcases b with ⟨ms, qs, d, p, lower⟩
  obtain rfl : lower = some c := hlower
  have hlt : target < ms.length - 1 := h
  rw [descend.eq_2, if_neg (by omega)]

/-- Following the links gives the basis of the first primes. -/
theorem descend_ofDescending {descending : List UInt64} {target : Nat}
    (h : ofDescending degree descending = .ok c) (ht : target < descending.length) :
    ∃ b, descend target c = .ok b ∧ b.Built ∧ b.degree = degree ∧
      b.moduli = descending.reverse.take (target + 1) := by
  induction descending generalizing c with
  | nil => simp at ht
  | cons m rest ih =>
      have hbuilt := built_of_ofDescending h
      obtain ⟨hmoduli, hdegree⟩ := shape_of_ofDescending h
      obtain ⟨-, -, hlower⟩ := ofDescending_cons h
      have hlength : c.level = rest.length := by simp [level, hmoduli]
      rcases Nat.lt_or_ge target c.level with htop | htop
      · have hne : rest ≠ [] := by
          rintro rfl
          simp only [List.length_nil] at hlength
          omega
        obtain ⟨l, hlink, hl⟩ := hlower hne
        obtain ⟨b, hb, hbuilt, hdegree, hfirst⟩ := ih hl (by omega)
        refine ⟨b, ?_, hbuilt, hdegree, ?_⟩
        · rw [descend_of_lt htop hlink, hb]
        · rw [hfirst, List.reverse_cons, List.take_append_of_le_length]
          simp only [List.length_reverse]
          omega
      · refine ⟨c, descend_of_le htop, hbuilt, hdegree, ?_⟩
        rw [List.take_of_length_le, hmoduli]
        simp only [List.length_reverse, List.length_cons]
        omega

/-- The basis of a level has the first primes of the basis. -/
theorem Built.atLevel (hc : c.Built) {l : Nat} (hl : l ≤ c.level) :
    ∃ b, c.atLevel l = .ok b ∧ b.Built ∧ b.degree = c.degree ∧
      b.moduli = c.moduli.take (l + 1) := by
  have hlength : l < c.moduli.reverse.length := by
    rw [List.length_reverse, hc.length_moduli]
    omega
  obtain ⟨b, hb, hbuilt, hdegree, hmoduli⟩ := descend_ofDescending hc hlength
  rw [List.reverse_reverse] at hmoduli
  refine ⟨b, ?_, hbuilt, hdegree, hmoduli⟩
  rw [RnsBasis.atLevel, if_neg (by omega), hb]

/-- The basis that is found at a level is a prefix of that level. -/
theorem Built.of_atLevel (hc : c.Built) {l : Nat} (h : c.atLevel l = .ok b) :
    b.Built ∧ b.isPrefixOf c = true ∧ b.level = l := by
  have hl : l ≤ c.level := by
    by_contra hgt
    rw [RnsBasis.atLevel, if_pos (by omega)] at h
    cases h
  obtain ⟨b', hb', hbuilt, hdegree, hmoduli⟩ := hc.atLevel hl
  obtain rfl : b' = b := Except.ok.inj (hb'.symm.trans h)
  have hlength := congrArg List.length hmoduli
  rw [hbuilt.length_moduli, List.length_take, hc.length_moduli] at hlength
  refine ⟨hbuilt, ?_, by omega⟩
  rw [isPrefixOf_iff]
  exact ⟨hdegree, hmoduli ▸ List.take_prefix _ _⟩

/-- A prefix is found at its own level. -/
theorem Built.atLevel_of_prefix (ha : a.Built) (hc : c.Built) (h : a.isPrefixOf c = true) :
    c.atLevel a.level = .ok a := by
  obtain ⟨b, hb, -⟩ := hc.atLevel (ha.level_le hc h)
  obtain ⟨hbuilt, hfirst, hlevel⟩ := hc.of_atLevel hb
  rw [hb, hbuilt.eq_of_level ha hfirst h hlevel]

end RingShamir.RnsBasis
