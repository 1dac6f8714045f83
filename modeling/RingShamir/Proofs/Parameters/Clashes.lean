import RingShamir.Proofs.Parameters.Validation
import RingShamir.Proofs.Prime.StrongTest

/-!
# Clashes of moduli

Generated moduli are suitable, differ from each other, and avoid the moduli that are taken.
The auxiliary moduli are chosen last and avoid the ciphertext moduli.  The ciphertext moduli
are chosen first and avoid nothing: where they are generated and the auxiliary moduli are
given, a modulus may come up in both lists, and the check of the moduli refuses the draft.
Where the given moduli are sound, this is the only way in which the check fails.

The given moduli are sound when they are odd primes in range.  That the check accepts these
rests on one half of what is documented of the primality test, that it refuses no prime; no
result of this module asks that it refuses composite numbers.

Main results:

- Theorems `Greedy.nodup_append` and `Greedy.isSuitable`: what the generated moduli are.
- Definition `Picks`: the moduli that a draft comes by before they are checked.
- Definition `Clashes`: drafts that generate a ciphertext modulus which is given as an
  auxiliary one.
- Theorem `Picks.nodup_iff`: moduli repeat in drafts that clash, and in no others.
- Theorem `build_invalidModuli_iff`: the drafts that clash are the only ones whose moduli are
  invalid.
-/

namespace RingShamir.ParameterDraft

open PrimeSearch

variable {P : Nat → Prop} {d : ParameterDraft} {degree : Nat} {text : String}
  {given taken m moduli auxModuli : List UInt64} {sizes : List Nat}

/-! ## Generated moduli -/

/-- Generated moduli differ from each other and from the moduli that are taken. -/
theorem Greedy.nodup_append (h : Greedy P degree taken sizes m) (htaken : taken.Nodup) :
    (m ++ taken).Nodup := by
  induction sizes using List.reverseRecOn generalizing m with
  | nil =>
      rw [greedy_nil_iff.mp h]
      exact htaken
  | append_singleton sizes size ih =>
      obtain rfl | ⟨m, p, rfl⟩ := List.eq_nil_or_concat' m
      · exact htaken
      · obtain ⟨hbefore, -, hp⟩ := greedy_concat_iff.mp h
        have hfresh : p ∉ m ++ taken := fun hmem => hp.1.2 p hmem rfl
        rw [List.append_assoc, List.singleton_append]
        exact List.nodup_middle.mpr (List.nodup_cons.mpr ⟨hfresh, ih hbefore⟩)

/-- Generated moduli are odd primes below `2 ^ 62`, by the test. -/
theorem Greedy.isSuitable (h : Greedy (Primality.isPrime · = true) degree taken sizes m) :
    ∀ p ∈ m, isSuitable p = true := by
  intro p hp
  obtain ⟨k, hk⟩ := List.mem_iff_getElem?.mp hp
  have hlt : k < sizes.length := h.length_eq ▸ (List.getElem?_eq_some_iff.mp hk).1
  have hsizes := List.getElem?_eq_getElem hlt
  obtain ⟨⟨htest, hsize, hmod⟩, -⟩ := (h.greatest k _ p hsizes hk).1
  have hrange := h.inRange _ (List.getElem_mem hlt)
  have hlimit : p.toNat < 2 ^ 62 :=
    (Nat.size_le.mp hsize.le).trans_le (Nat.pow_le_pow_right (by decide) hrange.2)
  have hodd : p.toNat % 2 = 1 := Nat.ModEq.of_mul_right degree hmod
  exact isSuitable_iff.mpr ⟨hlimit, hodd, htest⟩

section Run

variable (hdegree : degree.isPowerOfTwo) (hlimit : degree < 2 ^ 63)
include hdegree hlimit

/-- Moduli are given or generated. -/
theorem chooseModuli_eq_ok_iff : chooseModuli degree given sizes taken = .ok m ↔
    sizes = [] ∧ m = given ∨
      sizes ≠ [] ∧ Greedy (Primality.isPrime · = true) degree taken sizes m := by
  have hword := two_mul_lt_size hlimit
  by_cases hsizes : sizes = []
  · rw [chooseModuli, if_pos (List.isEmpty_iff.mpr hsizes), Outcome.pure_eq_ok, Except.ok.injEq]
    simp only [hsizes, true_and, ne_eq, not_true_eq_false, false_and, or_false]
    exact eq_comm
  · rw [chooseModuli, if_neg (mt List.isEmpty_iff.mp hsizes),
      generateModuli_iff_test hdegree hword]
    simp only [hsizes, false_and, false_or, ne_eq, not_false_eq_true, true_and]
    constructor
    · rintro ⟨h⟩
      exact h
    · exact .done

/-- Where the given moduli are suitable, those that are chosen are. -/
theorem isSuitable_of_chooseModuli (h : chooseModuli degree given sizes taken = .ok m)
    (hgiven : ∀ p ∈ given, isSuitable p = true) : ∀ p ∈ m, isSuitable p = true := by
  rcases (chooseModuli_eq_ok_iff hdegree hlimit).mp h with ⟨-, rfl⟩ | ⟨-, hgreedy⟩
  · exact hgiven
  · exact hgreedy.isSuitable

/-- Generation does not report that moduli are invalid. -/
theorem chooseModuli_ne_invalidModuli : chooseModuli degree given sizes taken ≠
    .error (.failure (.parameters (.invalidModuli text))) := by
  have hword := two_mul_lt_size hlimit
  intro h
  unfold chooseModuli at h
  split at h
  · cases h
  · cases (generateModuli_iff_test hdegree hword _ _ _).mp h

end Run

/-! ## Choices before the check -/

/-- The moduli that a draft comes by before they are checked. -/
structure Picks (d : ParameterDraft) (moduli auxModuli : List UInt64) : Prop where
  /-- The degree is accepted, and each list of moduli is chosen in one way. -/
  choices : d.checkChoices = .ok ()
  /-- The ciphertext moduli. -/
  main : chooseModuli d.degree d.moduli d.sizes [] = .ok moduli
  /-- The auxiliary moduli. -/
  aux : chooseModuli d.degree d.auxModuli d.auxSizes moduli = .ok auxModuli

theorem Picks.isPowerOfTwo (h : d.Picks moduli auxModuli) : d.degree.isPowerOfTwo :=
  isPowerOfTwo_of_checkChoices h.choices

/-- The drafts that generate a ciphertext modulus which is given as an auxiliary one. -/
structure Clashes (d : ParameterDraft) : Prop where
  /-- The degree is accepted, and each list of moduli is chosen in one way. -/
  choices : d.checkChoices = .ok ()
  /-- The ciphertext moduli are generated. -/
  generated : d.sizes ≠ []
  /-- The auxiliary moduli are not generated. -/
  given : d.auxSizes = []
  /-- One of the generated moduli is given. -/
  shared : ∃ moduli, Greedy (Primality.isPrime · = true) d.degree [] d.sizes moduli ∧
    ∃ m ∈ moduli, m ∈ d.auxModuli

/-- The check of the choices does not report that moduli are invalid. -/
theorem checkChoices_ne_invalidModuli :
    d.checkChoices ≠ .error (.failure (.parameters (.invalidModuli text))) := by
  unfold checkChoices
  split_ifs
  · rintro ⟨⟩
  · rintro ⟨⟩
  · rintro ⟨⟩
  · rintro ⟨⟩
  · rintro ⟨⟩

/-- Suitable moduli are refused where they repeat. -/
theorem checkModuli_eq_invalidModuli_iff (h : ∀ m ∈ moduli, isSuitable m = true) :
    checkModuli moduli = .error (.failure (.parameters (.invalidModuli text))) ↔
      text = "the moduli are not distinct" ∧ ¬moduli.Nodup := by
  have hnone : moduli.find? (!isSuitable ·) = none := by
    rw [List.find?_eq_none]
    intro m hm
    simp [h m hm]
  rw [checkModuli, hnone]
  by_cases hnodup : moduli.Nodup
  · simp [hnodup]
  · simp only [hnodup, not_false_eq_true, if_true, and_true, reject, Outcome.fail_eq,
      Except.error.injEq, Fault.failure.injEq, SchemeError.parameters.injEq,
      ParameterError.invalidModuli.injEq]
    exact eq_comm

section Drafts

variable (hlimit : d.degree < 2 ^ 63) (hnodup : (d.moduli ++ d.auxModuli).Nodup)
include hlimit

/-- The moduli of a draft whose given moduli are suitable are suitable. -/
theorem Picks.isSuitable (hgiven : ∀ m ∈ d.moduli ++ d.auxModuli, isSuitable m = true)
    (h : d.Picks moduli auxModuli) : ∀ m ∈ moduli ++ auxModuli, isSuitable m = true := by
  obtain ⟨hmain, haux⟩ := List.forall_mem_append.mp hgiven
  exact List.forall_mem_append.mpr
    ⟨isSuitable_of_chooseModuli h.isPowerOfTwo hlimit h.main hmain,
      isSuitable_of_chooseModuli h.isPowerOfTwo hlimit h.aux haux⟩

include hnodup

/-- Where the given moduli differ from each other, moduli repeat in drafts that clash, and in no
others. -/
theorem Picks.nodup_iff (h : d.Picks moduli auxModuli) :
    (moduli ++ auxModuli).Nodup ↔ ¬d.Clashes := by
  have hword := two_mul_lt_size hlimit
  obtain ⟨hmoduli, hauxModuli, -⟩ := List.nodup_append.mp hnodup
  have hmain : moduli.Nodup := by
    rcases (chooseModuli_eq_ok_iff h.isPowerOfTwo hlimit).mp h.main with ⟨-, rfl⟩ | ⟨-, hgreedy⟩
    · exact hmoduli
    · exact List.append_nil moduli ▸ hgreedy.nodup_append List.nodup_nil
  rcases (chooseModuli_eq_ok_iff h.isPowerOfTwo hlimit).mp h.aux with
    ⟨hauxSizes, rfl⟩ | ⟨hauxSizes, hauxGreedy⟩
  · rcases (chooseModuli_eq_ok_iff h.isPowerOfTwo hlimit).mp h.main with
      ⟨hsizes, rfl⟩ | ⟨hsizes, hgreedy⟩
    · exact iff_of_true hnodup fun hclash => hclash.generated hsizes
    · -- The only case in which one list was chosen without regard to the other.
      have hdisjoint : (moduli ++ d.auxModuli).Nodup ↔ ¬∃ m ∈ moduli, m ∈ d.auxModuli := by
        simp only [List.nodup_append, hmain, hauxModuli, true_and, not_exists, not_and]
        exact ⟨fun hne m hm hm' => hne m hm m hm' rfl,
          fun hne m hm m' hm' heq => hne m hm (heq ▸ hm')⟩
      rw [hdisjoint, not_iff_not]
      constructor
      · exact fun hshared => ⟨h.choices, hsizes, hauxSizes, moduli, hgreedy, hshared⟩
      · rintro ⟨-, -, -, moduli', hgreedy', hshared⟩
        have hsame := (generateModuli_of_greedy h.isPowerOfTwo hword hgreedy').symm.trans
          (generateModuli_of_greedy h.isPowerOfTwo hword hgreedy)
        exact Except.ok.inj hsame ▸ hshared
  · have hboth := List.nodup_append_comm.mp (hauxGreedy.nodup_append hmain)
    exact iff_of_true hboth fun hclash => hauxSizes hclash.given

end Drafts

/-- Drafts that clash come by moduli. -/
theorem Clashes.exists_picks (hlimit : d.degree < 2 ^ 63) (h : d.Clashes) :
    ∃ moduli auxModuli, d.Picks moduli auxModuli := by
  obtain ⟨moduli, hgreedy, -⟩ := h.shared
  have hpower := isPowerOfTwo_of_checkChoices h.choices
  refine ⟨moduli, d.auxModuli, h.choices, ?_, ?_⟩
  · exact (chooseModuli_eq_ok_iff hpower hlimit).mpr (.inr ⟨h.generated, hgreedy⟩)
  · exact (chooseModuli_eq_ok_iff hpower hlimit).mpr (.inl ⟨h.given, rfl⟩)

/-- The check of the moduli refuses a draft that comes by moduli. -/
theorem choose_eq_invalidModuli_iff (hlimit : d.degree < 2 ^ 63) :
    d.choose = .error (.failure (.parameters (.invalidModuli text))) ↔
      ∃ moduli auxModuli, d.Picks moduli auxModuli ∧
        checkModuli (moduli ++ auxModuli) =
          .error (.failure (.parameters (.invalidModuli text))) := by
  constructor
  · intro h
    simp only [choose, Outcome.bind_eq_error] at h
    rcases h with hfail | ⟨_, hchoices, h⟩
    · exact absurd hfail checkChoices_ne_invalidModuli
    have hpower := isPowerOfTwo_of_checkChoices hchoices
    rcases h with hfail | ⟨moduli, hmain, hfail | ⟨auxModuli, haux, hfail | ⟨_, -, h⟩⟩⟩
    · exact absurd hfail (chooseModuli_ne_invalidModuli hpower hlimit)
    · exact absurd hfail (chooseModuli_ne_invalidModuli hpower hlimit)
    · exact ⟨moduli, auxModuli, ⟨hchoices, hmain, haux⟩, hfail⟩
    · cases h
  · rintro ⟨moduli, auxModuli, hpicks, hfail⟩
    rw [choose, hpicks.choices, Outcome.ok_bind, hpicks.main, Outcome.ok_bind, hpicks.aux,
      Outcome.ok_bind, hfail, Outcome.error_bind]

/-- Where the given moduli are distinct odd primes below `2 ^ 62`, moduli are invalid exactly in
the drafts that clash: these report moduli that are not distinct, and in all others the
ciphertext moduli and the auxiliary moduli differ, whether they are given or generated. -/
theorem build_invalidModuli_iff (hlimit : d.degree < 2 ^ 63)
    (hprime : ∀ m ∈ d.moduli ++ d.auxModuli, m.toNat.Prime ∧ m.toNat % 2 = 1 ∧ m.toNat < 2 ^ 62)
    (hnodup : (d.moduli ++ d.auxModuli).Nodup) :
    (∀ text, d.build = .error (.failure (.parameters (.invalidModuli text))) ↔
      text = "the moduli are not distinct" ∧ d.Clashes) ∧
    ∀ moduli auxModuli, d.Picks moduli auxModuli →
      ((moduli ++ auxModuli).Nodup ↔ ¬d.Clashes) := by
  have hgiven : ∀ m ∈ d.moduli ++ d.auxModuli, ParameterDraft.isSuitable m = true := by
    intro m hm
    obtain ⟨hm, hodd, hbelow⟩ := hprime m hm
    exact isSuitable_iff.mpr ⟨hbelow, hodd, Primality.isPrime_of_prime hm⟩
  refine ⟨fun text => ?_, fun moduli auxModuli hpicks => hpicks.nodup_iff hlimit hnodup⟩
  rw [build_eq_error_iff, choose_eq_invalidModuli_iff hlimit]
  constructor
  · rintro ⟨moduli, auxModuli, hpicks, hfail⟩
    obtain ⟨htext, hrepeat⟩ :=
      (checkModuli_eq_invalidModuli_iff (hpicks.isSuitable hlimit hgiven)).mp hfail
    exact ⟨htext, not_not.mp (mt (hpicks.nodup_iff hlimit hnodup).mpr hrepeat)⟩
  · rintro ⟨htext, hclash⟩
    obtain ⟨moduli, auxModuli, hpicks⟩ := hclash.exists_picks hlimit
    have hrepeat := mt (hpicks.nodup_iff hlimit hnodup).mp (not_not.mpr hclash)
    exact ⟨moduli, auxModuli, hpicks,
      (checkModuli_eq_invalidModuli_iff (hpicks.isSuitable hlimit hgiven)).mpr ⟨htext, hrepeat⟩⟩

/-- The modulus 1009 is generated, so the auxiliary modulus 977 does not clash with it. -/
theorem build_invalidModuli_iff_977 :
    Picks { degree := 8, sizes := [10], auxModuli := [977] } [1009] [977] ∧
    ¬Clashes { degree := 8, sizes := [10], auxModuli := [977] } ∧
    build { degree := 8, sizes := [10], auxModuli := [977] } ≠
      .error (.failure (.parameters (.invalidModuli "the moduli are not distinct"))) := by
  have hmain : generateModuli 8 [] [] [10] = .ok [1009] :=
    generateModuli_of_greedy ⟨3, rfl⟩ (by decide) greedy_1009
  have hpicks : Picks { degree := 8, sizes := [10], auxModuli := [977] } [1009] [977] :=
    ⟨rfl, hmain, rfl⟩
  have hprime : ∀ m ∈ [] ++ [(977 : UInt64)],
      m.toNat.Prime ∧ m.toNat % 2 = 1 ∧ m.toNat < 2 ^ 62 := by
    have hprime : Nat.Prime 977 := by norm_num
    simp only [List.nil_append, List.mem_singleton, forall_eq]
    exact ⟨hprime, by decide, by decide⟩
  obtain ⟨hinvalid, hdistinct⟩ :=
    build_invalidModuli_iff (d := { degree := 8, sizes := [10], auxModuli := [977] })
      (by decide) hprime (by decide)
  have hapart := (hdistinct [1009] [977] hpicks).mp (by decide)
  exact ⟨hpicks, hapart, fun h => hapart ((hinvalid _).mp h).2⟩

/-- The modulus 1009 is generated although it is given as the auxiliary modulus, and the draft
is refused. -/
theorem build_invalidModuli_1009 : Nat.Prime 1009 ∧
    build { degree := 8, sizes := [10], auxModuli := [1009] } =
      .error (.failure (.parameters (.invalidModuli "the moduli are not distinct"))) := by
  refine ⟨by norm_num, build_eq_error_iff.mpr ?_⟩
  have hmain : generateModuli 8 [] [] [10] = .ok [1009] :=
    generateModuli_of_greedy ⟨3, rfl⟩ (by decide) greedy_1009
  exact (choose_eq_invalidModuli_iff (by decide)).mpr
    ⟨[1009], [1009], ⟨rfl, hmain, rfl⟩, by decide +kernel⟩

end RingShamir.ParameterDraft
