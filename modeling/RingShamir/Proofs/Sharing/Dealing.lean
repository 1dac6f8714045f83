import RingShamir.Proofs.Chain.Sampling
import RingShamir.Proofs.Sharing.Safety
import RingShamir.Proofs.Sharing.Values
import RingShamir.Random.SplitMix

/-!
# Dealing draws all or nothing

A sharing polynomial is refused before the first random word is taken.  Once the
threshold and the level of the secret are accepted, and the coefficients can be addressed,
every coefficient is sampled: the level of an element that is there has bases to sample
over, and acceptable words keep coming in a stream, which its `fair` promises.  The secret
decides only about the level, so neither the random coefficients nor the number of words
taken depend on which secret of a level is hidden.

Main results:

- Theorem `run_generate_eq_ok`: what a request for a polynomial has done when it succeeds.
- Theorem `generate_cases`: the ways in which a request for a polynomial ends.
- Definition `GeneratesBelow` and theorem `dealing_draws_all_or_nothing`: which requests
  fail, and what the others give.
-/

namespace RingShamir

open ResidueChain

namespace SharingPolynomial

section Runs

variable {C E L : Type} [ResidueChain C E L] {c : C} {n : Nat} {secret : E} {l : L}
  {s s' : WordStream} {p : SharingPolynomial E}

/-! ## Refusals -/

theorem run_generate_zero (c : C) (secret : E) (s : WordStream) :
    EStateM.run (generate c 0 secret) s = .error (.failure (.invalidThreshold 0)) s := rfl

theorem run_generate_of_foreign (hn : 0 < n)
    (h : levelOf c secret = .error (.failure .invalidContext)) (s : WordStream) :
    EStateM.run (generate c n secret) s = .error (.failure (.ring .invalidContext)) s := by
  have hpos : ¬n < 1 := by omega
  simp only [generate, if_neg hpos, EStateM.run_bind, Action.run_lift, h]
  rfl

/-! ## Random coefficients -/

/-- If the elements of a level are sampled, so are lists of them. -/
theorem sampleMasks_yields {Q : E → Prop} (h : Action.Yields (randomAt c l) Q) (n : Nat) :
    Action.Yields (sampleMasks c l n) fun es => es.length = n ∧ ∀ e ∈ es, Q e := by
  induction n with
  | zero => exact Action.yields_pure ⟨rfl, by simp⟩
  | succ n ih =>
      refine h.bind fun e he => ih.bind fun es ⟨hlength, hes⟩ => Action.yields_pure ⟨?_, ?_⟩
      · rw [List.length_cons, hlength]
      · exact List.forall_mem_cons.mpr ⟨he, hes⟩

/-- A request that succeeds had a positive number of coefficients that can be addressed and
a secret on the chain, and it sampled the random coefficients at the level of the secret. -/
theorem run_generate_eq_ok : EStateM.run (generate c n secret) s = .ok p s' ↔
    0 < n ∧ n < coefficientLimit C ∧ p.secret = secret ∧ ∃ l, levelOf c secret = .ok l ∧
      EStateM.run (sampleMasks c l (n - 1)) s = .ok p.masks s' := by
  rcases Nat.eq_zero_or_pos n with rfl | hn
  · simp [run_generate_zero]
  · rw [generate, if_neg (by omega)]
    simp only [Action.run_bind_eq_ok, Action.run_lift_eq_ok, Outcome.mapError_eq_ok,
      Action.run_require_eq_ok, Action.run_mapError_eq_ok]
    constructor
    · rintro ⟨l, _, ⟨hl, rfl⟩, _, _, ⟨hlimit, rfl⟩, masks, _, hmasks, ⟨rfl, rfl⟩⟩
      exact ⟨hn, hlimit, rfl, l, hl, hmasks⟩
    · rintro ⟨-, hlimit, rfl, l, hl, hmasks⟩
      exact ⟨l, s, ⟨hl, rfl⟩, (), s, ⟨hlimit, rfl⟩, p.masks, s', hmasks, rfl⟩

end Runs

/-! ## Requests -/

section Requests

variable {C E L : Type} [ResidueChain C E L] [ReducedElement E] [ChainView C E]
  [BasedElement E] [BasedChain C E L] [SamplingChain C E L] {c : C} {n : Nat} {secret : E}
  {l : L} {s s' : WordStream} {p : SharingPolynomial E}

/-- Below the limit a polynomial is generated for a stored secret on the chain. -/
theorem run_generate_of_level (hc : Built c) (hsecret : Stored secret)
    (hl : levelOf c secret = .ok l) (hn : 0 < n) (hlimit : n < coefficientLimit C)
    (s : WordStream) :
    ∃ p s', EStateM.run (generate c n secret) s = .ok p s' ∧ p.secret = secret ∧
      p.coefficients.length = n ∧ ∀ e ∈ p.masks, ElementAt c l e := by
  obtain ⟨masks, s', hmasks, hlength, hat⟩ :=
    sampleMasks_yields (randomAt_yields hc hsecret hl) (n - 1) s
  have hrun := run_generate_eq_ok (p := ⟨secret, masks⟩).mpr ⟨hn, hlimit, rfl, l, hl, hmasks⟩
  refine ⟨_, s', hrun, rfl, ?_, hat⟩
  rw [coefficients, List.length_cons, hlength]
  omega

/-- All coefficients of a generated polynomial are at the level of the secret. -/
theorem elementAt_of_generate (hc : Built c) (hsecret : Stored secret)
    (h : EStateM.run (generate c n secret) s = .ok p s') :
    ∃ l, ∀ e ∈ p.coefficients, ElementAt c l e := by
  obtain ⟨hn, hlimit, -, l, hl, -⟩ := run_generate_eq_ok.mp h
  obtain ⟨p', s'', hrun, hp, -, hmasks⟩ := run_generate_of_level hc hsecret hl hn hlimit s
  cases h.symm.trans hrun
  refine ⟨l, List.forall_mem_cons.mpr ⟨?_, hmasks⟩⟩
  rw [hp]
  exact ⟨hsecret.valid, hl⟩

variable [ResidueElement E] [LawfulChain C E L]

/-- A request with threshold zero or for a secret that is not on the chain fails, and one
for too many coefficients is a breach, before the first word is taken.  All others
succeed. -/
theorem generate_cases (hc : Built c) (hsecret : Stored secret) (n : Nat) (s : WordStream) :
    ((n = 0 ∨ ∀ l, levelOf c secret ≠ .ok l) ∧
        ∃ e, EStateM.run (generate c n secret) s = .error (.failure e) s) ∨
      ((0 < n ∧ ∃ l, levelOf c secret = .ok l) ∧
        (EStateM.run (generate c n secret) s = .error .breach s ∨
          ∃ p s', EStateM.run (generate c n secret) s = .ok p s')) := by
  rcases Nat.eq_zero_or_pos n with rfl | hn
  · exact .inl ⟨.inl rfl, _, run_generate_zero c secret s⟩
  · rcases LawfulChain.levelOf_cases c secret with ⟨l, hl⟩ | hforeign
    · refine .inr ⟨⟨hn, l, hl⟩, ?_⟩
      rcases Nat.lt_or_ge n (coefficientLimit C) with hlimit | hlimit
      · obtain ⟨p, s', hrun, -⟩ := run_generate_of_level hc hsecret hl hn hlimit s
        exact .inr ⟨p, s', hrun⟩
      · exact .inl (run_generate_of_limit_le hl hlimit)
    · refine .inl ⟨.inr (by simp [hforeign]), _, run_generate_of_foreign hn hforeign s⟩

theorem generate_fails_iff (hc : Built c) (hsecret : Stored secret) (n : Nat)
    (s : WordStream) :
    (∃ e s', EStateM.run (generate c n secret) s = .error (.failure e) s') ↔
      n = 0 ∨ ∀ l, levelOf c secret ≠ .ok l := by
  rcases generate_cases hc hsecret n s with ⟨hrefused, e, herror⟩ | ⟨⟨hn, l, hl⟩, hending⟩
  · exact iff_of_true ⟨e, s, herror⟩ hrefused
  · refine iff_of_false ?_ ?_
    · rcases hending with hbreach | ⟨p, s', hrun⟩
      · simp [hbreach]
      · simp [hrun]
    · rintro (rfl | hforeign)
      · exact absurd hn (lt_irrefl 0)
      · exact hforeign l hl

theorem eq_of_run_generate_error {f : Fault SchemeError} (hc : Built c)
    (hsecret : Stored secret) (h : EStateM.run (generate c n secret) s = .error f s') :
    s' = s := by
  rcases generate_cases hc hsecret n s with ⟨-, e, herror⟩ | ⟨-, hbreach | ⟨p, s'', hrun⟩⟩
  · cases h.symm.trans herror
    rfl
  · cases h.symm.trans hbreach
    rfl
  · cases h.symm.trans hrun

/-- Which requests for sharing polynomials fail, and what the others give if their
thresholds are below a limit.  A request is made on a stream in which acceptable words keep
coming, so that every sample comes to an end. -/
structure GeneratesBelow [DecidableEq L] (c : C) (limit : Nat) : Prop where
  /-- A failure is reported exactly for the threshold zero and for a secret that is not on
  the chain. -/
  failure_iff : ∀ (n : Nat) (secret : E) (s : WordStream), Stored secret →
    ((∃ e s', EStateM.run (generate c n secret) s = .error (.failure e) s') ↔
      n = 0 ∨ ∀ l, levelOf c secret ≠ .ok l)
  /-- A request that does not succeed takes no random words. -/
  undrawn : ∀ (n : Nat) (secret : E) (s s' : WordStream) (f : Fault SchemeError),
    Stored secret → EStateM.run (generate c n secret) s = .error f s' → s' = s
  /-- For a secret at a level there are as many coefficients as the threshold says: the
  secret first, then valid elements at its level. -/
  success : ∀ (n : Nat) (secret : E) (l : L) (s : WordStream), Stored secret →
    levelOf c secret = .ok l → 0 < n → n < limit →
      ∃ p s', EStateM.run (generate c n secret) s = .ok p s' ∧ p.secret = secret ∧
        p.coefficients.length = n ∧ ∀ e ∈ p.masks, ElementAt c l e
  /-- For another secret at the level the random coefficients are the same ones, and the
  same words are left. -/
  independent : ∀ (n : Nat) (a b : E) (l : L) (s s' : WordStream) (p : SharingPolynomial E),
    levelOf c a = .ok l → levelOf c b = .ok l →
      EStateM.run (generate c n a) s = .ok p s' →
        EStateM.run (generate c n b) s = .ok ⟨b, p.masks⟩ s'
  /-- There is a share at every point that no modulus of the chain divides. -/
  accepted : ∀ (n : Nat) (secret : E) (s s' : WordStream) (p : SharingPolynomial E),
    Stored secret → EStateM.run (generate c n secret) s = .ok p s' →
      ∀ x : PublicPoint, (∀ q ∈ moduli c, ¬q.value.toNat ∣ x.value.toNat) →
        ∃ share, shareAt c x p = .ok share

theorem generatesBelow_of_laws [DecidableEq L] (hc : Built c) :
    GeneratesBelow c (coefficientLimit C) := by
  constructor
  case failure_iff => exact fun n secret s hsecret => generate_fails_iff hc hsecret n s
  case undrawn => exact fun n secret s s' f hsecret h => eq_of_run_generate_error hc hsecret h
  case success =>
    exact fun n secret l s hsecret hl hn hlimit =>
      run_generate_of_level hc hsecret hl hn hlimit s
  case independent =>
    intro n a b l s s' p hla hlb h
    obtain ⟨hn, hlimit, -, l', hl', hmasks⟩ := run_generate_eq_ok.mp h
    obtain rfl : l' = l := Except.ok.inj (hl'.symm.trans hla)
    exact run_generate_eq_ok.mpr ⟨hn, hlimit, rfl, l', hlb, hmasks⟩
  case accepted =>
    intro n secret s s' p hsecret h x hx
    obtain ⟨l, hp⟩ := elementAt_of_generate hc hsecret h
    have hadmissible : x.Admissible (moduli c) :=
      fun q hq hzero => hx q hq ((x.classes_eq_zero_iff q).mp hzero)
    exact (shareAt_eq_ok_iff hc hp).mpr hadmissible

end Requests

end SharingPolynomial

open SharingPolynomial

/-- Over the chains of a single basis and over those of two bases, a request for a sharing
polynomial with an addressable number of coefficients fails before the first random word
is taken, or it succeeds. -/
theorem dealing_draws_all_or_nothing :
    (∀ c : PlainChain, Built c → GeneratesBelow c (coefficientLimit PlainChain)) ∧
      ∀ c : ExtendedChain, Built c → GeneratesBelow c (coefficientLimit ExtendedChain) :=
  ⟨fun _ hc => generatesBelow_of_laws hc, fun _ hc => generatesBelow_of_laws hc⟩

section FiveSeven

open PlainChain

theorem stored_zeroOverFiveSeven : Stored zeroOverFiveSeven :=
  ⟨elementAt_zeroOverFiveSeven.valid, ⟨fiveSeven_built, by decide⟩, by simp [bases]⟩

theorem stored_oneOverFiveSeven : Stored oneOverFiveSeven :=
  ⟨elementAt_oneOverFiveSeven.valid, ⟨fiveSeven_built, by decide⟩, by simp [bases]⟩

/-- The constant zero over the prime eleven. -/
def zeroOverEleven : RnsPoly :=
  ⟨⟨[11], [.withConstants 11], 8, 11, none⟩, [[0, 0, 0, 0, 0, 0, 0, 0]]⟩

theorem stored_zeroOverEleven : Stored zeroOverEleven := by
  have hbasis : RnsBasis.ofModuli [11] 8 = .ok zeroOverEleven.basis := by decide +kernel
  have hbuilt := RnsBasis.built_of_ofModuli hbasis
  have hrows : RnsPoly.ofRows zeroOverEleven.basis zeroOverEleven.rows = .ok zeroOverEleven := by
    decide +kernel
  exact ⟨(RnsPoly.valid_of_ofRows hbuilt hrows).1, ⟨hbuilt, by decide⟩, by simp [bases]⟩

/-- Polynomials of one and of zero with three coefficients take the same words of a stream
for the same random coefficients, and that of one has a share at sixteen.  So many
coefficients as can be addressed are drawn as well.  Zero over another prime is refused, and
no word is taken. -/
theorem dealing_draws_all_or_nothing_fiveSeven :
    (∃ p s', EStateM.run (generate fiveSeven 3 oneOverFiveSeven) (SplitMix.stream #[] 0) =
        .ok p s' ∧ p.coefficients.length = 3 ∧
        EStateM.run (generate fiveSeven 3 zeroOverFiveSeven) (SplitMix.stream #[] 0) =
          .ok ⟨zeroOverFiveSeven, p.masks⟩ s' ∧
        ∃ share, shareAt fiveSeven pointSixteen p = .ok share) ∧
      (∃ p s', EStateM.run (generate fiveSeven 128102389400760775 oneOverFiveSeven)
        (SplitMix.stream #[] 0) = .ok p s' ∧ p.coefficients.length = 128102389400760775) ∧
      (∃ e, EStateM.run (generate fiveSeven 3 zeroOverEleven) (SplitMix.stream #[] 0) =
        .error (.failure e) (SplitMix.stream #[] 0)) ∧
      GeneratesBelow fiveSevenByEleven (coefficientLimit ExtendedChain) := by
  have hplain := dealing_draws_all_or_nothing.1 fiveSeven fiveSeven_built
  refine ⟨?_, ?_, ?_, dealing_draws_all_or_nothing.2 _ fiveSevenByEleven_built⟩
  · obtain ⟨p, s', hrun, -, hlength, -⟩ := hplain.success 3 oneOverFiveSeven 1
      (SplitMix.stream #[] 0) stored_oneOverFiveSeven elementAt_oneOverFiveSeven.level
      (by decide) (by decide)
    refine ⟨p, s', hrun, hlength, ?_, ?_⟩
    · exact hplain.independent 3 _ _ 1 _ _ _ elementAt_oneOverFiveSeven.level
        elementAt_zeroOverFiveSeven.level hrun
    · exact hplain.accepted 3 _ _ _ _ stored_oneOverFiveSeven hrun pointSixteen (by decide)
  · obtain ⟨p, s', hrun, -, hlength, -⟩ := hplain.success 128102389400760775 oneOverFiveSeven 1
      (SplitMix.stream #[] 0) stored_oneOverFiveSeven elementAt_oneOverFiveSeven.level
      (by decide) (by decide)
    exact ⟨p, s', hrun, hlength⟩
  · obtain ⟨e, s', herror⟩ := (hplain.failure_iff 3 zeroOverEleven (SplitMix.stream #[] 0)
      stored_zeroOverEleven).mpr (.inr fun l hl => by cases hl)
    obtain rfl := hplain.undrawn 3 _ _ _ _ stored_zeroOverEleven herror
    exact ⟨e, herror⟩

/-- Not all words are thresholds of polynomials that are generated: too many coefficients
cannot be addressed. -/
theorem not_generatesBelow_wordThresholds :
    ¬∀ c : PlainChain, Built c → GeneratesBelow c UInt64.size := by
  intro h
  have hlevel := elementAt_zeroOverFiveSeven.level
  obtain ⟨p, s', hrun, -⟩ := (h fiveSeven fiveSeven_built).success (UInt64.size - 1)
    zeroOverFiveSeven 1 (SplitMix.stream #[] 0) stored_zeroOverFiveSeven hlevel
    (by decide) (by decide)
  rw [run_generate_of_limit_le hlevel (by decide)] at hrun
  cases hrun

end FiveSeven

end RingShamir
