import RingShamir.Proofs.Parameters.Validation

/-!
# Where the search for moduli overflows

The search for moduli works with steps of twice the degree.  Every degree that is accepted
is a power of two, so this is a word unless the degree is `2 ^ 63`.  There the search for
the first modulus overflows before it looks at a number, while given moduli and sizes that
are out of range never get to the search.

Main results:

- Definition `Overflows`: drafts of degree `2 ^ 63` whose first size is in range.
- Theorem `choose_eq_breach_iff`: the choice of moduli breaks a precondition for these
  drafts only.
-/

namespace RingShamir.ParameterDraft

variable {d : ParameterDraft} {degree : Nat} {moduli given taken : List UInt64}
  {sizes : List Nat}

/-- The only power of two among the words whose double is no word is `2 ^ 63`. -/
theorem lt_or_eq_of_isPowerOfTwo (hpower : degree.isPowerOfTwo) (hword : degree < UInt64.size) :
    degree < 2 ^ 63 ∨ degree = 2 ^ 63 := by
  rcases hpower with ⟨k, rfl⟩
  have hk : k < 64 := (Nat.pow_lt_pow_iff_right (by decide)).mp hword
  rcases Nat.lt_or_ge k 63 with hlt | hge
  · exact .inl (Nat.pow_lt_pow_right (by decide) hlt)
  · obtain rfl : k = 63 := by omega
    exact .inr rfl

/-! ## Overflow -/

section Overflow

variable (hover : ¬2 * degree < UInt64.size)
include hover

/-- The first size decides whether the generation gets to the search. -/
theorem generateModuli_of_overflow (taken found : List UInt64) (size : Nat) (sizes : List Nat) :
    generateModuli degree taken found (size :: sizes) =
      if InRange size then .error .breach else reject (.invalidModulusSize size 10 62) := by
  split_ifs with hsize
  · rw [generateModuli_cons hsize, freePrime, Outcome.require_of_not hover]
    rfl
  · exact generateModuli_of_not_inRange hsize degree taken found sizes

theorem chooseModuli_eq_breach_iff : chooseModuli degree given sizes taken = .error .breach ↔
    ∃ size ∈ sizes.head?, InRange size := by
  cases sizes with
  | nil => simp [chooseModuli]
  | cons size sizes =>
      rw [chooseModuli, List.isEmpty_cons, if_neg Bool.false_ne_true,
        generateModuli_of_overflow hover]
      split_ifs with hsize
      · simpa using hsize
      · simpa [reject] using hsize

/-- Moduli can only be given. -/
theorem sizes_eq_nil_of_chooseModuli (h : chooseModuli degree given sizes taken = .ok moduli) :
    sizes = [] := by
  cases sizes with
  | nil => rfl
  | cons size sizes =>
      rw [chooseModuli, List.isEmpty_cons, if_neg Bool.false_ne_true,
        generateModuli_of_overflow hover] at h
      split_ifs at h
      cases h

end Overflow

/-! ## Drafts -/

/-- The drafts whose search for moduli overflows: those of degree `2 ^ 63` whose choices are
in order and whose first size is in range. -/
structure Overflows (d : ParameterDraft) : Prop where
  /-- Twice the degree is no word. -/
  degree_eq : d.degree = 2 ^ 63
  /-- The degree is accepted, and each list of moduli is chosen in one way. -/
  choices : d.checkChoices = .ok ()
  /-- The first size is in range. -/
  inRange : ∃ size ∈ (d.sizes ++ d.auxSizes).head?, InRange size

theorem Overflows.not_lt (h : d.Overflows) : ¬2 * d.degree < UInt64.size := by
  rw [h.degree_eq]
  decide

/-- The choice of moduli breaks a precondition where the search overflows. -/
theorem Overflows.choose_eq (h : d.Overflows) : d.choose = .error .breach := by
  obtain ⟨size, hhead, hsize⟩ := h.inRange
  rw [choose, h.choices, Outcome.ok_bind]
  cases hsizes : d.sizes with
  | nil =>
      have haux : ∃ size ∈ d.auxSizes.head?, InRange size :=
        ⟨size, by simpa [hsizes] using hhead, hsize⟩
      rw [chooseModuli, List.isEmpty_nil, if_pos rfl, Outcome.pure_eq_ok, Outcome.ok_bind,
        (chooseModuli_eq_breach_iff h.not_lt).mpr haux, Outcome.error_bind]
  | cons first rest =>
      have hmain : ∃ size ∈ (first :: rest).head?, InRange size :=
        ⟨size, by simpa [hsizes] using hhead, hsize⟩
      rw [(chooseModuli_eq_breach_iff h.not_lt).mpr hmain, Outcome.error_bind]

/-- The choice of moduli breaks a precondition only where the search overflows. -/
theorem choose_eq_breach_iff (hword : d.degree < UInt64.size) :
    d.choose = .error .breach ↔ d.Overflows := by
  refine ⟨fun h => ?_, Overflows.choose_eq⟩
  have hlimit : ¬d.degree < 2 ^ 63 := fun hlimit => (settled_choose hlimit).reported h
  simp only [choose, Outcome.bind_eq_error] at h
  rcases h with hfail | ⟨_, hchoices, h⟩
  · exact absurd hfail (settled_checkChoices d).reported
  have hpower := isPowerOfTwo_of_checkChoices hchoices
  have hdegree := (lt_or_eq_of_isPowerOfTwo hpower hword).resolve_left hlimit
  have hover : ¬2 * d.degree < UInt64.size := by
    rw [hdegree]
    decide
  refine ⟨hdegree, hchoices, ?_⟩
  rcases h with hmain | ⟨moduli, hmain, h⟩
  · obtain ⟨size, hhead, hsize⟩ := (chooseModuli_eq_breach_iff hover).mp hmain
    exact ⟨size, by simp [List.head?_append, Option.mem_def.mp hhead], hsize⟩
  · rw [sizes_eq_nil_of_chooseModuli hover hmain, List.nil_append]
    rcases h with haux | ⟨auxModuli, -, hfail | ⟨_, -, h⟩⟩
    · exact (chooseModuli_eq_breach_iff hover).mp haux
    · exact absurd hfail (settled_checkModuli _).reported
    · cases h

/-- Building parameters breaks no precondition, except where the search for moduli
overflows. -/
theorem build_reported_iff (hword : d.degree < UInt64.size) :
    d.build.Reported ↔ ¬d.Overflows := by
  rw [Outcome.Reported, ne_eq, build_eq_error_iff, choose_eq_breach_iff hword]

/-- Given moduli are not searched for, and make parameters of degree `2 ^ 63` too. -/
theorem build_reported_given :
    (build { degree := 2 ^ 63, moduli := [7], auxModuli := [5] }).Reported := by
  refine (build_reported_iff (by decide)).mpr ?_
  rintro ⟨-, -, size, hhead, -⟩
  cases hhead

/-- Of degree `2 ^ 63` the search for a modulus of 62 digits overflows. -/
theorem build_breach_sizes : build { degree := 2 ^ 63, sizes := [62] } = .error .breach :=
  build_eq_error_iff.mpr (Overflows.choose_eq ⟨rfl, rfl, 62, rfl, by decide⟩)

end RingShamir.ParameterDraft
