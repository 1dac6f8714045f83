import RingShamir.Proofs.RnsBasis
import RingShamir.RnsPoly.Codec

/-!
# Polynomials with reduced coefficients

A valid polynomial lives over a basis that was made of its moduli, and has one
row of reduced residues for each of them.  On valid polynomials over one basis
the operations in place succeed, keep validity and are the ring operations of
residue classes at every coefficient; encoding and decoding are inverse to each
other.

Main results:

- Definition `Valid`: the shape and the reduced coefficients of a polynomial.
- Theorem `Valid.ext`: coefficients determine a valid polynomial over a basis.
- Theorems `run_scaleAssign`, `run_addAssign` and `run_addInto`: the operations
  in place at every coefficient.
- Theorem `decode_encode`: a valid polynomial is read back from its bytes.
-/

namespace RingShamir.RnsPoly

variable {ε : Type} {a b : RnsPoly} {basis : RnsBasis}

/-! ## Validity -/

/-- A row with as many reduced residues of a modulus as the degree says. -/
def RowOf (degree : Nat) (q : Modulus) (row : List UInt64) : Prop :=
  row.length = degree ∧ ∀ x ∈ row, x < q.value

/-- A polynomial over a basis that was made of its moduli, with a row of reduced
residues for each modulus. -/
structure Valid (a : RnsPoly) : Prop where
  /-- The basis was made of its moduli. -/
  built : a.basis.Built
  /-- The rows have the right number, width and range. -/
  rows : List.Forall₂ (RowOf a.basis.degree) a.basis.operators a.rows

/-- The coefficient at a position of a row, zero where there is none. -/
def coefficient (a : RnsPoly) (i j : Nat) : UInt64 :=
  ((a.rows[i]?).bind (·[j]?)).getD 0

theorem coefficient_of_row {i : Nat} {row : List UInt64} (h : a.rows[i]? = some row) (j : Nat) :
    a.coefficient i j = (row[j]?).getD 0 := by
  simp [coefficient, h]

theorem coefficient_of_length_le {i : Nat} (h : a.rows.length ≤ i) (j : Nat) :
    a.coefficient i j = 0 := by
  simp [coefficient, List.getElem?_eq_none h]

theorem Valid.row (ha : a.Valid) {i : Nat} {q : Modulus}
    (hq : a.basis.operators[i]? = some q) :
    ∃ row, a.rows[i]? = some row ∧ RowOf a.basis.degree q row :=
  exists_getElem?_of_forall₂ ha.rows hq

theorem Valid.length_rows (ha : a.Valid) : a.rows.length = a.basis.operators.length :=
  ha.rows.length_eq.symm

theorem Valid.suitable (ha : a.Valid) {i : Nat} {q : Modulus}
    (hq : a.basis.operators[i]? = some q) : q.Suitable :=
  ha.built.suitable q (List.mem_of_getElem? hq)

/-- The coefficients of a valid polynomial are reduced. -/
theorem Valid.coefficient_lt (ha : a.Valid) {i : Nat} {q : Modulus}
    (hq : a.basis.operators[i]? = some q) (j : Nat) : a.coefficient i j < q.value := by
  obtain ⟨row, hrow, -, hreduced⟩ := ha.row hq
  rw [coefficient_of_row hrow]
  cases hj : row[j]? with
  | none => exact (ha.suitable hq).zero_lt
  | some x => exact hreduced x (List.mem_of_getElem? hj)

theorem Valid.coefficient_of_degree_le (ha : a.Valid) {j : Nat} (hj : a.basis.degree ≤ j)
    (i : Nat) : a.coefficient i j = 0 := by
  rcases Nat.lt_or_ge i a.basis.operators.length with hi | hi
  · obtain ⟨row, hrow, hlength, -⟩ := ha.row (List.getElem?_eq_getElem hi)
    rw [coefficient_of_row hrow, List.getElem?_eq_none (by omega)]
    rfl
  · exact coefficient_of_length_le (ha.length_rows ▸ hi) j

/-- Coefficients determine a valid polynomial over a basis. -/
theorem Valid.ext (ha : a.Valid) (hb : b.Valid) (hbasis : a.basis = b.basis)
    (h : ∀ i < a.basis.operators.length, ∀ j, a.coefficient i j = b.coefficient i j) :
    a = b := by
  have hrows : a.rows = b.rows := by
    apply List.ext_getElem?
    intro i
    rcases Nat.lt_or_ge i a.basis.operators.length with hi | hi
    · obtain ⟨row, hrow, hlength, -⟩ := ha.row (List.getElem?_eq_getElem hi)
      obtain ⟨row', hrow', hlength', -⟩ :=
        hb.row (List.getElem?_eq_getElem (hbasis ▸ hi))
      rw [hrow, hrow', Option.some.injEq]
      apply List.ext_getElem
      · rw [hlength, hlength', hbasis]
      · intro j hj hj'
        have hentry := h i hi j
        rwa [coefficient_of_row hrow, coefficient_of_row hrow',
          List.getElem?_eq_getElem hj, List.getElem?_eq_getElem hj'] at hentry
    · rw [List.getElem?_eq_none (ha.length_rows ▸ hi),
        List.getElem?_eq_none (hb.length_rows ▸ hbasis ▸ hi)]
  cases a
  cases b
  simp only at hbasis hrows
  rw [hbasis, hrows]

/-! ## Construction -/

/-- The zero polynomial exists over the bases whose polynomials can be addressed. -/
theorem zero_eq_ok : (zero basis : Outcome ε RnsPoly) = .ok a ↔
    encodedSize basis < Word.addressLimit ∧
      a = ⟨basis, List.replicate basis.operators.length (List.replicate basis.degree 0)⟩ := by
  simp only [zero, Outcome.bind_eq_ok, Outcome.require_eq_ok, Outcome.pure_eq_ok, Except.ok.injEq,
    exists_const, @eq_comm _ a]

/-- The zero polynomial is valid, and all its coefficients are zero. -/
theorem valid_of_zero (hbuilt : basis.Built) (h : (zero basis : Outcome ε RnsPoly) = .ok a) :
    a.Valid ∧ a.basis = basis ∧ ∀ i j, a.coefficient i j = 0 := by
  obtain ⟨-, rfl⟩ := zero_eq_ok.mp h
  refine ⟨⟨hbuilt, ?_⟩, rfl, ?_⟩
  · apply forall₂_of_getElem?
    · simp
    · intro i q row hq hrow
      obtain rfl := List.eq_of_mem_replicate (List.mem_of_getElem? hrow)
      refine ⟨by simp, ?_⟩
      intro x hx
      rw [List.eq_of_mem_replicate hx]
      exact (hbuilt.suitable q (List.mem_of_getElem? hq)).zero_lt
  · intro i j
    simp only [coefficient, List.getElem?_replicate]
    by_cases hi : i < basis.operators.length
    · by_cases hj : j < basis.degree <;> simp [hi, hj]
    · simp [hi]

/-- The bytes of the polynomials over a basis can be counted by a word where the
zero polynomial can be addressed. -/
theorem encodedSize_lt_of_zero (h : (zero basis : Outcome ε RnsPoly) = .ok a) :
    encodedSize basis < UInt64.size := by
  have hfits := (zero_eq_ok.mp h).1
  simp only [Word.addressLimit, UInt64.size] at hfits ⊢
  omega

/-- Integer coefficients make a polynomial where they are as many as the degree says and the
polynomial can be addressed. -/
theorem ofInts_eq_ok_iff {v : List Int} : ofInts basis v = .ok a ↔
    v.length = basis.degree ∧ encodedSize basis < Word.addressLimit ∧
      a = ⟨basis, basis.operators.map fun q => v.map q.reduceInt⟩ := by
  unfold ofInts
  by_cases hlength : v.length = basis.degree
  · simp only [hlength, ne_eq, not_true_eq_false, if_false, Outcome.bind_eq_ok,
      Outcome.require_eq_ok, Outcome.pure_eq_ok, Except.ok.injEq, exists_const, true_and,
      @eq_comm _ a]
  · simp [hlength]

/-- The polynomial of integer coefficients is valid, and its coefficients are
the classes of the integers. -/
theorem valid_of_ofInts (hbuilt : basis.Built) {v : List Int} (h : ofInts basis v = .ok a) :
    a.Valid ∧ a.basis = basis ∧ ∀ (i : Nat) (q : Modulus) (j : Nat), basis.operators[i]? = some q →
      q.residue (a.coefficient i j) = (((v[j]?).getD 0 : Int) : ZMod q.value.toNat) := by
  obtain ⟨hlength, -, rfl⟩ := ofInts_eq_ok_iff.mp h
  refine ⟨⟨hbuilt, ?_⟩, rfl, ?_⟩
  · rw [List.forall₂_map_right_iff, List.forall₂_same]
    intro q hq
    refine ⟨by rw [List.length_map, hlength], ?_⟩
    intro x hx
    rcases List.mem_map.mp hx with ⟨n, -, rfl⟩
    exact Modulus.reduceInt_lt (hbuilt.suitable q hq).toAccepted n
  · intro i q j hq
    have hrow : (basis.operators.map fun q => v.map q.reduceInt)[i]? =
        some (v.map q.reduceInt) := by
      simp [hq]
    rw [coefficient_of_row hrow, List.getElem?_map]
    cases v[j]? with
    | none => simp
    | some n =>
        have hsuitable := hbuilt.suitable q (List.mem_of_getElem? hq)
        simp [Modulus.residue_reduceInt hsuitable.toAccepted]

/-! ## Operations in place -/

/-- The rows multiplied by the limbs of a scalar, class by class. -/
def productRows (qs : List Modulus) (s : List UInt64) (rows : List (List UInt64)) :
    List (List UInt64) :=
  List.zipWith (fun row (q, x) =>
    row.map fun c => Modulus.ofResidue q (q.residue c * q.montgomeryResidue x))
      rows (qs.zip s)

theorem productRows_getElem? {qs : List Modulus} {s : List UInt64}
    {rows : List (List UInt64)} {i : Nat} {q : Modulus} {x : UInt64} {row : List UInt64}
    (hq : qs[i]? = some q) (hx : s[i]? = some x) (hrow : rows[i]? = some row) :
    (productRows qs s rows)[i]? =
      some (row.map fun c => q.ofResidue (q.residue c * q.montgomeryResidue x)) := by
  have hzip : (qs.zip s)[i]? = some (q, x) := List.getElem?_zip_eq_some.mpr ⟨hq, hx⟩
  rw [productRows, List.getElem?_zipWith, hrow, hzip]

/-- The sums of rows, class by class. -/
def sumRows (qs : List Modulus) (rows rows' : List (List UInt64)) : List (List UInt64) :=
  List.zipWith (fun row (row', q) =>
    List.zipWith (fun x y => Modulus.ofResidue q (q.residue x + q.residue y)) row row')
      rows (rows'.zip qs)

theorem sumRows_getElem? {qs : List Modulus} {rows rows' : List (List UInt64)} {i : Nat}
    {q : Modulus} {row row' : List UInt64} (hq : qs[i]? = some q)
    (hrow : rows[i]? = some row) (hrow' : rows'[i]? = some row') :
    (sumRows qs rows rows')[i]? =
      some (List.zipWith (fun x y => q.ofResidue (q.residue x + q.residue y)) row row') := by
  have hzip : (rows'.zip qs)[i]? = some (row', q) :=
    List.getElem?_zip_eq_some.mpr ⟨hrow', hq⟩
  rw [sumRows, List.getElem?_zipWith, hrow, hzip]

/-- A scalar has a reduced limb for each of its moduli that it reaches. -/
def ReducedLimbs (qs : List Modulus) (s : List UInt64) : Prop :=
  ∀ (i : Nat) q x, qs[i]? = some q → s[i]? = some x → x < q.value

/-- Multiplication of rows by reduced limbs succeeds. -/
theorem scaleRows_eq (ha : a.Valid) {s : List UInt64}
    (hs : ReducedLimbs a.basis.operators s) :
    (scaleRows a.basis.operators s a.rows : Outcome ε _) =
      .ok (productRows a.basis.operators s a.rows) := by
  apply Outcome.zipWithM_eq_ok
  rintro ⟨row, q, x⟩ hmem
  rcases mem_zip_iff.mp hmem with ⟨i, hrow, hpair⟩
  rcases List.getElem?_zip_eq_some.mp hpair with ⟨hq, hx⟩
  obtain ⟨-, hreduced⟩ := getElem?_of_forall₂ ha.rows hq hrow
  have hsuitable := ha.suitable hq
  exact Outcome.mapM_eq_ok fun c hc =>
    Modulus.montgomeryMul_eq hsuitable.toAccepted hsuitable.odd (hreduced c hc) (hs i q x hq hx)

/-- Multiplication by a scalar with enough limbs multiplies every coefficient. -/
theorem run_scaleAssign (ha : a.Valid) {s : List UInt64}
    (hlength : a.basis.operators.length ≤ s.length)
    (hs : ReducedLimbs a.basis.operators s) :
    ∃ c, EStateM.run (scaleAssign s) a = .ok () c ∧ c.Valid ∧ c.basis = a.basis ∧
      ∀ (i : Nat) (q : Modulus) (x : UInt64) (j : Nat), a.basis.operators[i]? = some q →
        s[i]? = some x → q.residue (c.coefficient i j) =
          q.residue (a.coefficient i j) * q.montgomeryResidue x := by
  refine ⟨⟨a.basis, productRows a.basis.operators s a.rows⟩, ?_, ⟨ha.built, ?_⟩, rfl, ?_⟩
  · have hnot : ¬s.length < a.basis.operators.length := by omega
    simp [scaleAssign, hnot, scaleRows_eq ha hs]
  · apply forall₂_of_getElem?
    · rw [productRows, List.length_zipWith, List.length_zip, ha.length_rows]
      simp only
      omega
    · intro i q row hq hrow
      obtain ⟨old, hold, hwidth, -⟩ := ha.row hq
      have hi : i < a.basis.operators.length := (List.getElem?_eq_some_iff.mp hq).1
      have hx : s[i]? = some s[i] := List.getElem?_eq_getElem (by omega)
      obtain rfl := Option.some.inj ((productRows_getElem? hq hx hold).symm.trans hrow)
      refine ⟨by simpa using hwidth, ?_⟩
      intro y hy
      rcases List.mem_map.mp hy with ⟨c, -, rfl⟩
      exact Modulus.ofResidue_lt (ha.suitable hq).toAccepted _
  · intro i q x j hq hx
    obtain ⟨row, hrow, -⟩ := ha.row hq
    rw [coefficient_of_row (productRows_getElem? hq hx hrow), coefficient_of_row hrow,
      List.getElem?_map]
    cases row[j]? with
    | none => simp
    | some c => simp [Modulus.residue_ofResidue (ha.suitable hq).toAccepted]

/-- Addition of the rows of valid polynomials over one basis succeeds. -/
theorem addRows_eq (ha : a.Valid) (hb : b.Valid) (hbasis : a.basis = b.basis) :
    (addRows a.basis.operators a.rows b.rows : Outcome ε _) =
      .ok (sumRows a.basis.operators a.rows b.rows) := by
  apply Outcome.zipWithM_eq_ok
  rintro ⟨row, row', q⟩ hmem
  rcases mem_zip_iff.mp hmem with ⟨i, hrow, hpair⟩
  rcases List.getElem?_zip_eq_some.mp hpair with ⟨hrow', hq⟩
  obtain ⟨-, hreduced⟩ := getElem?_of_forall₂ ha.rows hq hrow
  obtain ⟨-, hreduced'⟩ := getElem?_of_forall₂ hb.rows (hbasis ▸ hq) hrow'
  apply Outcome.zipWithM_eq_ok
  rintro ⟨x, y⟩ hxy
  obtain ⟨hx, hy⟩ := List.of_mem_zip hxy
  exact Modulus.add_eq (ha.suitable hq).toAccepted (hreduced x hx) (hreduced' y hy)

/-- Addition of a polynomial over the same basis adds every coefficient. -/
theorem run_addAssign (ha : a.Valid) (hb : b.Valid) (hbasis : a.basis = b.basis) :
    ∃ c, EStateM.run (addAssign b : Action ε RnsPoly Unit) a = .ok () c ∧ c.Valid ∧
      c.basis = a.basis ∧ ∀ (i : Nat) (q : Modulus) (j : Nat),
        a.basis.operators[i]? = some q → q.residue (c.coefficient i j) =
          q.residue (a.coefficient i j) + q.residue (b.coefficient i j) := by
  refine ⟨⟨a.basis, sumRows a.basis.operators a.rows b.rows⟩, ?_, ⟨ha.built, ?_⟩, rfl, ?_⟩
  · rw [addAssign, EStateM.run_bind, EStateM.run_get]
    simp only [EStateM.run_bind, Action.run_require_of hbasis, Action.run_lift,
      addRows_eq ha hb hbasis, EStateM.run_set]
  · apply forall₂_of_getElem?
    · rw [sumRows, List.length_zipWith, List.length_zip, ha.length_rows, hb.length_rows,
        hbasis]
      omega
    · intro i q row hq hrow
      obtain ⟨r, hr, hwidth, -⟩ := ha.row hq
      obtain ⟨r', hr', hwidth', -⟩ := hb.row (hbasis ▸ hq)
      obtain rfl := Option.some.inj ((sumRows_getElem? hq hr hr').symm.trans hrow)
      refine ⟨?_, ?_⟩
      · rw [List.length_zipWith, hwidth, hwidth', ← hbasis, Nat.min_self]
      · intro z hz
        rcases List.mem_iff_getElem?.mp hz with ⟨k, hk⟩
        rcases List.getElem?_zipWith_eq_some.mp hk with ⟨x, y, -, -, rfl⟩
        exact Modulus.ofResidue_lt (ha.suitable hq).toAccepted _
  · intro i q j hq
    obtain ⟨row, hrow, hwidth, -⟩ := ha.row hq
    obtain ⟨row', hrow', hwidth', -⟩ := hb.row (hbasis ▸ hq)
    rw [← hbasis] at hwidth'
    rw [coefficient_of_row (sumRows_getElem? hq hrow hrow'), coefficient_of_row hrow,
      coefficient_of_row hrow', List.getElem?_zipWith]
    rcases Nat.lt_or_ge j a.basis.degree with hj | hj
    · have hx : row[j]? = some row[j] := List.getElem?_eq_getElem (by omega)
      have hy : row'[j]? = some row'[j] := List.getElem?_eq_getElem (by omega)
      simp [hx, hy, Modulus.residue_ofResidue (ha.suitable hq).toAccepted]
    · have hx : row[j]? = none := List.getElem?_eq_none (by omega)
      have hy : row'[j]? = none := List.getElem?_eq_none (by omega)
      simp [hx, hy]

/-- The sum of two polynomials over the basis of the output overwrites it. -/
theorem run_addInto {out : RnsPoly} (ha : a.Valid) (hb : b.Valid) (hbasis : a.basis = b.basis)
    (hout : a.basis = out.basis) :
    ∃ c, EStateM.run (addInto a b) out = .ok () c ∧ c.Valid ∧ c.basis = a.basis ∧
      ∀ (i : Nat) (q : Modulus) (j : Nat), a.basis.operators[i]? = some q →
        q.residue (c.coefficient i j) =
          q.residue (a.coefficient i j) + q.residue (b.coefficient i j) := by
  obtain ⟨c, hc, hvalid, hsame, hsum⟩ := run_addAssign (ε := RingError) ha hb hbasis
  refine ⟨c, ?_, hvalid, hsame, hsum⟩
  have hcopy : ({ out with rows := a.rows } : RnsPoly) = a := by
    cases a
    cases out
    simp_all
  have hnot : ¬(a.basis ≠ b.basis ∨ a.basis ≠ out.basis) := by simp [hbasis, ← hout]
  simp only [addInto, EStateM.run_bind, EStateM.run_get, if_neg hnot, EStateM.run_set, hcopy, hc]

/-! ## Encoding -/

/-- Cutting the concatenation of rows of one width gives the rows back. -/
theorem splitRows_flatten {width : Nat} {rows : List (List UInt64)}
    (h : ∀ row ∈ rows, row.length = width) :
    splitRows width rows.length rows.flatten = rows := by
  induction rows with
  | nil => rfl
  | cons row rows ih =>
      have hrow := h row List.mem_cons_self
      have hrest := ih fun r hr => h r (List.mem_cons_of_mem row hr)
      rw [List.length_cons, splitRows, List.flatten_cons, List.take_left' hrow,
        List.drop_left' hrow, hrest]

theorem checkReduced_of_forall₂ {degree : Nat} {qs : List Modulus} {rows : List (List UInt64)}
    (h : List.Forall₂ (RowOf degree) qs rows) : checkReduced qs rows = .ok () := by
  induction h with
  | nil => rfl
  | @cons q row qs rows hrow _ ih =>
      have hnone : row.any (q.value ≤ ·) = false := by
        rw [List.any_eq_false]
        intro x hx
        simpa using hrow.2 x hx
      simp only [checkReduced, hnone, Bool.false_eq_true, if_false, ih]

theorem forall₂_of_checkReduced {degree : Nat} {qs : List Modulus} {rows : List (List UInt64)}
    (hlength : rows.length = qs.length) (hwidth : ∀ row ∈ rows, row.length = degree)
    (h : checkReduced qs rows = .ok ()) : List.Forall₂ (RowOf degree) qs rows := by
  induction qs generalizing rows with
  | nil =>
      obtain rfl := List.length_eq_zero_iff.mp hlength
      exact .nil
  | cons q qs ih =>
      cases rows with
      | nil => cases hlength
      | cons row rows =>
          rw [checkReduced] at h
          split at h
          · cases h
          · rename_i hreduced
            rw [Bool.not_eq_true, List.any_eq_false] at hreduced
            refine .cons ⟨hwidth row List.mem_cons_self, ?_⟩ ?_
            · intro x hx
              simpa using hreduced x hx
            · exact ih (Nat.succ.inj hlength)
                (fun r hr => hwidth r (List.mem_cons_of_mem row hr)) h

/-- The polynomial of given rows is valid. -/
theorem valid_of_ofRows (hbuilt : basis.Built) {rows : List (List UInt64)}
    (h : ofRows basis rows = .ok a) : a.Valid ∧ a.basis = basis := by
  unfold RnsPoly.ofRows at h
  split at h
  · cases h
  · rename_i hshape
    rw [not_or, not_ne_iff, Bool.not_eq_true, List.any_eq_false] at hshape
    simp only [Outcome.bind_eq_ok, Outcome.pure_eq_ok, Except.ok.injEq] at h
    rcases h with ⟨_, hreduced, rfl⟩
    refine ⟨⟨hbuilt, forall₂_of_checkReduced hshape.1 ?_ hreduced⟩, rfl⟩
    intro row hrow
    simpa using hshape.2 row hrow

theorem Valid.row_length (ha : a.Valid) : ∀ row ∈ a.rows, row.length = a.basis.degree := by
  intro row hrow
  rcases List.mem_iff_getElem?.mp hrow with ⟨i, hi⟩
  have hlt : i < a.basis.operators.length :=
    ha.length_rows ▸ (List.getElem?_eq_some_iff.mp hi).1
  obtain ⟨row', hrow', hlength, -⟩ := ha.row (List.getElem?_eq_getElem hlt)
  rw [hi, Option.some.injEq] at hrow'
  rw [hrow', hlength]

theorem Valid.ofRows (ha : a.Valid) : ofRows a.basis a.rows = .ok a := by
  have hshape : ¬(a.rows.length ≠ a.basis.operators.length ∨
      (a.rows.any fun row => decide (row.length ≠ a.basis.degree)) = true) := by
    rw [not_or, not_ne_iff, Bool.not_eq_true, List.any_eq_false]
    exact ⟨ha.length_rows, fun row hrow => by simpa using ha.row_length row hrow⟩
  rw [RnsPoly.ofRows, if_neg hshape, checkReduced_of_forall₂ ha.rows]
  rfl

theorem Valid.length_encode (ha : a.Valid) : a.encode.length = encodedSize a.basis := by
  have hflat : a.rows.flatten.length = a.rows.length * a.basis.degree := by
    rw [List.length_flatten, List.map_congr_left ha.row_length, List.map_const',
      List.sum_replicate, smul_eq_mul]
  rw [RnsPoly.length_encode, hflat, ha.length_rows, encodedSize]
  ring

/-- A valid polynomial is read back from its bytes. -/
theorem decode_encode (ha : a.Valid) (hfits : encodedSize a.basis < UInt64.size) :
    decode a.basis a.encode = .ok a := by
  have hrows : splitRows a.basis.degree a.basis.operators.length
      (LittleEndian.decodeAll a.encode) = a.rows := by
    rw [encode, LittleEndian.decodeAll_encodeAll, ← ha.length_rows,
      splitRows_flatten ha.row_length]
  simp only [decode, Outcome.require_of hfits, Outcome.ok_bind, ha.length_encode, ne_eq,
    not_true_eq_false, if_false, hrows, ha.ofRows]
  rfl

end RingShamir.RnsPoly
