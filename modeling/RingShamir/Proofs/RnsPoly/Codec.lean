import RingShamir.Proofs.RnsPoly

/-!
# Bytes of polynomials

The bytes that encode a valid polynomial over a basis are those that hold a
reduced word at every position of every row, and no others.  What the decoder
accepts is described here on the bytes alone, word by word, without the rows that
the decoder cuts them into.

Main results:

- Definition `HoldsResidues`: bytes with a residue at every position.
- Theorem `holdsResidues_append_iff`: the residues of two lists of moduli stand one
  after the other.
- Theorem `holdsResidues_iff`: bytes that hold residues are those of the valid
  polynomials.
- Theorem `decode_eq_ok`: decoding inverts encoding.
- Theorem `decode_cases`: other bytes are refused by name.
-/

namespace RingShamir

namespace LittleEndian

/-- The word whose bytes stand after those of `k` other words. -/
def wordAt (bytes : List UInt8) (k : Nat) : UInt64 :=
  decode ((bytes.drop (8 * k)).take 8)

theorem decodeAll_eq_cons {bytes : List UInt8} (h : 8 ≤ bytes.length) :
    decodeAll bytes = decode (bytes.take 8) :: decodeAll (bytes.drop 8) := by
  have hhead : (bytes.take 8).length = 8 := by
    rw [List.length_take]
    omega
  rw [← decodeAll_append hhead, List.take_append_drop]

theorem getElem?_decodeAll {bytes : List UInt8} {k : Nat} (h : 8 * (k + 1) ≤ bytes.length) :
    (decodeAll bytes)[k]? = some (wordAt bytes k) := by
  induction k generalizing bytes with
  | zero =>
      rw [decodeAll_eq_cons h, List.getElem?_cons_zero, wordAt, Nat.mul_zero, List.drop_zero]
  | succ k ih =>
      have hrest : 8 * (k + 1) ≤ (bytes.drop 8).length := by
        rw [List.length_drop]
        omega
      rw [decodeAll_eq_cons (by omega), List.getElem?_cons_succ, ih hrest, wordAt, wordAt,
        List.drop_drop, Nat.mul_add, Nat.add_comm]

theorem length_decodeAll {bytes : List UInt8} {n : Nat} (h : bytes.length = 8 * n) :
    (decodeAll bytes).length = n := by
  have hlength := length_encodeAll (decodeAll bytes)
  rw [encodeAll_decodeAll h] at hlength
  omega

theorem wordAt_take {bytes : List UInt8} {n k : Nat} (h : k < n) :
    wordAt (bytes.take (8 * n)) k = wordAt bytes k := by
  rw [wordAt, wordAt, List.drop_take, List.take_take, Nat.min_eq_left (by omega)]

theorem wordAt_drop (bytes : List UInt8) (n k : Nat) :
    wordAt (bytes.drop (8 * n)) k = wordAt bytes (n + k) := by
  rw [wordAt, wordAt, List.drop_drop, Nat.mul_add]

end LittleEndian

namespace RnsPoly

variable {a : RnsPoly} {basis : RnsBasis} {bytes : List UInt8} {degree : Nat}
  {qs ps : List Modulus}

/-! ## Bytes with residues -/

/-- Bytes that hold `degree` words for each modulus, row after row, all of them
reduced. -/
structure HoldsResidues (degree : Nat) (qs : List Modulus) (bytes : List UInt8) : Prop where
  /-- There are eight bytes for each word. -/
  length : bytes.length = 8 * degree * qs.length
  /-- The words are residues of the moduli of their rows. -/
  reduced : ∀ (i : Nat) (q : Modulus) (j : Nat), qs[i]? = some q → j < degree →
    LittleEndian.wordAt bytes (i * degree + j) < q.value

/-- A position of a row is one of the whole list of words. -/
theorem position_lt {i j rows : Nat} (hi : i < rows) (hj : j < degree) :
    i * degree + j < degree * rows := by
  have hrow : (i + 1) * degree ≤ rows * degree := Nat.mul_le_mul_right degree hi
  rw [Nat.add_mul, Nat.mul_comm rows] at hrow
  omega

/-- The residues of two lists of moduli stand one after the other. -/
theorem holdsResidues_append_iff :
    HoldsResidues degree (qs ++ ps) bytes ↔ 8 * degree * qs.length ≤ bytes.length ∧
      HoldsResidues degree qs (bytes.take (8 * degree * qs.length)) ∧
        HoldsResidues degree ps (bytes.drop (8 * degree * qs.length)) := by
  rw [Nat.mul_assoc]
  constructor
  · rintro ⟨hlength, hreduced⟩
    rw [List.length_append, Nat.mul_assoc, Nat.mul_add] at hlength
    refine ⟨by omega, ⟨?_, ?_⟩, ?_, ?_⟩
    · rw [List.length_take, Nat.mul_assoc]
      omega
    · intro i q j hq hj
      have hi := (List.getElem?_eq_some_iff.mp hq).1
      rw [LittleEndian.wordAt_take (position_lt hi hj)]
      exact hreduced i q j (by rw [List.getElem?_append_left hi, hq]) hj
    · rw [List.length_drop, Nat.mul_assoc]
      omega
    · intro i q j hq hj
      have hposition : degree * qs.length + (i * degree + j) =
          (qs.length + i) * degree + j := by ring
      rw [LittleEndian.wordAt_drop, hposition]
      have hq' : (qs ++ ps)[qs.length + i]? = some q := by
        rw [List.getElem?_append_right (by omega), Nat.add_sub_cancel_left, hq]
      exact hreduced _ q j hq' hj
  · rintro ⟨hle, hfirst, hsecond⟩
    constructor
    · have hlength := hsecond.length
      rw [List.length_drop] at hlength
      rw [List.length_append, Nat.mul_add, Nat.mul_assoc, Nat.mul_assoc]
      rw [Nat.mul_assoc] at hlength
      omega
    · intro i q j hq hj
      rcases Nat.lt_or_ge i qs.length with hi | hi
      · rw [List.getElem?_append_left hi] at hq
        rw [← LittleEndian.wordAt_take (position_lt hi hj)]
        exact hfirst.reduced i q j hq hj
      · rw [List.getElem?_append_right hi] at hq
        have hposition : i * degree + j =
            degree * qs.length + ((i - qs.length) * degree + j) := by
          obtain ⟨k, rfl⟩ := Nat.exists_eq_add_of_le hi
          rw [Nat.add_sub_cancel_left]
          ring
        rw [hposition, ← LittleEndian.wordAt_drop]
        exact hsecond.reduced _ q j hq hj

/-! ## Rows -/

theorem getElem?_splitRows {width n i : Nat} (hi : i < n) (ws : List UInt64) :
    (splitRows width n ws)[i]? = some ((ws.drop (i * width)).take width) := by
  induction n generalizing i ws with
  | zero => omega
  | succ n ih =>
      cases i with
      | zero => rw [splitRows, List.getElem?_cons_zero, Nat.zero_mul, List.drop_zero]
      | succ i =>
          rw [splitRows, List.getElem?_cons_succ, ih (Nat.lt_of_succ_lt_succ hi),
            List.drop_drop, Nat.add_mul, Nat.one_mul, Nat.add_comm]

/-- Joining the rows of equal width that a list is cut into gives the list back. -/
theorem flatten_splitRows {width n : Nat} {ws : List UInt64} (h : ws.length = width * n) :
    (splitRows width n ws).flatten = ws := by
  induction n generalizing ws with
  | zero =>
      obtain rfl := List.length_eq_zero_iff.mp h
      rfl
  | succ n ih =>
      have hrest : (ws.drop width).length = width * n := by
        rw [List.length_drop, h, Nat.mul_add]
        omega
      rw [splitRows, List.flatten_cons, ih hrest, List.take_append_drop]

/-- The words of a valid polynomial are its coefficients. -/
theorem Valid.wordAt_encode (ha : a.Valid) {i j : Nat} (hi : i < a.basis.operators.length)
    (hj : j < a.basis.degree) :
    LittleEndian.wordAt a.encode (i * a.basis.degree + j) = a.coefficient i j := by
  have hposition := position_lt hi hj
  have hlength : 8 * (i * a.basis.degree + j + 1) ≤ a.encode.length := by
    rw [ha.length_encode, encodedSize, Nat.mul_assoc]
    omega
  obtain ⟨row, hrow, hwidth, -⟩ := ha.row (List.getElem?_eq_getElem hi)
  have hsplit : (splitRows a.basis.degree a.rows.length a.rows.flatten)[i]? = some row := by
    rw [splitRows_flatten ha.row_length, hrow]
  rw [getElem?_splitRows (ha.length_rows ▸ hi), Option.some.injEq] at hsplit
  have hword := LittleEndian.getElem?_decodeAll hlength
  rw [encode, LittleEndian.decodeAll_encodeAll] at hword
  rw [coefficient_of_row hrow, ← hsplit, List.getElem?_take_of_lt hj, List.getElem?_drop, hword]
  rfl

/-! ## Decoding -/

/-- Bytes that hold residues are those of the valid polynomials over a basis. -/
theorem holdsResidues_iff (hbuilt : basis.Built) :
    HoldsResidues basis.degree basis.operators bytes ↔
      ∃ a : RnsPoly, a.Valid ∧ a.basis = basis ∧ a.encode = bytes := by
  constructor
  · rintro ⟨hlength, hreduced⟩
    rw [Nat.mul_assoc] at hlength
    have hwords := LittleEndian.length_decodeAll hlength
    refine ⟨⟨basis, splitRows basis.degree basis.operators.length
      (LittleEndian.decodeAll bytes)⟩, ⟨hbuilt, ?_⟩, rfl, ?_⟩
    · apply forall₂_of_getElem?
      · rw [length_splitRows]
      · intro i q row hq hrow
        have hi := (List.getElem?_eq_some_iff.mp hq).1
        rw [getElem?_splitRows hi, Option.some.injEq] at hrow
        have hend : (i + 1) * basis.degree ≤ basis.operators.length * basis.degree :=
          Nat.mul_le_mul_right basis.degree hi
        rw [Nat.add_mul, Nat.mul_comm basis.operators.length] at hend
        constructor
        · rw [← hrow, List.length_take, List.length_drop, hwords]
          simp only
          omega
        · intro x hx
          rcases List.mem_iff_getElem?.mp (hrow ▸ hx) with ⟨j, hj⟩
          have hlt : j < basis.degree := by
            have := (List.getElem?_eq_some_iff.mp hj).1
            rw [List.length_take] at this
            omega
          rw [List.getElem?_take_of_lt hlt, List.getElem?_drop,
            LittleEndian.getElem?_decodeAll (by have := position_lt hi hlt; omega),
            Option.some.injEq] at hj
          exact hj ▸ hreduced i q j hq hlt
    · rw [encode, flatten_splitRows hwords, LittleEndian.encodeAll_decodeAll hlength]
  · rintro ⟨a, ha, rfl, rfl⟩
    constructor
    · exact ha.length_encode
    · intro i q j hq hj
      rw [ha.wordAt_encode (List.getElem?_eq_some_iff.mp hq).1 hj]
      exact ha.coefficient_lt hq j

theorem rows_of_ofRows {rows : List (List UInt64)} (h : ofRows basis rows = .ok a) :
    a.rows = rows := by
  unfold ofRows at h
  split at h
  · cases h
  · simp only [Outcome.bind_eq_ok, Outcome.pure_eq_ok, Except.ok.injEq] at h
    rcases h with ⟨_, _, rfl⟩
    rfl

theorem checkReduced_reported (qs : List Modulus) (rows : List (List UInt64)) :
    (checkReduced qs rows).Reported := by
  induction qs generalizing rows with
  | nil => exact Outcome.reported_ok ()
  | cons q qs ih =>
      cases rows with
      | nil => exact Outcome.reported_ok ()
      | cons row rows =>
          rw [checkReduced]
          split
          · exact Outcome.reported_failure _
          · exact ih rows

theorem ofRows_reported (basis : RnsBasis) (rows : List (List UInt64)) :
    (ofRows basis rows).Reported := by
  unfold ofRows
  split
  · exact Outcome.reported_failure _
  · exact (checkReduced_reported _ _).bind fun _ _ => Outcome.reported_ok _

/-- Decoding inverts encoding: the bytes that are accepted for a polynomial are its
encoding. -/
theorem decode_eq_ok (hbuilt : basis.Built) (hfits : encodedSize basis < UInt64.size) :
    decode basis bytes = .ok a ↔ a.Valid ∧ a.basis = basis ∧ a.encode = bytes := by
  constructor
  · intro h
    simp only [decode, Outcome.require_of hfits, Outcome.ok_bind] at h
    split at h
    · cases h
    · rename_i hlength
      rw [not_ne_iff, encodedSize, Nat.mul_assoc] at hlength
      split at h
      next r hr =>
          obtain rfl : r = a := Except.ok.inj h
          obtain ⟨hvalid, hbasis⟩ := valid_of_ofRows hbuilt hr
          refine ⟨hvalid, hbasis, ?_⟩
          rw [encode, rows_of_ofRows hr,
            flatten_splitRows (LittleEndian.length_decodeAll hlength),
            LittleEndian.encodeAll_decodeAll hlength]
      next => cases h
      next => cases h
  · rintro ⟨ha, rfl, rfl⟩
    exact decode_encode ha hfits

/-- Bytes of a length that can be counted are accepted, or they are refused as not
being a polynomial. -/
theorem decode_cases (hfits : encodedSize basis < UInt64.size) (bytes : List UInt8) :
    (∃ a, decode basis bytes = .ok a) ∨
      ∃ text, decode basis bytes = .error (.failure (.serialization text)) := by
  simp only [decode, Outcome.require_of hfits, Outcome.ok_bind]
  split
  · exact .inr ⟨_, rfl⟩
  · rcases (ofRows_reported basis (splitRows basis.degree basis.operators.length
      (LittleEndian.decodeAll bytes))).cases with ⟨a, ha⟩ | ⟨err, herr⟩
    · rw [ha]
      exact .inl ⟨a, rfl⟩
    · rw [herr]
      exact .inr ⟨_, rfl⟩

end RnsPoly

end RingShamir
