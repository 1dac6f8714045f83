import RingShamir.Proofs.RnsPoly.Codec
import RingShamir.Proofs.Safety

/-!
# Safe construction of polynomials

Over a basis whose polynomials can be addressed, the zero polynomial and uniform
ones are made without a breach, and bytes are decoded or refused.  What is made is
valid, over any basis that was made of its moduli.

Main results:

- Definition `Addressable`: a basis whose polynomials can be made.
- Theorems `zero_ensures`, `random_yields` and `decode_ensures`: polynomials over
  such a basis.
- Theorems `valid_of_random` and `valid_of_decode`: polynomials over any basis.
-/

namespace RingShamir

variable {ε : Type}

/-! ## Uniform residues -/

theorem WordStream.below_yields {p : UInt64} (hp : p ≠ 0) :
    Action.Yields (below p : Action ε WordStream UInt64) (· < p) := by
  intro s
  have hrun : ∃ v s', EStateM.run (below p : Action ε WordStream UInt64) s =
      .ok (scaleDown p v) s' := by
    simp [below, EStateM.run, hp]
  rcases hrun with ⟨v, s', hrun⟩
  exact ⟨_, s', hrun, scaleDown_lt v hp⟩

namespace Modulus

variable {q : Modulus}

theorem Accepted.value_ne_zero (hq : q.Accepted) : q.value ≠ 0 := by
  intro hzero
  have hpos := hq.pos
  rw [hzero] at hpos
  exact absurd hpos (by decide)

theorem sample_yields (hq : q.Accepted) (n : Nat) :
    Action.Yields (q.sample n : Action ε WordStream _) (RnsPoly.RowOf n q) := by
  induction n with
  | zero => exact Action.yields_pure ⟨rfl, by simp⟩
  | succ n ih =>
      refine (WordStream.below_yields hq.value_ne_zero).bind fun x hx => ?_
      refine ih.bind fun row hrow => Action.yields_pure ⟨?_, ?_⟩
      · rw [List.length_cons, hrow.1]
      · exact List.forall_mem_cons.mpr ⟨hx, hrow.2⟩

end Modulus

/-! ## Polynomials -/

/-- A basis that was made of its moduli and whose polynomials can be addressed. -/
structure RnsBasis.Addressable (b : RnsBasis) : Prop where
  /-- The basis was made of its moduli. -/
  built : b.Built
  /-- The bytes of a polynomial can be addressed. -/
  size_lt : RnsPoly.encodedSize b < Word.addressLimit

namespace RnsPoly

variable {a : RnsPoly} {basis : RnsBasis} {bytes : List UInt8}

theorem zero_ensures (hb : basis.Addressable) :
    (zero basis : Outcome ε RnsPoly).Ensures fun a => a.Valid :=
  Outcome.ensures_of_eq_ok (zero_of_fits hb.size_lt)
    (valid_of_zero (ε := ε) hb.built (zero_of_fits hb.size_lt)).1

/-- A uniform polynomial is sampled. -/
theorem random_yields (hb : basis.Addressable) :
    Action.Yields (random basis : Action ε WordStream RnsPoly)
      fun a => a.Valid ∧ a.basis = basis := by
  have hpos : 0 < basis.operators.length := by
    rw [hb.built.length_operators, hb.built.length_moduli]
    omega
  have hrow : 8 * basis.degree < Word.addressLimit :=
    (Nat.le_mul_of_pos_right _ hpos).trans_lt hb.size_lt
  refine (Action.yields_require hb.size_lt).bind fun _ _ => ?_
  refine (Action.yields_mapM (T := RowOf basis.degree) fun q hq => ?_).bind fun rows hrows =>
    Action.yields_pure ⟨⟨hb.built, hrows⟩, rfl⟩
  exact (Action.yields_require hrow).bind fun _ _ =>
    Modulus.sample_yields (hb.built.suitable q hq).toAccepted _

theorem random_keeps (hb : basis.Addressable) :
    Action.Keeps (fun _ => True) (random basis : Action ε WordStream RnsPoly)
      fun a => a.Valid :=
  (random_yields hb).keeps.imp fun _ ha => ha.1

theorem decode_ensures (hb : basis.Addressable) (bytes : List UInt8) :
    (decode basis bytes).Ensures fun a => a.Valid := by
  have hfits : encodedSize basis < UInt64.size :=
    hb.size_lt.trans (by simp [Word.addressLimit, UInt64.size])
  rcases decode_cases hfits bytes with ⟨a, ha⟩ | ⟨text, htext⟩
  · exact Outcome.ensures_of_eq_ok ha ((decode_eq_ok hb.built hfits).mp ha).1
  · exact htext ▸ Outcome.ensures_failure _

/-- A uniform polynomial is valid; one that cannot be addressed is not returned. -/
theorem valid_of_random {s s' : WordStream} (hb : basis.Built)
    (h : EStateM.run (random basis : Action ε WordStream RnsPoly) s = .ok a s') : a.Valid := by
  rcases Action.run_bind_eq_ok.mp h with ⟨_, _, hrequire, -⟩
  obtain ⟨hfits, -⟩ := Action.run_require_eq_ok.mp hrequire
  exact (random_keeps ⟨hb, hfits⟩).of_ok trivial h

theorem valid_of_decode (hb : basis.Built) (h : decode basis bytes = .ok a) : a.Valid := by
  rcases Outcome.bind_eq_ok.mp h with ⟨_, hrequire, -⟩
  exact ((decode_eq_ok hb (Outcome.require_eq_ok.mp hrequire)).mp h).1

/-- Erasing keeps the shape, and zero is reduced. -/
theorem valid_erase (ha : a.Valid) : a.erase.Valid := by
  refine ⟨ha.built, ?_⟩
  rw [basis_erase, rows_erase, List.forall₂_map_right_iff]
  apply forall₂_of_getElem? ha.length_rows.symm
  intro i q row hq hrow
  obtain ⟨hwidth, -⟩ := getElem?_of_forall₂ ha.rows hq hrow
  refine ⟨by rw [List.length_map, hwidth], ?_⟩
  intro x hx
  rcases List.mem_map.mp hx with ⟨-, -, rfl⟩
  exact (ha.suitable hq).zero_lt

end RnsPoly

end RingShamir
