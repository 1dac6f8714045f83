import RingShamir.Proofs.Sharing.Atomicity

/-!
# Combiners have no memory

A combiner computes the product of the factors of a quorum in a scratch scalar,
and what one calculation leaves there is still there when the next one starts,
also after a fault.  Each calculation overwrites the scratch scalar before it
reads it.  So a combiner answers a call in the same way whatever calls it has
answered before.

Nothing here depends on the laws of a chain, nor on calls that succeed: a call
may be for any quorum, own point, share and output.

Main results:

- Definition `Combiner.Call`: the two ways to calculate an additive share.
- Theorem `Combiner.gatherFactors_overwrites`: the scratch scalar is overwritten
  before it is read.
- Theorem `Combiner.perform_withScratch`: a call is answered in the same way from
  every scratch scalar of a length.
- Theorem `combiner_memoryless`: a run of calls is answered call by call as by
  combiners that were just made.
-/

namespace RingShamir

namespace Combiner

open ResidueChain

/-! ## Calls -/

/-- A calculation of an additive share. -/
inductive Call (E : Type) where
  /-- The additive share is stored in an output. -/
  | into (actives : List PublicPoint) (own : PublicPoint) (share : Share E) (output : E)
  /-- The additive share is stored in a new element. -/
  | allocated (actives : List PublicPoint) (own : PublicPoint) (share : Share E)

/-- What the caller sees of a call. -/
inductive Answer (E : Type) where
  /-- How the calculation ends, and what the output holds then. -/
  | into (ending : Outcome SchemeError Unit) (output : E)
  /-- How the calculation ends. -/
  | allocated (ending : Outcome SchemeError E)
deriving DecidableEq

section Runs

variable {C E L : Type} [ResidueChain C E L] [DecidableEq L]

/-- Answer a call, and keep the combiner that it leaves. -/
def perform (c : Combiner C) : Call E → Answer E × Combiner C
  | .into actives own share output =>
      let r := EStateM.run (additiveInto actives own share) ⟨c, output⟩
      (.into (Action.ending r) (Action.finalState r).output, (Action.finalState r).combiner)
  | .allocated actives own share =>
      let r := EStateM.run (additive actives own share) c
      (.allocated (Action.ending r), Action.finalState r)

/-- The answers of one combiner to calls, one after the other. -/
def answers (c : Combiner C) : List (Call E) → List (Answer E)
  | [] => []
  | call :: calls => (c.perform call).1 :: (c.perform call).2.answers calls

/-- The combiner that calls leave, one after the other. -/
def after (c : Combiner C) (calls : List (Call E)) : Combiner C :=
  calls.foldl (fun c call => (c.perform call).2) c

/-- The answer of a combiner that is made for the call. -/
def freshAnswer (chain : C) (own : PublicPoint) (others : List PublicPoint) (threshold : Nat)
    (call : Call E) : Outcome SchemeError (Answer E) := do
  let c ← make chain own others threshold
  pure (c.perform call).1

/-- The checks that a calculation makes before it touches the scratch scalar. -/
def admission (c : Combiner C) (actives : List PublicPoint) (own : PublicPoint) (share : Share E)
    (out : E) : Outcome SchemeError (List PublicPoint) := do
  let members ← c.quorum actives own
  let l ← Share.levelOf c.chain share
  let lo ← Share.levelOf c.chain (Share.mk out)
  if l ≠ lo then
    let found := levelText c.chain lo
    let expected := levelText c.chain l
    Outcome.fail (.levelMismatch
      s!"additive share at level {found} for a Shamir share at level {expected}")
  else pure members

end Runs

/-! ## The scratch scalar -/

section Scratch

variable {C : Type}

/-- The combiner with another scratch scalar. -/
def withScratch (c : Combiner C) (s : Scalar) : Combiner C :=
  { c with scratch := s }

variable (c : Combiner C) (s s' : Scalar)

@[simp] theorem chain_withScratch : (c.withScratch s).chain = c.chain := rfl

@[simp] theorem own_withScratch : (c.withScratch s).own = c.own := rfl

@[simp] theorem threshold_withScratch : (c.withScratch s).threshold = c.threshold := rfl

@[simp] theorem one_withScratch : (c.withScratch s).one = c.one := rfl

@[simp] theorem scratch_withScratch : (c.withScratch s).scratch = s := rfl

@[simp] theorem withScratch_scratch : c.withScratch c.scratch = c := rfl

@[simp] theorem withScratch_withScratch :
    (c.withScratch s).withScratch s' = c.withScratch s' := rfl

@[simp] theorem factor?_withScratch (x : PublicPoint) :
    (c.withScratch s).factor? x = c.factor? x := rfl

@[simp] theorem checkMembers_withScratch (own : PublicPoint) (seen xs : List PublicPoint) :
    (c.withScratch s).checkMembers own seen xs = c.checkMembers own seen xs := by
  induction xs generalizing seen with
  | nil => rfl
  | cons x xs ih => simp only [checkMembers, factor?_withScratch, ih]

@[simp] theorem quorum_withScratch (actives : List PublicPoint) (own : PublicPoint) :
    (c.withScratch s).quorum actives own = c.quorum actives own := by
  simp only [quorum, threshold_withScratch, own_withScratch, checkMembers_withScratch]

end Scratch

section Factors

variable {C E L : Type} [ResidueChain C E L] (c : Combiner C) (xs : List PublicPoint)

@[simp] theorem multiplyFactors_withScratch (s : Scalar) :
    (c.withScratch s).multiplyFactors xs = c.multiplyFactors xs := by
  induction xs with
  | nil => rfl
  | cons x xs ih => simp only [multiplyFactors, factor?_withScratch, chain_withScratch, ih]

@[simp] theorem gatherFactors_withScratch (s : Scalar) :
    (c.withScratch s).gatherFactors xs = c.gatherFactors xs := by
  simp only [gatherFactors, one_withScratch, multiplyFactors_withScratch]

/-- Multiplying by factors keeps the number of limbs, also when it fails. -/
theorem length_multiplyFactors (s : Scalar) :
    (Action.finalState (EStateM.run (c.multiplyFactors xs) s)).length = s.length := by
  induction xs generalizing s with
  | nil => rfl
  | cons x xs ih =>
      rw [multiplyFactors]
      cases c.factor? x with
      | none => rfl
      | some t =>
          simp only [Scalar.mulAssign, bind_assoc, EStateM.run_bind, EStateM.run_get,
            Action.run_lift, EStateM.run_set]
          cases hproduct : (Scalar.mul (moduli c.chain) s t : Outcome SchemeError Scalar) with
          | error e => rfl
          | ok product =>
              simp only
              rw [ih product, Scalar.length_of_mul hproduct]

theorem length_gatherFactors (s : Scalar) :
    (Action.finalState (EStateM.run (c.gatherFactors xs) s)).length = s.length := by
  by_cases hlength : s.length = c.one.length
  · simp only [gatherFactors, Scalar.copyFrom, bind_assoc, EStateM.run_bind, EStateM.run_get,
      Action.run_require_of hlength, EStateM.run_set]
    rw [length_multiplyFactors, hlength]
  · simp only [gatherFactors, Scalar.copyFrom, bind_assoc, EStateM.run_bind, EStateM.run_get,
      Action.run_require_of_not hlength, Action.finalState]

/-- The scratch scalar is overwritten before it is read: from all scalars of one
length, gathering factors runs in the same way or stops at once. -/
theorem gatherFactors_overwrites {s s' : Scalar} (h : s'.length = s.length) :
    EStateM.run (c.gatherFactors xs) s' = EStateM.run (c.gatherFactors xs) s ∨
      EStateM.run (c.gatherFactors xs) s = .error .breach s ∧
        EStateM.run (c.gatherFactors xs) s' = .error .breach s' := by
  by_cases hlength : s.length = c.one.length
  · left
    simp only [gatherFactors, Scalar.copyFrom, bind_assoc, EStateM.run_bind, EStateM.run_get,
      Action.run_require_of hlength, Action.run_require_of (h.trans hlength), EStateM.run_set]
  · right
    simp only [gatherFactors, Scalar.copyFrom, bind_assoc, EStateM.run_bind, EStateM.run_get,
      Action.run_require_of_not hlength, Action.run_require_of_not (h ▸ hlength), and_self]

/-- The end of a calculation, after a run on the scratch scalar. -/
def finish (share : Share E) (out : E) :
    EStateM.Result (Fault SchemeError) Scalar Unit →
      EStateM.Result (Fault SchemeError) (Work C E) Unit
  | .error e s => .error e ⟨c.withScratch s, out⟩
  | .ok _ s =>
      match ((scaleAssign c.chain s).applyTo share.value).mapError SchemeError.ofRing with
      | .error e => .error e ⟨c.withScratch s, out⟩
      | .ok value => .ok () ⟨c.withScratch s, value⟩

@[simp] theorem finish_withScratch (s : Scalar) (share : Share E) (out : E)
    (r : EStateM.Result (Fault SchemeError) Scalar Unit) :
    (c.withScratch s).finish share out r = c.finish share out r := by
  cases r <;> rfl

theorem combiner_finish (share : Share E) (out : E)
    (r : EStateM.Result (Fault SchemeError) Scalar Unit) :
    (Action.finalState (c.finish share out r)).combiner =
      c.withScratch (Action.finalState r) := by
  cases r with
  | error e s => rfl
  | ok u s =>
      rw [finish]
      cases ((scaleAssign c.chain s).applyTo share.value).mapError SchemeError.ofRing <;> rfl

end Factors

/-! ## Steps -/

section Steps

variable {C E L : Type} [ResidueChain C E L] [DecidableEq L] (c : Combiner C) {s : Scalar}

@[simp] theorem admit_withScratch (actives : List PublicPoint) (own : PublicPoint)
    (share : Share E) (out : E) :
    (c.withScratch s).admission actives own share out = c.admission actives own share out := by
  rw [admission, quorum_withScratch]
  rfl

/-- A calculation makes its checks, works on the scratch scalar and writes its
output, in this order. -/
theorem run_additiveInto_eq (actives : List PublicPoint) (own : PublicPoint) (share : Share E)
    (out : E) : EStateM.run (additiveInto actives own share) ⟨c, out⟩ =
      match c.admission actives own share out with
      | .error e => .error e ⟨c, out⟩
      | .ok members =>
          c.finish share out
            (EStateM.run (c.gatherFactors (members.filter (· ≠ own))) c.scratch) := by
  simp only [additiveInto, admission, EStateM.run_bind, EStateM.run_get, Action.run_lift]
  cases c.quorum actives own with
  | error e => rfl
  | ok members =>
      simp only [Outcome.ok_bind]
      cases Share.levelOf c.chain share with
      | error e => rfl
      | ok l =>
          simp only [Outcome.ok_bind]
          cases Share.levelOf c.chain (Share.mk out) with
          | error e => rfl
          | ok lo =>
              simp only [Outcome.ok_bind]
              split
              · rfl
              · simp only [Work.onScratch, EStateM.run_bind, Action.run_within, EStateM.run_get,
                  Action.run_lift, EStateM.run_modify, Outcome.pure_eq_ok]
                cases EStateM.run (c.gatherFactors (members.filter (· ≠ own))) c.scratch with
                | error e s => rfl
                | ok u s =>
                    simp only [finish]
                    cases (scaleAssign c.chain s).applyTo share.value <;> rfl

/-- Two runs end alike on a combiner: the endings and the outputs are equal, and
each leaves the combiner with a scratch scalar of the same length. -/
structure EndAlike (c : Combiner C)
    (r r' : EStateM.Result (Fault SchemeError) (Work C E) Unit) : Prop where
  /-- The runs end in the same way. -/
  ending : Action.ending r' = Action.ending r
  /-- The outputs are equal. -/
  output : (Action.finalState r').output = (Action.finalState r).output
  /-- The combiner is left as it was, but for its scratch scalar. -/
  combiner : ∃ s, (Action.finalState r').combiner = c.withScratch s ∧
    s.length = c.scratch.length

theorem additiveInto_endAlike (hs : s.length = c.scratch.length) (actives : List PublicPoint)
    (own : PublicPoint) (share : Share E) (out : E) :
    EndAlike c (EStateM.run (additiveInto actives own share) ⟨c, out⟩)
      (EStateM.run (additiveInto actives own share) ⟨c.withScratch s, out⟩) := by
  rw [run_additiveInto_eq, run_additiveInto_eq, admit_withScratch]
  cases c.admission actives own share out with
  | error e => exact ⟨rfl, rfl, s, rfl, hs⟩
  | ok members =>
      simp only [gatherFactors_withScratch, scratch_withScratch, finish_withScratch]
      have hlength := c.length_gatherFactors (members.filter (· ≠ own)) s
      rcases c.gatherFactors_overwrites (members.filter (· ≠ own)) hs with hrun | ⟨hrun, hrun'⟩
      · rw [← hrun]
        exact ⟨rfl, rfl, _, c.combiner_finish share out _, hlength.trans hs⟩
      · rw [hrun, hrun']
        exact ⟨rfl, rfl, s, rfl, hs⟩

/-- A call is answered in the same way from every scratch scalar of a length, and
leaves another one of that length. -/
theorem perform_withScratch (hs : s.length = c.scratch.length) (call : Call E) :
    ((c.withScratch s).perform call).1 = (c.perform call).1 ∧
      ∃ s', ((c.withScratch s).perform call).2 = c.withScratch s' ∧
        s'.length = c.scratch.length := by
  cases call with
  | into actives own share out =>
      obtain ⟨hending, houtput, hcombiner⟩ := c.additiveInto_endAlike hs actives own share out
      exact ⟨by simp only [perform, hending, houtput], hcombiner⟩
  | allocated actives own share =>
      simp only [perform, additive, EStateM.run_bind, EStateM.run_get, Action.run_lift,
        quorum_withScratch, chain_withScratch]
      cases c.quorum actives own with
      | error e => exact ⟨rfl, s, rfl, hs⟩
      | ok members =>
          simp only
          cases Share.levelOf c.chain share with
          | error e => exact ⟨rfl, s, rfl, hs⟩
          | ok l =>
              simp only
              cases (zeroAt c.chain l).mapError SchemeError.ofRing with
              | error e => exact ⟨rfl, s, rfl, hs⟩
              | ok zero =>
                  simp only
                  -- what the allocated output holds after a fault is lost
                  obtain ⟨hending, houtput, hcombiner⟩ :=
                    c.additiveInto_endAlike hs actives own share zero
                  revert hending houtput hcombiner
                  generalize EStateM.run (additiveInto actives own share)
                    (Work.mk c zero) = r
                  generalize EStateM.run (additiveInto actives own share)
                    (Work.mk (c.withScratch s) zero) = r'
                  intro hending houtput hcombiner
                  cases r <;> cases r' <;> cases hending
                  · exact ⟨congrArg (fun e => Answer.allocated (.ok e)) houtput, hcombiner⟩
                  · exact ⟨rfl, hcombiner⟩

/-- A run of calls is answered call by call as if each one was the first, and
leaves the combiner as it was but for its scratch scalar. -/
theorem answers_withScratch (hs : s.length = c.scratch.length) (calls : List (Call E)) :
    (c.withScratch s).answers calls = calls.map (fun call => (c.perform call).1) ∧
      ∃ s', (c.withScratch s).after calls = c.withScratch s' ∧
        s'.length = c.scratch.length := by
  induction calls generalizing s with
  | nil => exact ⟨rfl, s, rfl, hs⟩
  | cons call calls ih =>
      obtain ⟨hanswer, t, ht, htlength⟩ := c.perform_withScratch hs call
      obtain ⟨hanswers, s', hs', hlength⟩ := ih htlength
      refine ⟨?_, s', ?_, hlength⟩
      · rw [answers, hanswer, ht, hanswers, List.map_cons]
      · rw [after, List.foldl_cons, ht]
        exact hs'

theorem after_eq_withScratch (calls : List (Call E)) :
    ∃ s, c.after calls = c.withScratch s ∧ s.length = c.scratch.length :=
  (c.answers_withScratch (s := c.scratch) rfl calls).2

/-- A calculation that succeeds with an output. -/
theorem exists_output_iff {r : EStateM.Result (Fault SchemeError) (Work C E) Unit} {e : E} :
    (∃ k, r = .ok () ⟨k, e⟩) ↔ Action.ending r = .ok () ∧ (Action.finalState r).output = e := by
  constructor
  · rintro ⟨k, rfl⟩
    exact ⟨rfl, rfl⟩
  · rintro ⟨hending, rfl⟩
    obtain ⟨w, rfl⟩ := Action.ending_eq_ok.mp hending
    exact ⟨w.combiner, rfl⟩

/-- A call is answered as if it was the first. -/
theorem perform_after (calls : List (Call E)) (call : Call E) :
    ((c.after calls).perform call).1 = (c.perform call).1 := by
  obtain ⟨s, hafter, hlength⟩ := c.after_eq_withScratch calls
  rw [hafter]
  exact (c.perform_withScratch hlength call).1

/-- The additive shares after calls are those before them. -/
theorem run_additive_after (calls : List (Call E)) (actives : List PublicPoint)
    (own : PublicPoint) (share : Share E) (e : E) :
    (∃ w, EStateM.run (additive actives own share) (c.after calls) = .ok e w) ↔
      ∃ w, EStateM.run (additive actives own share) c = .ok e w := by
  have hanswer := c.perform_after calls (.allocated actives own share)
  simp only [perform, Answer.allocated.injEq] at hanswer
  rw [← Action.ending_eq_ok, hanswer, Action.ending_eq_ok]

theorem run_additiveInto_after (calls : List (Call E)) (actives : List PublicPoint)
    (own : PublicPoint) (share : Share E) (out e : E) :
    (∃ w, EStateM.run (additiveInto actives own share) ⟨c.after calls, out⟩ = .ok () ⟨w, e⟩) ↔
      ∃ w, EStateM.run (additiveInto actives own share) ⟨c, out⟩ = .ok () ⟨w, e⟩ := by
  have hanswer := c.perform_after calls (.into actives own share out)
  simp only [perform, Answer.into.injEq] at hanswer
  rw [exists_output_iff, hanswer.1, hanswer.2, ← exists_output_iff]

end Steps

end Combiner

/-- A combiner has no memory: it answers each of a run of calls as a combiner does
that is made for this call alone, and after the run it still has its chain, own
point, threshold, one and factors. -/
theorem combiner_memoryless {C E L : Type} [ResidueChain C E L] [DecidableEq L] {chain : C}
    {own : PublicPoint} {others : List PublicPoint} {threshold : Nat} {c : Combiner C}
    (h : Combiner.make chain own others threshold = .ok c) (calls : List (Combiner.Call E)) :
    (c.answers calls).map .ok =
        calls.map (Combiner.freshAnswer chain own others threshold) ∧
      ∃ s, c.after calls = c.withScratch s := by
  obtain ⟨s, hafter, -⟩ := c.after_eq_withScratch calls
  refine ⟨?_, s, hafter⟩
  have hanswers := (c.answers_withScratch (s := c.scratch) rfl calls).1
  rw [Combiner.withScratch_scratch] at hanswers
  rw [hanswers, List.map_map]
  apply List.map_congr_left
  intro call _
  rw [Function.comp_apply, Combiner.freshAnswer, h]
  rfl

section FiveSeven

open PlainChain

/-- Calls for two quorums at two levels, and one without enough points between
them. -/
def mixedCalls : List (Combiner.Call RnsPoly) :=
  [.allocated [⟨11, by decide⟩, ⟨9, by decide⟩] ⟨9, by decide⟩ ⟨oneOverFiveSeven⟩,
    .into [⟨9, by decide⟩] ⟨9, by decide⟩ ⟨oneOverFiveSeven⟩ oneOverFiveSeven,
    .into [⟨9, by decide⟩, ⟨13, by decide⟩] ⟨9, by decide⟩ ⟨oneOverFive⟩ oneOverFive,
    .allocated [⟨11, by decide⟩, ⟨9, by decide⟩] ⟨9, by decide⟩ ⟨oneOverFiveSeven⟩]

theorem combiner_memoryless_fiveSeven :
    ∃ c, Combiner.make fiveSeven ⟨9, by decide⟩ [⟨11, by decide⟩, ⟨13, by decide⟩] 2 = .ok c ∧
      (c.answers mixedCalls).map .ok = mixedCalls.map (Combiner.freshAnswer fiveSeven
        ⟨9, by decide⟩ [⟨11, by decide⟩, ⟨13, by decide⟩] 2) ∧
      ∃ s, c.after mixedCalls = c.withScratch s := by
  refine ⟨_, rfl, combiner_memoryless (C := PlainChain) rfl mixedCalls⟩

end FiveSeven

end RingShamir
