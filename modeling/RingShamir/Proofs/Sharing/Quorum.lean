import Mathlib.Data.List.Induction
import Mathlib.Data.List.Nodup
import RingShamir.Proofs.Outcome
import RingShamir.Sharing.Combiner

/-!
# Quorums

The checks of a combiner go over the first active points once, and remember those that
they have passed.  What they refuse is the first of these faults: too few points, an
own point that is not the combiner's, the first point that repeats an earlier one or
is not known, and the absence of the own point.  Points after those of the quorum play
no part.

Main results:

- Definitions `QuorumOf` and `QuorumFault`: what a quorum is, and what points are
  refused for.
- Theorem `quorumOf_or_fault`: points are a quorum or have a fault.
- Theorems `quorum_of_quorumOf` and `quorum_of_fault`: the checks accept quorums and
  report faults; with theorems `quorumOf_of_quorum` and `quorum_eq_failure` for the
  converse.
-/

namespace RingShamir.Combiner

variable {C : Type} {k : Combiner C} {own : PublicPoint} {e : SchemeError}
  {actives members seen xs : List PublicPoint}

/-- Points that are distinct, and known to a combiner but for its own. -/
structure Cleared (k : Combiner C) (own : PublicPoint) (xs : List PublicPoint) : Prop where
  /-- The points are distinct. -/
  nodup : xs.Nodup
  /-- The points other than the own one have a factor. -/
  known : ∀ x ∈ xs, x ≠ own → (k.factor? x).isSome

/-- A quorum: the first active points are distinct, the own point is among them,
and a combiner has factors of all the other ones. -/
structure QuorumOf (k : Combiner C) (actives : List PublicPoint) (own : PublicPoint)
    (members : List PublicPoint) : Prop where
  /-- There are enough active points. -/
  threshold_le : k.threshold ≤ actives.length
  /-- The members are the first active points. -/
  members_eq : members = actives.take k.threshold
  /-- The own point is that of the combiner. -/
  own_eq : own = k.own
  /-- The members are distinct. -/
  nodup : members.Nodup
  /-- The own point is a member. -/
  own_mem : own ∈ members
  /-- The other members have a factor. -/
  factors : ∀ x ∈ members, x ≠ own → (k.factor? x).isSome

/-- What the first active points are refused for as a quorum. -/
inductive QuorumFault (k : Combiner C) (actives : List PublicPoint) (own : PublicPoint) :
    SchemeError → Prop
  /-- There are too few active points. -/
  | tooFew (h : actives.length < k.threshold) :
      QuorumFault k actives own (.insufficientParties actives.length k.threshold)
  /-- There are enough, but the own point is not that of the combiner. -/
  | foreign (henough : k.threshold ≤ actives.length) (h : own ≠ k.own) :
      QuorumFault k actives own (.unknownPublicPoint own.value)
  /-- A member repeats an earlier one, and those before it are in order. -/
  | repeated {before after : List PublicPoint} {x : PublicPoint}
      (henough : k.threshold ≤ actives.length) (hown : own = k.own)
      (hsplit : actives.take k.threshold = before ++ x :: after)
      (hbefore : k.Cleared own before) (h : x ∈ before) :
      QuorumFault k actives own (.duplicatePublicPoint x.value)
  /-- A member is new and not known, and those before it are in order. -/
  | unknown {before after : List PublicPoint} {x : PublicPoint}
      (henough : k.threshold ≤ actives.length) (hown : own = k.own)
      (hsplit : actives.take k.threshold = before ++ x :: after)
      (hbefore : k.Cleared own before) (hnew : x ∉ before) (hne : x ≠ own)
      (h : k.factor? x = none) : QuorumFault k actives own (.unknownPublicPoint x.value)
  /-- All members are in order, but the own point is not among them. -/
  | absent (henough : k.threshold ≤ actives.length) (hown : own = k.own)
      (hmembers : k.Cleared own (actives.take k.threshold))
      (h : own ∉ actives.take k.threshold) :
      QuorumFault k actives own (.publicPointNotInQuorum own.value)

/-- The check passes over points in order, and remembers them. -/
theorem checkMembers_append (h : k.Cleared own xs) (hnew : ∀ x ∈ xs, x ∉ seen)
    (rest : List PublicPoint) :
    k.checkMembers own seen (xs ++ rest) = k.checkMembers own (xs.reverse ++ seen) rest := by
  induction xs generalizing seen with
  | nil => rfl
  | cons x xs ih =>
      obtain ⟨hx, hnodup⟩ := List.nodup_cons.mp h.nodup
      have hfirst : x ∉ seen := hnew x List.mem_cons_self
      have hknown : ¬(x ≠ own ∧ (k.factor? x).isNone = true) := by
        rintro ⟨hne, hnone⟩
        have hsome := h.known x List.mem_cons_self hne
        rw [Option.isNone_iff_eq_none.mp hnone] at hsome
        cases hsome
      rw [List.cons_append, checkMembers, if_neg (by simpa using hfirst), if_neg hknown,
        ih ⟨hnodup, fun y hy => h.known y (List.mem_cons_of_mem x hy)⟩]
      · simp
      · intro y hy hmem
        rcases List.mem_cons.mp hmem with rfl | hseen
        · exact hx hy
        · exact hnew y (List.mem_cons_of_mem x hy) hseen

/-- The check accepts points in order. -/
theorem checkMembers_of_cleared (h : k.Cleared own xs) :
    k.checkMembers own [] xs = .ok xs.reverse := by
  have hnone : ∀ x ∈ xs, x ∉ ([] : List PublicPoint) := by simp
  have hcheck := checkMembers_append h hnone []
  rwa [List.append_nil, List.append_nil, checkMembers, Outcome.pure_eq_ok] at hcheck

/-- Points are in order, or there is a first one that is not. -/
theorem cleared_or_first_fault (k : Combiner C) (own : PublicPoint) (xs : List PublicPoint) :
    k.Cleared own xs ∨ ∃ before x after, xs = before ++ x :: after ∧ k.Cleared own before ∧
      (x ∈ before ∨ x ∉ before ∧ x ≠ own ∧ k.factor? x = none) := by
  induction xs using List.reverseRecOn with
  | nil => exact .inl ⟨List.nodup_nil, by simp⟩
  | append_singleton xs x ih =>
      rcases ih with hxs | ⟨before, y, after, rfl, hbefore, hfault⟩
      · by_cases hmem : x ∈ xs
        · exact .inr ⟨xs, x, [], rfl, hxs, .inl hmem⟩
        · by_cases hknown : x ≠ own ∧ k.factor? x = none
          · exact .inr ⟨xs, x, [], rfl, hxs, .inr ⟨hmem, hknown⟩⟩
          · left
            constructor
            · exact hxs.nodup.append (List.nodup_singleton x) (List.disjoint_singleton.mpr hmem)
            · intro y hy hne
              rcases List.mem_append.mp hy with hy | hy
              · exact hxs.known y hy hne
              · obtain rfl := List.mem_singleton.mp hy
                exact Option.isSome_iff_ne_none.mpr fun hnone => hknown ⟨hne, hnone⟩
      · exact .inr ⟨before, y, after ++ [x], by simp, hbefore, hfault⟩

/-- For enough points and the right own point the members are checked. -/
theorem quorum_of_enough (henough : k.threshold ≤ actives.length) (hown : own = k.own) :
    k.quorum actives own = (do
      let seen ← k.checkMembers own [] (actives.take k.threshold)
      if seen.contains own then pure (actives.take k.threshold)
      else Outcome.fail (.publicPointNotInQuorum own.value)) := by
  rw [quorum, if_neg (by omega), if_neg (by simpa using hown)]

/-- The checks report the fault of a quorum. -/
theorem quorum_of_fault (h : k.QuorumFault actives own e) :
    k.quorum actives own = .error (.failure e) := by
  cases h with
  | tooFew h => rw [quorum, if_pos h, Outcome.fail_eq]
  | foreign henough h => rw [quorum, if_neg (by omega), if_pos h, Outcome.fail_eq]
  | repeated henough hown hsplit hbefore h =>
      rw [quorum_of_enough henough hown, hsplit, checkMembers_append hbefore (by simp),
        checkMembers, if_pos (by simpa using h), Outcome.fail_eq, Outcome.error_bind]
  | unknown henough hown hsplit hbefore hnew hne h =>
      rw [quorum_of_enough henough hown, hsplit, checkMembers_append hbefore (by simp),
        checkMembers, if_neg (by simpa using hnew), if_pos ⟨hne, by rw [h]; rfl⟩,
        Outcome.fail_eq, Outcome.error_bind]
  | absent henough hown hmembers h =>
      rw [quorum_of_enough henough hown, checkMembers_of_cleared hmembers, Outcome.ok_bind,
        if_neg (by simpa using h), Outcome.fail_eq]

/-- The checks accept a quorum. -/
theorem quorum_of_quorumOf (h : k.QuorumOf actives own members) :
    k.quorum actives own = .ok members := by
  rw [quorum_of_enough h.threshold_le h.own_eq, ← h.members_eq,
    checkMembers_of_cleared ⟨h.nodup, h.factors⟩, Outcome.ok_bind,
    if_pos (by simpa using h.own_mem), Outcome.pure_eq_ok]

/-- The first active points are a quorum, or there is something to refuse them for. -/
theorem quorumOf_or_fault (k : Combiner C) (actives : List PublicPoint) (own : PublicPoint) :
    (∃ members, k.QuorumOf actives own members) ∨ ∃ e, k.QuorumFault actives own e := by
  rcases Nat.lt_or_ge actives.length k.threshold with hfew | henough
  · exact .inr ⟨_, .tooFew hfew⟩
  · by_cases hown : own = k.own
    · rcases cleared_or_first_fault k own (actives.take k.threshold) with
        hmembers | ⟨before, x, after, hsplit, hbefore, hmem | ⟨hnew, hne, hnone⟩⟩
      · by_cases hmem : own ∈ actives.take k.threshold
        · exact .inl ⟨_, henough, rfl, hown, hmembers.nodup, hmem, hmembers.known⟩
        · exact .inr ⟨_, .absent henough hown hmembers hmem⟩
      · exact .inr ⟨_, .repeated henough hown hsplit hbefore hmem⟩
      · exact .inr ⟨_, .unknown henough hown hsplit hbefore hnew hne hnone⟩
    · exact .inr ⟨_, .foreign henough hown⟩

theorem quorumOf_of_quorum (h : k.quorum actives own = .ok members) :
    k.QuorumOf actives own members := by
  rcases quorumOf_or_fault k actives own with ⟨members', hmembers⟩ | ⟨e, hfault⟩
  · obtain rfl : members' = members :=
      Except.ok.inj ((quorum_of_quorumOf hmembers).symm.trans h)
    exact hmembers
  · rw [quorum_of_fault hfault] at h
    cases h

theorem quorum_eq_failure :
    k.quorum actives own = .error (.failure e) ↔ k.QuorumFault actives own e := by
  refine ⟨fun h => ?_, quorum_of_fault⟩
  rcases quorumOf_or_fault k actives own with ⟨members, hmembers⟩ | ⟨e', hfault⟩
  · rw [quorum_of_quorumOf hmembers] at h
    cases h
  · rw [quorum_of_fault hfault] at h
    cases h
    exact hfault

theorem quorum_reported (k : Combiner C) (actives : List PublicPoint) (own : PublicPoint) :
    (k.quorum actives own).Reported := by
  rcases quorumOf_or_fault k actives own with ⟨members, hmembers⟩ | ⟨e, hfault⟩
  · exact quorum_of_quorumOf hmembers ▸ Outcome.reported_ok members
  · exact quorum_of_fault hfault ▸ Outcome.reported_failure e

end RingShamir.Combiner
