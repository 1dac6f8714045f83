import RingShamir.Proofs.SecretKey
import RingShamir.Proofs.Sharing.Safety
import RingShamir.Proofs.Sharing.Session
import RingShamir.Random.SplitMix

/-!
# Safety of sessions

No command of a session breaks a precondition: not the demands of word arithmetic on
reduced operands, not those on the lengths of scalars and rows, not the comparison of
the bases of two summands, and not the check of an inverse.  What carries this is an
invariant of the registers: elements are valid and scalars reduced, whatever levels
and chains the elements are from.  Every command keeps it, also when it fails, so a
run of commands does.

The one demand that depends on a command alone is on the number of coefficients of a
sharing polynomial, which have to be addressable.

Main results:

- Definition `Session.Sound`: what a session keeps in its registers.
- Theorem `Command.perform_keeps`: a command breaks no precondition and keeps a
  session sound.
- Theorem `Session.run_safe`: so does a run of commands.
- Definitions `RnsPoly.Supplied` and `ExtendedPoly.Supplied`: where elements from
  outside come from.
- Theorem `sessions_safe`: all sessions over both kinds of chains.
-/

namespace RingShamir

open ResidueChain

/-! ## Invariants -/

namespace Session

variable {C E L : Type} [ResidueChain C E L] [ReducedElement E] [ChainView C E]

/-- What a session of a chain keeps in its registers. -/
structure Sound (c : C) (s : Session C E) : Prop where
  /-- Elements have a row of reduced residues for each modulus of their bases. -/
  elements : ∀ e ∈ s.elements, Valid e
  /-- Scalars have a reduced limb for each modulus of the chain. -/
  scalars : ∀ x ∈ s.scalars, x.Reduced (moduli c)
  /-- So have the coefficients of polynomials rows of reduced residues. -/
  polynomials : ∀ p ∈ s.polynomials, ∀ e ∈ p.coefficients, Valid e
  /-- Combiners are sound, and their scalars have reduced limbs. -/
  combiners : ∀ k ∈ s.combiners, Combiner.SoundOver c k

variable {c : C} {α : Type} {Q : α → Prop}

theorem sound_start (c : C) (stream : WordStream) : (start stream : Session C E).Sound c := by
  constructor <;> simp [start]

theorem guards_elements : (onElements : Registers (Session C E) E).Guards (Sound c) Valid :=
  ⟨fun _ hs => hs.elements, fun _ _ hs h => { hs with elements := h }⟩

theorem guards_scalars : (onScalars : Registers (Session C E) Scalar).Guards (Sound c)
    (Scalar.Reduced (moduli c)) :=
  ⟨fun _ hs => hs.scalars, fun _ _ hs h => { hs with scalars := h }⟩

theorem guards_polynomials : (onPolynomials : Registers (Session C E) _).Guards (Sound c)
    fun p => ∀ e ∈ p.coefficients, Valid e :=
  ⟨fun _ hs => hs.polynomials, fun _ _ hs h => { hs with polynomials := h }⟩

theorem guards_combiners : (onCombiners : Registers (Session C E) _).Guards (Sound c)
    (Combiner.SoundOver c) :=
  ⟨fun _ hs => hs.combiners, fun _ _ hs h => { hs with combiners := h }⟩

theorem onStream_keeps {x : Action SchemeError WordStream α}
    (h : Action.Keeps (fun _ => True) x Q) :
    Action.Keeps (Sound c) (onStream x : Action SchemeError (Session C E) α) Q :=
  h.within (fun _ _ => trivial) fun _ _ hs _ => { hs with }

theorem onShare_keeps {i : Nat} {x : Action SchemeError (Share E) Unit}
    (h : Action.Keeps (fun s => Valid s.value) x fun _ => True) :
    Action.Keeps (Sound c) (onShare i x : Action SchemeError (Session C E) Unit)
      fun _ => True :=
  guards_elements.update_keeps (h.within (fun _ he => he) fun _ _ _ he => he)

end Session

/-! ## Steps -/

section Steps

open Session

variable {C E L : Type} [ResidueElement E] [ResidueChain C E L] [ReducedElement E]
  [ChainView C E] [LawfulChain C E L] {c : C}

theorem ScalarCommand.perform_keeps (hc : Built c)
    (hexact : Modulus.PrimalityExact (moduli c)) (command : ScalarCommand) :
    Action.Keeps (Sound c) (command.perform c : Action SchemeError (Session C E) Unit)
      fun _ => True := by
  have hqs := LawfulChain.suitable hc
  cases command with
  | zero => exact guards_scalars.store_one_keeps (Scalar.reduced_zero hqs)
  | ofWord v => exact guards_scalars.store_one_keeps (Scalar.reduced_ofWord hqs v)
  | one =>
      refine guards_scalars.bind_store_keeps (Action.keeps_lift (Outcome.ensures_of_exists ?_))
      exact Scalar.toMontgomery_of_reduced hqs (Scalar.reduced_ofWord hqs 1)
  | toMontgomery a =>
      refine guards_scalars.fetch_keeps fun x hx => guards_scalars.bind_store_keeps ?_
      exact Action.keeps_lift (Outcome.ensures_of_exists (Scalar.toMontgomery_of_reduced hqs hx))
  | sub a b =>
      refine guards_scalars.fetch_keeps fun x hx => guards_scalars.fetch_keeps fun y hy => ?_
      refine guards_scalars.bind_store_keeps (Action.keeps_lift (Outcome.ensures_of_exists ?_))
      exact Scalar.sub_of_reduced hqs hx hy
  | mul a b =>
      refine guards_scalars.fetch_keeps fun x hx => guards_scalars.fetch_keeps fun y hy => ?_
      refine guards_scalars.bind_store_keeps (Action.keeps_lift (Outcome.ensures_of_exists ?_))
      exact Scalar.mul_of_reduced hqs hx hy
  | mulAssign b out =>
      refine guards_scalars.fetch_keeps fun y hy => guards_scalars.update_keeps ?_
      refine Action.keeps_get.bind fun x hx => ?_
      refine (Action.keeps_lift (Outcome.ensures_of_exists ?_)).bind fun z hz => Action.keeps_set hz
      exact Scalar.mul_of_reduced hqs hx hy
  | inverse a =>
      refine guards_scalars.fetch_keeps fun x hx => ?_
      have hinverse := Scalar.inverse_of_reduced (ε := SchemeError)
        (fun q hq => ⟨hqs q hq, (hqs q hq).prime hexact hq⟩) hx
      refine (Action.keeps_lift (Outcome.ensures_of_exists hinverse)).bind fun o ho => ?_
      split
      next z => exact guards_scalars.store_one_keeps (ho z rfl)
      next => exact Action.keeps_pure trivial
  | erase out =>
      exact guards_scalars.update_keeps
        (Action.keeps_modify fun _ hx => Scalar.reduced_erase hqs hx)

variable [ChainLayout C L] [SafeChain C E L]

theorem ElementCommand.perform_keeps [ErasableElement E] (hc : Built c) (hfits : Fits c)
    {command : ElementCommand E L} (hsupplied : ∀ e, command = .supply e → Valid e) :
    Action.Keeps (Sound c) (command.perform c) fun _ => True := by
  cases command with
  | supply e => exact guards_elements.store_one_keeps (hsupplied e rfl)
  | zeroAt l =>
      refine guards_elements.bind_store_keeps (Action.keeps_lift ?_)
      exact (SafeChain.zeroAt_ensures hc hfits l).mapError _
  | randomAt l =>
      refine guards_elements.bind_store_keeps (onStream_keeps ?_)
      exact (SafeChain.randomAt_keeps hc hfits l).mapError _
  | decode bytes l =>
      refine guards_elements.bind_store_keeps (Action.keeps_lift ?_)
      exact (SafeChain.decode_ensures hc hfits bytes l).mapError _
  | levelOf a =>
      refine guards_elements.fetch_keeps fun e _ => ?_
      exact (Action.keeps_lift ((levelOf_ensures c e).mapError _)).bind fun _ _ =>
        Action.keeps_pure trivial
  | addInto a b out =>
      refine guards_elements.fetch_keeps fun x hx => guards_elements.fetch_keeps fun y hy => ?_
      exact guards_elements.update_keeps ((addInto_keeps hc hx hy).mapError _)
  | addAssign b out =>
      refine guards_elements.fetch_keeps fun y hy => ?_
      exact guards_elements.update_keeps ((addAssign_keeps hc hy).mapError _)
  | scaleAssign x out =>
      refine guards_scalars.fetch_keeps fun s hs => ?_
      exact guards_elements.update_keeps ((scaleAssign_keeps hc hs).mapError _)
  | erase out =>
      exact guards_elements.update_keeps
        (Action.keeps_modify fun _ he => ErasableElement.valid_erase he)

variable [DecidableEq L]

theorem DealingCommand.perform_keeps [ErasableElement E] (hc : Built c) (hfits : Fits c)
    {command : DealingCommand L}
    (hthreshold : ∀ threshold secret, command = .generate threshold secret →
      threshold < SharingPolynomial.coefficientLimit C) :
    Action.Keeps (Sound c) (command.perform c : Action SchemeError (Session C E) Unit)
      fun _ => True := by
  cases command with
  | generate threshold secret =>
      refine guards_elements.fetch_keeps fun e he => ?_
      refine guards_polynomials.bind_store_keeps (onStream_keeps ?_)
      exact SharingPolynomial.generate_keeps hc hfits (hthreshold threshold secret rfl) he
  | collect secret masks =>
      refine guards_elements.fetch_keeps fun e he => ?_
      refine Action.keeps_get.bind fun s hs => guards_polynomials.store_one_keeps ?_
      refine List.forall_mem_cons.mpr ⟨he, fun r hr => ?_⟩
      rcases List.mem_filterMap.mp hr with ⟨i, -, hi⟩
      exact hs.elements r (List.mem_of_getElem? hi)
  | erase p =>
      exact guards_polynomials.update_keeps
        (Action.keeps_modify fun _ hp => SharingPolynomial.valid_erase hp)
  | allocate l =>
      refine guards_elements.bind_store_keeps (Action.keeps_lift ?_)
      exact ((SafeChain.zeroAt_ensures hc hfits l).mapError _).bind fun _ he =>
        Outcome.ensures_ok he
  | decode bytes l =>
      refine guards_elements.bind_store_keeps (Action.keeps_lift ?_)
      exact ((SafeChain.decode_ensures hc hfits bytes l).mapError _).bind fun _ he =>
        Outcome.ensures_ok he
  | shareAt x p =>
      refine guards_polynomials.fetch_keeps fun f hf => ?_
      exact guards_elements.bind_store_keeps
        (Action.keeps_lift (SharingPolynomial.shareAt_ensures hc hf x))
  | sharesAt xs p =>
      refine guards_polynomials.fetch_keeps fun f hf => ?_
      refine (Action.keeps_lift (SharingPolynomial.sharesAt_ensures hc hf xs)).bind fun ss hss => ?_
      exact guards_elements.store_keeps (List.forall_mem_map.mpr hss)
  | shareInto x p out =>
      exact guards_polynomials.fetch_keeps fun f hf =>
        onShare_keeps (SharingPolynomial.shareInto_keeps hc hf x)
  | addInto a b out =>
      exact guards_elements.fetch_keeps fun x hx => guards_elements.fetch_keeps fun y hy =>
        onShare_keeps (Share.addInto_keeps hc hx hy)
  | addAssign b out =>
      exact guards_elements.fetch_keeps fun y hy => onShare_keeps (Share.addAssign_keeps hc hy)

theorem CombiningCommand.perform_keeps (hc : Built c) (hfits : Fits c)
    (hexact : Modulus.PrimalityExact (moduli c)) (command : CombiningCommand) :
    Action.Keeps (Sound c) (command.perform c : Action SchemeError (Session C E) Unit)
      fun _ => True := by
  cases command with
  | make own others threshold =>
      exact guards_combiners.bind_store_keeps
        (Action.keeps_lift (Combiner.make_ensures hc hexact own others threshold))
  | factor k x =>
      refine guards_combiners.fetch_keeps fun d hd => ?_
      split
      next s hs =>
          obtain ⟨-, hrep⟩ := hd.sound.factors x s hs
          exact guards_scalars.store_one_keeps (hd.chain_eq ▸ hrep.reduced)
      next => exact Action.keeps_pure trivial
  | additiveInto k actives own share out =>
      refine guards_combiners.fetch_keeps fun d hd => guards_elements.fetch_keeps fun x hx =>
        guards_elements.fetch_keeps fun e he => ?_
      refine (Combiner.additiveInto_keeps hx actives own).within (fun _ _ => ⟨hd, he⟩) ?_
      rintro s w hs ⟨hk, hout⟩
      exact guards_elements.set (guards_combiners.set hs hk) hout
  | additive k actives own share =>
      refine guards_combiners.fetch_keeps fun d hd => guards_elements.fetch_keeps fun x hx => ?_
      refine guards_elements.bind_store_keeps ?_
      exact (Combiner.additive_keeps hc hfits hx actives own).within (fun _ _ => hd)
        fun _ _ hs hk => guards_combiners.set hs hk

/-- An admissible command breaks no precondition and keeps a session sound. -/
theorem Command.perform_keeps [ErasableElement E] {supplied : E → Prop} (hc : Built c)
    (hfits : Fits c) (hexact : Modulus.PrimalityExact (moduli c))
    (hvalid : ∀ e, supplied e → Valid e) {command : Command E L}
    (h : command.Admissible supplied (SharingPolynomial.coefficientLimit C)) :
    Action.Keeps (Sound c) (command.perform c) fun _ => True := by
  cases command with
  | element command =>
      apply ElementCommand.perform_keeps hc hfits
      rintro e rfl
      exact hvalid e h
  | scalar command => exact ScalarCommand.perform_keeps hc hexact command
  | dealing command =>
      apply DealingCommand.perform_keeps hc hfits
      rintro threshold secret rfl
      exact h
  | combining command => exact CombiningCommand.perform_keeps hc hfits hexact command

/-- A run of admissible commands breaks no precondition and keeps a session sound. -/
theorem Session.run_safe [ErasableElement E] {supplied : E → Prop} (hc : Built c) (hfits : Fits c)
    (hexact : Modulus.PrimalityExact (moduli c)) (hvalid : ∀ e, supplied e → Valid e)
    {commands : List (Command E L)}
    (h : ∀ command ∈ commands,
      command.Admissible supplied (SharingPolynomial.coefficientLimit C))
    {s : Session C E} (hs : s.Sound c) :
    (∀ ending ∈ endings c commands s, ending.Reported) ∧ (after c commands s).Sound c := by
  induction commands generalizing s with
  | nil => exact ⟨by simp [endings], hs⟩
  | cons command commands ih =>
      obtain ⟨hcommand, hcommands⟩ := List.forall_mem_cons.mp h
      have hstep := Command.perform_keeps hc hfits hexact hvalid hcommand
      obtain ⟨hendings, hafter⟩ := ih hcommands (hstep.invariant s hs)
      exact ⟨List.forall_mem_cons.mpr ⟨(hstep.ensures s hs).reported, hendings⟩, hafter⟩

end Steps

/-! ## Elements from outside -/

/-- The polynomials that are made by the operations of some chain, not necessarily that
of a session, or converted over a basis that was made of its moduli. -/
inductive RnsPoly.Supplied : RnsPoly → Prop
  | zeroAt {c : PlainChain} {l : Nat} {a : RnsPoly} (hc : Built c)
      (h : ResidueChain.zeroAt c l = .ok a) : Supplied a
  | randomAt {c : PlainChain} {l : Nat} {a : RnsPoly} {s s' : WordStream} (hc : Built c)
      (h : EStateM.run (ResidueChain.randomAt c l) s = .ok a s') : Supplied a
  | decode {c : PlainChain} {l : Nat} {a : RnsPoly} {bytes : List UInt8} (hc : Built c)
      (h : ResidueChain.decode c bytes l = .ok a) : Supplied a
  | ofInts {b : RnsBasis} {v : List Int} {a : RnsPoly} (hb : b.Built)
      (h : RnsPoly.ofInts b v = .ok a) : Supplied a
  | ofRows {b : RnsBasis} {rows : List (List UInt64)} {a : RnsPoly} (hb : b.Built)
      (h : RnsPoly.ofRows b rows = .ok a) : Supplied a
  | ofKey {d : ParameterDraft} {key : SecretKey} {l : Nat} {a : RnsPoly}
      (hkey : d.build = .ok key.parameters) (h : key.toPlain l = .ok a) : Supplied a

theorem RnsPoly.Supplied.valid {a : RnsPoly} (h : a.Supplied) : a.Valid := by
  cases h with
  | zeroAt hc h => exact (PlainChain.of_zeroAt hc h).1.valid
  | randomAt hc h => exact PlainChain.valid_of_randomAt hc h
  | decode hc h => exact PlainChain.valid_of_decode hc h
  | ofInts hb h => exact (valid_of_ofInts hb h).1
  | ofRows hb h => exact (valid_of_ofRows hb h).1
  | ofKey hkey h =>
      have hbuilt := Parameters.built_of_build hkey
      exact ((SecretKey.embeds_toPlain hbuilt _).classAt_eq _ _ h).1.valid

/-- The elements over two bases that are made by the operations of some chain, or put
together of polynomials over any bases, or converted from a secret key. -/
inductive ExtendedPoly.Supplied : ExtendedPoly → Prop
  | zeroAt {c : ExtendedChain} {l : Nat × Option Nat} {a : ExtendedPoly} (hc : Built c)
      (h : ResidueChain.zeroAt c l = .ok a) : Supplied a
  | randomAt {c : ExtendedChain} {l : Nat × Option Nat} {a : ExtendedPoly} {s s' : WordStream}
      (hc : Built c) (h : EStateM.run (ResidueChain.randomAt c l) s = .ok a s') : Supplied a
  | decode {c : ExtendedChain} {l : Nat × Option Nat} {a : ExtendedPoly} {bytes : List UInt8}
      (hc : Built c) (h : ResidueChain.decode c bytes l = .ok a) : Supplied a
  | ofParts {main : RnsPoly} {aux : Option RnsPoly} (hmain : main.Supplied)
      (haux : ∀ p ∈ aux, RnsPoly.Supplied p) : Supplied ⟨main, aux⟩
  | ofKey {d : ParameterDraft} {key : SecretKey} {a : ExtendedPoly}
      (hkey : d.build = .ok key.parameters) (h : key.toExtended = .ok a) : Supplied a

theorem ExtendedPoly.Supplied.valid {a : ExtendedPoly} (h : a.Supplied) : a.Valid := by
  cases h with
  | zeroAt hc h => exact (ExtendedChain.of_zeroAt hc h).1.valid
  | randomAt hc h => exact ExtendedChain.valid_of_randomAt hc h
  | decode hc h => exact ExtendedChain.valid_of_decode hc h
  | ofParts hmain haux => exact ⟨hmain.valid, fun p hp => (haux p hp).valid⟩
  | ofKey hkey h =>
      have hbuilt := Parameters.built_of_build hkey
      exact ((SecretKey.embeds_toExtended hbuilt).classAt_eq _ _ h).1.valid

/-! ## All sessions -/

section Sessions

variable {C E L : Type} [ResidueElement E] [ResidueChain C E L] [ReducedElement E]
  [ChainView C E] [DecidableEq L]

/-- A run of commands from an empty session is safe: each command succeeds or reports
an error, and in the end all that the session has made is well formed. -/
structure SafeRun (c : C) (commands : List (Command E L)) (stream : WordStream) : Prop where
  /-- No command breaks a precondition. -/
  reported : ∀ ending ∈ Session.endings c commands (.start stream), ending.Reported
  /-- Elements are valid and scalars reduced. -/
  sound : (Session.after c commands (.start stream)).Sound c

/-- Over the chains of a kind whose elements can be addressed all runs are safe, with
elements from known sources and polynomials of less than `limit` coefficients. -/
def SessionsSafe (C : Type) {E L : Type} [ResidueElement E] [ResidueChain C E L]
    [ReducedElement E] [ChainView C E] [ChainLayout C L] [DecidableEq L] (supplied : E → Prop)
    (limit : Nat) : Prop :=
  ∀ (c : C) (commands : List (Command E L)) (stream : WordStream), Built c → Fits c →
    Modulus.PrimalityExact (moduli c) →
      (∀ command ∈ commands, command.Admissible supplied limit) → SafeRun c commands stream

theorem sessionsSafe_of_valid [ChainLayout C L] [LawfulChain C E L] [SafeChain C E L]
    [ErasableElement E] {supplied : E → Prop} (hvalid : ∀ e, supplied e → Valid e) :
    SessionsSafe C supplied (SharingPolynomial.coefficientLimit C) := by
  intro c commands stream hc hfits hexact h
  obtain ⟨hreported, hsound⟩ :=
    Session.run_safe hc hfits hexact hvalid h (Session.sound_start c stream)
  exact ⟨hreported, hsound⟩

end Sessions

/-- All runs are safe, over the chains of a single basis and over those of two bases. -/
theorem sessions_safe :
    SessionsSafe PlainChain RnsPoly.Supplied (SharingPolynomial.coefficientLimit PlainChain) ∧
      SessionsSafe ExtendedChain ExtendedPoly.Supplied
        (SharingPolynomial.coefficientLimit ExtendedChain) :=
  ⟨sessionsSafe_of_valid fun _ h => h.valid, sessionsSafe_of_valid fun _ h => h.valid⟩

section FiveSeven

open PlainChain (fiveSeven fiveSeven_built primalityExact_fiveSeven oneOverFiveSeven
  zeroOverFiveSeven)

theorem fits_fiveSeven : Fits fiveSeven := by
  change 8 * 8 * 2 < UInt64.size / 2
  decide

theorem fits_fiveSevenByEleven : Fits fiveSevenByEleven := by
  change 8 * 8 * 3 < UInt64.size / 2
  decide

theorem primalityExact_fiveSevenByEleven :
    Modulus.PrimalityExact (moduli fiveSevenByEleven) := by
  change ∀ q ∈ [Modulus.withConstants 5, Modulus.withConstants 7, Modulus.withConstants 11],
    Primality.isPrime q.value.toNat = true ↔ q.value.toNat.Prime
  decide +kernel

/-- A dealer of one with two coefficients, a share at the point four, and the additive
share of a quorum; then a sum with an element of a lower level, and the inverse of
zero. -/
def dealAndCombine : List (Command RnsPoly Nat) :=
  [.element (.supply oneOverFiveSeven), .dealing (.generate 2 0),
    .dealing (.shareAt ⟨4, by decide⟩ 0),
    .combining (.make ⟨4, by decide⟩ [⟨6, by decide⟩] 2),
    .combining (.additive 0 [⟨6, by decide⟩, ⟨4, by decide⟩] ⟨4, by decide⟩ 1),
    .element (.zeroAt 0), .element (.addAssign 3 0), .scalar .zero, .scalar (.inverse 0)]

/-- Samples at two levels that are not summed, and a product with a scalar. -/
def sampleAndScale : List (Command ExtendedPoly (Nat × Option Nat)) :=
  [.element (.randomAt (1, some 0)), .element (.randomAt (0, some 0)),
    .element (.addInto 0 0 1), .scalar .one, .element (.scaleAssign 0 1)]

theorem sessions_safe_fiveSeven :
    SafeRun fiveSeven dealAndCombine (SplitMix.stream #[] 0) ∧
      SafeRun fiveSevenByEleven sampleAndScale (SplitMix.stream #[] 0) := by
  have hone : RnsPoly.Supplied oneOverFiveSeven :=
    .ofRows (b := fiveSeven.basis) fiveSeven_built
      (by decide +kernel : RnsPoly.ofRows _ oneOverFiveSeven.rows = .ok oneOverFiveSeven)
  have hthreshold : 2 < SharingPolynomial.coefficientLimit PlainChain := by decide
  constructor
  · apply sessions_safe.1 fiveSeven dealAndCombine _ fiveSeven_built fits_fiveSeven
      primalityExact_fiveSeven
    simp [dealAndCombine, Command.Admissible, hone, hthreshold]
  · apply sessions_safe.2 fiveSevenByEleven sampleAndScale _ fiveSevenByEleven_built
      fits_fiveSevenByEleven primalityExact_fiveSevenByEleven
    simp [sampleAndScale, Command.Admissible]

/-- A polynomial of zero with `threshold` coefficients. -/
def dealZero (threshold : Nat) : List (Command RnsPoly Nat) :=
  [.element (.zeroAt 1), .dealing (.generate threshold 0)]

theorem breach_mem_endings_dealZero {threshold : Nat}
    (h : SharingPolynomial.coefficientLimit PlainChain ≤ threshold) (stream : WordStream) :
    .error .breach ∈ Session.endings fiveSeven (dealZero threshold) (.start stream) := by
  have hzero : zeroAt fiveSeven 1 = .ok zeroOverFiveSeven := by decide +kernel
  have hlevel : levelOf fiveSeven zeroOverFiveSeven = .ok 1 := by decide +kernel
  have hgenerate := SharingPolynomial.run_generate_of_limit_le (s := stream) hlevel h
  simp [dealZero, Session.endings, Session.start, Command.perform, ElementCommand.perform,
    DealingCommand.perform, Registers.store, Registers.fetch, Session.onElements,
    Session.onStream, hzero, hgenerate, Action.ending, Action.finalState]

/-- Not all words are thresholds that can be asked for: with too many coefficients a
polynomial cannot be addressed. -/
theorem not_sessionsSafe_of_wordThresholds :
    ¬SessionsSafe PlainChain RnsPoly.Supplied UInt64.size := by
  intro h
  have hrun := h fiveSeven (dealZero (UInt64.size - 1)) (SplitMix.stream #[] 0) fiveSeven_built
    fits_fiveSeven primalityExact_fiveSeven (by simp [dealZero, Command.Admissible, UInt64.size])
  exact hrun.reported _ (breach_mem_endings_dealZero (by decide) _) rfl

end FiveSeven

end RingShamir
