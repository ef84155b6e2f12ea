import Deferred.Proofs.LoopsIterate
import Deferred.Proofs.Watching

/-!
# Checks and bodies in turn

A run of `whileTrue` is made of rounds, a check that yields `true` and then a body, and of one check
more. Which round is the last one is up to the state, so a run is described by how many rounds there
are: a loop returns exactly if some number of rounds leads to a check that yields `false`, it panics
exactly if some number of rounds leads to a part that panics, and otherwise either there are rounds
without an end or a part never ends. `Effect.WhileSemantics` says so, and also that the parts run in
this order and no others do, by the notes that they take.

A run of `untilTrue` is made of checks alone. It goes as `whileTrue` does with the negated check and
nothing to do in between (`Effect.UntilSemantics`).
-/

namespace Deferred

variable {σ α : Type}

open Deferred.Computation

namespace Effect

/-! ## Rounds of checks and bodies -/

/-- The parts of a loop with a check. -/
inductive Part where
  | check
  | body
deriving DecidableEq

/-- So many checks and bodies, a body after each check. -/
def alternation (k : Nat) : List Part := (List.replicate k [.check, .body]).flatten

/-- With a check and perhaps the body after it the loop ends: the check fails, it panics, or the
body panics. -/
inductive WhileEnds (c : Effect σ Bool) (b : Effect σ α) (s : σ) :
    List Part → Except Panic Unit → σ → Prop where
  | completed {t : σ} (h : c.invoke.Halts s (.ok false, t)) : WhileEnds c b s [.check] (.ok ()) t
  | check {p : Panic} {t : σ} (h : c.invoke.Halts s (.error p, t)) :
    WhileEnds c b s [.check] (.error p) t
  | body {p : Panic} {t u : σ} (hcheck : c.invoke.Halts s (.ok true, t))
    (h : b.invoke.Halts t (.error p, u)) : WhileEnds c b s [.check, .body] (.error p) u

/-- The check never ends, or the body after it does not. -/
inductive WhileHangs (c : Effect σ Bool) (b : Effect σ α) (s : σ) : Prop where
  | check (h : c.invoke.Diverges s)
  | body {t : σ} (hcheck : c.invoke.Halts s (.ok true, t)) (h : b.invoke.Diverges t)

section

variable {c : Effect σ Bool} {b : Effect σ α} {s t : σ}

/-- Entering a turn checks the condition, then runs the body if it holds. -/
theorem enter_whileStep (c : Effect σ Bool) (b : Effect σ α) (u : Unit) :
    enter (whileStep c b u) = c.invoke >>= fun holds =>
      if holds then b.invoke >>= fun _ => Pure.pure (.again ()) else Pure.pure (.finish ()) := by
  refine congrArg (c.invoke >>= ·) (funext fun holds => ?_)
  cases holds <;> rfl

/-- The loop goes on to another turn exactly if the check held and the body returned. -/
theorem iterateTurn_whileStep_iff :
    IterateTurn (fun u => enter (whileStep c b u)) ((), s) ((), t) ↔
      WhileTurn c.invoke b.invoke s t := by
  simp only [IterateTurn, WhileTurn, enter_whileStep, halts_bind_value_iff]
  constructor
  · rintro ⟨holds, u, hcheck, hrest⟩
    cases holds with
    | true =>
      obtain ⟨a, v, hbody, hend⟩ := halts_bind_value_iff.1 hrest
      cases halts_pure_iff.1 hend
      exact ⟨u, a, hcheck, hbody⟩
    | false => exact nomatch halts_pure_iff.1 hrest
  · rintro ⟨u, a, hcheck, hbody⟩
    exact ⟨true, u, hcheck, (halts_bind_ok_iff hbody).2 (halts_pure_iff.2 rfl)⟩

/-- A turn ends the loop exactly as `WhileEnds` tells. -/
theorem stepEnds_whileStep_iff {r : Except Panic Unit × σ} :
    StepEnds (enter (whileStep c b ())) s r ↔ ∃ parts, WhileEnds c b s parts r.1 r.2 := by
  rw [enter_whileStep]
  constructor
  · intro h
    rcases h with hfinish | hpanic
    · obtain ⟨holds, u, hcheck, hrest⟩ := halts_bind_value_iff.1 hfinish
      cases holds with
      | true =>
        obtain ⟨a, v, -, hend⟩ := halts_bind_value_iff.1 hrest
        exact nomatch halts_pure_iff.1 hend
      | false =>
        cases halts_pure_iff.1 hrest
        exact ⟨_, .completed hcheck⟩
    · rcases halts_bind_panic_iff.1 hpanic with hcheck | ⟨holds, u, hcheck, hrest⟩
      · exact ⟨_, .check hcheck⟩
      · cases holds with
        | true =>
          rcases halts_bind_panic_iff.1 hrest with hbody | ⟨a, v, -, hend⟩
          · exact ⟨_, .body hcheck hbody⟩
          · exact nomatch halts_pure_iff.1 hend
        | false => exact nomatch halts_pure_iff.1 hrest
  · obtain ⟨o, t⟩ := r
    rintro ⟨parts, hcheck | hcheck | ⟨hcheck, hbody⟩⟩
    · exact .finished ((halts_bind_ok_iff hcheck).2 (halts_pure_iff.2 rfl))
    · exact .panicked ((halts_bind_error_iff hcheck).2 rfl)
    · exact .panicked ((halts_bind_ok_iff hcheck).2 ((halts_bind_error_iff hbody).2 rfl))

/-- A turn hangs exactly if its check does, or its body after a check that held. -/
theorem diverges_whileStep_iff :
    (enter (whileStep c b ())).Diverges s ↔ WhileHangs c b s := by
  rw [enter_whileStep, diverges_bind_iff]
  constructor
  · rintro (hcheck | ⟨holds, u, hcheck, hrest⟩)
    · exact .check hcheck
    · cases holds with
      | true =>
        rcases diverges_bind_iff.1 hrest with hbody | ⟨a, v, -, hend⟩
        · exact .body hcheck hbody
        · exact absurd (halts_pure_iff.2 rfl) (diverges_iff.1 hend _)
      | false => exact absurd (halts_pure_iff.2 rfl) (diverges_iff.1 hrest _)
  · intro h
    cases h with
    | check hcheck => exact .inl hcheck
    | @body u hcheck hbody => exact .inr ⟨true, u, hcheck, diverges_bind_iff.2 (.inl hbody)⟩

/-- The loop ends exactly if some rounds lead to a check where it does. -/
theorem halts_whileTrue_iff {r : Except Panic Unit × σ} :
    (Computation.whileTrue c.invoke b.invoke).Halts s r ↔
      ∃ k u, Rounds (WhileTurn c.invoke b.invoke) k s u ∧ ∃ parts, WhileEnds c b u parts r.1 r.2 :=
  (whileTrue_equiv_iterate c b s r).trans
    (halts_iterate_unit_iff (fun _ _ => iterateTurn_whileStep_iff) fun _ _ =>
      stepEnds_whileStep_iff)

/-- The loop runs forever exactly if it takes turns without end, or one of them hangs. -/
theorem diverges_whileTrue_iff :
    (Computation.whileTrue c.invoke b.invoke).Diverges s ↔
      (∀ k, ∃ u, Rounds (WhileTurn c.invoke b.invoke) k s u) ∨
      ∃ k u, Rounds (WhileTurn c.invoke b.invoke) k s u ∧ WhileHangs c b u :=
  (diverges_congr (whileTrue_equiv_iterate c b)).trans
    (diverges_iterate_unit_iff (fun _ _ => iterateTurn_whileStep_iff) fun _ =>
      diverges_whileStep_iff)

end

/-! ## Rounds of checks -/

/-- At a check the loop ends: the check succeeds, or it panics. -/
inductive UntilEnds (c : Effect σ Bool) (s : σ) : Except Panic Unit × σ → Prop where
  | completed {t : σ} (h : c.invoke.Halts s (.ok true, t)) : UntilEnds c s (.ok (), t)
  | check {p : Panic} {t : σ} (h : c.invoke.Halts s (.error p, t)) : UntilEnds c s (.error p, t)

section

variable {c : Effect σ Bool} {s t : σ}

theorem enter_untilStep (c : Effect σ Bool) (u : Unit) :
    enter (untilStep c u) =
      c.invoke >>= fun holds => Pure.pure (if holds then .finish () else .again ()) := rfl

/-- The loop goes on to another check exactly if this one did not hold. -/
theorem iterateTurn_untilStep_iff :
    IterateTurn (fun u => enter (untilStep c u)) ((), s) ((), t) ↔ UntilTurn c.invoke s t := by
  simp only [IterateTurn, UntilTurn, enter_untilStep, halts_bind_value_iff]
  constructor
  · rintro ⟨holds, u, hcheck, hend⟩
    cases holds with
    | true => exact nomatch halts_pure_iff.1 hend
    | false =>
      cases halts_pure_iff.1 hend
      exact hcheck
  · intro hcheck
    exact ⟨false, t, hcheck, halts_pure_iff.2 rfl⟩

/-- A check ends the loop exactly as `UntilEnds` tells. -/
theorem stepEnds_untilStep_iff {r : Except Panic Unit × σ} :
    StepEnds (enter (untilStep c ())) s r ↔ UntilEnds c s r := by
  rw [enter_untilStep]
  constructor
  · intro h
    rcases h with hfinish | hpanic
    · obtain ⟨holds, u, hcheck, hend⟩ := halts_bind_value_iff.1 hfinish
      cases holds with
      | true =>
        cases halts_pure_iff.1 hend
        exact .completed hcheck
      | false => exact nomatch halts_pure_iff.1 hend
    · rcases halts_bind_panic_iff.1 hpanic with hcheck | ⟨holds, u, -, hend⟩
      · exact .check hcheck
      · exact nomatch halts_pure_iff.1 hend
  · intro h
    cases h with
    | completed hcheck => exact .finished ((halts_bind_ok_iff hcheck).2 (halts_pure_iff.2 rfl))
    | check hcheck => exact .panicked ((halts_bind_error_iff hcheck).2 rfl)

theorem diverges_untilStep_iff : (enter (untilStep c ())).Diverges s ↔ c.invoke.Diverges s := by
  rw [enter_untilStep, diverges_bind_iff]
  constructor
  · rintro (hcheck | ⟨holds, u, -, hend⟩)
    · exact hcheck
    · exact absurd (halts_pure_iff.2 rfl) (diverges_iff.1 hend _)
  · exact .inl

/-- The loop ends exactly if, after some checks that did not hold, one holds or panics. -/
theorem halts_untilTrue_iff {r : Except Panic Unit × σ} :
    (Computation.untilTrue c.invoke).Halts s r ↔
      ∃ k u, Rounds (UntilTurn c.invoke) k s u ∧ UntilEnds c u r :=
  (untilTrue_equiv_iterate c s r).trans
    (halts_iterate_unit_iff (fun _ _ => iterateTurn_untilStep_iff) fun _ _ =>
      stepEnds_untilStep_iff)

/-- The loop runs forever exactly if no check ever holds, or one of them hangs. -/
theorem diverges_untilTrue_iff :
    (Computation.untilTrue c.invoke).Diverges s ↔
      (∀ k, ∃ u, Rounds (UntilTurn c.invoke) k s u) ∨
      ∃ k u, Rounds (UntilTurn c.invoke) k s u ∧ c.invoke.Diverges u :=
  (diverges_congr (untilTrue_equiv_iterate c)).trans
    (diverges_iterate_unit_iff (fun _ _ => iterateTurn_untilStep_iff) fun _ =>
      diverges_untilStep_iff)

/-- A check that is negated, with nothing to do after it, is a step of `untilTrue`. -/
theorem whileTrue_not_equiv_iterate (c : Effect σ Bool) :
    Computation.whileTrue (c.map fun holds => return !holds).invoke (unit : Effect σ Unit).invoke ≈
      Computation.iterate (fun u => enter (untilStep c u)) () := by
  refine Computation.equiv_trans (whileTrue_equiv_iterate _ _) (equiv_of_eq ?_)
  refine congrArg (Computation.iterate · ()) (funext fun u => ?_)
  rw [enter_whileStep, enter_untilStep, map, bind_assoc]
  refine congrArg (c.invoke >>= ·) (funext fun holds => ?_)
  cases holds <;> rfl

end

/-! ## The parts in order -/

section

variable {c : Effect σ Bool} {b : Effect σ α} {w w' : Watched σ Part}

/-- A full turn notes its check, then its body. -/
theorem whileTurn_noted_iff (w w' : Watched σ Part) :
    WhileTurn (c.noted .check).invoke (b.noted .body).invoke w w' ↔
      ∃ t, WhileTurn c.invoke b.invoke w.state t ∧ w' = ⟨t, w.notes ++ [.check, .body]⟩ := by
  have hnotes : w.notes ++ [.check] ++ [.body] = w.notes ++ [.check, .body] :=
    List.append_assoc w.notes [.check] [.body]
  simp only [WhileTurn, halts_noted_iff, ← hnotes]
  constructor
  · rintro ⟨_, a, ⟨u, hcheck, rfl⟩, t, hbody, rfl⟩
    exact ⟨t, ⟨u, a, hcheck, hbody⟩, rfl⟩
  · rintro ⟨t, ⟨u, a, hcheck, hbody⟩, rfl⟩
    exact ⟨_, a, ⟨u, hcheck, rfl⟩, t, hbody, rfl⟩

/-- The last turn notes the parts it got to. -/
theorem whileEnds_noted_iff {w w' : Watched σ Part} {parts : List Part} {o : Except Panic Unit} :
    WhileEnds (c.noted .check) (b.noted .body) w parts o w' ↔
      ∃ t, WhileEnds c b w.state parts o t ∧ w' = ⟨t, w.notes ++ parts⟩ := by
  have hnotes : w.notes ++ [.check] ++ [.body] = w.notes ++ [.check, .body] :=
    List.append_assoc w.notes [.check] [.body]
  constructor
  · intro h
    cases h with
    | completed hnoted =>
      obtain ⟨t, hcheck, rfl⟩ := halts_noted_iff.1 hnoted
      exact ⟨t, .completed hcheck, rfl⟩
    | check hnoted =>
      obtain ⟨t, hcheck, rfl⟩ := halts_noted_iff.1 hnoted
      exact ⟨t, .check hcheck, rfl⟩
    | body hnoted hnoted' =>
      obtain ⟨u, hcheck, rfl⟩ := halts_noted_iff.1 hnoted
      obtain ⟨t, hbody, rfl⟩ := halts_noted_iff.1 hnoted'
      exact ⟨t, .body hcheck hbody, congrArg (Watched.mk t) hnotes⟩
  · rintro ⟨t, hcheck | hcheck | ⟨hcheck, hbody⟩, rfl⟩
    · exact .completed (halts_noted_iff.2 ⟨t, hcheck, rfl⟩)
    · exact .check (halts_noted_iff.2 ⟨t, hcheck, rfl⟩)
    · rw [← hnotes]
      exact .body (halts_noted_iff.2 ⟨_, hcheck, rfl⟩) (halts_noted_iff.2 ⟨t, hbody, rfl⟩)

/-- The notes of a run are those of its rounds and those of its end. -/
theorem halts_whileTrue_noted_iff {w w' : Watched σ Part} {o : Except Panic Unit} :
    (Computation.whileTrue (c.noted .check).invoke (b.noted .body).invoke).Halts w (o, w') ↔
      ∃ k u parts t, Rounds (WhileTurn c.invoke b.invoke) k w.state u ∧
        WhileEnds c b u parts o t ∧ w' = ⟨t, w.notes ++ (alternation k ++ parts)⟩ := by
  simp only [halts_whileTrue_iff, rounds_noted_iff whileTurn_noted_iff, whileEnds_noted_iff,
    Watched.exists_iff, exists_and_left, List.append_assoc, alternation]

theorem untilTurn_noted_iff (w w' : Watched σ Part) :
    UntilTurn (c.noted .check).invoke w w' ↔
      ∃ t, UntilTurn c.invoke w.state t ∧ w' = ⟨t, w.notes ++ [.check]⟩ :=
  halts_noted_iff

theorem untilEnds_noted_iff {w w' : Watched σ Part} {o : Except Panic Unit} :
    UntilEnds (c.noted .check) w (o, w') ↔
      ∃ t, UntilEnds c w.state (o, t) ∧ w' = ⟨t, w.notes ++ [.check]⟩ := by
  constructor
  · intro h
    cases h with
    | completed hnoted =>
      obtain ⟨t, hcheck, rfl⟩ := halts_noted_iff.1 hnoted
      exact ⟨t, .completed hcheck, rfl⟩
    | check hnoted =>
      obtain ⟨t, hcheck, rfl⟩ := halts_noted_iff.1 hnoted
      exact ⟨t, .check hcheck, rfl⟩
  · rintro ⟨t, hcheck | hcheck, rfl⟩
    · exact .completed (halts_noted_iff.2 ⟨t, hcheck, rfl⟩)
    · exact .check (halts_noted_iff.2 ⟨t, hcheck, rfl⟩)

/-- A loop that ends after `k` checks has noted `k + 1` of them. -/
theorem halts_untilTrue_noted_iff {w w' : Watched σ Part} {o : Except Panic Unit} :
    (Computation.untilTrue (c.noted .check).invoke).Halts w (o, w') ↔
      ∃ k u t, Rounds (UntilTurn c.invoke) k w.state u ∧ UntilEnds c u (o, t) ∧
        w' = ⟨t, w.notes ++ List.replicate (k + 1) .check⟩ := by
  simp only [halts_untilTrue_iff, rounds_noted_iff untilTurn_noted_iff, untilEnds_noted_iff,
    Watched.exists_iff, exists_and_left, List.append_assoc, flatten_replicate_append]

end

/-! ## How these loops end -/

section

variable [Tracer σ]

/-- The invocation begun in `s` has told of its start, and after `k` rounds more it is in `u`. -/
def AfterRounds (loop : LoopStart) (turn : σ → σ → Prop) (s : σ) (k : Nat) (u : σ) : Prop :=
  Rounds turn k (Tracer.emit (.loopStarted false loop) s) u

/-- What a loop with a check and a body does. -/
structure WhileSemantics (c : Effect σ Bool) (b : Effect σ α) : Prop where
  /-- It returns after some rounds, each a check that succeeds and the body after it, and a check
  that fails. -/
  returns_iff {s t : σ} : (whileTrue c b).invoke.Halts s (.ok (), t) ↔
    ∃ k u, AfterRounds .whileTrue (WhileTurn c.invoke b.invoke) s k u ∧
      c.invoke.Halts u (.ok false, t)
  /-- It panics if after some rounds the check panics, or the check succeeds and the body panics. -/
  panics_iff {s t : σ} {p : Panic} : (whileTrue c b).invoke.Halts s (.error p, t) ↔
    ∃ k u, AfterRounds .whileTrue (WhileTurn c.invoke b.invoke) s k u ∧
      (c.invoke.Halts u (.error p, t) ∨
        ∃ v, c.invoke.Halts u (.ok true, v) ∧ b.invoke.Halts v (.error p, t))
  /-- Otherwise there are rounds without an end, or after some rounds a part never ends. -/
  diverges_iff {s : σ} : (whileTrue c b).invoke.Diverges s ↔
    (∀ k, ∃ u, AfterRounds .whileTrue (WhileTurn c.invoke b.invoke) s k u) ∨
    ∃ k u, AfterRounds .whileTrue (WhileTurn c.invoke b.invoke) s k u ∧ WhileHangs c b u
  /-- The parts that run are the check and the body in each round, and those that end the loop. -/
  parts_iff {s : σ} {o : Except Panic Unit} {w : Watched σ Part} :
    (whileTrue (c.noted .check) (b.noted .body)).invoke.Halts ⟨s, []⟩ (o, w) ↔
      ∃ k u parts t, AfterRounds .whileTrue (WhileTurn c.invoke b.invoke) s k u ∧
        WhileEnds c b u parts o t ∧ w = ⟨t, alternation k ++ parts⟩
  /-- Noting the parts changes nothing else. -/
  alike_noted : Alike Watched.Of Eq (whileTrue c b).invoke
    (whileTrue (c.noted Part.check) (b.noted .body)).invoke

/-- What a loop with a check alone does. -/
structure UntilSemantics (c : Effect σ Bool) : Prop where
  /-- It returns after some checks that fail and one that succeeds. -/
  returns_iff {s t : σ} : (untilTrue c).invoke.Halts s (.ok (), t) ↔
    ∃ k u, AfterRounds .untilTrue (UntilTurn c.invoke) s k u ∧ c.invoke.Halts u (.ok true, t)
  panics_iff {s t : σ} {p : Panic} : (untilTrue c).invoke.Halts s (.error p, t) ↔
    ∃ k u, AfterRounds .untilTrue (UntilTurn c.invoke) s k u ∧ c.invoke.Halts u (.error p, t)
  diverges_iff {s : σ} : (untilTrue c).invoke.Diverges s ↔
    (∀ k, ∃ u, AfterRounds .untilTrue (UntilTurn c.invoke) s k u) ∨
    ∃ k u, AfterRounds .untilTrue (UntilTurn c.invoke) s k u ∧ c.invoke.Diverges u
  /-- The check that ends the loop is run too. -/
  parts_iff {s : σ} {o : Except Panic Unit} {w : Watched σ Part} :
    (untilTrue (c.noted .check)).invoke.Halts ⟨s, []⟩ (o, w) ↔
      ∃ k u t, AfterRounds .untilTrue (UntilTurn c.invoke) s k u ∧ UntilEnds c u (o, t) ∧
        w = ⟨t, List.replicate (k + 1) .check⟩
  alike_noted : Alike Watched.Of Eq (untilTrue c).invoke (untilTrue (c.noted Part.check)).invoke
  /-- But for the event of its start, the loop goes as one with the check negated and no body. -/
  as_while : ∃ e, GoesAs (.loopStarted false .untilTrue) (untilTrue c) e ∧
    GoesAs (.loopStarted false .whileTrue) (whileTrue (c.map fun holds => return !holds) unit) e
  while_unseen : SameUnseen (fun same => c.invoke.Respects same) (untilTrue c)
    (whileTrue (c.map fun holds => return !holds) unit)

theorem whileSemantics (c : Effect σ Bool) (b : Effect σ α) : WhileSemantics c b where
  returns_iff := by
    intro s t
    refine (resumes_emit _ s _).trans (halts_whileTrue_iff.trans ?_)
    refine exists_congr fun k => exists_congr fun u => and_congr_right fun _ => ?_
    constructor
    · rintro ⟨parts, hcheck | _ | _⟩
      exact hcheck
    · exact fun hcheck => ⟨_, .completed hcheck⟩
  panics_iff := by
    intro s t p
    refine (resumes_emit _ s _).trans (halts_whileTrue_iff.trans ?_)
    refine exists_congr fun k => exists_congr fun u => and_congr_right fun _ => ?_
    constructor
    · rintro ⟨parts, _ | hcheck | ⟨hcheck, hbody⟩⟩
      · exact .inl hcheck
      · exact .inr ⟨_, hcheck, hbody⟩
    · rintro (hcheck | ⟨v, hcheck, hbody⟩)
      · exact ⟨_, .check hcheck⟩
      · exact ⟨_, .body hcheck hbody⟩
  diverges_iff := (resumes_emit _ _).diverges_iff.trans diverges_whileTrue_iff
  parts_iff := (resumes_emit _ _ _).trans halts_whileTrue_noted_iff
  alike_noted := alike_emit (alike_whileTrue (alike_noted _ c) (alike_noted _ b)) _

theorem untilSemantics (c : Effect σ Bool) : UntilSemantics c where
  returns_iff := by
    intro s t
    refine (resumes_emit _ s _).trans (halts_untilTrue_iff.trans ?_)
    refine exists_congr fun k => exists_congr fun u => and_congr_right fun _ => ?_
    constructor
    · rintro (hcheck | _)
      exact hcheck
    · exact .completed
  panics_iff := by
    intro s t p
    refine (resumes_emit _ s _).trans (halts_untilTrue_iff.trans ?_)
    refine exists_congr fun k => exists_congr fun u => and_congr_right fun _ => ?_
    constructor
    · rintro (_ | hcheck)
      exact hcheck
    · exact .check
  diverges_iff := (resumes_emit _ _).diverges_iff.trans diverges_untilTrue_iff
  parts_iff := (resumes_emit _ _ _).trans halts_untilTrue_noted_iff
  alike_noted := alike_emit (alike_untilTrue (alike_noted _ c)) _
  as_while := ⟨Effect.iterate () (untilStep c), goesAs_of_equiv (untilTrue_equiv_iterate c) _,
    goesAs_of_equiv (whileTrue_not_equiv_iterate c) _⟩
  while_unseen := by
    refine sameUnseen_of_alike (fun same hsame hc => ?_) (alike_eq_refl _)
    have hequiv := Computation.equiv_trans (whileTrue_not_equiv_iterate c)
      (equiv_symm (untilTrue_equiv_iterate c))
    have hrun := Alike.of_equiv (equiv_refl _) hequiv (alike_untilTrue hc)
    exact hsame.alike_emit_left _ (hsame.alike_emit_right _ hrun)

/-- Both loops. -/
structure LoopsAlternate (σ : Type) [Tracer σ] : Prop where
  whileTrue {α : Type} (condition : Effect σ Bool) (body : Effect σ α) :
    WhileSemantics condition body
  untilTrue (condition : Effect σ Bool) : UntilSemantics condition

/-- Both condition loops alternate as specified, and one is the other with its check negated. -/
theorem loops_alternate : LoopsAlternate σ where
  whileTrue := whileSemantics
  untilTrue := untilSemantics

end

end Effect

end Deferred
