import Deferred.Effect.EarlyExit
import Deferred.Effect.Pointwise
import Deferred.Proofs.Program.Block

/-!
# Panics unwind everything

While an effect is invoked, library operations are at work inside each other: an operation invokes
one of its parts, or applies one of its functions, and goes on with the outcome later. `Frame` lists
the places where this can be. The operations that it does not name are made of those that it names:
`andThen` is a `bind`, `void`, `replace` and negation are a `map`, and `product`, combining and the
other arithmetic are a `map2`.

Frames form a `Stack`, and a panic in the innermost place is how everything around it ends
(`panic_unwinds`).
-/

namespace Deferred

open Deferred.Computation

/-- An operation at work: `Frame x s y k t` says that `x`, begun in the state `s`, has come to its
part `y` in the state `t`, and that it does `k` with the value of `y`. -/
inductive Frame : {σ α β : Type} → Computation σ α → σ → Computation σ β →
    (β → Computation σ α) → σ → Prop where
  -- A function that makes an effect, the effect that it has made, and both in one.
  | make {σ α : Type} (m : Computation σ (Effect σ α)) (s : σ) :
      Frame (Effect.enter m) s m Effect.invoke s
  | made {σ α : Type} {m : Computation σ (Effect σ α)} {e : Effect σ α} {s t : σ}
      (hmake : m.Halts s (.ok e, t)) : Frame (Effect.enter m) s e.invoke pure t
  | defer {σ α : Type} (m : Computation σ (Effect σ α)) (s : σ) :
      Frame (Effect.defer m).invoke s (Effect.enter m) pure s
  -- Sequencing.
  | bindFirst {σ α β : Type} (e : Effect σ α) (f : α → Computation σ (Effect σ β)) (s : σ) :
      Frame (e.bind f).invoke s e.invoke (fun a => Effect.enter (f a)) s
  | bindSecond {σ α β : Type} {e : Effect σ α} (f : α → Computation σ (Effect σ β)) {a : α}
      {s t : σ} (hfirst : e.invoke.Halts s (.ok a, t)) :
      Frame (e.bind f).invoke s (Effect.enter (f a)) pure t
  | mapFirst {σ α β : Type} (e : Effect σ α) (f : α → Computation σ β) (s : σ) :
      Frame (e.map f).invoke s e.invoke f s
  | mapApplied {σ α β : Type} {e : Effect σ α} (f : α → Computation σ β) {a : α} {s t : σ}
      (hfirst : e.invoke.Halts s (.ok a, t)) : Frame (e.map f).invoke s (f a) pure t
  | map2First {σ α β γ : Type} (e : Effect σ α) (d : Effect σ β) (f : α → β → Computation σ γ)
      (s : σ) : Frame (e.map2 d f).invoke s e.invoke (fun a => d.invoke >>= f a) s
  | map2Second {σ α β γ : Type} {e : Effect σ α} (d : Effect σ β)
      (f : α → β → Computation σ γ) {a : α} {s t : σ} (hfirst : e.invoke.Halts s (.ok a, t)) :
      Frame (e.map2 d f).invoke s d.invoke (f a) t
  | map2Applied {σ α β γ : Type} {e : Effect σ α} {d : Effect σ β}
      (f : α → β → Computation σ γ) {a : α} {b : β} {s t u : σ}
      (hfirst : e.invoke.Halts s (.ok a, t)) (hsecond : d.invoke.Halts t (.ok b, u)) :
      Frame (e.map2 d f).invoke s (f a b) pure u
  | applyFirst {σ α β : Type} (e : Effect σ (α → Computation σ β)) (d : Effect σ α) (s : σ) :
      Frame (e.apply d).invoke s e.invoke (fun f => d.invoke >>= f) s
  | applySecond {σ α β : Type} {e : Effect σ (α → Computation σ β)} (d : Effect σ α)
      {f : α → Computation σ β} {s t : σ} (hfirst : e.invoke.Halts s (.ok f, t)) :
      Frame (e.apply d).invoke s d.invoke f t
  | applyApplied {σ α β : Type} {e : Effect σ (α → Computation σ β)} {d : Effect σ α}
      {f : α → Computation σ β} {a : α} {s t u : σ} (hfirst : e.invoke.Halts s (.ok f, t))
      (hsecond : d.invoke.Halts t (.ok a, u)) : Frame (e.apply d).invoke s (f a) pure u
  -- Effects that may yield an error.
  | andThenOkFirst {σ α β ε : Type} (e : Effect σ (Except ε α))
      (f : α → Computation σ (Effect σ (Except ε β))) (s : σ) :
      Frame (e.andThenOk f).invoke s e.invoke (orError fun a => Effect.enter (f a)) s
  | andThenOkSecond {σ α β ε : Type} {e : Effect σ (Except ε α)}
      (f : α → Computation σ (Effect σ (Except ε β))) {a : α} {s t : σ}
      (hfirst : e.invoke.Halts s (.ok (.ok a), t)) :
      Frame (e.andThenOk f).invoke s (Effect.enter (f a)) pure t
  | mapOkFirst {σ α β ε : Type} (e : Effect σ (Except ε α)) (f : α → Computation σ β) (s : σ) :
      Frame (e.mapOk f).invoke s e.invoke (orError fun a => f a >>= fun b => pure (.ok b)) s
  | mapOkApplied {σ α β ε : Type} {e : Effect σ (Except ε α)} (f : α → Computation σ β) {a : α}
      {s t : σ} (hfirst : e.invoke.Halts s (.ok (.ok a), t)) :
      Frame (e.mapOk f).invoke s (f a) (fun b => pure (.ok b)) t
  -- Loops, after any number of turns.
  | forever {σ α β : Type} {e : Effect σ α} {n : Nat} {s t : σ}
      (hrounds : Rounds (ForeverTurn e.invoke) n s t) :
      Frame (e.forever : Effect σ β).invoke s e.invoke (fun _ => Computation.forever e.invoke) t
  | iterate {σ α β : Type} {step : α → Computation σ (Effect σ (Turn α β))} {n : Nat} {a b : α}
      {s t : σ} (hrounds : Rounds (IterateTurn fun a => Effect.enter (step a)) n (a, s) (b, t)) :
      Frame (Effect.iterate a step).invoke s (Effect.enter (step b))
        (proceed fun a => Effect.enter (step a)) t
  | untilTrue {σ : Type} [Tracer σ] {c : Effect σ Bool} {n : Nat} {s t : σ}
      (hrounds : Rounds (UntilTurn c.invoke) n
        (Tracer.emit (.loopStarted false .untilTrue) s) t) :
      Frame (Effect.untilTrue c).invoke s c.invoke
        (fun holds => if holds then pure () else Computation.untilTrue c.invoke) t
  | whileCheck {σ α : Type} [Tracer σ] {c : Effect σ Bool} {b : Effect σ α} {n : Nat} {s t : σ}
      (hrounds : Rounds (WhileTurn c.invoke b.invoke) n
        (Tracer.emit (.loopStarted false .whileTrue) s) t) :
      Frame (Effect.whileTrue c b).invoke s c.invoke
        (fun holds => if holds then
          b.invoke >>= fun _ => Computation.whileTrue c.invoke b.invoke else pure ()) t
  | whileBody {σ α : Type} [Tracer σ] {c : Effect σ Bool} {b : Effect σ α} {n : Nat} {s t u : σ}
      (hrounds : Rounds (WhileTurn c.invoke b.invoke) n
        (Tracer.emit (.loopStarted false .whileTrue) s) t)
      (hcheck : c.invoke.Halts t (.ok true, u)) :
      Frame (Effect.whileTrue c b).invoke s b.invoke
        (fun _ => Computation.whileTrue c.invoke b.invoke) u
  | forRange {σ α : Type} [Tracer σ] {low i next high : Fixed .i32}
      {step : Fixed .i32 → Computation σ (Effect σ α)} {n : Nat} {s t : σ}
      (hrounds : Rounds (RangeTurn high fun i => Effect.enter (step i)) n
        (low, Tracer.emit (.loopStarted false (.forRange low.val high.val)) s) (i, t))
      (hlt : i.val < high.val) (hnext : next.val = i.val + 1) :
      Frame (Effect.forRange low high step).invoke s (Effect.enter (step i))
        (fun _ => Computation.forRange next high fun i => Effect.enter (step i)) t
  | forItems {σ α β : Type} [Tracer σ] {items rest : List α} {a : α}
      {action : α → Computation σ (Effect σ β)} {n : Nat} {s t : σ}
      (hrounds : Rounds (ItemTurn fun a => Effect.enter (action a)) n
        (items, Tracer.emit (.loopStarted false (.forEach items.length)) s) (a :: rest, t)) :
      Frame (Effect.forItems items action).invoke s (Effect.enter (action a))
        (fun _ => Computation.forEach rest fun a => Effect.enter (action a)) t
  | tryUntil {σ ε : Type} [Tracer σ] {c : Effect σ (Except ε Bool)} {n : Nat} {s t : σ}
      (hrounds : Rounds (TryUntilTurn c.invoke) n
        (Tracer.emit (.loopStarted true .untilTrue) s) t) :
      Frame (Effect.tryUntil c).invoke s c.invoke
        (orError fun holds =>
          if holds then pure (.ok ()) else Computation.tryUntil c.invoke) t
  | tryWhileCheck {σ α ε : Type} [Tracer σ] {c : Effect σ (Except ε Bool)}
      {b : Effect σ (Except ε α)} {n : Nat} {s t : σ}
      (hrounds : Rounds (TryWhileTurn c.invoke b.invoke) n
        (Tracer.emit (.loopStarted true .whileTrue) s) t) :
      Frame (Effect.tryWhile c b).invoke s c.invoke
        (orError fun holds => if holds then
          b.invoke >>= orError fun _ => Computation.tryWhile c.invoke b.invoke
          else pure (.ok ())) t
  | tryWhileBody {σ α ε : Type} [Tracer σ] {c : Effect σ (Except ε Bool)}
      {b : Effect σ (Except ε α)} {n : Nat} {s t u : σ}
      (hrounds : Rounds (TryWhileTurn c.invoke b.invoke) n
        (Tracer.emit (.loopStarted true .whileTrue) s) t)
      (hcheck : c.invoke.Halts t (.ok (.ok true), u)) :
      Frame (Effect.tryWhile c b).invoke s b.invoke
        (orError fun _ => Computation.tryWhile c.invoke b.invoke) u
  | tryForRange {σ α ε : Type} [Tracer σ] {low i next high : Fixed .i32}
      {step : Fixed .i32 → Computation σ (Effect σ (Except ε α))} {n : Nat} {s t : σ}
      (hrounds : Rounds (TryRangeTurn high fun i => Effect.enter (step i)) n
        (low, Tracer.emit (.loopStarted true (.forRange low.val high.val)) s) (i, t))
      (hlt : i.val < high.val) (hnext : next.val = i.val + 1) :
      Frame (Effect.tryForRange low high step).invoke s (Effect.enter (step i))
        (orError fun _ => Computation.tryForRange next high fun i => Effect.enter (step i)) t
  | tryForItems {σ α β ε : Type} [Tracer σ] {items rest : List α} {a : α}
      {action : α → Computation σ (Effect σ (Except ε β))} {n : Nat} {s t : σ}
      (hrounds : Rounds (TryItemTurn fun a => Effect.enter (action a)) n
        (items, Tracer.emit (.loopStarted true (.forEach items.length)) s) (a :: rest, t)) :
      Frame (Effect.tryForItems items action).invoke s (Effect.enter (action a))
        (orError fun _ => Computation.tryForEach rest fun a => Effect.enter (action a)) t
  -- Blocks, after any number of statements.
  | statement {last : Env → Action (Effect Context Value)} {n : Nat} {env env' : Env}
      {st : Statement} {ss rest : List Statement} {c c' : Context}
      (hrounds : Rounds Statement.BlockTurn n (env, ss, c) (env', st :: rest, c')) :
      Frame (Effect.enter (Statement.buildAll env last ss)) c (st.value env')
        (fun v => st.scope env' v >>= fun env =>
          Effect.enter (Statement.buildAll env last rest)) c'
  | last {last : Env → Action (Effect Context Value)} {n : Nat} {env env' : Env}
      {ss : List Statement} {c c' : Context}
      (hrounds : Rounds Statement.BlockTurn n (env, ss, c) (env', [], c')) :
      Frame (Effect.enter (Statement.buildAll env last ss)) c (Effect.enter (last env')) pure c'

/-! ## What an operation at work comes to -/

section

variable {σ α β : Type}

/-- Doing nothing with the value is no different from ending with it. -/
theorem Computation.Resumes.bind_pure {x y : Computation σ α} {s t : σ} (h : x.Resumes s y t) :
    x.Resumes s (y >>= pure) t := by
  rwa [show y >>= pure = y from bind_pure_eq y]

/-- An operation at work ends as its part does, followed by the rest of the operation. -/
theorem Frame.resumes {x : Computation σ α} {s t : σ} {y : Computation σ β}
    {k : β → Computation σ α} (h : Frame x s y k t) : x.Resumes s (y >>= k) t := by
  cases h with
  | make m => exact .refl _ _
  | made hmake => exact (resumes_bind hmake).bind_pure
  | defer m => exact (Resumes.refl _ _).bind_pure
  | bindFirst e f => exact .refl _ _
  | bindSecond f hfirst => exact (resumes_bind hfirst).bind_pure
  | mapFirst e f => exact .refl _ _
  | mapApplied f hfirst => exact (resumes_bind hfirst).bind_pure
  | map2First e d f => exact .refl _ _
  | map2Second d f hfirst => exact resumes_bind hfirst
  | map2Applied f hfirst hsecond =>
    exact ((resumes_bind hfirst).trans (resumes_bind hsecond)).bind_pure
  | applyFirst e d => exact .refl _ _
  | applySecond d hfirst => exact resumes_bind hfirst
  | applyApplied hfirst hsecond =>
    exact ((resumes_bind hfirst).trans (resumes_bind hsecond)).bind_pure
  | andThenOkFirst e f => exact .refl _ _
  | andThenOkSecond f hfirst => exact (resumes_bind hfirst).bind_pure
  | mapOkFirst e f => exact .refl _ _
  | mapOkApplied f hfirst => exact resumes_bind hfirst
  -- A loop is where its rounds have led it, and then at the next turn.
  | forever hrounds =>
    exact hrounds.resumes_forever.trans (.of_equiv (forever_equiv _) t)
  | iterate hrounds =>
    exact hrounds.resumes_iterate.trans (.of_equiv (iterate_equiv _ _) t)
  | untilTrue hrounds =>
    have hloop := hrounds.resumes_untilTrue.trans (.of_equiv (untilTrue_equiv _) t)
    exact (resumes_emit _ s).trans hloop
  | whileCheck hrounds =>
    have hloop := hrounds.resumes_whileTrue.trans (.of_equiv (whileTrue_equiv _ _) t)
    exact (resumes_emit _ s).trans hloop
  | whileBody hrounds hcheck =>
    have hloop := hrounds.resumes_whileTrue.trans (whileTrue_resumes hcheck _)
    exact (resumes_emit _ s).trans hloop
  | forRange hrounds hlt hnext =>
    have hloop := hrounds.resumes_forRange
    rw [forRange_of_lt hlt hnext] at hloop
    exact (resumes_emit _ s).trans hloop
  | forItems hrounds =>
    have hloop := hrounds.resumes_forEach
    rw [forEach_cons] at hloop
    exact (resumes_emit _ s).trans hloop
  | tryUntil hrounds =>
    have hloop := hrounds.resumes_tryUntil.trans (.of_equiv (tryUntil_equiv _) t)
    exact (resumes_emit _ s).trans hloop
  | tryWhileCheck hrounds =>
    have hloop := hrounds.resumes_tryWhile.trans (.of_equiv (tryWhile_equiv _ _) t)
    exact (resumes_emit _ s).trans hloop
  | tryWhileBody hrounds hcheck =>
    have hloop := hrounds.resumes_tryWhile.trans (tryWhile_resumes hcheck _)
    exact (resumes_emit _ s).trans hloop
  | tryForRange hrounds hlt hnext =>
    have hloop := hrounds.resumes_tryForRange
    rw [tryForRange_of_lt hlt hnext] at hloop
    exact (resumes_emit _ s).trans hloop
  | tryForItems hrounds =>
    have hloop := hrounds.resumes_tryForEach
    rw [tryForEach_cons] at hloop
    exact (resumes_emit _ s).trans hloop
  | statement hrounds =>
    refine (hrounds.resumes_block _).trans ?_
    exact .of_equiv (equiv_of_eq (Statement.enter_buildAll_cons _ _ _ _)) _
  | last hrounds => exact (hrounds.resumes_block _).bind_pure

end

/-! ## Operations inside each other -/

/-- Operations at work, each one running the next as its part: `Stack x s y k t` says that the
outermost one, `x`, was begun in the state `s`, that the innermost part, `y`, is to run in the state
`t`, and that `k` is all that will be done with its value. -/
inductive Stack : {σ α β : Type} → Computation σ α → σ → Computation σ β →
    (β → Computation σ α) → σ → Prop where
  | nil {σ α : Type} (x : Computation σ α) (s : σ) : Stack x s x pure s
  | cons {σ α β γ : Type} {x : Computation σ α} {y : Computation σ β} {z : Computation σ γ}
      {k : β → Computation σ α} {l : γ → Computation σ β} {s t u : σ} (outer : Frame x s y k t)
      (inner : Stack y t z l u) : Stack x s z (fun c => l c >>= k) u

section

variable {σ α β : Type} {x : Computation σ α} {y : Computation σ β} {k : β → Computation σ α}
  {s t : σ}

/-- The outermost operation ends as the innermost part does, followed by all the rest. -/
theorem Stack.resumes (h : Stack x s y k t) : x.Resumes s (y >>= k) t := by
  induction h with
  | nil x s => exact (Resumes.refl x s).bind_pure
  | cons outer inner ih =>
    rw [← bind_assoc]
    exact outer.resumes.trans (ih.bind _)

/-- If the innermost part panics, the outermost operation ends in that panic, with its payload and
in the state that it leaves: nothing catches it, runs after it or takes back what was done. -/
theorem panic_unwinds {p : Panic} {u : σ} (hstack : Stack x s y k t)
    (hpanic : y.Halts t (.error p, u)) (r : Except Panic α × σ) :
    x.Halts s r ↔ r = (.error p, u) :=
  (hstack.resumes r).trans (halts_bind_error_iff hpanic)

end

/-- The greatest number of eight bits. -/
def greatest : Fixed .i8 := ⟨127, by decide, by decide⟩

/-- Records for the first item; for any other, adds the greatest number to itself. -/
def recordThenAdd (first : Bool) : Computation World (Effect World Unit) :=
  return if first then ⟨modify fun w => w.push (.value .unit)⟩
    else (Effect.pure greatest + Effect.pure greatest).void

/-- An overflow in the second turn of a loop: what the first turn recorded stays. -/
theorem overflow_unwinds_loop :
    ∃ k t, t.trace = #[.event (.loopStarted false (.forEach 3)), .value .unit] ∧
      Stack (Effect.forItems [true, false, true] recordThenAdd).invoke (World.initial true)
        (liftM (Arithmetic.add greatest greatest) : Computation World (Fixed .i8)) k t ∧
      (liftM (Arithmetic.add greatest greatest) : Computation World (Fixed .i8)).Halts t
        (.error Overflow.add.panic, t) ∧
      ∀ r, (Effect.forItems [true, false, true] recordThenAdd).invoke.Halts (World.initial true) r ↔
        r = (.error Overflow.add.panic, t) := by
  have hturn : ItemTurn (fun first => Effect.enter (recordThenAdd first))
      ([true, false, true], Tracer.emit (.loopStarted false (.forEach 3)) (World.initial true))
      ([false, true], (Tracer.emit (.loopStarted false (.forEach 3)) (World.initial true)).push
        (.value .unit)) := ⟨true, (), rfl, 0, rfl⟩
  have hstack := Stack.cons (.forItems (.more hturn (.none _))) <|
    .cons (.made ⟨0, rfl⟩) <| .cons (.mapFirst _ _ _) <|
    .cons (.map2Applied (fun a b => Arithmetic.add a b) ⟨0, rfl⟩ ⟨0, rfl⟩) (.nil _ _)
  have hpanic : ∀ t, (liftM (Arithmetic.add greatest greatest) :
      Computation World (Fixed .i8)).Halts t (.error Overflow.add.panic, t) := fun _ => ⟨0, rfl⟩
  exact ⟨_, _, rfl, hstack, hpanic _, panic_unwinds hstack (hpanic _)⟩

end Deferred
