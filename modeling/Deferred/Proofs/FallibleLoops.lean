import Deferred.Proofs.EarlyExit
import Deferred.Proofs.Program.Silence

/-!
# Fallible loops and plain ones

The plain loop over the parts of a fallible one is made by raising the errors: a part that yields an
error panics instead (`Effect.raising`). Both loops end as the parts stop, so an error value does
for the one what a panic does for the other (`Effect.fallible_loops_simulate`).

The plain loop is not compared with the parts directly. It goes as the fallible loop whose result is
settled at the end (`Effect.settle_tryUntil_equiv` and the others), because settling can be moved
into the step that finishes.
-/

namespace Deferred

variable {σ α β γ ε : Type}

namespace Computation

/-! ## Errors raised as panics -/

/-- A success is the value, and an error is raised as a panic. -/
def settle (raise : ε → Panic) : Except ε α → Computation σ α
  | .ok a => pure a
  | .error error => panic (raise error)

/-- A settled loop ends as the loop does, with a panic in place of an error. -/
theorem halts_settle_iff {x : Computation σ (Except ε Unit)} {raise : ε → Panic} {s : σ}
    {r : Except Panic Unit × σ} :
    (x >>= settle raise).Halts s r ↔
      ∃ (stop : Stop ε) (u : σ), x.Halts s (stop.tried, u) ∧ r = (stop.raised raise, u) := by
  rw [halts_bind_iff_then]
  constructor
  · intro h
    obtain ⟨⟨o, u⟩, hx, hend⟩ := h
    obtain ⟨stop, rfl⟩ := Stop.exists_tried o
    refine ⟨stop, u, hx, ?_⟩
    cases stop with
    | completed => exact halts_pure_iff.1 hend
    | failed error => exact halts_panic_iff.1 hend
    | panicked p => exact hend
  · intro h
    obtain ⟨stop, u, hx, rfl⟩ := h
    refine ⟨_, hx, ?_⟩
    cases stop with
    | completed => exact halts_pure_iff.2 rfl
    | failed error => exact halts_panic_iff.2 rfl
    | panicked p => rfl

/-- Raising an error afterwards does not change whether a computation ends. -/
theorem diverges_settle_iff {x : Computation σ (Except ε Unit)} {raise : ε → Panic} {s : σ} :
    (x >>= settle raise).Diverges s ↔ x.Diverges s := by
  rw [diverges_iff, diverges_iff]
  constructor
  · intro h r hx
    obtain ⟨o, u⟩ := r
    obtain ⟨stop, rfl⟩ := Stop.exists_tried o
    exact h _ (halts_settle_iff.2 ⟨stop, u, hx, rfl⟩)
  · intro h r hsettled
    obtain ⟨stop, u, hx, -⟩ := halts_settle_iff.1 hsettled
    exact h _ hx

/-- Settling reads no state. -/
theorem alike_settle {τ : Type} {S : σ → τ → Prop} (raise : ε → Panic) (r : Except ε α) :
    Alike S Eq (settle raise r) (settle raise r) := by
  cases r with
  | ok a => exact alike_pure rfl
  | error error => exact alike_panic (raise error)

section

variable {S : σ → σ → Prop} {raise : ε → Panic} {x : Computation σ (Except ε Unit)}
  {y : Computation σ Unit} {s t : σ}

/-- What runs as a settled loop ends as the loop stops. -/
theorem exists_raised_of_alike (h : Alike S Eq (x >>= settle raise) y) (hst : S s t)
    {stop : Stop ε} {u : σ} (hx : x.Halts s (stop.tried, u)) :
    ∃ v, y.Halts t (stop.raised raise, v) ∧ S u v := by
  have hsettled : (x >>= settle raise).Halts s (stop.raised raise, u) :=
    halts_settle_iff.2 ⟨stop, u, hx, rfl⟩
  obtain ⟨o, v, hy, hmatch, huv⟩ := (h s t hst).1 _ _ hsettled
  rw [← matches_eq_iff.1 hmatch] at hy
  exact ⟨v, hy, huv⟩

/-- What a raising loop ends with tells how the fallible one stopped. -/
theorem exists_tried_of_alike (h : Alike S Eq (x >>= settle raise) y) (hst : S s t)
    {o : Except Panic Unit} {v : σ} (hy : y.Halts t (o, v)) :
    ∃ (stop : Stop ε) (u : σ), x.Halts s (stop.tried, u) ∧ o = stop.raised raise ∧ S u v := by
  obtain ⟨o', u', hsettled, hmatch, huv⟩ := (h s t hst).2 _ _ hy
  obtain ⟨stop, u, hx, heq⟩ := halts_settle_iff.1 hsettled
  obtain ⟨rfl, rfl⟩ := Prod.mk.inj heq
  exact ⟨stop, u', hx, (matches_eq_iff.1 hmatch.flip).symm, huv⟩

end

/-- Settling the result of a step is settling the part that the step begins with. -/
theorem unlessError_bind_settle (x : Computation σ (Except ε β))
    (g : β → Computation σ (Turn α (Except ε γ))) (raise : ε → Panic) :
    (x >>= unlessError g >>= finishWith (settle raise)) =
      x >>= settle raise >>= fun b => g b >>= finishWith (settle raise) := by
  simp only [bind_assoc]
  refine bind_congr fun r => ?_
  cases r with
  | ok b => rfl
  | error error => rfl

/-- What goes as an iteration goes, settled, as the iteration of the settled steps. -/
theorem settle_equiv_of_step {x : Computation σ (Except ε γ)} {y : Computation σ γ}
    {f : α → Computation σ (Turn α (Except ε γ))} {g : α → Computation σ (Turn α γ)} {a : α}
    {raise : ε → Panic} (hx : x ≈ iterate f a) (hy : y ≈ iterate g a)
    (hstep : ∀ a, g a = f a >>= finishWith (settle raise)) : (x >>= settle raise) ≈ y := by
  have hsettled : (iterate f a >>= settle raise) ≈ iterate g a :=
    iterate_bind_equiv_of_step (fun a => equiv_of_eq (hstep a)) a
  have hx : (x >>= settle raise) ≈ (iterate f a >>= settle raise) :=
    bind_congr_equiv hx fun _ => equiv_refl _
  exact equiv_trans hx (equiv_trans hsettled (equiv_symm hy))

end Computation

namespace Effect

open Deferred.Computation

/-- Invokes `e` and panics in place of an error. -/
def raising (raise : ε → Panic) (e : Effect σ (Except ε α)) : Effect σ α := e.map (settle raise)

/-- Makes the same effects, which panic in place of an error. -/
def raisingEach (raise : ε → Panic) (make : α → Computation σ (Effect σ (Except ε β))) (a : α) :
    Computation σ (Effect σ β) := do
  let e ← make a
  return e.raising raise

theorem enter_raisingEach (raise : ε → Panic) (make : α → Computation σ (Effect σ (Except ε β)))
    (a : α) : enter (raisingEach raise make a) = enter (make a) >>= settle raise :=
  enter_map (make a) (settle raise)

/-- Raising errors reads no state. -/
theorem respects_raisingEach {same : σ → σ → Prop} (raise : ε → Panic)
    (make : α → Computation σ (Effect σ (Except ε β))) (a : α)
    (h : (enter (make a)).Respects same) : (enter (raisingEach raise make a)).Respects same := by
  rw [enter_raisingEach]
  refine Alike.bind h fun r r' hr => ?_
  rw [hr]
  exact alike_settle raise r'

theorem respects_raising {same : σ → σ → Prop} (raise : ε → Panic) {e : Effect σ (Except ε α)}
    (h : e.invoke.Respects same) : (e.raising raise).invoke.Respects same :=
  respects_raisingEach raise (fun _ : Unit => return e) () h

/-! ## Plain loops as settled loops -/

/-- Raising the error of the loop is raising it in the checks. -/
theorem settle_tryUntil_equiv (raise : ε → Panic) (c : Effect σ (Except ε Bool)) :
    (Computation.tryUntil c.invoke >>= settle raise) ≈
      Computation.untilTrue (c.raising raise).invoke := by
  refine settle_equiv_of_step (tryUntil_equiv_iterate c) (untilTrue_equiv_iterate _) fun i => ?_
  rw [enter_tryUntilStep, unlessError_bind_settle]
  refine congrArg ((c.raising raise).invoke >>= ·) (funext fun holds => ?_)
  cases holds <;> rfl

/-- Raising the error of the loop is raising it in checks and bodies. -/
theorem settle_tryWhile_equiv (raise : ε → Panic) (c : Effect σ (Except ε Bool))
    (b : Effect σ (Except ε α)) :
    (Computation.tryWhile c.invoke b.invoke >>= settle raise) ≈
      Computation.whileTrue (c.raising raise).invoke (b.raising raise).invoke := by
  refine settle_equiv_of_step (tryWhile_equiv_iterate c b) (whileTrue_equiv_iterate _ _)
    fun i => ?_
  rw [enter_tryWhileStep, unlessError_bind_settle]
  refine congrArg ((c.raising raise).invoke >>= ·) (funext fun holds => ?_)
  cases holds with
  | true =>
    have hbody := unlessError_bind_settle b.invoke
      (fun _ => Pure.pure (.again () : Turn Unit (Except ε Unit))) raise
    exact hbody.symm
  | false => rfl

/-- Raising the error of the loop is raising it in the turn that fails. -/
theorem settle_tryForRange_equiv (raise : ε → Panic) (low high : Fixed .i32)
    (step : Fixed .i32 → Computation σ (Effect σ (Except ε α))) :
    (Computation.tryForRange low high (fun i => enter (step i)) >>= settle raise) ≈
      Computation.forRange low high fun i => enter (raisingEach raise step i) := by
  refine settle_equiv_of_step (tryForRange_equiv_iterate low high step)
    (forRange_equiv_iterate low high _) fun i => ?_
  by_cases hlt : i.val < high.val
  · obtain ⟨next, hnext⟩ := exists_next hlt
    rw [enter_rangeStep_of_lt hlt hnext, enter_raisingEach, enter_tryRangeStep_of_lt hlt hnext,
      bind_againUnlessError, unlessError_bind_settle]
    rfl
  · have hle : high.val ≤ i.val := Int.not_lt.1 hlt
    rw [enter_rangeStep_of_le hle, enter_tryRangeStep_of_le hle]
    rfl

theorem settle_tryForItems_equiv (raise : ε → Panic) (items : List α)
    (action : α → Computation σ (Effect σ (Except ε β))) :
    (Computation.tryForEach items (fun a => enter (action a)) >>= settle raise) ≈
      Computation.forEach items fun a => enter (raisingEach raise action a) := by
  refine settle_equiv_of_step (tryForItems_equiv_iterate items action)
    (forItems_equiv_iterate items _) fun items => ?_
  cases items with
  | nil => rfl
  | cons a rest =>
    have hplain : enter (itemStep (raisingEach raise action) (a :: rest)) =
        enter (raisingEach raise action a) >>= fun _ => Pure.pure (.again rest) := enter_map _ _
    rw [hplain, enter_raisingEach, enter_tryItemStep_cons, unlessError_bind_settle]
    rfl

/-! ## Both loops -/

variable [Tracer σ]

/-- A fallible loop and a plain one whose parts panic in place of an error end as the parts stop.
`ends` says how the parts stop from the state that was told of the loop's start, and `blind` that no
part sees what a relation between states does not. -/
structure SimulatesPlain (raise : ε → Panic) (loop : LoopStart) (ends : σ → Stop ε → σ → Prop)
    (blind : (σ → σ → Prop) → Prop) (tried : Effect σ (Except ε Unit)) (plain : Effect σ Unit) :
    Prop where
  /-- The fallible loop yields the first error of its parts, in the state that the part left, and
  nothing else ends it but a panic of a part or that nothing is left to do. -/
  tried_iff {s : σ} {r : Except Panic (Except ε Unit) × σ} : tried.invoke.Halts s r ↔
    ∃ stop u, ends (Tracer.emit (.loopStarted true loop) s) stop u ∧ r = (stop.tried, u)
  /-- So does the plain loop, with a panic in place of the error. -/
  plain_iff {s : σ} {r : Except Panic Unit × σ} : plain.invoke.Halts s r ↔
    ∃ stop u, ends (Tracer.emit (.loopStarted false loop) s) stop u ∧ r = (stop.raised raise, u)
  /-- Where events leave no mark, the fallible loop raises its error as the plain one does. -/
  silent (hsilent : ∀ event (s : σ), Tracer.emit event s = s) : tried.raising raise ≈ plain
  /-- Whoever sees no events finds an ending of the plain loop for each one of the fallible
  loop. -/
  follows {same : σ → σ → Prop} (hsame : EventBlind same) (hparts : blind same) {s t : σ}
    (hst : same s t) {stop : Stop ε} {u : σ} (h : tried.invoke.Halts s (stop.tried, u)) :
    ∃ v, plain.invoke.Halts t (stop.raised raise, v) ∧ same u v
  /-- And the other way round. -/
  leads {same : σ → σ → Prop} (hsame : EventBlind same) (hparts : blind same) {s t : σ}
    (hst : same s t) {o : Except Panic Unit} {v : σ} (h : plain.invoke.Halts t (o, v)) :
    ∃ (stop : Stop ε) (u : σ), tried.invoke.Halts s (stop.tried, u) ∧ o = stop.raised raise ∧
      same u v
  diverges_iff {same : σ → σ → Prop} (hsame : EventBlind same) (hparts : blind same) {s t : σ}
    (hst : same s t) : tried.invoke.Diverges s ↔ plain.invoke.Diverges t

/-- It is enough that the fallible loop ends as the parts stop, that the plain one goes as it does
when settled, and that the plain one sees no more than its parts. -/
theorem simulatesPlain_of_settle {raise : ε → Panic} {loop : LoopStart}
    {ends : σ → Stop ε → σ → Prop} {blind : (σ → σ → Prop) → Prop}
    {x : Computation σ (Except ε Unit)} {y : Computation σ Unit}
    (hends : ∀ s r, x.Halts s r ↔ ∃ stop u, ends s stop u ∧ r = (stop.tried, u))
    (hsettle : (x >>= settle raise) ≈ y) (hblind : ∀ same, blind same → y.Respects same) :
    SimulatesPlain raise loop ends blind ⟨emit (.loopStarted true loop) >>= fun _ => x⟩
      ⟨emit (.loopStarted false loop) >>= fun _ => y⟩ := by
  have hstops : ∀ s stop u, x.Halts s (stop.tried, u) ↔ ends s stop u := by
    intro s stop u
    rw [hends]
    constructor
    · intro h
      obtain ⟨stop', u', hends, heq⟩ := h
      obtain ⟨htried, rfl⟩ := Prod.mk.inj heq
      rwa [Stop.tried_injective htried]
    · intro h
      exact ⟨stop, u, h, rfl⟩
  have hplain : ∀ s r, y.Halts s r ↔ ∃ stop u, ends s stop u ∧ r = (stop.raised raise, u) := by
    intro s r
    rw [← equiv_def.1 hsettle s r, halts_settle_iff]
    simp only [hstops]
  have halike : ∀ same, EventBlind same → blind same →
      Alike same Eq (emit (.loopStarted true loop) >>= (fun _ => x) >>= settle raise)
        (emit (.loopStarted false loop) >>= fun _ => y) := by
    intro same hsame hparts
    rw [bind_assoc]
    refine hsame.alike_emit_left _ (hsame.alike_emit_right _ ?_)
    exact Alike.of_equiv hsettle (equiv_refl y) (hblind same hparts)
  constructor
  case tried_iff =>
    intro s r
    exact (resumes_emit x s r).trans (hends _ r)
  case plain_iff =>
    intro s r
    exact (resumes_emit y s r).trans (hplain _ r)
  case silent =>
    intro hsilent
    have htried := bind_congr_equiv (emit_bind_equiv hsilent (.loopStarted true loop) x)
      fun r => equiv_refl (settle raise r)
    have hplain := emit_bind_equiv hsilent (.loopStarted false loop) y
    exact equiv_iff.2 (Computation.equiv_trans htried
      (Computation.equiv_trans hsettle (equiv_symm hplain)))
  case follows =>
    intro same hsame hparts s t hst stop u h
    exact exists_raised_of_alike (halike same hsame hparts) hst h
  case leads =>
    intro same hsame hparts s t hst o v h
    exact exists_tried_of_alike (halike same hsame hparts) hst h
  case diverges_iff =>
    intro same hsame hparts s t hst
    rw [← (halike same hsame hparts).diverges_iff hst, diverges_settle_iff]

/-- Every fallible loop beside the plain loop over the same parts. -/
structure FallibleLoops (σ : Type) [Tracer σ] (raise : ε → Panic) : Prop where
  tryUntil (condition : Effect σ (Except ε Bool)) :
    SimulatesPlain raise .untilTrue
      (Ends (TryUntilTurn condition.invoke) (UntilStops condition.invoke))
      (fun same => condition.invoke.Respects same)
      (Effect.tryUntil condition) (Effect.untilTrue (condition.raising raise))
  tryWhile {α : Type} (condition : Effect σ (Except ε Bool)) (body : Effect σ (Except ε α)) :
    SimulatesPlain raise .whileTrue
      (Ends (TryWhileTurn condition.invoke body.invoke)
        (WhileStops condition.invoke body.invoke))
      (fun same => condition.invoke.Respects same ∧ body.invoke.Respects same)
      (Effect.tryWhile condition body)
      (Effect.whileTrue (condition.raising raise) (body.raising raise))
  tryForRange {α : Type} (low high : Fixed .i32)
    (step : Fixed .i32 → Computation σ (Effect σ (Except ε α))) :
    SimulatesPlain raise (.forRange low.val high.val)
      (fun s => Ends (TryRangeTurn high fun i => enter (step i))
        (RangeStops high fun i => enter (step i)) (low, s))
      (fun same => ∀ i, (enter (step i)).Respects same)
      (Effect.tryForRange low high step) (Effect.forRange low high (raisingEach raise step))
  tryForItems {α β : Type} (items : List α)
    (action : α → Computation σ (Effect σ (Except ε β))) :
    SimulatesPlain raise (.forEach items.length)
      (fun s => Ends (TryItemTurn fun a => enter (action a)) (ItemStops fun a => enter (action a))
        (items, s))
      (fun same => ∀ a, (enter (action a)).Respects same)
      (Effect.tryForItems items action) (Effect.forItems items (raisingEach raise action))
  /-- Over a source both loops are made of the items that they take from it, and of nothing else. -/
  tryForEach {α β : Type} (source : List (Computation σ α))
    (action : α → Computation σ (Effect σ (Except ε β))) :
    MadeOfItems source (Effect.tryForItems · action) (Effect.tryForEach source action)
  forEach {α β : Type} (source : List (Computation σ α))
    (action : α → Computation σ (Effect σ (Except ε β))) :
    MadeOfItems source (Effect.forItems · (raisingEach raise action))
      (Effect.forEach source (raisingEach raise action))

/-- A fallible loop does what the plain loop does whose parts raise their errors. -/
theorem fallible_loops_simulate (raise : ε → Panic) : FallibleLoops σ raise where
  tryUntil c := by
    refine simulatesPlain_of_settle (fun s r => ?_) (settle_tryUntil_equiv raise c)
      fun same hc => alike_untilTrue (respects_raising raise hc)
    exact (tryUntil_equiv_iterate c s r).trans (course_tryUntilStep c).halts_iff
  tryWhile c b := by
    refine simulatesPlain_of_settle (fun s r => ?_) (settle_tryWhile_equiv raise c b)
      fun same hparts => alike_whileTrue (respects_raising raise hparts.1)
        (respects_raising raise hparts.2)
    exact (tryWhile_equiv_iterate c b s r).trans (course_tryWhileStep c b).halts_iff
  tryForRange low high step := by
    refine simulatesPlain_of_settle (fun s r => ?_) (settle_tryForRange_equiv raise low high step)
      fun same hstep => alike_forRange low high fun i => respects_raisingEach raise step i (hstep i)
    exact (tryForRange_equiv_iterate low high step s r).trans
      (course_tryRangeStep high step).halts_iff
  tryForItems items action := by
    refine simulatesPlain_of_settle (fun s r => ?_) (settle_tryForItems_equiv raise items action)
      fun same haction => alike_forItems items fun a =>
        respects_raisingEach raise action a (haction a)
    exact (tryForItems_equiv_iterate items action s r).trans (course_tryItemStep action).halts_iff
  tryForEach source action := madeOfItems source (Effect.tryForItems · action)
  forEach source action := madeOfItems source (Effect.forItems · (raisingEach raise action))

/-- Records the unit value and fails. -/
def failingCheck : Effect World (Except String Bool) :=
  ⟨update fun w => (.error "full", w.push (.value .unit))⟩

theorem respects_failingCheck :
    failingCheck.invoke.Respects fun w w' => w.unheard = w'.unheard := by
  refine alike_update fun w w' hsame => ⟨rfl, ?_⟩
  simp only [World.unheard_push_value, hsame]

/-- Three numbers; it is recorded when one is taken. -/
def recordedNumbers : List (Computation World Int) :=
  [1, 2, 3].map fun n => update fun w => (n, w.push (.value (.str "took")))

/-- Makes an effect that records the number, and fails if that is two. -/
def failAtTwo (n : Int) : Computation World (Effect World (Except String Unit)) :=
  return ⟨update fun w => (if n = 2 then .error "full" else .ok (), w.push (.value (.int n)))⟩

theorem respects_failAtTwo (n : Int) :
    (enter (failAtTwo n)).Respects fun w w' => w.unheard = w'.unheard := by
  refine alike_update fun w w' hsame => ⟨rfl, ?_⟩
  simp only [World.unheard_push_value, hsame]

/-- While events are listened to, the failing check ends its fallible loop with the error. The plain
loop panics with the text of the error, and what it leaves is, without the event, the one value
recorded. Both loops over the numbers are made once these have been taken, and end in the same way
at the second number. -/
theorem failingParts_raised :
    (EventBlind (fun w w' : World => w.unheard = w'.unheard) ∧
      failingCheck.invoke.Respects (fun w w' => w.unheard = w'.unheard) ∧
      ∃ u, (Effect.tryUntil failingCheck).invoke.Halts (.initial true) (.ok (.error "full"), u)) ∧
    (∃ v, (Effect.untilTrue (failingCheck.raising .formatted)).invoke.Halts (.initial true)
      (.error (.formatted "full"), v) ∧ v.unheard = (World.initial false).push (.value .unit)) ∧
    ∃ t, t.trace = #[.value (.str "took"), .value (.str "took"), .value (.str "took")] ∧
      (∃ tried : Effect World (Except String Unit),
        (Effect.tryForEach recordedNumbers failAtTwo).Halts (.initial true) (.ok tried, t) ∧
        ∃ u, tried.invoke.Halts t (.ok (.error "full"), u)) ∧
      ∃ plain : Effect World Unit,
        (Effect.forEach recordedNumbers (raisingEach .formatted failAtTwo)).Halts (.initial true)
          (.ok plain, t) ∧
        ∃ v, plain.invoke.Halts t (.error (.formatted "full"), v) ∧
          v.unheard.trace = t.trace ++ #[.value (.int 1), .value (.int 2)] := by
  have loops : FallibleLoops World Panic.formatted := fallible_loops_simulate .formatted
  have hcheck : (Effect.tryUntil failingCheck).invoke.Halts (.initial true)
      ((Stop.failed "full").tried,
        ((World.initial true).push (.event (.loopStarted true .untilTrue))).push (.value .unit)) :=
    ⟨1, rfl⟩
  obtain ⟨v, hplain, hsame⟩ := (loops.tryUntil failingCheck).follows World.eventBlind_unheard
    respects_failingCheck rfl hcheck
  have hv : v.unheard = (World.initial false).push (.value .unit) := by
    rw [← hsame, World.unheard_push_value, World.unheard_push_event]
    rfl
  -- The numbers are taken first, and then the fallible loop fails at the second one.
  have hruns : ∃ t u, (recordedNumbers.mapM id).Halts (.initial true) (.ok [1, 2, 3], t) ∧
      t.trace = #[.value (.str "took"), .value (.str "took"), .value (.str "took")] ∧
      (Effect.tryForItems [1, 2, 3] failAtTwo).invoke.Halts t ((Stop.failed "full").tried, u) ∧
      u.unheard.trace = t.trace ++ #[.value (.int 1), .value (.int 2)] :=
    ⟨_, _, ⟨0, rfl⟩, rfl, ⟨0, rfl⟩, rfl⟩
  obtain ⟨t, u, htaken, htrace, htried, hu⟩ := hruns
  have hmade := (loops.tryForEach recordedNumbers failAtTwo).made_iff.2 ⟨_, htaken, rfl⟩
  have hmade' := (loops.forEach recordedNumbers failAtTwo).made_iff.2 ⟨_, htaken, rfl⟩
  obtain ⟨w, hraised, hsame'⟩ := (loops.tryForItems [1, 2, 3] failAtTwo).follows
    World.eventBlind_unheard respects_failAtTwo rfl htried
  have hw : w.unheard.trace = t.trace ++ #[.value (.int 1), .value (.int 2)] := by
    rw [← hsame', hu]
  exact ⟨⟨World.eventBlind_unheard, respects_failingCheck, _, hcheck⟩, ⟨v, hplain, hv⟩, t, htrace,
    ⟨_, hmade, u, htried⟩, _, hmade', w, hraised, hw⟩

end Effect

end Deferred
