import Deferred.Proofs.LoopsIterate

/-!
# How the parts end a loop

A fallible loop takes turns as long as no part yields an error. `Ends turn stops k stop u` says that
the parts, from the position `k` on, take some turns without an error and then come to a `Stop` in
the state `u`: the loop has been completed, a part has yielded an error, or a part has panicked. It
is about the parts alone.

`Course` says that the steps of an iteration are those turns and stops, and then the iteration ends
exactly as the parts stop (`Computation.Course.halts_iff`). The fallible loops follow a course each,
as the iterations that they are (`Effect.course_tryUntilStep` and the others).
-/

namespace Deferred

variable {σ α β γ ε κ : Type}

/-- What brings a fallible loop to its end. -/
inductive Stop (ε : Type) where
  /-- Nothing is left to do, and no part yielded an error. -/
  | completed
  /-- A part has yielded the error. -/
  | failed (error : ε)
  /-- A part has panicked. -/
  | panicked (p : Panic)

namespace Stop

/-- How the fallible loop ends. -/
def tried : Stop ε → Except Panic (Except ε Unit)
  | .completed => .ok (.ok ())
  | .failed error => .ok (.error error)
  | .panicked p => .error p

/-- How a loop ends that panics in place of an error. -/
def raised (raise : ε → Panic) : Stop ε → Except Panic Unit
  | .completed => .ok ()
  | .failed error => .error (raise error)
  | .panicked p => .error p

/-- The step of an iteration that ends in this way. -/
def finished (stop : Stop ε) : Except Panic (Turn α (Except ε Unit)) := stop.tried.map .finish

/-- Every way to end is a stop. -/
theorem exists_tried (o : Except Panic (Except ε Unit)) : ∃ stop : Stop ε, o = stop.tried :=
  match o with
  | .ok (.ok ()) => ⟨.completed, rfl⟩
  | .ok (.error error) => ⟨.failed error, rfl⟩
  | .error p => ⟨.panicked p, rfl⟩

theorem tried_injective {stop stop' : Stop ε} (h : stop.tried = stop'.tried) : stop = stop' := by
  cases stop <;> cases stop' <;> cases h <;> rfl

end Stop

namespace Computation

/-! ## The course of the parts -/

/-- A part stops the loop, with an error or with a panic. -/
inductive Breaks (x : Computation σ (Except ε α)) (s : σ) : Stop ε → σ → Prop where
  | failed {error : ε} {u : σ} (h : x.Halts s (.ok (.error error), u)) :
    Breaks x s (.failed error) u
  | panicked {p : Panic} {u : σ} (h : x.Halts s (.error p, u)) : Breaks x s (.panicked p) u

/-- A check succeeds, or stops the loop. -/
inductive UntilStops (c : Computation σ (Except ε Bool)) (s : σ) : Stop ε → σ → Prop where
  | completed {u : σ} (h : c.Halts s (.ok (.ok true), u)) : UntilStops c s .completed u
  | check {stop : Stop ε} {u : σ} (h : Breaks c s stop u) : UntilStops c s stop u

/-- A check fails, or stops the loop, or a body after a check that succeeds does. -/
inductive WhileStops (c : Computation σ (Except ε Bool)) (b : Computation σ (Except ε α)) (s : σ) :
    Stop ε → σ → Prop where
  | completed {u : σ} (h : c.Halts s (.ok (.ok false), u)) : WhileStops c b s .completed u
  | check {stop : Stop ε} {u : σ} (h : Breaks c s stop u) : WhileStops c b s stop u
  | body {stop : Stop ε} {t u : σ} (hcheck : c.Halts s (.ok (.ok true), t))
    (h : Breaks b t stop u) : WhileStops c b s stop u

/-- No index is left, or the step of the next one stops the loop. -/
inductive RangeStops (high : Fixed .i32) (f : Fixed .i32 → Computation σ (Except ε α)) :
    Fixed .i32 × σ → Stop ε → σ → Prop where
  | completed {i : Fixed .i32} {s : σ} (h : high.val ≤ i.val) :
    RangeStops high f (i, s) .completed s
  | step {i : Fixed .i32} {s u : σ} {stop : Stop ε} (hlt : i.val < high.val)
    (h : Breaks (f i) s stop u) : RangeStops high f (i, s) stop u

/-- No item is left, or the action of the next one stops the loop. -/
inductive ItemStops (f : α → Computation σ (Except ε β)) : List α × σ → Stop ε → σ → Prop where
  | completed {s : σ} : ItemStops f ([], s) .completed s
  | action {a : α} {rest : List α} {s u : σ} {stop : Stop ε} (h : Breaks (f a) s stop u) :
    ItemStops f (a :: rest, s) stop u

/-- From the position `k` on the parts take some turns, and then they stop. -/
def Ends (turn : κ → κ → Prop) (stops : κ → Stop ε → σ → Prop) (k : κ) (stop : Stop ε) (u : σ) :
    Prop :=
  ∃ n l, Rounds turn n k l ∧ stops l stop u

/-- The steps of an iteration are the turns and the stops of the parts. -/
structure Course (f : α → Computation σ (Turn α (Except ε Unit))) (position : α → σ → κ)
    (turn : κ → κ → Prop) (stops : κ → Stop ε → σ → Prop) : Prop where
  turn_iff {a a' : α} {s u : σ} :
    (f a).Halts s (.ok (.again a'), u) ↔ turn (position a s) (position a' u)
  stop_iff {a : α} {s u : σ} {stop : Stop ε} :
    (f a).Halts s (stop.finished, u) ↔ stops (position a s) stop u
  /-- Turns lead to positions of the iteration. -/
  exists_position (k : κ) : ∃ a s, k = position a s

section

variable {turn : κ → κ → Prop} {stops : κ → Stop ε → σ → Prop}

theorem Ends.of_stops {k : κ} {stop : Stop ε} {u : σ} (h : stops k stop u) :
    Ends turn stops k stop u :=
  ⟨0, k, .none k, h⟩

theorem Ends.more {k l : κ} {stop : Stop ε} {u : σ} (hturn : turn k l)
    (h : Ends turn stops l stop u) : Ends turn stops k stop u := by
  obtain ⟨n, m, hrounds, hstops⟩ := h
  exact ⟨n + 1, m, .more hturn hrounds, hstops⟩

variable {f : α → Computation σ (Turn α (Except ε Unit))} {position : α → σ → κ}

/-- An iteration that ends has taken the turns of the parts up to a stop. -/
theorem Course.ends_of_halts (h : Course f position turn stops) {a : α} {s : σ}
    {r : Except Panic (Except ε Unit) × σ} (hr : (iterate f a).Halts s r) :
    ∃ stop u, Ends turn stops (position a s) stop u ∧ r = (stop.tried, u) := by
  refine halts_iterate_induction (motive := fun a s r =>
    ∃ stop u, Ends turn stops (position a s) stop u ∧ r = (stop.tried, u)) ?panicked ?finished
    ?again hr
  case panicked =>
    intro a s p t hf
    exact ⟨.panicked p, t, .of_stops (h.stop_iff.1 hf), rfl⟩
  case finished =>
    intro a s r t hf
    match r, hf with
    | .ok (), hf => exact ⟨.completed, t, .of_stops (h.stop_iff.1 hf), rfl⟩
    | .error error, hf => exact ⟨.failed error, t, .of_stops (h.stop_iff.1 hf), rfl⟩
  case again =>
    rintro a s a' t r hf - ⟨stop, u, hends, hr⟩
    exact ⟨stop, u, hends.more (h.turn_iff.1 hf), hr⟩

/-- Where the parts stop, the iteration ends. -/
theorem Course.halts_of_ends (h : Course f position turn stops) {a : α} {s u : σ}
    {stop : Stop ε} (hends : Ends turn stops (position a s) stop u) :
    (iterate f a).Halts s (stop.tried, u) := by
  obtain ⟨n, l, hrounds, hstops⟩ := hends
  generalize hk : position a s = k at hrounds
  induction hrounds generalizing a s with
  | none k =>
    subst hk
    have hstep : (f a).Halts s (stop.finished, u) := h.stop_iff.2 hstops
    refine (iterate_equiv_onTurn f a s _).2 ?_
    cases stop with
    | completed | failed _ => exact (halts_bind_ok_iff hstep).2 (halts_pure_iff.2 rfl)
    | panicked _ => exact (halts_bind_error_iff hstep).2 rfl
  | @more _ k l _ hturn _ ih =>
    subst hk
    obtain ⟨a', t, rfl⟩ := h.exists_position l
    have hstep : (f a).Halts s (.ok (.again a'), t) := h.turn_iff.2 hturn
    exact (iterate_equiv_onTurn f a s _).2 ((halts_bind_ok_iff hstep).2 (ih hstops rfl))

/-- An iteration that follows a course ends exactly as the course does. -/
theorem Course.halts_iff (h : Course f position turn stops) {a : α} {s : σ}
    {r : Except Panic (Except ε Unit) × σ} :
    (iterate f a).Halts s r ↔
      ∃ stop u, Ends turn stops (position a s) stop u ∧ r = (stop.tried, u) := by
  constructor
  · exact h.ends_of_halts
  · intro hends
    obtain ⟨stop, u, hends, rfl⟩ := hends
    exact h.halts_of_ends hends

end

/-! ## Steps that look at a part's answer -/

/-- Goes on with a success; an error is the result of the loop. -/
def unlessError (g : β → Computation σ (Turn α (Except ε γ))) :
    Except ε β → Computation σ (Turn α (Except ε γ))
  | .ok b => g b
  | .error error => pure (.finish (.error error))

section

variable {x : Computation σ (Except ε β)} {g : β → Computation σ (Turn α (Except ε Unit))}
  {s u : σ}

/-- Another turn is asked for only after a success. -/
theorem halts_unlessError_again_iff {a : α} :
    (x >>= unlessError g).Halts s (.ok (.again a), u) ↔
      ∃ b t, x.Halts s (.ok (.ok b), t) ∧ (g b).Halts t (.ok (.again a), u) := by
  rw [halts_bind_iff]
  constructor
  · intro h
    rcases h with ⟨p, t, -, hr⟩ | ⟨_ | b, t, hx, hg⟩
    · exact nomatch hr
    · exact nomatch halts_pure_iff.1 hg
    · exact ⟨b, t, hx, hg⟩
  · intro h
    obtain ⟨b, t, hx, hg⟩ := h
    exact .inr ⟨.ok b, t, hx, hg⟩

/-- The step ends the loop if the part does, or if the rest of the step does after a success. -/
theorem halts_unlessError_finished_iff {stop : Stop ε} :
    (x >>= unlessError g).Halts s (stop.finished, u) ↔
      Breaks x s stop u ∨ ∃ b t, x.Halts s (.ok (.ok b), t) ∧ (g b).Halts t (stop.finished, u) := by
  rw [halts_bind_iff]
  constructor
  · intro h
    rcases h with ⟨p, t, hx, hr⟩ | ⟨error | b, t, hx, hg⟩
    · cases stop <;> cases hr
      exact .inl (.panicked hx)
    · cases stop <;> cases halts_pure_iff.1 hg
      exact .inl (.failed hx)
    · exact .inr ⟨b, t, hx, hg⟩
  · intro h
    rcases h with ⟨hx | hx⟩ | ⟨b, t, hx, hg⟩
    · exact .inr ⟨_, u, hx, halts_pure_iff.2 rfl⟩
    · exact .inl ⟨_, u, hx, rfl⟩
    · exact .inr ⟨.ok b, t, hx, hg⟩

/-- A part that is all of a turn asks for the next one exactly if it succeeds. -/
theorem halts_turn_again_iff {a next : α} :
    (x >>= unlessError fun _ => pure (.again next : Turn α (Except ε Unit))).Halts s
      (.ok (.again a), u) ↔ a = next ∧ ∃ b, x.Halts s (.ok (.ok b), u) := by
  rw [halts_unlessError_again_iff]
  constructor
  · intro h
    obtain ⟨b, t, hx, hend⟩ := h
    cases halts_pure_iff.1 hend
    exact ⟨rfl, b, hx⟩
  · intro h
    obtain ⟨rfl, b, hx⟩ := h
    exact ⟨b, u, hx, halts_pure_iff.2 rfl⟩

/-- A part that is all of a turn ends the loop exactly if it stops it. -/
theorem halts_turn_finished_iff {next : α} {stop : Stop ε} :
    (x >>= unlessError fun _ => pure (.again next : Turn α (Except ε Unit))).Halts s
      (stop.finished, u) ↔ Breaks x s stop u := by
  rw [halts_unlessError_finished_iff]
  constructor
  · intro h
    rcases h with hx | ⟨b, t, -, hend⟩
    · exact hx
    · cases stop <;> exact nomatch halts_pure_iff.1 hend
  · exact .inl

end

end Computation

namespace Effect

open Deferred.Computation

/-! ## The courses of the loops -/

/-- Going on unless there was an error is the same as a continuation that errors skip. -/
theorem bind_againUnlessError (x : Computation σ (Except ε β)) (next : α) :
    (x >>= fun r => Pure.pure (againUnlessError next r : Turn α (Except ε γ))) =
      x >>= unlessError fun _ => Pure.pure (.again next) := by
  refine congrArg (x >>= ·) (funext fun r => ?_)
  cases r <;> rfl

/-- Entering a turn makes its check, and an error skips the rest. -/
theorem enter_tryUntilStep (c : Effect σ (Except ε Bool)) (i : Unit) :
    enter (tryUntilStep c i) =
      c.invoke >>= unlessError fun holds =>
        Pure.pure (if holds then .finish (.ok ()) else .again ()) := by
  refine congrArg (c.invoke >>= ·) (funext fun r => ?_)
  match r with
  | .ok _ | .error _ => rfl

/-- Entering a turn makes its check and then runs its body, and an error of either skips the
rest. -/
theorem enter_tryWhileStep (c : Effect σ (Except ε Bool)) (b : Effect σ (Except ε α)) (i : Unit) :
    enter (tryWhileStep c b i) =
      c.invoke >>= unlessError fun holds =>
        if holds then b.invoke >>= unlessError fun _ => Pure.pure (.again ())
        else Pure.pure (.finish (.ok ())) := by
  refine congrArg (c.invoke >>= ·) (funext fun r => ?_)
  match r with
  | .ok true => exact bind_againUnlessError b.invoke ()
  | .ok false | .error _ => rfl

/-- Entering a turn runs the item, and an error skips the rest of the items. -/
theorem enter_tryItemStep_cons (action : α → Computation σ (Effect σ (Except ε β))) (a : α)
    (rest : List α) :
    enter (tryItemStep action (a :: rest)) =
      enter (action a) >>= unlessError fun _ => Pure.pure (.again rest) :=
  (enter_map (action a) _).trans (bind_againUnlessError _ rest)

/-- The turns of this loop are checks that did not hold. -/
theorem course_tryUntilStep (c : Effect σ (Except ε Bool)) :
    Course (fun i => enter (tryUntilStep c i)) (fun _ s => s) (TryUntilTurn c.invoke)
      (UntilStops c.invoke) where
  turn_iff := by
    intro i j s u
    rw [enter_tryUntilStep, halts_unlessError_again_iff]
    constructor
    · intro h
      obtain ⟨holds, t, hc, hend⟩ := h
      cases holds <;> cases halts_pure_iff.1 hend
      exact hc
    · intro hc
      exact ⟨false, u, hc, halts_pure_iff.2 rfl⟩
  stop_iff := by
    intro i s u stop
    rw [enter_tryUntilStep, halts_unlessError_finished_iff]
    constructor
    · intro h
      rcases h with hc | ⟨holds, t, hc, hend⟩
      · exact .check hc
      · cases holds <;> cases stop <;> cases halts_pure_iff.1 hend
        exact .completed hc
    · intro h
      rcases h with hc | hc
      · exact .inr ⟨true, u, hc, halts_pure_iff.2 rfl⟩
      · exact .inl hc
  exists_position s := ⟨(), s, rfl⟩

/-- The turns of this loop are checks that held, each with a body that succeeded. -/
theorem course_tryWhileStep (c : Effect σ (Except ε Bool)) (b : Effect σ (Except ε α)) :
    Course (fun i => enter (tryWhileStep c b i)) (fun _ s => s) (TryWhileTurn c.invoke b.invoke)
      (WhileStops c.invoke b.invoke) where
  turn_iff := by
    intro i j s u
    rw [enter_tryWhileStep, halts_unlessError_again_iff]
    constructor
    · intro h
      obtain ⟨holds, t, hc, hend⟩ := h
      cases holds with
      | false => exact nomatch halts_pure_iff.1 hend
      | true =>
        obtain ⟨-, a, hb⟩ := halts_turn_again_iff.1 hend
        exact ⟨t, a, hc, hb⟩
    · intro h
      obtain ⟨t, a, hc, hb⟩ := h
      exact ⟨true, t, hc, halts_turn_again_iff.2 ⟨rfl, a, hb⟩⟩
  stop_iff := by
    intro i s u stop
    rw [enter_tryWhileStep, halts_unlessError_finished_iff]
    constructor
    · intro h
      rcases h with hc | ⟨holds, t, hc, hend⟩
      · exact .check hc
      · cases holds with
        | false =>
          cases stop <;> cases halts_pure_iff.1 hend
          exact .completed hc
        | true => exact .body hc (halts_turn_finished_iff.1 hend)
    · intro h
      rcases h with hc | hc | ⟨hc, hb⟩
      · exact .inr ⟨false, u, hc, halts_pure_iff.2 rfl⟩
      · exact .inl hc
      · exact .inr ⟨true, _, hc, halts_turn_finished_iff.2 hb⟩
  exists_position s := ⟨(), s, rfl⟩

/-- The turns of this loop are numbers below the bound whose effect succeeded. -/
theorem course_tryRangeStep (high : Fixed .i32)
    (step : Fixed .i32 → Computation σ (Effect σ (Except ε α))) :
    Course (fun i => enter (tryRangeStep high step i)) Prod.mk
      (TryRangeTurn high fun i => enter (step i)) (RangeStops high fun i => enter (step i)) where
  turn_iff := by
    intro i j s u
    by_cases hlt : i.val < high.val
    · obtain ⟨next, hnext⟩ := exists_next hlt
      rw [enter_tryRangeStep_of_lt hlt hnext, bind_againUnlessError, halts_turn_again_iff]
      constructor
      · intro h
        obtain ⟨rfl, a, hf⟩ := h
        exact ⟨hlt, hnext, a, hf⟩
      · intro h
        obtain ⟨-, hj, a, hf⟩ := h
        exact ⟨Fixed.ext (hj.trans hnext.symm), a, hf⟩
    · rw [enter_tryRangeStep_of_le (Int.not_lt.1 hlt)]
      constructor
      · intro hend
        exact nomatch halts_pure_iff.1 hend
      · intro h
        obtain ⟨hlt', -⟩ := h
        exact absurd hlt' hlt
  stop_iff := by
    intro i s u stop
    by_cases hlt : i.val < high.val
    · obtain ⟨next, hnext⟩ := exists_next hlt
      rw [enter_tryRangeStep_of_lt hlt hnext, bind_againUnlessError, halts_turn_finished_iff]
      constructor
      · intro hf
        exact .step hlt hf
      · intro h
        rcases h with hle | ⟨-, hf⟩
        · exact absurd hlt (Int.not_lt.2 hle)
        · exact hf
    · rw [enter_tryRangeStep_of_le (Int.not_lt.1 hlt)]
      constructor
      · intro hend
        cases stop <;> cases halts_pure_iff.1 hend
        exact .completed (Int.not_lt.1 hlt)
      · intro h
        rcases h with - | ⟨hlt', -⟩
        · exact halts_pure_iff.2 rfl
        · exact absurd hlt' hlt
  exists_position k := ⟨k.1, k.2, rfl⟩

/-- The turns of this loop are items whose effect succeeded. -/
theorem course_tryItemStep (action : α → Computation σ (Effect σ (Except ε β))) :
    Course (fun items => enter (tryItemStep action items)) Prod.mk
      (TryItemTurn fun a => enter (action a)) (ItemStops fun a => enter (action a)) where
  turn_iff := by
    intro items rest s u
    cases items with
    | nil =>
      constructor
      · intro hend
        exact nomatch halts_pure_iff.1 hend
      · intro h
        obtain ⟨a, b, hitems, -⟩ := h
        exact nomatch hitems
    | cons a items =>
      rw [enter_tryItemStep_cons, halts_turn_again_iff]
      constructor
      · intro h
        obtain ⟨rfl, b, hf⟩ := h
        exact ⟨a, b, rfl, hf⟩
      · intro h
        obtain ⟨_, b, hitems, hf⟩ := h
        cases hitems
        exact ⟨rfl, b, hf⟩
  stop_iff := by
    intro items s u stop
    cases items with
    | nil =>
      constructor
      · intro hend
        cases stop <;> cases halts_pure_iff.1 hend
        exact .completed
      · intro h
        cases h
        exact halts_pure_iff.2 rfl
    | cons a items =>
      rw [enter_tryItemStep_cons, halts_turn_finished_iff]
      constructor
      · intro hf
        exact .action hf
      · intro h
        rcases h with _ | hf
        exact hf
  exists_position k := ⟨k.1, k.2, rfl⟩

end Effect

end Deferred
