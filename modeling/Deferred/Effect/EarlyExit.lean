import Deferred.Computation.EarlyExit
import Deferred.Effect.Loop

/-!
# Effects that may yield an error

An effect that yields an `Except` value can fail without a panic. Sequencing and loops over
such effects end at the first error value, which becomes their own; it never turns into
success.
-/

namespace Deferred

variable {σ α β ε : Type}

namespace Effect

/-- Goes on with the effect that `f` makes of a success; an error is the result. -/
def andThenOk (e : Effect σ (Except ε α)) (f : α → Computation σ (Effect σ (Except ε β))) :
    Effect σ (Except ε β) :=
  ⟨do
    match ← e.invoke with
    | .ok a => enter (f a)
    | .error error => return .error error⟩

/-- Applies `f` to a success; an error is the result. -/
def mapOk (e : Effect σ (Except ε α)) (f : α → Computation σ β) : Effect σ (Except ε β) :=
  e.map fun
    | .ok a => return .ok (← f a)
    | .error error => return .error error

/-- Invokes `condition` until it yields `true` or an error. -/
def tryUntil [Tracer σ] (condition : Effect σ (Except ε Bool)) : Effect σ (Except ε Unit) :=
  ⟨do
    emit (.loopStarted true .untilTrue)
    Computation.tryUntil condition.invoke⟩

/-- Invokes `condition` and `body`, alternately, while `condition` yields `true` and neither
yields an error. -/
def tryWhile [Tracer σ] (condition : Effect σ (Except ε Bool)) (body : Effect σ (Except ε α)) :
    Effect σ (Except ε Unit) :=
  ⟨do
    emit (.loopStarted true .whileTrue)
    Computation.tryWhile condition.invoke body.invoke⟩

/-- Makes and invokes the step's effect for every index from `low` up to and without `high`,
as long as none yields an error. -/
def tryForRange [Tracer σ] (low high : Fixed .i32)
    (step : Fixed .i32 → Computation σ (Effect σ (Except ε α))) : Effect σ (Except ε Unit) :=
  ⟨do
    emit (.loopStarted true (.forRange low.val high.val))
    Computation.tryForRange low high fun i => enter (step i)⟩

/-- Makes and invokes the action's effect for every item, in order, as long as none yields an
error. -/
def tryForItems [Tracer σ] (items : List α)
    (action : α → Computation σ (Effect σ (Except ε β))) : Effect σ (Except ε Unit) :=
  ⟨do
    emit (.loopStarted true (.forEach items.length))
    Computation.tryForEach items fun a => enter (action a)⟩

/-- Takes all items of the source now, and loops over them later. -/
def tryForEach [Tracer σ] (source : List (Computation σ α))
    (action : α → Computation σ (Effect σ (Except ε β))) :
    Computation σ (Effect σ (Except ε Unit)) := do
  let items ← source.mapM id
  return tryForItems items action

end Effect

end Deferred
