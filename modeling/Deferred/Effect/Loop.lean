import Deferred.Computation.Loop
import Deferred.Effect

/-!
# Loops of effects

Each loop is one effect: every invocation reports its start and runs the loop from its
beginning. `forever` and `iterate` report nothing. The items of `forEach` are taken when the
loop is made, so no later change to their source reaches it.
-/

namespace Deferred

variable {σ α β : Type}

namespace Effect

/-- Makes an effect and invokes it. -/
@[inline] def enter (make : Computation σ (Effect σ α)) : Computation σ α := do
  let e ← make
  e.invoke

/-- Invokes `condition` until it yields `true`. -/
def untilTrue [Tracer σ] (condition : Effect σ Bool) : Effect σ Unit :=
  ⟨do
    emit (.loopStarted false .untilTrue)
    Computation.untilTrue condition.invoke⟩

/-- Invokes `condition` and `body`, alternately, while `condition` yields `true`. -/
def whileTrue [Tracer σ] (condition : Effect σ Bool) (body : Effect σ α) : Effect σ Unit :=
  ⟨do
    emit (.loopStarted false .whileTrue)
    Computation.whileTrue condition.invoke body.invoke⟩

/-- Makes and invokes the step's effect for every index from `low` up to and without
`high`. -/
def forRange [Tracer σ] (low high : Fixed .i32)
    (step : Fixed .i32 → Computation σ (Effect σ α)) : Effect σ Unit :=
  ⟨do
    emit (.loopStarted false (.forRange low.val high.val))
    Computation.forRange low high fun i => enter (step i)⟩

/-- Makes and invokes the action's effect for every item, in order. -/
def forItems [Tracer σ] (items : List α) (action : α → Computation σ (Effect σ β)) :
    Effect σ Unit :=
  ⟨do
    emit (.loopStarted false (.forEach items.length))
    Computation.forEach items fun a => enter (action a)⟩

/-- Takes all items of the source now, and loops over them later. -/
def forEach [Tracer σ] (source : List (Computation σ α))
    (action : α → Computation σ (Effect σ β)) : Computation σ (Effect σ Unit) := do
  let items ← source.mapM id
  return forItems items action

/-- The effect itself if the condition holds, else one that does nothing. -/
def when (condition : Bool) (e : Effect σ Unit) : Effect σ Unit :=
  if condition then e else unit

/-- The effect itself if the condition fails, else one that does nothing. -/
def whenNot (condition : Bool) (e : Effect σ Unit) : Effect σ Unit :=
  when (!condition) e

/-- Invokes `e` again and again, until it panics. -/
def forever (e : Effect σ α) : Effect σ β :=
  ⟨Computation.forever e.invoke⟩

/-- Makes and invokes the step's effect from state to state, from `a` on, until a step
finishes. -/
def iterate (a : α) (step : α → Computation σ (Effect σ (Turn α β))) : Effect σ β :=
  ⟨Computation.iterate (fun a => enter (step a)) a⟩

end Effect

end Deferred
