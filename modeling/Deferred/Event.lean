import Deferred.Computation

/-!
# Events

Loops report that an invocation of them started, and a guarded invocation reports the panic
that it caught. A state that listens to these events is a `Tracer`; what it does with an event
is its own business, and no computation can ask it.
-/

namespace Deferred

variable {σ : Type}

/-- What a loop tells of itself when an invocation of it starts. -/
inductive LoopStart where
  | untilTrue
  | whileTrue
  | forRange (low high : Int)
  | forEach (length : Nat)
deriving DecidableEq, Repr

/-- The loop's name, the word that it started, and its fixed bounds. -/
def LoopStart.describe : LoopStart → String
  | .untilTrue => "until_e started"
  | .whileTrue => "while_e started"
  | .forRange low high => "for_e started low=" ++ toString low ++ " high=" ++ toString high
  | .forEach length => "foreach_e started length=" ++ toString length

/-- Something worth reporting that no value shows. -/
inductive Event where
  /-- An invocation of a loop starts; `fallible` loops stop at the first error value. -/
  | loopStarted (fallible : Bool) (loop : LoopStart)
  /-- A guarded invocation caught a panic. -/
  | invocationFailed (error : InvocationError)
deriving DecidableEq, Repr

namespace Event

/-- The line of a report: level, message, then the fields. -/
def render : Event → String
  | .loopStarted false loop => "TRACE " ++ loop.describe
  | .loopStarted true loop => "TRACE try_" ++ loop.describe
  | .invocationFailed error => "WARN effect invocation failed error=" ++ error.display

end Event

/-- A state that is told of events. -/
class Tracer (σ : Type) where
  emit : Event → σ → σ

/-- Tells the state of an event. -/
@[inline] def emit [Tracer σ] (event : Event) : Computation σ Unit :=
  .update fun s => ((), Tracer.emit event s)

end Deferred
