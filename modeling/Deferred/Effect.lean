import Deferred.Event

/-!
# Effects

An effect is a computation kept for later. Making, sharing or passing one runs nothing; every
invocation runs all of it again, on the state that it finds. Combinators build effects from
effects and from functions, and those functions are applied when the effect is invoked. A
function that has to produce an effect is itself a computation, because it may touch the state
before it has the effect ready.
-/

namespace Deferred

variable {σ α β γ : Type}

/-- A computation kept for later. -/
structure Effect (σ α : Type) where
  invoke : Computation σ α

namespace Effect

/-! ## Making effects -/

/-- Yields the value. -/
def pure (a : α) : Effect σ α := ⟨Pure.pure a⟩

/-- Yields the only value of `Unit`. -/
def unit : Effect σ Unit := pure ()

/-- Makes the effect anew in every invocation, then invokes it. -/
def defer (make : Computation σ (Effect σ α)) : Effect σ α :=
  ⟨do
    let e ← make
    e.invoke⟩

/-- An effect shows nothing of what it will do. -/
instance : ToString (Effect σ α) := ⟨fun _ => "Effect(<deferred>)"⟩

/-! ## Sequencing -/

/-- Invokes `e`, then the effect that `f` makes of its value. -/
def bind (e : Effect σ α) (f : α → Computation σ (Effect σ β)) : Effect σ β :=
  ⟨do
    let a ← e.invoke
    let next ← f a
    next.invoke⟩

/-- Invokes `e` and applies `f` to its value. -/
def map (e : Effect σ α) (f : α → Computation σ β) : Effect σ β :=
  ⟨do
    let a ← e.invoke
    f a⟩

/-- Invokes `e`, drops its value, and invokes `next`. -/
def andThen (e : Effect σ α) (next : Effect σ β) : Effect σ β :=
  e.bind fun _ => Pure.pure next

/-- Invokes `a`, then `b`, and applies `f` to both values. -/
def map2 (a : Effect σ α) (b : Effect σ β) (f : α → β → Computation σ γ) : Effect σ γ :=
  ⟨do
    let x ← a.invoke
    let y ← b.invoke
    f x y⟩

/-- Invokes `a`, then `b`, and pairs their values. -/
def product (a : Effect σ α) (b : Effect σ β) : Effect σ (α × β) :=
  a.map2 b fun x y => Pure.pure (x, y)

/-- Invokes `functions`, then `e`, and applies the function to the value. -/
def apply (functions : Effect σ (α → Computation σ β)) (e : Effect σ α) : Effect σ β :=
  ⟨do
    let f ← functions.invoke
    let a ← e.invoke
    f a⟩

/-- Invokes `e` and drops its value. -/
def void (e : Effect σ α) : Effect σ Unit := e.map fun _ => Pure.pure ()

/-- Invokes `e` and yields `b` in place of its value. -/
def replace (e : Effect σ α) (b : β) : Effect σ β := e.map fun _ => Pure.pure b

/-! ## Catching -/

/-- Invokes `e` and turns a panic into an error, which is reported as an event. What `e` did
before the panic stays done. -/
def invokeGuarded [Tracer σ] (e : Effect σ α) : Computation σ (Except InvocationError α) := do
  match ← e.invoke.attempt with
  | .ok a => return .ok a
  | .error p =>
    let error := InvocationError.ofPanic p
    emit (.invocationFailed error)
    return .error error

end Effect

end Deferred
