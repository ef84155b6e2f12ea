/-!
# Panics

A computation that cannot go on panics. The panic carries a payload to whoever catches it:
a text fixed in the program, a text made while running, or a bare number. Only the guarded
invocation of an effect catches, and what it reports is an `InvocationError`.
-/

namespace Deferred

/-- What a panic carries. -/
inductive Panic where
  /-- A text that stands in the program. -/
  | literal (text : String)
  /-- A text made while the program ran. -/
  | formatted (text : String)
  /-- A number, which says nothing in words. -/
  | code (number : Int)
deriving DecidableEq, Repr

/-- The words of a payload, if it has any. -/
def Panic.text? : Panic → Option String
  | .literal text => some text
  | .formatted text => some text
  | .code _ => none

/-- What a guarded invocation reports of the panic that it caught. -/
structure InvocationError where
  message : String
deriving DecidableEq, Repr

namespace InvocationError

/-- The message is the payload's text; a payload without words gets a fixed one. -/
def ofPanic (p : Panic) : InvocationError :=
  ⟨p.text?.getD "Unknown panic"⟩

/-- The sentence shown to the user. -/
def display (e : InvocationError) : String :=
  "effect invocation panicked: " ++ e.message

instance : ToString InvocationError := ⟨display⟩

end InvocationError

end Deferred
