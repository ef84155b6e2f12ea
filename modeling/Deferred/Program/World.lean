import Deferred.Event
import Deferred.Program.Bindings
import Deferred.Program.Value

/-!
# The world of programs

The state that programs touch: a trace that they can only add to, named cells, the positions
of scripts, and the names of the effects defined so far. An effect is named by a handle, and
the context of a running program knows how to invoke what a handle stands for.
-/

namespace Deferred

/-- An entry of the trace: a value that the program recorded, or a reported event. -/
inductive Entry where
  | value (v : Value)
  | event (e : Event)
deriving DecidableEq

/-- The place of a defined effect. -/
abbrev Handle := Nat

/-- The place of a script's position. -/
abbrev ScriptId := Nat

/-- What programs see and change. -/
structure World where
  trace : Array Entry
  cells : Bindings Value
  /-- For every script, how many items of it have been taken. -/
  positions : Array Nat
  /-- The effects defined so far, by name. -/
  names : Bindings Handle
  /-- Whether events go into the trace. -/
  listening : Bool

namespace World

/-- Nothing recorded, stored, begun or defined. -/
def initial (listening : Bool) : World where
  trace := #[]
  cells := []
  positions := #[]
  names := []
  listening := listening

/-- Adds an entry to the end of the trace. -/
def push (w : World) (entry : Entry) : World :=
  { w with trace := w.trace.push entry }

instance : Tracer World where
  emit e w := if w.listening then w.push (.event e) else w

end World

/-- The state of a running program: its world, and how a handle is invoked in a world. -/
structure Context where
  world : World
  call : Handle → Computation World Value

namespace Context

/-- Changes the world alone. -/
def mapWorld (f : World → World) (c : Context) : Context :=
  { c with world := f c.world }

instance : Tracer Context where
  emit e := mapWorld (Tracer.emit e)

end Context

/-- Computations of running programs. -/
abbrev Action (α : Type) := Computation Context α

namespace Action

/-- The world as it is now. -/
def world : Action World := return (← get).world

/-- Changes the world. -/
def changeWorld (f : World → World) : Action Unit := modify (Context.mapWorld f)

/-- Ends with the panic of a fault. -/
def fault {α : Type} (f : Fault) : Action α := throw f.panic

/-- Adds the value to the trace. -/
def record (v : Value) : Action Unit :=
  changeWorld fun w => w.push (.value v)

/-- Adds the value to the trace, unless it is the unit value. -/
def recordUnlessUnit : Value → Action Unit
  | .unit => return ()
  | v => record v

/-- The value of the cell. -/
def readCell (name : String) : Action Value := do
  match (← world).cells.find? name with
  | some v => return v
  | none => fault (.unknownCell name)

/-- Stores a value in the cell. -/
def writeCell (name : String) (v : Value) : Action Unit :=
  changeWorld fun w => { w with cells := w.cells.put name v }

/-- A script that begins at its first item. -/
def newScript : Action ScriptId := do
  let id := (← world).positions.size
  changeWorld fun w => { w with positions := w.positions.push 0 }
  return id

/-- Takes the next item of the script and records it beside the script's label. -/
def takeItem (id : ScriptId) (label : Value) (items : List Value) : Action Value := do
  let position := (← world).positions.getD id 0
  match items[position]? with
  | none => fault .scriptExhausted
  | some item =>
    changeWorld fun w => { w with positions := w.positions.setIfInBounds id (position + 1) }
    unless label = .unit do record (.pair label item)
    return item

/-- The handle that the name stands for now. -/
def resolve (name : String) : Action Handle := do
  match (← world).names.find? name with
  | some handle => return handle
  | none => fault (.unknownEffect name)

/-- Invokes what the handle stands for. -/
def invoke (handle : Handle) : Action Value := do
  let context ← get
  (context.call handle).onState Context.world fun c w => { c with world := w }

end Action

end Deferred
