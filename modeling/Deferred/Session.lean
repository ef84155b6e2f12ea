import Deferred.Program.Build

/-!
# Sessions

A session defines effects under names and invokes them, one command after the other. Effects
that were defined stay where they are; a name is a handle on one of them, and cloning gives a
second name to the same handle. An effect that refers to a name resolves it when it is built.

A session is itself the state of a computation. Handles may lead to effects that lead to
handles again, and `depth` bounds how far such a chain of calls is followed; a deeper call has
not ended.
-/

namespace Deferred

/-- The state of a session. -/
structure Session where
  world : World
  /-- The effects defined so far; a handle is a place in this array. -/
  defined : Array (Effect Context Value)

/-- What a session can be told to do. -/
inductive Command where
  /-- Builds a term and names the effect. -/
  | define (name : String) (e : Term .deferred)
  | run (name : String)
  /-- Runs with panics caught. -/
  | guard (name : String)
  /-- Shows the effect itself. -/
  | inspect (name : String)
  /-- Gives an effect a second name. -/
  | clone (name copy : String)
  /-- Forgets a name. -/
  | drop (name : String)
  | setCell (cell : String) (x : Expr)

/-- What came of a command. -/
inductive Outcome where
  | built
  | value (v : Value)
  | guarded (r : Except InvocationError Value)
  | shown (text : String)
  | missing (name : String)
  | dropped (wasThere : Bool)
  | stored
  | panicked (p : Panic)

/-- What a command shows: its outcome, the trace since the last report, and the cells after it. -/
structure Report where
  outcome : Outcome
  trace : Array Entry
  cells : Bindings Value

namespace Session

variable {α : Type}

/-- Invokes what a handle stands for. A handle on nothing does not end, and neither does a call
that is too deep. -/
def call (defined : Array (Effect Context Value)) :
    (depth : Nat) → Handle → Computation World Value
  | 0, _ => .never
  | depth + 1, handle =>
    match defined[handle]? with
    | none => .never
    | some e => e.invoke.onState (⟨·, call defined depth⟩) fun _ context => context.world

/-- Runs an action of a program in the session's world. -/
def perform (depth : Nat) (action : Action α) : Computation Session α :=
  action.onState (fun s => ⟨s.world, call s.defined depth⟩) fun s context =>
    { s with world := context.world }

/-- The effect that the name stands for. -/
def find? (s : Session) (name : String) : Option (Effect Context Value) := do
  s.defined[← s.world.names.find? name]?

/-- Makes the name stand for what the handle does. -/
def assign (name : String) (handle : Handle) (s : Session) : Session :=
  { s with world := { s.world with names := s.world.names.put name handle } }

/-- Adds an effect and names it. -/
def define (name : String) (e : Effect Context Value) (s : Session) : Session :=
  { s with defined := s.defined.push e }.assign name s.defined.size

/-- Does something with the effect that the name stands for, if there is one. -/
def withEffect (name : String)
    (use : Effect Context Value → Computation Session Outcome) : Computation Session Outcome := do
  match (← get).find? name with
  | some e => use e
  | none => return .missing name

/-- Does what the command says. A panic leaves the names and the effects as they were. -/
def execute (depth : Nat) : Command → Computation Session Outcome
  | .define name e => do
    let e ← perform depth (e.build [])
    modify (define name e)
    return .built
  | .run name => withEffect name fun e => return .value (← perform depth e.invoke)
  | .guard name => withEffect name fun e => return .guarded (← perform depth e.invokeGuarded)
  | .inspect name => withEffect name fun e => return .shown (toString e)
  | .clone name copy => do
    match (← get).world.names.find? name with
    | some handle =>
      modify (assign copy handle)
      return .built
    | none => return .missing name
  | .drop name => do
    let s ← get
    set { s with world := { s.world with names := s.world.names.forget name } }
    return .dropped (s.world.names.find? name).isSome
  | .setCell cell x => do
    perform depth do
      let v ← x.eval []
      Action.writeCell cell v
    return .stored

/-- Empties the trace. -/
def clearTrace (s : Session) : Session :=
  { s with world := { s.world with trace := #[] } }

/-- Executes a command and reports on it; what has been reported leaves the trace. A panic is
an outcome like others. -/
def step (depth : Nat) (command : Command) : Computation Session Report := do
  let outcome : Outcome ← do
    match ← (execute depth command).attempt with
    | .ok outcome => pure outcome
    | .error p => pure (.panicked p)
  let world := (← get).world
  modify clearTrace
  return ⟨outcome, world.trace, world.cells⟩

/-- The session before its first command, with the cells' values evaluated in order. What they
record waits in the trace for the first report. -/
def start (listening : Bool) (cells : Bindings Expr) : Computation Session Unit := do
  set (⟨World.initial listening, #[]⟩ : Session)
  cells.forM fun (cell, x) => perform 0 do
    let v ← x.eval []
    Action.writeCell cell v

/-- The reports on all commands, in order. -/
def transcript (depth : Nat) (listening : Bool) (cells : Bindings Expr)
    (commands : List Command) : Computation Session (List Report) := do
  start listening cells
  commands.mapM (step depth)

/-- Builds a term that runs at once, in an empty world, and reports on it. -/
def evaluate (e : Term .immediate) : Computation Session Report := do
  start false []
  let outcome : Outcome ← do
    match ← (perform 0 (e.build [])).attempt with
    | .ok result => pure (.value result.value)
    | .error p => pure (.panicked p)
  let world := (← get).world
  return ⟨outcome, world.trace, world.cells⟩

/-- Runs within a budget, from a session in which nothing has happened. -/
def runFresh (budget : Nat) (c : Computation Session α) : Option (Except Panic α) :=
  (c.run budget ⟨World.initial false, #[]⟩).map Prod.fst

end Session

end Deferred
