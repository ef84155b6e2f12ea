import Deferred.Effect.EarlyExit
import Deferred.Effect.Pointwise
import Deferred.Program.Term
import Deferred.Sequencing

/-!
# Building terms

`Term.build` makes what a term describes. Plain arguments are evaluated and sub-terms built in
the order in which they stand; function bodies are evaluated or built when the function is
applied. Building an effect invokes nothing; building a value of mode `immediate` is running
it.
-/

namespace Deferred

/-- What terms of a mode build, for results of any type. -/
abbrev Mode.Carrier : Mode → Type → Type
  | .deferred => Effect Context
  | .immediate => Identity

instance : (mode : Mode) → Sequencing Context mode.Carrier
  | .deferred => inferInstanceAs (Sequencing Context (Effect Context))
  | .immediate => inferInstanceAs (Sequencing Context Identity)

instance {α : Type} [Monoid α] : (mode : Mode) → Monoid (mode.Carrier α)
  | .deferred => inferInstanceAs (Monoid (Effect Context α))
  | .immediate => inferInstanceAs (Monoid (Identity α))

/-! ## Readers and writers -/

namespace Value

/-- A result is a value tagged as a success or as an error. -/
def asResult : Value → Except Panic (Except Value Value)
  | .tagged .ok v => .ok (.ok v)
  | .tagged .err v => .ok (.error v)
  | _ => mismatch "result"

/-- A fallible condition is a result whose success is a boolean. -/
def asCondition (v : Value) : Except Panic (Except Value Bool) := do
  match ← v.asResult with
  | .ok holds => return .ok (← holds.asBool "bool")
  | .error error => return .error error

/-- A step's answer is a value tagged as the next state or as the result. -/
def asTurn : Value → Except Panic (Turn Value Value)
  | .tagged .loop v => .ok (.again v)
  | .tagged .done v => .ok (.finish v)
  | _ => mismatch "step"

/-- Writes a result. -/
def ofResult : Except Value Value → Value
  | .ok v => .tagged .ok v
  | .error error => .tagged .err error

/-- Writes the result of a guarded invocation. -/
def ofGuarded : Except InvocationError Value → Value
  | .ok v => .tagged .ok v
  | .error error => .tagged .err (.str error.message)

end Value

namespace Effect

variable {α : Type}

/-- Reads the value of every invocation. -/
def reading (e : Effect Context Value) (read : Value → Except Panic α) : Effect Context α :=
  e.map fun v => read v

/-- Writes the value of every invocation. -/
def writing (e : Effect Context α) (write : α → Value) : Effect Context Value :=
  e.map fun a => return write a

end Effect

/-- Computes with numbers of format `k` that effects yield. -/
def NumOp.apply {k : IntType} (a b : Effect Context (Fixed k)) :
    NumOp → Effect Context (Fixed k)
  | .add => a + b
  | .sub => a - b
  | .mul => a * b

/-- The steps that make the items of the source. -/
def Source.steps (env : Env) : Source → Action (List (Action Value))
  | .items list => do
    let items ← (← list.eval env).asList "foreach"
    return items.map fun item => return item
  | .recorded label list => do
    let label ← label.eval env
    let items ← (← list.eval env).asList "foreach"
    return items.map fun item => do
      Action.record (.pair label item)
      return item

open Sequencing in
mutual

/-- Builds what the term describes. -/
def Term.build {mode : Mode} (env : Env) : Term mode → Action (mode.Carrier Value)
  | .mark x e => do
    Action.recordUnlessUnit (← x.eval env)
    e.build env
  | .letIn name x e => do
    let v ← x.eval env
    e.build (env.bind name v)
  | .cond test yes no => do
    let holds ← (← test.eval env).asBool "if"
    if holds then yes.build env else no.build env
  | .pure x => return Sequencing.pure Context (← x.eval env)
  | .map e name body => do
    let e ← e.build env
    map e fun v => body.eval (env.bind name v)
  | .map2 e d first second body => do
    let e ← e.build env
    let d ← d.build env
    map2 e d fun v w => body.eval ((env.bind first v).bind second w)
  | .bind e name body => do
    let e ← e.build env
    bind e fun v => body.build (env.bind name v)
  | .andThen e d => do
    let e ← e.build env
    let d ← d.build env
    andThen e d
  | .replace e x => do
    let e ← e.build env
    replace e (← x.eval env)
  | .void e => do
    let done ← void (← e.build env)
    map done fun _ => return .unit
  | .product e d => do
    let e ← e.build env
    let d ← d.build env
    let both ← product e d
    map both fun p => return .pair p.1 p.2
  | .applyFirst e d => do
    let e ← e.build env
    let d ← d.build env
    applyFirst e d
  | .applySecond e d => do
    let e ← e.build env
    let d ← d.build env
    applySecond e d
  | .apply e name arg body d => do
    let e ← e.build env
    let functions ← map e fun f => return fun v => body.eval ((env.bind name f).bind arg v)
    let d ← d.build env
    apply functions d
  | .mapViaBind e name body => do
    let e ← e.build env
    mapViaBind e fun v => body.eval (env.bind name v)
  | .applyViaBind e name arg body d => do
    let e ← e.build env
    let functions ← map e fun f => return fun v => body.eval ((env.bind name f).bind arg v)
    let d ← d.build env
    applyViaBind functions d
  | .combine shape e d => do
    let e ← map (← e.build env) fun v => shape.read v
    let d ← map (← d.build env) fun v => shape.read v
    let combined ← Semigroup.combine e d
    map combined fun a => return shape.write a
  | .appendViaBind shape e d => do
    let e ← map (← e.build env) fun v => shape.read v
    let d ← map (← d.build env) fun v => shape.read v
    let combined ← appendViaBind e d
    map combined fun a => return shape.write a
  | .combineN shape e count => do
    let e ← map (← e.build env) fun v => shape.read v
    let combined ← Semigroup.combineN e count
    map combined fun a => return shape.write a
  | .combineAll shape es => do
    let combined ← Monoid.combineAll (es.elements env shape)
    map combined fun a => return shape.write a
  | .reduceAll shape es => do
    match ← Semigroup.reduceAll (es.elements env shape) with
    | some combined => map combined fun a => return shape.write a
    | none => return Sequencing.pure Context (.str "none")
  | .empty shape => do
    let neutral : mode.Carrier shape.Elem := Monoid.empty
    map neutral fun a => return shape.write a
  | .emptyViaPure shape => do
    let neutral : mode.Carrier shape.Elem := emptyViaPure Context mode.Carrier
    map neutral fun a => return shape.write a
  | .here x => return ⟨← x.eval env⟩
  | .act x y => return ⟨do
      Action.recordUnlessUnit (← x.eval env)
      y.eval env⟩
  | .readCell cell => return ⟨Action.readCell cell⟩
  | .writeCell cell x => return ⟨do
      Action.writeCell cell (← x.eval env)
      return .unit⟩
  | .changeCell cell name body => return ⟨do
      let old ← Action.readCell cell
      let v ← body.eval (env.bind name old)
      Action.writeCell cell v
      return v⟩
  | .script label list => do
    let label ← label.eval env
    let items ← (← list.eval env).asList "script"
    let id ← Action.newScript
    return ⟨Action.takeItem id label items⟩
  | .fail kind x => return ⟨do
      let p ← kind.payload (← x.eval env)
      throw p⟩
  | .ref effect => do
    let handle ← Action.resolve effect
    return ⟨Action.invoke handle⟩
  | .clone e => e.build env
  | .unit => return Effect.unit.writing fun _ => .unit
  | .defer e => return .defer (e.build env)
  | .guarded e => do
    let e ← e.build env
    return ⟨do
      let r ← e.invokeGuarded
      return Value.ofGuarded r⟩
  | .mapTimes count e name body => do
    let e ← e.build env
    return Nat.repeat (fun e => e.map fun v => body.eval (env.bind name v)) count e
  | .bindTimes count e name body => do
    let e ← e.build env
    return Nat.repeat (fun e => e.bind fun v => body.build (env.bind name v)) count e
  | .block statements last => Statement.buildAll env (fun env => last.build env) statements
  | .numOp op k e d => do
    let e ← e.build env
    let d ← d.build env
    return (op.apply (e.reading (Value.asFixed k)) (d.reading (Value.asFixed k))).writing
      fun a => .int a.val
  | .neg k e => do
    let e ← e.build env
    return (-e.reading (Value.asFixed k)).writing fun a => .int a.val
  | .untilTrue condition => do
    let c ← condition.build env
    return (Effect.untilTrue (c.reading (Value.asBool "bool"))).writing fun _ => .unit
  | .whileTrue condition body => do
    let c ← condition.build env
    let b ← body.build env
    return (Effect.whileTrue (c.reading (Value.asBool "bool")) b).writing fun _ => .unit
  | .forRange low high name body => do
    let low ← (← low.eval env).asFixed .i32
    let high ← (← high.eval env).asFixed .i32
    return (Effect.forRange low high fun i => body.build (env.bind name (.int i.val))).writing
      fun _ => .unit
  | .forEach source name body => do
    let items ← source.steps env
    let e ← Effect.forEach items fun v => body.build (env.bind name v)
    return e.writing fun _ => .unit
  | .when test e => do
    let holds ← (← test.eval env).asBool "bool"
    let e ← e.build env
    return (Effect.when holds e.void).writing fun _ => .unit
  | .whenNot test e => do
    let holds ← (← test.eval env).asBool "bool"
    let e ← e.build env
    return (Effect.whenNot holds e.void).writing fun _ => .unit
  | .forever e => do
    let e ← e.build env
    return e.forever
  | .iterate x name body => do
    let v ← x.eval env
    return Effect.iterate v fun v => do
      let e ← body.build (env.bind name v)
      return e.reading Value.asTurn
  | .andThenOk e name body => do
    let e ← e.build env
    return ((e.reading Value.asResult).andThenOk fun v => do
      let d ← body.build (env.bind name v)
      return d.reading Value.asResult).writing Value.ofResult
  | .mapOk e name body => do
    let e ← e.build env
    return ((e.reading Value.asResult).mapOk fun v => body.eval (env.bind name v)).writing
      Value.ofResult
  | .tryUntil condition => do
    let c ← condition.build env
    return (Effect.tryUntil (c.reading Value.asCondition)).writing fun r =>
      Value.ofResult (r.map fun _ => .unit)
  | .tryWhile condition body => do
    let c ← condition.build env
    let b ← body.build env
    return (Effect.tryWhile (c.reading Value.asCondition) (b.reading Value.asResult)).writing
      fun r => Value.ofResult (r.map fun _ => .unit)
  | .tryForRange low high name body => do
    let low ← (← low.eval env).asFixed .i32
    let high ← (← high.eval env).asFixed .i32
    let e := Effect.tryForRange low high fun i => do
      let e ← body.build (env.bind name (.int i.val))
      return e.reading Value.asResult
    return e.writing fun r => Value.ofResult (r.map fun _ => .unit)
  | .tryForEach source name body => do
    let items ← source.steps env
    let e ← Effect.tryForEach items fun v => do
      let e ← body.build (env.bind name v)
      return e.reading Value.asResult
    return e.writing fun r => Value.ofResult (r.map fun _ => .unit)

/-- The steps that build the terms' results, read as the shape's type. -/
def Terms.elements {mode : Mode} (env : Env) (shape : Shape) :
    Terms mode → List (Action (mode.Carrier shape.Elem))
  | .nil => []
  | .cons e es =>
    (do
      let e ← e.build env
      map e fun v => shape.read v) :: es.elements env shape

/-- Builds a block: what follows an effect is built when that effect has run, in the scope of
all names bound so far. -/
def Statement.buildAll (env : Env) (last : Env → Action (Effect Context Value)) :
    List Statement → Action (Effect Context Value)
  | [] => last env
  | .bind name e :: rest => do
    let e ← e.build env
    return e.bind fun v => Statement.buildAll (env.bind name v) last rest
  | .bindPair first second e :: rest => do
    let e ← e.build env
    return (e.reading (Value.asPair "pair")).bind fun p =>
      Statement.buildAll ((env.bind first p.1).bind second p.2) last rest
  | .run e :: rest => do
    let e ← e.build env
    return e.bind fun _ => Statement.buildAll env last rest
  | .letIn name x :: rest => do
    let v ← x.eval env
    Statement.buildAll (env.bind name v) last rest
  | .letPair first second x :: rest => do
    let p ← (← x.eval env).asPair "pair"
    Statement.buildAll ((env.bind first p.1).bind second p.2) last rest

end

end Deferred
