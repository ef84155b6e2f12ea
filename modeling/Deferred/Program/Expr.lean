import Deferred.Number.Arithmetic
import Deferred.Program.World

/-!
# Expressions

The function bodies and plain arguments of programs. An expression is evaluated strictly and
from left to right. It may read cells, record values and panic; it invokes no effect. An
operand that has to be of some type is checked as soon as it has been evaluated.
-/

namespace Deferred

/-- Operations on two integers of 64 bits. -/
inductive IntOp where
  | add | sub | mul | rem | lt
deriving DecidableEq, Repr

/-- The kind of payload that a failure carries. -/
inductive PayloadKind where
  | literal | formatted | code
deriving DecidableEq, Repr

/-- Expressions. -/
inductive Expr where
  | const (v : Value)
  | list (items : List Expr)
  | pair (first second : Expr)
  | tagged (tag : Tag) (inner : Expr)
  | var (name : String)
  | cell (name : String)
  | fst (x : Expr)
  | snd (x : Expr)
  | intOp (op : IntOp) (x y : Expr)
  | eq (x y : Expr)
  | not (x : Expr)
  | cond (test yes no : Expr)
  | letIn (name : String) (x body : Expr)
  | concat (x y : Expr)
  | append (x y : Expr)
  | range (low high : Expr)
  | len (x : Expr)
  | tap (x y : Expr)
  | fail (kind : PayloadKind) (x : Expr)

/-- Names with their values. -/
abbrev Env := Bindings Value

namespace IntOp

/-- The place that a wrong operand is reported for. -/
def place : IntOp → String
  | .add => "add"
  | .sub => "sub"
  | .mul => "mul"
  | .rem => "rem"
  | .lt => "lt"

/-- The result; sums, differences and products must fit, and a remainder has the sign of the
dividend. -/
def apply (a b : Fixed .i64) : IntOp → Except Panic Value
  | .add => return .int (← Arithmetic.add a b).val
  | .sub => return .int (← Arithmetic.sub a b).val
  | .mul => return .int (← Arithmetic.mul a b).val
  | .rem =>
    if b.val = 0 then .error Fault.zeroDivisor.panic else .ok (.int (a.val.tmod b.val))
  | .lt => .ok (.bool (a.val < b.val))

end IntOp

/-- The integer of 64 bits that the value is. -/
def Value.asInt64 (place : String) : Value → Except Panic (Fixed .i64)
  | .int n =>
    match Fixed.ofInt? .i64 n with
    | some a => .ok a
    | none => mismatch place
  | _ => mismatch place

/-- The integers from `low` up to and without `high`. -/
def Value.ofRange (low high : Int) : Value :=
  .list ((List.range (high - low).toNat).map fun (i : Nat) => .int (low + i))

/-- The payload of a failure. -/
def PayloadKind.payload (v : Value) : PayloadKind → Except Panic Panic
  | .literal => return .literal (← v.asString "string")
  | .formatted => return .formatted (← v.asString "string")
  | .code => return .code (← v.asInt64 "fail").val

namespace Expr

mutual

/-- The value of the expression. -/
def eval (env : Env) : Expr → Action Value
  | const v => return v
  | list items => return .list (← evalAll env items)
  | pair x y => return .pair (← x.eval env) (← y.eval env)
  | tagged tag x => return .tagged tag (← x.eval env)
  | var name =>
    match env.find? name with
    | some v => return v
    | none => Action.fault (.unboundVariable name)
  | cell name => Action.readCell name
  | fst x => return (← liftM ((← x.eval env).asPair "fst")).1
  | snd x => return (← liftM ((← x.eval env).asPair "snd")).2
  | intOp op x y => do
    let a ← (← x.eval env).asInt64 op.place
    let b ← (← y.eval env).asInt64 op.place
    op.apply a b
  | eq x y => do
    let a ← x.eval env
    let b ← y.eval env
    return .bool (a = b)
  | not x => return .bool !(← (← x.eval env).asBool "not")
  | cond test yes no => do
    let holds ← (← test.eval env).asBool "if"
    if holds then yes.eval env else no.eval env
  | letIn name x body => do
    let v ← x.eval env
    body.eval (env.bind name v)
  | concat x y => do
    let a ← (← x.eval env).asString "string"
    let b ← (← y.eval env).asString "string"
    return .str (a ++ b)
  | append x y => do
    let a ← (← x.eval env).asList "append"
    let b ← (← y.eval env).asList "append"
    return .list (a ++ b)
  | range low high => do
    let a ← (← low.eval env).asInt64 "range"
    let b ← (← high.eval env).asInt64 "range"
    return Value.ofRange a.val b.val
  | len x => return .int (← (← x.eval env).asList "len").length
  | tap x y => do
    Action.recordUnlessUnit (← x.eval env)
    y.eval env
  | fail kind x => do
    let p ← kind.payload (← x.eval env)
    throw p

/-- The values of the expressions, in order. -/
def evalAll (env : Env) : List Expr → Action (List Value)
  | [] => return []
  | x :: xs => do
    let v ← x.eval env
    let vs ← evalAll env xs
    return v :: vs

end

end Expr

end Deferred
