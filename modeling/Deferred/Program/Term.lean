import Deferred.Program.Expr
import Deferred.Program.Shape

/-!
# Terms

The syntax of programs. A term describes how to build something of its mode: an effect, or a
value that is already there. The terms of the sequencing interface exist in both modes; loops,
catching and everything that touches the world exist for effects only.

A pair of a name and a body stands for a function. The body of an expression function is
evaluated, and that of a term function built, each time the function is applied, with the
argument bound to the name.
-/

namespace Deferred

/-- What a term builds: an effect for later, or a value now. -/
inductive Mode where
  | deferred | immediate
deriving DecidableEq, Repr

/-- Operations on two numbers of one format. -/
inductive NumOp where
  | add | sub | mul
deriving DecidableEq, Repr

/-- Where the items of a loop come from. -/
inductive Source where
  /-- The items of a list. -/
  | items (list : Expr)
  /-- The items of a list, each recorded beside the label when it is taken. -/
  | recorded (label list : Expr)

mutual

/-- Terms of a mode. -/
inductive Term : Mode → Type where
  -- Building.
  /-- Records a value, then builds. -/
  | mark {mode : Mode} (x : Expr) (e : Term mode) : Term mode
  /-- Builds with a name bound. -/
  | letIn {mode : Mode} (name : String) (x : Expr) (e : Term mode) : Term mode
  /-- Builds one of two terms. -/
  | cond {mode : Mode} (test : Expr) (yes no : Term mode) : Term mode
  -- The sequencing interface.
  | pure {mode : Mode} (x : Expr) : Term mode
  | map {mode : Mode} (e : Term mode) (name : String) (body : Expr) : Term mode
  | map2 {mode : Mode} (e d : Term mode) (first second : String) (body : Expr) : Term mode
  | bind {mode : Mode} (e : Term mode) (name : String) (body : Term mode) : Term mode
  | andThen {mode : Mode} (e d : Term mode) : Term mode
  | replace {mode : Mode} (e : Term mode) (x : Expr) : Term mode
  | void {mode : Mode} (e : Term mode) : Term mode
  | product {mode : Mode} (e d : Term mode) : Term mode
  | applyFirst {mode : Mode} (e d : Term mode) : Term mode
  | applySecond {mode : Mode} (e d : Term mode) : Term mode
  /-- Turns the value of `e` into a function of `arg` and applies it to that of `d`. -/
  | apply {mode : Mode} (e : Term mode) (name arg : String) (body : Expr) (d : Term mode) :
      Term mode
  | mapViaBind {mode : Mode} (e : Term mode) (name : String) (body : Expr) : Term mode
  | applyViaBind {mode : Mode} (e : Term mode) (name arg : String) (body : Expr)
      (d : Term mode) : Term mode
  -- Combining results of a shape.
  | combine {mode : Mode} (shape : Shape) (e d : Term mode) : Term mode
  | appendViaBind {mode : Mode} (shape : Shape) (e d : Term mode) : Term mode
  | combineN {mode : Mode} (shape : Shape) (e : Term mode) (count : Nat) : Term mode
  | combineAll {mode : Mode} (shape : Shape) (es : Terms mode) : Term mode
  | reduceAll {mode : Mode} (shape : Shape) (es : Terms mode) : Term mode
  | empty {mode : Mode} (shape : Shape) : Term mode
  | emptyViaPure {mode : Mode} (shape : Shape) : Term mode
  -- Values that are already there.
  | here (x : Expr) : Term .immediate
  -- Effects that touch the world.
  /-- Records the first value and yields the second. -/
  | act (x y : Expr) : Term .deferred
  | readCell (cell : String) : Term .deferred
  | writeCell (cell : String) (x : Expr) : Term .deferred
  | changeCell (cell : String) (name : String) (body : Expr) : Term .deferred
  /-- Yields the next item of a list in every invocation. -/
  | script (label list : Expr) : Term .deferred
  | fail (kind : PayloadKind) (x : Expr) : Term .deferred
  /-- The effect defined under the name. -/
  | ref (effect : String) : Term .deferred
  -- Effects of effects.
  /-- Shares the effect. -/
  | clone (e : Term .deferred) : Term .deferred
  | unit : Term .deferred
  | defer (e : Term .deferred) : Term .deferred
  | guarded (e : Term .deferred) : Term .deferred
  | mapTimes (count : Nat) (e : Term .deferred) (name : String) (body : Expr) : Term .deferred
  | bindTimes (count : Nat) (e : Term .deferred) (name : String) (body : Term .deferred) :
      Term .deferred
  | block (statements : List Statement) (last : Term .deferred) : Term .deferred
  | numOp (op : NumOp) (k : IntType) (e d : Term .deferred) : Term .deferred
  | neg (k : IntType) (e : Term .deferred) : Term .deferred
  -- Loops.
  | untilTrue (condition : Term .deferred) : Term .deferred
  | whileTrue (condition body : Term .deferred) : Term .deferred
  | forRange (low high : Expr) (name : String) (body : Term .deferred) : Term .deferred
  | forEach (source : Source) (name : String) (body : Term .deferred) : Term .deferred
  | when (test : Expr) (e : Term .deferred) : Term .deferred
  | whenNot (test : Expr) (e : Term .deferred) : Term .deferred
  | forever (e : Term .deferred) : Term .deferred
  | iterate (x : Expr) (name : String) (body : Term .deferred) : Term .deferred
  -- Effects that may yield an error.
  | andThenOk (e : Term .deferred) (name : String) (body : Term .deferred) : Term .deferred
  | mapOk (e : Term .deferred) (name : String) (body : Expr) : Term .deferred
  | tryUntil (condition : Term .deferred) : Term .deferred
  | tryWhile (condition body : Term .deferred) : Term .deferred
  | tryForRange (low high : Expr) (name : String) (body : Term .deferred) : Term .deferred
  | tryForEach (source : Source) (name : String) (body : Term .deferred) : Term .deferred

/-- Lists of terms of a mode. -/
inductive Terms : Mode → Type where
  | nil {mode : Mode} : Terms mode
  | cons {mode : Mode} (e : Term mode) (es : Terms mode) : Terms mode

/-- Statements of a block. -/
inductive Statement : Type where
  /-- Names the value of an effect. -/
  | bind (name : String) (e : Term .deferred)
  /-- Names both parts of an effect's value, a pair. -/
  | bindPair (first second : String) (e : Term .deferred)
  /-- Drops the value of an effect. -/
  | run (e : Term .deferred)
  /-- Names a value. -/
  | letIn (name : String) (x : Expr)
  /-- Names both parts of a value, a pair. -/
  | letPair (first second : String) (x : Expr)

end

end Deferred
