import Deferred.Panic

/-!
# Values

The values that programs compute with, their equality, and the readers that turn a value into
what an operation needs or report the fault that it is something else.
-/

namespace Deferred

/-- What a program did wrong. -/
inductive Fault where
  | unboundVariable (name : String)
  | unknownCell (name : String)
  | unknownEffect (name : String)
  | scriptExhausted
  | zeroDivisor
  /-- A value is not of the type that its place needs. -/
  | wrongType (place : String)
deriving DecidableEq, Repr

namespace Fault

def message : Fault → String
  | .unboundVariable name => "unbound variable: " ++ name
  | .unknownCell name => "unknown cell: " ++ name
  | .unknownEffect name => "unknown effect: " ++ name
  | .scriptExhausted => "script exhausted"
  | .zeroDivisor => "attempt to calculate the remainder with a divisor of zero"
  | .wrongType place => "type error: " ++ place

def panic (fault : Fault) : Panic := .formatted fault.message

end Fault

/-- The label of a tagged value. -/
inductive Tag where
  | ok | err | loop | done | sum | product | identity
deriving DecidableEq, Repr

/-- The values of programs. -/
inductive Value where
  | unit
  | bool (b : Bool)
  | int (n : Int)
  | str (text : String)
  | list (items : List Value)
  | pair (first second : Value)
  | tagged (tag : Tag) (inner : Value)
deriving Repr

namespace Value

/-! ## Equality -/

mutual

/-- Whether two values are equal: same form, same parts. -/
def beq : Value → Value → Bool
  | .unit, .unit => true
  | .bool a, .bool b => a = b
  | .int m, .int n => m = n
  | .str s, .str t => s = t
  | .list as, .list bs => beqAll as bs
  | .pair a b, .pair c d => beq a c && beq b d
  | .tagged s a, .tagged t b => s = t && beq a b
  | _, _ => false

/-- Whether two lists of values are equal. -/
def beqAll : List Value → List Value → Bool
  | [], [] => true
  | a :: as, b :: bs => beq a b && beqAll as bs
  | _, _ => false

end

mutual

/-- The test decides equality. -/
theorem beq_iff (a b : Value) : a.beq b = true ↔ a = b := by
  cases a with
  | unit => cases b <;> simp [beq]
  | bool _ => cases b <;> simp [beq]
  | int _ => cases b <;> simp [beq]
  | str _ => cases b <;> simp [beq]
  | list as => cases b <;> simp [beq, beqAll_iff as]
  | pair x y => cases b <;> simp [beq, beq_iff x, beq_iff y]
  | tagged t x => cases b <;> simp [beq, beq_iff x]

theorem beqAll_iff (as bs : List Value) : beqAll as bs = true ↔ as = bs := by
  cases as with
  | nil => cases bs <;> simp [beqAll]
  | cons a as => cases bs <;> simp [beqAll, beq_iff a, beqAll_iff as]

end

instance : DecidableEq Value := fun a b => decidable_of_iff _ (beq_iff a b)

/-! ## Readers -/

/-- The fault of a value that does not fit its place. -/
def mismatch {α : Type} (place : String) : Except Panic α :=
  .error (Fault.wrongType place).panic

def asUnit (place : String) : Value → Except Panic Unit
  | .unit => .ok ()
  | _ => mismatch place

def asBool (place : String) : Value → Except Panic Bool
  | .bool b => .ok b
  | _ => mismatch place

def asString (place : String) : Value → Except Panic String
  | .str text => .ok text
  | _ => mismatch place

def asList (place : String) : Value → Except Panic (List Value)
  | .list items => .ok items
  | _ => mismatch place

def asPair (place : String) : Value → Except Panic (Value × Value)
  | .pair a b => .ok (a, b)
  | _ => mismatch place

/-- What stands under the tag. -/
def asTagged (tag : Tag) (place : String) : Value → Except Panic Value
  | .tagged other v => if other = tag then .ok v else mismatch place
  | _ => mismatch place

end Value

end Deferred
