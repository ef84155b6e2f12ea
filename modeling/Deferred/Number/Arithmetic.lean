import Deferred.Number.Fixed
import Deferred.Panic

/-!
# Checked arithmetic

`Arithmetic α` gives a number type the four operations, each of which may report an
`Overflow`. Integers of a fixed width overflow exactly when the true result is not
representable; floating-point numbers never do.
-/

namespace Deferred

/-- The operation whose result did not fit. -/
inductive Overflow where
  | add | sub | mul | neg
deriving DecidableEq, Repr

namespace Overflow

def message : Overflow → String
  | .add => "attempt to add with overflow"
  | .sub => "attempt to subtract with overflow"
  | .mul => "attempt to multiply with overflow"
  | .neg => "attempt to negate with overflow"

def panic (o : Overflow) : Panic := .literal o.message

end Overflow

/-- Numbers whose operations may overflow. -/
class Arithmetic (α : Type) where
  zero : α
  one : α
  add : α → α → Except Panic α
  sub : α → α → Except Panic α
  mul : α → α → Except Panic α
  neg : α → Except Panic α

namespace Fixed

variable {k : IntType}

/-- The integer `n`, or the overflow of the operation that computed it. -/
def checked (o : Overflow) (n : Int) : Except Panic (Fixed k) :=
  match ofInt? k n with
  | some a => .ok a
  | none => .error o.panic

/-- A checked result is the exact one. -/
theorem checked_eq_ok_iff {o : Overflow} {n : Int} {a : Fixed k} :
    checked o n = .ok a ↔ a.val = n := by
  rw [← ofInt?_eq_some_iff, checked]
  cases ofInt? k n <;> simp

/-- The check fails if the exact result is out of the format's range, with the message of the
operation. -/
theorem checked_eq_error_iff {o : Overflow} {n : Int} {p : Panic} :
    (checked o n : Except Panic (Fixed k)) = .error p ↔ (n < k.lo ∨ k.hi < n) ∧ p = o.panic := by
  rw [← ofInt?_eq_none_iff, checked]
  cases ofInt? k n <;> simp [eq_comm]

instance : Arithmetic (Fixed k) where
  zero := Fixed.zero
  one := Fixed.one
  add a b := checked .add (a.val + b.val)
  sub a b := checked .sub (a.val - b.val)
  mul a b := checked .mul (a.val * b.val)
  neg a := checked .neg (-a.val)

end Fixed

instance : Arithmetic Float where
  zero := 0.0
  one := 1.0
  add a b := .ok (a + b)
  sub a b := .ok (a - b)
  mul a b := .ok (a * b)
  neg a := .ok (-a)

instance : Arithmetic Float32 where
  zero := 0.0
  one := 1.0
  add a b := .ok (a + b)
  sub a b := .ok (a - b)
  mul a b := .ok (a * b)
  neg a := .ok (-a)

end Deferred
