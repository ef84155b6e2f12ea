import Deferred.Algebra.Numeric
import Deferred.Identity
import Deferred.Program.Value

/-!
# Shapes

A shape says which type of combinable results a program means. Values are read as that type,
combined there, and written back.
-/

namespace Deferred

/-- Types of results that can be combined. -/
inductive Shape where
  | unit
  | string
  | list
  | sum (k : IntType)
  | product (k : IntType)
  | identity (inner : Shape)
deriving DecidableEq

/-- The integer of format `k` that the value is. -/
def Value.asFixed (k : IntType) : Value → Except Panic (Fixed k)
  | .int n =>
    match Fixed.ofInt? k n with
    | some a => .ok a
    | none => mismatch k.name
  | _ => mismatch k.name

/-- A number of a format is read back from its value. -/
theorem Value.asFixed_val {k : IntType} (a : Fixed k) : (Value.int a.val).asFixed k = .ok a := by
  rw [asFixed, Fixed.ofInt?_val]

namespace Shape

/-- The type that the shape stands for. -/
def Elem : Shape → Type
  | unit => Unit
  | string => String
  | list => List Value
  | sum k => Sum (Fixed k)
  | product k => Product (Fixed k)
  | identity inner => Identity inner.Elem

/-- Every shape's results combine as its type does. -/
instance monoid : (shape : Shape) → Monoid shape.Elem
  | unit => inferInstanceAs (Monoid Unit)
  | string => inferInstanceAs (Monoid String)
  | list => inferInstanceAs (Monoid (List Value))
  | sum k => inferInstanceAs (Monoid (Sum (Fixed k)))
  | product k => inferInstanceAs (Monoid (Product (Fixed k)))
  | identity inner =>
    have := monoid inner
    inferInstanceAs (Monoid (Identity inner.Elem))

/-- Reads a value as the shape's type. -/
def read : (shape : Shape) → Value → Except Panic shape.Elem
  | unit, v => v.asUnit "unit"
  | string, v => v.asString "string"
  | list, v => v.asList "list"
  | sum k, v => do
    let inner ← v.asTagged .sum "sum"
    return Sum.mk (← inner.asFixed k)
  | product k, v => do
    let inner ← v.asTagged .product "product"
    return Product.mk (← inner.asFixed k)
  | identity shape, v => do
    let inner ← v.asTagged .identity "identity"
    return Identity.mk (← shape.read inner)

/-- Writes a result of the shape's type as a value. -/
def write : (shape : Shape) → shape.Elem → Value
  | unit, _ => .unit
  | string, text => .str text
  | list, items => .list items
  | sum _, a => .tagged .sum (.int a.value.val)
  | product _, a => .tagged .product (.int a.value.val)
  | identity inner, a => .tagged .identity (inner.write a.value)

end Shape

end Deferred
