import Deferred.Algebra.Numeric
import Deferred.Identity

/-!
# Calls of the combining operations

A `Call` names one operation on values of a monoid, and `Call.answer` is what it yields.
Comparing is partial: numbers need not be ordered.
-/

namespace Deferred

/-- Types with an equality test and a comparison that may not decide. -/
class PartialCompare (α : Type) where
  equal : α → α → Bool
  compare? : α → α → Option Ordering

namespace PartialCompare

variable {α : Type}

instance : PartialCompare Unit where
  equal _ _ := true
  compare? _ _ := some .eq

/-- Strings compare by their characters' code points. -/
instance : PartialCompare String where
  equal a b := a = b
  compare? a b := some (compareOfLessAndEq a b)

instance {k : IntType} : PartialCompare (Fixed k) where
  equal a b := a = b
  compare? a b := some (compare a.val b.val)

/-- The order of numbers for which `less` and `equal` are both false when they have none. -/
def ofLess (less equal : α → α → Bool) (a b : α) : Option Ordering :=
  if less a b then some .lt
  else if less b a then some .gt
  else if equal a b then some .eq
  else none

instance : PartialCompare Float where
  equal a b := a == b
  compare? := ofLess (fun a b => a < b) fun a b => a == b

instance : PartialCompare Float32 where
  equal a b := a == b
  compare? := ofLess (fun a b => a < b) fun a b => a == b

/-- Whether lists agree item by item. -/
def equalLists [PartialCompare α] : List α → List α → Bool
  | [], [] => true
  | a :: as, b :: bs => equal a b && equalLists as bs
  | _, _ => false

/-- The order of the first items that differ; a list comes after its own beginnings. -/
def compareLists [PartialCompare α] : List α → List α → Option Ordering
  | [], [] => some .eq
  | [], _ :: _ => some .lt
  | _ :: _, [] => some .gt
  | a :: as, b :: bs =>
    match compare? a b with
    | some .eq => compareLists as bs
    | other => other

instance [PartialCompare α] : PartialCompare (List α) where
  equal := equalLists
  compare? := compareLists

instance [PartialCompare α] : PartialCompare (Sum α) where
  equal a b := equal a.value b.value
  compare? a b := compare? a.value b.value

instance [PartialCompare α] : PartialCompare (Product α) where
  equal a b := equal a.value b.value
  compare? a b := compare? a.value b.value

instance [PartialCompare α] : PartialCompare (Identity α) where
  equal a b := equal a.value b.value
  compare? a b := compare? a.value b.value

end PartialCompare

/-- One operation on values of type `α`. -/
inductive Call (α : Type) where
  | combine (a b : α)
  /-- Combines and shows the operands afterwards. -/
  | combineKeeping (a b : α)
  | combineN (a : α) (count : Nat)
  | reduceAll (items : List α)
  | combineAll (items : List α)
  | empty
  /-- Wraps and unwraps. -/
  | wrap (a : α)
  /-- The type's default value, where it has one. -/
  | default
  | equal (a b : α)
  | compare (a b : α)

/-- What a call yields. -/
inductive Answer (α : Type) where
  | value (a : α)
  | kept (result left right : α)
  /-- A value, or the news that there is none. -/
  | option (a : Option α)
  | bool (b : Bool)
  | ordering (o : Option Ordering)

/-- The answer of a call on a type with the given default value. -/
def Call.answer {α : Type} [Monoid α] [PartialCompare α] (default? : Option α) :
    Call α → Except Panic (Answer α)
  | combine a b => return .value (← Semigroup.combine a b)
  | combineKeeping a b => return .kept (← Semigroup.combine a b) a b
  | combineN a count => return .value (← Semigroup.combineN a count)
  | reduceAll items => return .option (← Semigroup.reduceAll (items.map .ok))
  | combineAll items => return .value (← Monoid.combineAll (items.map .ok))
  | empty => return .value Monoid.empty
  | wrap a => return .value a
  | default =>
    match default? with
    | some a => return .value a
    | none => return .option none
  | equal a b => return .bool (PartialCompare.equal a b)
  | compare a b => return .ordering (PartialCompare.compare? a b)

end Deferred
