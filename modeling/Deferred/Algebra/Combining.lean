import Deferred.Panic

/-!
# Combining values

A `Semigroup` has an operation that combines two values, and a `Monoid` a value that changes
nothing when combined. Combining may panic: a sum of integers of a fixed width may not fit.

Folds combine from the left. Their elements come from a source, a list of steps of some monad
that make one element each; a fold makes an element only when it has combined all earlier
ones.
-/

namespace Deferred

universe u

/-- Values that can be combined. -/
class Semigroup (α : Type) where
  combine : α → α → Except Panic α

/-- A semigroup with a neutral value. -/
class Monoid (α : Type) extends Semigroup α where
  empty : α

namespace Semigroup

variable {α : Type} [Semigroup α]

/-- Nothing combined with nothing is no value, so a count must be positive. -/
def countPanic : Panic := .literal "combine_n requires count > 0"

/-- Combines `acc` with `a`, `count` times. -/
def combineMore (a : α) : (count : Nat) → (acc : α) → Except Panic α
  | 0, acc => .ok acc
  | count + 1, acc => do
    let acc ← combine acc a
    combineMore a count acc

/-- Combines `count` copies of `a`. -/
def combineN (a : α) : (count : Nat) → Except Panic α
  | 0 => .error countPanic
  | count + 1 => combineMore a count a

variable {m : Type → Type u} [Monad m] [MonadLiftT (Except Panic) m]

/-- Combines `acc` with every element of the source. -/
def foldFrom (acc : α) : (source : List (m α)) → m α
  | [] => pure acc
  | next :: source => do
    let a ← next
    let acc ← liftM (combine acc a)
    foldFrom acc source

/-- Combines all elements of the source; an empty source has no result. -/
def reduceAll : (source : List (m α)) → m (Option α)
  | [] => pure none
  | next :: source => do
    let a ← next
    let r ← foldFrom a source
    return some r

end Semigroup

/-- Combines all elements of the source with the neutral value. -/
def Monoid.combineAll {α : Type} [Monoid α] {m : Type → Type u} [Monad m]
    [MonadLiftT (Except Panic) m] (source : List (m α)) : m α :=
  Semigroup.foldFrom Monoid.empty source

instance : Monoid String where
  combine a b := .ok (a ++ b)
  empty := ""

instance {α : Type} : Monoid (List α) where
  combine a b := .ok (a ++ b)
  empty := []

instance : Monoid Unit where
  combine _ _ := .ok ()
  empty := ()

end Deferred
