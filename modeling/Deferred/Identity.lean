import Deferred.Algebra.Combining

/-!
# Values that are already there

`Identity` wraps a value and adds nothing to it. It is to an effect what a result is to the
computation that yields it, and it combines as the value does.
-/

namespace Deferred

/-- A value that is already there. -/
structure Identity (α : Type) where
  value : α
deriving DecidableEq, Inhabited

variable {α : Type}

instance [Semigroup α] : Semigroup (Identity α) where
  combine a b := Identity.mk <$> Semigroup.combine a.value b.value

instance [Monoid α] : Monoid (Identity α) where
  empty := ⟨Monoid.empty⟩

end Deferred
