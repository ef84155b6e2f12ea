import Deferred.Algebra.Combining
import Deferred.Number.Arithmetic

/-!
# Sums and products

A number combines by addition or by multiplication; its wrapper says which.
-/

namespace Deferred

/-- A number that combines by addition. -/
structure Sum (α : Type) where
  value : α
deriving DecidableEq

/-- A number that combines by multiplication. -/
structure Product (α : Type) where
  value : α
deriving DecidableEq

variable {α : Type}

/-- A sum is zero by default. A product has no default. -/
instance [Arithmetic α] : Inhabited (Sum α) := ⟨⟨Arithmetic.zero⟩⟩

instance [Arithmetic α] : Monoid (Sum α) where
  combine a b := Sum.mk <$> Arithmetic.add a.value b.value
  empty := ⟨Arithmetic.zero⟩

instance [Arithmetic α] : Monoid (Product α) where
  combine a b := Product.mk <$> Arithmetic.mul a.value b.value
  empty := ⟨Arithmetic.one⟩

end Deferred
