import Deferred.Algebra.Combining
import Deferred.Effect
import Deferred.Number.Arithmetic

/-!
# Operations lifted to effects

An operation on values becomes one on effects: invoke the left operand, then the right one,
then combine the two values.
-/

namespace Deferred

variable {σ α : Type}

namespace Effect

instance [Semigroup α] : Semigroup (Effect σ α) where
  combine a b := .ok (a.map2 b fun x y => Semigroup.combine x y)

instance [Monoid α] : Monoid (Effect σ α) where
  empty := pure Monoid.empty

variable [Arithmetic α]

instance : Add (Effect σ α) := ⟨fun a b => a.map2 b fun x y => Arithmetic.add x y⟩

instance : Sub (Effect σ α) := ⟨fun a b => a.map2 b fun x y => Arithmetic.sub x y⟩

instance : Mul (Effect σ α) := ⟨fun a b => a.map2 b fun x y => Arithmetic.mul x y⟩

instance : Neg (Effect σ α) := ⟨fun a => a.map fun x => Arithmetic.neg x⟩

end Effect

end Deferred
