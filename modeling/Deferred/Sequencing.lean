import Deferred.Effect
import Deferred.Identity

/-!
# Sequencing

`Sequencing σ F` is the interface that effects share with values that are already there. Its
operations may touch the state while they build their result: an effect is only built and
leaves the state alone, whereas for `Identity` building is running, and every function is
applied at once.

From `pure` and `bind` alone, `mapViaBind`, `applyViaBind`, `appendViaBind` and `emptyViaPure`
spell out mapping, application, combining and the neutral value a second time.
-/

namespace Deferred

/-- Types of results that can be lifted, mapped, combined and sequenced. -/
class Sequencing (σ : Type) (F : Type → Type) where
  pure {α : Type} : α → F α
  map {α β : Type} : F α → (α → Computation σ β) → Computation σ (F β)
  map2 {α β γ : Type} : F α → F β → (α → β → Computation σ γ) → Computation σ (F γ)
  apply {α β : Type} : F (α → Computation σ β) → F α → Computation σ (F β)
  bind {α β : Type} : F α → (α → Computation σ (F β)) → Computation σ (F β)

variable {σ α β : Type}

/-- Effects are built now and run when they are invoked. -/
instance : Sequencing σ (Effect σ) where
  pure a := .pure a
  map e f := return e.map f
  map2 a b f := return a.map2 b f
  apply functions e := return functions.apply e
  bind e f := return e.bind f

/-- Values that are already there are used at once. -/
instance : Sequencing σ Identity where
  pure a := ⟨a⟩
  map a f := return ⟨← f a.value⟩
  map2 a b f := return ⟨← f a.value b.value⟩
  apply functions a := return ⟨← functions.value a.value⟩
  bind a f := f a.value

namespace Sequencing

variable {F : Type → Type} [Sequencing σ F]

/-! ## Derived operations -/

/-- Yields `b` in place of the value. -/
def replace (x : F α) (b : β) : Computation σ (F β) :=
  map x fun _ => return b

/-- Drops the value. -/
def void (x : F α) : Computation σ (F Unit) :=
  map x fun _ => return ()

/-- Pairs the two values. -/
def product (x : F α) (y : F β) : Computation σ (F (α × β)) :=
  map2 x y fun a b => return (a, b)

/-- Keeps the first value. -/
def applyFirst (x : F α) (y : F β) : Computation σ (F α) :=
  map2 x y fun a _ => return a

/-- Keeps the second value. -/
def applySecond (x : F α) (y : F β) : Computation σ (F β) :=
  map2 x y fun _ b => return b

/-- Drops the first value and goes on with `y`. -/
def andThen (x : F α) (y : F β) : Computation σ (F β) :=
  bind x fun _ => return y

/-! ## From `pure` and `bind` alone -/

/-- Mapping. -/
def mapViaBind (x : F α) (f : α → Computation σ β) : Computation σ (F β) :=
  bind x fun a => do
    let b ← f a
    return pure σ b

/-- Application. -/
def applyViaBind (functions : F (α → Computation σ β)) (x : F α) : Computation σ (F β) :=
  bind functions fun f =>
    bind x fun a => do
      let b ← f a
      return pure σ b

/-- Combining. -/
def appendViaBind [Semigroup α] (x y : F α) : Computation σ (F α) :=
  bind x fun a =>
    bind y fun b => do
      let c ← Semigroup.combine a b
      return pure σ c

/-- The neutral value. -/
def emptyViaPure (σ : Type) (F : Type → Type) [Sequencing σ F] [Monoid α] : F α :=
  pure σ Monoid.empty

end Sequencing

end Deferred
