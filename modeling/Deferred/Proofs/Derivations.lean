import Deferred.Effect.Pointwise
import Deferred.Proofs.MonadLaws

/-!
# Mapping, application and combining from sequencing alone

What is spelled out with `pure` and `bind` alone agrees with what each type of results has on its
own (`derivations_agree`). For effects this is up to observation: in every invocation the parts are
invoked in the same order, and a panic of a part, of the function or of the combining comes at the
same point. For values that are already there it is the same computation.

* `Effect.bind_congr_makeAlike`: effects go on alike with functions that make effects alike.
* `Effect.makeAlike_mapViaBind`: mapping by sequencing is mapping. The other derivations are this
  one after a first effect (`Effect.bind_mapViaBind_equiv_map2`,
  `Effect.bind_mapViaBind_equiv_apply`).
-/

namespace Deferred

variable {σ α β γ : Type}

open Deferred.Computation

namespace Effect

/-! ## Mapping after a first effect -/

/-- What is made by ways that are alike acts alike once it is made and invoked. -/
theorem invoke_congr_makeAlike {x y : Computation σ (Effect σ α)} (h : MakeAlike x y) :
    (x >>= fun e => e.invoke) ≈ (y >>= fun e => e.invoke) := by
  obtain ⟨e, d, hx, hy, hed⟩ := h
  intro s r
  calc (x >>= fun e => e.invoke).Halts s r
      ↔ e.invoke.Halts s r := halts_bind_ok_iff (hx s)
    _ ↔ d.invoke.Halts s r := equiv_iff.1 hed s r
    _ ↔ (y >>= fun e => e.invoke).Halts s r := (halts_bind_ok_iff (hy s)).symm

/-- Continuations that make equivalent effects can be exchanged. -/
theorem bind_congr_makeAlike (e : Effect σ α) {f g : α → Computation σ (Effect σ β)}
    (h : ∀ a, MakeAlike (f a) (g a)) : e.bind f ≈ e.bind g := by
  have hnext : ∀ a, (f a >>= fun next => next.invoke) ≈ (g a >>= fun next => next.invoke) :=
    fun a => invoke_congr_makeAlike (h a)
  exact equiv_iff.2 (bind_congr_equiv (Computation.equiv_refl e.invoke) hnext)

/-- The function is applied as soon as the value is there. -/
theorem makeAlike_mapViaBind (e : Effect σ α) (f : α → Computation σ β) :
    MakeAlike (Sequencing.mapViaBind e f) (return e.map f) := by
  have hvalue : ∀ a, (f a >>= fun b => Pure.pure (pure b : Effect σ β)) >>=
      (fun next => next.invoke) = f a := by
    intro a
    rw [bind_assoc]
    exact bind_pure_eq (f a)
  exact makeAlike_pure_iff.2 (equiv_of_invoke_eq (bind_congr hvalue))

/-- The second effect is invoked after the first one, and before the function is applied. -/
theorem bind_mapViaBind_equiv_map2 (a : Effect σ α) (b : Effect σ β)
    (f : α → β → Computation σ γ) :
    (a.bind fun x => Sequencing.mapViaBind b (f x)) ≈ a.map2 b f := by
  have hmap : (a.bind fun x => Sequencing.mapViaBind b (f x)) ≈
      a.bind fun x => return b.map (f x) :=
    bind_congr_makeAlike a fun x => makeAlike_mapViaBind b (f x)
  exact equiv_trans hmap (equiv_of_invoke_eq rfl)

/-- The function is there before its argument is. -/
theorem bind_mapViaBind_equiv_apply (functions : Effect σ (α → Computation σ β))
    (e : Effect σ α) :
    (functions.bind fun f => Sequencing.mapViaBind e f) ≈ functions.apply e := by
  have hmap : (functions.bind fun f => Sequencing.mapViaBind e f) ≈
      functions.bind fun f => return e.map f :=
    bind_congr_makeAlike functions fun f => makeAlike_mapViaBind e f
  exact equiv_trans hmap (equiv_of_invoke_eq rfl)

end Effect

/-! ## The agreement -/

/-- What is derived from `pure` and `bind` agrees, as far as `alike` tells, with the mapping and the
application that `F` has on its own, and with its ways to combine and to be empty. -/
structure DerivationsAgree (σ : Type) (F : Type → Type) [Sequencing σ F]
    (combine : {α : Type} → [Semigroup α] → F α → F α → Except Panic (F α))
    (neutral : {α : Type} → [Monoid α] → F α)
    (alike : {α : Type} → Computation σ (F α) → Computation σ (F α) → Prop) : Prop where
  map {α β : Type} (x : F α) (f : α → Computation σ β) :
    alike (Sequencing.mapViaBind x f) (Sequencing.map x f)
  /-- The function comes first on both sides. -/
  apply {α β : Type} (functions : F (α → Computation σ β)) (x : F α) :
    alike (Sequencing.applyViaBind functions x) (Sequencing.apply functions x)
  /-- The left operand comes first on both sides. -/
  append {α : Type} [Semigroup α] (x y : F α) :
    alike (Sequencing.appendViaBind x y) (combine x y : Except Panic (F α))
  empty {α : Type} [Monoid α] : alike (return Sequencing.emptyViaPure σ F) (return (neutral : F α))

/-- The derived operations of effects agree with the ones effects define themselves. -/
theorem Effect.derivationsAgree :
    DerivationsAgree σ (Effect σ) Semigroup.combine Monoid.empty MakeAlike where
  map := makeAlike_mapViaBind
  apply functions x := makeAlike_pure_iff.2 (bind_mapViaBind_equiv_apply functions x)
  append x y :=
    makeAlike_pure_iff.2 (bind_mapViaBind_equiv_map2 x y fun a b => Semigroup.combine a b)
  empty := makeAlike_pure_iff.2 (equiv_of_invoke_eq rfl)

/-- For plain values the two are equal. -/
theorem Identity.derivationsAgree :
    DerivationsAgree σ Identity Semigroup.combine Monoid.empty Eq where
  map x f := rfl
  apply functions x := rfl
  append {α} _ x y := by
    show (Computation.ofExcept (Semigroup.combine x.value y.value) >>= fun c =>
        Pure.pure (Identity.mk c)) =
      Computation.ofExcept (Identity.mk <$> Semigroup.combine x.value y.value)
    cases Semigroup.combine x.value y.value with
    | ok c => rfl
    | error p => rfl
  empty := rfl

/-- The derivations agree with the direct operations: for effects in all that can be observed, and
for values that are already there as computations. -/
theorem derivations_agree :
    DerivationsAgree σ (Effect σ) Semigroup.combine Monoid.empty MakeAlike ∧
      DerivationsAgree σ Identity Semigroup.combine Monoid.empty Eq :=
  ⟨Effect.derivationsAgree, Identity.derivationsAgree⟩

end Deferred
