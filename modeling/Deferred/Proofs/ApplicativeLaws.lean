import Deferred.Proofs.MonadLaws
import Deferred.Proofs.Watching

/-!
# The laws of mapping and application

Up to observation, mapping obeys the laws of a functor and application those of an applicative
functor, and whatever combines two effects is spelled out by sequencing and constant effects
(`Effect.ApplicativeLaws`). The functions of the laws, those that effects yield included, may change
the state, panic or never end; the two sides of a law apply them at the same points, so they do the
same from every state, and in every invocation.

Each part is invoked once, the left one before the right one, also if its value is dropped
(`Effect.InvokesOnce`, `Effect.InvokesBoth`). The function that finishes is applied when both have
yielded their values.
-/

namespace Deferred

variable {σ κ α β γ : Type}

open Deferred.Computation

namespace Effect

/-! ## The laws one by one -/

/-- Mapping with the identity changes nothing. -/
theorem map_id_equiv (e : Effect σ α) : (e.map fun a => return a) ≈ e :=
  equiv_of_invoke_eq (bind_pure_eq e.invoke)

theorem map_map_equiv (e : Effect σ α) (f : α → Computation σ β) (g : β → Computation σ γ) :
    (e.map f).map g ≈ e.map fun a => f a >>= g :=
  equiv_of_invoke_eq (bind_assoc e.invoke f g)

/-- Interchange: a ready argument may stand on either side. -/
theorem apply_pure_equiv (u : Effect σ (α → Computation σ β)) (a : α) :
    u.apply (pure a) ≈ (pure fun f => f a).apply u :=
  equiv_of_invoke_eq rfl

/-- Homomorphism: a ready function applied to a ready argument, once it is invoked. -/
theorem apply_pure_pure_equiv (f : α → Computation σ β) (a : α) :
    (pure f).apply (pure a) ≈ defer do let b ← f a; return pure b := by
  apply equiv_of_invoke_eq
  simp only [apply, pure, defer, bind_assoc, pure_bind, bind_pure_eq]

/-- Makes of two functions the one that applies `g` and then `f`. -/
def compose (f : β → Computation σ γ) :
    Computation σ ((α → Computation σ β) → Computation σ (α → Computation σ γ)) :=
  return fun g => return fun a => g a >>= f

/-- Both functions are there before the argument is, and they are applied in the end. -/
theorem apply_compose_equiv (u : Effect σ (β → Computation σ γ))
    (v : Effect σ (α → Computation σ β)) (w : Effect σ α) :
    (((pure compose).apply u).apply v).apply w ≈ u.apply (v.apply w) := by
  apply equiv_of_invoke_eq
  simp only [apply, pure, compose, bind_assoc, pure_bind]

/-- Products regroup, up to the shape of the tuple. -/
theorem product_product_equiv (a : Effect σ α) (b : Effect σ β) (c : Effect σ γ) :
    (a.product b).product c ≈
      (a.product (b.product c)).map fun xyz => return ((xyz.1, xyz.2.1), xyz.2.2) := by
  apply equiv_of_invoke_eq
  simp only [product, map2, map, bind_assoc, pure_bind]

/-- Going on with `b` is keeping the second value: nothing is left to be done with it. -/
theorem invoke_andThen_eq_map2 (a : Effect σ α) (b : Effect σ β) :
    (a.andThen b).invoke = (a.map2 b fun _ y => return y).invoke := by
  rw [invoke_andThen, map2]
  simp only [bind_pure_eq]

/-! ## One invocation of each part -/

section

variable {k : κ} {e : Effect σ α} {g : α → Computation (Watched σ κ) β} {w w' : Watched σ κ}

/-- After a value the note has been taken. -/
theorem exists_noted_ok_iff (later : α → Watched σ κ → Prop) :
    (∃ a v, (e.noted k).invoke.Halts w (.ok a, v) ∧ later a v) ↔
      ∃ a t, e.invoke.Halts w.state (.ok a, t) ∧ later a ⟨t, w.notes ++ [k]⟩ := by
  simp only [halts_noted_iff, Watched.exists_iff]

/-- What follows a noted effect goes on from its value, with the note already there. -/
theorem halts_noted_bind_value_iff {b : β} :
    ((e.noted k).invoke >>= g).Halts w (.ok b, w') ↔
      ∃ a t, e.invoke.Halts w.state (.ok a, t) ∧
        (g a).Halts ⟨t, w.notes ++ [k]⟩ (.ok b, w') :=
  halts_bind_value_iff.trans (exists_noted_ok_iff _)

/-- It panics if the effect does, which is noted all the same, or if the rest does. -/
theorem halts_noted_bind_panic_iff {p : Panic} :
    ((e.noted k).invoke >>= g).Halts w (.error p, w') ↔
      (∃ t, e.invoke.Halts w.state (.error p, t) ∧ w' = ⟨t, w.notes ++ [k]⟩) ∨
      ∃ a t, e.invoke.Halts w.state (.ok a, t) ∧
        (g a).Halts ⟨t, w.notes ++ [k]⟩ (.error p, w') :=
  halts_bind_panic_iff.trans (or_congr halts_noted_iff (exists_noted_ok_iff _))

end

/-- `once` invokes `e` and finishes with its value. `noted` is the same with a note of every
invocation. -/
structure InvokesOnce (e : Effect σ α) (finish : α → Computation σ β) (once : Effect σ β)
    (noted : Effect (Watched σ Unit) β) : Prop where
  returns_iff {w w' : Watched σ Unit} {b : β} : noted.invoke.Halts w (.ok b, w') ↔
    ∃ a t u, e.invoke.Halts w.state (.ok a, t) ∧ (finish a).Halts t (.ok b, u) ∧
      w' = ⟨u, w.notes ++ [()]⟩
  panics_iff {w w' : Watched σ Unit} {p : Panic} : noted.invoke.Halts w (.error p, w') ↔
    (∃ t, e.invoke.Halts w.state (.error p, t) ∧ w' = ⟨t, w.notes ++ [()]⟩) ∨
    ∃ a t u, e.invoke.Halts w.state (.ok a, t) ∧ (finish a).Halts t (.error p, u) ∧
      w' = ⟨u, w.notes ++ [()]⟩
  /-- Taking notes changes nothing else. -/
  alike_noted : Alike Watched.Of Eq once.invoke noted.invoke

/-- The parts of what combines two effects. -/
inductive Side where
  | left
  | right

/-- Running `both` invokes `a`, then `b`, and finishes with their values. `noted` is the same with
notes of the invocations. -/
structure InvokesBoth (a : Effect σ α) (b : Effect σ β) (finish : α → β → Computation σ γ)
    (both : Computation σ γ) (noted : Computation (Watched σ Side) γ) : Prop where
  returns_iff {w w' : Watched σ Side} {z : γ} : noted.Halts w (.ok z, w') ↔
    ∃ x t y u v, a.invoke.Halts w.state (.ok x, t) ∧ b.invoke.Halts t (.ok y, u) ∧
      (finish x y).Halts u (.ok z, v) ∧ w' = ⟨v, w.notes ++ [.left, .right]⟩
  /-- After a panic of the left part the right one is not invoked. -/
  panics_iff {w w' : Watched σ Side} {p : Panic} : noted.Halts w (.error p, w') ↔
    (∃ t, a.invoke.Halts w.state (.error p, t) ∧ w' = ⟨t, w.notes ++ [.left]⟩) ∨
    (∃ x t u, a.invoke.Halts w.state (.ok x, t) ∧ b.invoke.Halts t (.error p, u) ∧
      w' = ⟨u, w.notes ++ [.left, .right]⟩) ∨
    ∃ x t y u v, a.invoke.Halts w.state (.ok x, t) ∧ b.invoke.Halts t (.ok y, u) ∧
      (finish x y).Halts u (.error p, v) ∧ w' = ⟨v, w.notes ++ [.left, .right]⟩
  /-- Taking notes changes nothing else. -/
  alike_noted : Alike Watched.Of Eq both noted

/-- A mapped effect invokes its source once, and applies the function once if that returned. -/
theorem invokesOnce_map (e : Effect σ α) (f : α → Computation σ β) :
    InvokesOnce e f (e.map f) ((e.noted ()).map fun a => (f a).watched) where
  returns_iff := by
    intro w w' b
    simp only [map, halts_noted_bind_value_iff, halts_watched_iff, exists_and_left]
  panics_iff := by
    intro w w' p
    simp only [map, halts_noted_bind_panic_iff, halts_watched_iff, exists_and_left]
  alike_noted := (Effect.alike_noted () e).bind_eq fun a => alike_watched (f a)

/-- Both effects are invoked in order, and the function is applied once if both returned. -/
theorem invokesBoth_map2 (a : Effect σ α) (b : Effect σ β) (h : α → β → Computation σ γ) :
    InvokesBoth a b h (a.map2 b h).invoke
      ((a.noted .left).map2 (b.noted .right) fun x y => (h x y).watched).invoke where
  returns_iff := by
    intro w w' z
    simp only [map2, halts_noted_bind_value_iff, halts_watched_iff, exists_and_left,
      List.append_assoc, List.cons_append, List.nil_append]
  panics_iff := by
    intro w w' p
    -- A panic of the right part and one of the function both come after a value of the left part.
    simp only [map2, halts_noted_bind_panic_iff, halts_watched_iff, and_or_left, exists_or,
      exists_and_left, List.append_assoc, List.cons_append, List.nil_append]
  alike_noted := (Effect.alike_noted _ a).bind_eq fun x =>
    (Effect.alike_noted _ b).bind_eq fun y => alike_watched (h x y)

/-- The function that the left part yields finishes. -/
theorem invokesBoth_apply (u : Effect σ (α → Computation σ β)) (v : Effect σ α) :
    InvokesBoth u v (fun f a => f a) (u.apply v).invoke
      (((u.noted .left).map fun f => return fun a => (f a).watched).apply
        (v.noted .right)).invoke := by
  have hnoted : (((u.noted Side.left).map fun f => return fun a => (f a).watched).apply
      (v.noted Side.right)).invoke =
      ((u.noted .left).map2 (v.noted .right) fun f a => (f a).watched).invoke := by
    simp only [apply, map, map2, bind_assoc, pure_bind]
  rw [hnoted]
  exact invokesBoth_map2 u v fun f a => f a

/-! ## The laws together -/

/-- What the method makes and what the operation of the sequencing interface makes both act as
`e`. -/
structure ActsAs (e method : Effect σ α) (operation : Computation σ (Effect σ α)) : Prop where
  method : method ≈ e
  operation : MakeAlike operation (return e)

/-- A method that builds an equivalent effect acts as that effect. -/
theorem actsAs_of_equiv {e method : Effect σ α} (h : method ≈ e) :
    ActsAs e method (return method) :=
  ⟨h, makeAlike_pure_iff.2 h⟩

/-- The laws of mapping effects, of applying functions that effects yield, and of what combines two
effects. -/
structure ApplicativeLaws (σ : Type) : Prop where
  map_id {α : Type} (e : Effect σ α) :
    ActsAs e (e.map fun a => return a) (Sequencing.map e fun a => return a)
  map_map {α β γ : Type} (e : Effect σ α) (f : α → Computation σ β) (g : β → Computation σ γ) :
    ActsAs (e.map fun a => f a >>= g) ((e.map f).map g) (do
      let d ← Sequencing.map e f
      Sequencing.map d g)
  map2 {α β γ : Type} (a : Effect σ α) (b : Effect σ β) (h : α → β → Computation σ γ) :
    ActsAs (a.bind fun x => return b.map fun y => h x y) (a.map2 b h) (Sequencing.map2 a b h)
  apply_identity {α : Type} (v : Effect σ α) :
    ActsAs v ((pure fun a => return a).apply v)
      (Sequencing.apply (Sequencing.pure σ fun a => return a) v)
  /-- The function is applied when the effect is invoked. -/
  apply_homomorphism {α β : Type} (f : α → Computation σ β) (a : α) :
    ActsAs (defer do let b ← f a; return pure b) ((pure f).apply (pure a))
      (Sequencing.apply (F := Effect σ) (Sequencing.pure σ f) (Sequencing.pure σ a))
  apply_interchange {α β : Type} (u : Effect σ (α → Computation σ β)) (a : α) :
    ActsAs ((pure fun f => f a).apply u) (u.apply (pure a))
      (Sequencing.apply u (Sequencing.pure σ a))
  apply_composition {α β γ : Type} (u : Effect σ (β → Computation σ γ))
    (v : Effect σ (α → Computation σ β)) (w : Effect σ α) :
    ActsAs (u.apply (v.apply w)) ((((pure compose).apply u).apply v).apply w) (do
      let composing ← Sequencing.apply (Sequencing.pure σ compose) u
      let composed ← Sequencing.apply composing v
      Sequencing.apply composed w)
  product_assoc {α β γ : Type} (a : Effect σ α) (b : Effect σ β) (c : Effect σ γ) :
    ActsAs ((a.product (b.product c)).map fun xyz => return ((xyz.1, xyz.2.1), xyz.2.2))
      ((a.product b).product c) (do
        let ab ← Sequencing.product a b
        Sequencing.product ab c)
  product {α β : Type} (a : Effect σ α) (b : Effect σ β) :
    ActsAs (a.bind fun x => return b.bind fun y => return pure (x, y)) (a.product b)
      (Sequencing.product a b)
  applyFirst {α β : Type} (a : Effect σ α) (b : Effect σ β) :
    MakeAlike (Sequencing.applyFirst a b)
      (return a.bind fun x => return b.bind fun _ => return pure x)
  applySecond {α β : Type} (a : Effect σ α) (b : Effect σ β) :
    MakeAlike (Sequencing.applySecond a b)
      (return a.bind fun _ => return b.bind fun y => return pure y)
  andThen {α β : Type} (a : Effect σ α) (b : Effect σ β) :
    ActsAs (a.bind fun _ => return b.bind fun y => return pure y) (a.andThen b)
      (Sequencing.andThen a b)
  void {α : Type} (e : Effect σ α) :
    ActsAs (e.bind fun _ => return pure ()) e.void (Sequencing.void e)
  replace {α β : Type} (e : Effect σ α) (b : β) :
    ActsAs (e.bind fun _ => return pure b) (e.replace b) (Sequencing.replace e b)
  invokes_map {α β : Type} (e : Effect σ α) (f : α → Computation σ β) :
    InvokesOnce e f (e.map f) ((e.noted ()).map fun a => (f a).watched)
  invokes_void {α : Type} (e : Effect σ α) :
    InvokesOnce e (fun _ => return ()) e.void (e.noted ()).void
  invokes_replace {α β : Type} (e : Effect σ α) (b : β) :
    InvokesOnce e (fun _ => return b) (e.replace b) ((e.noted ()).replace b)
  invokes_map2 {α β γ : Type} (a : Effect σ α) (b : Effect σ β) (h : α → β → Computation σ γ) :
    InvokesBoth a b h (a.map2 b h).invoke
      ((a.noted .left).map2 (b.noted .right) fun x y => (h x y).watched).invoke
  /-- The function that was yielded takes no notes. -/
  invokes_apply {α β : Type} (u : Effect σ (α → Computation σ β)) (v : Effect σ α) :
    InvokesBoth u v (fun f a => f a) (u.apply v).invoke
      (((u.noted .left).map fun f => return fun a => (f a).watched).apply
        (v.noted .right)).invoke
  invokes_product {α β : Type} (a : Effect σ α) (b : Effect σ β) :
    InvokesBoth a b (fun x y => return (x, y)) (a.product b).invoke
      ((a.noted .left).product (b.noted .right)).invoke
  invokes_applyFirst {α β : Type} (a : Effect σ α) (b : Effect σ β) :
    InvokesBoth a b (fun x _ => return x) (enter (Sequencing.applyFirst a b))
      (enter (Sequencing.applyFirst (a.noted .left) (b.noted .right)))
  invokes_applySecond {α β : Type} (a : Effect σ α) (b : Effect σ β) :
    InvokesBoth a b (fun _ y => return y) (enter (Sequencing.applySecond a b))
      (enter (Sequencing.applySecond (a.noted .left) (b.noted .right)))
  invokes_andThen {α β : Type} (a : Effect σ α) (b : Effect σ β) :
    InvokesBoth a b (fun _ y => return y) (a.andThen b).invoke
      ((a.noted .left).andThen (b.noted .right)).invoke

/-- The laws hold for the methods and for the trait's functions, and each part is invoked once, in
order. -/
theorem applicativeLaws : ApplicativeLaws σ where
  map_id e := actsAs_of_equiv (map_id_equiv e)
  map_map e f g := actsAs_of_equiv (map_map_equiv e f g)
  map2 a b h := actsAs_of_equiv (equiv_of_invoke_eq rfl)
  apply_identity v := actsAs_of_equiv (map_id_equiv v)
  apply_homomorphism f a := actsAs_of_equiv (apply_pure_pure_equiv f a)
  apply_interchange u a := actsAs_of_equiv (apply_pure_equiv u a)
  apply_composition u v w := actsAs_of_equiv (apply_compose_equiv u v w)
  product_assoc a b c := actsAs_of_equiv (product_product_equiv a b c)
  product a b := actsAs_of_equiv (equiv_of_invoke_eq rfl)
  applyFirst a b := makeAlike_pure_iff.2 (equiv_of_invoke_eq rfl)
  applySecond a b := makeAlike_pure_iff.2 (equiv_of_invoke_eq rfl)
  andThen a b := actsAs_of_equiv (equiv_of_invoke_eq (invoke_andThen_eq_map2 a b))
  void e := actsAs_of_equiv (equiv_of_invoke_eq rfl)
  replace e b := actsAs_of_equiv (equiv_of_invoke_eq rfl)
  invokes_map := invokesOnce_map
  invokes_void e := invokesOnce_map e _
  invokes_replace e b := invokesOnce_map e _
  invokes_map2 := invokesBoth_map2
  invokes_apply := invokesBoth_apply
  invokes_product a b := invokesBoth_map2 a b _
  invokes_applyFirst a b := invokesBoth_map2 a b _
  invokes_applySecond a b := invokesBoth_map2 a b _
  invokes_andThen a b := by
    rw [invoke_andThen_eq_map2, invoke_andThen_eq_map2]
    exact invokesBoth_map2 a b _

end Effect

end Deferred
