import Deferred.Effect.Loop
import Deferred.Effect.Pointwise
import Deferred.Proofs.Observation
import Deferred.Sequencing

/-!
# Doing at once what an effect does later

A program of the sequencing interface can be built with effects or with values that are already
there. Built with effects it waits to be invoked; built with values it has run. `Postpones x y` says
that `x` only makes an effect, and that every invocation of this effect is what `y` does at once.

Each operation of the interface keeps this (`Postpones.map`, `Postpones.map2`, `Postpones.apply`,
`Postpones.bind`, `Postpones.combine` and so on), although for values the functions are applied
while the program is being built. So it holds of every program (`Program.postpones`).
-/

namespace Deferred

open Deferred.Computation

variable {σ α β γ : Type}

/-! ## Now and later -/

/-- `x` only makes an effect, and every invocation of this effect is what `y` does. -/
def Postpones (x : Computation σ (Effect σ α)) (y : Computation σ (Identity α)) : Prop :=
  ∃ e, x = pure e ∧ e.invoke = Identity.value <$> y

/-- Making an effect with `x` and invoking it is what `y` does. Unlike in `Postpones`, making the
effect may already be part of it. -/
def Delivers (x : Computation σ (Effect σ α)) (y : Computation σ (Identity α)) : Prop :=
  Effect.enter x = Identity.value <$> y

section

variable {x : Computation σ (Effect σ α)} {y : Computation σ (Identity α)}
  {x' : Computation σ (Effect σ β)} {y' : Computation σ (Identity β)}

theorem Postpones.delivers (h : Postpones x y) : Delivers x y := by
  obtain ⟨e, rfl, he⟩ := h
  exact he

/-- What is done first can be done first on both sides. -/
theorem delivers_bind {z : Computation σ γ} {f : γ → Computation σ (Effect σ α)}
    {g : γ → Computation σ (Identity α)} (h : ∀ c, Delivers (f c) (g c)) :
    Delivers (z >>= f) (z >>= g) := by
  have hrest : (fun c => Effect.enter (f c)) = fun c => Identity.value <$> g c := funext h
  show (z >>= f >>= fun e => e.invoke) = Identity.value <$> (z >>= g)
  rw [bind_assoc, map_bind]
  exact congrArg (z >>= ·) hrest

/-! ## Constants -/

/-- A plain effect postpones the value it holds. -/
theorem postpones_pure (a : α) :
    Postpones (return (Sequencing.pure σ a : Effect σ α)) (return Sequencing.pure σ a) :=
  ⟨.pure a, rfl, rfl⟩

theorem postpones_empty [Monoid α] :
    Postpones (return (Monoid.empty : Effect σ α)) (return Monoid.empty) :=
  postpones_pure Monoid.empty

/-! ## Operations -/

/-- Mapping keeps the two in step. -/
theorem Postpones.map (h : Postpones x y) (f : α → Computation σ β) :
    Postpones (x >>= fun e => Sequencing.map e f) (y >>= fun a => Sequencing.map a f) := by
  obtain ⟨e, rfl, he⟩ := h
  refine ⟨e.map f, rfl, ?_⟩
  simp only [Effect.map, he, Sequencing.map, map_eq_pure_bind, bind_assoc, pure_bind, bind_pure]

/-- The first operand has run before the second one is built, and both before the function. -/
theorem Postpones.map2 (h : Postpones x y) (h' : Postpones x' y') (f : α → β → Computation σ γ) :
    Postpones (x >>= fun e => x' >>= fun d => Sequencing.map2 e d f)
      (y >>= fun a => y' >>= fun b => Sequencing.map2 a b f) := by
  obtain ⟨e, rfl, he⟩ := h
  obtain ⟨d, rfl, hd⟩ := h'
  refine ⟨e.map2 d f, rfl, ?_⟩
  simp only [Effect.map2, he, hd, Sequencing.map2, map_eq_pure_bind, bind_assoc, pure_bind,
    bind_pure]

/-- Of an application the functions are built first and invoked first. -/
theorem Postpones.apply {functions : Computation σ (Effect σ (α → Computation σ β))}
    {functions' : Computation σ (Identity (α → Computation σ β))}
    (hf : Postpones functions functions') (h : Postpones x y) :
    Postpones (functions >>= fun fs => x >>= fun e => Sequencing.apply fs e)
      (functions' >>= fun fs => y >>= fun a => Sequencing.apply fs a) := by
  obtain ⟨fs, rfl, hfs⟩ := hf
  obtain ⟨e, rfl, he⟩ := h
  refine ⟨fs.apply e, rfl, ?_⟩
  simp only [Effect.apply, hfs, he, Sequencing.apply, map_eq_pure_bind, bind_assoc, pure_bind,
    bind_pure]

/-- A continuation may do things when it is entered, so it is only asked to deliver. -/
theorem Postpones.bind (h : Postpones x y) {f : α → Computation σ (Effect σ β)}
    {g : α → Computation σ (Identity β)} (hf : ∀ a, Delivers (f a) (g a)) :
    Postpones (x >>= fun e => Sequencing.bind e f) (y >>= fun a => Sequencing.bind a g) := by
  obtain ⟨e, rfl, he⟩ := h
  have hnext : (fun a => Effect.enter (f a)) = fun a => Identity.value <$> g a := funext hf
  refine ⟨e.bind f, rfl, ?_⟩
  show (e.invoke >>= fun a => Effect.enter (f a)) = _
  rw [hnext, he]
  simp only [Sequencing.bind, map_eq_pure_bind, bind_assoc, pure_bind]

/-- The second part is made before either is invoked. -/
theorem Postpones.andThen (h : Postpones x y) (h' : Postpones x' y') :
    Postpones (x >>= fun e => x' >>= fun d => Sequencing.andThen e d)
      (y >>= fun a => y' >>= fun b => Sequencing.andThen a b) := by
  obtain ⟨e, rfl, he⟩ := h
  obtain ⟨d, rfl, hd⟩ := h'
  refine ⟨e.andThen d, rfl, ?_⟩
  simp only [Effect.andThen, Effect.bind, he, hd, Sequencing.andThen, Sequencing.bind,
    map_eq_pure_bind, bind_assoc, pure_bind, bind_pure]

/-! ## Operations from sequencing alone -/

theorem Postpones.mapViaBind (h : Postpones x y) (f : α → Computation σ β) :
    Postpones (x >>= fun e => Sequencing.mapViaBind e f)
      (y >>= fun a => Sequencing.mapViaBind a f) :=
  h.bind fun a => delivers_bind (z := f a) fun b => (postpones_pure b).delivers

theorem Postpones.applyViaBind {functions : Computation σ (Effect σ (α → Computation σ β))}
    {functions' : Computation σ (Identity (α → Computation σ β))}
    (hf : Postpones functions functions') (h : Postpones x y) :
    Postpones (functions >>= fun fs => x >>= fun e => Sequencing.applyViaBind fs e)
      (functions' >>= fun fs => y >>= fun a => Sequencing.applyViaBind fs a) := by
  obtain ⟨fs, rfl, hfs⟩ := hf
  obtain ⟨e, rfl, he⟩ := h
  refine ⟨fs.bind fun f => Sequencing.mapViaBind e f, rfl, ?_⟩
  simp only [Effect.bind, Effect.pure, hfs, he, Sequencing.applyViaBind, Sequencing.mapViaBind,
    Sequencing.bind, Sequencing.pure, map_eq_pure_bind, bind_assoc, pure_bind, bind_pure]

/-! ## Combining -/

/-- Effects combine now and their values later, which is when a combination can panic. -/
theorem Postpones.combine [Semigroup α] {x' : Computation σ (Effect σ α)}
    {y' : Computation σ (Identity α)} (h : Postpones x y) (h' : Postpones x' y') :
    Postpones (x >>= fun e => x' >>= fun d => liftM (Semigroup.combine e d))
      (y >>= fun a => y' >>= fun b => liftM (Semigroup.combine a b)) := by
  obtain ⟨e, rfl, he⟩ := h
  obtain ⟨d, rfl, hd⟩ := h'
  have hcombine : ∀ a b : Identity α,
      Identity.value <$> (liftM (Semigroup.combine a b) : Computation σ (Identity α)) =
        liftM (Semigroup.combine a.value b.value) := by
    intro a b
    show Identity.value <$> ofExcept (Identity.mk <$> Semigroup.combine a.value b.value) = _
    cases Semigroup.combine a.value b.value <;> rfl
  refine ⟨e.map2 d fun a b => Semigroup.combine a b, rfl, ?_⟩
  simp only [Effect.map2, he, hd, map_bind, hcombine]
  simp only [map_eq_pure_bind, bind_assoc, pure_bind]

/-- Through `bind` as well, values combine when the effect is invoked. -/
theorem Postpones.appendViaBind [Semigroup α] {x' : Computation σ (Effect σ α)}
    {y' : Computation σ (Identity α)} (h : Postpones x y) (h' : Postpones x' y') :
    Postpones (x >>= fun e => x' >>= fun d => Sequencing.appendViaBind e d)
      (y >>= fun a => y' >>= fun b => Sequencing.appendViaBind a b) := by
  obtain ⟨e, rfl, he⟩ := h
  obtain ⟨d, rfl, hd⟩ := h'
  refine ⟨e.bind fun a => Sequencing.mapViaBind d fun b => Semigroup.combine a b, rfl, ?_⟩
  simp only [Effect.bind, Effect.pure, he, hd, Sequencing.appendViaBind, Sequencing.mapViaBind,
    Sequencing.bind, Sequencing.pure, map_eq_pure_bind, bind_assoc, pure_bind, bind_pure]

end

/-! ## Programs of the interface -/

/-- The programs that yield values of a type, over the operations that every type of results has.
Functions are computations; the function of `bind` does something and then chooses a program. -/
inductive Program (σ : Type) : Type → Type 1 where
  | pure {α : Type} (a : α) : Program σ α
  | map {α β : Type} (p : Program σ α) (f : α → Computation σ β) : Program σ β
  | replace {α β : Type} (p : Program σ α) (b : β) : Program σ β
  | void {α : Type} (p : Program σ α) : Program σ Unit
  | map2 {α β γ : Type} (p : Program σ α) (q : Program σ β) (f : α → β → Computation σ γ) :
      Program σ γ
  | product {α β : Type} (p : Program σ α) (q : Program σ β) : Program σ (α × β)
  | apply {α β : Type} (functions : Program σ (α → Computation σ β)) (p : Program σ α) :
      Program σ β
  | applyFirst {α β : Type} (p : Program σ α) (q : Program σ β) : Program σ α
  | applySecond {α β : Type} (p : Program σ α) (q : Program σ β) : Program σ β
  | bind {α β ι : Type} (p : Program σ α) (f : α → Computation σ ι) (next : ι → Program σ β) :
      Program σ β
  | andThen {α β : Type} (p : Program σ α) (q : Program σ β) : Program σ β
  | combine {α : Type} [Semigroup α] (p q : Program σ α) : Program σ α
  | empty {α : Type} [Monoid α] : Program σ α
  | mapViaBind {α β : Type} (p : Program σ α) (f : α → Computation σ β) : Program σ β
  | applyViaBind {α β : Type} (functions : Program σ (α → Computation σ β)) (p : Program σ α) :
      Program σ β
  | appendViaBind {α : Type} [Semigroup α] (p q : Program σ α) : Program σ α
  | emptyViaPure {α : Type} [Monoid α] : Program σ α

/-- Types of results that combine as soon as their values do. -/
class Combining (F : Type → Type) where
  combine {α : Type} [Semigroup α] : F α → F α → Except Panic (F α)
  empty {α : Type} [Monoid α] : F α

instance : Combining (Effect σ) := ⟨Semigroup.combine, Monoid.empty⟩

instance : Combining Identity := ⟨Semigroup.combine, Monoid.empty⟩

namespace Program

/-- Builds a program with a type of results. Operands are built in the order in which they
stand. -/
def build (F : Type → Type) [Sequencing σ F] [Combining F] {α : Type} :
    Program σ α → Computation σ (F α)
  | .pure a => return Sequencing.pure σ a
  | .map p f => do
    let x ← p.build F
    Sequencing.map x f
  | .replace p b => do
    let x ← p.build F
    Sequencing.replace x b
  | .void p => do
    let x ← p.build F
    Sequencing.void x
  | .map2 p q f => do
    let x ← p.build F
    let y ← q.build F
    Sequencing.map2 x y f
  | .product p q => do
    let x ← p.build F
    let y ← q.build F
    Sequencing.product x y
  | .apply functions p => do
    let fs ← functions.build F
    let x ← p.build F
    Sequencing.apply fs x
  | .applyFirst p q => do
    let x ← p.build F
    let y ← q.build F
    Sequencing.applyFirst x y
  | .applySecond p q => do
    let x ← p.build F
    let y ← q.build F
    Sequencing.applySecond x y
  | .bind p f next => do
    let x ← p.build F
    Sequencing.bind x fun a => do
      let i ← f a
      (next i).build F
  | .andThen p q => do
    let x ← p.build F
    let y ← q.build F
    Sequencing.andThen x y
  | @combine _ _ _ p q => do
    let x ← p.build F
    let y ← q.build F
    Combining.combine x y
  | @empty _ _ _ => return Combining.empty
  | .mapViaBind p f => do
    let x ← p.build F
    Sequencing.mapViaBind x f
  | .applyViaBind functions p => do
    let fs ← functions.build F
    let x ← p.build F
    Sequencing.applyViaBind fs x
  | @appendViaBind _ _ _ p q => do
    let x ← p.build F
    let y ← q.build F
    Sequencing.appendViaBind x y
  | @emptyViaPure _ _ _ => return Sequencing.emptyViaPure σ F

/-- Every program built with effects is the same program run at once, postponed. -/
theorem postpones (p : Program σ α) : Postpones (p.build (Effect σ)) (p.build Identity) := by
  induction p with
  | pure a => exact postpones_pure a
  | map p f ih => exact ih.map f
  | replace p b ih => exact ih.map fun _ => return b
  | void p ih => exact ih.map fun _ => return ()
  | map2 p q f ihp ihq => exact ihp.map2 ihq f
  | product p q ihp ihq => exact ihp.map2 ihq fun a b => return (a, b)
  | apply functions p ihf ihp => exact ihf.apply ihp
  | applyFirst p q ihp ihq => exact ihp.map2 ihq fun a _ => return a
  | applySecond p q ihp ihq => exact ihp.map2 ihq fun _ b => return b
  | bind p f next ihp ihnext =>
    -- The function of the bind acts first in both, and then the program that it has chosen does.
    exact ihp.bind fun a => delivers_bind (z := f a) fun i => (ihnext i).delivers
  | andThen p q ihp ihq => exact ihp.andThen ihq
  | combine p q ihp ihq => exact ihp.combine ihq
  | empty => exact postpones_empty
  | mapViaBind p f ih => exact ih.mapViaBind f
  | applyViaBind functions p ihf ihp => exact ihf.applyViaBind ihp
  | appendViaBind p q ihp ihq => exact ihp.appendViaBind ihq
  | emptyViaPure => exact postpones_empty

end Program

end Deferred
