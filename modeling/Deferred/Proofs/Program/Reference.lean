import Deferred.Program.Build
import Deferred.Proofs.Postponement
import Deferred.Proofs.Program.Evaluation

/-!
# Values as a reference for effects

What a program does as an effect is what it does at once with values that are already there
(`identity_models_effect`). This holds of programs over any types and functions (`Program`), and of
the terms that stand in both modes: `Counterparts env e d` says that `e` and `d` are the same term,
one for values and one for effects, whose plain arguments are values already. The bodies of its
functions may first do something and evaluate arguments, since a function is applied at the same
point in both modes.
-/

namespace Deferred

open Deferred.Computation

/-! ## Terms of both modes -/

mutual

/-- The same term of the interface in both modes. Plain arguments are values already. -/
inductive Counterparts : Env → Term .immediate → Term .deferred → Prop where
  | pure {env : Env} {x : Expr} {v : Value} (hx : x.value? env = some v) :
      Counterparts env (.pure x) (.pure x)
  | here {env : Env} {x : Expr} {v : Value} (hx : x.value? env = some v) :
      Counterparts env (.here x) (.pure x)
  | map {env : Env} {e : Term .immediate} {d : Term .deferred} (name : String) (body : Expr)
      (h : Counterparts env e d) : Counterparts env (.map e name body) (.map d name body)
  | map2 {env : Env} {e e' : Term .immediate} {d d' : Term .deferred} (first second : String)
      (body : Expr) (h : Counterparts env e d) (h' : Counterparts env e' d') :
      Counterparts env (.map2 e e' first second body) (.map2 d d' first second body)
  | bind {env : Env} {e e' : Term .immediate} {d d' : Term .deferred} (name : String)
      (h : Counterparts env e d) (h' : ∀ v, BodyCounterparts (env.bind name v) e' d') :
      Counterparts env (.bind e name e') (.bind d name d')
  | andThen {env : Env} {e e' : Term .immediate} {d d' : Term .deferred}
      (h : Counterparts env e d) (h' : Counterparts env e' d') :
      Counterparts env (.andThen e e') (.andThen d d')
  | replace {env : Env} {e : Term .immediate} {d : Term .deferred} {x : Expr} {v : Value}
      (h : Counterparts env e d) (hx : x.value? env = some v) :
      Counterparts env (.replace e x) (.replace d x)
  | void {env : Env} {e : Term .immediate} {d : Term .deferred} (h : Counterparts env e d) :
      Counterparts env (.void e) (.void d)
  | product {env : Env} {e e' : Term .immediate} {d d' : Term .deferred}
      (h : Counterparts env e d) (h' : Counterparts env e' d') :
      Counterparts env (.product e e') (.product d d')
  | applyFirst {env : Env} {e e' : Term .immediate} {d d' : Term .deferred}
      (h : Counterparts env e d) (h' : Counterparts env e' d') :
      Counterparts env (.applyFirst e e') (.applyFirst d d')
  | applySecond {env : Env} {e e' : Term .immediate} {d d' : Term .deferred}
      (h : Counterparts env e d) (h' : Counterparts env e' d') :
      Counterparts env (.applySecond e e') (.applySecond d d')
  | apply {env : Env} {e e' : Term .immediate} {d d' : Term .deferred} (name arg : String)
      (body : Expr) (h : Counterparts env e d) (h' : Counterparts env e' d') :
      Counterparts env (.apply e name arg body e') (.apply d name arg body d')
  | mapViaBind {env : Env} {e : Term .immediate} {d : Term .deferred} (name : String)
      (body : Expr) (h : Counterparts env e d) :
      Counterparts env (.mapViaBind e name body) (.mapViaBind d name body)
  | applyViaBind {env : Env} {e e' : Term .immediate} {d d' : Term .deferred}
      (name arg : String) (body : Expr) (h : Counterparts env e d)
      (h' : Counterparts env e' d') :
      Counterparts env (.applyViaBind e name arg body e') (.applyViaBind d name arg body d')
  | combine {env : Env} {e e' : Term .immediate} {d d' : Term .deferred} (shape : Shape)
      (h : Counterparts env e d) (h' : Counterparts env e' d') :
      Counterparts env (.combine shape e e') (.combine shape d d')
  | appendViaBind {env : Env} {e e' : Term .immediate} {d d' : Term .deferred} (shape : Shape)
      (h : Counterparts env e d) (h' : Counterparts env e' d') :
      Counterparts env (.appendViaBind shape e e') (.appendViaBind shape d d')
  | empty (env : Env) (shape : Shape) : Counterparts env (.empty shape) (.empty shape)
  | emptyViaPure (env : Env) (shape : Shape) :
      Counterparts env (.emptyViaPure shape) (.emptyViaPure shape)

/-- The same body of a function in both modes: what the function does before it has a program, and
then the program. -/
inductive BodyCounterparts : Env → Term .immediate → Term .deferred → Prop where
  | program {env : Env} {e : Term .immediate} {d : Term .deferred} (h : Counterparts env e d) :
      BodyCounterparts env e d
  | constant (env : Env) (x : Expr) : BodyCounterparts env (.pure x) (.pure x)
  | constantHere (env : Env) (x : Expr) : BodyCounterparts env (.here x) (.pure x)
  | mark {env : Env} {e : Term .immediate} {d : Term .deferred} (x : Expr)
      (h : BodyCounterparts env e d) : BodyCounterparts env (.mark x e) (.mark x d)
  | letIn {env : Env} {e : Term .immediate} {d : Term .deferred} (name : String) (x : Expr)
      (h : ∀ v, BodyCounterparts (env.bind name v) e d) :
      BodyCounterparts env (.letIn name x e) (.letIn name x d)
  | cond {env : Env} {e e' : Term .immediate} {d d' : Term .deferred} (test : Expr)
      (h : BodyCounterparts env e d) (h' : BodyCounterparts env e' d') :
      BodyCounterparts env (.cond test e e') (.cond test d d')

end

/-! ## Operations in a row

A term reads the values of its operands before it combines them and writes the result back, so its
operation stands between others.
-/

section

variable {σ α β γ δ : Type} {x : Computation σ (Effect σ α)} {y : Computation σ (Identity α)}
  {x' : Computation σ (Effect σ β)} {y' : Computation σ (Identity β)}

theorem Postpones.of_eq {z : Computation σ (Effect σ α)} {w : Computation σ (Identity α)}
    (h : Postpones z w) (hx : z = x) (hy : w = y) : Postpones x y := hx ▸ hy ▸ h

theorem Postpones.map_map (h : Postpones x y) (f : α → Computation σ β)
    (g : β → Computation σ γ) :
    Postpones (do let e ← x; let e ← Sequencing.map e f; Sequencing.map e g)
      (do let a ← y; let a ← Sequencing.map a f; Sequencing.map a g) :=
  ((h.map f).map g).of_eq (bind_bind_eq ..) (bind_bind_eq ..)

theorem Postpones.map2_map (h : Postpones x y) (h' : Postpones x' y')
    (f : α → β → Computation σ γ) (g : γ → Computation σ δ) :
    Postpones (do let e ← x; let d ← x'; let both ← Sequencing.map2 e d f; Sequencing.map both g)
      (do let a ← y; let b ← y'; let both ← Sequencing.map2 a b f; Sequencing.map both g) := by
  refine ((h.map2 h' f).map g).of_eq ?_ ?_
  · simp only [bind_bind_eq]
  · simp only [bind_bind_eq]

/-- The functions are made of the first operand before the second one is built. -/
theorem Postpones.map_apply (h : Postpones x y) (h' : Postpones x' y')
    (f : α → Computation σ (β → Computation σ γ)) :
    Postpones (do let e ← x; let fs ← Sequencing.map e f; let d ← x'; Sequencing.apply fs d)
      (do let a ← y; let fs ← Sequencing.map a f; let b ← y'; Sequencing.apply fs b) :=
  ((h.map f).apply h').of_eq (bind_bind_eq ..) (bind_bind_eq ..)

theorem Postpones.map_applyViaBind (h : Postpones x y) (h' : Postpones x' y')
    (f : α → Computation σ (β → Computation σ γ)) :
    Postpones (do let e ← x; let fs ← Sequencing.map e f; let d ← x'; Sequencing.applyViaBind fs d)
      (do let a ← y; let fs ← Sequencing.map a f; let b ← y'; Sequencing.applyViaBind fs b) :=
  ((h.map f).applyViaBind h').of_eq (bind_bind_eq ..) (bind_bind_eq ..)

/-- Values that are read, combined and written back are so when the effect is invoked. -/
theorem Postpones.map_combine_map [Semigroup γ] (h : Postpones x y) (h' : Postpones x' y')
    (read : α → Computation σ γ) (read' : β → Computation σ γ) (write : γ → Computation σ δ) :
    Postpones (do
        let e ← x
        let e ← Sequencing.map e read
        let d ← x'
        let d ← Sequencing.map d read'
        let both ← Semigroup.combine e d
        Sequencing.map both write)
      (do
        let a ← y
        let a ← Sequencing.map a read
        let b ← y'
        let b ← Sequencing.map b read'
        let both ← Semigroup.combine a b
        Sequencing.map both write) := by
  refine (((h.map read).combine (h'.map read')).map write).of_eq ?_ ?_
  · simp only [bind_bind_eq]
  · simp only [bind_bind_eq]

theorem Postpones.map_appendViaBind_map [Semigroup γ] (h : Postpones x y) (h' : Postpones x' y')
    (read : α → Computation σ γ) (read' : β → Computation σ γ) (write : γ → Computation σ δ) :
    Postpones (do
        let e ← x
        let e ← Sequencing.map e read
        let d ← x'
        let d ← Sequencing.map d read'
        let both ← Sequencing.appendViaBind e d
        Sequencing.map both write)
      (do
        let a ← y
        let a ← Sequencing.map a read
        let b ← y'
        let b ← Sequencing.map b read'
        let both ← Sequencing.appendViaBind a b
        Sequencing.map both write) := by
  refine (((h.map read).appendViaBind (h'.map read')).map write).of_eq ?_ ?_
  · simp only [bind_bind_eq]
  · simp only [bind_bind_eq]

end

/-! ## Arguments that are values already -/

section

variable {env : Env} {x : Expr} {v : Value} (hx : x.value? env = some v)

include hx

/-- An expression evaluates at once, and only the effect around its value waits. -/
theorem postpones_value :
    Postpones (do let v ← x.eval env; return (Sequencing.pure Context v : Effect Context Value))
      (do let v ← x.eval env; return Sequencing.pure Context v) := by
  rw [Expr.eval_of_value? hx]
  exact postpones_pure v

/-- Replacing a value evaluates the new one at once. -/
theorem Postpones.replace_value {y : Action (Effect Context Value)} {z : Action (Identity Value)}
    (h : Postpones y z) :
    Postpones (do let e ← y; let v ← x.eval env; Sequencing.replace e v)
      (do let a ← z; let v ← x.eval env; Sequencing.replace a v) := by
  rw [Expr.eval_of_value? hx]
  exact h.map fun _ => return v

end

/-- A term built with effects is the same term built with values, postponed. -/
theorem Counterparts.postpones {env : Env} {e : Term .immediate} {d : Term .deferred}
    (h : Counterparts env e d) : Postpones (d.build env) (e.build env) := by
  induction h using Counterparts.rec
    (motive_2 := fun env e d _ => Delivers (d.build env) (e.build env)) with
  | pure hx => exact postpones_value hx
  | here hx => exact postpones_value hx
  | map name body h ih => exact ih.map _
  | map2 first second body h h' ih ih' => exact ih.map2 ih' _
  | bind name h h' ih ih' => exact ih.bind ih'
  | andThen h h' ih ih' => exact ih.andThen ih'
  | replace h hx ih => exact ih.replace_value hx
  | void h ih => exact ih.map_map _ _
  | product h h' ih ih' => exact ih.map2_map ih' _ _
  | applyFirst h h' ih ih' => exact ih.map2 ih' _
  | applySecond h h' ih ih' => exact ih.map2 ih' _
  | apply name arg body h h' ih ih' => exact ih.map_apply ih' _
  | mapViaBind name body h ih => exact ih.mapViaBind _
  | applyViaBind name arg body h h' ih ih' => exact ih.map_applyViaBind ih' _
  | combine shape h h' ih ih' => exact ih.map_combine_map ih' _ _ _
  | appendViaBind shape h h' ih ih' => exact ih.map_appendViaBind_map ih' _ _ _
  | empty env shape => exact postpones_empty.map _
  | emptyViaPure env shape => exact postpones_empty.map _
  -- The bodies of functions.
  | program h ih => exact ih.delivers
  | constant env x => exact delivers_bind fun v => (postpones_pure v).delivers
  | constantHere env x => exact delivers_bind fun v => (postpones_pure v).delivers
  | mark x h ih => exact delivers_bind fun v => delivers_bind fun _ => ih
  | letIn name x h ih => exact delivers_bind ih
  | cond test h h' ih ih' =>
    refine delivers_bind fun v => delivers_bind fun holds => ?_
    cases holds with
    | true => exact ih
    | false => exact ih'

/-! ## The reference -/

section

variable {σ α : Type} {x : Computation σ (Effect σ α)} {y : Computation σ (Identity α)}

/-- From every state `x` makes an effect and leaves the state alone, and invoking the effect ends as
`y` does: in the same value or panic, and in the same state. -/
def ModelledBy (x : Computation σ (Effect σ α)) (y : Computation σ (Identity α)) : Prop :=
  ∃ e : Effect σ α, (∀ s, x.Halts s (.ok e, s)) ∧
    ∀ s o t, e.invoke.Halts s (o, t) ↔ y.Halts s (Identity.mk <$> o, t)

/-- Unwrapping the value changes nothing else about how a computation ends. -/
theorem halts_value_iff {s t : σ} {o : Except Panic α} :
    (Identity.value <$> y).Halts s (o, t) ↔ y.Halts s (Identity.mk <$> o, t) := by
  rw [map_eq_pure_bind, halts_bind_iff]
  cases o with
  | error p =>
    constructor
    · rintro (⟨q, u, hy, hend⟩ | ⟨a, u, -, hend⟩)
      · cases hend
        exact hy
      · exact nomatch halts_pure_iff.1 hend
    · intro hy
      exact .inl ⟨p, t, hy, rfl⟩
  | ok a =>
    constructor
    · rintro (⟨q, u, -, hend⟩ | ⟨a', u, hy, hend⟩)
      · exact nomatch hend
      · cases halts_pure_iff.1 hend
        exact hy
    · intro hy
      exact .inr ⟨⟨a⟩, t, hy, halts_pure_iff.2 rfl⟩

/-- What postpones a computation is modelled by it. -/
theorem Postpones.modelledBy (h : Postpones x y) : ModelledBy x y := by
  obtain ⟨e, rfl, he⟩ := h
  refine ⟨e, fun s => halts_pure_iff.2 rfl, fun s o t => ?_⟩
  rw [he]
  exact halts_value_iff

end

/-- Values that are already there are a reference model of effects: a program of the interface, run
at once, ends as the effect that it describes does when it is invoked, and building this effect
shows nothing. -/
theorem identity_models_effect :
    (∀ (σ α : Type) (p : Program σ α), ModelledBy (p.build (Effect σ)) (p.build Identity)) ∧
    (∀ (env : Env) (e : Term .immediate) (d : Term .deferred), Counterparts env e d →
      ModelledBy (d.build env) (e.build env)) :=
  ⟨fun _ _ p => p.postpones.modelledBy, fun _ _ _ h => h.postpones.modelledBy⟩

/-- Adds two numbers and records while it does so, records the sum, and fails before the results of
two operands can be combined. -/
def recordThenCombine {mode : Mode} : Term mode :=
  .bind (.map2 (.pure (.const (.int 1))) (.replace (.pure (.const .unit)) (.const (.int 2))) "a" "b"
      (.tap (.const (.str "add")) (.intOp .add (.var "a") (.var "b")))) "n" <|
    .mark (.var "n") <|
      .combine .string (.pure (.const (.str "left")))
        (.map (.empty .string) "right" (.fail .formatted (.var "right")))

theorem recordThenCombine_modelled :
    Counterparts [] recordThenCombine recordThenCombine ∧
      ∃ e : Effect Context Value,
        (∀ c, ((recordThenCombine : Term .deferred).build []).Halts c (.ok e, c)) ∧
        ∃ c, c.world.trace = #[.value (.str "add"), .value (.int 3)] ∧
          e.invoke.Halts ⟨World.initial true, fun _ => .never⟩ (.error (.formatted ""), c) := by
  have hterm : Counterparts [] recordThenCombine recordThenCombine :=
    .bind "n" (.map2 "a" "b" _ (.pure rfl) (.replace (.pure rfl) rfl)) fun v =>
      .mark _ (.program (.combine .string (.pure rfl) (.map "right" _ (.empty _ .string))))
  obtain ⟨e, hbuild, hinvoke⟩ := identity_models_effect.2 _ _ _ hterm
  exact ⟨hterm, e, hbuild, _, rfl, (hinvoke _ _ _).2 ⟨0, rfl⟩⟩

end Deferred
