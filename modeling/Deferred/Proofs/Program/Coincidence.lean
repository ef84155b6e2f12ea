import Deferred.Proofs.Program.Mentions

/-!
# A program depends on the names that it mentions

Scopes that agree on the names that a term mentions build the same thing
(`Term.build_congr`). A name that the term binds itself does not count, since what is bound inside
hides what the scope says.
-/

namespace Deferred

variable {α β : Type}

/-! ## Scopes that agree -/

/-- The names that are mentioned stand for the same in both scopes. -/
def Env.Agree (mentions : Mention → Prop) (env env' : Env) : Prop :=
  ∀ name, mentions (.var name) → env.find? name = env'.find? name

namespace Env.Agree

variable {A B : Mention → Prop} {env env' : Env}

/-- Environments that agree on what either part mentions agree on what the first one does. -/
theorem left (h : Agree (fun m => A m ∨ B m) env env') : Agree A env env' :=
  fun name hname => h name (.inl hname)

theorem right (h : Agree (fun m => A m ∨ B m) env env') : Agree B env env' :=
  fun name hname => h name (.inr hname)

/-- Under a binder the bound name stands for the same, whatever it stood for outside. -/
theorem under {name : String} (h : Agree (fun m => A m ∧ m.Outside [name]) env env') (v : Value) :
    Agree A (env.bind name v) (env'.bind name v) := by
  intro other hother
  rw [Bindings.find?_bind, Bindings.find?_bind]
  by_cases hname : name = other
  · rw [if_pos hname, if_pos hname]
  · rw [if_neg hname, if_neg hname]
    refine h other ⟨hother, fun bound hbound heq => ?_⟩
    rw [List.mem_singleton.1 hbound] at heq
    exact hname (Mention.var.inj heq).symm

theorem under₂ {first second : String}
    (h : Agree (fun m => A m ∧ m.Outside [first, second]) env env') (v w : Value) :
    Agree A ((env.bind first v).bind second w) ((env'.bind first v).bind second w) := by
  refine under (under ?_ v) w
  intro name hname
  obtain ⟨⟨hA, hsecond⟩, hfirst⟩ := hname
  refine h name ⟨hA, fun bound hbound => ?_⟩
  rcases List.mem_cons.1 hbound with rfl | hbound
  · exact hfirst bound List.mem_cons_self
  · exact hsecond bound hbound

theorem refl (mentions : Mention → Prop) (env : Env) : Agree mentions env env := fun _ _ => rfl

/-- A name that is not mentioned can be bound. -/
theorem bind_right {name : String} (h : Agree A env env') (hname : ¬A (.var name)) (v : Value) :
    Agree A env (env'.bind name v) := by
  intro other hother
  have hne : name ≠ other := fun heq => hname (heq ▸ hother)
  rw [Bindings.find?_bind, if_neg hne]
  exact h other hother

end Env.Agree

/-! ## Expressions -/

theorem bind_congr_eq {x y : Action α} {f g : α → Action β} (h : x = y) (hf : ∀ a, f a = g a) :
    (x >>= f) = (y >>= g) := by
  rw [h, funext hf]

namespace Expr

open Env (Agree)

mutual

/-- An expression evaluates the same where environments agree on what it mentions. -/
theorem eval_congr {env env' : Env} (x : Expr) (h : Agree (fun m => x.Mentions m) env env') :
    x.eval env = x.eval env' := by
  match x, h with
  | .const v, _ => rfl
  | .list items, h => exact bind_congr_eq (evalAll_congr items h) fun _ => rfl
  | .pair x y, h =>
    exact bind_congr_eq (x.eval_congr h.left) fun _ =>
      bind_congr_eq (y.eval_congr h.right) fun _ => rfl
  | .tagged tag x, h => exact bind_congr_eq (x.eval_congr h) fun _ => rfl
  | .var name, h =>
    rw [eval, eval, h name rfl]
  | .cell name, _ => rfl
  | .fst x, h | .snd x, h | .not x, h | .len x, h =>
    exact bind_congr_eq (x.eval_congr h) fun _ => rfl
  | .intOp op x y, h =>
    exact bind_congr_eq (x.eval_congr h.left) fun _ => bind_congr_eq rfl fun _ =>
      bind_congr_eq (y.eval_congr h.right) fun _ => rfl
  | .eq x y, h =>
    exact bind_congr_eq (x.eval_congr h.left) fun _ =>
      bind_congr_eq (y.eval_congr h.right) fun _ => rfl
  | .cond test yes no, h =>
    refine bind_congr_eq (test.eval_congr h.left) fun _ => bind_congr_eq rfl fun holds => ?_
    cases holds with
    | true => exact yes.eval_congr h.right.left
    | false => exact no.eval_congr h.right.right
  | .letIn name x body, h =>
    exact bind_congr_eq (x.eval_congr h.left) fun v => body.eval_congr (h.right.under v)
  | .concat x y, h | .append x y, h | .range x y, h =>
    exact bind_congr_eq (x.eval_congr h.left) fun _ => bind_congr_eq rfl fun _ =>
      bind_congr_eq (y.eval_congr h.right) fun _ => rfl
  | .tap x y, h =>
    exact bind_congr_eq (x.eval_congr h.left) fun _ => bind_congr_eq rfl fun _ =>
      y.eval_congr h.right
  | .fail kind x, h => exact bind_congr_eq (x.eval_congr h) fun _ => rfl
termination_by structural x

theorem evalAll_congr {env env' : Env} (xs : List Expr)
    (h : Agree (fun m => MentionsAny m xs) env env') : evalAll env xs = evalAll env' xs := by
  match xs, h with
  | [], _ => rfl
  | x :: xs, h =>
    exact bind_congr_eq (x.eval_congr h.left) fun _ =>
      bind_congr_eq (evalAll_congr xs h.right) fun _ => rfl
termination_by structural xs

end

end Expr

/-- A source has the same steps where environments agree on what it mentions. -/
theorem Source.steps_congr {env env' : Env} (source : Source)
    (h : Env.Agree (fun m => source.Mentions m) env env') :
    source.steps env = source.steps env' := by
  cases source with
  | items list => exact bind_congr_eq (list.eval_congr h) fun _ => rfl
  | recorded label list =>
    exact bind_congr_eq (label.eval_congr h.left) fun _ =>
      bind_congr_eq (list.eval_congr h.right) fun _ => rfl

/-! ## Terms -/

open Env (Agree)

mutual

/-- Scopes that agree on what a term mentions build the same. -/
theorem Term.build_congr {mode : Mode} {env env' : Env} (t : Term mode)
    (h : Agree (fun m => t.Mentions m) env env') : t.build env = t.build env' := by
  match t, h with
  | .mark x e, h =>
    exact bind_congr_eq (x.eval_congr h.left) fun _ => bind_congr_eq rfl fun _ =>
      e.build_congr h.right
  | .letIn name x e, h =>
    exact bind_congr_eq (x.eval_congr h.left) fun v => e.build_congr (h.right.under v)
  | .cond test yes no, h =>
    refine bind_congr_eq (test.eval_congr h.left) fun _ => bind_congr_eq rfl fun holds => ?_
    cases holds with
    | true => exact yes.build_congr h.right.left
    | false => exact no.build_congr h.right.right
  -- The sequencing interface.
  | .pure x, h | .here x, h => exact bind_congr_eq (x.eval_congr h) fun _ => rfl
  | .map e name body, h =>
    exact bind_congr_eq (e.build_congr h.left) fun e =>
      congrArg (Sequencing.map e) (funext fun v => body.eval_congr (h.right.under v))
  | .map2 e d first second body, h =>
    exact bind_congr_eq (e.build_congr h.left) fun e =>
      bind_congr_eq (d.build_congr h.right.left) fun d =>
      congrArg (Sequencing.map2 e d) (funext fun v => funext fun w =>
        body.eval_congr (h.right.right.under₂ v w))
  | .bind e name body, h =>
    exact bind_congr_eq (e.build_congr h.left) fun e =>
      congrArg (Sequencing.bind e) (funext fun v => body.build_congr (h.right.under v))
  | .andThen e d, h | .product e d, h | .applyFirst e d, h | .applySecond e d, h =>
    exact bind_congr_eq (e.build_congr h.left) fun _ =>
      bind_congr_eq (d.build_congr h.right) fun _ => rfl
  | .replace e x, h =>
    exact bind_congr_eq (e.build_congr h.left) fun _ =>
      bind_congr_eq (x.eval_congr h.right) fun _ => rfl
  | .void e, h => exact bind_congr_eq (e.build_congr h) fun _ => rfl
  | .apply e name arg body d, h =>
    exact bind_congr_eq (e.build_congr h.left) fun e =>
      bind_congr_eq (congrArg (Sequencing.map e) (funext fun f => congrArg Pure.pure
        (funext fun v => body.eval_congr (h.right.right.under₂ f v)))) fun _ =>
      bind_congr_eq (d.build_congr h.right.left) fun _ => rfl
  | .mapViaBind e name body, h =>
    exact bind_congr_eq (e.build_congr h.left) fun e =>
      congrArg (Sequencing.mapViaBind e) (funext fun v => body.eval_congr (h.right.under v))
  | .applyViaBind e name arg body d, h =>
    exact bind_congr_eq (e.build_congr h.left) fun e =>
      bind_congr_eq (congrArg (Sequencing.map e) (funext fun f => congrArg Pure.pure
        (funext fun v => body.eval_congr (h.right.right.under₂ f v)))) fun _ =>
      bind_congr_eq (d.build_congr h.right.left) fun _ => rfl
  -- Combining.
  | .combine shape e d, h | .appendViaBind shape e d, h =>
    exact bind_congr_eq (e.build_congr h.left) fun _ => bind_congr_eq rfl fun _ =>
      bind_congr_eq (d.build_congr h.right) fun _ => rfl
  | .combineN shape e count, h => exact bind_congr_eq (e.build_congr h) fun _ => rfl
  | .combineAll shape es, h =>
    exact bind_congr_eq (congrArg Monoid.combineAll (es.elements_congr shape h)) fun _ => rfl
  | .reduceAll shape es, h =>
    exact bind_congr_eq (congrArg Semigroup.reduceAll (es.elements_congr shape h)) fun _ => rfl
  | .empty shape, _ | .emptyViaPure shape, _ => rfl
  -- Effects that touch the world.
  | .act x y, h =>
    exact congrArg (fun invoke => Pure.pure (Effect.mk invoke)) <|
      bind_congr_eq (x.eval_congr h.left) fun _ => bind_congr_eq rfl fun _ =>
      y.eval_congr h.right
  | .readCell cell, _ | .ref effect, _ | .unit, _ => rfl
  | .writeCell cell x, h | .fail kind x, h =>
    exact congrArg (fun invoke => Pure.pure (Effect.mk invoke)) <|
      bind_congr_eq (x.eval_congr h) fun _ => rfl
  | .changeCell cell name body, h =>
    exact congrArg (fun invoke => Pure.pure (Effect.mk invoke)) <| bind_congr_eq rfl fun old =>
      bind_congr_eq (body.eval_congr (h.under old)) fun _ => rfl
  | .script label list, h =>
    exact bind_congr_eq (label.eval_congr h.left) fun _ =>
      bind_congr_eq (list.eval_congr h.right) fun _ => rfl
  -- Effects of effects.
  | .clone e, h => exact e.build_congr h
  | .defer e, h => exact congrArg (fun make => Pure.pure (Effect.defer make)) (e.build_congr h)
  | .guarded e, h => exact bind_congr_eq (e.build_congr h.right) fun _ => rfl
  | .mapTimes count e name body, h =>
    exact bind_congr_eq (e.build_congr h.left) fun e =>
      congrArg (fun f => Pure.pure (Nat.repeat (fun e => e.map f) count e))
        (funext fun v => body.eval_congr (h.right.under v))
  | .bindTimes count e name body, h =>
    exact bind_congr_eq (e.build_congr h.left) fun e =>
      congrArg (fun f => Pure.pure (Nat.repeat (fun e => e.bind f) count e))
        (funext fun v => body.build_congr (h.right.under v))
  | .block statements last, h =>
    exact Statement.buildAll_congr (fun m => last.Mentions m)
      (fun h => last.build_congr h) statements h
  | .numOp op k e d, h =>
    exact bind_congr_eq (e.build_congr h.left) fun _ =>
      bind_congr_eq (d.build_congr h.right) fun _ => rfl
  | .neg k e, h | .forever e, h => exact bind_congr_eq (e.build_congr h) fun _ => rfl
  -- Loops.
  | .untilTrue c, h | .tryUntil c, h => exact bind_congr_eq (c.build_congr h.right) fun _ => rfl
  | .whileTrue c b, h | .tryWhile c b, h =>
    exact bind_congr_eq (c.build_congr h.right.left) fun _ =>
      bind_congr_eq (b.build_congr h.right.right) fun _ => rfl
  | .forRange low high name body, h =>
    exact bind_congr_eq (low.eval_congr h.right.left) fun _ => bind_congr_eq rfl fun a =>
      bind_congr_eq (high.eval_congr h.right.right.left) fun _ => bind_congr_eq rfl fun b =>
      congrArg (fun f => Pure.pure ((Effect.forRange a b f).writing fun _ => .unit))
        (funext fun i => body.build_congr (h.right.right.right.under (.int i.val)))
  | .forEach source name body, h =>
    exact bind_congr_eq (source.steps_congr h.right.left) fun steps =>
      bind_congr_eq (congrArg (Effect.forEach steps)
        (funext fun v => body.build_congr (h.right.right.under v))) fun _ => rfl
  | .when test e, h | .whenNot test e, h =>
    exact bind_congr_eq (test.eval_congr h.left) fun _ => bind_congr_eq rfl fun _ =>
      bind_congr_eq (e.build_congr h.right) fun _ => rfl
  | .iterate x name body, h =>
    exact bind_congr_eq (x.eval_congr h.left) fun v =>
      congrArg (fun f => Pure.pure (Effect.iterate v f))
        (funext fun v => bind_congr_eq (body.build_congr (h.right.under v)) fun _ => rfl)
  -- Effects that may yield an error.
  | .andThenOk e name body, h =>
    exact bind_congr_eq (e.build_congr h.left) fun e =>
      congrArg (fun f => Pure.pure (((e.reading Value.asResult).andThenOk f).writing
        Value.ofResult))
        (funext fun v => bind_congr_eq (body.build_congr (h.right.under v)) fun _ => rfl)
  | .mapOk e name body, h =>
    exact bind_congr_eq (e.build_congr h.left) fun e =>
      congrArg (fun f => Pure.pure (((e.reading Value.asResult).mapOk f).writing Value.ofResult))
        (funext fun v => body.eval_congr (h.right.under v))
  | .tryForRange low high name body, h =>
    exact bind_congr_eq (low.eval_congr h.right.left) fun _ => bind_congr_eq rfl fun a =>
      bind_congr_eq (high.eval_congr h.right.right.left) fun _ => bind_congr_eq rfl fun b =>
      congrArg (fun f => Pure.pure ((Effect.tryForRange a b f).writing fun r =>
        Value.ofResult (r.map fun _ => .unit)))
        (funext fun i => bind_congr_eq
          (body.build_congr (h.right.right.right.under (.int i.val))) fun _ => rfl)
  | .tryForEach source name body, h =>
    exact bind_congr_eq (source.steps_congr h.right.left) fun steps =>
      bind_congr_eq (congrArg (Effect.tryForEach steps)
        (funext fun v => bind_congr_eq (body.build_congr (h.right.right.under v)) fun _ => rfl))
        fun _ => rfl
termination_by structural t

theorem Terms.elements_congr {mode : Mode} {env env' : Env} (shape : Shape) (es : Terms mode)
    (h : Agree (fun m => es.Mentions m) env env') :
    es.elements env shape = es.elements env' shape := by
  match es, h with
  | .nil, _ => rfl
  | .cons e es, h =>
    exact List.cons_eq_cons.2
      ⟨bind_congr_eq (e.build_congr h.left) fun _ => rfl, es.elements_congr shape h.right⟩
termination_by structural es

/-- A block builds the same where environments agree on what its statements mention. -/
theorem Statement.buildAll_congr {env env' : Env} {last : Env → Action (Effect Context Value)}
    (mentions : Mention → Prop)
    (hlast : ∀ {env env' : Env}, Agree mentions env env' → last env = last env')
    (ss : List Statement) (h : Agree (fun m => Statement.MentionsAll m (mentions m) ss) env env') :
    Statement.buildAll env last ss = Statement.buildAll env' last ss := by
  match ss, h with
  | [], h => exact hlast h
  | .bind name e :: rest, h =>
    exact bind_congr_eq (e.build_congr h.left) fun e =>
      congrArg (fun f => Pure.pure (e.bind f))
        (funext fun v => Statement.buildAll_congr mentions hlast rest (h.right.under v))
  | .bindPair first second e :: rest, h =>
    exact bind_congr_eq (e.build_congr h.left) fun e =>
      congrArg (fun f => Pure.pure ((e.reading (Value.asPair "pair")).bind f))
        (funext fun p => Statement.buildAll_congr mentions hlast rest (h.right.under₂ p.1 p.2))
  | .run e :: rest, h =>
    exact bind_congr_eq (e.build_congr h.left) fun e =>
      congrArg (fun d => Pure.pure (e.bind fun _ => d))
        (Statement.buildAll_congr mentions hlast rest h.right)
  | .letIn name x :: rest, h =>
    exact bind_congr_eq (x.eval_congr h.left) fun v =>
      Statement.buildAll_congr mentions hlast rest (h.right.under v)
  | .letPair first second x :: rest, h =>
    exact bind_congr_eq (x.eval_congr h.left) fun _ => bind_congr_eq rfl fun p =>
      Statement.buildAll_congr mentions hlast rest (h.right.under₂ p.1 p.2)
termination_by structural ss

end

end Deferred
