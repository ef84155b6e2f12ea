import Deferred.Program.Expr

/-!
# What evaluating an expression changes

Expressions read cells and record values, and that is all: from every context an evaluation ends,
within every budget, and the context that it leaves is the old one with values added to the trace
(`Expr.adds_eval`).

An expression is evaluated already if nothing is left to do for it: it is a constant, a bound name,
or a list, a pair or a tagged value of such. `Expr.value?` is its value then.
-/

namespace Deferred

variable {α β : Type}

namespace Context

/-! ## Growing contexts -/

/-- The context with values added to its trace, and with scripts that are at their first item. -/
def grow (c : Context) (values : List Value) (scripts : Nat) : Context :=
  { c with
    world := { c.world with
      trace := c.world.trace ++ (values.map Entry.value).toArray
      positions := c.world.positions ++ Array.replicate scripts 0 } }

/-- Only values and new scripts have been added: no event, no change to a cell, to a position that
was there before, to a name, or to what handles stand for. -/
def Grew (c c' : Context) : Prop := ∃ values scripts, c' = c.grow values scripts

theorem grow_nil_zero (c : Context) : c.grow [] 0 = c := by
  simp [grow]

theorem grow_grow (c : Context) (values more : List Value) (scripts others : Nat) :
    (c.grow values scripts).grow more others = c.grow (values ++ more) (scripts + others) := by
  simp [grow]

theorem grew_refl (c : Context) : c.Grew c := ⟨[], 0, c.grow_nil_zero.symm⟩

theorem Grew.trans {c c' c'' : Context} (h : c.Grew c') (h' : c'.Grew c'') : c.Grew c'' := by
  obtain ⟨values, scripts, rfl⟩ := h
  obtain ⟨more, others, rfl⟩ := h'
  exact ⟨values ++ more, scripts + others, grow_grow ..⟩

theorem Grew.names_eq {c c' : Context} (h : c.Grew c') : c'.world.names = c.world.names := by
  obtain ⟨values, scripts, rfl⟩ := h
  rfl

end Context

namespace Action

/-! ## Actions that only add -/

/-- From every context and within every budget the action ends and has only added to it. -/
def Adds (x : Action α) : Prop :=
  ∀ n c, ∃ r c', x.run n c = some (r, c') ∧ c.Grew c'

theorem adds_pure (a : α) : Adds (pure a) :=
  fun _ c => ⟨.ok a, c, rfl, c.grew_refl⟩

theorem adds_throw (p : Panic) : Adds (throw p : Action α) :=
  fun _ c => ⟨.error p, c, rfl, c.grew_refl⟩

theorem adds_lift (e : Except Panic α) : Adds (liftM e) := by
  cases e with
  | ok a => exact adds_pure a
  | error p => exact adds_throw p

/-- A sequence only adds if both its parts do. -/
theorem Adds.bind {x : Action α} {f : α → Action β} (hx : Adds x) (hf : ∀ a, Adds (f a)) :
    Adds (x >>= f) := by
  intro n c
  obtain ⟨r, c', hr, hc⟩ := hx n c
  cases r with
  | error p => exact ⟨.error p, c', by rw [Computation.run_bind, hr], hc⟩
  | ok a =>
    obtain ⟨r', c'', hr', hc'⟩ := hf a n c'
    exact ⟨r', c'', by rw [Computation.run_bind, hr]; exact hr', hc.trans hc'⟩

theorem adds_record (v : Value) : Adds (record v) := by
  intro n c
  refine ⟨.ok (), c.grow [v] 0, ?_, ⟨[v], 0, rfl⟩⟩
  show some _ = some _
  simp [Context.mapWorld, Context.grow, World.push]

theorem adds_recordUnlessUnit (v : Value) : Adds (recordUnlessUnit v) := by
  cases v with
  | unit => exact adds_pure ()
  | _ => exact adds_record _

theorem adds_world : Adds world :=
  fun _ c => ⟨.ok c.world, c, rfl, c.grew_refl⟩

theorem adds_readCell (name : String) : Adds (readCell name) := by
  refine adds_world.bind fun w => ?_
  cases w.cells.find? name with
  | some v => exact adds_pure v
  | none => exact adds_throw _

end Action

namespace Expr

open Deferred.Action

/-! ## Evaluation only adds -/

mutual

/-- Evaluating an expression only adds. -/
theorem adds_eval (env : Env) (x : Expr) : Adds (x.eval env) := by
  cases x with
  | const v =>
    rw [eval]
    exact adds_pure v
  | list items =>
    rw [eval]
    exact (adds_evalAll env items).bind fun _ => adds_pure _
  | pair x y =>
    rw [eval]
    exact (adds_eval env x).bind fun _ => (adds_eval env y).bind fun _ => adds_pure _
  | tagged tag x =>
    rw [eval]
    exact (adds_eval env x).bind fun _ => adds_pure _
  | var name =>
    rw [eval]
    cases env.find? name with
    | some v => exact adds_pure v
    | none => exact adds_throw _
  | cell name =>
    rw [eval]
    exact adds_readCell name
  | fst x =>
    rw [eval]
    exact (adds_eval env x).bind fun _ => (adds_lift _).bind fun _ => adds_pure _
  | snd x =>
    rw [eval]
    exact (adds_eval env x).bind fun _ => (adds_lift _).bind fun _ => adds_pure _
  | intOp op x y =>
    rw [eval]
    exact (adds_eval env x).bind fun _ => (adds_lift _).bind fun _ =>
      (adds_eval env y).bind fun _ => (adds_lift _).bind fun _ => adds_lift _
  | eq x y =>
    rw [eval]
    exact (adds_eval env x).bind fun _ => (adds_eval env y).bind fun _ => adds_pure _
  | not x =>
    rw [eval]
    exact (adds_eval env x).bind fun _ => (adds_lift _).bind fun _ => adds_pure _
  | cond test yes no =>
    rw [eval]
    refine (adds_eval env test).bind fun _ => (adds_lift _).bind fun holds => ?_
    cases holds with
    | true => exact adds_eval env yes
    | false => exact adds_eval env no
  | letIn name x body =>
    rw [eval]
    exact (adds_eval env x).bind fun v => adds_eval (env.bind name v) body
  | concat x y =>
    rw [eval]
    exact (adds_eval env x).bind fun _ => (adds_lift _).bind fun _ =>
      (adds_eval env y).bind fun _ => (adds_lift _).bind fun _ => adds_pure _
  | append x y =>
    rw [eval]
    exact (adds_eval env x).bind fun _ => (adds_lift _).bind fun _ =>
      (adds_eval env y).bind fun _ => (adds_lift _).bind fun _ => adds_pure _
  | range low high =>
    rw [eval]
    exact (adds_eval env low).bind fun _ => (adds_lift _).bind fun _ =>
      (adds_eval env high).bind fun _ => (adds_lift _).bind fun _ => adds_pure _
  | len x =>
    rw [eval]
    exact (adds_eval env x).bind fun _ => (adds_lift _).bind fun _ => adds_pure _
  | tap x y =>
    rw [eval]
    exact (adds_eval env x).bind fun v => (adds_recordUnlessUnit v).bind fun _ => adds_eval env y
  | fail kind x =>
    rw [eval]
    exact (adds_eval env x).bind fun _ => (adds_lift _).bind fun p => adds_throw p

theorem adds_evalAll (env : Env) (xs : List Expr) : Adds (evalAll env xs) := by
  cases xs with
  | nil =>
    rw [evalAll]
    exact adds_pure []
  | cons x xs =>
    rw [evalAll]
    exact (adds_eval env x).bind fun _ => (adds_evalAll env xs).bind fun _ => adds_pure _

end

/-! ## Expressions that are values already -/

mutual

/-- The value of an expression that needs no evaluation. -/
def value? (env : Env) : Expr → Option Value
  | const v => some v
  | var name => env.find? name
  | list items => (values? env items).map .list
  | pair x y => do
    let a ← x.value? env
    let b ← y.value? env
    return .pair a b
  | tagged tag x => (x.value? env).map (.tagged tag)
  | _ => none

/-- The values of expressions that need no evaluation. -/
def values? (env : Env) : List Expr → Option (List Value)
  | [] => some []
  | x :: xs => do
    let v ← x.value? env
    let vs ← values? env xs
    return v :: vs

end

mutual

/-- Evaluating a value already there does nothing. -/
theorem eval_of_value? {env : Env} {x : Expr} {v : Value} (h : x.value? env = some v) :
    x.eval env = pure v := by
  cases x with
  | const w =>
    cases h
    rfl
  | var name =>
    rw [value?] at h
    rw [eval, h]
  | list items =>
    rw [value?] at h
    obtain ⟨vs, hvs, rfl⟩ := Option.map_eq_some_iff.1 h
    rw [eval, evalAll_of_values? hvs]
    exact pure_bind _ _
  | pair x y =>
    rw [value?] at h
    obtain ⟨a, ha, h⟩ := Option.bind_eq_some_iff.1 h
    obtain ⟨b, hb, h⟩ := Option.bind_eq_some_iff.1 h
    cases h
    rw [eval, eval_of_value? ha, eval_of_value? hb, pure_bind, pure_bind]
  | tagged tag x =>
    rw [value?] at h
    obtain ⟨w, hw, rfl⟩ := Option.map_eq_some_iff.1 h
    rw [eval, eval_of_value? hw, pure_bind]
  | _ => exact nomatch h

/-- Expressions whose values are known evaluate to these. -/
theorem evalAll_of_values? {env : Env} {xs : List Expr} {vs : List Value}
    (h : values? env xs = some vs) : evalAll env xs = pure vs := by
  cases xs with
  | nil =>
    cases h
    rfl
  | cons x xs =>
    rw [values?] at h
    obtain ⟨a, ha, h⟩ := Option.bind_eq_some_iff.1 h
    obtain ⟨as, has, h⟩ := Option.bind_eq_some_iff.1 h
    cases h
    rw [evalAll, eval_of_value? ha, evalAll_of_values? has, pure_bind, pure_bind]

end

end Expr

end Deferred
