import Deferred.Computation.Halting
import Deferred.Program.Build
import Deferred.Proofs.Program.Evaluation

/-!
# Building an effect

Building a term of effects makes an effect and runs none. What it does show is `Term.visible`: the
items that loops and folds take from their sources, the evaluation of the names that a block binds
before its first effect, scripts that begin, and the panic of combining no copies. Function bodies
and the actions of effects do not occur in it.

A term is settled if its plain arguments are values already and fit their places. Building a
settled term ends as its visible part does, and only adds to the context (`Term.shows_build`).
-/

namespace Deferred

variable {α β γ : Type}

/-! ## What building shows -/

/-- A source records the items that are taken from it, if it has a label for them. -/
def Source.visible (env : Env) : Source → Action Unit
  | .items _ => return ()
  | .recorded label list =>
    match label.value? env, list.value? env with
    | some v, some (.list vs) => vs.forM fun item => Action.record (.pair v item)
    | _, _ => return ()

mutual

/-- What building an effect shows. Only parts that are built at once are visited: neither function
bodies nor the actions of effects are. -/
def Term.visible {mode : Mode} (env : Env) : Term mode → Action Unit
  -- Statements of the host, which stand in no settled term.
  | .mark _ _ | .letIn _ _ _ | .cond _ _ _ => return ()
  -- Nothing is built but the effect itself.
  | .pure _ | .empty _ | .emptyViaPure _ | .here _ | .act _ _ | .readCell _ | .writeCell _ _
  | .changeCell _ _ _ | .fail _ _ | .ref _ | .unit | .defer _ | .forRange _ _ _ _
  | .iterate _ _ _ | .tryForRange _ _ _ _ => return ()
  | .script _ _ => do let _ ← Action.newScript
  -- One effect is built into another.
  | .map e _ _ | .bind e _ _ | .replace e _ | .void e | .mapViaBind e _ _ | .clone e | .guarded e
  | .mapTimes _ e _ _ | .bindTimes _ e _ _ | .neg _ e | .untilTrue e | .when _ e | .whenNot _ e
  | .forever e | .andThenOk e _ _ | .mapOk e _ _ | .tryUntil e => e.visible env
  -- Two are.
  | .map2 e d _ _ _ | .andThen e d | .product e d | .applyFirst e d | .applySecond e d
  | .apply e _ _ _ d | .applyViaBind e _ _ _ d | .combine _ e d | .appendViaBind _ e d
  | .numOp _ _ e d | .whileTrue e d | .tryWhile e d => do
    e.visible env
    d.visible env
  | .combineN _ e count => do
    e.visible env
    if count = 0 then throw Semigroup.countPanic
  | .combineAll _ es | .reduceAll _ es => es.visible env
  | .forEach source _ _ | .tryForEach source _ _ => source.visible env
  | .block statements last => Statement.visibleAll env (fun env => last.visible env) statements

/-- What building effects one after the other shows. -/
def Terms.visible {mode : Mode} (env : Env) : Terms mode → Action Unit
  | .nil => return ()
  | .cons e es => do
    e.visible env
    es.visible env

/-- What building a block shows: names are bound up to the first effect, which is built. What
stands after it is its continuation. -/
def Statement.visibleAll (env : Env) (last : Env → Action Unit) : List Statement → Action Unit
  | [] => last env
  | .bind _ e :: _ | .bindPair _ _ e :: _ | .run e :: _ => e.visible env
  | .letIn name x :: rest => do
    let v ← x.eval env
    Statement.visibleAll (env.bind name v) last rest
  | .letPair first second x :: rest => do
    let p ← (← x.eval env).asPair "pair"
    Statement.visibleAll ((env.bind first p.1).bind second p.2) last rest

end

/-! ## Settled terms -/

/-- The action may yield the value. -/
def Action.Yields (x : Action α) (a : α) : Prop := ∃ c c', x.Halts c (.ok a, c')

/-- The plain arguments of the source are values already: a list, and a label for its items. -/
def Source.Settled (env : Env) : Source → Prop
  | .items list => ∃ items, list.value? env = some (.list items)
  | .recorded label list =>
    ∃ v items, label.value? env = some v ∧ list.value? env = some (.list items)

mutual

/-- The term consists of calls alone, and their plain arguments are values already that fit their
places; names of effects are among the defined ones. Function bodies may be any. -/
def Term.Settled {mode : Mode} (names : Bindings Handle) (env : Env) : Term mode → Prop
  | .mark _ _ | .letIn _ _ _ | .cond _ _ _ => False
  | .empty _ | .emptyViaPure _ | .act _ _ | .readCell _ | .writeCell _ _ | .changeCell _ _ _
  | .fail _ _ | .unit | .defer _ => True
  | .pure x | .here x | .iterate x _ _ => ∃ v, x.value? env = some v
  | .ref effect => ∃ handle, names.find? effect = some handle
  | .script label list =>
    ∃ v items, label.value? env = some v ∧ list.value? env = some (.list items)
  | .forRange low high _ _ | .tryForRange low high _ _ => ∃ a b : Fixed .i32,
    low.value? env = some (.int a.val) ∧ high.value? env = some (.int b.val)
  | .map e _ _ | .bind e _ _ | .void e | .mapViaBind e _ _ | .clone e | .guarded e
  | .mapTimes _ e _ _ | .bindTimes _ e _ _ | .neg _ e | .untilTrue e | .forever e
  | .andThenOk e _ _ | .mapOk e _ _ | .tryUntil e | .combineN _ e _ => e.Settled names env
  | .replace e x => e.Settled names env ∧ ∃ v, x.value? env = some v
  | .when test e | .whenNot test e =>
    e.Settled names env ∧ ∃ holds, test.value? env = some (.bool holds)
  | .map2 e d _ _ _ | .andThen e d | .product e d | .applyFirst e d | .applySecond e d
  | .apply e _ _ _ d | .applyViaBind e _ _ _ d | .combine _ e d | .appendViaBind _ e d
  | .numOp _ _ e d | .whileTrue e d | .tryWhile e d => e.Settled names env ∧ d.Settled names env
  | .combineAll _ es | .reduceAll _ es => es.Settled names env
  | .forEach source _ _ | .tryForEach source _ _ => source.Settled env
  | .block statements last =>
    Statement.SettledAll names env (fun env => last.Settled names env) statements

/-- All terms are settled. -/
def Terms.Settled {mode : Mode} (names : Bindings Handle) (env : Env) : Terms mode → Prop
  | .nil => True
  | .cons e es => e.Settled names env ∧ es.Settled names env

/-- The first effect of the block is settled, whatever the names before it come to stand for. -/
def Statement.SettledAll (names : Bindings Handle) (env : Env) (last : Env → Prop) :
    List Statement → Prop
  | [] => last env
  | .bind _ e :: _ | .bindPair _ _ e :: _ | .run e :: _ => e.Settled names env
  | .letIn name x :: rest => ∀ v, (x.eval env).Yields v →
    Statement.SettledAll names (env.bind name v) last rest
  | .letPair first second x :: rest => ∀ v w, (x.eval env).Yields (.pair v w) →
    Statement.SettledAll names ((env.bind first v).bind second w) last rest

end

/-! ## Actions that show no more than others -/

namespace Action

/-- From every context in which the names are defined, `x` ends within every budget, as `y` does,
and it has only added to the context. -/
def Shows (names : Bindings Handle) (x : Action α) (y : Action Unit) : Prop :=
  ∀ n c, c.world.names = names → ∃ r c', x.run n c = some (r, c') ∧
    y.run n c = some (r.map fun _ => (), c') ∧ c.Grew c'

variable {names : Bindings Handle}

theorem shows_pure (a : α) : Shows names (pure a) (pure ()) :=
  fun _ c _ => ⟨.ok a, c, rfl, rfl, c.grew_refl⟩

theorem shows_throw (p : Panic) : Shows names (throw p : Action α) (throw p) :=
  fun _ c _ => ⟨.error p, c, rfl, rfl, c.grew_refl⟩

theorem shows_record (v : Value) : Shows names (record v) (record v) := by
  intro n c _
  obtain ⟨r, c', hr, hc⟩ := adds_record v n c
  exact ⟨r, c', hr, by cases r <;> exact hr, hc⟩

theorem shows_newScript : Shows names newScript (do let _ ← newScript) := by
  intro n c _
  have h : newScript.run n c = some (.ok c.world.positions.size, c.grow [] 1) := by
    show some _ = some _
    simp [Context.mapWorld, Context.grow]
  exact ⟨_, _, h, by rw [Computation.run_bind, h]; rfl, [], 1, rfl⟩

theorem shows_resolve {name : String} {handle : Handle} (h : names.find? name = some handle) :
    Shows names (resolve name) (pure ()) := by
  rintro n c rfl
  refine ⟨.ok handle, c, ?_, rfl, c.grew_refl⟩
  have hworld : world.run n c = some (.ok c.world, c) := rfl
  show (world >>= fun w => _).run n c = _
  rw [Computation.run_bind, hworld]
  simp only [h]
  rfl

/-- What a first part shows comes before what the second part shows, whatever the first yields. -/
theorem Shows.bind {x : Action α} {y z : Action Unit} {f : α → Action β} (hx : Shows names x y)
    (hf : ∀ a, Shows names (f a) z) : Shows names (x >>= f) (y >>= fun _ => z) := by
  intro n c hc
  obtain ⟨r, c', hr, hr', hg⟩ := hx n c hc
  cases r with
  | error p =>
    exact ⟨.error p, c', by rw [Computation.run_bind, hr], by rw [Computation.run_bind, hr']; rfl,
      hg⟩
  | ok a =>
    obtain ⟨q, c'', hq, hq', hg'⟩ := hf a n c' (hg.names_eq.trans hc)
    exact ⟨q, c'', by rw [Computation.run_bind, hr]; exact hq,
      by rw [Computation.run_bind, hr']; exact hq', hg.trans hg'⟩

/-- A second part that shows nothing adds nothing to what the first part shows. -/
theorem Shows.last {x : Action α} {y : Action Unit} {f : α → Action β} (hx : Shows names x y)
    (hf : ∀ a, Shows names (f a) (pure ())) : Shows names (x >>= f) y := by
  have h := hx.bind hf
  rwa [bind_pure] at h

/-- A first part that shows nothing adds nothing to what the second part shows. -/
theorem Shows.skip {x : Action α} {y : Action Unit} {f : α → Action β}
    (hx : Shows names x (pure ())) (hf : ∀ a, Shows names (f a) y) : Shows names (x >>= f) y :=
  hx.bind hf

/-- A first part that only yields a value shows nothing. -/
theorem shows_of_eq_pure {x : Action α} {a : α} {f : α → Action β} {y : Action Unit}
    (h : x = pure a) (hf : Shows names (f a) y) : Shows names (x >>= f) y := by
  rwa [h, pure_bind]

/-- An evaluation that stands first on both sides is shown as it is. -/
theorem shows_bind_of_adds {x : Action α} {f : α → Action β} {g : α → Action Unit} (hx : Adds x)
    (hf : ∀ a, x.Yields a → Shows names (f a) (g a)) : Shows names (x >>= f) (x >>= g) := by
  intro n c hc
  obtain ⟨r, c', hr, hg⟩ := hx n c
  cases r with
  | error p =>
    exact ⟨.error p, c', by rw [Computation.run_bind, hr], by rw [Computation.run_bind, hr]; rfl,
      hg⟩
  | ok a =>
    obtain ⟨q, c'', hq, hq', hg'⟩ := hf a ⟨c, c', n, hr⟩ n c' (hg.names_eq.trans hc)
    exact ⟨q, c'', by rw [Computation.run_bind, hr]; exact hq,
      by rw [Computation.run_bind, hr]; exact hq', hg.trans hg'⟩

end Action

open Deferred.Action

/-! ## Sources -/

variable {names : Bindings Handle}

/-- A row of items that record when they are taken shows their records in order. -/
theorem shows_mapM_record (label : Value) (vs : List Value) :
    Shows names ((vs.map fun item => do record (.pair label item); return item).mapM id)
      (vs.forM fun item => record (.pair label item)) := by
  induction vs with
  | nil => exact shows_pure []
  | cons v vs ih =>
    rw [List.map_cons, List.mapM_cons]
    exact ((shows_record _).last fun _ => shows_pure v).bind fun _ => ih.last fun _ => shows_pure _

/-- Taking the items of a settled source shows what the source shows. -/
theorem Source.shows_take {env : Env} {source : Source} (h : source.Settled env)
    {f : List (Action Value) → Action β}
    (hf : ∀ steps y, Shows names (steps.mapM id) y → Shows names (f steps) y) :
    Shows names (source.steps env >>= f) (source.visible env) := by
  cases source with
  | items list =>
    obtain ⟨vs, hlist⟩ := h
    rw [steps, Expr.eval_of_value? hlist]
    refine shows_of_eq_pure (a := vs.map fun item => return item) rfl (hf _ _ ?_)
    rw [Computation.mapM_id_map_pure]
    exact shows_pure vs
  | recorded label list =>
    obtain ⟨v, vs, hlabel, hlist⟩ := h
    rw [steps, Expr.eval_of_value? hlabel, Expr.eval_of_value? hlist, visible, hlabel, hlist]
    exact shows_of_eq_pure rfl (hf _ _ (shows_mapM_record v vs))

/-! ## Operations on effects -/

section

variable {mode : Mode} (hmode : mode = .deferred)
include hmode

/-- Mapping shows nothing: the function waits for the invocation. -/
theorem shows_map (e : mode.Carrier α) (f : α → Action β) :
    Shows names (Sequencing.map e f) (pure ()) := by
  subst hmode
  exact shows_pure _

theorem shows_map2 (e : mode.Carrier α) (d : mode.Carrier β) (f : α → β → Action γ) :
    Shows names (Sequencing.map2 e d f) (pure ()) := by
  subst hmode
  exact shows_pure _

theorem shows_apply (functions : mode.Carrier (α → Action β)) (e : mode.Carrier α) :
    Shows names (Sequencing.apply functions e) (pure ()) := by
  subst hmode
  exact shows_pure _

theorem shows_bind (e : mode.Carrier α) (f : α → Action (mode.Carrier β)) :
    Shows names (Sequencing.bind e f) (pure ()) := by
  subst hmode
  exact shows_pure _

/-- Combining effects shows nothing: their values are combined when they are invoked. -/
theorem shows_combine [Monoid α] (e d : mode.Carrier α) :
    Shows names (liftM (Semigroup.combine e d)) (pure ()) := by
  subst hmode
  exact shows_pure _

/-- Effects combine without a panic; only their values may fail to. -/
theorem shows_combineMore [Monoid α] (e : mode.Carrier α) (count : Nat) (acc : mode.Carrier α) :
    Shows names (liftM (Semigroup.combineMore e count acc)) (pure ()) := by
  subst hmode
  induction count generalizing acc with
  | zero => exact shows_pure acc
  | succ count ih => exact ih _

/-- Combining copies of an effect panics at once if there are none. -/
theorem shows_combineN [Monoid α] (e : mode.Carrier α) (count : Nat) :
    Shows names (liftM (Semigroup.combineN e count))
      (if count = 0 then throw Semigroup.countPanic else pure ()) := by
  cases count with
  | zero =>
    rw [if_pos rfl]
    exact shows_throw _
  | succ count =>
    rw [if_neg (Nat.succ_ne_zero count)]
    exact shows_combineMore hmode e count e

end

/-! ## Terms -/

theorem eq_pair_of_yields {v : Value} {place : String} {p : Value × Value}
    (h : (liftM (v.asPair place) : Action (Value × Value)).Yields p) : v = .pair p.1 p.2 := by
  obtain ⟨c, c', n, h⟩ := h
  cases v with
  | pair a b => cases h; rfl
  | _ => cases h

mutual

/-- Building a settled term ends as its visible part does, and only adds to the context. -/
theorem Term.shows_build {mode : Mode} (hmode : mode = .deferred) (env : Env) (t : Term mode)
    (h : t.Settled names env) : Shows names (t.build env) (t.visible env) := by
  match t, hmode, h with
  | .mark _ _, _, h => exact h.elim
  | .letIn _ _ _, _, h => exact h.elim
  | .cond _ _ _, _, h => exact h.elim
  | .here _, hmode, _ => exact nomatch hmode
  -- Constants and native effects.
  | .pure x, _, h =>
    obtain ⟨v, hv⟩ := h
    exact shows_of_eq_pure (Expr.eval_of_value? hv) (shows_pure _)
  | .act x y, _, _ => exact shows_pure _
  | .readCell cell, _, _ => exact shows_pure _
  | .writeCell cell x, _, _ => exact shows_pure _
  | .changeCell cell name body, _, _ => exact shows_pure _
  | .script label list, _, h =>
    obtain ⟨v, vs, hlabel, hlist⟩ := h
    exact shows_of_eq_pure (Expr.eval_of_value? hlabel) <|
      shows_of_eq_pure (Expr.eval_of_value? hlist) <| shows_of_eq_pure rfl <|
      shows_newScript.last fun _ => shows_pure _
  | .fail kind x, _, _ => exact shows_pure _
  | .ref effect, _, h =>
    obtain ⟨handle, hn⟩ := h
    exact (shows_resolve hn).last fun _ => shows_pure _
  | .unit, _, _ => exact shows_pure _
  | .defer e, _, _ => exact shows_pure _
  | .empty shape, hmode, _ => exact shows_map hmode _ _
  | .emptyViaPure shape, hmode, _ => exact shows_map hmode _ _
  -- The sequencing interface.
  | .map e name body, hmode, h =>
    exact (e.shows_build hmode env h).last fun _ => shows_map hmode _ _
  | .bind e name body, hmode, h =>
    exact (e.shows_build hmode env h).last fun _ => shows_bind hmode _ _
  | .replace e x, hmode, h =>
    obtain ⟨he, v, hv⟩ := h
    exact (e.shows_build hmode env he).last fun _ =>
      shows_of_eq_pure (Expr.eval_of_value? hv) (shows_map hmode _ _)
  | .void e, hmode, h =>
    exact (e.shows_build hmode env h).last fun _ =>
      (shows_map hmode _ _).last fun _ => shows_map hmode _ _
  | .mapViaBind e name body, hmode, h =>
    exact (e.shows_build hmode env h).last fun _ => shows_bind hmode _ _
  | .map2 e d first second body, hmode, h =>
    exact (e.shows_build hmode env h.1).bind fun _ =>
      (d.shows_build hmode env h.2).last fun _ => shows_map2 hmode _ _ _
  | .andThen e d, hmode, h =>
    exact (e.shows_build hmode env h.1).bind fun _ =>
      (d.shows_build hmode env h.2).last fun _ => shows_bind hmode _ _
  | .product e d, hmode, h =>
    exact (e.shows_build hmode env h.1).bind fun _ =>
      (d.shows_build hmode env h.2).last fun _ =>
      (shows_map2 hmode _ _ _).last fun _ => shows_map hmode _ _
  | .applyFirst e d, hmode, h =>
    exact (e.shows_build hmode env h.1).bind fun _ =>
      (d.shows_build hmode env h.2).last fun _ => shows_map2 hmode _ _ _
  | .applySecond e d, hmode, h =>
    exact (e.shows_build hmode env h.1).bind fun _ =>
      (d.shows_build hmode env h.2).last fun _ => shows_map2 hmode _ _ _
  | .apply e name arg body d, hmode, h =>
    exact (e.shows_build hmode env h.1).bind fun _ => (shows_map hmode _ _).skip fun _ =>
      (d.shows_build hmode env h.2).last fun _ => shows_apply hmode _ _
  | .applyViaBind e name arg body d, hmode, h =>
    exact (e.shows_build hmode env h.1).bind fun _ => (shows_map hmode _ _).skip fun _ =>
      (d.shows_build hmode env h.2).last fun _ => shows_bind hmode _ _
  -- Combining. Operands are read by a map that is built at once.
  | .combine shape e d, hmode, h =>
    exact (e.shows_build hmode env h.1).bind fun _ => (shows_map hmode _ _).skip fun _ =>
      (d.shows_build hmode env h.2).last fun _ => (shows_map hmode _ _).skip fun _ =>
      (shows_combine hmode _ _).skip fun _ => shows_map hmode _ _
  | .appendViaBind shape e d, hmode, h =>
    exact (e.shows_build hmode env h.1).bind fun _ => (shows_map hmode _ _).skip fun _ =>
      (d.shows_build hmode env h.2).last fun _ => (shows_map hmode _ _).skip fun _ =>
      (shows_bind hmode _ _).skip fun _ => shows_map hmode _ _
  | .combineN shape e count, hmode, h =>
    exact (e.shows_build hmode env h).bind fun _ => (shows_map hmode _ _).skip fun _ =>
      (shows_combineN hmode _ count).last fun _ => shows_map hmode _ _
  | .combineAll shape es, hmode, h =>
    exact (es.shows_foldFrom hmode env shape _ h).last fun _ => shows_map hmode _ _
  | .reduceAll shape es, hmode, h =>
    refine (es.shows_reduceAll hmode env shape h).last fun combined => ?_
    cases combined with
    | none => exact shows_pure _
    | some d => exact shows_map hmode _ _
  -- Effects of effects.
  | .clone e, _, h => exact e.shows_build rfl env h
  | .guarded e, _, h => exact (e.shows_build rfl env h).last fun _ => shows_pure _
  | .mapTimes count e name body, _, h => exact (e.shows_build rfl env h).last fun _ => shows_pure _
  | .bindTimes count e name body, _, h => exact (e.shows_build rfl env h).last fun _ => shows_pure _
  | .block statements last, _, h =>
    exact Statement.shows_buildAll env _ _ _ (fun env h => last.shows_build rfl env h) statements h
  | .numOp op k e d, _, h =>
    exact (e.shows_build rfl env h.1).bind fun _ =>
      (d.shows_build rfl env h.2).last fun _ => shows_pure _
  | .neg k e, _, h => exact (e.shows_build rfl env h).last fun _ => shows_pure _
  -- Loops.
  | .untilTrue e, _, h => exact (e.shows_build rfl env h).last fun _ => shows_pure _
  | .whileTrue e d, _, h =>
    exact (e.shows_build rfl env h.1).bind fun _ =>
      (d.shows_build rfl env h.2).last fun _ => shows_pure _
  | .forRange low high name body, _, h =>
    obtain ⟨a, b, hlow, hhigh⟩ := h
    exact shows_of_eq_pure (Expr.eval_of_value? hlow) <|
      shows_of_eq_pure (congrArg liftM (Value.asFixed_val a)) <|
      shows_of_eq_pure (Expr.eval_of_value? hhigh) <|
      shows_of_eq_pure (congrArg liftM (Value.asFixed_val b)) (shows_pure _)
  | .forEach source name body, _, h =>
    exact Source.shows_take h fun _ _ htake =>
      (htake.last fun _ => shows_pure _).last fun _ => shows_pure _
  | .when test e, _, h =>
    obtain ⟨he, holds, htest⟩ := h
    exact shows_of_eq_pure (Expr.eval_of_value? htest) <| shows_of_eq_pure rfl <|
      (e.shows_build rfl env he).last fun _ => shows_pure _
  | .whenNot test e, _, h =>
    obtain ⟨he, holds, htest⟩ := h
    exact shows_of_eq_pure (Expr.eval_of_value? htest) <| shows_of_eq_pure rfl <|
      (e.shows_build rfl env he).last fun _ => shows_pure _
  | .forever e, _, h => exact (e.shows_build rfl env h).last fun _ => shows_pure _
  | .iterate x name body, _, h =>
    obtain ⟨v, hv⟩ := h
    exact shows_of_eq_pure (Expr.eval_of_value? hv) (shows_pure _)
  -- Effects that may yield an error.
  | .andThenOk e name body, _, h => exact (e.shows_build rfl env h).last fun _ => shows_pure _
  | .mapOk e name body, _, h => exact (e.shows_build rfl env h).last fun _ => shows_pure _
  | .tryUntil e, _, h => exact (e.shows_build rfl env h).last fun _ => shows_pure _
  | .tryWhile e d, _, h =>
    exact (e.shows_build rfl env h.1).bind fun _ =>
      (d.shows_build rfl env h.2).last fun _ => shows_pure _
  | .tryForRange low high name body, _, h =>
    obtain ⟨a, b, hlow, hhigh⟩ := h
    exact shows_of_eq_pure (Expr.eval_of_value? hlow) <|
      shows_of_eq_pure (congrArg liftM (Value.asFixed_val a)) <|
      shows_of_eq_pure (Expr.eval_of_value? hhigh) <|
      shows_of_eq_pure (congrArg liftM (Value.asFixed_val b)) (shows_pure _)
  | .tryForEach source name body, _, h =>
    exact Source.shows_take h fun _ _ htake =>
      (htake.last fun _ => shows_pure _).last fun _ => shows_pure _
termination_by structural t

/-- Elements are built when the fold comes to them, and combining them shows nothing. -/
theorem Terms.shows_foldFrom {mode : Mode} (hmode : mode = .deferred) (env : Env) (shape : Shape)
    (acc : mode.Carrier shape.Elem) (es : Terms mode) (h : es.Settled names env) :
    Shows names (Semigroup.foldFrom acc (es.elements env shape)) (es.visible env) := by
  match es, hmode, h with
  | .nil, _, _ => exact shows_pure acc
  | .cons e es, hmode, h =>
    exact ((e.shows_build hmode env h.1).last fun _ => shows_map hmode _ _).bind fun _ =>
      (shows_combine hmode _ _).skip fun _ => es.shows_foldFrom hmode env shape _ h.2
termination_by structural es

/-- Reducing a row of terms shows what its elements show. -/
theorem Terms.shows_reduceAll {mode : Mode} (hmode : mode = .deferred) (env : Env) (shape : Shape)
    (es : Terms mode) (h : es.Settled names env) :
    Shows names (Semigroup.reduceAll (es.elements env shape)) (es.visible env) := by
  match es, hmode, h with
  | .nil, _, _ => exact shows_pure none
  | .cons e es, hmode, h =>
    exact ((e.shows_build hmode env h.1).last fun _ => shows_map hmode _ _).bind fun a =>
      (es.shows_foldFrom hmode env shape a h.2).last fun _ => shows_pure _
termination_by structural es

/-- Building a block shows what its statements show, up to its last effect. -/
theorem Statement.shows_buildAll (env : Env) (last : Env → Action (Effect Context Value))
    (visible : Env → Action Unit) (settled : Env → Prop)
    (hlast : ∀ env, settled env → Shows names (last env) (visible env)) (ss : List Statement)
    (h : Statement.SettledAll names env settled ss) :
    Shows names (Statement.buildAll env last ss) (Statement.visibleAll env visible ss) := by
  match ss, h with
  | [], h => exact hlast env h
  | .bind name e :: _, h => exact (e.shows_build rfl env h).last fun _ => shows_pure _
  | .bindPair first second e :: _, h =>
    exact (e.shows_build rfl env h).last fun _ => shows_pure _
  | .run e :: _, h => exact (e.shows_build rfl env h).last fun _ => shows_pure _
  | .letIn name x :: rest, h =>
    exact shows_bind_of_adds (x.adds_eval env) fun v hv =>
      Statement.shows_buildAll _ last visible settled hlast rest (h v hv)
  | .letPair first second x :: rest, h =>
    refine shows_bind_of_adds (x.adds_eval env) fun v hv =>
      shows_bind_of_adds (adds_lift _) fun p hp => ?_
    rw [eq_pair_of_yields hp] at hv
    exact Statement.shows_buildAll _ last visible settled hlast rest (h p.1 p.2 hv)
termination_by structural ss

end

end Deferred
