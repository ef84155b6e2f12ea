import Deferred.Program.Build
import Deferred.Proofs.Rounds

/-!
# Blocks statement by statement

Running a block is running its statements one after the other, each in the scope of the names
bound so far: a statement computes a value (`Statement.value`), which extends the scope
(`Statement.scope`). The nested effects that `Statement.buildAll` makes amount to this
(`Statement.enter_buildAll_cons`).
-/

namespace Deferred

open Deferred.Computation Deferred.Effect

namespace Statement

/-- Computes the value of a statement: that of its effect, built and invoked, or that of its
expression. -/
def value (env : Env) : Statement → Action Value
  | .bind _ e | .bindPair _ _ e | .run e => enter (e.build env)
  | .letIn _ x | .letPair _ _ x => x.eval env

/-- The scope after a statement that has computed the value. -/
def scope (env : Env) (v : Value) : Statement → Action Env
  | .bind name _ | .letIn name _ => return env.bind name v
  | .bindPair first second _ | .letPair first second _ => do
    let p ← v.asPair "pair"
    return (env.bind first p.1).bind second p.2
  | .run _ => return env

/-- A block is its first statement followed by the block of the others. -/
theorem enter_buildAll_cons (env : Env) (last : Env → Action (Effect Context Value))
    (s : Statement) (ss : List Statement) :
    enter (buildAll env last (s :: ss)) =
      s.value env >>= fun v => s.scope env v >>= fun env' => enter (buildAll env' last ss) := by
  cases s with
  | bind name e => simp only [buildAll, value, scope, enter, Effect.bind, bind_assoc, pure_bind]
  | bindPair first second e =>
    simp only [buildAll, value, scope, enter, Effect.bind, reading, Effect.map, bind_assoc,
      pure_bind]
  | run e => simp only [buildAll, value, scope, enter, Effect.bind, bind_assoc, pure_bind]
  | letIn name x => simp only [buildAll, value, scope, enter, bind_assoc, pure_bind]
  | letPair first second x => simp only [buildAll, value, scope, enter, bind_assoc, pure_bind]

/-- One statement: from a scope, the statements left and a context to those after it. -/
def BlockTurn (k l : Env × List Statement × Context) : Prop :=
  ∃ s v c, k.2.1 = s :: l.2.1 ∧ (s.value k.1).Halts k.2.2 (.ok v, c) ∧
    (s.scope k.1 v).Halts c (.ok l.1, l.2.2)

/-- After a turn of a block, the rest of the block is still to be built. -/
theorem BlockTurn.resumes {k l : Env × List Statement × Context} (h : BlockTurn k l)
    (last : Env → Action (Effect Context Value)) :
    (enter (buildAll k.1 last k.2.1)).Resumes k.2.2 (enter (buildAll l.1 last l.2.1)) l.2.2 := by
  obtain ⟨s, v, c, hss, hvalue, hscope⟩ := h
  rw [hss, enter_buildAll_cons]
  refine (resumes_bind hvalue).trans ?_
  exact resumes_bind hscope

end Statement

/-- After some turns, the statements behind them are still to be built. -/
theorem Rounds.resumes_block {n : Nat} {k l : Env × List Statement × Context}
    (h : Rounds Statement.BlockTurn n k l) (last : Env → Action (Effect Context Value)) :
    (enter (Statement.buildAll k.1 last k.2.1)).Resumes k.2.2
      (enter (Statement.buildAll l.1 last l.2.1)) l.2.2 :=
  h.resumes (fun k => enter (Statement.buildAll k.1 last k.2.1)) (fun k => k.2.2)
    fun _ _ hturn => hturn.resumes last

end Deferred
