import Deferred.Proofs.Alike
import Deferred.Proofs.MonadLaws
import Deferred.Proofs.Program.Block
import Deferred.Proofs.Program.Coincidence

/-!
# Blocks in blocks

A block that ends in a block is one block. A block whose value another block binds can be spliced
in where it stands as well, if what follows mentions none of the names that come into its scope
that way.

A block has two times. The values that it binds before its first effect are computed when the
block is built. Everything else happens in every invocation, statement by statement: an effect is
built when the statements before it are done, and invoked at once.

* `BuildAlike`: building alike, up to what can be observed of the effect that was built.
* `Pattern`: what a statement binds the value of its effect to.
* `Statement.advance`: the scope after a statement that has been carried out.
* `blocks_flatten`: the laws.
-/

namespace Deferred

open Deferred.Computation

variable {σ α β : Type}

/-! ## Building alike -/

/-- Both end in the same panic or in effects that cannot be told apart, and in the same state. -/
def BuildAlike (x y : Computation σ (Effect σ α)) : Prop := Alike Eq (fun e d => e ≈ d) x y

/-- What follows an effect can be replaced by what builds alike. -/
theorem Effect.bind_congr_buildAlike (e : Effect σ α) {f g : α → Computation σ (Effect σ β)}
    (h : ∀ a, BuildAlike (f a) (g a)) : e.bind f ≈ e.bind g := by
  have hnext : ∀ a, Alike Eq Eq (f a >>= Effect.invoke) (g a >>= Effect.invoke) := fun a =>
    (h a).bind fun _ _ hed => alike_eq_of_equiv (Effect.equiv_iff.1 hed)
  exact Effect.equiv_iff.2 (equiv_of_alike_eq ((alike_eq_refl e.invoke).bind_eq hnext))

/-! ## Patterns -/

/-- What a statement binds the value of its effect to. -/
inductive Pattern where
  | single (name : String)
  /-- A name for each part of a pair. -/
  | pair (first second : String)
  | wildcard

namespace Pattern

/-- The names that the pattern binds. -/
def names : Pattern → List String
  | .single name => [name]
  | .pair first second => [first, second]
  | .wildcard => []

/-- The statement that binds the effect's value to the pattern. -/
def statement (e : Term .deferred) : Pattern → Statement
  | .single name => .bind name e
  | .pair first second => .bindPair first second e
  | .wildcard => .run e

/-- The scope with the pattern bound; a value that is no pair does not fit a pair. -/
def scope (env : Env) (v : Value) : Pattern → Action Env
  | .single name => return env.bind name v
  | .pair first second => do
    let p ← v.asPair "pair"
    return (env.bind first p.1).bind second p.2
  | .wildcard => return env

/-- Only the names of the pattern stand for something else in the new scope. -/
theorem scope_bind_congr {mentions : Mention → Prop} (p : Pattern)
    {k : Env → Action (Effect Context Value)}
    (hk : ∀ {env env'}, Env.Agree mentions env env' → k env = k env') {env env' : Env}
    (h : Env.Agree (fun m => mentions m ∧ m.Outside p.names) env env') (v : Value) :
    p.scope env v >>= k = p.scope env' v >>= k := by
  cases p with
  | single name => exact hk (h.under v)
  | pair first second =>
    simp only [scope, bind_assoc, pure_bind]
    exact bind_congr_eq rfl fun q => hk (h.under₂ q.1 q.2)
  | wildcard => exact hk fun name hname => h name ⟨hname, fun _ hbound => nomatch hbound⟩

end Pattern

namespace Statement

/-! ## Statement by statement -/

/-- The statement binds a value and involves no effect. -/
def IsLet : Statement → Prop
  | .letIn _ _ | .letPair _ _ _ => True
  | .bind _ _ | .bindPair _ _ _ | .run _ => False

/-- A statement binds a value, or it runs an effect whose value a pattern binds. -/
theorem isLet_or_eq_statement (s : Statement) : s.IsLet ∨ ∃ p e, s = Pattern.statement e p := by
  cases s with
  | bind name e => exact .inr ⟨.single name, e, rfl⟩
  | bindPair first second e => exact .inr ⟨.pair first second, e, rfl⟩
  | run e => exact .inr ⟨.wildcard, e, rfl⟩
  | letIn name x | letPair first second x => exact .inl trivial

/-- A block binds values until its first effect, if it has one. -/
theorem exists_lets_append (ss : List Statement) :
    ∃ lets rest, ss = lets ++ rest ∧ (∀ s ∈ lets, s.IsLet) ∧
      (rest = [] ∨ ∃ p e rest', rest = Pattern.statement e p :: rest') := by
  induction ss with
  | nil => exact ⟨[], [], rfl, List.forall_mem_nil _, .inl rfl⟩
  | cons s ss ih =>
    rcases isLet_or_eq_statement s with hs | ⟨p, e, hs⟩
    · obtain ⟨lets, rest, hss, hlets, hrest⟩ := ih
      exact ⟨s :: lets, rest, congrArg (s :: ·) hss, List.forall_mem_cons.2 ⟨hs, hlets⟩, hrest⟩
    · exact ⟨[], s :: ss, rfl, List.forall_mem_nil _, .inr ⟨p, e, ss, congrArg (· :: ss) hs⟩⟩

theorem scope_statement (env : Env) (v : Value) (p : Pattern) (e : Term .deferred) :
    (p.statement e).scope env v = p.scope env v := by
  cases p <;> rfl

/-- Carries out a statement: computes its value, that of an effect by building and invoking it,
and binds it. -/
def advance (env : Env) (s : Statement) : Action Env := do
  let v ← s.value env
  s.scope env v

/-- Building and invoking a block carries out its statements one after the other. -/
theorem enter_buildAll (env : Env) (last : Env → Action (Effect Context Value))
    (ss : List Statement) :
    Effect.enter (buildAll env last ss) =
      ss.foldlM advance env >>= fun env' => Effect.enter (last env') := by
  induction ss generalizing env with
  | nil => rfl
  | cons s ss ih =>
    simp only [enter_buildAll_cons, ih, List.foldlM_cons, advance, bind_assoc]

/-- A value is bound while the block is being built. -/
theorem buildAll_cons_of_isLet (env : Env) (last : Env → Action (Effect Context Value))
    {s : Statement} (hs : s.IsLet) (ss : List Statement) :
    buildAll env last (s :: ss) = s.advance env >>= fun env' => buildAll env' last ss := by
  cases s with
  | letIn name x | letPair first second x =>
    simp only [buildAll, advance, value, scope, bind_assoc, pure_bind]
  | bind | bindPair | run => exact hs.elim

/-- Bindings of values take place when the block is built. -/
theorem buildAll_lets_append (env : Env) (last : Env → Action (Effect Context Value))
    {lets : List Statement} (hlets : ∀ s ∈ lets, s.IsLet) (ss : List Statement) :
    buildAll env last (lets ++ ss) =
      lets.foldlM advance env >>= fun env' => buildAll env' last ss := by
  induction lets generalizing env with
  | nil => rfl
  | cons s lets ih =>
    have ⟨hs, hrest⟩ := List.forall_mem_cons.1 hlets
    simp only [List.cons_append, buildAll_cons_of_isLet env last hs, ih _ hrest,
      List.foldlM_cons, bind_assoc]

/-- Of a statement with an effect only the effect is built; what follows waits for its value. -/
theorem buildAll_statement (env : Env) (last : Env → Action (Effect Context Value)) (p : Pattern)
    (e : Term .deferred) (ss : List Statement) :
    buildAll env last (p.statement e :: ss) = do
      let d ← e.build env
      return d.bind fun v => p.scope env v >>= fun env' => buildAll env' last ss := by
  cases p with
  | single name | wildcard => rfl
  | pair first second =>
    refine bind_congr_eq rfl fun d => congrArg (fun invoke => pure (Effect.mk invoke)) ?_
    simp only [Effect.reading, Effect.map, Pattern.scope, bind_assoc, pure_bind]

/-- A block of two parts builds the first one, then the second where the first one leaves off. -/
theorem buildAll_append (env : Env) (last : Env → Action (Effect Context Value))
    (ss ss' : List Statement) :
    buildAll env last (ss ++ ss') = buildAll env (fun env' => buildAll env' last ss') ss := by
  induction ss generalizing env with
  | nil => rfl
  | cons s ss ih =>
    rcases isLet_or_eq_statement s with hs | ⟨p, e, rfl⟩
    · simp only [List.cons_append, buildAll_cons_of_isLet _ _ hs, ih]
    · simp only [List.cons_append, buildAll_statement, ih]

/-! ## A block as the effect of a statement -/

/-- The names that the statement binds. -/
def names : Statement → List String
  | .bind name _ | .letIn name _ => [name]
  | .bindPair first second _ | .letPair first second _ => [first, second]
  | .run _ => []

/-- A statement changes the scope at its own names only. -/
theorem alike_scope (s : Statement) {mentions : Mention → Prop}
    (hnames : ∀ name ∈ s.names, ¬mentions (.var name)) {outer env : Env}
    (h : Env.Agree mentions outer env) (v : Value) :
    Alike Eq (fun env₁ env₂ => env₁ = env₂ ∧ Env.Agree mentions outer env₁)
      (s.scope env v) (s.scope env v) := by
  cases s with
  | bind name e | letIn name x =>
    exact alike_pure ⟨rfl, h.bind_right (hnames name List.mem_cons_self) v⟩
  | bindPair first second e | letPair first second x =>
    refine (alike_lift _).bind_eq fun p => alike_pure ⟨rfl, ?_⟩
    have hfirst := h.bind_right (hnames first List.mem_cons_self) p.1
    exact hfirst.bind_right (hnames second (List.mem_cons_of_mem _ List.mem_cons_self)) p.2
  | run e => exact alike_pure ⟨rfl, h⟩

/-- What follows a block that is an effect of its own can follow its last effect instead, in the
scope of the block's names, if it cannot tell that scope from the one around the block. The
induction is on the statements of the inner block, and `outer` stays the scope around it. -/
theorem buildAlike_nested {mentions : Mention → Prop}
    {next : Env → Value → Action (Effect Context Value)}
    (hnext : ∀ {env env'}, Env.Agree mentions env env' → next env = next env')
    (e : Env → Action (Effect Context Value)) (ss : List Statement)
    (hnames : ∀ s ∈ ss, ∀ name ∈ s.names, ¬mentions (.var name)) {outer env : Env}
    (h : Env.Agree mentions outer env) :
    BuildAlike (do let inner ← buildAll env e ss; return inner.bind (next outer))
      (buildAll env (fun env' => do let d ← e env'; return d.bind (next env')) ss) := by
  induction ss generalizing env with
  | nil =>
    rw [hnext h]
    exact (alike_eq_refl (e env)).bind_eq fun d => alike_pure (Effect.equiv_iff.2 (equiv_refl _))
  | cons s ss ih =>
    have ⟨hs, hrest⟩ := List.forall_mem_cons.1 hnames
    -- Whatever the value of `s`, the rest of the block is built alike in the scope after it.
    have hscope (v : Value) : BuildAlike
        (s.scope env v >>= fun env' => buildAll env' e ss >>= fun inner =>
          return inner.bind (next outer))
        (s.scope env v >>= fun env' =>
          buildAll env' (fun env' => do let d ← e env'; return d.bind (next env')) ss) := by
      refine (s.alike_scope hs h v).bind fun env₁ env₂ henv => ?_
      rw [← henv.1]
      exact ih hrest henv.2
    rcases isLet_or_eq_statement s with hlet | ⟨p, d, rfl⟩
    · simp only [buildAll_cons_of_isLet _ _ hlet, advance, bind_assoc]
      exact (alike_eq_refl (s.value env)).bind_eq hscope
    · have hbind (d : Effect Context Value) :
          (d.bind fun v => p.scope env v >>= fun env' => buildAll env' e ss).bind (next outer) ≈
            d.bind fun v => p.scope env v >>= fun env' =>
              buildAll env' (fun env' => do let d ← e env'; return d.bind (next env')) ss := by
        refine Effect.equiv_trans (Effect.bind_bind_equiv d _ _) ?_
        refine d.bind_congr_buildAlike fun v => ?_
        simpa only [bind_assoc, scope_statement] using hscope v
      simp only [buildAll_statement, bind_assoc, pure_bind]
      exact (alike_eq_refl (d.build env)).bind_eq fun d => alike_pure (hbind d)

end Statement

/-! ## The laws -/

/-- How blocks in blocks can be flattened, and what a block does at which time. -/
structure BlocksFlatten : Prop where
  /-- A block that ends in a block builds the same effect as the block of all the statements. -/
  nested_last (env : Env) (ss ss' : List Statement) (last : Term .deferred) :
    (Term.block ss (.block ss' last)).build env = (Term.block (ss ++ ss') last).build env
  /-- A block whose value is bound to a pattern can be spliced in, if none of the names that it
  binds, other than those of the pattern, is free in what follows. -/
  nested_statement (env : Env) (p : Pattern) (ss rest : List Statement) (e last : Term .deferred)
    (hnames : ∀ s ∈ ss, ∀ name ∈ s.names, name ∉ p.names →
      ¬(Term.block rest last).Mentions (.var name)) :
    BuildAlike ((Term.block (p.statement (.block ss e) :: rest) last).build env)
      ((Term.block (ss ++ p.statement e :: rest) last).build env)
  /-- A block binds values, and then there is nothing left or an effect; the two cases follow. -/
  lets_first (ss : List Statement) :
    ∃ lets rest, ss = lets ++ rest ∧ (∀ s ∈ lets, s.IsLet) ∧
      (rest = [] ∨ ∃ p e rest', rest = Pattern.statement e p :: rest')
  /-- Without an effect among its statements, a block binds its values and builds its last effect
  when it is built. -/
  lets_build (env : Env) (lets : List Statement) (hlets : ∀ s ∈ lets, s.IsLet)
    (last : Term .deferred) :
    (Term.block lets last).build env = do
      let env₁ ← lets.foldlM Statement.advance env
      last.build env₁
  /-- A block that is built binds the values before its first effect and builds that effect. Each
  invocation invokes this effect and then carries out the other statements one after the other,
  each in the scope that the ones before it leave, until it builds and invokes the last effect. -/
  statement_builds (env : Env) (lets : List Statement) (hlets : ∀ s ∈ lets, s.IsLet) (p : Pattern)
    (e : Term .deferred) (rest : List Statement) (last : Term .deferred) :
    (Term.block (lets ++ p.statement e :: rest) last).build env = do
      let env₁ ← lets.foldlM Statement.advance env
      let d ← e.build env₁
      return ⟨do
        let v ← d.invoke
        let env₂ ← p.scope env₁ v
        let env₃ ← rest.foldlM Statement.advance env₂
        let f ← last.build env₃
        f.invoke⟩

/-- The inner block is spliced in: both sides build the same first effect, and what follows the
pattern is the same in both scopes. -/
theorem buildAlike_spliced (env : Env) (p : Pattern) (ss rest : List Statement)
    (e last : Term .deferred)
    (hnames : ∀ s ∈ ss, ∀ name ∈ s.names, name ∉ p.names →
      ¬(Term.block rest last).Mentions (.var name)) :
    BuildAlike ((Term.block (p.statement (.block ss e) :: rest) last).build env)
      ((Term.block (ss ++ p.statement e :: rest) last).build env) := by
  -- What follows the pattern, in the scope around it.
  have hnext {outer inner : Env} (h : Env.Agree (fun m => (Term.block rest last).Mentions m ∧
      m.Outside p.names) outer inner) :
      (fun v => p.scope outer v >>= (Term.block rest last).build) =
        fun v => p.scope inner v >>= (Term.block rest last).build :=
    funext (p.scope_bind_congr (Term.build_congr (.block rest last)) h)
  have hfree : ∀ s ∈ ss, ∀ name ∈ s.names,
      ¬((Term.block rest last).Mentions (.var name) ∧ (Mention.var name).Outside p.names) := by
    intro s hs name hname hmentions
    have hp : name ∉ p.names := fun hp => hmentions.2 name hp rfl
    exact hnames s hs name hname hp hmentions.1
  have hnested := Statement.buildAlike_nested hnext (fun env => e.build env) ss hfree
    (Env.Agree.refl _ env)
  have hleft : (Term.block (p.statement (.block ss e) :: rest) last).build env =
      (do let inner ← (Term.block ss e).build env
          return inner.bind fun v => p.scope env v >>= (Term.block rest last).build) :=
    Statement.buildAll_statement env (fun env => last.build env) p (.block ss e) rest
  have hright : (Term.block (ss ++ p.statement e :: rest) last).build env =
      Statement.buildAll env (fun env' => do
        let d ← e.build env'
        return d.bind fun v => p.scope env' v >>= (Term.block rest last).build) ss := by
    refine (Statement.buildAll_append env (fun env => last.build env) ss _).trans ?_
    exact congrArg (fun last => Statement.buildAll env last ss)
      (funext fun env' => Statement.buildAll_statement env' (fun env => last.build env) p e rest)
  rw [hleft, hright]
  exact hnested

/-- Nested blocks flatten, in last position and as statements. -/
theorem blocks_flatten : BlocksFlatten where
  nested_last env ss ss' last :=
    (Statement.buildAll_append env (fun env' => last.build env') ss ss').symm
  nested_statement := buildAlike_spliced
  lets_first := Statement.exists_lets_append
  lets_build env lets hlets last := by
    have h := Statement.buildAll_lets_append env (fun env' => last.build env') hlets []
    rwa [List.append_nil] at h
  statement_builds env lets hlets p e rest last := by
    have hbuild := Statement.buildAll_lets_append env (fun env' => last.build env') hlets
      (p.statement e :: rest)
    refine hbuild.trans (bind_congr_eq rfl fun env₁ => ?_)
    rw [Statement.buildAll_statement]
    -- What waits for the value of the first effect is entered when the effect is invoked.
    have hinvoke (d : Effect Context Value) :
        (d.bind fun v => p.scope env₁ v >>= fun env' =>
          Statement.buildAll env' (fun env' => last.build env') rest).invoke =
        (do let v ← d.invoke
            let env₂ ← p.scope env₁ v
            let env₃ ← rest.foldlM Statement.advance env₂
            Effect.enter (last.build env₃)) := by
      simp only [Effect.bind, bind_assoc]
      exact bind_congr_eq rfl fun v => bind_congr_eq rfl fun env₂ =>
        Statement.enter_buildAll env₂ (fun env' => last.build env') rest
    exact bind_congr_eq rfl fun d => congrArg (fun invoke => pure (Effect.mk invoke)) (hinvoke d)

/-- Names what a cell holds and records it under another name. -/
def showCell : List Statement :=
  [.bind "x" (.readCell "c"), .letIn "y" (.tap (.var "x") (.var "x"))]

/-- The block around these statements may give the first of their names to another value, and does
not ask for the second. -/
theorem showCell_flattens :
    (∀ s ∈ showCell, ∀ name ∈ s.names, name ∉ (Pattern.single "x").names →
      ¬(Term.block [.run (.pure (.var "x"))] (.pure (.var "x"))).Mentions (.var name)) ∧
    BuildAlike
      ((Term.block [.bind "x" (.block showCell (.pure (.var "y"))), .run (.pure (.var "x"))]
        (.pure (.var "x"))).build [])
      ((Term.block (showCell ++ [.bind "x" (.pure (.var "y")), .run (.pure (.var "x"))])
        (.pure (.var "x"))).build []) := by
  have hne : Mention.var "y" ≠ .var "x" := by simp
  have hy : ¬(Term.block [.run (.pure (.var "x"))] (.pure (.var "x"))).Mentions (.var "y") :=
    fun h => h.elim hne hne
  have hnames : ∀ s ∈ showCell, ∀ name ∈ s.names, name ∉ (Pattern.single "x").names →
      ¬(Term.block [.run (.pure (.var "x"))] (.pure (.var "x"))).Mentions (.var name) := by
    refine List.forall_mem_cons.2 ⟨fun name hx hp => absurd hx hp, ?_⟩
    refine List.forall_mem_singleton.2 fun name hname _ => ?_
    rw [List.mem_singleton.1 hname]
    exact hy
  exact ⟨hnames, blocks_flatten.nested_statement [] (.single "x") showCell
    [.run (.pure (.var "x"))] (.pure (.var "y")) (.pure (.var "x")) hnames⟩

end Deferred
