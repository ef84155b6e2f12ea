import Deferred.Proofs.Unwinding

/-!
# Guarded invocations

A guarded invocation ends whenever the invocation itself does, and always normally: with the value,
or with an error in place of the panic, whose event is then the last thing that happened
(`Effect.halts_invokeGuarded_iff`). Whatever a panic left stays, and what stands around the guard
goes on from there (`Stack.resumes_invokeGuarded`).
-/

namespace Deferred

open Deferred.Computation

variable {σ α β γ : Type} [Tracer σ]

/-! ## One guarded invocation -/

namespace Effect

/-- What a guarded invocation yields, given how the invocation ended. -/
def reported : Except Panic α → Except InvocationError α
  | .ok a => .ok a
  | .error p => .error (.ofPanic p)

/-- The state after a guarded invocation: the one that the invocation left, which is told of a
panic. -/
def afterReport : Except Panic α → σ → σ
  | .ok _, s => s
  | .error p, s => Tracer.emit (.invocationFailed (.ofPanic p)) s

/-- A guarded invocation ends when the effect does, and yields a report of how it ended. -/
theorem halts_invokeGuarded_iff {e : Effect σ α} {s : σ}
    {r : Except Panic (Except InvocationError α) × σ} :
    e.invokeGuarded.Halts s r ↔
      ∃ o t, e.invoke.Halts s (o, t) ∧ r = (.ok (reported o), afterReport o t) := by
  constructor
  · intro h
    rcases halts_bind_iff.1 h with ⟨p, t, h, -⟩ | ⟨o, t, h, hrest⟩
    · obtain ⟨_, _, -, h⟩ := halts_attempt_iff.1 h
      exact nomatch h
    · obtain ⟨o', t', h, ho⟩ := halts_attempt_iff.1 h
      cases ho
      refine ⟨o, t, h, ?_⟩
      cases o with
      | ok a => exact halts_pure_iff.1 hrest
      | error p => exact halts_pure_iff.1 ((resumes_emit _ _ r).1 hrest)
  · rintro ⟨o, t, h, rfl⟩
    refine (halts_bind_ok_iff (halts_attempt_iff.2 ⟨o, t, h, rfl⟩)).2 ?_
    cases o with
    | ok a => exact halts_pure_iff.2 rfl
    | error p => exact (resumes_emit _ _ _).2 (halts_pure_iff.2 rfl)

/-- Guarding does not change whether an invocation ends. -/
theorem diverges_invokeGuarded_iff {e : Effect σ α} {s : σ} :
    e.invokeGuarded.Diverges s ↔ e.invoke.Diverges s := by
  rw [diverges_iff, diverges_iff]
  constructor
  · intro h ⟨o, t⟩ he
    exact h _ (halts_invokeGuarded_iff.2 ⟨o, t, he, rfl⟩)
  · intro h r hr
    obtain ⟨o, t, he, -⟩ := halts_invokeGuarded_iff.1 hr
    exact h _ he

end Effect

open Deferred.Effect

/-! ## Going on after a guarded invocation -/

/-- However the guarded effect ends, the operations around it go on with the report, from the state
that the effect left. -/
theorem Stack.resumes_invokeGuarded {e : Effect σ α} {x : Computation σ β}
    {post : Except InvocationError α → Computation σ γ} {k : γ → Computation σ β} {s t u : σ}
    {o : Except Panic α} (hstack : Stack x s (e.invokeGuarded >>= post) k t)
    (hend : e.invoke.Halts t (o, u)) :
    x.Resumes s (post (reported o) >>= k) (afterReport o u) :=
  hstack.resumes.trans <|
    (resumes_bind (halts_invokeGuarded_iff.2 ⟨o, u, hend, rfl⟩)).bind k

namespace Effect

/-- An effect that makes another one anew and invokes it guarded. -/
def guardedDefer (m : Computation σ (Effect σ α)) : Effect σ (Except InvocationError α) :=
  ⟨(defer m).invokeGuarded⟩

/-- Making the first effect left and invoking it, however that ends. -/
def GuardedTurn (k l : List (Computation σ (Effect σ α)) × σ) : Prop :=
  ∃ m o t, k.1 = m :: l.1 ∧ (enter m).Halts k.2 (o, t) ∧ l.2 = afterReport o t

/-- A guarded turn is a turn of the loop over items, whatever the item does. -/
theorem GuardedTurn.itemTurn {k l : List (Computation σ (Effect σ α)) × σ}
    (h : GuardedTurn k l) : ItemTurn (fun m => enter (return guardedDefer m)) k l := by
  obtain ⟨m, o, t, hk, hend, hl⟩ := h
  refine ⟨m, reported o, hk, ?_⟩
  rw [hl]
  exact halts_invokeGuarded_iff.2 ⟨o, t, hend, rfl⟩

/-- A loop over effects that end gets through all of them when each is guarded. -/
theorem exists_guardedRounds {ms : List (Computation σ (Effect σ α))}
    (hends : ∀ m ∈ ms, ∀ s, ∃ r, (enter m).Halts s r) (s : σ) :
    ∃ t, Rounds GuardedTurn ms.length (ms, s) ([], t) := by
  induction ms generalizing s with
  | nil => exact ⟨s, .none _⟩
  | cons m ms ih =>
    obtain ⟨⟨o, u⟩, hm⟩ := hends m List.mem_cons_self s
    obtain ⟨t, hrounds⟩ := ih (fun m h => hends m (List.mem_cons_of_mem _ h)) (afterReport o u)
    exact ⟨t, .more ⟨m, o, u, rfl, hm, rfl⟩ hrounds⟩

/-- A loop over guarded effects that end takes a turn for each of them, every turn from the state
that the one before left, and yields its value. -/
theorem forItems_guarded_halts {ms : List (Computation σ (Effect σ α))}
    (hends : ∀ m ∈ ms, ∀ s, ∃ r, (enter m).Halts s r) (s : σ) :
    ∃ t, Rounds GuardedTurn ms.length
        (ms, Tracer.emit (.loopStarted false (.forEach ms.length)) s) ([], t) ∧
      (forItems ms fun m => return guardedDefer m).invoke.Halts s (.ok (), t) := by
  obtain ⟨t, hrounds⟩ := exists_guardedRounds hends
    (Tracer.emit (.loopStarted false (.forEach ms.length)) s)
  have hloop := (hrounds.imp fun _ _ => GuardedTurn.itemTurn).resumes_forEach
  exact ⟨t, hrounds, (resumes_emit _ s _).2 ((hloop _).2 (halts_pure_iff.2 rfl))⟩

/-! ## Guarded and plain invocations -/

/-- A context that listens gets the event at the end of its trace; another one stays as it is. -/
theorem emit_context (event : Event) (c : Context) :
    Tracer.emit event c =
      if c.world.listening then c.mapWorld fun w => w.push (.event event) else c := by
  show c.mapWorld (fun w => if w.listening then w.push (.event event) else w) = _
  by_cases h : c.world.listening
  · simp only [Context.mapWorld, h, if_true]
  · simp only [Context.mapWorld, h]
    rfl

/-- How guarding an effect changes its invocation from a state, and what stands around it. -/
structure GuardAgreement (e : Effect σ α) (s : σ) : Prop where
  /-- A value is yielded in the same state. -/
  value {a : α} {t : σ} (h : e.invoke.Halts s (.ok a, t)) :
    e.invokeGuarded.Halts s (.ok (.ok a), t)
  /-- A panic becomes an error. What was done before it stays, and the event comes last. -/
  panic {p : Panic} {t : σ} (h : e.invoke.Halts s (.error p, t)) :
    e.invokeGuarded.Halts s
      (.ok (.error (.ofPanic p)), Tracer.emit (.invocationFailed (.ofPanic p)) t)
  diverges : e.invokeGuarded.Diverges s ↔ e.invoke.Diverges s
  never_panics (p : Panic) (t : σ) : ¬e.invokeGuarded.Halts s (.error p, t)
  /-- A panic before the effect is there to be guarded is not caught. -/
  making {m : Computation σ (Effect σ α)} {p : Panic} {t : σ} (h : m.Halts s (.error p, t)) :
    (m >>= invokeGuarded).Halts s (.error p, t)
  /-- Where `e` is made anew and guarded in the midst of other operations, they go on with the
  report, from the state that `e` left. -/
  around {β γ : Type} {x : Computation σ β} {m : Computation σ (Effect σ α)}
    {post : Except InvocationError α → Computation σ γ} {k : γ → Computation σ β} {t u : σ}
    {o : Except Panic α} (hstack : Stack x s ((defer m).invokeGuarded >>= post) k t)
    (hend : (enter m).Halts t (o, u)) : x.Resumes s (post (reported o) >>= k) (afterReport o u)
  /-- A loop over guarded effects that end takes all of its turns. -/
  loop {ms : List (Computation σ (Effect σ α))} (hends : ∀ m ∈ ms, ∀ t, ∃ r, (enter m).Halts t r) :
    ∃ t, Rounds GuardedTurn ms.length
        (ms, Tracer.emit (.loopStarted false (.forEach ms.length)) s) ([], t) ∧
      (forItems ms fun m => return guardedDefer m).invoke.Halts s (.ok (), t)

/-- A guarded invocation agrees with the plain one, and its error carries the words of the panic. -/
theorem invokeGuarded_agrees (e : Effect σ α) (s : σ) :
    GuardAgreement e s ∧
    (∀ text, (InvocationError.ofPanic (.literal text)).message = text ∧
      (InvocationError.ofPanic (.formatted text)).message = text) ∧
    (∀ number, (InvocationError.ofPanic (.code number)).message = "Unknown panic") ∧
    ∀ error : InvocationError,
      toString error = "effect invocation panicked: " ++ error.message ∧
      (Event.invocationFailed error).render =
        "WARN effect invocation failed error=" ++ toString error ∧
      ∀ c : Context, Tracer.emit (.invocationFailed error) c =
        if c.world.listening then c.mapWorld fun w => w.push (.event (.invocationFailed error))
        else c := by
  have agreement : GuardAgreement e s :=
    { value := fun h => halts_invokeGuarded_iff.2 ⟨_, _, h, rfl⟩
      panic := fun h => halts_invokeGuarded_iff.2 ⟨_, _, h, rfl⟩
      diverges := diverges_invokeGuarded_iff
      never_panics := by
        intro p t h
        obtain ⟨o, u, -, h⟩ := halts_invokeGuarded_iff.1 h
        exact nomatch h
      making := fun h => (halts_bind_error_iff h).2 rfl
      around := fun hstack hend => hstack.resumes_invokeGuarded hend
      loop := fun hends => forItems_guarded_halts hends s }
  exact ⟨agreement, fun _ => ⟨rfl, rfl⟩, fun _ => rfl, fun error => ⟨rfl, rfl, emit_context _⟩⟩

/-- Records something and panics. -/
def recordThenFail : Effect World Unit :=
  ⟨do
    modify fun w => w.push (.value .unit)
    throw (.formatted "gone")⟩

/-- A panic that is guarded before a second effect: what it recorded stays, its report follows, and
the second effect comes next. -/
theorem recordThenFail_guarded :
    ∃ t, t.trace = #[.value .unit] ∧
      recordThenFail.invoke.Halts (World.initial true) (.error (.formatted "gone"), t) ∧
      recordThenFail.invokeGuarded.Halts (World.initial true) (.ok (.error ⟨"gone"⟩),
        t.push (.event (.invocationFailed ⟨"gone"⟩))) ∧
      ∀ (d : Effect World Value) (r : Except Panic Value × World),
        (map2 ⟨(defer (return recordThenFail)).invokeGuarded >>= fun _ => Pure.pure ()⟩ d
          fun _ v => Pure.pure v).invoke.Halts (World.initial true) r ↔
        d.invoke.Halts (t.push (.event (.invocationFailed ⟨"gone"⟩))) r := by
  have hend : recordThenFail.invoke.Halts (World.initial true)
      (.error (.formatted "gone"), (World.initial true).push (.value .unit)) := ⟨0, rfl⟩
  have hmade : (enter (return recordThenFail)).Halts (World.initial true)
      (.error (.formatted "gone"), (World.initial true).push (.value .unit)) := hend
  have agreement := (invokeGuarded_agrees recordThenFail (World.initial true)).1
  refine ⟨_, rfl, hend, agreement.panic hend, fun d r => ?_⟩
  refine (agreement.around (.cons (.map2First _ d _ _) (.nil _ _)) hmade r).trans ?_
  exact equiv_of_eq (bind_pure_eq d.invoke) _ r

end Effect

end Deferred
