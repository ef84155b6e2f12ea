import Deferred.Computation.Halting
import Deferred.Effect

/-!
# What can be observed of an effect

Nothing of an effect shows but what its invocations do. `Effect.invocations` invokes one several
times in a row, each time on the state that the invocation before left, and two effects are
observationally equal, `e ≈ d`, if no row of invocations tells them apart.

* `halts_bind_ok_iff`, `halts_bind_error_iff`: how a sequence ends once its first part has ended.
* `Resumes x s y t`: running `x` from `s` is running `y` from `t`.
* `Effect.equiv_iff`: single invocations are enough to tell effects apart.
-/

namespace Deferred

variable {σ α β γ : Type}

namespace Computation

/-! ## Endings -/

theorem halts_update_iff {f : σ → α × σ} {s : σ} {r : Except Panic α × σ} :
    (update f).Halts s r ↔ r = (.ok (f s).1, (f s).2) :=
  ⟨fun ⟨_, h⟩ => (Option.some.inj h).symm, fun h => ⟨0, h ▸ rfl⟩⟩

/-- What does not run for ever ends. -/
theorem not_diverges_iff {x : Computation σ α} {s : σ} : ¬x.Diverges s ↔ ∃ r, x.Halts s r := by
  rw [diverges_iff, Classical.not_forall_not]

/-- A result that is there already ends where it stands. -/
theorem halts_lift_iff {r : Except Panic α} {s : σ} {e : Except Panic α × σ} :
    (liftM r : Computation σ α).Halts s e ↔ e = (r, s) := by
  cases r with
  | ok v => exact halts_pure_iff
  | error p => exact halts_panic_iff

/-- What remains of a sequence whose first part has yielded a value. -/
theorem halts_bind_ok_iff {x : Computation σ α} {f : α → Computation σ β} {s s' : σ} {a : α}
    {r : Except Panic β × σ} (h : x.Halts s (.ok a, s')) :
    (x >>= f).Halts s r ↔ (f a).Halts s' r := by
  rw [halts_bind_iff]
  constructor
  · rintro (⟨p, u, hx, -⟩ | ⟨b, u, hx, hf⟩)
    · exact nomatch halts_unique h hx
    · cases halts_unique h hx
      exact hf
  · intro hf
    exact .inr ⟨a, s', h, hf⟩

/-- Nothing remains of a sequence whose first part has panicked. -/
theorem halts_bind_error_iff {x : Computation σ α} {f : α → Computation σ β} {s s' : σ}
    {p : Panic} {r : Except Panic β × σ} (h : x.Halts s (.error p, s')) :
    (x >>= f).Halts s r ↔ r = (.error p, s') := by
  rw [halts_bind_iff]
  constructor
  · rintro (⟨q, u, hx, rfl⟩ | ⟨b, u, hx, -⟩)
    · cases halts_unique h hx
      rfl
    · exact nomatch halts_unique h hx
  · rintro rfl
    exact .inl ⟨p, s', h, rfl⟩

/-- A sequence yields a value if both of its parts do. -/
theorem halts_bind_value_iff {x : Computation σ α} {f : α → Computation σ β} {s u : σ} {b : β} :
    (x >>= f).Halts s (.ok b, u) ↔
      ∃ a t, x.Halts s (.ok a, t) ∧ (f a).Halts t (.ok b, u) := by
  rw [halts_bind_iff]
  constructor
  · rintro (⟨p, t, -, h⟩ | h)
    · exact nomatch h
    · exact h
  · exact .inr

/-- A sequence panics if its first part does, or if its second part does after that. -/
theorem halts_bind_panic_iff {x : Computation σ α} {f : α → Computation σ β} {s u : σ}
    {p : Panic} :
    (x >>= f).Halts s (.error p, u) ↔
      x.Halts s (.error p, u) ∨ ∃ a t, x.Halts s (.ok a, t) ∧ (f a).Halts t (.error p, u) := by
  rw [halts_bind_iff]
  refine or_congr_left ⟨?_, ?_⟩
  · rintro ⟨q, t, hx, hend⟩
    cases hend
    exact hx
  · intro hx
    exact ⟨p, u, hx, rfl⟩

/-- What is made of a value in the end only shows in the value. -/
theorem halts_bind_pure_iff {x : Computation σ α} {f : α → β} {s t : σ} {r : Except Panic β} :
    (x >>= fun a => pure (f a)).Halts s (r, t) ↔ ∃ o, x.Halts s (o, t) ∧ r = o.map f := by
  constructor
  · intro h
    rcases halts_bind_iff.1 h with ⟨q, u, hx, hend⟩ | ⟨a, u, hx, hend⟩
    · cases hend
      exact ⟨.error q, hx, rfl⟩
    · cases halts_pure_iff.1 hend
      exact ⟨.ok a, hx, rfl⟩
  · intro h
    obtain ⟨o, hx, rfl⟩ := h
    cases o with
    | ok a => exact (halts_bind_ok_iff hx).2 (halts_pure_iff.2 rfl)
    | error q => exact (halts_bind_error_iff hx).2 rfl

/-- A value is made of a value. -/
theorem halts_bind_pure_value_iff {x : Computation σ α} {f : α → β} {s t : σ} {b : β} :
    (x >>= fun a => pure (f a)).Halts s (.ok b, t) ↔ ∃ a, x.Halts s (.ok a, t) ∧ b = f a := by
  rw [halts_bind_value_iff]
  constructor
  · intro h
    obtain ⟨a, u, hx, hend⟩ := h
    cases halts_pure_iff.1 hend
    exact ⟨a, hx, rfl⟩
  · intro h
    obtain ⟨a, hx, rfl⟩ := h
    exact ⟨a, t, hx, halts_pure_iff.2 rfl⟩

/-- A value that is changed at the end makes no difference to panics. -/
theorem halts_bind_pure_panic_iff {x : Computation σ α} {f : α → β} {s t : σ} {p : Panic} :
    (x >>= fun a => pure (f a)).Halts s (.error p, t) ↔ x.Halts s (.error p, t) := by
  rw [halts_bind_panic_iff]
  refine or_iff_left ?_
  rintro ⟨a, u, -, hend⟩
  exact nomatch halts_pure_iff.1 hend

/-- An attempt ends normally, with the ending of what was attempted as its value. -/
theorem halts_attempt_iff {x : Computation σ α} {s : σ}
    {r : Except Panic (Except Panic α) × σ} :
    x.attempt.Halts s r ↔ ∃ o s', x.Halts s (o, s') ∧ r = (.ok o, s') := by
  constructor
  · rintro ⟨n, h⟩
    obtain ⟨⟨o, s'⟩, hx, rfl⟩ := Option.map_eq_some_iff.1 h
    exact ⟨o, s', ⟨n, hx⟩, rfl⟩
  · rintro ⟨o, s', ⟨n, hx⟩, rfl⟩
    exact ⟨n, Option.map_eq_some_iff.2 ⟨(o, s'), hx, rfl⟩⟩

/-- On another state a computation ends as it does there, and what it left is brought back. -/
theorem halts_onState_iff {τ : Type} {view : σ → τ} {put : σ → τ → σ} {x : Computation τ α} {s : σ}
    {r : Except Panic α × σ} :
    (x.onState view put).Halts s r ↔ ∃ o t, x.Halts (view s) (o, t) ∧ r = (o, put s t) := by
  constructor
  · rintro ⟨n, h⟩
    obtain ⟨⟨o, t⟩, hx, rfl⟩ := Option.map_eq_some_iff.1 h
    exact ⟨o, t, ⟨n, hx⟩, rfl⟩
  · rintro ⟨o, t, ⟨n, hx⟩, rfl⟩
    exact ⟨n, Option.map_eq_some_iff.2 ⟨(o, t), hx, rfl⟩⟩

/-- Attempts end alike if what is attempted does. -/
theorem attempt_congr_equiv {x y : Computation σ α} (h : x ≈ y) : x.attempt ≈ y.attempt := by
  intro s r
  simp only [halts_attempt_iff, equiv_def.1 h]

/-! ## Going on elsewhere -/

/-- Running `x` from `s` ends as running `y` from `t` does. -/
def Resumes (x : Computation σ α) (s : σ) (y : Computation σ α) (t : σ) : Prop :=
  ∀ r, x.Halts s r ↔ y.Halts t r

theorem Resumes.refl (x : Computation σ α) (s : σ) : x.Resumes s x s := fun _ => .rfl

/-- What goes on from a second place goes on from a third one. -/
theorem Resumes.trans {x y z : Computation σ α} {s t u : σ} (h : x.Resumes s y t)
    (h' : y.Resumes t z u) : x.Resumes s z u := fun r => (h r).trans (h' r)

/-- Observationally equal computations go on as each other from the same state. -/
theorem Resumes.of_equiv {x y : Computation σ α} (h : x ≈ y) (s : σ) : x.Resumes s y s :=
  fun r => h s r

/-- One of them never ends if the other does not. -/
theorem Resumes.diverges_iff {x y : Computation σ α} {s t : σ} (h : x.Resumes s y t) :
    x.Diverges s ↔ y.Diverges t := by
  simp only [Computation.diverges_iff, h _]

/-- What follows a computation follows it elsewhere too. -/
theorem Resumes.bind {x y : Computation σ α} {s t : σ} (h : x.Resumes s y t)
    (f : α → Computation σ β) : (x >>= f).Resumes s (y >>= f) t := by
  intro r
  simp only [halts_bind_iff, h _]

/-- What follows has to go on alike for the values alone that are yielded, and where they are. -/
theorem Resumes.bind_of_halts {x : Computation σ α} {f g : α → Computation σ β} {s : σ}
    (h : ∀ a t, x.Halts s (.ok a, t) → (f a).Resumes t (g a) t) :
    (x >>= f).Resumes s (x >>= g) s := by
  intro r
  rw [halts_bind_iff, halts_bind_iff]
  refine or_congr_right (exists_congr fun a => exists_congr fun t => and_congr_right fun hx => ?_)
  exact h a t hx r

/-- A sequence goes on with its second part when the first has yielded a value. -/
theorem resumes_bind {x : Computation σ α} {f : α → Computation σ β} {s s' : σ} {a : α}
    (h : x.Halts s (.ok a, s')) : (x >>= f).Resumes s (f a) s' :=
  fun _ => halts_bind_ok_iff h

/-- A sequence never ends if its first part does not, or if its second part does not after that. -/
theorem diverges_bind_iff {x : Computation σ α} {f : α → Computation σ β} {s : σ} :
    (x >>= f).Diverges s ↔
      x.Diverges s ∨ ∃ a t, x.Halts s (.ok a, t) ∧ (f a).Diverges t := by
  constructor
  · intro h
    refine Classical.or_iff_not_imp_left.2 fun hx => ?_
    obtain ⟨⟨o, t⟩, hx⟩ := not_diverges_iff.1 hx
    cases o with
    | ok a => exact ⟨a, t, hx, (resumes_bind hx).diverges_iff.1 h⟩
    | error p => exact absurd ((halts_bind_error_iff hx).2 rfl) (diverges_iff.1 h _)
  · rintro (hx | ⟨a, t, hx, hf⟩)
    · refine diverges_iff.2 fun r hr => ?_
      rcases halts_bind_iff.1 hr with ⟨p, t, hx', -⟩ | ⟨a, t, hx', -⟩
      · exact diverges_iff.1 hx _ hx'
      · exact diverges_iff.1 hx _ hx'
    · exact (resumes_bind hx).diverges_iff.2 hf

/-- A value that is changed at the end makes no difference to divergence. -/
theorem diverges_bind_pure_iff {x : Computation σ α} {f : α → β} {s : σ} :
    (x >>= fun a => pure (f a)).Diverges s ↔ x.Diverges s := by
  rw [diverges_bind_iff]
  refine or_iff_left ?_
  rintro ⟨a, t, -, hend⟩
  exact diverges_iff.1 hend _ (halts_pure_iff.2 rfl)

/-- Telling of an event takes one step and yields nothing. -/
theorem halts_emit [Tracer σ] (event : Event) (s : σ) :
    (emit event : Computation σ Unit).Halts s (.ok (), Tracer.emit event s) :=
  halts_update_iff.2 rfl

/-- What follows an event goes on from the state that has been told of it. -/
theorem resumes_emit [Tracer σ] {event : Event} (x : Computation σ α) (s : σ) :
    (emit event >>= fun _ => x).Resumes s x (Tracer.emit event s) :=
  resumes_bind (halts_emit event s)

/-- An event that leaves no mark is as if it had not been. -/
theorem emit_bind_equiv [Tracer σ] (hsilent : ∀ event (s : σ), Tracer.emit event s = s)
    (event : Event) (x : Computation σ α) : (emit event >>= fun _ => x) ≈ x := by
  intro s r
  rw [resumes_emit x s r, hsilent]

end Computation

namespace Effect

open Deferred.Computation

/-! ## Observational equality of effects -/

/-- Invokes `e` so many times in a row and yields how every invocation ended. A panic ends its
own invocation and not the row. -/
def invocations (e : Effect σ α) : (count : Nat) → Computation σ (List (Except Panic α))
  | 0 => return []
  | count + 1 => do
    let outcome ← e.invoke.attempt
    let outcomes ← e.invocations count
    return outcome :: outcomes

/-- No row of invocations, from whatever state, ends differently. -/
instance : HasEquiv (Effect σ α) where
  Equiv e d := ∀ count, e.invocations count ≈ d.invocations count

/-- A row of one invocation yields the outcome of that one. -/
theorem halts_invocations_one_iff {e : Effect σ α} {s s' : σ} {o : Except Panic α} :
    (e.invocations 1).Halts s (.ok [o], s') ↔ e.invoke.Halts s (o, s') := by
  show (e.invoke.attempt >>= fun outcome => Pure.pure [outcome]).Halts s (.ok [o], s') ↔ _
  constructor
  · intro h
    rcases halts_bind_iff.1 h with ⟨p, u, -, h⟩ | ⟨a, u, h, h'⟩
    · exact nomatch h
    · obtain ⟨o', u', h, hr⟩ := halts_attempt_iff.1 h
      cases hr
      cases halts_pure_iff.1 h'
      exact h
  · intro h
    exact (halts_bind_ok_iff (halts_attempt_iff.2 ⟨o, s', h, rfl⟩)).2 (halts_pure_iff.2 rfl)

/-- A row of invocations is the first one, however it ends, and the row of the others. -/
theorem halts_invocations_succ_iff {e : Effect σ α} {count : Nat} {s u : σ}
    {outcomes : List (Except Panic α)} :
    (e.invocations (count + 1)).Halts s (.ok outcomes, u) ↔
      ∃ o os t, outcomes = o :: os ∧ e.invoke.Halts s (o, t) ∧
        (e.invocations count).Halts t (.ok os, u) := by
  constructor
  · intro h
    rcases halts_bind_iff.1 h with ⟨p, t, -, h⟩ | ⟨o, t, hfirst, hrest⟩
    · exact nomatch h
    · obtain ⟨o', t', hfirst, ho⟩ := halts_attempt_iff.1 hfirst
      cases ho
      rcases halts_bind_iff.1 hrest with ⟨p, u', -, h⟩ | ⟨os, u', hrow, hend⟩
      · exact nomatch h
      · cases halts_pure_iff.1 hend
        exact ⟨o, os, t, rfl, hfirst, hrow⟩
  · rintro ⟨o, os, t, rfl, hfirst, hrow⟩
    have hattempt := halts_attempt_iff.2 ⟨o, t, hfirst, rfl⟩
    exact (halts_bind_ok_iff hattempt).2 ((halts_bind_ok_iff hrow).2 (halts_pure_iff.2 rfl))

/-- One invocation more takes place on the state that the row left, however its invocations
ended. -/
theorem halts_invocations_append_iff {e : Effect σ α} {count : Nat} {s t u : σ}
    {outcomes : List (Except Panic α)} {o : Except Panic α}
    (hrow : (e.invocations count).Halts s (.ok outcomes, t)) :
    (e.invocations (count + 1)).Halts s (.ok (outcomes ++ [o]), u) ↔
      e.invoke.Halts t (o, u) := by
  induction count generalizing s outcomes with
  | zero =>
    cases halts_pure_iff.1 hrow
    exact halts_invocations_one_iff
  | succ count ih =>
    obtain ⟨first, os, s', rfl, hfirst, hrest⟩ := halts_invocations_succ_iff.1 hrow
    rw [halts_invocations_succ_iff]
    constructor
    · rintro ⟨first', os', s'', hos, hfirst', hrest'⟩
      cases halts_unique hfirst hfirst'
      obtain ⟨-, rfl⟩ := List.cons.inj hos
      exact (ih hrest).1 hrest'
    · intro h
      exact ⟨first, os ++ [o], s', rfl, hfirst, (ih hrest).2 h⟩

/-- Rows of invocations go alike if single ones do wherever the row comes to. -/
theorem resumes_invocations {e d : Effect σ α} {count : Nat} {s : σ}
    (h : ∀ k < count, ∀ outcomes t, (e.invocations k).Halts s (.ok outcomes, t) →
      e.invoke.Resumes t d.invoke t) :
    (e.invocations count).Resumes s (d.invocations count) s := by
  induction count generalizing s with
  | zero => exact .refl _ _
  | succ count ih =>
    have hfirst : e.invoke.Resumes s d.invoke s :=
      h 0 (Nat.zero_lt_succ count) [] s (halts_pure_iff.2 rfl)
    have hrest : ∀ o t, e.invoke.attempt.Halts s (.ok o, t) →
        (e.invocations count).Resumes t (d.invocations count) t := by
      intro o t hattempt
      obtain ⟨o', t', he, hend⟩ := halts_attempt_iff.1 hattempt
      cases hend
      refine ih fun k hk outcomes u hrow => ?_
      have hrow' := halts_invocations_succ_iff.2 ⟨o, outcomes, t, rfl, he, hrow⟩
      exact h (k + 1) (Nat.succ_lt_succ hk) _ u hrow'
    have hattempt : e.invoke.attempt.Resumes s d.invoke.attempt s := by
      intro r
      simp only [halts_attempt_iff, hfirst _]
    refine Resumes.trans ?_ (hattempt.bind _)
    exact Resumes.bind_of_halts fun o t ho => (hrest o t ho).bind _

/-- Effects are observationally equal exactly if their invocations are. -/
theorem equiv_iff {e d : Effect σ α} : e ≈ d ↔ e.invoke ≈ d.invoke := by
  constructor
  · rintro h s ⟨o, s'⟩
    calc e.invoke.Halts s (o, s')
        ↔ (e.invocations 1).Halts s (.ok [o], s') := halts_invocations_one_iff.symm
      _ ↔ (d.invocations 1).Halts s (.ok [o], s') := h 1 s _
      _ ↔ d.invoke.Halts s (o, s') := halts_invocations_one_iff
  · intro h count
    induction count with
    | zero => exact equiv_refl _
    | succ count ih =>
      exact bind_congr_equiv (attempt_congr_equiv h) fun _ =>
        bind_congr_equiv ih fun _ => equiv_refl _

/-- The second effect is invoked after the first one, with no value passed. -/
theorem invoke_andThen (e : Effect σ α) (d : Effect σ β) :
    (e.andThen d).invoke = e.invoke >>= fun _ => d.invoke := rfl

/-- Effects with the same invocations are observationally equal. -/
theorem equiv_of_invoke_eq {e d : Effect σ α} (h : e.invoke = d.invoke) : e ≈ d :=
  equiv_iff.2 (equiv_of_eq h)

end Effect

end Deferred
