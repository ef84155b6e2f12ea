import Deferred.Panic

/-!
# Computations

A computation reads and changes a state of type `σ` and ends in a value or in a panic. It may
also never end, so it is given a *budget*: the greatest number of turns that any single
unbounded loop inside it may take. Within a budget a computation either ends or has not ended
yet, and an ending does not change when the budget grows (`Computation.run_within`).

The module defines runs at one budget (`Run`), computations, their monad with its laws, and
the operations on state and panics.
-/

namespace Deferred

variable {σ τ α β γ : Type}

/-- A run at one budget: from a state to an ending, or `none` if it has not ended. -/
abbrev Run (σ α : Type) := σ → Option (Except Panic α × σ)

namespace Run

/-- Ends at once with a value. -/
@[inline] def done (a : α) : Run σ α := fun s => some (.ok a, s)

/-- Has not ended. -/
@[inline] def unfinished : Run σ α := fun _ => none

/-- Goes on with the value of `x`; a panic of `x` is the whole run's. -/
@[inline] def next (x : Run σ α) (f : α → Run σ β) : Run σ β := fun s =>
  match x s with
  | none => none
  | some (.error p, s') => some (.error p, s')
  | some (.ok a, s') => f a s'

/-- Every ending of `x` is an ending of `y`. -/
def Within (x y : Run σ α) : Prop := ∀ s r, x s = some r → y s = some r

theorem within_refl (x : Run σ α) : x.Within x := fun _ _ h => h

theorem unfinished_within (x : Run σ α) : Within unfinished x := fun _ _ h => nomatch h

/-- Sequences of runs keep the endings that their parts keep. -/
theorem Within.next {x y : Run σ α} {f g : α → Run σ β} (h : x.Within y)
    (hf : ∀ a, (f a).Within (g a)) : (x.next f).Within (y.next g) := by
  intro s r hr
  simp only [Run.next] at hr ⊢
  split at hr
  · exact nomatch hr
  · next hx => rw [h _ _ hx]; exact hr
  · next hx => rw [h _ _ hx]; exact hf _ _ _ hr

end Run

/-- A computation: one run for every budget, where a larger budget keeps every ending. -/
structure Computation (σ α : Type) where
  run : Nat → Run σ α
  run_within : ∀ {m n : Nat}, m ≤ n → (run m).Within (run n)

namespace Computation

/-- Computations are equal if they have the same run for every budget. -/
theorem ext {x y : Computation σ α} (h : ∀ n s, x.run n s = y.run n s) : x = y := by
  cases x with | mk f _ =>
  cases y with | mk g _ =>
  obtain rfl : f = g := funext fun n => funext fun s => h n s
  rfl

/-! ## Sequencing -/

/-- Ends at once with a value. -/
@[inline] protected def pure (a : α) : Computation σ α where
  run _ := .done a
  run_within _ := Run.within_refl _

/-- Runs `x`, then what `f` makes of its value. -/
@[inline] protected def bind (x : Computation σ α) (f : α → Computation σ β) :
    Computation σ β where
  run n := (x.run n).next fun a => (f a).run n
  run_within h := (x.run_within h).next fun a => (f a).run_within h

instance : Monad (Computation σ) where
  pure := Computation.pure
  bind := Computation.bind

theorem run_pure (a : α) (n : Nat) (s : σ) :
    (pure a : Computation σ α).run n s = some (.ok a, s) := rfl

theorem run_bind (x : Computation σ α) (f : α → Computation σ β) (n : Nat) (s : σ) :
    (x >>= f).run n s = match x.run n s with
      | none => none
      | some (.error p, s') => some (.error p, s')
      | some (.ok a, s') => (f a).run n s' := rfl

theorem bind_pure_eq (x : Computation σ α) : (x >>= fun a => pure a) = x :=
  ext fun n s => by
    rw [run_bind]
    split <;> simp_all [run_pure]

/-- It does not matter how sequences are bracketed, at any budget. -/
theorem bind_bind_eq (x : Computation σ α) (f : α → Computation σ β) (g : β → Computation σ γ) :
    (x >>= f >>= g) = (x >>= fun a => f a >>= g) :=
  ext fun n s => by
    simp only [run_bind]
    cases x.run n s with
    | none => rfl
    | some r => obtain ⟨_ | _, _⟩ := r <;> rfl

instance : LawfulMonad (Computation σ) :=
  LawfulMonad.mk' _ bind_pure_eq (fun _ _ => rfl) bind_bind_eq

/-- Taking items that are there already shows nothing. -/
theorem mapM_id_map_pure (as : List α) :
    (as.map fun a => (pure a : Computation σ α)).mapM id = pure as := by
  rw [List.mapM_map]
  exact (List.mapM_pure (l := as) (f := fun a => a)).trans (by rw [List.map_id'])

/-! ## State -/

/-- The state, unchanged. -/
@[inline] def read : Computation σ σ where
  run _ s := some (.ok s, s)
  run_within _ := Run.within_refl _

/-- Puts a new state in place of the old one. -/
@[inline] def write (s : σ) : Computation σ Unit where
  run _ _ := some (.ok (), s)
  run_within _ := Run.within_refl _

/-- Changes the state and yields a value of the same step. -/
@[inline] def update (f : σ → α × σ) : Computation σ α where
  run _ s := some (.ok (f s).1, (f s).2)
  run_within _ := Run.within_refl _

instance : MonadStateOf σ (Computation σ) where
  get := read
  set := write
  modifyGet := update

/-- Runs `x` on another state: `view` makes it from the present one, and `put` brings back
what `x` left of it, also after a panic. -/
@[inline] def onState (view : σ → τ) (put : σ → τ → σ) (x : Computation τ α) :
    Computation σ α where
  run n s := (x.run n (view s)).map fun r => (r.1, put s r.2)
  run_within h := by
    intro s r hr
    obtain ⟨r', hr', rfl⟩ := Option.map_eq_some_iff.1 hr
    exact Option.map_eq_some_iff.2 ⟨r', x.run_within h _ _ hr', rfl⟩

/-! ## Panics -/

/-- Ends at once in a panic. -/
@[inline] def panic (p : Panic) : Computation σ α where
  run _ s := some (.error p, s)
  run_within _ := Run.within_refl _

/-- Runs `x` and yields how it ended. The state that a panic leaves stays. -/
@[inline] def attempt (x : Computation σ α) : Computation σ (Except Panic α) where
  run n s := (x.run n s).map fun r => (.ok r.1, r.2)
  run_within h := by
    intro s r hr
    obtain ⟨r', hr', rfl⟩ := Option.map_eq_some_iff.1 hr
    exact Option.map_eq_some_iff.2 ⟨r', x.run_within h _ _ hr', rfl⟩

instance : MonadExceptOf Panic (Computation σ) where
  throw := panic
  tryCatch x handle := do
    match ← attempt x with
    | .ok a => pure a
    | .error p => handle p

/-- A plain result is a computation that touches no state. -/
@[inline] def ofExcept : Except Panic α → Computation σ α
  | .ok a => pure a
  | .error p => panic p

instance : MonadLift (Except Panic) (Computation σ) := ⟨ofExcept⟩

/-- Never ends, at no budget. -/
@[inline] def never : Computation σ α where
  run _ := .unfinished
  run_within _ := Run.within_refl _

end Computation

end Deferred
