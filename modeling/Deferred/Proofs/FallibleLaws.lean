import Deferred.Proofs.MonadLaws
import Deferred.Proofs.Splitting

/-!
# The laws of going on after a success

Up to observation, going on after a success obeys the laws of a monad whose constant effects are
successes (`Effect.FallibleLaws`). Mapping a success is going on with a constant effect, and going
on after a success that is certain is sequencing. The functions of the laws may change the state,
panic or never end, and the two sides of a law do the same from every state, so in every invocation.

A function is applied at most once in an invocation, and only after a success. After an error or a
panic it is not applied, and nothing is invoked that it would have made (`Effect.GoesOn`,
`Effect.Maps`). What is said there of one function holds of several, one after the other, because
the effect that one goes on from may itself go on from another.
-/

namespace Deferred

variable {σ α β γ ε : Type}

open Deferred.Computation

theorem Computation.orError_congr (x : Computation σ (Except ε α))
    {f g : α → Computation σ (Except ε β)} (h : ∀ a, f a = g a) :
    x >>= orError f = x >>= orError g := by
  rw [funext h]

/-- Going on after a success is associative. -/
theorem Computation.orError_orError (x : Computation σ (Except ε α))
    (f : α → Computation σ (Except ε β)) (g : β → Computation σ (Except ε γ)) :
    (x >>= orError f) >>= orError g = x >>= orError fun a => f a >>= orError g := by
  rw [bind_assoc]
  refine bind_congr fun r => ?_
  cases r with
  | ok a => rfl
  | error e => rfl

/-- It ends in success if nothing follows. -/
theorem Computation.orError_pure (x : Computation σ (Except ε α)) :
    (x >>= orError fun a => Pure.pure (.ok a)) = x := by
  refine Eq.trans (bind_congr fun r => ?_) (bind_pure_eq x)
  cases r with
  | ok a => rfl
  | error e => rfl

/-- Returning a success after a computation ends as the computation does. -/
theorem Computation.halts_bind_success_iff {x : Computation σ α} {s t : σ} {a : α} :
    (x >>= fun a => Pure.pure (Except.ok (ε := ε) a)).Halts s (.ok (.ok a), t) ↔
      x.Halts s (.ok a, t) := by
  rw [halts_bind_pure_value_iff]
  constructor
  · intro h
    obtain ⟨b, hx, hend⟩ := h
    cases hend
    exact hx
  · intro hx
    exact ⟨a, hx, rfl⟩

namespace Effect

theorem invoke_mapOk (e : Effect σ (Except ε α)) (f : α → Computation σ β) :
    (e.mapOk f).invoke = e.invoke >>= orError fun a => f a >>= fun b => Pure.pure (.ok b) := by
  refine congrArg (e.invoke >>= ·) (funext fun r => ?_)
  cases r with
  | ok a => rfl
  | error e => rfl

/-! ## The laws one by one -/

section

variable (m : Effect σ (Except ε α)) (f : α → Computation σ (Effect σ (Except ε β)))

/-- Right identity: going on with a plain success changes nothing. -/
theorem andThenOk_pure_equiv : (m.andThenOk fun a => return pure (.ok a)) ≈ m := by
  apply equiv_of_invoke_eq
  rw [invoke_andThenOk]
  exact orError_pure m.invoke

/-- Associativity: an error skips both continuations at once. -/
theorem andThenOk_andThenOk_equiv (g : β → Computation σ (Effect σ (Except ε γ))) :
    (m.andThenOk f).andThenOk g ≈ m.andThenOk fun a => do let n ← f a; return n.andThenOk g := by
  apply equiv_of_invoke_eq
  rw [invoke_andThenOk, invoke_andThenOk, invoke_andThenOk, orError_orError]
  -- What `f` makes is invoked, and then `g` is applied, on the one side after the effect of `f` and
  -- on the other side in an effect made of it.
  refine orError_congr m.invoke fun a => ?_
  simp only [enter, bind_assoc, pure_bind, invoke_andThenOk]

/-- Mapping a success is going on with the success that the function gives. -/
theorem mapOk_equiv_andThenOk (h : α → Computation σ β) :
    m.mapOk h ≈ m.andThenOk fun a => do let b ← h a; return pure (.ok b) := by
  apply equiv_of_invoke_eq
  rw [invoke_mapOk, invoke_andThenOk]
  refine orError_congr m.invoke fun a => ?_
  simp only [enter, bind_assoc, pure_bind, pure]

theorem mapOk_mapOk_equiv (h : α → Computation σ β) (k : β → Computation σ γ) :
    (m.mapOk h).mapOk k ≈ m.mapOk fun a => h a >>= k := by
  apply equiv_of_invoke_eq
  rw [invoke_mapOk, invoke_mapOk, invoke_mapOk, orError_orError]
  refine orError_congr m.invoke fun a => ?_
  simp only [bind_assoc, pure_bind, orError]

/-- Left identity: after an effect that always succeeds, going on is plain sequencing. -/
theorem map_ok_andThenOk_equiv (e : Effect σ α) :
    (e.map fun a => return .ok a).andThenOk f ≈ e.bind f := by
  apply equiv_of_invoke_eq
  rw [invoke_andThenOk]
  show (e.invoke >>= fun a => Pure.pure (.ok a)) >>= orError _ = _
  simp only [bind_assoc, pure_bind]
  rfl

end

/-! ## One application at most -/

/-- Notes that `f` is applied, and to what. -/
def notedCall (f : α → Computation σ β) (a : α) : Computation (Watched σ α) β := do
  note a
  (f a).watched

/-- Invokes `e`, and takes no notes. -/
def unnoted {κ : Type} (e : Effect σ α) : Effect (Watched σ κ) α := ⟨e.invoke.watched⟩

/-- How `m.andThenOk f` ends. `noted` is the same with notes. -/
structure GoesOn (m : Effect σ (Except ε α)) (f : α → Computation σ (Effect σ (Except ε β)))
    (noted : Effect (Watched σ (Moment α)) (Except ε β)) : Prop where
  /-- After a success of `m` the function is applied once, and its effect is invoked once. -/
  succeeds_iff {w w' : Watched σ (Moment α)} {b : β} : noted.invoke.Halts w (.ok (.ok b), w') ↔
    ∃ a t u, m.invoke.Halts w.state (.ok (.ok a), t) ∧ (enter (f a)).Halts t (.ok (.ok b), u) ∧
      w' = ⟨u, w.notes ++ Moment.course a⟩
  /-- An error of `m` is the result, and the function is not applied; or there is an error after
  a success. -/
  fails_iff {w w' : Watched σ (Moment α)} {e : ε} : noted.invoke.Halts w (.ok (.error e), w') ↔
    (∃ t, m.invoke.Halts w.state (.ok (.error e), t) ∧ w' = ⟨t, w.notes⟩) ∨
    ∃ a t u, m.invoke.Halts w.state (.ok (.ok a), t) ∧ (enter (f a)).Halts t (.ok (.error e), u) ∧
      w' = ⟨u, w.notes ++ Moment.course a⟩
  panics_iff {w w' : Watched σ (Moment α)} {p : Panic} : noted.invoke.Halts w (.error p, w') ↔
    (∃ t, m.invoke.Halts w.state (.error p, t) ∧ w' = ⟨t, w.notes⟩) ∨
    ∃ a t, m.invoke.Halts w.state (.ok (.ok a), t) ∧ PanicsNoted f a t w.notes p w'
  diverges_iff {s : σ} : (m.andThenOk f).invoke.Diverges s ↔
    m.invoke.Diverges s ∨
    ∃ a t, m.invoke.Halts s (.ok (.ok a), t) ∧ (enter (f a)).Diverges t
  /-- Taking notes changes nothing else. -/
  alike_noted : Alike Watched.Of Eq (m.andThenOk f).invoke noted.invoke

/-- How `m.mapOk h` ends. `noted` is the same with notes. -/
structure Maps (m : Effect σ (Except ε α)) (h : α → Computation σ β)
    (noted : Effect (Watched σ α) (Except ε β)) : Prop where
  /-- The function is applied once, to the success of `m`. -/
  succeeds_iff {w w' : Watched σ α} {b : β} : noted.invoke.Halts w (.ok (.ok b), w') ↔
    ∃ a t u, m.invoke.Halts w.state (.ok (.ok a), t) ∧ (h a).Halts t (.ok b, u) ∧
      w' = ⟨u, w.notes ++ [a]⟩
  /-- The errors are those of `m`, and then the function is not applied. -/
  fails_iff {w w' : Watched σ α} {e : ε} : noted.invoke.Halts w (.ok (.error e), w') ↔
    ∃ t, m.invoke.Halts w.state (.ok (.error e), t) ∧ w' = ⟨t, w.notes⟩
  panics_iff {w w' : Watched σ α} {p : Panic} : noted.invoke.Halts w (.error p, w') ↔
    (∃ t, m.invoke.Halts w.state (.error p, t) ∧ w' = ⟨t, w.notes⟩) ∨
    ∃ a t u, m.invoke.Halts w.state (.ok (.ok a), t) ∧ (h a).Halts t (.error p, u) ∧
      w' = ⟨u, w.notes ++ [a]⟩
  diverges_iff {s : σ} : (m.mapOk h).invoke.Diverges s ↔
    m.invoke.Diverges s ∨ ∃ a t, m.invoke.Halts s (.ok (.ok a), t) ∧ (h a).Diverges t
  /-- Taking notes changes nothing else. -/
  alike_noted : Alike Watched.Of Eq (m.mapOk h).invoke noted.invoke

section

variable {w w' : Watched σ α}

/-- A noted call notes its argument, then ends as the call does. -/
theorem halts_notedCall_iff {f : α → Computation σ β} {a : α} {o : Except Panic β} :
    (notedCall f a).Halts w (o, w') ↔
      ∃ t, (f a).Halts w.state (o, t) ∧ w' = ⟨t, w.notes ++ [a]⟩ :=
  (resumes_note a _ w _).trans halts_watched_iff

theorem alike_notedCall (f : α → Computation σ β) (a : α) :
    Alike Watched.Of Eq (f a) (notedCall f a) :=
  alike_note_right (alike_watched (f a)) a

end

/-- After a success no note has been taken yet. -/
theorem exists_unnoted_ok_iff {κ : Type} {m : Effect σ (Except ε α)} {w : Watched σ κ}
    (later : α → Watched σ κ → Prop) :
    (∃ a v, m.unnoted.invoke.Halts w (.ok (.ok a), v) ∧ later a v) ↔
      ∃ a t, m.invoke.Halts w.state (.ok (.ok a), t) ∧ later a ⟨t, w.notes⟩ := by
  simp only [unnoted, halts_watched_iff, Watched.exists_iff]

theorem alike_orError {κ : Type} {m : Effect σ (Except ε α)} {f : α → Computation σ (Except ε β)}
    {g : α → Computation (Watched σ κ) (Except ε β)} (h : ∀ a, Alike Watched.Of Eq (f a) (g a)) :
    Alike Watched.Of Eq (m.invoke >>= orError f) (m.unnoted.invoke >>= orError g) := by
  refine (alike_watched m.invoke).bind_eq fun r => ?_
  cases r with
  | ok a => exact h a
  | error e => exact alike_pure rfl

/-- An error skips the continuation, and a success applies it once. -/
theorem goesOn (m : Effect σ (Except ε α)) (f : α → Computation σ (Effect σ (Except ε β))) :
    GoesOn m f (m.unnoted.andThenOk (notedEach f)) where
  succeeds_iff := by
    intro w w' b
    rw [invoke_andThenOk, halts_orError_value_iff,
      exists_unnoted_ok_iff fun a v => (enter (notedEach f a)).Halts v (.ok (.ok b), w')]
    simp only [halts_notedEach_value_iff, exists_and_left]
  fails_iff := by
    intro w w' e
    rw [invoke_andThenOk, halts_orError_error_iff,
      exists_unnoted_ok_iff fun a v => (enter (notedEach f a)).Halts v (.ok (.error e), w')]
    simp only [halts_notedEach_value_iff, exists_and_left, unnoted, halts_watched_iff]
  panics_iff := by
    intro w w' p
    rw [invoke_andThenOk, halts_orError_panic_iff,
      exists_unnoted_ok_iff fun a v => (enter (notedEach f a)).Halts v (.error p, w')]
    simp only [halts_notedEach_panic_iff, unnoted, halts_watched_iff]
  diverges_iff := by
    intro s
    rw [invoke_andThenOk, diverges_orError_iff]
  alike_noted := by
    rw [invoke_andThenOk, invoke_andThenOk]
    exact alike_orError (alike_notedEach f)

/-- An error skips the function, and a success applies it once. -/
theorem maps (m : Effect σ (Except ε α)) (h : α → Computation σ β) :
    Maps m h (m.unnoted.mapOk (notedCall h)) where
  succeeds_iff := by
    intro w w' b
    rw [invoke_mapOk, halts_orError_value_iff]
    simp only [halts_bind_success_iff]
    rw [exists_unnoted_ok_iff fun a v => (notedCall h a).Halts v (.ok b, w')]
    simp only [halts_notedCall_iff, exists_and_left]
  fails_iff := by
    intro w w' e
    rw [invoke_mapOk, halts_orError_error_iff]
    simp only [unnoted, halts_watched_iff]
    refine or_iff_left ?_
    -- What follows a success ends in one.
    rintro ⟨a, v, -, hcall⟩
    obtain ⟨b, u, -, hend⟩ := halts_bind_value_iff.1 hcall
    exact nomatch halts_pure_iff.1 hend
  panics_iff := by
    intro w w' p
    rw [invoke_mapOk, halts_orError_panic_iff]
    simp only [halts_bind_pure_panic_iff]
    rw [exists_unnoted_ok_iff fun a v => (notedCall h a).Halts v (.error p, w')]
    simp only [halts_notedCall_iff, exists_and_left, unnoted, halts_watched_iff]
  diverges_iff := by
    intro s
    rw [invoke_mapOk, diverges_orError_iff]
    simp only [diverges_bind_pure_iff]
  alike_noted := by
    rw [invoke_mapOk, invoke_mapOk]
    exact alike_orError fun a => (alike_notedCall h a).bind_eq fun b => alike_pure rfl

/-! ## The laws together -/

/-- The laws of going on after a success and of mapping it. -/
structure FallibleLaws (σ : Type) : Prop where
  /-- After a constant success the function is applied when the effect is invoked. -/
  pure_left {α β ε : Type} (a : α) (f : α → Computation σ (Effect σ (Except ε β))) :
    (pure (.ok a)).andThenOk f ≈ defer (f a)
  pure_right {α ε : Type} (m : Effect σ (Except ε α)) :
    (m.andThenOk fun a => return pure (.ok a)) ≈ m
  associative {α β γ ε : Type} (m : Effect σ (Except ε α))
    (f : α → Computation σ (Effect σ (Except ε β)))
    (g : β → Computation σ (Effect σ (Except ε γ))) :
    (m.andThenOk f).andThenOk g ≈ m.andThenOk fun a => do let n ← f a; return n.andThenOk g
  mapOk {α β ε : Type} (m : Effect σ (Except ε α)) (h : α → Computation σ β) :
    m.mapOk h ≈ m.andThenOk fun a => do let b ← h a; return pure (.ok b)
  mapOk_mapOk {α β γ ε : Type} (m : Effect σ (Except ε α)) (h : α → Computation σ β)
    (k : β → Computation σ γ) :
    (m.mapOk h).mapOk k ≈ m.mapOk fun a => h a >>= k
  /-- Where every value is a success, going on after one is sequencing. -/
  map_ok {α β ε : Type} (e : Effect σ α) (f : α → Computation σ (Effect σ (Except ε β))) :
    (e.map fun a => return .ok a).andThenOk f ≈ e.bind f
  /-- An error is the result, in the state that it comes with, whatever the function is. -/
  error_andThenOk {α β ε : Type} {m : Effect σ (Except ε α)} {s t : σ} {e : ε}
    (hm : m.invoke.Halts s (.ok (.error e), t)) (f : α → Computation σ (Effect σ (Except ε β)))
    {r : Except Panic (Except ε β) × σ} :
    (m.andThenOk f).invoke.Halts s r ↔ r = (.ok (.error e), t)
  error_mapOk {α β ε : Type} {m : Effect σ (Except ε α)} {s t : σ} {e : ε}
    (hm : m.invoke.Halts s (.ok (.error e), t)) (h : α → Computation σ β)
    {r : Except Panic (Except ε β) × σ} :
    (m.mapOk h).invoke.Halts s r ↔ r = (.ok (.error e), t)
  /-- Functions are applied at most once, and only after a success. -/
  goesOn {α β ε : Type} (m : Effect σ (Except ε α))
    (f : α → Computation σ (Effect σ (Except ε β))) :
    GoesOn m f (m.unnoted.andThenOk (notedEach f))
  maps {α β ε : Type} (m : Effect σ (Except ε α)) (h : α → Computation σ β) :
    Maps m h (m.unnoted.mapOk (notedCall h))

/-- Fallible sequencing obeys the laws, and an error skips what follows it. -/
theorem fallibleLaws : FallibleLaws σ where
  pure_left a f := equiv_of_invoke_eq rfl
  pure_right := andThenOk_pure_equiv
  associative := andThenOk_andThenOk_equiv
  mapOk := mapOk_equiv_andThenOk
  mapOk_mapOk := mapOk_mapOk_equiv
  map_ok e f := map_ok_andThenOk_equiv f e
  error_andThenOk := by
    intro α β ε m s t e hm f r
    rw [invoke_andThenOk, halts_bind_ok_iff hm]
    exact halts_pure_iff
  error_mapOk := by
    intro α β ε m s t e hm h r
    rw [invoke_mapOk, halts_bind_ok_iff hm]
    exact halts_pure_iff
  goesOn := goesOn
  maps := maps

end Effect

end Deferred
