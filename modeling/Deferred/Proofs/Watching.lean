import Deferred.Effect.Loop
import Deferred.Proofs.Alike

/-!
# Taking notes

Which parts of a loop run, and in what order, does not show in the state that the loop leaves,
unless the parts leave traces there. Notes are such traces: they are kept beside the state
(`Watched`), and parts that take notes otherwise run as before, because nothing reads the notes.

* `Alike Watched.Of`: the one runs as the other does, but for the notes.
* `Effect.noted`: every invocation is noted.
* `Effect.notedMaking`: of a function that makes effects it is noted when it is applied.
* `Effect.notedEach`: it is noted as well when the effect that it made is invoked, and when that has
  yielded a value.
-/

namespace Deferred

variable {σ α β κ : Type}

/-- A state with the notes that have been taken, the latest one last. -/
structure Watched (σ κ : Type) where
  state : σ
  notes : List κ

/-- `w` is the state `s` with some notes. -/
def Watched.Of (s : σ) (w : Watched σ κ) : Prop := w.state = s

/-- Where it is known what has been noted, only the state is left to be found. -/
theorem Watched.exists_iff {P : σ → Prop} {Q : Watched σ κ → Prop} {notes : List κ} :
    (∃ w, (∃ t, P t ∧ w = ⟨t, notes⟩) ∧ Q w) ↔ ∃ t, P t ∧ Q ⟨t, notes⟩ := by
  constructor
  · rintro ⟨_, ⟨t, ht, rfl⟩, hlater⟩
    exact ⟨t, ht, hlater⟩
  · rintro ⟨t, ht, hlater⟩
    exact ⟨_, ⟨t, ht, rfl⟩, hlater⟩

/-- Events are for the state; they are not noted. -/
instance [Tracer σ] : Tracer (Watched σ κ) where
  emit event w := ⟨Tracer.emit event w.state, w.notes⟩

namespace Computation

/-- Runs on the state, and takes no notes. -/
def watched (x : Computation σ α) : Computation (Watched σ κ) α :=
  x.onState Watched.state fun w s => ⟨s, w.notes⟩

def note (k : κ) : Computation (Watched σ κ) Unit :=
  update fun w => ((), ⟨w.state, w.notes ++ [k]⟩)

theorem halts_watched_iff {x : Computation σ α} {w w' : Watched σ κ} {o : Except Panic α} :
    x.watched.Halts w (o, w') ↔ ∃ t, x.Halts w.state (o, t) ∧ w' = ⟨t, w.notes⟩ := by
  rw [watched, halts_onState_iff]
  constructor
  · rintro ⟨_, t, hx, ⟨⟩⟩
    exact ⟨t, hx, rfl⟩
  · rintro ⟨t, hx, rfl⟩
    exact ⟨o, t, hx, rfl⟩

theorem watched_bind (x : Computation σ α) (f : α → Computation σ β) :
    ((x >>= f).watched : Computation (Watched σ κ) β) = x.watched >>= fun a => (f a).watched := by
  refine Computation.ext fun n w => ?_
  simp only [watched, onState, run_bind]
  cases x.run n w.state with
  | none => rfl
  | some r => obtain ⟨_ | _, _⟩ := r <;> rfl

/-- What follows a note goes on with the note taken. -/
theorem resumes_note (k : κ) (x : Computation (Watched σ κ) α) (w : Watched σ κ) :
    (note k >>= fun _ => x).Resumes w x ⟨w.state, w.notes ++ [k]⟩ :=
  resumes_bind (halts_update_iff.2 rfl)

section

variable {V : α → β → Prop} {x : Computation σ α} {y : Computation (Watched σ κ) β}

/-- A computation is alike to itself with notes around it. -/
theorem alike_watched (x : Computation σ α) :
    Alike Watched.Of Eq x (x.watched : Computation (Watched σ κ) α) := by
  rintro s w rfl
  constructor
  · intro o t hx
    exact ⟨o, ⟨t, w.notes⟩, halts_watched_iff.2 ⟨t, hx, rfl⟩, matches_eq_iff.2 rfl, rfl⟩
  · intro o w' hnoted
    obtain ⟨t, hx, rfl⟩ := halts_watched_iff.1 hnoted
    exact ⟨o, t, hx, (matches_eq_iff.2 rfl).flip, rfl⟩

/-- Taking a note first changes nothing else. -/
theorem alike_note_right (h : Alike Watched.Of V x y) (k : κ) :
    Alike Watched.Of V x (note k >>= fun _ => y) := by
  intro s w hw
  obtain ⟨hxy, hyx⟩ := h s ⟨w.state, w.notes ++ [k]⟩ hw
  constructor
  · intro o t hx
    obtain ⟨o', w', hy, hrest⟩ := hxy o t hx
    exact ⟨o', w', (resumes_note k y w _).2 hy, hrest⟩
  · intro o w' hnoted
    exact hyx o w' ((resumes_note k y w _).1 hnoted)

/-- Both tell their states of an event, and go on. -/
theorem alike_emit [Tracer σ] (h : Alike Watched.Of V x y) (event : Event) :
    Alike Watched.Of V (emit event >>= fun _ => x) (emit event >>= fun _ => y) := by
  refine (alike_update fun s w hw => ⟨rfl, ?_⟩ : Alike _ Eq (emit event) (emit event)).bind_eq
    fun _ => h
  show Tracer.emit event w.state = Tracer.emit event s
  rw [hw]

end

end Computation

open Deferred.Computation

namespace Effect

/-! ## Invocations -/

/-- Notes `k` and goes as `e` does. -/
def noted (k : κ) (e : Effect σ α) : Effect (Watched σ κ) α :=
  ⟨do
    note k
    e.invoke.watched⟩

/-- But for the note, the invocation is one of `e`. -/
theorem halts_noted_iff {k : κ} {e : Effect σ α} {w w' : Watched σ κ} {o : Except Panic α} :
    (e.noted k).invoke.Halts w (o, w') ↔
      ∃ t, e.invoke.Halts w.state (o, t) ∧ w' = ⟨t, w.notes ++ [k]⟩ :=
  (resumes_note k _ w _).trans halts_watched_iff

theorem alike_noted (k : κ) (e : Effect σ α) : Alike Watched.Of Eq e.invoke (e.noted k).invoke :=
  alike_note_right (alike_watched e.invoke) k

/-- If every turn takes the same notes, so do the rounds, each time anew. -/
theorem rounds_noted_iff {turn : σ → σ → Prop}
    {turn' : Watched σ κ → Watched σ κ → Prop} {notes : List κ}
    (hturn : ∀ w w', turn' w w' ↔ ∃ t, turn w.state t ∧ w' = ⟨t, w.notes ++ notes⟩) {k : Nat}
    {w w' : Watched σ κ} :
    Rounds turn' k w w' ↔
      ∃ t, Rounds turn k w.state t ∧ w' = ⟨t, w.notes ++ (List.replicate k notes).flatten⟩ := by
  induction k generalizing w with
  | zero =>
    simp only [Rounds.zero_iff, List.replicate_zero, List.flatten_nil, List.append_nil]
    constructor
    · rintro rfl
      exact ⟨w.state, rfl, rfl⟩
    · rintro ⟨t, rfl, rfl⟩
      rfl
  | succ k ih =>
    simp only [Rounds.succ_iff, hturn, ih, List.replicate_succ, List.flatten_cons]
    constructor
    · rintro ⟨_, ⟨u, hfirst, rfl⟩, t, hrest, rfl⟩
      exact ⟨t, ⟨u, hfirst, hrest⟩, congrArg (Watched.mk t) (List.append_assoc _ _ _)⟩
    · rintro ⟨t, ⟨u, hfirst, hrest⟩, rfl⟩
      refine ⟨_, ⟨u, hfirst, rfl⟩, t, hrest, ?_⟩
      rw [List.append_assoc]

/-- One note for each of the rounds, and one more for what ends the loop. -/
theorem flatten_replicate_append (n : Nat) (k : κ) :
    (List.replicate n [k]).flatten ++ [k] = List.replicate (n + 1) k := by
  rw [List.flatten_replicate_singleton, List.replicate_succ']

/-! ## Effects that are made and invoked -/

/-- Notes `k` when `make` is applied. What it makes takes no notes. -/
def notedMaking (k : κ) (make : α → Computation σ (Effect σ β)) (a : α) :
    Computation (Watched σ κ) (Effect (Watched σ κ) β) := do
  note k
  let e ← (make a).watched
  return ⟨e.invoke.watched⟩

section

variable {k : κ} {make : α → Computation σ (Effect σ β)} {a : α}

theorem enter_notedMaking :
    enter (notedMaking k make a) = note k >>= fun _ => (enter (make a)).watched := by
  simp only [enter, notedMaking, watched_bind, bind_assoc, pure_bind]

/-- But for the note, the effect is made and invoked as it is without notes. -/
theorem halts_notedMaking_iff {w w' : Watched σ κ} {o : Except Panic β} :
    (enter (notedMaking k make a)).Halts w (o, w') ↔
      ∃ t, (enter (make a)).Halts w.state (o, t) ∧ w' = ⟨t, w.notes ++ [k]⟩ := by
  rw [enter_notedMaking, resumes_note, halts_watched_iff]

/-- Noting that an effect is made changes nothing else. -/
theorem alike_notedMaking (k : κ) (make : α → Computation σ (Effect σ β)) (a : α) :
    Alike Watched.Of Eq (enter (make a)) (enter (notedMaking k make a)) := by
  rw [enter_notedMaking]
  exact alike_note_right (alike_watched (enter (make a))) k

end

/-- What happens with the effect for `a`: the function that makes it is applied, the effect is
invoked, and the invocation has yielded a value. -/
inductive Moment (α : Type) where
  | applied (a : α)
  | invoked (a : α)
  | completed (a : α)

/-- All that happens with the effect for `a`, if nothing panics. -/
def Moment.course (a : α) : List (Moment α) := [.applied a, .invoked a, .completed a]

/-- Notes what happens with the effects that `make` makes. -/
def notedEach (make : α → Computation σ (Effect σ β)) (a : α) :
    Computation (Watched σ (Moment α)) (Effect (Watched σ (Moment α)) β) := do
  note (.applied a)
  let e ← (make a).watched
  return ⟨do
    note (.invoked a)
    let b ← e.invoke.watched
    note (.completed a)
    return b⟩

/-- After `notes` have been taken, `make a` panics, or the effect does that it made: the course is
broken off there. -/
inductive PanicsNoted (make : α → Computation σ (Effect σ β)) (a : α) (s : σ)
    (notes : List (Moment α)) (p : Panic) : Watched σ (Moment α) → Prop where
  | applied {t : σ} (h : (make a).Halts s (.error p, t)) :
    PanicsNoted make a s notes p ⟨t, notes ++ [.applied a]⟩
  | invoked {e : Effect σ β} {t u : σ} (hmake : (make a).Halts s (.ok e, t))
    (h : e.invoke.Halts t (.error p, u)) :
    PanicsNoted make a s notes p ⟨u, notes ++ [.applied a] ++ [.invoked a]⟩

section

variable {make : α → Computation σ (Effect σ β)} {a : α} {w w' : Watched σ (Moment α)}

theorem enter_notedEach :
    enter (notedEach make a) = (do
      note (.applied a)
      let e ← (make a).watched
      note (.invoked a)
      let b ← e.invoke.watched
      note (.completed a)
      return b) := by
  simp only [enter, notedEach, bind_assoc, pure_bind]

/-- Noting the whole course of an item changes nothing else either. -/
theorem alike_notedEach (make : α → Computation σ (Effect σ β)) (a : α) :
    Alike Watched.Of Eq (enter (make a)) (enter (notedEach make a)) := by
  have hinvoke : ∀ e : Effect σ β, Alike Watched.Of Eq e.invoke (do
      note (Moment.invoked a)
      let b ← e.invoke.watched
      note (Moment.completed a)
      return b) := by
    intro e
    have hrun := (alike_watched e.invoke).bind_eq fun b =>
      alike_note_right (alike_pure (Eq.refl b)) (Moment.completed a)
    rw [bind_pure_eq] at hrun
    exact alike_note_right hrun _
  rw [enter_notedEach]
  exact alike_note_right ((alike_watched (make a)).bind_eq hinvoke) _

theorem append_course (notes : List (Moment α)) (a : α) :
    notes ++ [.applied a] ++ [.invoked a] ++ [.completed a] = notes ++ Moment.course a := by
  simp only [List.append_assoc, List.cons_append, List.nil_append, Moment.course]

/-- A value comes at the end of the course. -/
theorem halts_notedEach_value_iff {b : β} :
    (enter (notedEach make a)).Halts w (.ok b, w') ↔
      ∃ t, (enter (make a)).Halts w.state (.ok b, t) ∧ w' = ⟨t, w.notes ++ Moment.course a⟩ := by
  rw [enter_notedEach, resumes_note]
  simp only [enter, halts_bind_value_iff, halts_watched_iff, resumes_note _ _ _ _, halts_pure_iff]
  constructor
  · rintro ⟨e, _, ⟨u, hmake, rfl⟩, _, _, ⟨t, he, rfl⟩, ⟨⟩⟩
    exact ⟨t, ⟨e, u, hmake, he⟩, congrArg (Watched.mk t) (append_course w.notes a)⟩
  · rintro ⟨t, ⟨e, u, hmake, he⟩, rfl⟩
    refine ⟨e, _, ⟨u, hmake, rfl⟩, b, _, ⟨t, he, rfl⟩, ?_⟩
    rw [append_course]

/-- A panic comes when the effect is made, or when it is invoked. -/
theorem halts_notedEach_panic_iff {p : Panic} :
    (enter (notedEach make a)).Halts w (.error p, w') ↔
      PanicsNoted make a w.state w.notes p w' := by
  rw [enter_notedEach, resumes_note]
  simp only [halts_bind_panic_iff, halts_watched_iff, resumes_note _ _ _ _, halts_pure_iff]
  constructor
  · rintro (⟨t, hmake, rfl⟩ | ⟨e, _, ⟨u, hmake, rfl⟩, ⟨t, he, rfl⟩ | ⟨_, _, -, ⟨⟩⟩⟩)
    · exact .applied hmake
    · exact .invoked hmake he
  · rintro (hmake | ⟨hmake, he⟩)
    · exact .inl ⟨_, hmake, rfl⟩
    · exact .inr ⟨_, _, ⟨_, hmake, rfl⟩, .inl ⟨_, he, rfl⟩⟩

end

end Effect

end Deferred
