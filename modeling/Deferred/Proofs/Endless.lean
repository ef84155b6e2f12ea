import Deferred.Proofs.Guarding
import Deferred.Proofs.LoopsIterate
import Deferred.Proofs.Watching

/-!
# The loop without an end

No value ever comes out of a loop that repeats its body for ever. If after some turns that yield
values the body panics, the loop panics with it, and otherwise the loop never ends
(`Effect.NeverReturns`).

So nothing that is sequenced after such a loop is ever begun. The sequence has the runs of the loop
alone, whatever the budget (`Computation.forever_bind`), and whatever else is in it takes no notes
(`Effect.NeverLeaves`).
-/

namespace Deferred

variable {σ κ α β γ δ : Type}

/-- However many turns are left, what follows the loop is not begun. -/
theorem Run.forever_next (b : Run σ α) (f : β → Run σ γ) (turns : Nat) :
    (forever b turns).next f = forever b turns := by
  induction turns with
  | zero => rfl
  | succ turns ih =>
    show (b.next fun _ => forever b turns).next f = b.next fun _ => forever b turns
    rw [next_next]
    exact next_congr fun _ => ih

open Deferred.Computation

namespace Computation

/-- What follows a loop without an end makes no difference to any run. -/
theorem forever_bind (b : Computation σ α) (f : β → Computation σ γ) :
    (forever b >>= f) = forever b :=
  ext fun n s => congrFun (Run.forever_next (b.run n) (fun a => (f a).run n) n) s

/-- `k` turns of `b` yield values, and the turn after them panics. -/
def PanicsInTurn (b : Computation σ α) (k : Nat) (s : σ) (p : Panic) (t : σ) : Prop :=
  ∃ u, Rounds (ForeverTurn b) k s u ∧ b.Halts u (.error p, t)

end Computation

namespace Effect

/-! ## Turns -/

section

variable {e : Effect σ α} {s t : σ}

theorem enter_foreverStep (e : Effect σ α) (u : Unit) :
    enter (foreverStep (β := β) e u) = e.invoke >>= fun _ => Pure.pure (.again ()) := rfl

theorem iterateTurn_foreverStep_iff :
    IterateTurn (fun u => enter (foreverStep (β := β) e u)) ((), s) ((), t) ↔
      ForeverTurn e.invoke s t := by
  simp only [IterateTurn, ForeverTurn, enter_foreverStep, halts_bind_value_iff, halts_pure_iff]
  refine exists_congr fun a => ?_
  constructor
  · rintro ⟨u, hbody, hend⟩
    cases hend
    exact hbody
  · intro hbody
    exact ⟨t, hbody, rfl⟩

/-- The steps of the loop end it by a panic only. -/
theorem stepEnds_foreverStep_iff {r : Except Panic β × σ} :
    StepEnds (enter (foreverStep (β := β) e ())) s r ↔
      ∃ p t, e.invoke.Halts s (.error p, t) ∧ r = (.error p, t) := by
  rw [enter_foreverStep]
  constructor
  · intro h
    cases h with
    | finished hstep =>
      obtain ⟨a, u, -, hend⟩ := halts_bind_value_iff.1 hstep
      exact nomatch halts_pure_iff.1 hend
    | panicked hstep => exact ⟨_, _, halts_bind_pure_panic_iff.1 hstep, rfl⟩
  · rintro ⟨p, t, hbody, rfl⟩
    exact .panicked (halts_bind_pure_panic_iff.2 hbody)

/-- Repeating without end is over exactly if some round panics. -/
theorem halts_forever_iff {r : Except Panic β × σ} :
    (Computation.forever e.invoke : Computation σ β).Halts s r ↔
      ∃ k p t, PanicsInTurn e.invoke k s p t ∧ r = (.error p, t) := by
  have hrounds : (Computation.forever e.invoke : Computation σ β).Halts s r ↔
      ∃ k u, Rounds (ForeverTurn e.invoke) k s u ∧
        ∃ p t, e.invoke.Halts u (.error p, t) ∧ r = (.error p, t) :=
    (forever_equiv_iterate e s r).trans
      (halts_iterate_unit_iff (fun _ _ => iterateTurn_foreverStep_iff) fun _ _ =>
        stepEnds_foreverStep_iff)
  rw [hrounds]
  constructor
  · rintro ⟨k, u, hturns, p, t, hbody, hr⟩
    exact ⟨k, p, t, ⟨u, hturns, hbody⟩, hr⟩
  · rintro ⟨k, p, t, ⟨u, hturns, hbody⟩, hr⟩
    exact ⟨k, u, hturns, p, t, hbody, hr⟩

/-- It never returns a value. -/
theorem not_halts_forever_value {b : β} :
    ¬(Computation.forever e.invoke : Computation σ β).Halts s (.ok b, t) := by
  intro h
  obtain ⟨k, p, u, -, hr⟩ := halts_forever_iff.1 h
  exact nomatch hr

/-- It panics exactly if the effect panics in one of the rounds. -/
theorem halts_forever_panic_iff {p : Panic} :
    (Computation.forever e.invoke : Computation σ β).Halts s (.error p, t) ↔
      ∃ k, PanicsInTurn e.invoke k s p t := by
  rw [halts_forever_iff]
  refine exists_congr fun k => ?_
  constructor
  · rintro ⟨q, u, hturns, hr⟩
    cases hr
    exact hturns
  · intro hturns
    exact ⟨p, t, hturns, rfl⟩

/-- It runs forever exactly if the rounds have no end, or the effect itself runs forever in one. -/
theorem diverges_forever_iff :
    (Computation.forever e.invoke : Computation σ β).Diverges s ↔
      (∀ k, ∃ u, Rounds (ForeverTurn e.invoke) k s u) ∨
      ∃ k u, Rounds (ForeverTurn e.invoke) k s u ∧ e.invoke.Diverges u :=
  (diverges_congr (forever_equiv_iterate e)).trans
    (diverges_iterate_unit_iff (fun _ _ => iterateTurn_foreverStep_iff) fun _ =>
      diverges_bind_pure_iff)

/-- That is whenever it does not panic. -/
theorem diverges_forever_iff_not_panics :
    (Computation.forever e.invoke : Computation σ β).Diverges s ↔
      ¬∃ k p t, PanicsInTurn e.invoke k s p t := by
  rw [Computation.diverges_iff]
  constructor
  · rintro h ⟨k, p, t, hturns⟩
    exact h _ (halts_forever_iff.2 ⟨k, p, t, hturns, rfl⟩)
  · intro h r hr
    obtain ⟨k, p, t, hturns, -⟩ := halts_forever_iff.1 hr
    exact h ⟨k, p, t, hturns⟩

end

/-! ## Turns that take notes -/

section

variable {e : Effect σ α} {k : κ} {w w' : Watched σ κ}

theorem foreverTurn_noted_iff (w w' : Watched σ κ) :
    ForeverTurn (e.noted k).invoke w w' ↔
      ∃ t, ForeverTurn e.invoke w.state t ∧ w' = ⟨t, w.notes ++ [k]⟩ := by
  simp only [ForeverTurn, halts_noted_iff, ← exists_and_right]
  exact exists_comm

/-- The turn that panics is noted too. -/
theorem panicsInTurn_noted_iff {n : Nat} {p : Panic} :
    PanicsInTurn (e.noted k).invoke n w p w' ↔
      ∃ t, PanicsInTurn e.invoke n w.state p t ∧
        w' = ⟨t, w.notes ++ List.replicate (n + 1) k⟩ := by
  simp only [PanicsInTurn, rounds_noted_iff foreverTurn_noted_iff, halts_noted_iff,
    ← flatten_replicate_append, ← List.append_assoc]
  constructor
  · rintro ⟨_, ⟨u, hturns, rfl⟩, t, hbody, rfl⟩
    exact ⟨t, ⟨u, hturns, hbody⟩, rfl⟩
  · rintro ⟨t, ⟨u, hturns, hbody⟩, rfl⟩
    exact ⟨_, ⟨u, hturns, rfl⟩, t, hbody, rfl⟩

end

/-! ## Sequences that begin with the loop -/

/-- What a sequence may come to that begins with a loop: the body, or what stands after the loop. -/
inductive Stage where
  | body
  | after

/-- `sequence` begins with a loop over `e` without an end and never leaves it. `noted` is the same
with notes of all that is invoked or applied. -/
structure NeverLeaves (e : Effect σ α) (sequence : Effect σ β)
    (noted : Effect (Watched σ Stage) β) : Prop where
  /-- It is the loop alone. -/
  alone : sequence = e.forever
  /-- If it ends, then in the panic of the loop, and what was noted is the body in every turn until
  then. -/
  ends_iff {w w' : Watched σ Stage} {o : Except Panic β} : noted.invoke.Halts w (o, w') ↔
    ∃ k p t, PanicsInTurn e.invoke k w.state p t ∧ o = .error p ∧
      w' = ⟨t, w.notes ++ List.replicate (k + 1) .body⟩
  /-- Taking notes changes nothing else. -/
  alike_noted : Alike Watched.Of Eq sequence.invoke noted.invoke

/-- Whatever is the same effect as a repetition without end never gets past it. -/
theorem neverLeaves_of_eq {e : Effect σ α} {sequence : Effect σ β}
    {noted : Effect (Watched σ Stage) β} (hsequence : sequence = e.forever)
    (hnoted : noted = (e.noted .body).forever) : NeverLeaves e sequence noted where
  alone := hsequence
  ends_iff := by
    intro w w' o
    have hends : noted.invoke.Halts w (o, w') ↔
        ∃ k p v, PanicsInTurn (e.noted .body).invoke k w p v ∧ (o, w') = (.error p, v) := by
      rw [hnoted]
      exact halts_forever_iff
    rw [hends]
    constructor
    · rintro ⟨k, p, v, hturns, hr⟩
      obtain ⟨t, hplain, rfl⟩ := panicsInTurn_noted_iff.1 hturns
      cases hr
      exact ⟨k, p, t, hplain, rfl, rfl⟩
    · rintro ⟨k, p, t, hplain, rfl, rfl⟩
      exact ⟨k, p, _, panicsInTurn_noted_iff.2 ⟨t, hplain, rfl⟩, rfl⟩
  alike_noted := by
    rw [hsequence, hnoted]
    exact alike_forever (Effect.alike_noted _ e)

/-- Whatever uses the value of the loop is the loop alone. -/
theorem forever_sequence_eq (e : Effect σ α) (f : β → Computation σ γ) :
    (⟨e.forever.invoke >>= f⟩ : Effect σ γ) = e.forever :=
  congrArg Effect.mk (forever_bind e.invoke f)

/-- The loop is its body once, and then the loop. -/
theorem forever_equiv_andThen (e : Effect σ α) :
    (e.forever : Effect σ β) ≈ e.andThen e.forever :=
  equiv_iff.2 (forever_equiv e.invoke)

variable [Tracer σ]

/-- A guarded loop ends in the report of its panic, if it ends. -/
theorem halts_forever_invokeGuarded_iff {e : Effect σ α} {s : σ}
    {r : Except Panic (Except InvocationError β) × σ} :
    (e.forever : Effect σ β).invokeGuarded.Halts s r ↔
      ∃ k p t, PanicsInTurn e.invoke k s p t ∧
        r = (.ok (.error (.ofPanic p)), Tracer.emit (.invocationFailed (.ofPanic p)) t) := by
  rw [halts_invokeGuarded_iff]
  constructor
  · rintro ⟨o, t, hloop, rfl⟩
    obtain ⟨k, p, t, hturns, hr⟩ := halts_forever_iff.1 hloop
    cases hr
    exact ⟨k, p, t, hturns, rfl⟩
  · rintro ⟨k, p, t, hturns, rfl⟩
    exact ⟨.error p, t, halts_forever_iff.2 ⟨k, p, t, hturns, rfl⟩, rfl⟩

/-- How the loop over `e` without an end goes, alone and with something after it. -/
structure NeverReturns (e : Effect σ α) : Prop where
  not_returns {β : Type} {s t : σ} {b : β} : ¬e.forever.invoke.Halts s (.ok b, t)
  /-- It panics if after some invocations of `e` that yield values the next one does. -/
  panics_iff {β : Type} {s t : σ} {p : Panic} :
    (e.forever : Effect σ β).invoke.Halts s (.error p, t) ↔ ∃ k, PanicsInTurn e.invoke k s p t
  /-- In every other case it never ends. -/
  diverges_iff {β : Type} {s : σ} :
    (e.forever : Effect σ β).invoke.Diverges s ↔ ¬∃ k p t, PanicsInTurn e.invoke k s p t
  /-- Then there are turns without an end, or after some turns `e` never ends. -/
  diverges_iff_turns {β : Type} {s : σ} :
    (e.forever : Effect σ β).invoke.Diverges s ↔
      (∀ k, ∃ u, Rounds (ForeverTurn e.invoke) k s u) ∨
      ∃ k u, Rounds (ForeverTurn e.invoke) k s u ∧ e.invoke.Diverges u
  unfold {β : Type} : (e.forever : Effect σ β) ≈ e.andThen e.forever
  /-- The function after the loop is not applied. -/
  bind {β γ : Type} (f : β → Computation σ (Effect σ γ)) :
    NeverLeaves e (e.forever.bind f) ((e.noted .body).forever.bind (notedMaking .after f))
  /-- The effect after the loop is not invoked. -/
  andThen {β γ : Type} (d : Effect σ γ) :
    NeverLeaves e ((e.forever : Effect σ β).andThen d)
      (((e.noted .body).forever : Effect _ β).andThen (d.noted .after))
  /-- The other part is not invoked, and the function for both is not applied. -/
  map2 {β γ δ : Type} (d : Effect σ γ) (g : β → γ → Computation σ δ) :
    NeverLeaves e (e.forever.map2 d g) ((e.noted .body).forever.map2 (d.noted .after)
      fun b c => (noted .after ⟨g b c⟩).invoke)
  /-- A guarded invocation yields no value either: what it yields is an error. -/
  guarded_iff {β : Type} {s : σ} {r : Except Panic (Except InvocationError β) × σ} :
    (e.forever : Effect σ β).invokeGuarded.Halts s r ↔
      ∃ k p t, PanicsInTurn e.invoke k s p t ∧
        r = (.ok (.error (.ofPanic p)), Tracer.emit (.invocationFailed (.ofPanic p)) t)

/-- Repeating without end never returns, in all ways of putting something after it. -/
theorem forever_never_returns (e : Effect σ α) : NeverReturns e where
  not_returns := not_halts_forever_value
  panics_iff := halts_forever_panic_iff
  diverges_iff := diverges_forever_iff_not_panics
  diverges_iff_turns := diverges_forever_iff
  unfold := forever_equiv_andThen e
  bind _ := neverLeaves_of_eq (forever_sequence_eq e _) (forever_sequence_eq _ _)
  andThen _ := neverLeaves_of_eq (forever_sequence_eq e _) (forever_sequence_eq _ _)
  map2 _ _ := neverLeaves_of_eq (forever_sequence_eq e _) (forever_sequence_eq _ _)
  guarded_iff := halts_forever_invokeGuarded_iff

end Effect

end Deferred
