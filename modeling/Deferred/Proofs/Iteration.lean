import Deferred.Effect.Loop
import Deferred.Proofs.MonadLaws
import Deferred.Proofs.Rounds

/-!
# The laws of iteration

An iteration is the least computation that is its first step followed by itself: whatever absorbs a
step that asks for another turn, and ends as a step that finishes, has all of its endings
(`Computation.iterate_bind_below`). An equation between two loops is proved by showing each of them
below the other in this way, so it also covers the runs that never end.

* `Computation.halts_iterate_induction`: induction on the turns of a run that ends.
* `Computation.iterate_bind_equiv`: what follows an iteration is its last step.
* `Computation.iterate_iterate_equiv`: an iteration of iterations is one iteration.
* `Effect.iteration_laws`: these laws for effects, and that every invocation starts anew.
-/

namespace Deferred

variable {σ α β γ δ : Type}

/-- What is asked for by a turn whose result is a turn itself. -/
def Turn.flatten : Turn α (Turn α β) → Turn α β
  | .again a => .again a
  | .finish (.again a) => .again a
  | .finish (.finish b) => .finish b

/-- The state of an iteration that is followed by something else: it is running, or it has finished
and its result is to be used. -/
inductive Phase (α β : Type) where
  | running (state : α)
  | finishing (result : β)

/-- A turn of an iteration, as a turn of the iteration and what follows it. -/
def Turn.enterPhase : Turn α β → Turn (Phase α β) γ
  | .again a => .again (.running a)
  | .finish b => .again (.finishing b)

/-- A run and what follows it have ended if the run has panicked, or if both have ended. -/
theorem Run.next_eq_some_iff {x : Run σ α} {f : α → Run σ β} {s : σ} {r : Except Panic β × σ} :
    x.next f s = some r ↔
      (∃ p t, x s = some (.error p, t) ∧ r = (.error p, t)) ∨
      (∃ a t, x s = some (.ok a, t) ∧ f a t = some r) := by
  unfold Run.next
  cases x s with
  | none => simp
  | some ending =>
    obtain ⟨p | a, t⟩ := ending
    · simp [and_assoc, eq_comm]
    · simp [and_assoc]

namespace Computation

/-! ## The least computation -/

/-- Every ending of `x` is an ending of `y`. -/
def Below (x y : Computation σ α) : Prop := ∀ s r, x.Halts s r → y.Halts s r

/-- Observationally equal computations are below each other. -/
theorem below_of_equiv {x y : Computation σ α} (h : x ≈ y) : x.Below y := fun s r => (h s r).1

/-- Two computations that are below each other are observationally equal. -/
theorem Below.antisymm {x y : Computation σ α} (h : x.Below y) (h' : y.Below x) : x ≈ y :=
  fun s r => ⟨h s r, h' s r⟩

/-- Induction on the turns of an iteration that ends: its last step panics or finishes, and a step
that asks for another turn is followed by an iteration that ends the same way. -/
theorem halts_iterate_induction {f : α → Computation σ (Turn α β)}
    {motive : α → σ → Except Panic β × σ → Prop}
    (panicked : ∀ a s p t, (f a).Halts s (.error p, t) → motive a s (.error p, t))
    (finished : ∀ a s b t, (f a).Halts s (.ok (.finish b), t) → motive a s (.ok b, t))
    (again : ∀ a s a' t r, (f a).Halts s (.ok (.again a'), t) → (iterate f a').Halts t r →
      motive a' t r → motive a s r)
    {a : α} {s : σ} {r : Except Panic β × σ} (h : (iterate f a).Halts s r) : motive a s r := by
  obtain ⟨budget, hrun⟩ := h
  -- The budget of the steps stays; only the turns left are counted down.
  have hturns : ∀ turns, turns ≤ budget → ∀ a s,
      Run.iterate (fun a => (f a).run budget) turns a s = some r → motive a s r := by
    intro turns
    induction turns with
    | zero => intro _ a s hrun; exact nomatch hrun
    | succ turns ih =>
      intro hle a s hrun
      rcases Run.next_eq_some_iff.1 hrun with ⟨p, t, hstep, rfl⟩ | ⟨turn, t, hstep, hrest⟩
      · exact panicked a s p t ⟨budget, hstep⟩
      · cases turn with
        | again a' =>
          have hwithin := Run.iterate_within (fun a => Run.within_refl ((f a).run budget))
            (Nat.le_of_succ_le hle) a'
          exact again a s a' t r ⟨budget, hstep⟩ ⟨budget, hwithin t r hrest⟩
            (ih (Nat.le_of_succ_le hle) a' t hrest)
        | finish b =>
          cases hrest
          exact finished a s b t ⟨budget, hstep⟩
  exact hturns budget budget.le_refl a s hrun

/-- How a run goes on: `k` uses the value, and a panic is the end. -/
def Then (k : α → Computation σ β) : Except Panic α × σ → Except Panic β × σ → Prop
  | (.ok a, s), r => (k a).Halts s r
  | (.error p, s), r => r = (.error p, s)

/-- A sequence ends as what follows the ending of its first part. -/
theorem halts_bind_iff_then {x : Computation σ α} {k : α → Computation σ β} {s : σ}
    {r : Except Panic β × σ} : (x >>= k).Halts s r ↔ ∃ e, x.Halts s e ∧ Then k e r := by
  rw [halts_bind_iff]
  constructor
  · rintro (⟨p, t, hx, hr⟩ | ⟨a, t, hx, hk⟩)
    · exact ⟨(.error p, t), hx, hr⟩
    · exact ⟨(.ok a, t), hx, hk⟩
  · rintro ⟨⟨p | a, t⟩, hx, hk⟩
    · exact .inl ⟨p, t, hx, hk⟩
    · exact .inr ⟨a, t, hx, hk⟩

/-- What is done with a turn: `x` goes on from a new state, and `k` uses a result. -/
def onTurn (x : α → Computation σ γ) (k : β → Computation σ γ) : Turn α β → Computation σ γ
  | .again a => x a
  | .finish b => k b

/-- What absorbs a step that asks for another turn, and goes on with `k` after one that finishes,
has all endings of the iteration followed by `k`. -/
theorem iterate_bind_below {f : α → Computation σ (Turn α β)} {x : α → Computation σ γ}
    {k : β → Computation σ γ} (h : ∀ a, (f a >>= onTurn x k).Below (x a)) (a : α) :
    (iterate f a >>= k).Below (x a) := by
  intro s r hr
  obtain ⟨e, hiterate, hk⟩ := halts_bind_iff_then.1 hr
  refine halts_iterate_induction (motive := fun a s e => ∀ r, Then k e r → (x a).Halts s r)
    ?panicked ?finished ?again hiterate r hk
  case panicked =>
    intro a s p t hstep r hr
    exact h a s r ((halts_bind_error_iff hstep).2 hr)
  case finished =>
    intro a s b t hstep r hr
    exact h a s r ((halts_bind_ok_iff hstep).2 hr)
  case again =>
    intro a s a' t e hstep _ ih r hr
    exact h a s r ((halts_bind_ok_iff hstep).2 (ih r hr))

/-- What absorbs a step of the iteration, and ends as a step that finishes, has its endings. -/
theorem iterate_below {f : α → Computation σ (Turn α β)} {x : α → Computation σ β}
    (h : ∀ a, (f a >>= onTurn x pure).Below (x a)) (a : α) : (iterate f a).Below (x a) := by
  have hpure := iterate_bind_below h a
  rwa [bind_pure_eq] at hpure

/-! ## The turns of an iteration -/

/-- An iteration is its first step, and what that step asks for. -/
theorem iterate_equiv_onTurn (f : α → Computation σ (Turn α β)) (a : α) :
    iterate f a ≈ f a >>= onTurn (iterate f) pure := by
  refine equiv_trans (iterate_equiv f a) (bind_congr_equiv (equiv_refl _) fun turn => ?_)
  cases turn <;> exact equiv_refl _

/-- The step ends the iteration, with a result or with a panic. -/
inductive StepEnds (x : Computation σ (Turn α β)) (s : σ) : Except Panic β × σ → Prop where
  | finished {b : β} {t : σ} (h : x.Halts s (.ok (.finish b), t)) : StepEnds x s (.ok b, t)
  | panicked {p : Panic} {t : σ} (h : x.Halts s (.error p, t)) : StepEnds x s (.error p, t)

/-- An iteration ends exactly if some turns lead to a step that ends it. -/
theorem halts_iterate_iff {f : α → Computation σ (Turn α β)} {a : α} {s : σ}
    {r : Except Panic β × σ} :
    (iterate f a).Halts s r ↔
      ∃ n b t, Rounds (IterateTurn f) n (a, s) (b, t) ∧ StepEnds (f b) t r := by
  constructor
  · intro h
    refine halts_iterate_induction (motive := fun a s r =>
      ∃ n b t, Rounds (IterateTurn f) n (a, s) (b, t) ∧ StepEnds (f b) t r) ?panicked ?finished
      ?again h
    case panicked => exact fun a s p t hstep => ⟨0, a, s, .none _, .panicked hstep⟩
    case finished => exact fun a s b t hstep => ⟨0, a, s, .none _, .finished hstep⟩
    case again =>
      rintro a s a' t r hstep - ⟨n, b, u, hrounds, hends⟩
      have hturn : IterateTurn f (a, s) (a', t) := hstep
      exact ⟨n + 1, b, u, .more hturn hrounds, hends⟩
  · rintro ⟨n, b, t, hrounds, hends⟩
    refine (hrounds.resumes_iterate r).2 ((iterate_equiv_onTurn f b t r).2 ?_)
    cases hends with
    | finished hstep => exact (halts_bind_ok_iff hstep).2 (halts_pure_iff.2 rfl)
    | panicked hstep => exact (halts_bind_error_iff hstep).2 rfl

/-- An iteration that ends has only so many turns. -/
theorem exists_not_rounds_of_halts {f : α → Computation σ (Turn α β)} {a : α} {s : σ}
    {r : Except Panic β × σ} (h : (iterate f a).Halts s r) :
    ∃ n, ¬∃ k, Rounds (IterateTurn f) n (a, s) k := by
  refine halts_iterate_induction (motive := fun a s _ =>
    ∃ n, ¬∃ k, Rounds (IterateTurn f) n (a, s) k) ?panicked ?finished ?again h
  case panicked =>
    intro a s p t hstep
    refine ⟨1, fun ⟨k, hrounds⟩ => ?_⟩
    obtain ⟨l, hturn, -⟩ := Rounds.succ_iff.1 hrounds
    exact nomatch halts_unique hturn hstep
  case finished =>
    intro a s b t hstep
    refine ⟨1, fun ⟨k, hrounds⟩ => ?_⟩
    obtain ⟨l, hturn, -⟩ := Rounds.succ_iff.1 hrounds
    exact nomatch halts_unique hturn hstep
  case again =>
    rintro a s a' t r hstep - ⟨n, hnone⟩
    refine ⟨n + 1, fun ⟨k, hrounds⟩ => hnone ⟨k, ?_⟩⟩
    obtain ⟨⟨b, u⟩, hturn, hrest⟩ := Rounds.succ_iff.1 hrounds
    cases halts_unique hturn hstep
    exact hrest

/-- An iteration never ends exactly if it takes turns without an end, or if after some turns a step
never ends. -/
theorem diverges_iterate_iff {f : α → Computation σ (Turn α β)} {a : α} {s : σ} :
    (iterate f a).Diverges s ↔
      (∀ n, ∃ k, Rounds (IterateTurn f) n (a, s) k) ∨
      ∃ n b t, Rounds (IterateTurn f) n (a, s) (b, t) ∧ (f b).Diverges t := by
  constructor
  · intro hdiverges
    refine Classical.or_iff_not_imp_right.2 fun hstep n => ?_
    induction n with
    | zero => exact ⟨(a, s), .none _⟩
    | succ n ih =>
      obtain ⟨⟨b, t⟩, hrounds⟩ := ih
      have hends : ¬(f b).Diverges t := fun hb => hstep ⟨n, b, t, hrounds, hb⟩
      obtain ⟨⟨o, u⟩, hb⟩ := not_diverges_iff.1 hends
      match o, hb with
      | .ok (.again b'), hb => exact ⟨(b', u), hrounds.snoc hb⟩
      | .ok (.finish c), hb =>
        exact absurd (halts_iterate_iff.2 ⟨n, b, t, hrounds, .finished hb⟩)
          (diverges_iff.1 hdiverges _)
      | .error p, hb =>
        exact absurd (halts_iterate_iff.2 ⟨n, b, t, hrounds, .panicked hb⟩)
          (diverges_iff.1 hdiverges _)
  · rintro (hrounds | ⟨n, b, t, hrounds, hb⟩)
    · refine diverges_iff.2 fun r hr => ?_
      obtain ⟨n, hnone⟩ := exists_not_rounds_of_halts hr
      exact hnone (hrounds n)
    · refine diverges_iff.2 fun r hr => ?_
      have hstep := (iterate_equiv_onTurn f b t r).1 ((hrounds.resumes_iterate r).1 hr)
      rcases halts_bind_iff.1 hstep with ⟨p, u, hp, -⟩ | ⟨turn, u, hturn, -⟩
      · exact diverges_iff.1 hb _ hp
      · exact diverges_iff.1 hb _ hturn

/-! ## Iterations that remember nothing -/

section

variable {f : Unit → Computation σ (Turn Unit β)} {turn : σ → σ → Prop} {s : σ}

/-- Rounds of an iteration that remembers nothing are rounds between the states. -/
theorem rounds_unit_iff (hturn : ∀ s t, IterateTurn f ((), s) ((), t) ↔ turn s t) {n : Nat}
    {t : σ} : Rounds (IterateTurn f) n ((), s) ((), t) ↔ Rounds turn n s t := by
  constructor
  · exact Rounds.map Prod.snd fun k l => (hturn k.2 l.2).1
  · exact Rounds.map (Prod.mk ()) fun s t => (hturn s t).2

/-- The iteration ends if some rounds between the states lead to a step that does. -/
theorem halts_iterate_unit_iff {ends : σ → Except Panic β × σ → Prop}
    (hturn : ∀ s t, IterateTurn f ((), s) ((), t) ↔ turn s t)
    (hends : ∀ s r, StepEnds (f ()) s r ↔ ends s r) {r : Except Panic β × σ} :
    (iterate f ()).Halts s r ↔ ∃ k u, Rounds turn k s u ∧ ends u r := by
  rw [halts_iterate_iff]
  constructor
  · rintro ⟨k, _, u, hrounds, hstep⟩
    exact ⟨k, u, (rounds_unit_iff hturn).1 hrounds, (hends u r).1 hstep⟩
  · rintro ⟨k, u, hrounds, hstep⟩
    exact ⟨k, (), u, (rounds_unit_iff hturn).2 hrounds, (hends u r).2 hstep⟩

/-- It never ends if there are rounds without an end, or a step after some of them never ends. -/
theorem diverges_iterate_unit_iff {hangs : σ → Prop}
    (hturn : ∀ s t, IterateTurn f ((), s) ((), t) ↔ turn s t)
    (hhangs : ∀ s, (f ()).Diverges s ↔ hangs s) :
    (iterate f ()).Diverges s ↔
      (∀ k, ∃ u, Rounds turn k s u) ∨ ∃ k u, Rounds turn k s u ∧ hangs u := by
  rw [diverges_iterate_iff]
  refine or_congr (forall_congr' fun k => ?_) ⟨?_, ?_⟩
  · constructor
    · rintro ⟨⟨_, u⟩, hrounds⟩
      exact ⟨u, (rounds_unit_iff hturn).1 hrounds⟩
    · rintro ⟨u, hrounds⟩
      exact ⟨((), u), (rounds_unit_iff hturn).2 hrounds⟩
  · rintro ⟨k, _, u, hrounds, hstep⟩
    exact ⟨k, u, (rounds_unit_iff hturn).1 hrounds, (hhangs u).1 hstep⟩
  · rintro ⟨k, u, hrounds, hstep⟩
    exact ⟨k, (), u, (rounds_unit_iff hturn).2 hrounds, (hhangs u).2 hstep⟩

end

/-! ## The laws -/

/-- A step whose result `k` still has to make. -/
def finishWith (k : β → Computation σ γ) : Turn α β → Computation σ (Turn α γ) :=
  onTurn (fun a => pure (.again a)) fun b => k b >>= fun c => pure (.finish c)

/-- Making a result and using it can be done where the result is used. -/
theorem finishWith_bind_onTurn (k : β → Computation σ γ) (x : α → Computation σ δ)
    (l : γ → Computation σ δ) (turn : Turn α β) :
    finishWith k turn >>= onTurn x l = onTurn x (fun b => k b >>= l) turn := by
  cases turn with
  | again a => rfl
  | finish b => exact bind_assoc (k b) _ _

/-- What follows an iteration can be done by the step that finishes. -/
theorem iterate_bind_equiv_of_step {f : α → Computation σ (Turn α β)} {k : β → Computation σ γ}
    {g : α → Computation σ (Turn α γ)} (h : ∀ a, g a ≈ f a >>= finishWith k) (a : α) :
    (iterate f a >>= k) ≈ iterate g a := by
  -- One step of `g` is one of `f`, with `k` in place of the result.
  have hstep : ∀ (x : α → Computation σ γ) a,
      (g a >>= onTurn x pure) ≈ f a >>= onTurn x k := by
    intro x a
    refine equiv_trans (bind_congr_equiv (h a) fun _ => equiv_refl _) (equiv_of_eq ?_)
    rw [bind_assoc]
    refine bind_congr fun turn => ?_
    have hk : (fun b => k b >>= pure) = k := funext fun b => bind_pure_eq (k b)
    rw [finishWith_bind_onTurn, hk]
  apply Below.antisymm
  · refine iterate_bind_below (fun a => below_of_equiv ?_) a
    exact equiv_symm (equiv_trans (iterate_equiv_onTurn g a) (hstep _ a))
  · refine iterate_below (x := fun a => iterate f a >>= k) (fun a => below_of_equiv ?_) a
    refine equiv_trans (hstep _ a) (equiv_symm ?_)
    refine equiv_trans (bind_congr_equiv (iterate_equiv_onTurn f a) fun _ => equiv_refl _) ?_
    rw [bind_assoc]
    refine bind_congr_equiv (equiv_refl _) fun turn => ?_
    cases turn <;> exact equiv_refl _

/-- The steps of an iteration and of what follows it. -/
def phased (f : α → Computation σ (Turn α β)) (k : β → Computation σ γ) :
    Phase α β → Computation σ (Turn (Phase α β) γ)
  | .running a => f a >>= fun turn => pure turn.enterPhase
  | .finishing b => k b >>= fun c => pure (.finish c)

/-- What is left of an iteration and of what follows it. -/
def left (f : α → Computation σ (Turn α β)) (k : β → Computation σ γ) :
    Phase α β → Computation σ γ
  | .running a => iterate f a >>= k
  | .finishing b => k b

/-- Once the iteration has finished, what follows it is all that is left. -/
theorem iterate_finishing_equiv (f : α → Computation σ (Turn α β)) (k : β → Computation σ γ)
    (b : β) : iterate (phased f k) (.finishing b) ≈ k b := by
  have hunfold := iterate_equiv_onTurn (phased f k) (.finishing b)
  rwa [phased, bind_assoc, show (k b >>= fun c => pure (Turn.finish c) >>=
    onTurn (iterate (phased f k)) pure) = k b from bind_pure_eq (k b)] at hunfold

/-- What follows an iteration can be taken as its last step. -/
theorem iterate_bind_equiv (f : α → Computation σ (Turn α β)) (k : β → Computation σ γ) (a : α) :
    (iterate f a >>= k) ≈ iterate (phased f k) (.running a) := by
  apply Below.antisymm
  · refine iterate_bind_below (x := fun a => iterate (phased f k) (.running a)) (fun a => ?_) a
    apply below_of_equiv
    refine equiv_trans ?_ (equiv_symm (iterate_equiv_onTurn (phased f k) (.running a)))
    rw [phased, bind_assoc]
    refine bind_congr_equiv (equiv_refl _) fun turn => ?_
    cases turn with
    | again a' => exact equiv_refl _
    | finish b => exact equiv_symm (iterate_finishing_equiv f k b)
  · refine iterate_below (x := left f k) (fun phase => below_of_equiv ?_) (.running a)
    cases phase with
    | running a =>
      rw [phased, left, bind_assoc]
      refine equiv_symm (equiv_trans (bind_congr_equiv (iterate_equiv_onTurn f a)
        fun _ => equiv_refl _) ?_)
      rw [bind_assoc]
      refine bind_congr_equiv (equiv_refl _) fun turn => ?_
      cases turn <;> exact equiv_refl _
    | finishing b =>
      rw [phased, bind_assoc]
      exact equiv_of_eq (bind_pure_eq (k b))

/-- An iteration whose steps are iterations takes the steps of the inner one, and an inner result
that asks for another turn is a step like others. -/
theorem iterate_iterate_equiv (f : α → Computation σ (Turn α (Turn α β))) (a : α) :
    iterate (iterate f) a ≈ iterate (fun a => f a >>= fun turn => pure turn.flatten) a := by
  apply Below.antisymm
  · refine iterate_below (fun a => ?_) a
    refine iterate_bind_below (fun a => below_of_equiv ?_) a
    refine equiv_trans ?_ (equiv_symm (iterate_equiv_onTurn _ a))
    rw [bind_assoc]
    refine bind_congr_equiv (equiv_refl _) fun turn => ?_
    match turn with
    | .again _ | .finish (.again _) | .finish (.finish _) => exact equiv_refl _
  · refine iterate_below (x := iterate (iterate f)) (fun a => below_of_equiv ?_) a
    have hunfold := equiv_trans (iterate_equiv_onTurn (iterate f) a)
      (bind_congr_equiv (iterate_equiv_onTurn f a) fun _ => equiv_refl _)
    refine equiv_trans ?_ (equiv_symm hunfold)
    rw [bind_assoc, bind_assoc]
    refine bind_congr_equiv (equiv_refl _) fun turn => ?_
    match turn with
    | .again a' => exact iterate_equiv_onTurn (iterate f) a'
    | .finish (.again _) | .finish (.finish _) => exact equiv_refl _

end Computation

namespace Effect

open Deferred.Computation

/-! ## Effects that iterate -/

/-- The effect that a turn asks for: the iteration from a new state, or the result. -/
def continueFrom (step : α → Computation σ (Effect σ (Turn α β))) :
    Turn α β → Computation σ (Effect σ β)
  | .again a => return iterate a step
  | .finish b => return pure b

/-- The steps of an iteration and of what follows it, one after the other. -/
def phasedStep (step : α → Computation σ (Effect σ (Turn α β)))
    (k : β → Computation σ (Effect σ γ)) :
    Phase α β → Computation σ (Effect σ (Turn (Phase α β) γ))
  | .running a => do
    let e ← step a
    return e.map fun turn => return turn.enterPhase
  | .finishing b => do
    let e ← k b
    return e.map fun c => return .finish c

/-- The step whose result may itself ask for another turn, as a plain step. -/
def flattenedStep (step : α → Computation σ (Effect σ (Turn α (Turn α β)))) (a : α) :
    Computation σ (Effect σ (Turn α β)) := do
  let e ← step a
  return e.map fun turn => return turn.flatten

/-- The laws of iteration. -/
structure IterationLaws (σ : Type) : Prop where
  /-- An iteration is its first step, followed by what that step asks for. -/
  unfold {α β : Type} (a : α) (step : α → Computation σ (Effect σ (Turn α β))) :
    iterate a step ≈ (defer (step a)).bind (continueFrom step)
  /-- What follows an iteration can be taken as its last step. -/
  natural {α β γ : Type} (a : α) (step : α → Computation σ (Effect σ (Turn α β)))
    (k : β → Computation σ (Effect σ γ)) :
    (iterate a step).bind k ≈ iterate (.running a) (phasedStep step k)
  /-- An iteration of iterations is one iteration. -/
  codiagonal {α β : Type} (a : α) (step : α → Computation σ (Effect σ (Turn α (Turn α β)))) :
    iterate a (fun a => return iterate a step) ≈ iterate a (flattenedStep step)
  /-- After any row of invocations, however they ended, the next one begins with the first step, on
  the state that the row left. -/
  restart {α β : Type} (a : α) (step : α → Computation σ (Effect σ (Turn α β))) {count : Nat}
    {s t : σ} {outcomes : List (Except Panic β)}
    (hrow : ((iterate a step).invocations count).Halts s (.ok outcomes, t)) (o : Except Panic β)
    (u : σ) :
    ((iterate a step).invocations (count + 1)).Halts s (.ok (outcomes ++ [o]), u) ↔
      ((defer (step a)).bind (continueFrom step)).invoke.Halts t (o, u)

/-- An iteration makes and invokes its first step, and goes on as that says. -/
theorem iterate_equiv_defer_bind (a : α) (step : α → Computation σ (Effect σ (Turn α β))) :
    iterate a step ≈ (defer (step a)).bind (continueFrom step) := by
  rw [equiv_iff]
  refine Computation.equiv_trans (iterate_equiv_onTurn _ a)
    (bind_congr_equiv (equiv_refl _) fun turn => ?_)
  cases turn <;> exact equiv_refl _

/-- The steps of the effects are the steps of the computations. -/
theorem enter_phasedStep (step : α → Computation σ (Effect σ (Turn α β)))
    (k : β → Computation σ (Effect σ γ)) :
    (fun phase => enter (phasedStep step k phase)) =
      phased (fun a => enter (step a)) fun b => enter (k b) := by
  funext phase
  cases phase <;> simp only [phasedStep, phased, enter, map, bind_assoc, pure_bind]

/-- What follows an iteration of effects is the last step of an iteration. -/
theorem iterate_bind_equiv_iterate (a : α) (step : α → Computation σ (Effect σ (Turn α β)))
    (k : β → Computation σ (Effect σ γ)) :
    (iterate a step).bind k ≈ iterate (.running a) (phasedStep step k) := by
  rw [equiv_iff, iterate, iterate, enter_phasedStep]
  exact iterate_bind_equiv (fun a => enter (step a)) (fun b => enter (k b)) a

/-- An iteration of iterations of effects is one iteration. -/
theorem iterate_iterate_equiv_iterate (a : α)
    (step : α → Computation σ (Effect σ (Turn α (Turn α β)))) :
    iterate a (fun a => return iterate a step) ≈ iterate a (flattenedStep step) := by
  have henter : (fun a => enter (flattenedStep step a)) =
      fun a => enter (step a) >>= fun turn => Pure.pure turn.flatten := by
    funext a
    simp only [flattenedStep, enter, map, bind_assoc, pure_bind]
  rw [equiv_iff, iterate, iterate, henter]
  exact iterate_iterate_equiv (fun a => enter (step a)) a

/-- Iteration unfolds, absorbs what follows it and flattens, and each invocation starts anew. -/
theorem iteration_laws : IterationLaws σ where
  unfold := iterate_equiv_defer_bind
  natural := iterate_bind_equiv_iterate
  codiagonal := iterate_iterate_equiv_iterate
  restart := by
    intro α β a step count s t outcomes hrow o u
    rw [halts_invocations_append_iff hrow]
    exact equiv_iff.1 (iterate_equiv_defer_bind a step) t (o, u)

end Effect

end Deferred
