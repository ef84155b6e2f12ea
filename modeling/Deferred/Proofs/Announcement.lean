import Deferred.Effect.Pointwise
import Deferred.Proofs.Guarding
import Deferred.Proofs.LoopsIterate
import Mathlib.Logic.Relation

/-!
# Who tells of events

Only loops and guarded invocations tell of events. Every invocation of a loop tells of one, before
anything else, and then goes as an iteration that tells of none itself (`Announces`): it is a row of
runs of its parts. All other operations are such rows and nothing else (`ConsistsOf`), whatever
their parts do.
-/

namespace Deferred

variable {σ α β γ ε : Type}

namespace Computation

/-! ## Rows of runs -/

/-- From `s` the computation ends, somehow, in `t`. -/
def Leads (x : Computation σ α) (s t : σ) : Prop := ∃ o, x.Halts s (o, t)

/-- Wherever `x` ends, a row of steps leads there: `x` changes the state in no other way. -/
def ConsistsOf (part : σ → σ → Prop) (x : Computation σ α) : Prop :=
  ∀ s t, x.Leads s t → Relation.ReflTransGen part s t

section

variable {part : σ → σ → Prop} {x : Computation σ α} {f : α → Computation σ β}

/-- A computation that is itself such a part consists of it. -/
theorem consistsOf_part (h : ∀ s t, x.Leads s t → part s t) : x.ConsistsOf part :=
  fun s t hx => .single (h s t hx)

theorem consistsOf_pure (a : α) : (pure a : Computation σ α).ConsistsOf part := by
  rintro s t ⟨o, h⟩
  cases halts_pure_iff.1 h
  exact .refl

theorem consistsOf_lift (r : Except Panic α) : (liftM r : Computation σ α).ConsistsOf part := by
  cases r with
  | ok a => exact consistsOf_pure a
  | error p =>
    rintro s t ⟨o, h⟩
    cases halts_panic_iff.1 h
    exact .refl

/-- What follows `x` matters for the values alone that `x` can yield. -/
theorem ConsistsOf.bind_of_halts (h : x.ConsistsOf part)
    (hf : ∀ a s t, x.Halts s (.ok a, t) → (f a).ConsistsOf part) :
    (x >>= f).ConsistsOf part := by
  rintro s t ⟨o, hrun⟩
  rcases halts_bind_iff.1 hrun with ⟨p, u, hx, hend⟩ | ⟨a, u, hx, hrest⟩
  · cases hend
    exact h s t ⟨_, hx⟩
  · exact (h s u ⟨_, hx⟩).trans (hf a s u hx u t ⟨o, hrest⟩)

/-- A sequence consists of such parts if both its halves do. -/
theorem ConsistsOf.bind (h : x.ConsistsOf part) (hf : ∀ a, (f a).ConsistsOf part) :
    (x >>= f).ConsistsOf part :=
  h.bind_of_halts fun a _ _ _ => hf a

/-- Equivalent computations consist of the same parts. -/
theorem ConsistsOf.of_equiv {y : Computation σ α} (hxy : x ≈ y) (h : y.ConsistsOf part) :
    x.ConsistsOf part := by
  rintro s t ⟨o, hx⟩
  exact h s t ⟨o, (hxy s _).1 hx⟩

/-- One step of an iteration after the other. -/
theorem ConsistsOf.iterate {f : α → Computation σ (Turn α β)} (h : ∀ a, (f a).ConsistsOf part)
    (a : α) : (iterate f a).ConsistsOf part := by
  rintro s t ⟨o, hrun⟩
  refine halts_iterate_induction (motive := fun _ s e => Relation.ReflTransGen part s e.2)
    ?panicked ?finished ?again hrun
  case panicked => exact fun a s p t hstep => h a s t ⟨_, hstep⟩
  case finished => exact fun a s b t hstep => h a s t ⟨_, hstep⟩
  case again => exact fun a s a' t e hstep _ ih => (h a s t ⟨_, hstep⟩).trans ih

end

end Computation

open Deferred.Computation

namespace Effect

/-! ## Rows of invocations -/

/-- Every invocation is a row of steps. -/
def Silent (part : σ → σ → Prop) (e : Effect σ α) : Prop := e.invoke.ConsistsOf part

/-- Every invocation of `loop` tells of the event and then goes as the iteration from `a` on does,
which is a row of steps. -/
structure Announces [Tracer σ] (event : Event) (part : σ → σ → Prop) (a : α)
    (step : α → Computation σ (Effect σ (Turn α β))) (loop : Effect σ β) : Prop where
  /-- The event comes first and once, however the iteration ends, and also if it does not. -/
  announced : loop ≈ announced event (iterate a step)
  /-- Nothing but the parts changes the state after that. -/
  silent : Silent part (iterate a step)
  /-- The event is told of as well if there is nothing to do. -/
  finishes {s t : σ} {b : β}
    (h : (enter (step a)).Halts (Tracer.emit event s) (.ok (.finish b), t)) :
    loop.invoke.Halts s (.ok b, t)
  /-- It is told of before the very first part, should that panic. -/
  panics {s t : σ} {p : Panic} (h : (enter (step a)).Halts (Tracer.emit event s) (.error p, t)) :
    loop.invoke.Halts s (.error p, t)

/-- It is enough that what follows the event goes as the iteration, and is a row of steps. -/
theorem announces_of_equiv [Tracer σ] {part : σ → σ → Prop} {a : α}
    {step : α → Computation σ (Effect σ (Turn α β))} {x : Computation σ β}
    (hiterate : x ≈ Computation.iterate (fun a => enter (step a)) a) (hparts : x.ConsistsOf part)
    (event : Event) : Announces event part a step ⟨emit event >>= fun _ => x⟩ where
  announced := (goesAs_of_equiv (e := iterate a step) hiterate event).announced
  silent := hparts.of_equiv (equiv_symm hiterate)
  finishes := by
    intro s t b h
    have hstep := (halts_iterate_iff (f := fun a => enter (step a))).2
      ⟨0, a, _, .none _, .finished h⟩
    exact (resumes_emit x s _).2 ((hiterate _ _).2 hstep)
  panics := by
    intro s t p h
    have hstep := (halts_iterate_iff (f := fun a => enter (step a))).2
      ⟨0, a, _, .none _, .panicked h⟩
    exact (resumes_emit x s _).2 ((hiterate _ _).2 hstep)

/-! ## Loops -/

section

variable {part : σ → σ → Prop}

/-- Between its announcement and its end, this loop does nothing but its checks. -/
theorem consistsOf_untilTrue {c : Effect σ Bool} (hc : c.invoke.ConsistsOf part) :
    (Computation.untilTrue c.invoke).ConsistsOf part :=
  .of_equiv (untilTrue_equiv_iterate c) <| .iterate (fun _ => hc.bind fun _ => consistsOf_pure _) ()

theorem consistsOf_whileTrue {c : Effect σ Bool} {b : Effect σ α} (hc : c.invoke.ConsistsOf part)
    (hb : b.invoke.ConsistsOf part) :
    (Computation.whileTrue c.invoke b.invoke).ConsistsOf part := by
  refine .of_equiv (whileTrue_equiv_iterate c b) <| .iterate (fun _ => hc.bind fun holds => ?_) ()
  cases holds with
  | true => exact hb.bind fun _ => consistsOf_pure _
  | false => exact consistsOf_pure _

theorem consistsOf_forever {e : Effect σ α} (he : e.invoke.ConsistsOf part) :
    (Computation.forever e.invoke : Computation σ β).ConsistsOf part :=
  .of_equiv (forever_equiv_iterate e) <| .iterate (fun _ => he.bind fun _ => consistsOf_pure _) ()

theorem consistsOf_tryUntil {c : Effect σ (Except ε Bool)} (hc : c.invoke.ConsistsOf part) :
    (Computation.tryUntil c.invoke).ConsistsOf part := by
  refine .of_equiv (tryUntil_equiv_iterate c) <| .iterate (fun _ => hc.bind fun r => ?_) ()
  cases r with
  | ok holds => exact consistsOf_pure _
  | error error => exact consistsOf_pure _

theorem consistsOf_tryWhile {c : Effect σ (Except ε Bool)} {b : Effect σ (Except ε α)}
    (hc : c.invoke.ConsistsOf part) (hb : b.invoke.ConsistsOf part) :
    (Computation.tryWhile c.invoke b.invoke).ConsistsOf part := by
  refine .of_equiv (tryWhile_equiv_iterate c b) <| .iterate (fun _ => hc.bind fun r => ?_) ()
  match r with
  | .ok true => exact hb.bind fun _ => consistsOf_pure _
  | .ok false | .error _ => exact consistsOf_pure _

/-- The indices that a range still has are among those that it had. -/
theorem consistsOf_forRange {low high : Fixed .i32} {f : Fixed .i32 → Computation σ α}
    (h : ∀ i, low.val ≤ i.val → i.val < high.val → (f i).ConsistsOf part) :
    (Computation.forRange low high f).ConsistsOf part := by
  induction low using range_induction high with
  | none low hle =>
    rw [forRange_of_le hle]
    exact consistsOf_pure ()
  | more low next hlt hnext ih =>
    rw [forRange_of_lt hlt hnext]
    refine (h low (Int.le_refl _) hlt).bind fun _ => ih fun i hi => h i ?_
    omega

theorem consistsOf_tryForRange {low high : Fixed .i32}
    {f : Fixed .i32 → Computation σ (Except ε α)}
    (h : ∀ i, low.val ≤ i.val → i.val < high.val → (f i).ConsistsOf part) :
    (Computation.tryForRange low high f).ConsistsOf part := by
  induction low using range_induction high with
  | none low hle =>
    rw [tryForRange_of_le hle]
    exact consistsOf_pure _
  | more low next hlt hnext ih =>
    rw [tryForRange_of_lt hlt hnext]
    refine (h low (Int.le_refl _) hlt).bind fun r => ?_
    cases r with
    | error error => exact consistsOf_pure _
    | ok a =>
      refine ih fun i hi => h i ?_
      omega

/-- A loop over items does nothing but what its items do. -/
theorem consistsOf_forEach {items : List α} {f : α → Computation σ β}
    (h : ∀ a ∈ items, (f a).ConsistsOf part) : (Computation.forEach items f).ConsistsOf part := by
  induction items with
  | nil => exact consistsOf_pure ()
  | cons a items ih =>
    rw [forEach_cons]
    exact (h a List.mem_cons_self).bind fun _ => ih fun a ha => h a (List.mem_cons_of_mem _ ha)

theorem consistsOf_tryForEach {items : List α} {f : α → Computation σ (Except ε β)}
    (h : ∀ a ∈ items, (f a).ConsistsOf part) :
    (Computation.tryForEach items f).ConsistsOf part := by
  induction items with
  | nil => exact consistsOf_pure _
  | cons a items ih =>
    rw [tryForEach_cons]
    refine (h a List.mem_cons_self).bind fun r => ?_
    cases r with
    | error error => exact consistsOf_pure _
    | ok b => exact ih fun a ha => h a (List.mem_cons_of_mem _ ha)

end

/-! ## All operations -/

/-- One effect is invoked after the other, and a result that touches no state is made of both
values. -/
theorem silent_map2_lift (e : Effect σ α) (d : Effect σ β) (f : α → β → Except Panic γ) :
    Silent (fun s t => e.invoke.Leads s t ∨ d.invoke.Leads s t) (e.map2 d fun a b => f a b) := by
  have he := consistsOf_part fun s t (h : e.invoke.Leads s t) =>
    (Or.inl h : e.invoke.Leads s t ∨ d.invoke.Leads s t)
  have hd := consistsOf_part fun s t (h : d.invoke.Leads s t) =>
    (Or.inr h : e.invoke.Leads s t ∨ d.invoke.Leads s t)
  exact he.bind fun a => hd.bind fun b => consistsOf_lift (f a b)

/-- The operations that tell of events, when they do, and the operations that do not. -/
structure Emissions (σ : Type) [Tracer σ] : Prop where
  untilTrue (condition : Effect σ Bool) :
    Announces (.loopStarted false .untilTrue) condition.invoke.Leads () (untilStep condition)
      (Effect.untilTrue condition)
  whileTrue {α : Type} (condition : Effect σ Bool) (body : Effect σ α) :
    Announces (.loopStarted false .whileTrue)
      (fun s t => condition.invoke.Leads s t ∨ body.invoke.Leads s t) () (whileStep condition body)
      (Effect.whileTrue condition body)
  /-- The event carries the bounds that the loop was made with. -/
  forRange {α : Type} (low high : Fixed .i32) (step : Fixed .i32 → Computation σ (Effect σ α)) :
    Announces (.loopStarted false (.forRange low.val high.val))
      (fun s t => ∃ i, low.val ≤ i.val ∧ i.val < high.val ∧ (enter (step i)).Leads s t) low
      (rangeStep high step) (Effect.forRange low high step)
  /-- The event carries the number of the items. -/
  forItems {α β : Type} (items : List α) (action : α → Computation σ (Effect σ β)) :
    Announces (.loopStarted false (.forEach items.length))
      (fun s t => ∃ a ∈ items, (enter (action a)).Leads s t) items (itemStep action)
      (Effect.forItems items action)
  /-- To make a loop is to take its items, which tells of nothing else than they do. -/
  forEach {α β : Type} (source : List (Computation σ α))
    (action : α → Computation σ (Effect σ β)) :
    MadeOfItems source (Effect.forItems · action) (Effect.forEach source action)
  tryUntil {ε : Type} (condition : Effect σ (Except ε Bool)) :
    Announces (.loopStarted true .untilTrue) condition.invoke.Leads () (tryUntilStep condition)
      (Effect.tryUntil condition)
  tryWhile {α ε : Type} (condition : Effect σ (Except ε Bool)) (body : Effect σ (Except ε α)) :
    Announces (.loopStarted true .whileTrue)
      (fun s t => condition.invoke.Leads s t ∨ body.invoke.Leads s t) ()
      (tryWhileStep condition body) (Effect.tryWhile condition body)
  tryForRange {α ε : Type} (low high : Fixed .i32)
    (step : Fixed .i32 → Computation σ (Effect σ (Except ε α))) :
    Announces (.loopStarted true (.forRange low.val high.val))
      (fun s t => ∃ i, low.val ≤ i.val ∧ i.val < high.val ∧ (enter (step i)).Leads s t) low
      (tryRangeStep high step) (Effect.tryForRange low high step)
  tryForItems {α β ε : Type} (items : List α)
    (action : α → Computation σ (Effect σ (Except ε β))) :
    Announces (.loopStarted true (.forEach items.length))
      (fun s t => ∃ a ∈ items, (enter (action a)).Leads s t) items (tryItemStep action)
      (Effect.tryForItems items action)
  tryForEach {α β ε : Type} (source : List (Computation σ α))
    (action : α → Computation σ (Effect σ (Except ε β))) :
    MadeOfItems source (Effect.tryForItems · action) (Effect.tryForEach source action)
  /-- A guarded invocation tells of the panic that it caught, when all else has been done. -/
  guarded {α : Type} (e : Effect σ α) {s : σ} {r : Except Panic (Except InvocationError α) × σ} :
    e.invokeGuarded.Halts s r ↔
      ∃ o t, e.invoke.Halts s (o, t) ∧ r = (.ok (reported o), afterReport o t)
  pure {α : Type} (a : α) : Silent (fun _ _ => False) (pure a : Effect σ α)
  defer {α : Type} (make : Computation σ (Effect σ α)) : Silent (enter make).Leads (defer make)
  bind {α β : Type} (e : Effect σ α) (f : α → Computation σ (Effect σ β)) :
    Silent (fun s t => e.invoke.Leads s t ∨ ∃ a, (enter (f a)).Leads s t) (e.bind f)
  map {α β : Type} (e : Effect σ α) (f : α → Computation σ β) :
    Silent (fun s t => e.invoke.Leads s t ∨ ∃ a, (f a).Leads s t) (e.map f)
  andThen {α β : Type} (e : Effect σ α) (d : Effect σ β) :
    Silent (fun s t => e.invoke.Leads s t ∨ d.invoke.Leads s t) (e.andThen d)
  map2 {α β γ : Type} (e : Effect σ α) (d : Effect σ β) (f : α → β → Computation σ γ) :
    Silent (fun s t => e.invoke.Leads s t ∨ d.invoke.Leads s t ∨ ∃ a b, (f a b).Leads s t)
      (e.map2 d f)
  product {α β : Type} (e : Effect σ α) (d : Effect σ β) :
    Silent (fun s t => e.invoke.Leads s t ∨ d.invoke.Leads s t) (e.product d)
  /-- Of all functions those are applied that `functions` yields. -/
  apply {α β : Type} (functions : Effect σ (α → Computation σ β)) (e : Effect σ α) :
    Silent (fun s t => functions.invoke.Leads s t ∨ e.invoke.Leads s t ∨
      ∃ f a u v, functions.invoke.Halts u (.ok f, v) ∧ (f a).Leads s t) (functions.apply e)
  void {α : Type} (e : Effect σ α) : Silent e.invoke.Leads e.void
  replace {α β : Type} (e : Effect σ α) (b : β) : Silent e.invoke.Leads (e.replace b)
  /-- What is not selected is not invoked. -/
  when (condition : Bool) (e : Effect σ Unit) :
    Silent (fun s t => condition = true ∧ e.invoke.Leads s t) (when condition e)
  whenNot (condition : Bool) (e : Effect σ Unit) :
    Silent (fun s t => condition = false ∧ e.invoke.Leads s t) (whenNot condition e)
  forever {α β : Type} (e : Effect σ α) : Silent e.invoke.Leads (e.forever : Effect σ β)
  iterate {α β : Type} (a : α) (step : α → Computation σ (Effect σ (Turn α β))) :
    Silent (fun s t => ∃ a, (enter (step a)).Leads s t) (iterate a step)
  combine {α : Type} [Semigroup α] (e d : Effect σ α) : ∃ both : Effect σ α,
    Semigroup.combine e d = .ok both ∧
      Silent (fun s t => e.invoke.Leads s t ∨ d.invoke.Leads s t) both
  add {α : Type} [Arithmetic α] (e d : Effect σ α) :
    Silent (fun s t => e.invoke.Leads s t ∨ d.invoke.Leads s t) (e + d)
  sub {α : Type} [Arithmetic α] (e d : Effect σ α) :
    Silent (fun s t => e.invoke.Leads s t ∨ d.invoke.Leads s t) (e - d)
  mul {α : Type} [Arithmetic α] (e d : Effect σ α) :
    Silent (fun s t => e.invoke.Leads s t ∨ d.invoke.Leads s t) (e * d)
  neg {α : Type} [Arithmetic α] (e : Effect σ α) : Silent e.invoke.Leads (-e)
  andThenOk {α β ε : Type} (e : Effect σ (Except ε α))
    (f : α → Computation σ (Effect σ (Except ε β))) :
    Silent (fun s t => e.invoke.Leads s t ∨ ∃ a, (enter (f a)).Leads s t) (e.andThenOk f)
  mapOk {α β ε : Type} (e : Effect σ (Except ε α)) (f : α → Computation σ β) :
    Silent (fun s t => e.invoke.Leads s t ∨ ∃ a, (f a).Leads s t) (e.mapOk f)

/-- A loop with a condition, a range or items announces each of its invocations, a guarded one tells
of its panic, and the other methods tell of nothing. -/
theorem emissions [Tracer σ] : Emissions σ where
  untilTrue c := announces_of_equiv (untilTrue_equiv_iterate c)
    (consistsOf_untilTrue (consistsOf_part fun _ _ h => h)) _
  whileTrue c b := announces_of_equiv (whileTrue_equiv_iterate c b)
    (consistsOf_whileTrue (consistsOf_part fun _ _ h => .inl h)
      (consistsOf_part fun _ _ h => .inr h)) _
  forRange low high step := announces_of_equiv (forRange_equiv_iterate low high step)
    (consistsOf_forRange fun i hlow hhigh => consistsOf_part fun _ _ h => ⟨i, hlow, hhigh, h⟩) _
  forItems items action := announces_of_equiv (forItems_equiv_iterate items action)
    (consistsOf_forEach fun a ha => consistsOf_part fun _ _ h => ⟨a, ha, h⟩) _
  forEach source action := madeOfItems source (Effect.forItems · action)
  tryUntil c := announces_of_equiv (tryUntil_equiv_iterate c)
    (consistsOf_tryUntil (consistsOf_part fun _ _ h => h)) _
  tryWhile c b := announces_of_equiv (tryWhile_equiv_iterate c b)
    (consistsOf_tryWhile (consistsOf_part fun _ _ h => .inl h)
      (consistsOf_part fun _ _ h => .inr h)) _
  tryForRange low high step := announces_of_equiv (tryForRange_equiv_iterate low high step)
    (consistsOf_tryForRange fun i hlow hhigh => consistsOf_part fun _ _ h => ⟨i, hlow, hhigh, h⟩) _
  tryForItems items action := announces_of_equiv (tryForItems_equiv_iterate items action)
    (consistsOf_tryForEach fun a ha => consistsOf_part fun _ _ h => ⟨a, ha, h⟩) _
  tryForEach source action := madeOfItems source (Effect.tryForItems · action)
  guarded _ := halts_invokeGuarded_iff
  pure a := consistsOf_pure a
  defer make := consistsOf_part fun _ _ h => h
  bind e f :=
    (consistsOf_part fun _ _ h => .inl h).bind fun a => consistsOf_part fun _ _ h => .inr ⟨a, h⟩
  map e f :=
    (consistsOf_part fun _ _ h => .inl h).bind fun a => consistsOf_part fun _ _ h => .inr ⟨a, h⟩
  andThen e d :=
    (consistsOf_part fun _ _ h => .inl h).bind fun _ => consistsOf_part fun _ _ h => .inr h
  map2 e d f :=
    (consistsOf_part fun _ _ h => .inl h).bind fun a =>
      (consistsOf_part fun _ _ h => .inr (.inl h)).bind fun b =>
      consistsOf_part fun _ _ h => .inr (.inr ⟨a, b, h⟩)
  product e d := silent_map2_lift e d fun a b => .ok (a, b)
  apply functions e := by
    refine (consistsOf_part fun _ _ h => .inl h).bind_of_halts fun f u v hf => ?_
    exact (consistsOf_part fun _ _ h => .inr (.inl h)).bind fun a =>
      consistsOf_part fun _ _ h => .inr (.inr ⟨f, a, u, v, hf, h⟩)
  void e := (consistsOf_part fun _ _ h => h).bind fun _ => consistsOf_pure ()
  replace e b := (consistsOf_part fun _ _ h => h).bind fun _ => consistsOf_pure b
  when condition e := by
    cases condition with
    | true => exact consistsOf_part fun _ _ h => ⟨rfl, h⟩
    | false => exact consistsOf_pure ()
  whenNot condition e := by
    cases condition with
    | true => exact consistsOf_pure ()
    | false => exact consistsOf_part fun _ _ h => ⟨rfl, h⟩
  forever e := consistsOf_forever (consistsOf_part fun _ _ h => h)
  iterate a step := .iterate (fun a => consistsOf_part fun _ _ h => ⟨a, h⟩) a
  combine e d := ⟨_, rfl, silent_map2_lift e d Semigroup.combine⟩
  add e d := silent_map2_lift e d Arithmetic.add
  sub e d := silent_map2_lift e d Arithmetic.sub
  mul e d := silent_map2_lift e d Arithmetic.mul
  neg e := (consistsOf_part fun _ _ h => h).bind fun a => consistsOf_lift (Arithmetic.neg a)
  andThenOk e f := by
    refine (consistsOf_part fun _ _ h => .inl h).bind fun r => ?_
    cases r with
    | ok a => exact consistsOf_part fun _ _ h => .inr ⟨a, h⟩
    | error error => exact consistsOf_pure _
  mapOk e f := by
    refine (consistsOf_part fun _ _ h => .inl h).bind fun r => ?_
    cases r with
    | ok a =>
      exact (consistsOf_part fun _ _ h => .inr ⟨a, h⟩).bind fun _ => consistsOf_pure _
    | error error => exact consistsOf_pure _

end Effect

end Deferred
