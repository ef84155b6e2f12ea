import Deferred.Proofs.Ranges

/-!
# Loops in two halves

A loop over a list or a range can be split anywhere into two loops, the one sequenced after the
other: `andThen` for plain loops, and `andThenOk` for fallible ones. Both halves tell of their
start, which is all that tells them from the whole loop. Where the first half is broken off, the
second one is never begun, and where the second one is, that is the end of both (`Effect.Splits`,
`Effect.TrySplits`).
-/

namespace Deferred

variable {σ α β ε : Type}

open Deferred.Computation

namespace Effect

/-- Going on after a success enters the continuation, and an error skips it. -/
theorem invoke_andThenOk (e : Effect σ (Except ε α))
    (f : α → Computation σ (Effect σ (Except ε β))) :
    (e.andThenOk f).invoke = e.invoke >>= orError fun a => enter (f a) := by
  refine congrArg (e.invoke >>= ·) (funext fun r => ?_)
  cases r <;> rfl

variable [Tracer σ]

/-! ## Halves of plain loops -/

/-- Two loops over `xs` and `ys`, one after the other, beside one over both. `noted` are the two
loops with notes. -/
structure Splits (first second : Event) (xs ys : List α) (make : α → Computation σ (Effect σ β))
    (halves whole : Effect σ Unit) (noted : Effect (Watched σ (Moment α)) Unit) : Prop where
  /-- But for the events of their starts, the halves are the whole. -/
  same_unseen : SameUnseen (fun same => ∀ a, (enter (make a)).Respects same) halves whole
  /-- If they return, every item had its turn, in order. -/
  returns_noted_iff {w w' : Watched σ (Moment α)} : noted.invoke.Halts w (.ok (), w') ↔
    ∃ u t, Passes (Yields fun a => enter (make a)) xs (Tracer.emit first w.state) u ∧
      Passes (Yields fun a => enter (make a)) ys (Tracer.emit second u) t ∧
      w' = ⟨t, w.notes ++ (xs ++ ys).flatMap Moment.course⟩
  /-- The first panic, in either half, is that of both, and after it no item has its turn. -/
  panics_noted_iff {w w' : Watched σ (Moment α)} {p : Panic} : noted.invoke.Halts w (.error p, w') ↔
    (∃ done a u, Reaches (Yields fun a => enter (make a)) xs (Tracer.emit first w.state) done a u ∧
      PanicsNoted make a u (w.notes ++ done.flatMap Moment.course) p w') ∨
    ∃ t done a u, Passes (Yields fun a => enter (make a)) xs (Tracer.emit first w.state) t ∧
      Reaches (Yields fun a => enter (make a)) ys (Tracer.emit second t) done a u ∧
      PanicsNoted make a u (w.notes ++ (xs ++ done).flatMap Moment.course) p w'
  /-- Taking notes changes nothing else. -/
  alike_noted : Alike Watched.Of Eq halves.invoke noted.invoke

section

variable {first second : Event} {xs ys : List α} {make : α → Computation σ (Effect σ β)}

/-- The notes of the halves are those of the first one, and those of the second one if it is
begun. -/
theorem splits_of_traverses {loop loop' whole : Effect σ Unit}
    {noted noted' : Effect (Watched σ (Moment α)) Unit}
    (hfirst : Traverses first xs make loop noted) (hsecond : Traverses second ys make loop' noted')
    (hsame : SameUnseen (fun same => ∀ a, (enter (make a)).Respects same) (loop.andThen loop')
      whole) :
    Splits first second xs ys make (loop.andThen loop') whole (noted.andThen noted') where
  same_unseen := hsame
  returns_noted_iff := by
    intro w w'
    rw [invoke_andThen, halts_bind_value_iff]
    constructor
    · rintro ⟨⟨⟩, _, hxs, hys⟩
      obtain ⟨u, hpasses, rfl⟩ := hfirst.returns_noted_iff.1 hxs
      obtain ⟨t, hpasses', rfl⟩ := hsecond.returns_noted_iff.1 hys
      refine ⟨u, t, hpasses, hpasses', ?_⟩
      rw [List.flatMap_append, List.append_assoc]
    · rintro ⟨u, t, hpasses, hpasses', rfl⟩
      refine ⟨(), _, hfirst.returns_noted_iff.2 ⟨u, hpasses, rfl⟩,
        hsecond.returns_noted_iff.2 ⟨t, hpasses', ?_⟩⟩
      rw [List.flatMap_append, List.append_assoc]
  panics_noted_iff := by
    intro w w' p
    rw [invoke_andThen, halts_bind_panic_iff, hfirst.panics_noted_iff]
    refine or_congr_right ⟨?_, ?_⟩
    · rintro ⟨⟨⟩, _, hxs, hys⟩
      obtain ⟨t, hpasses, rfl⟩ := hfirst.returns_noted_iff.1 hxs
      obtain ⟨done, a, u, hreaches, hpanics⟩ := hsecond.panics_noted_iff.1 hys
      refine ⟨t, done, a, u, hpasses, hreaches, ?_⟩
      rwa [List.flatMap_append, ← List.append_assoc]
    · rintro ⟨t, done, a, u, hpasses, hreaches, hpanics⟩
      rw [List.flatMap_append, ← List.append_assoc] at hpanics
      exact ⟨(), _, hfirst.returns_noted_iff.2 ⟨t, hpasses, rfl⟩,
        hsecond.panics_noted_iff.2 ⟨done, a, u, hreaches, hpanics⟩⟩
  alike_noted := hfirst.alike_noted.bind fun _ _ _ => hsecond.alike_noted

/-- What goes through `xs` and then through `ys` goes through both lists. -/
theorem sameUnseen_of_forEach {event : Event} {x y z : Computation σ Unit}
    (hx : x = Computation.forEach xs fun a => enter (make a))
    (hy : y = Computation.forEach ys fun a => enter (make a))
    (hz : z = Computation.forEach (xs ++ ys) fun a => enter (make a)) :
    SameUnseen (fun same => ∀ a, (enter (make a)).Respects same)
      (andThen ⟨emit first >>= fun _ => x⟩ ⟨emit second >>= fun _ => y⟩)
      ⟨emit event >>= fun _ => z⟩ := by
  refine sameUnseen_of_alike (fun same hsame hmake => ?_) fun a => alike_eq_refl _
  rw [invoke_andThen, hx, hy, hz, forEach_append]
  have hxs := hsame.alike_emit_left first (alike_forItems xs hmake)
  have hys := hsame.alike_emit_left second (alike_forItems ys hmake)
  exact hsame.alike_emit_right event (hxs.bind fun _ _ _ => hys)

end

/-! ## Halves of fallible loops -/

/-- The same for loops that go on after successes only. -/
structure TrySplits (first second : Event) (xs ys : List α)
    (make : α → Computation σ (Effect σ (Except ε β))) (halves whole : Effect σ (Except ε Unit))
    (noted : Effect (Watched σ (Moment α)) (Except ε Unit)) : Prop where
  same_unseen : SameUnseen (fun same => ∀ a, (enter (make a)).Respects same) halves whole
  succeeds_noted_iff {w w' : Watched σ (Moment α)} : noted.invoke.Halts w (.ok (.ok ()), w') ↔
    ∃ u t, Passes (Succeeds fun a => enter (make a)) xs (Tracer.emit first w.state) u ∧
      Passes (Succeeds fun a => enter (make a)) ys (Tracer.emit second u) t ∧
      w' = ⟨t, w.notes ++ (xs ++ ys).flatMap Moment.course⟩
  /-- The first error, in either half, is that of both, and after it no item has its turn. -/
  fails_noted_iff {w w' : Watched σ (Moment α)} {error : ε} :
    noted.invoke.Halts w (.ok (.error error), w') ↔
      (∃ done a u t,
        Reaches (Succeeds fun a => enter (make a)) xs (Tracer.emit first w.state) done a u ∧
        (enter (make a)).Halts u (.ok (.error error), t) ∧
        w' = ⟨t, w.notes ++ (done ++ [a]).flatMap Moment.course⟩) ∨
      ∃ v done a u t, Passes (Succeeds fun a => enter (make a)) xs (Tracer.emit first w.state) v ∧
        Reaches (Succeeds fun a => enter (make a)) ys (Tracer.emit second v) done a u ∧
        (enter (make a)).Halts u (.ok (.error error), t) ∧
        w' = ⟨t, w.notes ++ (xs ++ (done ++ [a])).flatMap Moment.course⟩
  /-- And so is the first panic. -/
  panics_noted_iff {w w' : Watched σ (Moment α)} {p : Panic} : noted.invoke.Halts w (.error p, w') ↔
    (∃ done a u,
      Reaches (Succeeds fun a => enter (make a)) xs (Tracer.emit first w.state) done a u ∧
      PanicsNoted make a u (w.notes ++ done.flatMap Moment.course) p w') ∨
    ∃ t done a u, Passes (Succeeds fun a => enter (make a)) xs (Tracer.emit first w.state) t ∧
      Reaches (Succeeds fun a => enter (make a)) ys (Tracer.emit second t) done a u ∧
      PanicsNoted make a u (w.notes ++ (xs ++ done).flatMap Moment.course) p w'
  alike_noted : Alike Watched.Of Eq halves.invoke noted.invoke

section

variable {first second : Event} {xs ys : List α} {make : α → Computation σ (Effect σ (Except ε β))}

/-- Two fallible loops in a row, which traverse two lists, split one that traverses both. -/
theorem trySplits_of_traverses {loop loop' whole : Effect σ (Except ε Unit)}
    {noted noted' : Effect (Watched σ (Moment α)) (Except ε Unit)}
    (hfirst : TryTraverses first xs make loop noted)
    (hsecond : TryTraverses second ys make loop' noted')
    (hsame : SameUnseen (fun same => ∀ a, (enter (make a)).Respects same)
      (loop.andThenOk fun _ => return loop') whole) :
    TrySplits first second xs ys make (loop.andThenOk fun _ => return loop') whole
      (noted.andThenOk fun _ => return noted') where
  same_unseen := hsame
  succeeds_noted_iff := by
    intro w w'
    rw [invoke_andThenOk, halts_orError_value_iff]
    constructor
    · rintro ⟨⟨⟩, _, hxs, hys⟩
      obtain ⟨u, hpasses, rfl⟩ := hfirst.succeeds_noted_iff.1 hxs
      obtain ⟨t, hpasses', rfl⟩ := hsecond.succeeds_noted_iff.1 hys
      refine ⟨u, t, hpasses, hpasses', ?_⟩
      rw [List.flatMap_append, List.append_assoc]
    · rintro ⟨u, t, hpasses, hpasses', rfl⟩
      refine ⟨(), _, hfirst.succeeds_noted_iff.2 ⟨u, hpasses, rfl⟩,
        hsecond.succeeds_noted_iff.2 ⟨t, hpasses', ?_⟩⟩
      rw [List.flatMap_append, List.append_assoc]
  fails_noted_iff := by
    intro w w' error
    have hnotes : ∀ done : List α, (xs ++ done).flatMap Moment.course =
        xs.flatMap Moment.course ++ done.flatMap Moment.course := fun _ => List.flatMap_append
    rw [invoke_andThenOk, halts_orError_error_iff, hfirst.fails_noted_iff]
    refine or_congr_right ⟨?_, ?_⟩
    · rintro ⟨⟨⟩, _, hxs, hys⟩
      obtain ⟨v, hpasses, rfl⟩ := hfirst.succeeds_noted_iff.1 hxs
      obtain ⟨done, a, u, t, hreaches, hlast, rfl⟩ := hsecond.fails_noted_iff.1 hys
      refine ⟨v, done, a, u, t, hpasses, hreaches, hlast, ?_⟩
      rw [hnotes, List.append_assoc]
    · rintro ⟨v, done, a, u, t, hpasses, hreaches, hlast, rfl⟩
      refine ⟨(), _, hfirst.succeeds_noted_iff.2 ⟨v, hpasses, rfl⟩,
        hsecond.fails_noted_iff.2 ⟨done, a, u, t, hreaches, hlast, ?_⟩⟩
      rw [hnotes, List.append_assoc]
  panics_noted_iff := by
    intro w w' p
    rw [invoke_andThenOk, halts_orError_panic_iff, hfirst.panics_noted_iff]
    refine or_congr_right ⟨?_, ?_⟩
    · rintro ⟨⟨⟩, _, hxs, hys⟩
      obtain ⟨t, hpasses, rfl⟩ := hfirst.succeeds_noted_iff.1 hxs
      obtain ⟨done, a, u, hreaches, hpanics⟩ := hsecond.panics_noted_iff.1 hys
      refine ⟨t, done, a, u, hpasses, hreaches, ?_⟩
      rwa [List.flatMap_append, ← List.append_assoc]
    · rintro ⟨t, done, a, u, hpasses, hreaches, hpanics⟩
      rw [List.flatMap_append, ← List.append_assoc] at hpanics
      exact ⟨(), _, hfirst.succeeds_noted_iff.2 ⟨t, hpasses, rfl⟩,
        hsecond.panics_noted_iff.2 ⟨done, a, u, hreaches, hpanics⟩⟩
  alike_noted := by
    rw [invoke_andThenOk, invoke_andThenOk]
    refine hfirst.alike_noted.bind_eq fun r => ?_
    cases r with
    | ok _ => exact hsecond.alike_noted
    | error error => exact alike_pure rfl

/-- But for their events, two fallible loops in a row are one over both lists. -/
theorem sameUnseen_of_tryForEach {event : Event} {x y z : Computation σ (Except ε Unit)}
    (hx : x = Computation.tryForEach xs fun a => enter (make a))
    (hy : y = Computation.tryForEach ys fun a => enter (make a))
    (hz : z = Computation.tryForEach (xs ++ ys) fun a => enter (make a)) :
    SameUnseen (fun same => ∀ a, (enter (make a)).Respects same)
      (andThenOk ⟨emit first >>= fun _ => x⟩ fun _ => return ⟨emit second >>= fun _ => y⟩)
      ⟨emit event >>= fun _ => z⟩ := by
  refine sameUnseen_of_alike (fun same hsame hmake => ?_) fun a => alike_eq_refl _
  rw [invoke_andThenOk, hx, hy, hz, tryForEach_append]
  have hxs := hsame.alike_emit_left first (alike_tryForItems xs hmake)
  have hys := hsame.alike_emit_left second (alike_tryForItems ys hmake)
  refine hsame.alike_emit_right event (hxs.bind_eq fun r => ?_)
  cases r with
  | ok _ => exact hys
  | error error => exact alike_pure rfl

end

/-! ## All loops with a length -/

/-- Every loop over a range or a list is the loop over a first part of it, and then the one over the
rest. -/
structure LoopsSplit (σ : Type) [Tracer σ] : Prop where
  forRange {α : Type} {a b c : Fixed .i32} (hab : a.val ≤ b.val) (hbc : b.val ≤ c.val)
    (step : Fixed .i32 → Computation σ (Effect σ α)) :
    Splits (.loopStarted false (.forRange a.val b.val)) (.loopStarted false (.forRange b.val c.val))
      (indices a b) (indices b c) step
      ((Effect.forRange a b step).andThen (Effect.forRange b c step))
      (Effect.forRange a c step)
      ((Effect.forRange a b (notedEach step)).andThen (Effect.forRange b c (notedEach step)))
  forEach {α β : Type} (xs ys : List α) (action : α → Computation σ (Effect σ β)) :
    Splits (.loopStarted false (.forEach xs.length)) (.loopStarted false (.forEach ys.length))
      xs ys action
      ((forItems xs action).andThen (forItems ys action))
      (forItems (xs ++ ys) action)
      ((forItems xs (notedEach action)).andThen (forItems ys (notedEach action)))
  tryForRange {α ε : Type} {a b c : Fixed .i32} (hab : a.val ≤ b.val) (hbc : b.val ≤ c.val)
    (step : Fixed .i32 → Computation σ (Effect σ (Except ε α))) :
    TrySplits (.loopStarted true (.forRange a.val b.val))
      (.loopStarted true (.forRange b.val c.val)) (indices a b) (indices b c) step
      ((Effect.tryForRange a b step).andThenOk fun _ => return Effect.tryForRange b c step)
      (Effect.tryForRange a c step)
      ((Effect.tryForRange a b (notedEach step)).andThenOk fun _ =>
        return Effect.tryForRange b c (notedEach step))
  tryForEach {α β ε : Type} (xs ys : List α)
    (action : α → Computation σ (Effect σ (Except ε β))) :
    TrySplits (.loopStarted true (.forEach xs.length)) (.loopStarted true (.forEach ys.length))
      xs ys action
      ((tryForItems xs action).andThenOk fun _ => return tryForItems ys action)
      (tryForItems (xs ++ ys) action)
      ((tryForItems xs (notedEach action)).andThenOk fun _ =>
        return tryForItems ys (notedEach action))
  /-- The loops over lists are those that are made of items that are there already. -/
  made {α β : Type} (items : List α) (action : α → Computation σ (Effect σ β)) :
    Effect.forEach (items.map Pure.pure) action = Pure.pure (forItems items action)
  tryMade {α β ε : Type} (items : List α) (action : α → Computation σ (Effect σ (Except ε β))) :
    Effect.tryForEach (items.map Pure.pure) action = Pure.pure (tryForItems items action)

/-- Loops over ranges and over items split at every point. -/
theorem loops_split : LoopsSplit σ where
  forRange := by
    intro α a b c hab hbc step
    refine splits_of_traverses (traverses_forRange a b step) (traverses_forRange b c step) ?_
    refine sameUnseen_of_forEach (forRange_eq_forEach _ _ _) (forRange_eq_forEach _ _ _) ?_
    rw [forRange_eq_forEach, indices_append hab hbc]
  forEach xs ys action :=
    splits_of_traverses (traverses_forItems xs action) (traverses_forItems ys action)
      (sameUnseen_of_forEach rfl rfl rfl)
  tryForRange := by
    intro α ε a b c hab hbc step
    refine trySplits_of_traverses (tryTraverses_tryForRange a b step)
      (tryTraverses_tryForRange b c step) ?_
    refine sameUnseen_of_tryForEach (tryForRange_eq_tryForEach _ _ _)
      (tryForRange_eq_tryForEach _ _ _) ?_
    rw [tryForRange_eq_tryForEach, indices_append hab hbc]
  tryForEach xs ys action :=
    trySplits_of_traverses (tryTraverses_tryForItems xs action)
      (tryTraverses_tryForItems ys action) (sameUnseen_of_tryForEach rfl rfl rfl)
  made := forEach_map_pure
  tryMade := tryForEach_map_pure

end Effect

end Deferred
