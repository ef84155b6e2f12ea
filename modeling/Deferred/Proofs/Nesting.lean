import Deferred.Proofs.Ranges

/-!
# Loops in loops

A loop whose body is a loop goes through pairs: the items of the outer loop in order, each with
those that the inner loop goes through. It runs as the one loop over the list of these pairs
(`Effect.nested_loops_flatten`), but for the events that the inner loops start with. An error or a
panic at one of the pairs is the end of the inner loop and of the outer one.

What either loop goes through is its `Extent`, a range of indices or a list of items. That of the
inner loop may depend on the outer item.
-/

namespace Deferred

variable {σ α β γ ε κ : Type}

open Deferred.Computation

/-! ## What a loop goes through -/

/-- What a loop with a length goes through. -/
inductive Extent : Type → Type 1 where
  | range (low high : Fixed .i32) : Extent (Fixed .i32)
  | items {α : Type} (as : List α) : Extent α

namespace Extent

/-- The indices or the items, in order. -/
def list : {α : Type} → Extent α → List α
  | _, range low high => indices low high
  | _, items as => as

/-- The event that an invocation of the loop starts with. -/
def start (fallible : Bool) : {α : Type} → Extent α → Event
  | _, range low high => .loopStarted fallible (.forRange low.val high.val)
  | _, items as => .loopStarted fallible (.forEach as.length)

/-- The items in order, each paired in order with what an inner loop goes through. -/
def pairs (inner : α → Extent β) (as : List α) : List (α × β) :=
  as.flatMap fun a => (inner a).list.map fun b => (a, b)

variable [Tracer σ]

/-- Makes the loop. -/
def loop : {α : Type} → Extent α → (α → Computation σ (Effect σ β)) →
    Computation σ (Effect σ Unit)
  | _, range low high, step => return Effect.forRange low high step
  | _, items as, action => Effect.forEach (as.map pure) action

/-- Makes the fallible loop. -/
def tryLoop : {α : Type} → Extent α → (α → Computation σ (Effect σ (Except ε β))) →
    Computation σ (Effect σ (Except ε Unit))
  | _, range low high, step => return Effect.tryForRange low high step
  | _, items as, action => Effect.tryForEach (as.map pure) action

/-- What an invocation of the loop does. -/
def goThrough (extent : Extent α) (f : α → Computation σ β) : Computation σ Unit := do
  emit (extent.start false)
  Computation.forEach extent.list f

/-- What an invocation of the fallible loop does. -/
def tryGoThrough (extent : Extent α) (f : α → Computation σ (Except ε β)) :
    Computation σ (Except ε Unit) := do
  emit (extent.start true)
  Computation.tryForEach extent.list f

theorem loop_eq (extent : Extent α) (action : α → Computation σ (Effect σ β)) :
    extent.loop action = pure (Effect.mk (extent.goThrough fun a => Effect.enter (action a))) := by
  cases extent with
  | range low high =>
    rw [loop, goThrough, list, ← forRange_eq_forEach]
    rfl
  | items as => exact Effect.forEach_map_pure as action

theorem tryLoop_eq (extent : Extent α) (action : α → Computation σ (Effect σ (Except ε β))) :
    extent.tryLoop action =
      pure (Effect.mk (extent.tryGoThrough fun a => Effect.enter (action a))) := by
  cases extent with
  | range low high =>
    rw [tryLoop, tryGoThrough, list, ← tryForRange_eq_tryForEach]
    rfl
  | items as => exact Effect.tryForEach_map_pure as action

end Extent

open Extent

/-! ## Loops over lists of lists -/

namespace Computation

theorem forEach_map (as : List α) (g : α → β) (f : β → Computation σ γ) :
    forEach (as.map g) f = forEach as fun a => f (g a) := by
  induction as with
  | nil => rfl
  | cons a as ih => rw [List.map_cons, forEach_cons, forEach_cons, ih]

theorem tryForEach_map (as : List α) (g : α → β) (f : β → Computation σ (Except ε γ)) :
    tryForEach (as.map g) f = tryForEach as fun a => f (g a) := by
  induction as with
  | nil => rfl
  | cons a as ih => rw [List.map_cons, tryForEach_cons, tryForEach_cons, ih]

/-- A loop over a concatenation is a loop within a loop. -/
theorem forEach_flatMap (as : List α) (g : α → List β) (f : β → Computation σ γ) :
    forEach (as.flatMap g) f = forEach as fun a => forEach (g a) f := by
  induction as with
  | nil => rfl
  | cons a as ih => rw [List.flatMap_cons, forEach_append, forEach_cons, ih]

/-- The first error of an inner loop is also the outer one's. -/
theorem tryForEach_flatMap (as : List α) (g : α → List β) (f : β → Computation σ (Except ε γ)) :
    tryForEach (as.flatMap g) f = tryForEach as fun a => tryForEach (g a) f := by
  induction as with
  | nil => rfl
  | cons a as ih => rw [List.flatMap_cons, tryForEach_append, tryForEach_cons, ih]

/-- A loop over all pairs is a loop within a loop. -/
theorem forEach_pairs (inner : α → Extent β) (as : List α) (f : α × β → Computation σ γ) :
    forEach (pairs inner as) f =
      forEach as fun a => forEach (inner a).list fun b => f (a, b) := by
  rw [pairs, forEach_flatMap]
  simp only [forEach_map]

theorem tryForEach_pairs (inner : α → Extent β) (as : List α)
    (f : α × β → Computation σ (Except ε γ)) :
    tryForEach (pairs inner as) f =
      tryForEach as fun a => tryForEach (inner a).list fun b => f (a, b) := by
  rw [pairs, tryForEach_flatMap]
  simp only [tryForEach_map]

/-! ## Turns of an inner loop -/

section

variable [Tracer σ] {fallible : Bool} {outer : Extent α} {inner : α → Extent β}
  {turn : α × β → σ → σ → Prop}

/-- The turn of an outer item: the inner loop starts, and the turns of all its pairs pass. -/
def InnerPasses (fallible : Bool) (inner : α → Extent β) (turn : α × β → σ → σ → Prop) (a : α)
    (s t : σ) : Prop :=
  Passes (fun b => turn (a, b)) (inner a).list (Tracer.emit ((inner a).start fallible) s) t

/-- The loops start in `s`, the turns of the pairs `done` pass, and then it is the turn of `p`. -/
inductive InnerReaches (fallible : Bool) (outer : Extent α) (inner : α → Extent β)
    (turn : α × β → σ → σ → Prop) (s : σ) : List (α × β) → α × β → σ → Prop where
  | intro {as : List α} {a : α} {bs : List β} {b : β} {t u : σ}
    (outside : Reaches (InnerPasses fallible inner turn) outer.list
      (Tracer.emit (outer.start fallible) s) as a t)
    (inside : Reaches (fun b => turn (a, b)) (inner a).list
      (Tracer.emit ((inner a).start fallible) t) bs b u) :
    InnerReaches fallible outer inner turn s (pairs inner as ++ bs.map fun b => (a, b)) (a, b) u

/-- The pairs have their turns in the order of their list. -/
theorem InnerReaches.begins {s t : σ} {done : List (α × β)} {p : α × β}
    (h : InnerReaches fallible outer inner turn s done p t) :
    done ++ [p] <+: pairs inner outer.list := by
  cases h with
  | @intro as a bs b _ _ outside inside =>
    obtain ⟨later, houter⟩ := outside.begins
    obtain ⟨rest, hinner⟩ := inside.begins
    refine ⟨rest.map (fun b => (a, b)) ++ pairs inner later, ?_⟩
    rw [← houter]
    simp only [pairs, List.flatMap_append, List.flatMap_singleton, ← hinner, List.map_append,
      List.map_singleton, List.append_assoc]

/-- What happens at a pair that is reached happens in the turn of an outer item that is reached. -/
theorem exists_innerReaches_iff (happens : List (α × β) → α × β → σ → Prop) {s : σ} :
    (∃ done p u, InnerReaches fallible outer inner turn s done p u ∧ happens done p u) ↔
      ∃ as a t, Reaches (InnerPasses fallible inner turn) outer.list
        (Tracer.emit (outer.start fallible) s) as a t ∧
        ∃ bs b u, Reaches (fun b => turn (a, b)) (inner a).list
          (Tracer.emit ((inner a).start fallible) t) bs b u ∧
          happens (pairs inner as ++ bs.map fun b => (a, b)) (a, b) u := by
  constructor
  · rintro ⟨_, _, u, ⟨outside, inside⟩, h⟩
    exact ⟨_, _, _, outside, _, _, u, inside, h⟩
  · rintro ⟨as, a, t, outside, bs, b, u, inside, h⟩
    exact ⟨_, (a, b), u, ⟨outside, inside⟩, h⟩

variable {turn' : α × β → Watched σ κ → Watched σ κ → Prop} {notes : α × β → List κ}

/-- The notes of an inner loop are those of its pairs. -/
theorem innerPasses_noted_iff
    (hturn : ∀ p w w', turn' p w w' ↔ ∃ t, turn p w.state t ∧ w' = ⟨t, w.notes ++ notes p⟩) (a : α)
    (w w' : Watched σ κ) :
    InnerPasses fallible inner turn' a w w' ↔
      ∃ t, InnerPasses fallible inner turn a w.state t ∧
        w' = ⟨t, w.notes ++ ((inner a).list.map fun b => (a, b)).flatMap notes⟩ := by
  rw [List.flatMap_map]
  exact passes_noted_iff fun b => hturn (a, b)

/-- With notes the loops get to the same pair, and the pairs before it are noted. -/
theorem innerReaches_noted_iff
    (hturn : ∀ p w w', turn' p w w' ↔ ∃ t, turn p w.state t ∧ w' = ⟨t, w.notes ++ notes p⟩)
    {w w' : Watched σ κ} {done : List (α × β)} {p : α × β} :
    InnerReaches fallible outer inner turn' w done p w' ↔
      ∃ t, InnerReaches fallible outer inner turn w.state done p t ∧
        w' = ⟨t, w.notes ++ done.flatMap notes⟩ := by
  have hnotes : ∀ (as : List α) (a : α) (bs : List β),
      as.flatMap (fun a => ((inner a).list.map fun b => (a, b)).flatMap notes) ++
        bs.flatMap (fun b => notes (a, b)) =
      (pairs inner as ++ bs.map fun b => (a, b)).flatMap notes := by
    intro as a bs
    rw [List.flatMap_append, pairs, List.flatMap_assoc, List.flatMap_map]
  constructor
  · rintro ⟨outside, inside⟩
    obtain ⟨t, houter, rfl⟩ := (reaches_noted_iff (innerPasses_noted_iff hturn)).1 outside
    obtain ⟨u, hinner, rfl⟩ := (reaches_noted_iff fun b => hturn (_, b)).1 inside
    refine ⟨u, ⟨houter, hinner⟩, congrArg (Watched.mk u) ?_⟩
    rw [← hnotes, ← List.append_assoc]
    rfl
  · rintro ⟨u, ⟨outside, inside⟩, rfl⟩
    refine .intro ((reaches_noted_iff (innerPasses_noted_iff hturn)).2 ⟨_, outside, rfl⟩)
      ((reaches_noted_iff fun b => hturn (_, b)).2 ⟨u, inside, congrArg (Watched.mk u) ?_⟩)
    rw [← hnotes, ← List.append_assoc]
    rfl

/-- What happens at a pair that is reached happens after the notes of those before it. -/
theorem exists_innerReaches_noted_iff
    (hturn : ∀ p w w', turn' p w w' ↔ ∃ t, turn p w.state t ∧ w' = ⟨t, w.notes ++ notes p⟩)
    {w : Watched σ κ} (happens : α × β → Watched σ κ → Prop) :
    (∃ done p v, InnerReaches fallible outer inner turn' w done p v ∧ happens p v) ↔
      ∃ done p u, InnerReaches fallible outer inner turn w.state done p u ∧
        happens p ⟨u, w.notes ++ done.flatMap notes⟩ := by
  simp only [innerReaches_noted_iff hturn, Watched.exists_iff]

end

/-! ## Endings of a loop in a loop -/

section

variable [Tracer σ] {outer : Extent α} {inner : α → Extent β} {s t : σ}

/-- A turn of the outer loop is a pass through the inner one. -/
theorem yields_goThrough (f : α × β → Computation σ γ) :
    Yields (fun a => (inner a).goThrough fun b => f (a, b)) =
      InnerPasses false inner (Yields f) := by
  funext a s t
  refine propext ⟨?_, fun h => ⟨(), ?_⟩⟩
  · rintro ⟨⟨⟩, h⟩
    exact halts_forEach_value_iff.1 ((resumes_emit _ s _).1 h)
  · exact (resumes_emit _ s _).2 (halts_forEach_value_iff.2 h)

theorem succeeds_tryGoThrough (f : α × β → Computation σ (Except ε γ)) :
    Succeeds (fun a => (inner a).tryGoThrough fun b => f (a, b)) =
      InnerPasses true inner (Succeeds f) := by
  funext a s t
  refine propext ⟨?_, fun h => ⟨(), ?_⟩⟩
  · rintro ⟨⟨⟩, h⟩
    exact halts_tryForEach_value_iff.1 ((resumes_emit _ s _).1 h)
  · exact (resumes_emit _ s _).2 (halts_tryForEach_value_iff.2 h)

section

variable {f : α × β → Computation σ γ}

/-- The nested loops return exactly if every turn of the outer one passes through the inner one. -/
theorem halts_nested_value_iff :
    (outer.goThrough fun a => (inner a).goThrough fun b => f (a, b)).Halts s (.ok (), t) ↔
      Passes (InnerPasses false inner (Yields f)) outer.list
        (Tracer.emit (outer.start false) s) t := by
  rw [goThrough, resumes_emit, halts_forEach_value_iff, yields_goThrough]

/-- The panic of a pair is that of the inner loop, and of the outer one. -/
theorem halts_nested_panic_iff {p : Panic} :
    (outer.goThrough fun a => (inner a).goThrough fun b => f (a, b)).Halts s (.error p, t) ↔
      ∃ done q u, InnerReaches false outer inner (Yields f) s done q u ∧
        (f q).Halts u (.error p, t) := by
  rw [goThrough, resumes_emit, halts_forEach_panic_iff, yields_goThrough,
    exists_innerReaches_iff fun _ q u => (f q).Halts u (.error p, t)]
  simp only [goThrough, resumes_emit _ _ _, halts_forEach_panic_iff]
  rfl

end

section

variable {f : α × β → Computation σ (Except ε γ)}

theorem halts_tryNested_value_iff :
    (outer.tryGoThrough fun a => (inner a).tryGoThrough fun b => f (a, b)).Halts s
        (.ok (.ok ()), t) ↔
      Passes (InnerPasses true inner (Succeeds f)) outer.list
        (Tracer.emit (outer.start true) s) t := by
  rw [tryGoThrough, resumes_emit, halts_tryForEach_value_iff, succeeds_tryGoThrough]

/-- The error of a pair is that of the inner loop, and of the outer one. -/
theorem halts_tryNested_error_iff {e : ε} :
    (outer.tryGoThrough fun a => (inner a).tryGoThrough fun b => f (a, b)).Halts s
        (.ok (.error e), t) ↔
      ∃ done q u, InnerReaches true outer inner (Succeeds f) s done q u ∧
        (f q).Halts u (.ok (.error e), t) := by
  rw [tryGoThrough, resumes_emit, halts_tryForEach_error_iff, succeeds_tryGoThrough,
    exists_innerReaches_iff fun _ q u => (f q).Halts u (.ok (.error e), t)]
  simp only [tryGoThrough, resumes_emit _ _ _, halts_tryForEach_error_iff]
  rfl

/-- The loops panic exactly if some pair does, and all pairs before it succeeded. -/
theorem halts_tryNested_panic_iff {p : Panic} :
    (outer.tryGoThrough fun a => (inner a).tryGoThrough fun b => f (a, b)).Halts s (.error p, t) ↔
      ∃ done q u, InnerReaches true outer inner (Succeeds f) s done q u ∧
        (f q).Halts u (.error p, t) := by
  rw [tryGoThrough, resumes_emit, halts_tryForEach_panic_iff, succeeds_tryGoThrough,
    exists_innerReaches_iff fun _ q u => (f q).Halts u (.error p, t)]
  simp only [tryGoThrough, resumes_emit _ _ _, halts_tryForEach_panic_iff]
  rfl

end

end

end Computation

namespace Effect

variable [Tracer σ] {outer : Extent α} {inner : α → Extent β}

/-! ## Loops whose bodies run alike -/

theorem alike_goThrough (extent : Extent α) {f : α → Computation σ γ}
    {g : α → Computation (Watched σ κ) γ} (h : ∀ a, Alike Watched.Of Eq (f a) (g a)) :
    Alike Watched.Of Eq (extent.goThrough f) (extent.goThrough g) :=
  alike_emit (alike_forItems extent.list (f := fun a => Pure.pure ⟨f a⟩)
    (g := fun a => Pure.pure ⟨g a⟩) h) (extent.start false)

theorem alike_tryGoThrough (extent : Extent α) {f : α → Computation σ (Except ε γ)}
    {g : α → Computation (Watched σ κ) (Except ε γ)} (h : ∀ a, Alike Watched.Of Eq (f a) (g a)) :
    Alike Watched.Of Eq (extent.tryGoThrough f) (extent.tryGoThrough g) :=
  alike_emit (alike_tryForItems extent.list (f := fun a => Pure.pure ⟨f a⟩)
    (g := fun a => Pure.pure ⟨g a⟩) h) (extent.start true)

/-- Whoever sees no events cannot tell the inner loops from their turns. -/
theorem alike_nested_flat {same : σ → σ → Prop} (hsame : EventBlind same)
    {action : α × β → Computation σ (Effect σ γ)} (h : ∀ p, (enter (action p)).Respects same) :
    Alike same Eq
      (outer.goThrough fun a => (inner a).goThrough fun b => enter (action (a, b)))
      ((Extent.items (pairs inner outer.list)).goThrough fun p => enter (action p)) := by
  refine hsame.alike_emit_left _ (hsame.alike_emit_right _ ?_)
  rw [Extent.list, forEach_pairs]
  refine alike_forItems outer.list
    (f := fun a => Pure.pure ⟨(inner a).goThrough fun b => enter (action (a, b))⟩)
    (g := fun a => Pure.pure ⟨Computation.forEach (inner a).list fun b => enter (action (a, b))⟩)
    fun a => ?_
  exact hsame.alike_emit_left _ (alike_forItems (inner a).list fun b => h (a, b))

/-- But for their events, the nested and the flat fallible loop do the same. -/
theorem alike_tryNested_flat {same : σ → σ → Prop} (hsame : EventBlind same)
    {action : α × β → Computation σ (Effect σ (Except ε γ))}
    (h : ∀ p, (enter (action p)).Respects same) :
    Alike same Eq
      (outer.tryGoThrough fun a => (inner a).tryGoThrough fun b => enter (action (a, b)))
      ((Extent.items (pairs inner outer.list)).tryGoThrough fun p => enter (action p)) := by
  refine hsame.alike_emit_left _ (hsame.alike_emit_right _ ?_)
  rw [Extent.list, tryForEach_pairs]
  refine alike_tryForItems outer.list
    (f := fun a => Pure.pure ⟨(inner a).tryGoThrough fun b => enter (action (a, b))⟩)
    (g := fun a => Pure.pure ⟨Computation.tryForEach (inner a).list fun b => enter (action (a, b))⟩)
    fun a => ?_
  exact hsame.alike_emit_left _ (alike_tryForItems (inner a).list fun b => h (a, b))

/-! ## One loop in place of two -/

/-- A loop in a loop, beside the one loop over its pairs. `noted` is the loop in the loop, with
notes. -/
structure Flattens (outer : Extent α) (inner : α → Extent β)
    (action : α × β → Computation σ (Effect σ γ)) (nested flat : Effect σ Unit)
    (noted : Effect (Watched σ (Moment (α × β))) Unit) : Prop where
  /-- But for the events of their starts, the two loops are the one. -/
  same_unseen : SameUnseen (fun same => ∀ p, (enter (action p)).Respects same) nested flat
  /-- If they return, every pair had its turn, in the order of the list. -/
  returns_noted_iff {w w' : Watched σ (Moment (α × β))} : noted.invoke.Halts w (.ok (), w') ↔
    ∃ t, Passes (InnerPasses false inner (Yields fun p => enter (action p))) outer.list
        (Tracer.emit (outer.start false) w.state) t ∧
      w' = ⟨t, w.notes ++ (pairs inner outer.list).flatMap Moment.course⟩
  /-- A panic at one of the pairs ends both loops, and no later pair has its turn. -/
  panics_noted_iff {w w' : Watched σ (Moment (α × β))} {p : Panic} :
    noted.invoke.Halts w (.error p, w') ↔
      ∃ done q u,
        InnerReaches false outer inner (Yields fun p => enter (action p)) w.state done q u ∧
        PanicsNoted action q u (w.notes ++ done.flatMap Moment.course) p w'
  /-- The pairs that have their turns are the first ones of the list. -/
  begins {s u : σ} {done : List (α × β)} {q : α × β}
    (h : InnerReaches false outer inner (Yields fun p => enter (action p)) s done q u) :
    done ++ [q] <+: pairs inner outer.list
  /-- Taking notes changes nothing else. -/
  alike_noted : Alike Watched.Of Eq nested.invoke noted.invoke

/-- The same of fallible loops. -/
structure TryFlattens (outer : Extent α) (inner : α → Extent β)
    (action : α × β → Computation σ (Effect σ (Except ε γ)))
    (nested flat : Effect σ (Except ε Unit))
    (noted : Effect (Watched σ (Moment (α × β))) (Except ε Unit)) : Prop where
  same_unseen : SameUnseen (fun same => ∀ p, (enter (action p)).Respects same) nested flat
  succeeds_noted_iff {w w' : Watched σ (Moment (α × β))} :
    noted.invoke.Halts w (.ok (.ok ()), w') ↔
      ∃ t, Passes (InnerPasses true inner (Succeeds fun p => enter (action p))) outer.list
          (Tracer.emit (outer.start true) w.state) t ∧
        w' = ⟨t, w.notes ++ (pairs inner outer.list).flatMap Moment.course⟩
  /-- The first error is that of the inner loop and of the outer one, and no later pair has its
  turn. -/
  fails_noted_iff {w w' : Watched σ (Moment (α × β))} {error : ε} :
    noted.invoke.Halts w (.ok (.error error), w') ↔
      ∃ done q u t,
        InnerReaches true outer inner (Succeeds fun p => enter (action p)) w.state done q u ∧
        (enter (action q)).Halts u (.ok (.error error), t) ∧
        w' = ⟨t, w.notes ++ (done ++ [q]).flatMap Moment.course⟩
  panics_noted_iff {w w' : Watched σ (Moment (α × β))} {p : Panic} :
    noted.invoke.Halts w (.error p, w') ↔
      ∃ done q u,
        InnerReaches true outer inner (Succeeds fun p => enter (action p)) w.state done q u ∧
        PanicsNoted action q u (w.notes ++ done.flatMap Moment.course) p w'
  begins {s u : σ} {done : List (α × β)} {q : α × β}
    (h : InnerReaches true outer inner (Succeeds fun p => enter (action p)) s done q u) :
    done ++ [q] <+: pairs inner outer.list
  alike_noted : Alike Watched.Of Eq nested.invoke noted.invoke

/-- A nested loop visits the pairs in the order of the flat one. -/
theorem flattens (outer : Extent α) (inner : α → Extent β)
    (action : α × β → Computation σ (Effect σ γ)) :
    Flattens outer inner action
      ⟨outer.goThrough fun a => (inner a).goThrough fun b => enter (action (a, b))⟩
      ⟨(Extent.items (pairs inner outer.list)).goThrough fun p => enter (action p)⟩
      ⟨outer.goThrough fun a => (inner a).goThrough fun b =>
        enter (notedEach action (a, b))⟩ where
  same_unseen :=
    sameUnseen_of_alike (fun _ hsame h => alike_nested_flat hsame h) fun _ => alike_eq_refl _
  returns_noted_iff := by
    intro w w'
    rw [halts_nested_value_iff (f := fun p => enter (notedEach action p)),
      passes_noted_iff (innerPasses_noted_iff yields_notedEach_iff), pairs, List.flatMap_assoc]
    rfl
  panics_noted_iff := by
    intro w w' p
    rw [halts_nested_panic_iff (f := fun p => enter (notedEach action p)),
      exists_innerReaches_noted_iff yields_notedEach_iff fun q v =>
        (enter (notedEach action q)).Halts v (.error p, w')]
    simp only [halts_notedEach_panic_iff]
  begins h := h.begins
  alike_noted := alike_goThrough outer fun a => alike_goThrough (inner a) fun b =>
    alike_notedEach action (a, b)

/-- A nested fallible loop does so up to the first pair that fails. -/
theorem tryFlattens (outer : Extent α) (inner : α → Extent β)
    (action : α × β → Computation σ (Effect σ (Except ε γ))) :
    TryFlattens outer inner action
      ⟨outer.tryGoThrough fun a => (inner a).tryGoThrough fun b => enter (action (a, b))⟩
      ⟨(Extent.items (pairs inner outer.list)).tryGoThrough fun p => enter (action p)⟩
      ⟨outer.tryGoThrough fun a => (inner a).tryGoThrough fun b =>
        enter (notedEach action (a, b))⟩ where
  same_unseen :=
    sameUnseen_of_alike (fun _ hsame h => alike_tryNested_flat hsame h) fun _ => alike_eq_refl _
  succeeds_noted_iff := by
    intro w w'
    rw [halts_tryNested_value_iff (f := fun p => enter (notedEach action p)),
      passes_noted_iff (innerPasses_noted_iff succeeds_notedEach_iff), pairs, List.flatMap_assoc]
    rfl
  fails_noted_iff := by
    intro w w' error
    rw [halts_tryNested_error_iff (f := fun p => enter (notedEach action p)),
      exists_innerReaches_noted_iff succeeds_notedEach_iff fun q v =>
        (enter (notedEach action q)).Halts v (.ok (.error error), w')]
    simp only [halts_notedEach_value_iff, List.flatMap_append, List.flatMap_singleton,
      List.append_assoc, exists_and_left]
  panics_noted_iff := by
    intro w w' p
    rw [halts_tryNested_panic_iff (f := fun p => enter (notedEach action p)),
      exists_innerReaches_noted_iff succeeds_notedEach_iff fun q v =>
        (enter (notedEach action q)).Halts v (.error p, w')]
    simp only [halts_notedEach_panic_iff]
  begins h := h.begins
  alike_noted := alike_tryGoThrough outer fun a => alike_tryGoThrough (inner a) fun b =>
    alike_notedEach action (a, b)

/-- Every loop in a loop is a loop over pairs, whichever kind either of them is. The inner loops are
made when the outer one runs; making the outer one only makes it. -/
structure NestedLoopsFlatten (σ : Type) [Tracer σ] : Prop where
  plain {α β γ : Type} (outer : Extent α) (inner : α → Extent β)
    (action : α × β → Computation σ (Effect σ γ)) :
    ∃ nested flat noted,
      (outer.loop fun a => (inner a).loop fun b => action (a, b)) = Pure.pure nested ∧
      forEach ((pairs inner outer.list).map Pure.pure) action = Pure.pure flat ∧
      (outer.loop fun a => (inner a).loop fun b => notedEach action (a, b)) = Pure.pure noted ∧
      Flattens outer inner action nested flat noted
  fallible {α β γ ε : Type} (outer : Extent α) (inner : α → Extent β)
    (action : α × β → Computation σ (Effect σ (Except ε γ))) :
    ∃ nested flat noted,
      (outer.tryLoop fun a => (inner a).tryLoop fun b => action (a, b)) = Pure.pure nested ∧
      tryForEach ((pairs inner outer.list).map Pure.pure) action = Pure.pure flat ∧
      (outer.tryLoop fun a => (inner a).tryLoop fun b => notedEach action (a, b)) =
        Pure.pure noted ∧
      TryFlattens outer inner action nested flat noted

/-- Loops of any two kinds, one within the other, flatten to a loop over pairs. -/
theorem nested_loops_flatten : NestedLoopsFlatten σ where
  plain outer inner action := by
    refine ⟨_, _, _, ?_, forEach_map_pure _ action, ?_, flattens outer inner action⟩
    · simp only [Extent.loop_eq]
      rfl
    · simp only [Extent.loop_eq]
      rfl
  fallible outer inner action := by
    refine ⟨_, _, _, ?_, tryForEach_map_pure _ action, ?_, tryFlattens outer inner action⟩
    · simp only [Extent.tryLoop_eq]
      rfl
    · simp only [Extent.tryLoop_eq]
      rfl

end Effect

end Deferred
