import Deferred.Proofs.LoopsIterate
import Deferred.Proofs.Watching

/-!
# Going through a list

A loop over a list takes one turn for every item, in order, until a turn does not pass. `Passes`
says that the turns of all items of a list pass, and `Reaches` that those of the items before one
do, so that it is the one's turn. How a loop ends is said with these two: it returns if all turns
pass, and otherwise it ends as the first turn does that does not pass.

`Effect.Traverses` says so of effects that loop over a list, and which functions are applied and
which effects are invoked until then, by the notes that are taken of it; `Effect.TryTraverses` says
it of the fallible ones.
-/

namespace Deferred

variable {σ α β ε κ : Type}

namespace Computation

/-! ## Turns in a row -/

/-- The turns of all items, in order, lead from one state to another. -/
inductive Passes (turn : α → σ → σ → Prop) : List α → σ → σ → Prop where
  | nil (s : σ) : Passes turn [] s s
  | cons {a : α} {as : List α} {s t u : σ} (first : turn a s t) (rest : Passes turn as t u) :
    Passes turn (a :: as) s u

/-- The turns of the items `done` lead from `s` to `t`, and then it is the turn of `a`. -/
structure Reaches (turn : α → σ → σ → Prop) (items : List α) (s : σ) (done : List α) (a : α)
    (t : σ) : Prop where
  begins : done ++ [a] <+: items
  passes : Passes turn done s t

section

variable {turn : α → σ → σ → Prop} {items as bs done : List α} {a b : α} {s t u : σ}

theorem passes_nil_iff : Passes turn [] s t ↔ s = t := by
  constructor
  · rintro ⟨⟩
    rfl
  · rintro rfl
    exact .nil s

/-- Passing a list is a turn for its first item, then passing the others. -/
theorem passes_cons_iff : Passes turn (a :: as) s u ↔ ∃ t, turn a s t ∧ Passes turn as t u := by
  constructor
  · rintro (_ | ⟨first, rest⟩)
    exact ⟨_, first, rest⟩
  · rintro ⟨t, first, rest⟩
    exact .cons first rest

theorem not_reaches_nil : ¬Reaches turn [] s done a t := by
  intro h
  have hnil := List.prefix_nil.1 h.begins
  exact List.append_ne_nil_of_right_ne_nil done (List.cons_ne_nil a []) hnil

/-- The first item is reached at once, and another one after the turn of the first. -/
theorem reaches_cons_iff :
    Reaches turn (b :: items) s done a t ↔
      (done = [] ∧ a = b ∧ s = t) ∨
      ∃ rest u, done = b :: rest ∧ turn b s u ∧ Reaches turn items u rest a t := by
  constructor
  · rintro ⟨hbegins, hpasses⟩
    cases done with
    | nil =>
      obtain ⟨rfl, -⟩ := List.cons_prefix_cons.1 hbegins
      exact .inl ⟨rfl, rfl, passes_nil_iff.1 hpasses⟩
    | cons c rest =>
      obtain ⟨rfl, hrest⟩ := List.cons_prefix_cons.1 hbegins
      obtain ⟨u, hturn, hpasses⟩ := passes_cons_iff.1 hpasses
      exact .inr ⟨rest, u, rfl, hturn, hrest, hpasses⟩
  · rintro (⟨rfl, rfl, rfl⟩ | ⟨rest, u, rfl, hturn, hbegins, hpasses⟩)
    · exact ⟨List.cons_prefix_cons.2 ⟨rfl, List.nil_prefix⟩, .nil s⟩
    · exact ⟨List.cons_prefix_cons.2 ⟨rfl, hbegins⟩, .cons hturn hpasses⟩

theorem passes_singleton_iff : Passes turn [a] s t ↔ turn a s t := by
  simp only [passes_cons_iff, passes_nil_iff, exists_eq_right]

/-- Passing two lists in a row is passing one after the other. -/
theorem passes_append_iff :
    Passes turn (as ++ bs) s u ↔ ∃ t, Passes turn as s t ∧ Passes turn bs t u := by
  induction as generalizing s with
  | nil => simp only [List.nil_append, passes_nil_iff, exists_eq_left']
  | cons a as ih =>
    simp only [List.cons_append, passes_cons_iff, ih]
    constructor
    · rintro ⟨v, hfirst, t, hrest, hpasses⟩
      exact ⟨t, ⟨v, hfirst, hrest⟩, hpasses⟩
    · rintro ⟨t, ⟨v, hfirst, hrest⟩, hpasses⟩
      exact ⟨v, hfirst, t, hrest, hpasses⟩

section

variable {inTurn : α → σ → Prop}

/-- Some item is reached exactly if it is the first one, or is reached among the others after its
turn. -/
theorem exists_reaches_cons_iff :
    (∃ done a u, Reaches turn (b :: items) s done a u ∧ inTurn a u) ↔
      inTurn b s ∨
      ∃ t, turn b s t ∧ ∃ done a u, Reaches turn items t done a u ∧ inTurn a u := by
  constructor
  · rintro ⟨done, a, u, hreaches, hlast⟩
    obtain ⟨-, rfl, rfl⟩ | ⟨rest, t, -, hturn, hreaches⟩ := reaches_cons_iff.1 hreaches
    · exact .inl hlast
    · exact .inr ⟨t, hturn, rest, a, u, hreaches, hlast⟩
  · rintro (hfirst | ⟨t, hturn, done, a, u, hreaches, hlast⟩)
    · exact ⟨[], b, s, reaches_cons_iff.2 (.inl ⟨rfl, rfl, rfl⟩), hfirst⟩
    · exact ⟨b :: done, a, u, reaches_cons_iff.2 (.inr ⟨done, t, rfl, hturn, hreaches⟩), hlast⟩

theorem exists_reaches_singleton_iff :
    (∃ done a u, Reaches turn [b] s done a u ∧ inTurn a u) ↔ inTurn b s := by
  rw [exists_reaches_cons_iff]
  refine or_iff_left ?_
  rintro ⟨t, -, done, a, u, hreaches, -⟩
  exact not_reaches_nil hreaches

/-- The item that is reached is among the first ones, or among the others after the turns of the
first ones. -/
theorem exists_reaches_append_iff :
    (∃ done a u, Reaches turn (as ++ bs) s done a u ∧ inTurn a u) ↔
      (∃ done a u, Reaches turn as s done a u ∧ inTurn a u) ∨
      ∃ t, Passes turn as s t ∧ ∃ done a u, Reaches turn bs t done a u ∧ inTurn a u := by
  induction as generalizing s with
  | nil => simp only [List.nil_append, passes_nil_iff, not_reaches_nil, false_and, exists_false,
      false_or, exists_eq_left']
  | cons b as ih =>
    simp only [List.cons_append, exists_reaches_cons_iff, passes_cons_iff, ih]
    rw [or_assoc]
    refine or_congr_right ⟨?_, ?_⟩
    · rintro ⟨t, hturn, hfirst | ⟨u, hpasses, hrest⟩⟩
      · exact .inl ⟨t, hturn, hfirst⟩
      · exact .inr ⟨u, ⟨t, hturn, hpasses⟩, hrest⟩
    · rintro (⟨t, hturn, hfirst⟩ | ⟨u, ⟨t, hturn, hpasses⟩, hrest⟩)
      · exact ⟨t, hturn, .inl hfirst⟩
      · exact ⟨t, hturn, .inr ⟨u, hpasses, hrest⟩⟩

end

/-- What happens in the first turn, or with the rest of the items after a turn that passes, happens
in the turn of an item that is reached. -/
theorem exists_reaches_iff (happens : List α → σ → Prop) (inTurn : α → σ → Prop)
    (hnil : ∀ s, ¬happens [] s)
    (hcons : ∀ a as s, happens (a :: as) s ↔ inTurn a s ∨ ∃ t, turn a s t ∧ happens as t) :
    happens items s ↔ ∃ done a t, Reaches turn items s done a t ∧ inTurn a t := by
  induction items generalizing s with
  | nil =>
    constructor
    · exact fun h => absurd h (hnil s)
    · rintro ⟨done, a, t, h, -⟩
      exact absurd h not_reaches_nil
  | cons b items ih =>
    rw [hcons, exists_reaches_cons_iff]
    simp only [ih]

end

/-! ## Turns that take notes -/

section

variable {turn : α → σ → σ → Prop} {turn' : α → Watched σ κ → Watched σ κ → Prop}
  {notes : α → List κ} {items done : List α} {a : α} {w w' : Watched σ κ}

/-- The notes of a row of turns are those of its turns. -/
theorem passes_noted_iff
    (hturn : ∀ a w w', turn' a w w' ↔ ∃ t, turn a w.state t ∧ w' = ⟨t, w.notes ++ notes a⟩) :
    Passes turn' items w w' ↔
      ∃ t, Passes turn items w.state t ∧ w' = ⟨t, w.notes ++ items.flatMap notes⟩ := by
  induction items generalizing w with
  | nil =>
    simp only [passes_nil_iff, List.flatMap_nil, List.append_nil]
    constructor
    · rintro rfl
      exact ⟨w.state, rfl, rfl⟩
    · rintro ⟨t, rfl, rfl⟩
      rfl
  | cons a items ih =>
    simp only [passes_cons_iff, hturn, ih, List.flatMap_cons]
    constructor
    · rintro ⟨_, ⟨u, hfirst, rfl⟩, t, hrest, rfl⟩
      exact ⟨t, ⟨u, hfirst, hrest⟩, congrArg (Watched.mk t) (List.append_assoc _ _ _)⟩
    · rintro ⟨t, ⟨u, hfirst, hrest⟩, rfl⟩
      refine ⟨_, ⟨u, hfirst, rfl⟩, t, hrest, ?_⟩
      rw [List.append_assoc]

/-- With notes the same item is reached, and the items before it are noted. -/
theorem reaches_noted_iff
    (hturn : ∀ a w w', turn' a w w' ↔ ∃ t, turn a w.state t ∧ w' = ⟨t, w.notes ++ notes a⟩) :
    Reaches turn' items w done a w' ↔
      ∃ t, Reaches turn items w.state done a t ∧ w' = ⟨t, w.notes ++ done.flatMap notes⟩ := by
  constructor
  · rintro ⟨hbegins, hnoted⟩
    obtain ⟨t, hpasses, rfl⟩ := (passes_noted_iff hturn).1 hnoted
    exact ⟨t, ⟨hbegins, hpasses⟩, rfl⟩
  · rintro ⟨t, ⟨hbegins, hpasses⟩, rfl⟩
    exact ⟨hbegins, (passes_noted_iff hturn).2 ⟨t, hpasses, rfl⟩⟩

end

/-! ## Going on after a success -/

section

variable {x : Computation σ (Except ε α)} {g : α → Computation σ (Except ε β)} {s t : σ}

/-- What comes after `x` comes after an error, which is the result, or after a success. -/
theorem exists_orError_iff (later : Computation σ (Except ε β) → σ → Prop) :
    (∃ r u, x.Halts s (.ok r, u) ∧ later (orError g r) u) ↔
      (∃ e u, x.Halts s (.ok (.error e), u) ∧ later (pure (.error e)) u) ∨
      ∃ a u, x.Halts s (.ok (.ok a), u) ∧ later (g a) u := by
  constructor
  · rintro ⟨r, u, hx, hlater⟩
    cases r with
    | ok a => exact .inr ⟨a, u, hx, hlater⟩
    | error e => exact .inl ⟨e, u, hx, hlater⟩
  · rintro (⟨e, u, hx, hlater⟩ | ⟨a, u, hx, hlater⟩)
    · exact ⟨.error e, u, hx, hlater⟩
    · exact ⟨.ok a, u, hx, hlater⟩

/-- Going on unless there was an error succeeds exactly if both parts do. -/
theorem halts_orError_value_iff {b : β} :
    (x >>= orError g).Halts s (.ok (.ok b), t) ↔
      ∃ a u, x.Halts s (.ok (.ok a), u) ∧ (g a).Halts u (.ok (.ok b), t) := by
  rw [halts_bind_value_iff, exists_orError_iff fun y u => y.Halts u (.ok (.ok b), t)]
  refine or_iff_right ?_
  rintro ⟨e, u, -, hend⟩
  exact nomatch halts_pure_iff.1 hend

theorem halts_orError_error_iff {e : ε} :
    (x >>= orError g).Halts s (.ok (.error e), t) ↔
      x.Halts s (.ok (.error e), t) ∨
      ∃ a u, x.Halts s (.ok (.ok a), u) ∧ (g a).Halts u (.ok (.error e), t) := by
  rw [halts_bind_value_iff, exists_orError_iff fun y u => y.Halts u (.ok (.error e), t)]
  refine or_congr_left ⟨?_, ?_⟩
  · rintro ⟨e', u, hx, hend⟩
    cases halts_pure_iff.1 hend
    exact hx
  · exact fun hx => ⟨e, t, hx, halts_pure_iff.2 rfl⟩

theorem halts_orError_panic_iff {p : Panic} :
    (x >>= orError g).Halts s (.error p, t) ↔
      x.Halts s (.error p, t) ∨
      ∃ a u, x.Halts s (.ok (.ok a), u) ∧ (g a).Halts u (.error p, t) := by
  rw [halts_bind_panic_iff, exists_orError_iff fun y u => y.Halts u (.error p, t)]
  refine or_congr_right (or_iff_right ?_)
  rintro ⟨e, u, -, hend⟩
  exact nomatch halts_pure_iff.1 hend

theorem diverges_orError_iff :
    (x >>= orError g).Diverges s ↔
      x.Diverges s ∨ ∃ a u, x.Halts s (.ok (.ok a), u) ∧ (g a).Diverges u := by
  rw [diverges_bind_iff, exists_orError_iff fun y u => y.Diverges u]
  refine or_congr_right (or_iff_right ?_)
  rintro ⟨e, u, -, hend⟩
  exact diverges_iff.1 hend _ (halts_pure_iff.2 rfl)

end

/-! ## Loops over lists -/

/-- The turn of `a` yields a value. -/
def Yields (f : α → Computation σ β) (a : α) (s t : σ) : Prop := ∃ b, (f a).Halts s (.ok b, t)

/-- The turn of `a` yields a success. -/
def Succeeds (f : α → Computation σ (Except ε β)) (a : α) (s t : σ) : Prop :=
  ∃ b, (f a).Halts s (.ok (.ok b), t)

section

variable {f : α → Computation σ β} {items : List α} {a : α} {s t : σ}

theorem exists_yields_iff {later : σ → Prop} :
    (∃ t, Yields f a s t ∧ later t) ↔ ∃ b t, (f a).Halts s (.ok b, t) ∧ later t := by
  simp only [Yields, ← exists_and_right]
  exact exists_comm

/-- A loop over items returns exactly if every item in turn yields. -/
theorem halts_forEach_value_iff :
    (forEach items f).Halts s (.ok (), t) ↔ Passes (Yields f) items s t := by
  induction items generalizing s with
  | nil =>
    rw [passes_nil_iff]
    exact halts_pure_iff.trans (by rw [Prod.mk.injEq, eq_self, true_and, eq_comm])
  | cons a items ih =>
    rw [forEach_cons, halts_bind_value_iff, passes_cons_iff, exists_yields_iff]
    simp only [ih]

/-- The loop panics as the first turn does that does not yield a value. -/
theorem halts_forEach_panic_iff {p : Panic} :
    (forEach items f).Halts s (.error p, t) ↔
      ∃ done a u, Reaches (Yields f) items s done a u ∧ (f a).Halts u (.error p, t) := by
  refine exists_reaches_iff (fun items s => (forEach items f).Halts s (.error p, t))
    (fun a u => (f a).Halts u (.error p, t)) ?_ ?_
  · exact fun s h => nomatch halts_pure_iff.1 h
  · intro a as s
    rw [forEach_cons, halts_bind_panic_iff, exists_yields_iff]

/-- It runs forever exactly if an item that is reached does. -/
theorem diverges_forEach_iff :
    (forEach items f).Diverges s ↔
      ∃ done a u, Reaches (Yields f) items s done a u ∧ (f a).Diverges u := by
  refine exists_reaches_iff (fun items s => (forEach items f).Diverges s)
    (fun a u => (f a).Diverges u) ?_ ?_
  · exact fun s h => absurd (halts_pure_iff.2 rfl) (diverges_iff.1 h _)
  · intro a as s
    rw [forEach_cons, diverges_bind_iff, exists_yields_iff]

/-- A loop over two lists is one over the first, and then one over the second. -/
theorem forEach_append (xs ys : List α) (f : α → Computation σ β) :
    forEach (xs ++ ys) f = forEach xs f >>= fun _ => forEach ys f := by
  induction xs with
  | nil => rfl
  | cons x xs ih => rw [List.cons_append, forEach_cons, forEach_cons, ih, bind_assoc]

end

section

variable {f : α → Computation σ (Except ε β)} {items : List α} {a : α} {s t : σ}

/-- After a turn the loop goes on only if it yields a success. -/
theorem exists_succeeds_iff {later : σ → Prop} :
    (∃ t, Succeeds f a s t ∧ later t) ↔ ∃ b t, (f a).Halts s (.ok (.ok b), t) ∧ later t := by
  simp only [Succeeds, ← exists_and_right]
  exact exists_comm

/-- A fallible loop succeeds exactly if every item in turn does. -/
theorem halts_tryForEach_value_iff :
    (tryForEach items f).Halts s (.ok (.ok ()), t) ↔ Passes (Succeeds f) items s t := by
  induction items generalizing s with
  | nil =>
    rw [passes_nil_iff]
    exact halts_pure_iff.trans (by rw [Prod.mk.injEq, eq_self, true_and, eq_comm])
  | cons a items ih =>
    rw [tryForEach_cons, halts_orError_value_iff, passes_cons_iff, exists_succeeds_iff]
    simp only [ih]

/-- The loop yields the error of the first turn that does not yield a success. -/
theorem halts_tryForEach_error_iff {e : ε} :
    (tryForEach items f).Halts s (.ok (.error e), t) ↔
      ∃ done a u, Reaches (Succeeds f) items s done a u ∧ (f a).Halts u (.ok (.error e), t) := by
  refine exists_reaches_iff
    (fun items s => (tryForEach items f).Halts s (.ok (.error e), t))
    (fun a u => (f a).Halts u (.ok (.error e), t)) ?_ ?_
  · exact fun s h => nomatch halts_pure_iff.1 h
  · intro a as s
    rw [tryForEach_cons, halts_orError_error_iff, exists_succeeds_iff]

theorem halts_tryForEach_panic_iff {p : Panic} :
    (tryForEach items f).Halts s (.error p, t) ↔
      ∃ done a u, Reaches (Succeeds f) items s done a u ∧ (f a).Halts u (.error p, t) := by
  refine exists_reaches_iff (fun items s => (tryForEach items f).Halts s (.error p, t))
    (fun a u => (f a).Halts u (.error p, t)) ?_ ?_
  · exact fun s h => nomatch halts_pure_iff.1 h
  · intro a as s
    rw [tryForEach_cons, halts_orError_panic_iff, exists_succeeds_iff]

theorem diverges_tryForEach_iff :
    (tryForEach items f).Diverges s ↔
      ∃ done a u, Reaches (Succeeds f) items s done a u ∧ (f a).Diverges u := by
  refine exists_reaches_iff (fun items s => (tryForEach items f).Diverges s)
    (fun a u => (f a).Diverges u) ?_ ?_
  · exact fun s h => absurd (halts_pure_iff.2 rfl) (diverges_iff.1 h _)
  · intro a as s
    rw [tryForEach_cons, diverges_orError_iff, exists_succeeds_iff]

/-- A fallible loop over two lists goes on to the second unless the first yields an error. -/
theorem tryForEach_append (xs ys : List α) (f : α → Computation σ (Except ε β)) :
    tryForEach (xs ++ ys) f = tryForEach xs f >>= orError fun _ => tryForEach ys f := by
  induction xs with
  | nil => rfl
  | cons x xs ih =>
    rw [List.cons_append, tryForEach_cons, tryForEach_cons, ih, bind_assoc]
    refine bind_congr fun r => ?_
    cases r with
    | ok b => rfl
    | error e => rfl

end

end Computation

open Deferred.Computation

namespace Effect

/-! ## Effects made and invoked in turn -/

section

variable {make : α → Computation σ (Effect σ β)}

/-- A turn that yields notes its whole course. -/
theorem yields_notedEach_iff (a : α) (w w' : Watched σ (Moment α)) :
    Yields (fun a => enter (notedEach make a)) a w w' ↔
      ∃ t, Yields (fun a => enter (make a)) a w.state t ∧
        w' = ⟨t, w.notes ++ Moment.course a⟩ := by
  rw [exists_yields_iff]
  simp only [Yields, halts_notedEach_value_iff]

theorem succeeds_notedEach_iff {make : α → Computation σ (Effect σ (Except ε β))} (a : α)
    (w w' : Watched σ (Moment α)) :
    Succeeds (fun a => enter (notedEach make a)) a w w' ↔
      ∃ t, Succeeds (fun a => enter (make a)) a w.state t ∧
        w' = ⟨t, w.notes ++ Moment.course a⟩ := by
  rw [exists_succeeds_iff]
  simp only [Succeeds, halts_notedEach_value_iff]

end

section

variable [Tracer σ]

/-- An effect that tells of the event, and then makes and invokes an effect for each of the items.
`noted` is the same with notes. -/
structure Traverses (event : Event) (items : List α) (make : α → Computation σ (Effect σ β))
    (loop : Effect σ Unit) (noted : Effect (Watched σ (Moment α)) Unit) : Prop where
  /-- It returns if one effect after the other is made and yields a value. -/
  returns_iff {s t : σ} : loop.invoke.Halts s (.ok (), t) ↔
    Passes (Yields fun a => enter (make a)) items (Tracer.emit event s) t
  /-- It panics if one is reached that is not made, or that is made and does not yield a value, for
  the panic. -/
  panics_iff {s t : σ} {p : Panic} : loop.invoke.Halts s (.error p, t) ↔
    ∃ done a u, Reaches (Yields fun a => enter (make a)) items (Tracer.emit event s) done a u ∧
      ((make a).Halts u (.error p, t) ∨
        ∃ e v, (make a).Halts u (.ok e, v) ∧ e.invoke.Halts v (.error p, t))
  /-- It never ends if one is reached that is never made, or is made and never ends. -/
  diverges_iff {s : σ} : loop.invoke.Diverges s ↔
    ∃ done a u, Reaches (Yields fun a => enter (make a)) items (Tracer.emit event s) done a u ∧
      ((make a).Diverges u ∨ ∃ e v, (make a).Halts u (.ok e, v) ∧ e.invoke.Diverges v)
  /-- If it returns, then each effect was made after the one before had yielded its value. -/
  returns_noted_iff {w w' : Watched σ (Moment α)} : noted.invoke.Halts w (.ok (), w') ↔
    ∃ t, Passes (Yields fun a => enter (make a)) items (Tracer.emit event w.state) t ∧
      w' = ⟨t, w.notes ++ items.flatMap Moment.course⟩
  /-- After a panic nothing more is made or invoked. -/
  panics_noted_iff {w w' : Watched σ (Moment α)} {p : Panic} :
    noted.invoke.Halts w (.error p, w') ↔
      ∃ done a u,
        Reaches (Yields fun a => enter (make a)) items (Tracer.emit event w.state) done a u ∧
        PanicsNoted make a u (w.notes ++ done.flatMap Moment.course) p w'
  /-- Taking notes changes nothing else. -/
  alike_noted : Alike Watched.Of Eq loop.invoke noted.invoke

/-- The same of an effect that goes on after successes only. -/
structure TryTraverses (event : Event) (items : List α)
    (make : α → Computation σ (Effect σ (Except ε β))) (loop : Effect σ (Except ε Unit))
    (noted : Effect (Watched σ (Moment α)) (Except ε Unit)) : Prop where
  /-- It succeeds if one effect after the other is made and yields a success. -/
  succeeds_iff {s t : σ} : loop.invoke.Halts s (.ok (.ok ()), t) ↔
    Passes (Succeeds fun a => enter (make a)) items (Tracer.emit event s) t
  /-- It yields the first error. -/
  fails_iff {s t : σ} {error : ε} : loop.invoke.Halts s (.ok (.error error), t) ↔
    ∃ done a u, Reaches (Succeeds fun a => enter (make a)) items (Tracer.emit event s) done a u ∧
      (enter (make a)).Halts u (.ok (.error error), t)
  panics_iff {s t : σ} {p : Panic} : loop.invoke.Halts s (.error p, t) ↔
    ∃ done a u, Reaches (Succeeds fun a => enter (make a)) items (Tracer.emit event s) done a u ∧
      ((make a).Halts u (.error p, t) ∨
        ∃ e v, (make a).Halts u (.ok e, v) ∧ e.invoke.Halts v (.error p, t))
  diverges_iff {s : σ} : loop.invoke.Diverges s ↔
    ∃ done a u, Reaches (Succeeds fun a => enter (make a)) items (Tracer.emit event s) done a u ∧
      ((make a).Diverges u ∨ ∃ e v, (make a).Halts u (.ok e, v) ∧ e.invoke.Diverges v)
  succeeds_noted_iff {w w' : Watched σ (Moment α)} :
    noted.invoke.Halts w (.ok (.ok ()), w') ↔
      ∃ t, Passes (Succeeds fun a => enter (make a)) items (Tracer.emit event w.state) t ∧
        w' = ⟨t, w.notes ++ items.flatMap Moment.course⟩
  /-- After an error nothing more is made or invoked. -/
  fails_noted_iff {w w' : Watched σ (Moment α)} {error : ε} :
    noted.invoke.Halts w (.ok (.error error), w') ↔
      ∃ done a u t,
        Reaches (Succeeds fun a => enter (make a)) items (Tracer.emit event w.state) done a u ∧
        (enter (make a)).Halts u (.ok (.error error), t) ∧
        w' = ⟨t, w.notes ++ (done ++ [a]).flatMap Moment.course⟩
  panics_noted_iff {w w' : Watched σ (Moment α)} {p : Panic} :
    noted.invoke.Halts w (.error p, w') ↔
      ∃ done a u,
        Reaches (Succeeds fun a => enter (make a)) items (Tracer.emit event w.state) done a u ∧
        PanicsNoted make a u (w.notes ++ done.flatMap Moment.course) p w'
  alike_noted : Alike Watched.Of Eq loop.invoke noted.invoke

/-- It is enough that the computation is a loop over the items, and with notes too. -/
theorem traverses_of_forEach {event : Event} {items : List α}
    {make : α → Computation σ (Effect σ β)} {x : Computation σ Unit}
    {y : Computation (Watched σ (Moment α)) Unit}
    (hx : x = Computation.forEach items fun a => enter (make a))
    (hy : y = Computation.forEach items fun a => enter (notedEach make a)) :
    Traverses event items make ⟨emit event >>= fun _ => x⟩ ⟨emit event >>= fun _ => y⟩ where
  returns_iff := by
    intro s t
    rw [resumes_emit, hx]
    exact halts_forEach_value_iff
  panics_iff := by
    intro s t p
    rw [resumes_emit, hx, halts_forEach_panic_iff]
    simp only [enter, halts_bind_panic_iff]
  diverges_iff := by
    intro s
    rw [(resumes_emit x s).diverges_iff, hx, diverges_forEach_iff]
    simp only [enter, diverges_bind_iff]
  returns_noted_iff := by
    intro w w'
    rw [resumes_emit, hy, halts_forEach_value_iff, passes_noted_iff yields_notedEach_iff]
    rfl
  panics_noted_iff := by
    intro w w' p
    rw [resumes_emit, hy, halts_forEach_panic_iff]
    simp only [reaches_noted_iff yields_notedEach_iff, halts_notedEach_panic_iff,
      Watched.exists_iff]
    rfl
  alike_noted := by
    rw [hx, hy]
    exact alike_emit (alike_forItems items (alike_notedEach make)) event

/-- What goes through items after an event, and stops at an error, traverses them so. -/
theorem tryTraverses_of_tryForEach {event : Event} {items : List α}
    {make : α → Computation σ (Effect σ (Except ε β))} {x : Computation σ (Except ε Unit)}
    {y : Computation (Watched σ (Moment α)) (Except ε Unit)}
    (hx : x = Computation.tryForEach items fun a => enter (make a))
    (hy : y = Computation.tryForEach items fun a => enter (notedEach make a)) :
    TryTraverses event items make ⟨emit event >>= fun _ => x⟩ ⟨emit event >>= fun _ => y⟩ where
  succeeds_iff := by
    intro s t
    rw [resumes_emit, hx]
    exact halts_tryForEach_value_iff
  fails_iff := by
    intro s t error
    rw [resumes_emit, hx]
    exact halts_tryForEach_error_iff
  panics_iff := by
    intro s t p
    rw [resumes_emit, hx, halts_tryForEach_panic_iff]
    simp only [enter, halts_bind_panic_iff]
  diverges_iff := by
    intro s
    rw [(resumes_emit x s).diverges_iff, hx, diverges_tryForEach_iff]
    simp only [enter, diverges_bind_iff]
  succeeds_noted_iff := by
    intro w w'
    rw [resumes_emit, hy, halts_tryForEach_value_iff, passes_noted_iff succeeds_notedEach_iff]
    rfl
  fails_noted_iff := by
    intro w w' error
    rw [resumes_emit, hy, halts_tryForEach_error_iff]
    simp only [reaches_noted_iff succeeds_notedEach_iff, halts_notedEach_value_iff,
      List.flatMap_append, List.flatMap_singleton, ← List.append_assoc, Watched.exists_iff,
      exists_and_left]
    rfl
  panics_noted_iff := by
    intro w w' p
    rw [resumes_emit, hy, halts_tryForEach_panic_iff]
    simp only [reaches_noted_iff succeeds_notedEach_iff, halts_notedEach_panic_iff,
      Watched.exists_iff]
    rfl
  alike_noted := by
    rw [hx, hy]
    exact alike_emit (alike_tryForItems items (alike_notedEach make)) event

/-- A loop over items traverses them in order. -/
theorem traverses_forItems (items : List α) (action : α → Computation σ (Effect σ β)) :
    Traverses (.loopStarted false (.forEach items.length)) items action (forItems items action)
      (forItems items (notedEach action)) :=
  traverses_of_forEach rfl rfl

/-- A fallible one traverses them up to the first error. -/
theorem tryTraverses_tryForItems (items : List α)
    (action : α → Computation σ (Effect σ (Except ε β))) :
    TryTraverses (.loopStarted true (.forEach items.length)) items action
      (tryForItems items action) (tryForItems items (notedEach action)) :=
  tryTraverses_of_tryForEach rfl rfl

/-- A loop over items that are there already is made of these items. -/
theorem forEach_map_pure (items : List α) (action : α → Computation σ (Effect σ β)) :
    forEach (items.map Pure.pure) action = Pure.pure (forItems items action) := by
  rw [forEach, mapM_id_map_pure, pure_bind]

/-- A fallible loop over items that are there already is just made. -/
theorem tryForEach_map_pure (items : List α)
    (action : α → Computation σ (Effect σ (Except ε β))) :
    tryForEach (items.map Pure.pure) action = Pure.pure (tryForItems items action) := by
  rw [tryForEach, mapM_id_map_pure, pure_bind]

end

end Effect

end Deferred
