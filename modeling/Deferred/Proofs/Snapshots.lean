import Mathlib.Data.List.Forall2
import Deferred.Proofs.Traversal

/-!
# Loops take their items beforehand

The source of a loop's items may be any iterator: it is asked again and again, each time with the
place that it has come to, and answers with an item or that there are no more. Each answer may
change the state. A loop over a source asks it for all of its items when it is made; the effect that
is made is a loop over the items taken, and knows nothing of the source (`Effect.loops_snapshot`).
Whatever happens before and between its invocations, and however they end, each of them begins with
the first of these items and goes on in order.

* `Computation.Takes`: the answers of a source, one after the other.
* `Effect.forEachFrom`: the loop over a source. A list of steps is a source (`nextOfSteps`).
* `Access`: what shows the order of asking the source and applying the action.
-/

namespace Deferred

variable {σ ρ α β γ ε : Type}

namespace Computation

/-! ## Sources -/

/-- The source's answers from the place `r` on are the items, and they lead to another place. -/
inductive Takes (next : ρ → Computation σ (Option (α × ρ))) :
    ρ → σ → List α → ρ → σ → Prop where
  | nil (r : ρ) (s : σ) : Takes next r s [] r s
  | cons {r r' r'' : ρ} {s t u : σ} {a : α} {items : List α}
    (first : (next r).Halts s (.ok (some (a, r')), t)) (rest : Takes next r' t items r'' u) :
    Takes next r s (a :: items) r'' u

/-- The items are all that the source has: after them it answers that there are no more. -/
def TakesAll (next : ρ → Computation σ (Option (α × ρ))) (r : ρ) (s : σ) (items : List α) (t : σ) :
    Prop :=
  ∃ r' u, Takes next r s items r' u ∧ (next r').Halts u (.ok none, t)

/-- Asks the source once, with the items taken so far. -/
def takeStep (next : ρ → Computation σ (Option (α × ρ))) (k : ρ × List α) :
    Computation σ (Turn (ρ × List α) (List α)) := do
  match ← next k.1 with
  | some (a, r) => return .again (r, k.2 ++ [a])
  | none => return .finish k.2

/-- Asks the source until it has no more items. -/
def takeAll (next : ρ → Computation σ (Option (α × ρ))) (r : ρ) : Computation σ (List α) :=
  iterate (takeStep next) (r, [])

/-- The source of the items that the steps make. -/
def nextOfSteps : List (Computation σ α) → Computation σ (Option (α × List (Computation σ α)))
  | [] => return none
  | step :: steps => do
    let a ← step
    return some (a, steps)

section

variable {next : ρ → Computation σ (Option (α × ρ))} {r r' : ρ} {s t : σ} {a : α}
  {items taken : List α}

theorem takes_nil_iff : Takes next r s [] r' t ↔ r = r' ∧ s = t := by
  constructor
  · rintro ⟨⟩
    exact ⟨rfl, rfl⟩
  · rintro ⟨rfl, rfl⟩
    exact .nil r s

/-- Taking a row of items takes the first one, then the others from what is left of the source. -/
theorem takes_cons_iff :
    Takes next r s (a :: items) r' t ↔
      ∃ q u, (next r).Halts s (.ok (some (a, q)), u) ∧ Takes next q u items r' t := by
  constructor
  · rintro (_ | ⟨first, rest⟩)
    exact ⟨_, _, first, rest⟩
  · rintro ⟨q, u, first, rest⟩
    exact .cons first rest

/-- A step asks for another turn when it has taken one item more. -/
theorem iterateTurn_takeStep_iff :
    IterateTurn (takeStep next) ((r, items), s) ((r', taken), t) ↔
      ∃ a, (next r).Halts s (.ok (some (a, r')), t) ∧ taken = items ++ [a] := by
  show (next r >>= _).Halts s _ ↔ _
  rw [halts_bind_value_iff]
  constructor
  · rintro ⟨answer, u, hnext, hturn⟩
    match answer, hturn with
    | some (a, q), hturn =>
      cases halts_pure_iff.1 hturn
      exact ⟨a, hnext, rfl⟩
    | none, hturn => exact nomatch halts_pure_iff.1 hturn
  · rintro ⟨a, hnext, rfl⟩
    exact ⟨_, t, hnext, halts_pure_iff.2 rfl⟩

/-- Rounds of asking take one item each. -/
theorem rounds_takeStep_iff {n : Nat} :
    Rounds (IterateTurn (takeStep next)) n ((r, items), s) ((r', taken), t) ↔
      ∃ more, more.length = n ∧ taken = items ++ more ∧ Takes next r s more r' t := by
  induction n generalizing r s items with
  | zero =>
    rw [Rounds.zero_iff]
    constructor
    · rintro ⟨⟩
      exact ⟨[], rfl, (List.append_nil _).symm, .nil _ _⟩
    · rintro ⟨more, hlength, rfl, htakes⟩
      obtain rfl := List.eq_nil_of_length_eq_zero hlength
      obtain ⟨rfl, rfl⟩ := takes_nil_iff.1 htakes
      rw [List.append_nil]
  | succ n ih =>
    rw [Rounds.succ_iff]
    constructor
    · rintro ⟨⟨⟨q, items'⟩, u⟩, hturn, hrounds⟩
      obtain ⟨a, hnext, rfl⟩ := iterateTurn_takeStep_iff.1 hturn
      obtain ⟨more, rfl, rfl, htakes⟩ := ih.1 hrounds
      exact ⟨a :: more, rfl, List.append_assoc items [a] more, .cons hnext htakes⟩
    · rintro ⟨more, hlength, rfl, htakes⟩
      obtain ⟨a, more, rfl⟩ := List.exists_cons_of_length_eq_add_one hlength
      obtain ⟨q, u, hnext, htakes⟩ := takes_cons_iff.1 htakes
      refine ⟨((q, items ++ [a]), u), iterateTurn_takeStep_iff.2 ⟨a, hnext, rfl⟩, ih.2 ?_⟩
      exact ⟨more, Nat.succ.inj hlength, (List.append_assoc items [a] more).symm, htakes⟩

/-- Taking is over exactly if the source has no more items, and then those taken are there. -/
theorem stepEnds_takeStep_ok_iff :
    StepEnds (takeStep next (r, items)) s (.ok taken, t) ↔
      (next r).Halts s (.ok none, t) ∧ taken = items := by
  constructor
  · rintro (h | _)
    obtain ⟨answer, u, hnext, hturn⟩ := halts_bind_value_iff.1 h
    match answer, hturn with
    | some _, hturn => exact nomatch halts_pure_iff.1 hturn
    | none, hturn =>
      cases halts_pure_iff.1 hturn
      exact ⟨hnext, rfl⟩
  · rintro ⟨hnext, rfl⟩
    exact .finished ((halts_bind_ok_iff hnext).2 (halts_pure_iff.2 rfl))

/-- It also ends if the source panics. -/
theorem stepEnds_takeStep_error_iff {p : Panic} :
    StepEnds (takeStep next (r, items)) s (.error p, t) ↔ (next r).Halts s (.error p, t) := by
  constructor
  · rintro (_ | h)
    rcases halts_bind_panic_iff.1 h with hnext | ⟨answer, u, hnext, hturn⟩
    · exact hnext
    · match answer, hturn with
      | some _, hturn => exact nomatch halts_pure_iff.1 hturn
      | none, hturn => exact nomatch halts_pure_iff.1 hturn
  · intro hnext
    exact .panicked ((halts_bind_error_iff hnext).2 rfl)

theorem diverges_takeStep_iff :
    (takeStep next (r, items)).Diverges s ↔ (next r).Diverges s := by
  rw [takeStep, diverges_bind_iff]
  refine or_iff_left ?_
  rintro ⟨answer, u, -, hturn⟩
  match answer, hturn with
  | some _, hturn => exact diverges_iff.1 hturn _ (halts_pure_iff.2 rfl)
  | none, hturn => exact diverges_iff.1 hturn _ (halts_pure_iff.2 rfl)

/-! ## Taking all items -/

/-- After some rounds of asking these items have been taken. -/
theorem exists_rounds_takeStep_iff (later : ρ × List α → σ → Prop) :
    (∃ n k u, Rounds (IterateTurn (takeStep next)) n ((r, []), s) (k, u) ∧ later k u) ↔
      ∃ items q u, Takes next r s items q u ∧ later (q, items) u := by
  constructor
  · rintro ⟨n, ⟨q, taken⟩, u, hrounds, hlater⟩
    obtain ⟨_, -, rfl, htakes⟩ := rounds_takeStep_iff.1 hrounds
    exact ⟨taken, q, u, htakes, hlater⟩
  · rintro ⟨items, q, u, htakes, hlater⟩
    exact ⟨items.length, (q, items), u, rounds_takeStep_iff.2 ⟨items, rfl, rfl, htakes⟩, hlater⟩

/-- All items are taken exactly if the source gives them one after the other and then no more. -/
theorem halts_takeAll_ok_iff :
    (takeAll next r).Halts s (.ok items, t) ↔ TakesAll next r s items t := by
  rw [takeAll, halts_iterate_iff,
    exists_rounds_takeStep_iff fun k u => StepEnds (takeStep next k) u (.ok items, t)]
  simp only [stepEnds_takeStep_ok_iff]
  constructor
  · rintro ⟨_, q, u, htakes, hnext, rfl⟩
    exact ⟨q, u, htakes, hnext⟩
  · rintro ⟨q, u, htakes, hnext⟩
    exact ⟨items, q, u, htakes, hnext, rfl⟩

/-- It panics if the source does after some items. -/
theorem halts_takeAll_error_iff {p : Panic} :
    (takeAll next r).Halts s (.error p, t) ↔
      ∃ items q u, Takes next r s items q u ∧ (next q).Halts u (.error p, t) := by
  rw [takeAll, halts_iterate_iff,
    exists_rounds_takeStep_iff fun k u => StepEnds (takeStep next k) u (.error p, t)]
  simp only [stepEnds_takeStep_error_iff]

/-- It never ends if there are always more items, or if the source never answers after some. -/
theorem diverges_takeAll_iff :
    (takeAll next r).Diverges s ↔
      (∀ n, ∃ items q u, items.length = n ∧ Takes next r s items q u) ∨
      ∃ items q u, Takes next r s items q u ∧ (next q).Diverges u := by
  rw [takeAll, diverges_iterate_iff,
    exists_rounds_takeStep_iff fun k u => (takeStep next k).Diverges u]
  simp only [diverges_takeStep_iff]
  refine or_congr_left (forall_congr' fun n => ⟨?_, ?_⟩)
  · rintro ⟨⟨⟨q, taken⟩, u⟩, hrounds⟩
    obtain ⟨_, hlength, rfl, htakes⟩ := rounds_takeStep_iff.1 hrounds
    exact ⟨taken, q, u, hlength, htakes⟩
  · rintro ⟨items, q, u, hlength, htakes⟩
    exact ⟨((q, items), u), rounds_takeStep_iff.2 ⟨items, hlength, rfl, htakes⟩⟩

end

/-- The items of a source of steps are those that the steps make. -/
theorem takeAll_nextOfSteps_equiv (steps : List (Computation σ α)) :
    takeAll nextOfSteps steps ≈ steps.mapM id := by
  have hrest : ∀ items, iterate (takeStep nextOfSteps) (steps, items) ≈
      steps.mapM id >>= fun more => Pure.pure (items ++ more) := by
    induction steps with
    | nil =>
      intro items
      refine equiv_trans (iterate_equiv_onTurn _ _) (equiv_of_eq ?_)
      rw [List.mapM_nil, pure_bind, List.append_nil]
      rfl
    | cons step steps ih =>
      intro items
      refine equiv_trans (iterate_equiv_onTurn _ _) ?_
      rw [List.mapM_cons, bind_assoc]
      show ((step >>= fun a => Pure.pure (some (a, steps))) >>= _ >>= _) ≈ _
      rw [bind_assoc, bind_assoc]
      refine bind_congr_equiv (equiv_refl step) fun a => ?_
      refine equiv_trans (ih (items ++ [a])) (equiv_of_eq ?_)
      rw [bind_assoc]
      refine bind_congr fun more => ?_
      rw [pure_bind, List.append_assoc]
      rfl
  have hall := hrest []
  simp only [List.nil_append, bind_pure_eq] at hall
  exact hall

end Computation

open Deferred.Computation

/-! ## The order of asking and applying -/

/-- A source was asked and gave its answer, or the action of a loop was applied to an item. -/
inductive Access (α : Type) where
  | asked (answer : Option α)
  | applied (a : α)

namespace Access

/-- What shows of taking all of the items. -/
def taking (items : List α) : List (Access α) :=
  items.map (fun a => asked (some a)) ++ [asked none]

/-- What shows of going through some of the items. -/
def applying (items : List α) : List (Access α) := items.map applied

end Access

namespace Effect

/-- Asks the source and notes its answer. -/
def noteAsked (next : ρ → Computation σ (Option (α × ρ))) (r : ρ) :
    Computation (Watched σ (Access α)) (Option (α × ρ)) := do
  let answer ← (next r).watched
  note (.asked (answer.map Prod.fst))
  return answer

/-- Notes to what the action is applied. -/
def noteApplied (action : α → Computation σ (Effect σ β)) (a : α) :
    Computation (Watched σ (Access α)) (Effect (Watched σ (Access α)) β) := do
  note (.applied a)
  let e ← (action a).watched
  return ⟨e.invoke.watched⟩

section

variable {next : ρ → Computation σ (Option (α × ρ))} {r r' : ρ} {items : List α}
  {w w' : Watched σ (Access α)}

/-- Asking for an item notes the answer. -/
theorem halts_noteAsked_iff {answer : Option (α × ρ)} :
    (noteAsked next r).Halts w (.ok answer, w') ↔
      ∃ t, (next r).Halts w.state (.ok answer, t) ∧
        w' = ⟨t, w.notes ++ [.asked (answer.map Prod.fst)]⟩ := by
  rw [noteAsked]
  simp only [halts_bind_value_iff, halts_watched_iff, resumes_note _ _ _ _, halts_pure_iff]
  constructor
  · rintro ⟨_, _, ⟨t, hnext, rfl⟩, ⟨⟩⟩
    exact ⟨t, hnext, rfl⟩
  · rintro ⟨t, hnext, rfl⟩
    exact ⟨answer, _, ⟨t, hnext, rfl⟩, rfl⟩

/-- The items taken are noted in order. -/
theorem takes_noteAsked_iff :
    Takes (noteAsked next) r w items r' w' ↔
      ∃ t, Takes next r w.state items r' t ∧
        w' = ⟨t, w.notes ++ items.map fun a => .asked (some a)⟩ := by
  induction items generalizing r w with
  | nil =>
    simp only [takes_nil_iff, List.map_nil, List.append_nil]
    constructor
    · rintro ⟨rfl, rfl⟩
      exact ⟨w.state, ⟨rfl, rfl⟩, rfl⟩
    · rintro ⟨_, ⟨rfl, rfl⟩, rfl⟩
      exact ⟨rfl, rfl⟩
  | cons a items ih =>
    simp only [takes_cons_iff, halts_noteAsked_iff, ih, List.map_cons]
    constructor
    · rintro ⟨q, _, ⟨u, hnext, rfl⟩, t, hrest, rfl⟩
      exact ⟨t, ⟨q, u, hnext, hrest⟩, congrArg (Watched.mk t) (List.append_assoc _ _ _)⟩
    · rintro ⟨t, ⟨q, u, hnext, hrest⟩, rfl⟩
      refine ⟨q, _, ⟨u, hnext, rfl⟩, t, hrest, congrArg (Watched.mk t) ?_⟩
      exact (List.append_assoc w.notes [_] _).symm

/-- A source taken to its end notes each item, and once that there are no more. -/
theorem takesAll_noteAsked_iff :
    TakesAll (noteAsked next) r w items w' ↔
      ∃ t, TakesAll next r w.state items t ∧ w' = ⟨t, w.notes ++ Access.taking items⟩ := by
  simp only [TakesAll, takes_noteAsked_iff, halts_noteAsked_iff]
  constructor
  · rintro ⟨q, _, ⟨u, htakes, rfl⟩, t, hnext, rfl⟩
    exact ⟨t, ⟨q, u, htakes, hnext⟩, congrArg (Watched.mk t) (List.append_assoc _ _ _)⟩
  · rintro ⟨t, ⟨q, u, htakes, hnext⟩, rfl⟩
    exact ⟨q, _, ⟨u, htakes, rfl⟩, t, hnext,
      congrArg (Watched.mk t) (List.append_assoc _ _ _).symm⟩

end

section

variable {action : α → Computation σ (Effect σ β)} {a : α} {w w' : Watched σ (Access α)}

/-- Applying the action notes the item, and then does what the action does. -/
theorem halts_noteApplied_iff {o : Except Panic β} :
    (enter (noteApplied action a)).Halts w (o, w') ↔
      ∃ t, (enter (action a)).Halts w.state (o, t) ∧ w' = ⟨t, w.notes ++ [.applied a]⟩ :=
  halts_notedMaking_iff

theorem alike_noteApplied (action : α → Computation σ (Effect σ β)) (a : α) :
    Alike Watched.Of Eq (enter (action a)) (enter (noteApplied action a)) :=
  alike_notedMaking (Access.applied a) action a

theorem yields_noteApplied_iff (a : α) (w w' : Watched σ (Access α)) :
    Yields (fun a => enter (noteApplied action a)) a w w' ↔
      ∃ t, Yields (fun a => enter (action a)) a w.state t ∧
        w' = ⟨t, w.notes ++ [.applied a]⟩ := by
  rw [exists_yields_iff]
  simp only [Yields, halts_noteApplied_iff]

theorem succeeds_noteApplied_iff {action : α → Computation σ (Effect σ (Except ε β))} (a : α)
    (w w' : Watched σ (Access α)) :
    Succeeds (fun a => enter (noteApplied action a)) a w w' ↔
      ∃ t, Succeeds (fun a => enter (action a)) a w.state t ∧
        w' = ⟨t, w.notes ++ [.applied a]⟩ := by
  rw [exists_succeeds_iff]
  simp only [Succeeds, halts_noteApplied_iff]

end

/-! ## Invocations -/

/-- An invocation with the outcome `o` was at the items `visited`: it began with the first item and
went on in order, and it was at all of them if what it yielded is complete. -/
structure Visits (items : List α) (complete : γ → Prop) (o : Except Panic γ) (visited : List α) :
    Prop where
  first : visited.head? = items.head?
  begins : visited <+: items
  all {c : γ} (ho : o = .ok c) (hc : complete c) : visited = items

/-- A row of all items is one that is visited, however it ends. -/
theorem visits_all (items : List α) (complete : γ → Prop) (o : Except Panic γ) :
    Visits items complete o items :=
  ⟨rfl, List.prefix_rfl, fun _ _ => rfl⟩

/-- An invocation that is not complete was at the first items, up to the last one it came to. -/
theorem visits_upTo {items done : List α} {a : α} {complete : γ → Prop} {o : Except Panic γ}
    (begins : done ++ [a] <+: items) (ho : ∀ c, complete c → o ≠ .ok c) :
    Visits items complete o (done ++ [a]) := by
  refine ⟨?_, begins, fun h hc => absurd h (ho _ hc)⟩
  obtain ⟨rest, rfl⟩ := begins
  exact (List.head?_append_of_ne_nil (done ++ [a]) (List.concat_ne_nil a done)).symm

section

variable {turn : α → σ → σ → Prop} {turn' : α → Watched σ (Access α) → Watched σ (Access α) → Prop}
  {items : List α} {w w' : Watched σ (Access α)}

/-- What shows of the turns of some items is that the action was applied to them. -/
theorem passes_applied_iff
    (hturn : ∀ a w w', turn' a w w' ↔ ∃ t, turn a w.state t ∧ w' = ⟨t, w.notes ++ [.applied a]⟩) :
    Passes turn' items w w' ↔
      ∃ t, Passes turn items w.state t ∧ w' = ⟨t, w.notes ++ Access.applying items⟩ := by
  rw [passes_noted_iff hturn, Access.applying, List.map_eq_flatMap]

/-- Of a turn that does not pass it shows as well that the action was applied. -/
theorem exists_reaches_applied_iff
    (hturn : ∀ a w w', turn' a w w' ↔ ∃ t, turn a w.state t ∧ w' = ⟨t, w.notes ++ [.applied a]⟩)
    {action : α → Computation σ (Effect σ β)} {o : Except Panic β} :
    (∃ done a v, Reaches turn' items w done a v ∧
        (enter (noteApplied action a)).Halts v (o, w')) ↔
      ∃ done a u t, Reaches turn items w.state done a u ∧ (enter (action a)).Halts u (o, t) ∧
        w' = ⟨t, w.notes ++ Access.applying (done ++ [a])⟩ := by
  simp only [reaches_noted_iff hturn, ← List.map_eq_flatMap, halts_noteApplied_iff,
    Watched.exists_iff, exists_and_left, Access.applying, List.map_append, List.map_cons,
    List.map_nil, List.append_assoc]

variable [Tracer σ]

/-- An effect that tells of the event, and then applies the action to one item after the other, each
time invoking what it made. `noted` is the same with notes of that. -/
structure AppliesInTurn (event : Event) (items : List α) (action : α → Computation σ (Effect σ β))
    (loop : Effect σ Unit) (noted : Effect (Watched σ (Access α)) Unit) : Prop where
  /-- If nothing panics, it returns, and the action was applied to all items. -/
  returns_iff {w w' : Watched σ (Access α)} : noted.invoke.Halts w (.ok (), w') ↔
    ∃ t, Passes (Yields fun a => enter (action a)) items (Tracer.emit event w.state) t ∧
      w' = ⟨t, w.notes ++ Access.applying items⟩
  /-- If there is a panic for one item, it was applied to this one and those before it. -/
  panics_iff {w w' : Watched σ (Access α)} {p : Panic} : noted.invoke.Halts w (.error p, w') ↔
    ∃ done a u t,
      Reaches (Yields fun a => enter (action a)) items (Tracer.emit event w.state) done a u ∧
      (enter (action a)).Halts u (.error p, t) ∧
      w' = ⟨t, w.notes ++ Access.applying (done ++ [a])⟩
  /-- It never ends if for an item that is reached it does not. -/
  diverges_iff {s : σ} : loop.invoke.Diverges s ↔
    ∃ done a u, Reaches (Yields fun a => enter (action a)) items (Tracer.emit event s) done a u ∧
      (enter (action a)).Diverges u
  /-- Taking notes changes nothing else. -/
  alike_noted : Alike Watched.Of Eq loop.invoke noted.invoke

/-- The same of an effect that goes on after successes only. -/
structure TryAppliesInTurn (event : Event) (items : List α)
    (action : α → Computation σ (Effect σ (Except ε β))) (loop : Effect σ (Except ε Unit))
    (noted : Effect (Watched σ (Access α)) (Except ε Unit)) : Prop where
  succeeds_iff {w w' : Watched σ (Access α)} : noted.invoke.Halts w (.ok (.ok ()), w') ↔
    ∃ t, Passes (Succeeds fun a => enter (action a)) items (Tracer.emit event w.state) t ∧
      w' = ⟨t, w.notes ++ Access.applying items⟩
  /-- It yields the first error, and the action is applied to no item after that. -/
  fails_iff {w w' : Watched σ (Access α)} {error : ε} :
    noted.invoke.Halts w (.ok (.error error), w') ↔
      ∃ done a u t,
        Reaches (Succeeds fun a => enter (action a)) items (Tracer.emit event w.state) done a u ∧
        (enter (action a)).Halts u (.ok (.error error), t) ∧
        w' = ⟨t, w.notes ++ Access.applying (done ++ [a])⟩
  panics_iff {w w' : Watched σ (Access α)} {p : Panic} : noted.invoke.Halts w (.error p, w') ↔
    ∃ done a u t,
      Reaches (Succeeds fun a => enter (action a)) items (Tracer.emit event w.state) done a u ∧
      (enter (action a)).Halts u (.error p, t) ∧
      w' = ⟨t, w.notes ++ Access.applying (done ++ [a])⟩
  diverges_iff {s : σ} : loop.invoke.Diverges s ↔
    ∃ done a u, Reaches (Succeeds fun a => enter (action a)) items (Tracer.emit event s) done a u ∧
      (enter (action a)).Diverges u
  alike_noted : Alike Watched.Of Eq loop.invoke noted.invoke

/-- A loop over items applies the action to each in turn. -/
theorem appliesInTurn_forItems (items : List α) (action : α → Computation σ (Effect σ β)) :
    AppliesInTurn (.loopStarted false (.forEach items.length)) items action
      (forItems items action) (forItems items (noteApplied action)) where
  returns_iff := by
    intro w w'
    rw [forItems, resumes_emit, halts_forEach_value_iff, passes_applied_iff yields_noteApplied_iff]
    rfl
  panics_iff := by
    intro w w' p
    rw [forItems, resumes_emit, halts_forEach_panic_iff,
      exists_reaches_applied_iff yields_noteApplied_iff]
    rfl
  diverges_iff := by
    intro s
    rw [forItems, (resumes_emit _ s).diverges_iff, diverges_forEach_iff]
  alike_noted := alike_emit (alike_forItems items (alike_noteApplied action)) _

/-- A fallible one does so up to the first error. -/
theorem tryAppliesInTurn_tryForItems (items : List α)
    (action : α → Computation σ (Effect σ (Except ε β))) :
    TryAppliesInTurn (.loopStarted true (.forEach items.length)) items action
      (tryForItems items action) (tryForItems items (noteApplied action)) where
  succeeds_iff := by
    intro w w'
    rw [tryForItems, resumes_emit, halts_tryForEach_value_iff,
      passes_applied_iff succeeds_noteApplied_iff]
    rfl
  fails_iff := by
    intro w w' error
    rw [tryForItems, resumes_emit, halts_tryForEach_error_iff,
      exists_reaches_applied_iff succeeds_noteApplied_iff]
    rfl
  panics_iff := by
    intro w w' p
    rw [tryForItems, resumes_emit, halts_tryForEach_panic_iff,
      exists_reaches_applied_iff succeeds_noteApplied_iff]
    rfl
  diverges_iff := by
    intro s
    rw [tryForItems, (resumes_emit _ s).diverges_iff, diverges_tryForEach_iff]
  alike_noted := alike_emit (alike_tryForItems items (alike_noteApplied action)) _

/-- However such a loop ends, it was at the first items, and at all of them if it returned. -/
theorem AppliesInTurn.visits {event : Event} {action : α → Computation σ (Effect σ β)}
    {loop : Effect σ Unit} {noted : Effect (Watched σ (Access α)) Unit} {o : Except Panic Unit}
    (hloop : AppliesInTurn event items action loop noted) (h : noted.invoke.Halts w (o, w')) :
    ∃ visited, Visits items (fun _ => True) o visited ∧
      w'.notes = w.notes ++ Access.applying visited := by
  cases o with
  | ok _ =>
    obtain ⟨t, -, rfl⟩ := hloop.returns_iff.1 h
    exact ⟨items, visits_all _ _ _, rfl⟩
  | error p =>
    obtain ⟨done, a, u, t, hreaches, -, rfl⟩ := hloop.panics_iff.1 h
    exact ⟨done ++ [a], visits_upTo hreaches.begins (fun _ _ => nofun), rfl⟩

/-- A fallible loop was at all items if it succeeded. -/
theorem TryAppliesInTurn.visits {event : Event}
    {action : α → Computation σ (Effect σ (Except ε β))} {loop : Effect σ (Except ε Unit)}
    {noted : Effect (Watched σ (Access α)) (Except ε Unit)} {o : Except Panic (Except ε Unit)}
    (hloop : TryAppliesInTurn event items action loop noted) (h : noted.invoke.Halts w (o, w')) :
    ∃ visited, Visits items (fun r => r = .ok ()) o visited ∧
      w'.notes = w.notes ++ Access.applying visited := by
  match o, h with
  | .ok (.ok ()), h =>
    obtain ⟨t, -, rfl⟩ := hloop.succeeds_iff.1 h
    exact ⟨items, visits_all _ _ _, rfl⟩
  | .ok (.error e), h =>
    obtain ⟨done, a, u, t, hreaches, -, rfl⟩ := hloop.fails_iff.1 h
    refine ⟨done ++ [a], visits_upTo hreaches.begins ?_, rfl⟩
    intro _ hsuccess
    rw [hsuccess]
    exact nofun
  | .error p, h =>
    obtain ⟨done, a, u, t, hreaches, -, rfl⟩ := hloop.panics_iff.1 h
    exact ⟨done ++ [a], visits_upTo hreaches.begins (fun _ _ => nofun), rfl⟩

end

/-- Invokes `e` after each of the others, which may do anything in between. However they end, and
however the invocations do, the row goes on. A copy of an effect is the effect, so the invocations
may as well be those of copies. -/
def invocationsAmid (e : Effect σ α) :
    List (Computation σ Unit) → Computation σ (List (Except Panic α))
  | [] => return []
  | other :: others => do
    let _ ← other.attempt
    let outcome ← e.invoke.attempt
    let outcomes ← e.invocationsAmid others
    return outcome :: outcomes

section

variable {noted : Effect (Watched σ (Access α)) γ} {items : List α} {complete : γ → Prop}

/-- If every invocation is at the first items, then so are the invocations of a row. -/
theorem visits_invocationsAmid
    (h : ∀ {w o w'}, noted.invoke.Halts w (o, w') → ∃ visited, Visits items complete o visited ∧
      w'.notes = w.notes ++ Access.applying visited)
    {others : List (Computation σ Unit)} {outcomes : List (Except Panic γ)}
    {w w' : Watched σ (Access α)}
    (hrow : (noted.invocationsAmid (others.map watched)).Halts w (.ok outcomes, w')) :
    ∃ visits, List.Forall₂ (Visits items complete) outcomes visits ∧
      w'.notes = w.notes ++ visits.flatMap Access.applying := by
  induction others generalizing w outcomes with
  | nil =>
    cases halts_pure_iff.1 hrow
    exact ⟨[], .nil, (List.append_nil _).symm⟩
  | cons other others ih =>
    obtain ⟨_, v, hother, hrow⟩ := halts_bind_value_iff.1 hrow
    obtain ⟨_, _, hother, ⟨⟩⟩ := halts_attempt_iff.1 hother
    obtain ⟨t, -, rfl⟩ := halts_watched_iff.1 hother
    obtain ⟨_, u, hfirst, hrow⟩ := halts_bind_value_iff.1 hrow
    obtain ⟨o, _, hfirst, ⟨⟩⟩ := halts_attempt_iff.1 hfirst
    obtain ⟨os, _, hrow, hend⟩ := halts_bind_value_iff.1 hrow
    cases halts_pure_iff.1 hend
    obtain ⟨visited, hvisited, hu⟩ := h hfirst
    obtain ⟨visits, hvisits, hnotes⟩ := ih hrow
    refine ⟨visited :: visits, .cons hvisited hvisits, ?_⟩
    rw [hnotes, hu, List.flatMap_cons, List.append_assoc]

/-- Notes change nothing else about a row of invocations with other work in between. -/
theorem alike_invocationsAmid {e : Effect σ γ} (h : Alike Watched.Of Eq e.invoke noted.invoke)
    (others : List (Computation σ Unit)) :
    Alike Watched.Of Eq (e.invocationsAmid others)
      (noted.invocationsAmid (others.map watched)) := by
  induction others with
  | nil => exact alike_pure rfl
  | cons other others ih =>
    refine (alike_watched other).attempt_eq.bind_eq fun _ => ?_
    refine h.attempt_eq.bind_eq fun o => ?_
    exact ih.bind_eq fun os => alike_pure rfl

end

/-! ## Loops over sources -/

theorem alike_noteAsked (next : ρ → Computation σ (Option (α × ρ))) (r : ρ) :
    Alike Watched.Of Eq (next r) (noteAsked next r) := by
  have hasked := (alike_watched (next r)).bind_eq fun answer =>
    alike_note_right (alike_pure (Eq.refl answer)) (Access.asked (answer.map Prod.fst))
  rwa [bind_pure_eq] at hasked

theorem alike_takeAll (next : ρ → Computation σ (Option (α × ρ))) (r : ρ) :
    Alike Watched.Of Eq (takeAll next r) (takeAll (noteAsked next) r) := by
  refine alike_iterate (A := Eq) (fun k l hkl => ?_) rfl
  subst hkl
  refine (alike_noteAsked next k.1).bind_eq fun answer => ?_
  cases answer with
  | none => exact alike_pure (Turn.related_refl _)
  | some _ => exact alike_pure (Turn.related_refl _)

/-- A way to make a loop over what a source has from some place on. `loop` makes the loop over
given items, and `makeNoted` and `noted` make the same loops with notes. -/
structure TakesSnapshot (next : ρ → Computation σ (Option (α × ρ))) (complete : γ → Prop)
    (make : ρ → Computation σ (Effect σ γ)) (loop : List α → Effect σ γ)
    (makeNoted : ρ → Computation (Watched σ (Access α)) (Effect (Watched σ (Access α)) γ))
    (noted : List α → Effect (Watched σ (Access α)) γ) : Prop where
  /-- The loop is made when all items of the source have been taken, and is over these items. -/
  made_iff {r : ρ} {s t : σ} {e : Effect σ γ} :
    (make r).Halts s (.ok e, t) ↔ ∃ items, TakesAll next r s items t ∧ e = loop items
  /-- It is not made only if the source panics, or has no end. -/
  panics_iff {r : ρ} {s t : σ} {p : Panic} : (make r).Halts s (.error p, t) ↔
    ∃ items q u, Takes next r s items q u ∧ (next q).Halts u (.error p, t)
  diverges_iff {r : ρ} {s : σ} : (make r).Diverges s ↔
    (∀ n, ∃ items q u, items.length = n ∧ Takes next r s items q u) ∨
    ∃ items q u, Takes next r s items q u ∧ (next q).Diverges u
  /-- Meanwhile the source is asked for each item once, in order, and the action is not applied. -/
  made_noted_iff {r : ρ} {w w' : Watched σ (Access α)} {e : Effect (Watched σ (Access α)) γ} :
    (makeNoted r).Halts w (.ok e, w') ↔
      ∃ items t, TakesAll next r w.state items t ∧ e = noted items ∧
        w' = ⟨t, w.notes ++ Access.taking items⟩
  /-- Later the source is not asked, and every invocation, whatever was done before it, applies the
  action to the items from the first one on: to all of them if it is complete. -/
  log {r : ρ} {others : List (Computation σ Unit)} {outcomes : List (Except Panic γ)}
    {w w' : Watched σ (Access α)}
    (h : (do let e ← makeNoted r; e.invocationsAmid (others.map watched)).Halts w
      (.ok outcomes, w')) :
    ∃ items t visits, TakesAll next r w.state items t ∧
      List.Forall₂ (Visits items complete) outcomes visits ∧
      w'.notes = w.notes ++ Access.taking items ++ visits.flatMap Access.applying
  /-- Taking notes changes nothing else. -/
  alike_noted (r : ρ) (others : List (Computation σ Unit)) :
    Alike Watched.Of Eq (do let e ← make r; e.invocationsAmid others)
      (do let e ← makeNoted r; e.invocationsAmid (others.map watched))

/-- It is enough that the items are taken first, and that the loop goes through them. -/
theorem takesSnapshot_of_visits {complete : γ → Prop} {loop : List α → Effect σ γ}
    {noted : List α → Effect (Watched σ (Access α)) γ}
    (next : ρ → Computation σ (Option (α × ρ)))
    (hvisits : ∀ {items w o w'}, (noted items).invoke.Halts w (o, w') →
      ∃ visited, Visits items complete o visited ∧ w'.notes = w.notes ++ Access.applying visited)
    (halike : ∀ items, Alike Watched.Of Eq (loop items).invoke (noted items).invoke) :
    TakesSnapshot next complete (fun r => do let items ← takeAll next r; return loop items) loop
      (fun r => do let items ← takeAll (noteAsked next) r; return noted items) noted := by
  have hmade : ∀ {r w w' e}, (do let items ← takeAll (noteAsked next) r; return noted items).Halts w
      (.ok e, w') ↔ ∃ items t, TakesAll next r w.state items t ∧ e = noted items ∧
        w' = ⟨t, w.notes ++ Access.taking items⟩ := by
    intro r w w' e
    rw [halts_bind_pure_value_iff]
    constructor
    · intro h
      obtain ⟨items, hall, he⟩ := h
      obtain ⟨t, hall, hw⟩ := takesAll_noteAsked_iff.1 (halts_takeAll_ok_iff.1 hall)
      exact ⟨items, t, hall, he, hw⟩
    · intro h
      obtain ⟨items, t, hall, he, hw⟩ := h
      exact ⟨items, halts_takeAll_ok_iff.2 (takesAll_noteAsked_iff.2 ⟨t, hall, hw⟩), he⟩
  constructor
  case made_iff =>
    intro r s t e
    simp only [halts_bind_pure_value_iff, halts_takeAll_ok_iff]
  case panics_iff =>
    intro r s t p
    rw [halts_bind_pure_panic_iff, halts_takeAll_error_iff]
  case diverges_iff =>
    intro r s
    rw [diverges_bind_pure_iff, diverges_takeAll_iff]
  case made_noted_iff => exact hmade
  case log =>
    intro r others outcomes w w' h
    obtain ⟨e, v, hmake, hrow⟩ := halts_bind_value_iff.1 h
    obtain ⟨items, t, hall, rfl, rfl⟩ := hmade.1 hmake
    obtain ⟨visits, hvisits, hnotes⟩ := visits_invocationsAmid hvisits hrow
    exact ⟨items, t, visits, hall, hvisits, hnotes⟩
  case alike_noted =>
    intro r others
    rw [bind_assoc, bind_assoc]
    exact (alike_takeAll next r).bind_eq fun items => alike_invocationsAmid (halike items) others

variable [Tracer σ]

/-- Takes all items of the source now, and loops over them later. -/
def forEachFrom (next : ρ → Computation σ (Option (α × ρ)))
    (action : α → Computation σ (Effect σ β)) (r : ρ) : Computation σ (Effect σ Unit) := do
  let items ← takeAll next r
  return forItems items action

/-- The same with a fallible loop. -/
def tryForEachFrom (next : ρ → Computation σ (Option (α × ρ)))
    (action : α → Computation σ (Effect σ (Except ε β))) (r : ρ) :
    Computation σ (Effect σ (Except ε Unit)) := do
  let items ← takeAll next r
  return tryForItems items action

/-- Loops over sources take all items beforehand. -/
structure LoopsSnapshot (σ : Type) [Tracer σ] : Prop where
  forEach {ρ α β : Type} (next : ρ → Computation σ (Option (α × ρ)))
    (action : α → Computation σ (Effect σ β)) :
    TakesSnapshot next (fun _ => True) (forEachFrom next action) (Effect.forItems · action)
      (forEachFrom (noteAsked next) (noteApplied action)) (Effect.forItems · (noteApplied action))
  /-- A fallible loop has gone through all items if it succeeds. -/
  tryForEach {ρ α β ε : Type} (next : ρ → Computation σ (Option (α × ρ)))
    (action : α → Computation σ (Effect σ (Except ε β))) :
    TakesSnapshot next (fun r => r = .ok ()) (tryForEachFrom next action)
      (Effect.tryForItems · action) (tryForEachFrom (noteAsked next) (noteApplied action))
      (Effect.tryForItems · (noteApplied action))
  /-- From any state, an invocation of the loop over items goes through them as far as it can. -/
  forItems {α β : Type} (items : List α) (action : α → Computation σ (Effect σ β)) :
    AppliesInTurn (.loopStarted false (.forEach items.length)) items action
      (Effect.forItems items action) (Effect.forItems items (noteApplied action))
  tryForItems {α β ε : Type} (items : List α)
    (action : α → Computation σ (Effect σ (Except ε β))) :
    TryAppliesInTurn (.loopStarted true (.forEach items.length)) items action
      (Effect.tryForItems items action) (Effect.tryForItems items (noteApplied action))
  /-- The steps that make the items, one after the other, are a source of them. -/
  forEach_steps {α β : Type} (steps : List (Computation σ α))
    (action : α → Computation σ (Effect σ β)) :
    Effect.forEach steps action ≈ forEachFrom nextOfSteps action steps
  tryForEach_steps {α β ε : Type} (steps : List (Computation σ α))
    (action : α → Computation σ (Effect σ (Except ε β))) :
    Effect.tryForEach steps action ≈ tryForEachFrom nextOfSteps action steps

/-- Loops take their items when they are made, and go through the same ones in every invocation. -/
theorem loops_snapshot : LoopsSnapshot σ where
  forEach next action := takesSnapshot_of_visits next
    (fun h => (appliesInTurn_forItems _ action).visits h) fun items =>
      (appliesInTurn_forItems items action).alike_noted
  tryForEach next action := takesSnapshot_of_visits next
    (fun h => (tryAppliesInTurn_tryForItems _ action).visits h) fun items =>
      (tryAppliesInTurn_tryForItems items action).alike_noted
  forItems := appliesInTurn_forItems
  tryForItems := tryAppliesInTurn_tryForItems
  forEach_steps steps _ :=
    bind_congr_equiv (equiv_symm (takeAll_nextOfSteps_equiv steps)) fun _ => equiv_refl _
  tryForEach_steps steps _ :=
    bind_congr_equiv (equiv_symm (takeAll_nextOfSteps_equiv steps)) fun _ => equiv_refl _

end Effect

end Deferred
