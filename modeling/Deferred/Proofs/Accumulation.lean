import Deferred.Proofs.Appending
import Deferred.Proofs.Traversal

/-!
# Combining lists of effects

A list of effects is combined by appending them from the left (`Effect.joined`). To invoke what they
come to is to fold over their invocations (`Effect.invoke_joined`): each effect is invoked once, in
order, and its value is combined with what those before it came to, before the next effect is
invoked. So the fold ends with the first effect that panics, or with the first value that overflows,
and the effects after it are not invoked (`Effect.FoldsLeft`).

A fold that starts from the neutral effect comes to the same effect as one that starts from the
first, and copies of an effect are a list like any other (`effects_accumulate`).
-/

namespace Deferred

variable {σ τ α β ι : Type}

open Deferred.Computation Deferred.Semigroup

/-! ## Folds over computations -/

namespace Computation

section

variable {r : Except Panic α} {g : α → Computation σ β} {s t : σ}

/-- What follows a result that is there already follows its value, if it is one. -/
theorem exists_lift_iff (later : α → σ → Prop) :
    (∃ a u, (liftM r : Computation σ α).Halts s (.ok a, u) ∧ later a u) ↔
      ∃ a, r = .ok a ∧ later a s := by
  constructor
  · rintro ⟨a, u, hlift, hlater⟩
    obtain ⟨hr, rfl⟩ := Prod.mk.inj (halts_lift_iff.1 hlift)
    exact ⟨a, hr.symm, hlater⟩
  · rintro ⟨a, rfl, hlater⟩
    exact ⟨a, s, halts_lift_iff.2 rfl, hlater⟩

/-- What follows a given result returns a value exactly if the result is a value that it goes on
from. -/
theorem halts_lift_bind_value_iff {b : β} :
    (liftM r >>= g).Halts s (.ok b, t) ↔ ∃ a, r = .ok a ∧ (g a).Halts s (.ok b, t) := by
  rw [halts_bind_value_iff, exists_lift_iff fun a u => (g a).Halts u (.ok b, t)]

/-- It panics exactly if the result is that panic, or a value from which the rest panics. -/
theorem halts_lift_bind_panic_iff {p : Panic} :
    (liftM r >>= g).Halts s (.error p, t) ↔
      (r = .error p ∧ s = t) ∨ ∃ a, r = .ok a ∧ (g a).Halts s (.error p, t) := by
  rw [halts_bind_panic_iff, exists_lift_iff fun a u => (g a).Halts u (.error p, t),
    halts_lift_iff, Prod.mk.injEq, eq_comm, @eq_comm _ t]

theorem diverges_lift_bind_iff :
    (liftM r >>= g).Diverges s ↔ ∃ a, r = .ok a ∧ (g a).Diverges s := by
  rw [diverges_bind_iff, exists_lift_iff fun a u => (g a).Diverges u]
  refine or_iff_right fun hlift => ?_
  exact diverges_iff.1 hlift _ (halts_lift_iff.2 rfl)

end

variable [Semigroup α]

/-- The value of `f i` combines with that of the fold so far. A place of a fold is its value and the
state. -/
def Joins (f : ι → Computation σ α) (i : ι) (k l : α × σ) : Prop :=
  ∃ a, (f i).Halts k.2 (.ok a, l.2) ∧ combine k.1 a = .ok l.1

/-- A fold that has come to `r` ends with `next`, which panics or yields a value that does not
combine with `r`. -/
def Interrupts (next : Computation σ α) (r : α) (s : σ) (p : Panic) (t : σ) : Prop :=
  next.Halts s (.error p, t) ∨ ∃ a, next.Halts s (.ok a, t) ∧ combine r a = .error p

section

variable {f : ι → Computation σ α} {items : List ι} {i : ι} {x r : α} {s t : σ}

theorem foldFrom_cons (x : α) (next : Computation σ α) (source : List (Computation σ α)) :
    foldFrom x (next :: source) =
      next >>= fun a => liftM (combine x a) >>= fun y => foldFrom y source := rfl

/-- What happens after the first item happens at a place that it leads to. -/
theorem exists_joins_iff {later : α × σ → Prop} :
    (∃ l, Joins f i (x, s) l ∧ later l) ↔
      ∃ a t, (f i).Halts s (.ok a, t) ∧ ∃ y, combine x a = .ok y ∧ later (y, t) := by
  constructor
  · rintro ⟨⟨y, t⟩, ⟨a, hf, hy⟩, hlater⟩
    exact ⟨a, t, hf, y, hy, hlater⟩
  · rintro ⟨a, t, hf, y, hy, hlater⟩
    exact ⟨(y, t), ⟨a, hf, hy⟩, hlater⟩

/-- Accumulating returns a value exactly if every item in turn was run and joined to the total. -/
theorem halts_foldFrom_value_iff :
    (foldFrom x (items.map f)).Halts s (.ok r, t) ↔ Passes (Joins f) items (x, s) (r, t) := by
  induction items generalizing x s with
  | nil =>
    rw [passes_nil_iff, Prod.mk.injEq]
    exact halts_pure_iff.trans (by rw [Prod.mk.injEq, Except.ok.injEq, eq_comm, @eq_comm _ t])
  | cons i items ih =>
    rw [List.map_cons, foldFrom_cons, halts_bind_value_iff, passes_cons_iff, exists_joins_iff]
    simp only [halts_lift_bind_value_iff, ih]

/-- It panics as the first item does that interrupts it. -/
theorem halts_foldFrom_panic_iff {p : Panic} :
    (foldFrom x (items.map f)).Halts s (.error p, t) ↔
      ∃ done i k, Reaches (Joins f) items (x, s) done i k ∧ Interrupts (f i) k.1 k.2 p t := by
  refine exists_reaches_iff (s := (x, s))
    (fun items k => (foldFrom k.1 (items.map f)).Halts k.2 (.error p, t))
    (fun i k => Interrupts (f i) k.1 k.2 p t) ?_ ?_
  · exact fun k h => nomatch halts_pure_iff.1 h
  · rintro i items ⟨x, s⟩
    rw [List.map_cons, foldFrom_cons, halts_bind_panic_iff, exists_joins_iff, Interrupts]
    simp only [halts_lift_bind_panic_iff, and_or_left, exists_or]
    rw [or_assoc]
    -- A value that does not combine leaves the state as it is.
    refine or_congr_right (or_congr_left ⟨?_, ?_⟩)
    · rintro ⟨a, u, hf, hp, rfl⟩
      exact ⟨a, hf, hp⟩
    · rintro ⟨a, hf, hp⟩
      exact ⟨a, t, hf, hp, rfl⟩

/-- Accumulating runs forever exactly if an item does, after the ones before it were joined. -/
theorem diverges_foldFrom_iff :
    (foldFrom x (items.map f)).Diverges s ↔
      ∃ done i k, Reaches (Joins f) items (x, s) done i k ∧ (f i).Diverges k.2 := by
  refine exists_reaches_iff (s := (x, s))
    (fun items k => (foldFrom k.1 (items.map f)).Diverges k.2)
    (fun i k => (f i).Diverges k.2) ?_ ?_
  · exact fun k h => absurd (halts_pure_iff.2 rfl) (diverges_iff.1 h _)
  · rintro i items ⟨x, s⟩
    rw [List.map_cons, foldFrom_cons, diverges_bind_iff, exists_joins_iff]
    simp only [diverges_lift_bind_iff]

/-- The turns of a fold pass if all values can be taken, and combine from the left. -/
theorem passes_joins_iff :
    Passes (Joins f) items (x, s) (r, t) ↔
      ∃ xs, (items.mapM f).Halts s (.ok xs, t) ∧ xs.foldlM combine x = .ok r := by
  induction items generalizing x s with
  | nil =>
    rw [passes_nil_iff, Prod.mk.injEq]
    constructor
    · rintro ⟨rfl, rfl⟩
      exact ⟨[], halts_pure_iff.2 rfl, rfl⟩
    · rintro ⟨xs, hvalues, hfold⟩
      cases halts_pure_iff.1 hvalues
      cases hfold
      exact ⟨rfl, rfl⟩
  | cons i items ih =>
    rw [passes_cons_iff, exists_joins_iff, List.mapM_cons]
    simp only [ih, halts_bind_value_iff]
    constructor
    · rintro ⟨a, u, hf, y, hy, xs, hvalues, hfold⟩
      refine ⟨a :: xs, ⟨a, u, hf, xs, t, hvalues, halts_pure_iff.2 rfl⟩, ?_⟩
      rw [List.foldlM_cons]
      exact bind_eq_ok_iff.2 ⟨y, hy, hfold⟩
    · rintro ⟨_, ⟨a, u, hf, xs, v, hvalues, hend⟩, hfold⟩
      cases halts_pure_iff.1 hend
      rw [List.foldlM_cons] at hfold
      obtain ⟨y, hy, hfold⟩ := bind_eq_ok_iff.1 hfold
      exact ⟨a, u, hf, y, hy, xs, hvalues, hfold⟩

end

end Computation

namespace Effect

/-! ## Lists of effects -/

section

variable [Semigroup α]

/-- Invokes `e`, then `d`, and combines their values. -/
def appended (e d : Effect σ α) : Effect σ α := e.map2 d fun x y => combine x y

/-- Appends all of the effects to `e`, from the left. -/
def joined (e : Effect σ α) (es : List (Effect σ α)) : Effect σ α := es.foldl appended e

/-- To invoke joined effects is to fold over their invocations. -/
theorem invoke_joined (e : Effect σ α) (es : List (Effect σ α)) :
    (e.joined es).invoke = e.invoke >>= fun x => foldFrom x (es.map invoke) := by
  induction es generalizing e with
  | nil => exact (bind_pure_eq e.invoke).symm
  | cons d es ih =>
    have hfirst : (e.appended d).invoke =
        e.invoke >>= fun x => d.invoke >>= fun y => liftM (combine x y) := rfl
    calc (e.joined (d :: es)).invoke
        = (e.appended d).invoke >>= fun xy => foldFrom xy (es.map invoke) := ih (e.appended d)
      _ = e.invoke >>= fun x => foldFrom x ((d :: es).map invoke) := by
        rw [hfirst]
        simp only [bind_assoc, List.map_cons, foldFrom_cons]

/-- Combining effects invokes none of them, so a fold makes them all and then joins them. -/
theorem foldFrom_eq_joined (e : Effect σ α) (source : List (Computation τ (Effect σ α))) :
    foldFrom e source = source.mapM id >>= fun es => Pure.pure (e.joined es) := by
  induction source generalizing e with
  | nil => rfl
  | cons next source ih =>
    have hcombine : ∀ d : Effect σ α,
        (liftM (combine e d) : Computation τ (Effect σ α)) = Pure.pure (e.appended d) :=
      fun _ => rfl
    rw [foldFrom_cons, List.mapM_cons, bind_assoc]
    refine bind_congr fun d => ?_
    rw [hcombine, pure_bind, ih, bind_assoc]
    rfl

/-- `reduceAll` takes the effects in order, then joins them to the first. -/
theorem reduceAll_eq_joined (step : Computation τ (Effect σ α))
    (steps : List (Computation τ (Effect σ α))) :
    reduceAll (step :: steps) = do
      let e ← step
      let es ← steps.mapM id
      return some (e.joined es) := by
  refine bind_congr fun e => ?_
  rw [foldFrom_eq_joined, bind_assoc]
  rfl

/-- The remaining copies are joined to the effect there is, from the left. -/
theorem combineMore_eq_joined (e d : Effect σ α) (count : Nat) :
    combineMore d count e = .ok (e.joined (List.replicate count d)) := by
  induction count generalizing e with
  | zero => rfl
  | succ count ih => exact ih (e.appended d)

end

/-- The neutral effect changes nothing before the first one. -/
theorem joined_empty [Monoid α] (h : CombiningLaws α) (e : Effect σ α) (es : List (Effect σ α)) :
    (pure Monoid.empty).joined (e :: es) = e.joined es :=
  congrArg (fun d => d.joined es) (empty_map2_eq h e)

/-- `combineAll` over a nonempty source joins the first effect to the others: the empty value it
starts from is absorbed. -/
theorem combineAll_eq_joined [Monoid α] (h : CombiningLaws α) (step : Computation τ (Effect σ α))
    (steps : List (Computation τ (Effect σ α))) :
    Monoid.combineAll (step :: steps) = do
      let e ← step
      let es ← steps.mapM id
      return e.joined es := by
  have hfold : Monoid.combineAll (step :: steps) = (step :: steps).mapM id >>= fun es =>
      Pure.pure ((pure Monoid.empty : Effect σ α).joined es) :=
    foldFrom_eq_joined _ _
  rw [hfold, List.mapM_cons, bind_assoc]
  refine bind_congr fun e => ?_
  rw [bind_assoc]
  refine bind_congr fun es => ?_
  rw [pure_bind, joined_empty h]

/-! ## Which effects are invoked -/

/-- Each effect with a note of its invocations. -/
def notedItem (make : ι → Effect σ α) (i : ι) : Effect (Watched σ ι) α := (make i).noted i

section

variable {make : ι → Effect σ α} {i : ι} {items : List ι} {w w' : Watched σ ι}

/-- The values are taken in order, and each effect has been invoked once. -/
theorem halts_mapM_notedItem_iff {xs : List α} :
    (items.mapM fun j => (notedItem make j).invoke).Halts w (.ok xs, w') ↔
      ∃ t, (items.mapM fun j => (make j).invoke).Halts w.state (.ok xs, t) ∧
        w' = ⟨t, w.notes ++ items⟩ := by
  induction items generalizing xs w w' with
  | nil =>
    simp only [List.mapM_nil, halts_pure_iff, List.append_nil]
    constructor
    · rintro ⟨⟩
      exact ⟨_, rfl, rfl⟩
    · rintro ⟨t, ⟨⟩, rfl⟩
      rfl
  | cons j items ih =>
    simp only [List.mapM_cons, halts_bind_value_iff, ih]
    constructor
    · rintro ⟨a, _, hnoted, xs, _, ⟨t, hrest, rfl⟩, hend⟩
      obtain ⟨u, hfirst, rfl⟩ := halts_noted_iff.1 hnoted
      cases halts_pure_iff.1 hend
      refine ⟨t, ⟨a, u, hfirst, xs, t, hrest, halts_pure_iff.2 rfl⟩, congrArg (Watched.mk t) ?_⟩
      exact List.append_assoc w.notes [j] items
    · rintro ⟨t, ⟨a, u, hfirst, xs, v, hrest, hend⟩, rfl⟩
      cases halts_pure_iff.1 hend
      refine ⟨a, ⟨u, w.notes ++ [j]⟩, halts_noted_iff.2 ⟨u, hfirst, rfl⟩, xs, _,
        ⟨t, hrest, rfl⟩, halts_pure_iff.2 ?_⟩
      rw [List.append_assoc, List.singleton_append]

end

/-! ## How a row of effects ends -/

section

variable [Semigroup α]

/-- The effects yield values, one after the other, and these combine from the left to `r`. -/
def Accumulates (make : ι → Effect σ α) (i : ι) (items : List ι) (s : σ) (r : α) (t : σ) : Prop :=
  ∃ x xs, ((i :: items).mapM fun j => (make j).invoke).Halts s (.ok (x :: xs), t) ∧
    xs.foldlM combine x = .ok r

section

variable {make : ι → Effect σ α} {i : ι} {items : List ι} {r : α} {s t : σ}

/-- Some items accumulate exactly if the first one returned and each later one was joined to the
total. -/
theorem accumulates_iff :
    Accumulates make i items s r t ↔
      ∃ x u, (make i).invoke.Halts s (.ok x, u) ∧
        Passes (Joins fun j => (make j).invoke) items (x, u) (r, t) := by
  simp only [Accumulates, passes_joins_iff, List.mapM_cons, halts_bind_value_iff]
  constructor
  · rintro ⟨x, xs, ⟨_, u, hfirst, _, v, hrest, hend⟩, hfold⟩
    cases halts_pure_iff.1 hend
    exact ⟨x, u, hfirst, xs, hrest, hfold⟩
  · rintro ⟨x, u, hfirst, xs, hrest, hfold⟩
    exact ⟨x, xs, ⟨x, u, hfirst, xs, t, hrest, halts_pure_iff.2 rfl⟩, hfold⟩

/-- When it is the turn of an item, the values before it have combined. -/
theorem exists_reaches_joins_iff (inTurn : ι → α → σ → Prop) :
    (∃ x u, (make i).invoke.Halts s (.ok x, u) ∧ ∃ done j k,
        Reaches (Joins fun j => (make j).invoke) items (x, u) done j k ∧ inTurn j k.1 k.2) ↔
      ∃ done j r u, done ++ [j] <+: items ∧ Accumulates make i done s r u ∧ inTurn j r u := by
  constructor
  · rintro ⟨x, u, hfirst, done, j, ⟨r, v⟩, ⟨hbegins, hpasses⟩, hlast⟩
    exact ⟨done, j, r, v, hbegins, accumulates_iff.2 ⟨x, u, hfirst, hpasses⟩, hlast⟩
  · rintro ⟨done, j, r, v, hbegins, hdone, hlast⟩
    obtain ⟨x, u, hfirst, hpasses⟩ := accumulates_iff.1 hdone
    exact ⟨x, u, hfirst, done, j, (r, v), ⟨hbegins, hpasses⟩, hlast⟩

/-- To invoke the joined effects of some items is to fold over the items. -/
theorem invoke_joined_map (make : ι → Effect σ α) (i : ι) (items : List ι) :
    ((make i).joined (items.map make)).invoke =
      (make i).invoke >>= fun x => foldFrom x (items.map fun j => (make j).invoke) := by
  rw [invoke_joined, List.map_map]
  rfl

/-- The joined effect returns a value exactly if all its items accumulate to it. -/
theorem halts_joined_value_iff :
    ((make i).joined (items.map make)).invoke.Halts s (.ok r, t) ↔
      Accumulates make i items s r t := by
  rw [invoke_joined_map, halts_bind_value_iff, accumulates_iff]
  simp only [halts_foldFrom_value_iff]

/-- It panics exactly if the first item does, or a later one interrupts what has accumulated so
far. -/
theorem halts_joined_panic_iff {p : Panic} :
    ((make i).joined (items.map make)).invoke.Halts s (.error p, t) ↔
      (make i).invoke.Halts s (.error p, t) ∨
      ∃ done j r u, done ++ [j] <+: items ∧ Accumulates make i done s r u ∧
        Interrupts (make j).invoke r u p t := by
  rw [invoke_joined_map, halts_bind_panic_iff]
  simp only [halts_foldFrom_panic_iff]
  rw [exists_reaches_joins_iff fun j r u => Interrupts (make j).invoke r u p t]

/-- It runs forever exactly if one of its items does, once the earlier ones have accumulated. -/
theorem diverges_joined_iff :
    ((make i).joined (items.map make)).invoke.Diverges s ↔
      (make i).invoke.Diverges s ∨
      ∃ done j r u, done ++ [j] <+: items ∧ Accumulates make i done s r u ∧
        (make j).invoke.Diverges u := by
  rw [invoke_joined_map, diverges_bind_iff]
  simp only [diverges_foldFrom_iff]
  rw [exists_reaches_joins_iff fun j _ u => (make j).invoke.Diverges u]

end

section

variable {make : ι → Effect σ α} {i : ι} {items : List ι} {r : α} {w w' : Watched σ ι}

/-- Items that note their turns accumulate as they do without notes, and note them in order. -/
theorem accumulates_notedItem_iff :
    Accumulates (notedItem make) i items w r w' ↔
      ∃ t, Accumulates make i items w.state r t ∧ w' = ⟨t, w.notes ++ i :: items⟩ := by
  simp only [Accumulates, halts_mapM_notedItem_iff]
  constructor
  · rintro ⟨x, xs, ⟨t, hvalues, rfl⟩, hfold⟩
    exact ⟨t, ⟨x, xs, hvalues, hfold⟩, rfl⟩
  · rintro ⟨t, ⟨x, xs, hvalues, hfold⟩, rfl⟩
    exact ⟨x, xs, ⟨t, hvalues, rfl⟩, hfold⟩

/-- An item that interrupts notes its own turn before it does. -/
theorem interrupts_notedItem_iff {p : Panic} :
    Interrupts (notedItem make i).invoke r w p w' ↔
      ∃ t, Interrupts (make i).invoke r w.state p t ∧ w' = ⟨t, w.notes ++ [i]⟩ := by
  simp only [Interrupts, notedItem, halts_noted_iff]
  constructor
  · rintro (⟨t, hpanics, rfl⟩ | ⟨a, ⟨t, hvalue, rfl⟩, hp⟩)
    · exact ⟨t, .inl hpanics, rfl⟩
    · exact ⟨t, .inr ⟨a, hvalue, hp⟩, rfl⟩
  · rintro ⟨t, hpanics | ⟨a, hvalue, hp⟩, rfl⟩
    · exact .inl ⟨t, hpanics, rfl⟩
    · exact .inr ⟨a, ⟨t, hvalue, rfl⟩, hp⟩

/-- Accumulating related items leads to related ends. -/
theorem alike_foldFrom {x : α} {f : ι → Computation σ α} {g : ι → Computation (Watched σ ι) α}
    (h : ∀ j, Alike Watched.Of Eq (f j) (g j)) :
    Alike Watched.Of Eq (foldFrom x (items.map f)) (foldFrom x (items.map g)) := by
  induction items generalizing x with
  | nil => exact alike_pure rfl
  | cons j items ih =>
    exact (h j).bind_eq fun a => (alike_lift (combine x a)).bind_eq fun y => ih

end

end

/-- `combined` folds over the effects of some items from the left. `noted` is the same with notes of
the invocations. -/
structure FoldsLeft [Monoid α] (make : ι → Effect σ α) (i : ι) (items : List ι)
    (combined : Effect σ α) (noted : Effect (Watched σ ι) α) : Prop where
  /-- A value is combined with those before it as soon as it is there. -/
  order : combined.invoke =
    (make i).invoke >>= fun x => foldFrom x (items.map fun j => (make j).invoke)
  /-- If they all yield values that combine, each has been invoked once, in order. -/
  returns_noted_iff {w w' : Watched σ ι} {r : α} : noted.invoke.Halts w (.ok r, w') ↔
    ∃ t, Accumulates make i items w.state r t ∧ w' = ⟨t, w.notes ++ i :: items⟩
  /-- Otherwise that is so up to the first one that panics, or whose value does not combine with
  those before it. -/
  panics_noted_iff {w w' : Watched σ ι} {p : Panic} : noted.invoke.Halts w (.error p, w') ↔
    (∃ t, (make i).invoke.Halts w.state (.error p, t) ∧ w' = ⟨t, w.notes ++ [i]⟩) ∨
    ∃ done j r u t, done ++ [j] <+: items ∧ Accumulates make i done w.state r u ∧
      Interrupts (make j).invoke r u p t ∧ w' = ⟨t, w.notes ++ i :: (done ++ [j])⟩
  diverges_iff {s : σ} : combined.invoke.Diverges s ↔
    (make i).invoke.Diverges s ∨
    ∃ done j r u, done ++ [j] <+: items ∧ Accumulates make i done s r u ∧
      (make j).invoke.Diverges u
  /-- A value that does not combine with those before it overflows, and that is the end, in the
  state of the effect that yielded it. -/
  overflow {done : List ι} {j : ι} {s u t : σ} {r a : α} {p : Panic}
    (hbegins : done ++ [j] <+: items) (hdone : Accumulates make i done s r u)
    (ha : (make j).invoke.Halts u (.ok a, t)) (hp : combine r a = .error p) :
    (p = Overflow.add.panic ∨ p = Overflow.mul.panic) ∧
      ∀ ending, combined.invoke.Halts s ending ↔ ending = (.error p, t)
  /-- Taking notes changes nothing else. -/
  alike_noted : Alike Watched.Of Eq combined.invoke noted.invoke

/-- Joined effects are invoked once each and in order, their values combined from the left. -/
theorem foldsLeft_joined [Monoid α] (h : Combinable α) (make : ι → Effect σ α) (i : ι)
    (items : List ι) :
    FoldsLeft make i items ((make i).joined (items.map make))
      ((notedItem make i).joined (items.map (notedItem make))) where
  order := invoke_joined_map make i items
  returns_noted_iff := by
    intro w w' r
    rw [halts_joined_value_iff, accumulates_notedItem_iff]
  panics_noted_iff := by
    intro w w' p
    rw [halts_joined_panic_iff]
    refine or_congr halts_noted_iff ?_
    simp only [accumulates_notedItem_iff, interrupts_notedItem_iff]
    constructor
    · rintro ⟨done, j, r, _, hbegins, ⟨u, hdone, rfl⟩, t, hlast, rfl⟩
      refine ⟨done, j, r, u, t, hbegins, hdone, hlast, congrArg (Watched.mk t) ?_⟩
      exact List.append_assoc w.notes (i :: done) [j]
    · rintro ⟨done, j, r, u, t, hbegins, hdone, hlast, rfl⟩
      refine ⟨done, j, r, _, hbegins, ⟨u, hdone, rfl⟩, t, hlast, congrArg (Watched.mk t) ?_⟩
      exact (List.append_assoc w.notes (i :: done) [j]).symm
  diverges_iff := diverges_joined_iff
  overflow := by
    intro done j s u t r a p hbegins hdone ha hp
    have hend : ((make i).joined (items.map make)).invoke.Halts s (.error p, t) :=
      halts_joined_panic_iff.2 (.inr ⟨done, j, r, u, hbegins, hdone, .inr ⟨a, ha, hp⟩⟩)
    refine ⟨h.overflow hp, fun ending => ⟨fun hending => halts_unique hending hend, ?_⟩⟩
    rintro rfl
    exact hend
  alike_noted := by
    rw [invoke_joined_map, invoke_joined_map]
    exact (alike_noted i (make i)).bind_eq fun x => alike_foldFrom fun j => alike_noted j (make j)

end Effect

/-! ## The laws together -/

/-- How lists of effects are combined. -/
structure EffectsAccumulate (σ α : Type) [Monoid α] : Prop where
  /-- No effects come to none, or to the neutral one. -/
  reduceAll_nil {τ : Type} : reduceAll [] = (pure none : Computation τ (Option (Effect σ α)))
  combineAll_nil {τ : Type} :
    Monoid.combineAll [] = (pure (Effect.pure Monoid.empty) : Computation τ (Effect σ α))
  /-- Both ways make all effects of the source and invoke none, and come to the same effect. -/
  reduceAll {τ : Type} (step : Computation τ (Effect σ α))
    (steps : List (Computation τ (Effect σ α))) :
    reduceAll (step :: steps) = do
      let e ← step
      let es ← steps.mapM id
      return some (e.joined es)
  combineAll {τ : Type} (step : Computation τ (Effect σ α))
    (steps : List (Computation τ (Effect σ α))) :
    Monoid.combineAll (step :: steps) = do
      let e ← step
      let es ← steps.mapM id
      return e.joined es
  /-- It invokes every effect once, in order, and combines the values from the left. -/
  joined {ι : Type} (make : ι → Effect σ α) (i : ι) (items : List ι) :
    Effect.FoldsLeft make i items ((make i).joined (items.map make))
      ((Effect.notedItem make i).joined (items.map (Effect.notedItem make)))
  /-- Copies of an effect are combined as a list of them is. -/
  combineN (e : Effect σ α) (count : Nat) :
    ∃ c noted, combineN e (count + 1) = .ok c ∧ combineN (e.noted ()) (count + 1) = .ok noted ∧
      (∀ τ, Semigroup.reduceAll (List.replicate (count + 1) (pure e)) =
        (pure (some c) : Computation τ (Option (Effect σ α)))) ∧
      Effect.FoldsLeft (fun () => e) () (List.replicate count ()) c noted

/-- Reducing, combining all and combining copies of effects all accumulate from the left. -/
theorem effects_accumulate [Monoid α] (h : Combinable α) : EffectsAccumulate σ α where
  reduceAll_nil := rfl
  combineAll_nil := rfl
  reduceAll := Effect.reduceAll_eq_joined
  combineAll := Effect.combineAll_eq_joined h.combiningLaws
  joined := Effect.foldsLeft_joined h
  combineN e count := by
    have hcopies := Effect.foldsLeft_joined h (fun () => e) () (List.replicate count ())
    rw [List.map_replicate, List.map_replicate] at hcopies
    refine ⟨e.joined (List.replicate count e), _, Effect.combineMore_eq_joined e e count,
      Effect.combineMore_eq_joined _ _ count, fun τ => ?_, hcopies⟩
    rw [List.replicate_succ, Effect.reduceAll_eq_joined, ← List.map_replicate,
      mapM_id_map_pure]
    rfl

/-- A hundred and 27 make the greatest number, to which one cannot be added: the fourth effect is
not invoked. -/
theorem effects_accumulate_counting :
    Combinable (Sum (Fixed .i8)) ∧ ∃ c : Effect Nat (Sum (Fixed .i8)),
      reduceAll [pure (counting ⟨100, by decide, by decide⟩),
        pure (counting ⟨27, by decide, by decide⟩), pure (counting ⟨1, by decide, by decide⟩),
        pure (counting ⟨5, by decide, by decide⟩)] =
          (pure (some c) : Computation Unit (Option (Effect Nat (Sum (Fixed .i8))))) ∧
      ∀ ending, c.invoke.Halts 0 ending ↔ ending = (.error Overflow.add.panic, 3) := by
  have hsum : Combinable (Sum (Fixed .i8)) := .sum .i8
  have hfolds := (effects_accumulate (σ := Nat) hsum).joined counting
    ⟨100, by decide, by decide⟩ [⟨27, by decide, by decide⟩, ⟨1, by decide, by decide⟩,
      ⟨5, by decide, by decide⟩]
  have hdone : Effect.Accumulates counting ⟨100, by decide, by decide⟩
      [⟨27, by decide, by decide⟩] 0 ⟨⟨127, by decide, by decide⟩⟩ 2 :=
    ⟨⟨⟨100, by decide, by decide⟩⟩, [⟨⟨27, by decide, by decide⟩⟩], ⟨0, rfl⟩, rfl⟩
  have hone : (counting ⟨1, by decide, by decide⟩).invoke.Halts 2
      (.ok ⟨⟨1, by decide, by decide⟩⟩, 3) := ⟨0, rfl⟩
  have hbegins : [⟨27, by decide, by decide⟩] ++ [(⟨1, by decide, by decide⟩ : Fixed .i8)] <+:
      [⟨27, by decide, by decide⟩, ⟨1, by decide, by decide⟩, ⟨5, by decide, by decide⟩] :=
    ⟨[⟨5, by decide, by decide⟩], rfl⟩
  exact ⟨hsum, _, rfl, (hfolds.overflow hbegins hdone hone rfl).2⟩

end Deferred
