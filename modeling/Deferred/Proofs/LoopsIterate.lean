import Deferred.Effect.EarlyExit
import Deferred.Number.Arithmetic
import Deferred.Program.World
import Deferred.Proofs.Alike

/-!
# Every loop is an iteration

Each loop is coded by itself, and each goes as the iteration whose step is one of its turns
(`Effect.loops_iterate`). The state of the iteration is what the loop has still to do: nothing to be
remembered, the next index, or the items left. The loops that report their start report it first,
and that is all that tells them from the iteration (`Effect.GoesAs`).

A loop whose turns are not counted beforehand has the same runs as its iteration
(`Run.eq_iterate`). One over a range or a list spends no turns of the budget, so there the two are
compared by induction on what is left.
-/

namespace Deferred

variable {σ α β γ ε : Type}

namespace Run

/-! ## Runs with the turns of an iteration -/

theorem next_next (x : Run σ α) (f : α → Run σ β) (g : β → Run σ γ) :
    (x.next f).next g = x.next fun a => (f a).next g := by
  funext s
  simp only [next]
  cases x s with
  | none => rfl
  | some r => obtain ⟨_ | _, _⟩ := r <;> rfl

/-- What is done with a turn. -/
def onTurn (x : α → Run σ γ) (k : β → Run σ γ) : Turn α β → Run σ γ
  | .again a => x a
  | .finish b => k b

/-- What takes a step in every turn and stops where the step finishes is an iteration. -/
theorem eq_iterate {f : α → Run σ (Turn α β)} (loop : (turns : Nat) → α → Run σ β)
    (hzero : ∀ a, loop 0 a = unfinished)
    (hturn : ∀ turns a, loop (turns + 1) a = (f a).next (onTurn (loop turns) done)) (turns : Nat)
    (a : α) : loop turns a = iterate f turns a := by
  induction turns generalizing a with
  | zero => exact hzero a
  | succ turns ih =>
    rw [hturn]
    refine next_congr fun turn => ?_
    cases turn with
    | again a' => exact ih a'
    | finish b => rfl

end Run

namespace Effect

open Deferred.Computation

/-! ## The steps -/

/-- Another turn after a success, and the end with the error after an error. -/
def againUnlessError (next : α) : Except ε β → Turn α (Except ε γ)
  | .ok _ => .again next
  | .error error => .finish (.error error)

/-- Checks, and finishes if the check succeeds. -/
def untilStep (condition : Effect σ Bool) (_ : Unit) :
    Computation σ (Effect σ (Turn Unit Unit)) :=
  return condition.map fun holds => return if holds then .finish () else .again ()

/-- Checks, and finishes unless the check succeeds; runs the body if it does. -/
def whileStep (condition : Effect σ Bool) (body : Effect σ α) (_ : Unit) :
    Computation σ (Effect σ (Turn Unit Unit)) :=
  return condition.bind fun holds =>
    return if holds then body.replace (.again ()) else pure (.finish ())

/-- Takes the step of an index below `high`, and goes on with the next index. The index is added to
as any other number is. -/
def rangeStep (high : Fixed .i32) (step : Fixed .i32 → Computation σ (Effect σ α))
    (i : Fixed .i32) : Computation σ (Effect σ (Turn (Fixed .i32) Unit)) := do
  if i.val < high.val then
    let e ← step i
    let next ← (Arithmetic.add i Fixed.one : Except Panic (Fixed .i32))
    return e.replace (.again next)
  else
    return pure (.finish ())

/-- Takes the action of the first item, and goes on with the other items. -/
def itemStep (action : α → Computation σ (Effect σ β)) :
    List α → Computation σ (Effect σ (Turn (List α) Unit))
  | [] => return pure (.finish ())
  | a :: rest => do
    let e ← action a
    return e.replace (.again rest)

def foreverStep (e : Effect σ α) (_ : Unit) : Computation σ (Effect σ (Turn Unit β)) :=
  return e.replace (.again ())

/-- Checks, and finishes if the check succeeds or yields an error. -/
def tryUntilStep (condition : Effect σ (Except ε Bool)) (_ : Unit) :
    Computation σ (Effect σ (Turn Unit (Except ε Unit))) :=
  return condition.map fun
    | .ok holds => return if holds then .finish (.ok ()) else .again ()
    | .error error => return .finish (.error error)

/-- Checks, and finishes unless the check succeeds; runs the body if it does, and finishes if that
yields an error. -/
def tryWhileStep (condition : Effect σ (Except ε Bool)) (body : Effect σ (Except ε α)) (_ : Unit) :
    Computation σ (Effect σ (Turn Unit (Except ε Unit))) :=
  return condition.bind fun
    | .ok holds =>
      return if holds then body.map fun r => return againUnlessError () r
        else pure (.finish (.ok ()))
    | .error error => return pure (.finish (.error error))

/-- Takes the step of an index below `high`, and goes on with the next index unless there is an
error. -/
def tryRangeStep (high : Fixed .i32) (step : Fixed .i32 → Computation σ (Effect σ (Except ε α)))
    (i : Fixed .i32) : Computation σ (Effect σ (Turn (Fixed .i32) (Except ε Unit))) := do
  if i.val < high.val then
    let e ← step i
    let next ← (Arithmetic.add i Fixed.one : Except Panic (Fixed .i32))
    return e.map fun r => return againUnlessError next r
  else
    return pure (.finish (.ok ()))

/-- Takes the action of the first item, and goes on with the other items unless there is an
error. -/
def tryItemStep (action : α → Computation σ (Effect σ (Except ε β))) :
    List α → Computation σ (Effect σ (Turn (List α) (Except ε Unit)))
  | [] => return pure (.finish (.ok ()))
  | a :: rest => do
    let e ← action a
    return e.map fun r => return againUnlessError rest r

/-! ## Loops without an end in sight -/

/-- The loop is the iteration of its checks. -/
theorem untilTrue_equiv_iterate (c : Effect σ Bool) :
    Computation.untilTrue c.invoke ≈ Computation.iterate (fun u => enter (untilStep c u)) () := by
  refine equiv_of_eq (Computation.ext fun n s => congrFun ?_ s)
  refine Run.eq_iterate (fun turns _ => Run.untilTrue (c.invoke.run n) turns)
    (fun _ => rfl) (fun turns _ => ?_) n ()
  refine Eq.trans (Run.next_congr fun holds => ?_) (Run.next_next _ _ _).symm
  cases holds <;> rfl

/-- The loop is the iteration of a check and the body after it. -/
theorem whileTrue_equiv_iterate (c : Effect σ Bool) (b : Effect σ α) :
    Computation.whileTrue c.invoke b.invoke ≈
      Computation.iterate (fun u => enter (whileStep c b u)) () := by
  refine equiv_of_eq (Computation.ext fun n s => congrFun ?_ s)
  refine Run.eq_iterate (fun turns _ => Run.whileTrue (c.invoke.run n) (b.invoke.run n) turns)
    (fun _ => rfl) (fun turns _ => ?_) n ()
  refine Eq.trans (Run.next_congr fun holds => ?_) (Run.next_next _ _ _).symm
  cases holds with
  | true =>
    exact (Run.next_next (b.invoke.run n) (fun _ => Run.done (Turn.again ()))
      (Run.onTurn (fun _ => Run.whileTrue (c.invoke.run n) (b.invoke.run n) turns) Run.done)).symm
  | false => rfl

/-- Repeating without end is an iteration that never finishes. -/
theorem forever_equiv_iterate (e : Effect σ α) :
    (Computation.forever e.invoke : Computation σ β) ≈
      Computation.iterate (fun u => enter (foreverStep e u)) () := by
  refine equiv_of_eq (Computation.ext fun n s => congrFun ?_ s)
  refine Run.eq_iterate (fun turns _ => Run.forever (e.invoke.run n) turns)
    (fun _ => rfl) (fun turns _ => ?_) n ()
  exact (Run.next_next (e.invoke.run n) (fun _ => Run.done (Turn.again ()))
    (Run.onTurn (fun _ => Run.forever (e.invoke.run n) turns) Run.done)).symm

/-- The fallible loop is an iteration that also finishes at an error. -/
theorem tryUntil_equiv_iterate (c : Effect σ (Except ε Bool)) :
    Computation.tryUntil c.invoke ≈
      Computation.iterate (fun u => enter (tryUntilStep c u)) () := by
  refine equiv_of_eq (Computation.ext fun n s => congrFun ?_ s)
  refine Run.eq_iterate (fun turns _ => Run.tryUntil (c.invoke.run n) turns)
    (fun _ => rfl) (fun turns _ => ?_) n ()
  refine Eq.trans (Run.next_congr fun r => ?_) (Run.next_next _ _ _).symm
  match r with
  | .ok true | .ok false | .error _ => rfl

theorem tryWhile_equiv_iterate (c : Effect σ (Except ε Bool)) (b : Effect σ (Except ε α)) :
    Computation.tryWhile c.invoke b.invoke ≈
      Computation.iterate (fun u => enter (tryWhileStep c b u)) () := by
  refine equiv_of_eq (Computation.ext fun n s => congrFun ?_ s)
  refine Run.eq_iterate (fun turns _ => Run.tryWhile (c.invoke.run n) (b.invoke.run n) turns)
    (fun _ => rfl) (fun turns _ => ?_) n ()
  refine Eq.trans (Run.next_congr fun r => ?_) (Run.next_next _ _ _).symm
  match r with
  | .ok true =>
    refine Eq.trans (Run.next_congr fun r => ?_) (Run.next_next (b.invoke.run n)
      (fun r => Run.done (againUnlessError () r)) (Run.onTurn _ Run.done)).symm
    cases r <;> rfl
  | .ok false | .error _ => rfl

/-! ## Loops with a length -/

/-- What is done with the value of an effect is done after the effect has been made and invoked. -/
theorem enter_map (make : Computation σ (Effect σ α)) (f : α → Computation σ β) :
    enter (do let e ← make; return e.map f) = enter make >>= f := by
  simp only [enter, map, bind_assoc, pure_bind]

/-- A loop over items is an iteration over the items that are left. -/
theorem forItems_equiv_iterate (items : List α) (action : α → Computation σ (Effect σ β)) :
    Computation.forEach items (fun a => enter (action a)) ≈
      Computation.iterate (fun items => enter (itemStep action items)) items := by
  induction items with
  | nil => exact equiv_symm (iterate_equiv_onTurn _ [])
  | cons a rest ih =>
    have hstep : enter (itemStep action (a :: rest)) =
        enter (action a) >>= fun _ => Pure.pure (.again rest) := enter_map (action a) _
    rw [forEach_cons]
    refine equiv_symm (Computation.equiv_trans (iterate_equiv_onTurn _ (a :: rest)) ?_)
    rw [hstep, bind_assoc]
    exact bind_congr_equiv (equiv_refl _) fun _ => equiv_symm ih

/-- The fallible one finishes at the first error with the rest of them left. -/
theorem tryForItems_equiv_iterate (items : List α)
    (action : α → Computation σ (Effect σ (Except ε β))) :
    Computation.tryForEach items (fun a => enter (action a)) ≈
      Computation.iterate (fun items => enter (tryItemStep action items)) items := by
  induction items with
  | nil => exact equiv_symm (iterate_equiv_onTurn _ [])
  | cons a rest ih =>
    have hstep : enter (tryItemStep action (a :: rest)) =
        enter (action a) >>= fun r => Pure.pure (againUnlessError rest r) := enter_map (action a) _
    rw [tryForEach_cons]
    refine equiv_symm (Computation.equiv_trans (iterate_equiv_onTurn _ (a :: rest)) ?_)
    rw [hstep, bind_assoc]
    refine bind_congr_equiv (equiv_refl _) fun r => ?_
    cases r with
    | ok _ => exact equiv_symm ih
    | error _ => exact equiv_refl _

/-- Adding one does not overflow where there is a next index. -/
theorem add_one_eq {i next : Fixed .i32} (hnext : next.val = i.val + 1) :
    Arithmetic.add i Fixed.one = .ok next := by
  have hfits : Fixed.ofInt? .i32 (i.val + 1) = some next := Fixed.ofInt?_eq_some_iff.2 hnext
  show Fixed.checked .add (i.val + 1) = .ok next
  rw [Fixed.checked, hfits]

/-- An index below `high` has a next one. -/
theorem exists_next {i high : Fixed .i32} (h : i.val < high.val) :
    ∃ next : Fixed .i32, next.val = i.val + 1 := by
  have hlo := i.lo_le
  have hhi := Int.lt_of_lt_of_le h high.le_hi
  exact ⟨⟨i.val + 1, by omega, by omega⟩, rfl⟩

/-- Induction on the indices left of a range: none, or one and those from the next one on. -/
theorem range_induction (high : Fixed .i32) {motive : Fixed .i32 → Prop}
    (none : ∀ i, high.val ≤ i.val → motive i)
    (more : ∀ i next, i.val < high.val → next.val = i.val + 1 → motive next → motive i)
    (low : Fixed .i32) : motive low := by
  generalize hcount : (high.val - low.val).toNat = count
  induction count generalizing low with
  | zero => exact none low (by omega)
  | succ count ih =>
    have hlt : low.val < high.val := by omega
    obtain ⟨next, hnext⟩ := exists_next hlt
    exact more low next hlt hnext (ih next (by omega))

/-- At the bound the step finishes. -/
theorem enter_rangeStep_of_le {i high : Fixed .i32} (h : high.val ≤ i.val)
    (step : Fixed .i32 → Computation σ (Effect σ α)) :
    enter (rangeStep high step i) = Pure.pure (.finish ()) := by
  rw [rangeStep, if_neg (Int.not_lt.2 h)]
  rfl

/-- Below the bound the step runs its effect and goes on with the next number. -/
theorem enter_rangeStep_of_lt {i next high : Fixed .i32} (h : i.val < high.val)
    (hnext : next.val = i.val + 1) (step : Fixed .i32 → Computation σ (Effect σ α)) :
    enter (rangeStep high step i) = enter (step i) >>= fun _ => Pure.pure (.again next) := by
  have hadd := add_one_eq hnext
  rw [rangeStep, if_pos h]
  simp only [hadd]
  exact enter_map (step i) _

theorem enter_tryRangeStep_of_le {i high : Fixed .i32} (h : high.val ≤ i.val)
    (step : Fixed .i32 → Computation σ (Effect σ (Except ε α))) :
    enter (tryRangeStep high step i) = Pure.pure (.finish (.ok ())) := by
  rw [tryRangeStep, if_neg (Int.not_lt.2 h)]
  rfl

theorem enter_tryRangeStep_of_lt {i next high : Fixed .i32} (h : i.val < high.val)
    (hnext : next.val = i.val + 1) (step : Fixed .i32 → Computation σ (Effect σ (Except ε α))) :
    enter (tryRangeStep high step i) =
      enter (step i) >>= fun r => Pure.pure (againUnlessError next r) := by
  have hadd := add_one_eq hnext
  rw [tryRangeStep, if_pos h]
  simp only [hadd]
  exact enter_map (step i) _

/-- A loop over a range is an iteration that counts up to the bound. -/
theorem forRange_equiv_iterate (low high : Fixed .i32)
    (step : Fixed .i32 → Computation σ (Effect σ α)) :
    Computation.forRange low high (fun i => enter (step i)) ≈
      Computation.iterate (fun i => enter (rangeStep high step i)) low := by
  induction low using range_induction high with
  | none low hle =>
    rw [forRange_of_le hle]
    refine equiv_symm (Computation.equiv_trans (iterate_equiv_onTurn _ low) ?_)
    rw [enter_rangeStep_of_le hle]
    exact equiv_refl _
  | more low next hlt hnext ih =>
    rw [forRange_of_lt hlt hnext]
    refine equiv_symm (Computation.equiv_trans (iterate_equiv_onTurn _ low) ?_)
    rw [enter_rangeStep_of_lt hlt hnext, bind_assoc]
    exact bind_congr_equiv (equiv_refl _) fun _ => equiv_symm ih

/-- The fallible one counts up to the bound or the first error. -/
theorem tryForRange_equiv_iterate (low high : Fixed .i32)
    (step : Fixed .i32 → Computation σ (Effect σ (Except ε α))) :
    Computation.tryForRange low high (fun i => enter (step i)) ≈
      Computation.iterate (fun i => enter (tryRangeStep high step i)) low := by
  induction low using range_induction high with
  | none low hle =>
    rw [tryForRange_of_le hle]
    refine equiv_symm (Computation.equiv_trans (iterate_equiv_onTurn _ low) ?_)
    rw [enter_tryRangeStep_of_le hle]
    exact equiv_refl _
  | more low next hlt hnext ih =>
    rw [tryForRange_of_lt hlt hnext]
    refine equiv_symm (Computation.equiv_trans (iterate_equiv_onTurn _ low) ?_)
    rw [enter_tryRangeStep_of_lt hlt hnext, bind_assoc]
    refine bind_congr_equiv (equiv_refl _) fun r => ?_
    cases r with
    | ok _ => exact equiv_symm ih
    | error _ => exact equiv_refl _

/-! ## Loops of parts that run alike -/

section

variable {τ : Type} {S : σ → τ → Prop}

theorem alike_bind_pure {x : Computation σ α} {y : Computation τ α} (h : Alike S Eq x y)
    (turn : α → Turn β γ) :
    Alike S (Turn.Related Eq Eq) (x >>= fun a => Pure.pure (turn a))
      (y >>= fun a => Pure.pure (turn a)) := by
  refine h.bind fun a b hab => alike_pure ?_
  rw [hab]
  exact Turn.related_refl (turn b)

/-- Checks that are alike make loops that are alike. -/
theorem alike_untilTrue {c : Effect σ Bool} {d : Effect τ Bool}
    (h : Alike S Eq c.invoke d.invoke) :
    Alike S Eq (Computation.untilTrue c.invoke) (Computation.untilTrue d.invoke) := by
  refine Alike.of_equiv (untilTrue_equiv_iterate c) (untilTrue_equiv_iterate d) ?_
  refine alike_iterate (A := Eq) (fun _ _ _ => ?_) rfl
  exact alike_bind_pure h _

theorem alike_whileTrue {c : Effect σ Bool} {d : Effect τ Bool} {b : Effect σ α} {e : Effect τ α}
    (hc : Alike S Eq c.invoke d.invoke) (hb : Alike S Eq b.invoke e.invoke) :
    Alike S Eq (Computation.whileTrue c.invoke b.invoke)
      (Computation.whileTrue d.invoke e.invoke) := by
  refine Alike.of_equiv (whileTrue_equiv_iterate c b) (whileTrue_equiv_iterate d e) ?_
  refine alike_iterate (A := Eq) (fun _ _ _ => ?_) rfl
  refine hc.bind fun holds holds' hholds => ?_
  subst hholds
  cases holds with
  | true => exact alike_bind_pure hb _
  | false => exact alike_pure (Turn.related_refl _)

theorem alike_forRange (low high : Fixed .i32) {f : Fixed .i32 → Computation σ (Effect σ α)}
    {g : Fixed .i32 → Computation τ (Effect τ α)}
    (h : ∀ i, Alike S Eq (enter (f i)) (enter (g i))) :
    Alike S Eq (Computation.forRange low high fun i => enter (f i))
      (Computation.forRange low high fun i => enter (g i)) := by
  refine Alike.of_equiv (forRange_equiv_iterate low high f) (forRange_equiv_iterate low high g) ?_
  refine alike_iterate (A := Eq) (fun i j hij => ?_) rfl
  subst hij
  by_cases hlt : i.val < high.val
  · obtain ⟨next, hnext⟩ := exists_next hlt
    rw [enter_rangeStep_of_lt hlt hnext, enter_rangeStep_of_lt hlt hnext]
    exact alike_bind_pure (h i) _
  · rw [enter_rangeStep_of_le (Int.not_lt.1 hlt), enter_rangeStep_of_le (Int.not_lt.1 hlt)]
    exact alike_pure (Turn.related_refl _)

theorem alike_forItems (items : List α) {f : α → Computation σ (Effect σ β)}
    {g : α → Computation τ (Effect τ β)} (h : ∀ a, Alike S Eq (enter (f a)) (enter (g a))) :
    Alike S Eq (Computation.forEach items fun a => enter (f a))
      (Computation.forEach items fun a => enter (g a)) := by
  induction items with
  | nil => exact alike_pure rfl
  | cons a rest ih =>
    rw [forEach_cons, forEach_cons]
    exact (h a).bind fun _ _ _ => ih

/-- No value comes out of a loop without an end, so any values are related. -/
theorem alike_forever {V : β → γ → Prop} {e : Effect σ α} {d : Effect τ α}
    (h : Alike S Eq e.invoke d.invoke) :
    Alike S V (Computation.forever e.invoke) (Computation.forever d.invoke) := by
  refine Alike.of_equiv (forever_equiv_iterate e) (forever_equiv_iterate d) ?_
  refine alike_iterate (A := Eq) (fun _ _ _ => ?_) rfl
  exact h.bind fun _ _ _ => alike_pure (.again rfl)

theorem alike_tryUntil {c : Effect σ (Except ε Bool)} {d : Effect τ (Except ε Bool)}
    (h : Alike S Eq c.invoke d.invoke) :
    Alike S Eq (Computation.tryUntil c.invoke) (Computation.tryUntil d.invoke) := by
  refine Alike.of_equiv (tryUntil_equiv_iterate c) (tryUntil_equiv_iterate d) ?_
  refine alike_iterate (A := Eq) (fun _ _ _ => ?_) rfl
  refine h.bind fun r r' hr => ?_
  subst hr
  match r with
  | .ok _ | .error _ => exact alike_pure (Turn.related_refl _)

theorem alike_tryWhile {c : Effect σ (Except ε Bool)} {d : Effect τ (Except ε Bool)}
    {b : Effect σ (Except ε α)} {e : Effect τ (Except ε α)} (hc : Alike S Eq c.invoke d.invoke)
    (hb : Alike S Eq b.invoke e.invoke) :
    Alike S Eq (Computation.tryWhile c.invoke b.invoke)
      (Computation.tryWhile d.invoke e.invoke) := by
  refine Alike.of_equiv (tryWhile_equiv_iterate c b) (tryWhile_equiv_iterate d e) ?_
  refine alike_iterate (A := Eq) (fun _ _ _ => ?_) rfl
  refine hc.bind fun r r' hr => ?_
  subst hr
  match r with
  | .ok true => exact alike_bind_pure hb _
  | .ok false | .error _ => exact alike_pure (Turn.related_refl _)

theorem alike_tryForRange (low high : Fixed .i32)
    {f : Fixed .i32 → Computation σ (Effect σ (Except ε α))}
    {g : Fixed .i32 → Computation τ (Effect τ (Except ε α))}
    (h : ∀ i, Alike S Eq (enter (f i)) (enter (g i))) :
    Alike S Eq (Computation.tryForRange low high fun i => enter (f i))
      (Computation.tryForRange low high fun i => enter (g i)) := by
  refine Alike.of_equiv (tryForRange_equiv_iterate low high f)
    (tryForRange_equiv_iterate low high g) ?_
  refine alike_iterate (A := Eq) (fun i j hij => ?_) rfl
  subst hij
  by_cases hlt : i.val < high.val
  · obtain ⟨next, hnext⟩ := exists_next hlt
    rw [enter_tryRangeStep_of_lt hlt hnext, enter_tryRangeStep_of_lt hlt hnext]
    exact alike_bind_pure (h i) _
  · rw [enter_tryRangeStep_of_le (Int.not_lt.1 hlt), enter_tryRangeStep_of_le (Int.not_lt.1 hlt)]
    exact alike_pure (Turn.related_refl _)

theorem alike_tryForItems (items : List α) {f : α → Computation σ (Effect σ (Except ε β))}
    {g : α → Computation τ (Effect τ (Except ε β))}
    (h : ∀ a, Alike S Eq (enter (f a)) (enter (g a))) :
    Alike S Eq (Computation.tryForEach items fun a => enter (f a))
      (Computation.tryForEach items fun a => enter (g a)) := by
  induction items with
  | nil => exact alike_pure rfl
  | cons a rest ih =>
    rw [tryForEach_cons, tryForEach_cons]
    refine (h a).bind fun r r' hr => ?_
    subst hr
    cases r with
    | ok _ => exact ih
    | error e => exact alike_pure rfl

end

/-! ## Loops over items that are taken first -/

/-- `make` takes the items that the steps of the source make, one after the other, and then it has
made `loop` of these items. It does nothing else. -/
structure MadeOfItems (source : List (Computation σ α)) (loop : List α → Effect σ β)
    (make : Computation σ (Effect σ β)) : Prop where
  /-- A loop is made if all items can be taken, and it is the one over them. -/
  made_iff {s t : σ} {e : Effect σ β} :
    make.Halts s (.ok e, t) ↔ ∃ items, (source.mapM id).Halts s (.ok items, t) ∧ e = loop items
  /-- Nothing but a step of the source panics. -/
  panics_iff {s t : σ} {p : Panic} :
    make.Halts s (.error p, t) ↔ (source.mapM id).Halts s (.error p, t)
  diverges_iff {s : σ} : make.Diverges s ↔ (source.mapM id).Diverges s
  /-- Items that are there already are taken at once. -/
  given {items : List α} (hsource : source = items.map Pure.pure) (s : σ) :
    make.Halts s (.ok (loop items), s)

/-- A loop that is built after its items were taken is made exactly if they all are. -/
theorem madeOfItems (source : List (Computation σ α)) (loop : List α → Effect σ β) :
    MadeOfItems source loop (do let items ← source.mapM id; return loop items) where
  made_iff := halts_bind_pure_value_iff
  panics_iff := halts_bind_pure_panic_iff
  diverges_iff := diverges_bind_pure_iff
  given := by
    intro items hsource s
    rw [hsource, mapM_id_map_pure, pure_bind]
    exact halts_pure_iff.2 rfl

/-! ## Loops that report their start -/

variable [Tracer σ]

/-- Tells of the event, then invokes `e`. -/
def announced (event : Event) (e : Effect σ α) : Effect σ α :=
  ⟨do
    emit event
    e.invoke⟩

/-- `loop` tells of the event and then goes as `e` does. -/
structure GoesAs (event : Event) (loop e : Effect σ α) : Prop where
  /-- The event comes first, and is the only difference. -/
  announced : loop ≈ announced event e
  /-- Whoever does not see events cannot tell rows of invocations apart, if `e` does not see them
  either. -/
  unseen {same : σ → σ → Prop} (hsame : EventBlind same) (he : e.invoke.Respects same)
    (count : Nat) : Alike same Eq (loop.invocations count) (e.invocations count)

/-- What is invoked as an effect after an event goes as that effect. -/
theorem goesAs_of_equiv {x : Computation σ α} {e : Effect σ α} (h : x ≈ e.invoke) (event : Event) :
    GoesAs event ⟨emit event >>= fun _ => x⟩ e where
  announced := equiv_iff.2 (bind_congr_equiv (equiv_refl _) fun _ => h)
  unseen hsame he count :=
    alike_invocations (hsame.alike_emit_left event (Alike.of_equiv h (equiv_refl _) he)) count

/-- Every loop as the iteration of one of its turns. -/
structure LoopsIterate (σ : Type) [Tracer σ] : Prop where
  untilTrue (condition : Effect σ Bool) :
    GoesAs (.loopStarted false .untilTrue) (Effect.untilTrue condition)
      (iterate () (untilStep condition))
  whileTrue {α : Type} (condition : Effect σ Bool) (body : Effect σ α) :
    GoesAs (.loopStarted false .whileTrue) (Effect.whileTrue condition body)
      (iterate () (whileStep condition body))
  forRange {α : Type} (low high : Fixed .i32) (step : Fixed .i32 → Computation σ (Effect σ α)) :
    GoesAs (.loopStarted false (.forRange low.val high.val)) (Effect.forRange low high step)
      (iterate low (rangeStep high step))
  /-- The items are the first state. -/
  forItems {α β : Type} (items : List α) (action : α → Computation σ (Effect σ β)) :
    GoesAs (.loopStarted false (.forEach items.length)) (Effect.forItems items action)
      (iterate items (itemStep action))
  /-- A loop over a source is the loop over the items that were taken when it was made. -/
  forEach {α β : Type} (source : List (Computation σ α))
    (action : α → Computation σ (Effect σ β)) :
    MadeOfItems source (Effect.forItems · action) (Effect.forEach source action)
  /-- A loop without an end reports nothing. -/
  forever {α β : Type} (e : Effect σ α) :
    (e.forever : Effect σ β) ≈ iterate () (foreverStep e)
  tryUntil {ε : Type} (condition : Effect σ (Except ε Bool)) :
    GoesAs (.loopStarted true .untilTrue) (Effect.tryUntil condition)
      (iterate () (tryUntilStep condition))
  tryWhile {α ε : Type} (condition : Effect σ (Except ε Bool)) (body : Effect σ (Except ε α)) :
    GoesAs (.loopStarted true .whileTrue) (Effect.tryWhile condition body)
      (iterate () (tryWhileStep condition body))
  tryForRange {α ε : Type} (low high : Fixed .i32)
    (step : Fixed .i32 → Computation σ (Effect σ (Except ε α))) :
    GoesAs (.loopStarted true (.forRange low.val high.val)) (Effect.tryForRange low high step)
      (iterate low (tryRangeStep high step))
  tryForItems {α β ε : Type} (items : List α)
    (action : α → Computation σ (Effect σ (Except ε β))) :
    GoesAs (.loopStarted true (.forEach items.length)) (Effect.tryForItems items action)
      (iterate items (tryItemStep action))
  tryForEach {α β ε : Type} (source : List (Computation σ α))
    (action : α → Computation σ (Effect σ (Except ε β))) :
    MadeOfItems source (Effect.tryForItems · action) (Effect.tryForEach source action)

/-- Every loop goes as the iteration of its step, and a loop over items is made of the items it
takes. -/
theorem loops_iterate : LoopsIterate σ where
  untilTrue c := goesAs_of_equiv (untilTrue_equiv_iterate c) _
  whileTrue c b := goesAs_of_equiv (whileTrue_equiv_iterate c b) _
  forRange low high step := goesAs_of_equiv (forRange_equiv_iterate low high step) _
  forItems items action := goesAs_of_equiv (forItems_equiv_iterate items action) _
  forEach source action := madeOfItems source (Effect.forItems · action)
  forever e := equiv_iff.2 (forever_equiv_iterate e)
  tryUntil c := goesAs_of_equiv (tryUntil_equiv_iterate c) _
  tryWhile c b := goesAs_of_equiv (tryWhile_equiv_iterate c b) _
  tryForRange low high step := goesAs_of_equiv (tryForRange_equiv_iterate low high step) _
  tryForItems items action := goesAs_of_equiv (tryForItems_equiv_iterate items action) _
  tryForEach source action := madeOfItems source (Effect.tryForItems · action)

/-- Makes an effect that records the value. -/
def recordItem (v : Value) : Computation World (Effect World Unit) :=
  return ⟨modify fun w => w.push (.value v)⟩

/-- Two values; it is recorded as well when one is taken. -/
def recordedItems : List (Computation World Value) :=
  [.int 1, .int 2].map fun v => do
    modify fun w => w.push (.value (.str "took"))
    return v

/-- The loop over the values is made when both have been taken. Later, after its event, it does what
the iteration over them does. -/
theorem loops_iterate_recordedItems :
    ∃ (loop : Effect World Unit) (t u : World),
      (Effect.forEach recordedItems recordItem).Halts (.initial true) (.ok loop, t) ∧
      t.trace = #[.value (.str "took"), .value (.str "took")] ∧
      (iterate [.int 1, .int 2] (itemStep recordItem)).invoke.Halts
        (t.push (.event (.loopStarted false (.forEach 2)))) (.ok (), u) ∧
      loop.invoke.Halts t (.ok (), u) ∧
      u.trace = t.trace ++
        #[.event (.loopStarted false (.forEach 2)), .value (.int 1), .value (.int 2)] := by
  have hruns : ∃ t u, (recordedItems.mapM id).Halts (.initial true) (.ok [.int 1, .int 2], t) ∧
      t.trace = #[.value (.str "took"), .value (.str "took")] ∧
      Tracer.emit (.loopStarted false (.forEach 2)) t =
        t.push (.event (.loopStarted false (.forEach 2))) ∧
      (iterate [.int 1, .int 2] (itemStep recordItem)).invoke.Halts
        (t.push (.event (.loopStarted false (.forEach 2)))) (.ok (), u) ∧
      u.trace = t.trace ++
        #[.event (.loopStarted false (.forEach 2)), .value (.int 1), .value (.int 2)] :=
    ⟨_, _, ⟨0, rfl⟩, rfl, rfl, ⟨3, rfl⟩, rfl⟩
  obtain ⟨t, u, htaken, htrace, htold, hiterate, hu⟩ := hruns
  have hmade := (loops_iterate.forEach recordedItems recordItem).made_iff.2 ⟨_, htaken, rfl⟩
  have hannounced := (loops_iterate.forItems [.int 1, .int 2] recordItem).announced
  have hloop : (Effect.forItems [.int 1, .int 2] recordItem).invoke.Halts t (.ok (), u) := by
    refine (equiv_iff.1 hannounced t _).2 ((resumes_emit _ t _).2 ?_)
    rw [List.length_cons, List.length_cons, List.length_nil, htold]
    exact hiterate
  exact ⟨_, t, u, hmade, htrace, hiterate, hloop, hu⟩

end Effect

end Deferred
