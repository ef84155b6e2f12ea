import Deferred.Computation.Loop

/-!
# Fallible loops

Loops whose checks and bodies may answer with an error value. The first error value ends the
loop and is its result; a loop that comes to its end yields `.ok ()`. A panic is no error
value: it ends the loop as it ends the others.
-/

namespace Deferred

variable {σ α β ε : Type}

namespace Run

/-! ## Runs of fallible loops -/

/-- Checks `c` until it yields `true` or an error. -/
def tryUntil (c : Run σ (Except ε Bool)) : (turns : Nat) → Run σ (Except ε Unit)
  | 0 => unfinished
  | turns + 1 => c.next fun
      | .error e => done (.error e)
      | .ok holds => if holds then done (.ok ()) else tryUntil c turns

/-- Checks `c` and runs `b`, alternately, while the checks yield `true` and no error. -/
def tryWhile (c : Run σ (Except ε Bool)) (b : Run σ (Except ε α)) :
    (turns : Nat) → Run σ (Except ε Unit)
  | 0 => unfinished
  | turns + 1 => c.next fun
      | .error e => done (.error e)
      | .ok holds =>
        if holds then
          b.next fun
            | .error e => done (.error e)
            | .ok _ => tryWhile c b turns
        else done (.ok ())

/-- Runs the step for `count` indices from `i` upwards, as long as it yields no error. -/
def tryCountUp (f : Fixed .i32 → Run σ (Except ε α)) :
    (count : Nat) → (i : Int) → IntType.i32.lo ≤ i → i + count ≤ IntType.i32.hi →
      Run σ (Except ε Unit)
  | 0, _, _, _ => done (.ok ())
  | count + 1, i, lo, hi =>
      (f ⟨i, lo, by omega⟩).next fun
        | .error e => done (.error e)
        | .ok _ => tryCountUp f count (i + 1) (by omega) (by omega)

/-- Runs the action for every item, in order, as long as it yields no error. -/
def tryForEach (f : α → Run σ (Except ε β)) : List α → Run σ (Except ε Unit)
  | [] => done (.ok ())
  | a :: as => (f a).next fun
      | .error e => done (.error e)
      | .ok _ => tryForEach f as

/-! ## More turns keep an ending -/

/-- A loop keeps its endings if its check does and it may take more turns. -/
theorem tryUntil_within {c d : Run σ (Except ε Bool)} (h : c.Within d) {m n : Nat}
    (hmn : m ≤ n) : (tryUntil c m).Within (tryUntil d n) := by
  induction m generalizing n with
  | zero => exact unfinished_within _
  | succ m ih =>
    obtain ⟨n, rfl⟩ : ∃ k, n = k + 1 := ⟨n - 1, by omega⟩
    refine h.next fun r => ?_
    match r with
    | .error _ => exact within_refl _
    | .ok true => exact within_refl _
    | .ok false => exact ih (by omega)

theorem tryWhile_within {c d : Run σ (Except ε Bool)} {b e : Run σ (Except ε α)}
    (h : c.Within d) (hb : b.Within e) {m n : Nat} (hmn : m ≤ n) :
    (tryWhile c b m).Within (tryWhile d e n) := by
  induction m generalizing n with
  | zero => exact unfinished_within _
  | succ m ih =>
    obtain ⟨n, rfl⟩ : ∃ k, n = k + 1 := ⟨n - 1, by omega⟩
    refine h.next fun r => ?_
    match r with
    | .error _ => exact within_refl _
    | .ok false => exact within_refl _
    | .ok true =>
      refine hb.next fun r => ?_
      cases r
      · exact within_refl _
      · exact ih (by omega)

/-- Counting takes no turns of the budget, so only the steps matter. -/
theorem tryCountUp_within {f g : Fixed .i32 → Run σ (Except ε α)}
    (h : ∀ i, (f i).Within (g i)) {count : Nat} {i : Int} (lo : IntType.i32.lo ≤ i)
    (hi : i + count ≤ IntType.i32.hi) :
    (tryCountUp f count i lo hi).Within (tryCountUp g count i lo hi) := by
  induction count generalizing i with
  | zero => exact within_refl _
  | succ count ih =>
    refine (h _).next fun r => ?_
    cases r
    · exact within_refl _
    · exact ih _ _

theorem tryForEach_within {f g : α → Run σ (Except ε β)} (h : ∀ a, (f a).Within (g a))
    (as : List α) : (tryForEach f as).Within (tryForEach g as) := by
  induction as with
  | nil => exact within_refl _
  | cons a as ih =>
    refine (h a).next fun r => ?_
    cases r
    · exact within_refl _
    · exact ih

end Run

namespace Computation

/-! ## Fallible loops as computations -/

/-- Checks `c` until it yields `true` or an error. -/
def tryUntil (c : Computation σ (Except ε Bool)) : Computation σ (Except ε Unit) where
  run n := .tryUntil (c.run n) n
  run_within h := Run.tryUntil_within (c.run_within h) h

/-- Checks `c` and runs `b`, alternately, while the checks yield `true` and no error. -/
def tryWhile (c : Computation σ (Except ε Bool)) (b : Computation σ (Except ε α)) :
    Computation σ (Except ε Unit) where
  run n := .tryWhile (c.run n) (b.run n) n
  run_within h := Run.tryWhile_within (c.run_within h) (b.run_within h) h

/-- Runs the step for every index from `low` up to and without `high`, as long as it yields
no error. -/
def tryForRange (low high : Fixed .i32) (f : Fixed .i32 → Computation σ (Except ε α)) :
    Computation σ (Except ε Unit) where
  run n := if h : low.val < high.val then
      .tryCountUp (fun i => (f i).run n) (high.val - low.val).toNat low.val low.lo_le
        (Fixed.add_distance_le_hi h)
    else .done (.ok ())
  run_within h := by
    split
    · exact Run.tryCountUp_within (fun i => (f i).run_within h) _ _
    · exact Run.within_refl _

/-- Runs the action for every item, in order, as long as it yields no error. -/
def tryForEach (as : List α) (f : α → Computation σ (Except ε β)) :
    Computation σ (Except ε Unit) where
  run n := .tryForEach (fun a => (f a).run n) as
  run_within h := Run.tryForEach_within (fun a => (f a).run_within h) as

end Computation

end Deferred
