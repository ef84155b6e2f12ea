import Deferred.Computation
import Deferred.Number.Fixed

/-!
# Loops

The loops that a computation can take: until a check succeeds, while it does, over a range of
indices, over a list, for ever, and from state to state. Each is coded by itself as a
recursion on the turns left (or on what is left of the range or the list), so a loop of any
length takes constant space. A panic in any part ends the loop at once.

An unbounded loop that has used up its budget has not ended. The `_within` lemmas say that an
ending found with few turns is found with more.
-/

namespace Deferred

variable {σ α β : Type}

/-- What a step asks for: another turn with a new state, or the end with a result. -/
inductive Turn (α β : Type) where
  | again (state : α)
  | finish (result : β)
deriving DecidableEq, Repr

namespace Run

/-! ## Runs of loops -/

/-- Checks `c` until it yields `true`. -/
def untilTrue (c : Run σ Bool) : (turns : Nat) → Run σ Unit
  | 0 => unfinished
  | turns + 1 => c.next fun holds => if holds then done () else untilTrue c turns

/-- Checks `c` and runs `b`, alternately, while the checks yield `true`. -/
def whileTrue (c : Run σ Bool) (b : Run σ α) : (turns : Nat) → Run σ Unit
  | 0 => unfinished
  | turns + 1 => c.next fun holds =>
      if holds then b.next fun _ => whileTrue c b turns else done ()

/-- Runs `b` again and again. -/
def forever (b : Run σ α) : (turns : Nat) → Run σ β
  | 0 => unfinished
  | turns + 1 => b.next fun _ => forever b turns

/-- Steps from state to state until a step finishes. -/
def iterate (f : α → Run σ (Turn α β)) : (turns : Nat) → α → Run σ β
  | 0, _ => unfinished
  | turns + 1, a => (f a).next fun
      | .again a => iterate f turns a
      | .finish b => done b

/-- Runs the step for `count` indices from `i` upwards. The proofs say that every index
fits. -/
def countUp (f : Fixed .i32 → Run σ α) :
    (count : Nat) → (i : Int) → IntType.i32.lo ≤ i → i + count ≤ IntType.i32.hi → Run σ Unit
  | 0, _, _, _ => done ()
  | count + 1, i, lo, hi =>
      (f ⟨i, lo, by omega⟩).next fun _ => countUp f count (i + 1) (by omega) (by omega)

/-- Runs the action for every item, in order. -/
def forEach (f : α → Run σ β) : List α → Run σ Unit
  | [] => done ()
  | a :: as => (f a).next fun _ => forEach f as

/-! ## More turns keep an ending -/

/-- A loop keeps its endings if its check does and it may take more turns. -/
theorem untilTrue_within {c d : Run σ Bool} (h : c.Within d) {m n : Nat} (hmn : m ≤ n) :
    (untilTrue c m).Within (untilTrue d n) := by
  induction m generalizing n with
  | zero => exact unfinished_within _
  | succ m ih =>
    obtain ⟨n, rfl⟩ : ∃ k, n = k + 1 := ⟨n - 1, by omega⟩
    refine h.next fun holds => ?_
    cases holds
    · exact ih (by omega)
    · exact within_refl _

theorem whileTrue_within {c d : Run σ Bool} {b e : Run σ α} (h : c.Within d) (hb : b.Within e)
    {m n : Nat} (hmn : m ≤ n) : (whileTrue c b m).Within (whileTrue d e n) := by
  induction m generalizing n with
  | zero => exact unfinished_within _
  | succ m ih =>
    obtain ⟨n, rfl⟩ : ∃ k, n = k + 1 := ⟨n - 1, by omega⟩
    refine h.next fun holds => ?_
    cases holds
    · exact within_refl _
    · exact hb.next fun _ => ih (by omega)

/-- There are no endings but panics, and these are kept. -/
theorem forever_within {b e : Run σ α} (h : b.Within e) {m n : Nat} (hmn : m ≤ n) :
    (forever (β := β) b m).Within (forever e n) := by
  induction m generalizing n with
  | zero => exact unfinished_within _
  | succ m ih =>
    obtain ⟨n, rfl⟩ : ∃ k, n = k + 1 := ⟨n - 1, by omega⟩
    exact h.next fun _ => ih (by omega)

/-- An iteration keeps its endings if its steps do and it may take more of them. -/
theorem iterate_within {f g : α → Run σ (Turn α β)} (h : ∀ a, (f a).Within (g a)) {m n : Nat}
    (hmn : m ≤ n) (a : α) : (iterate f m a).Within (iterate g n a) := by
  induction m generalizing n a with
  | zero => exact unfinished_within _
  | succ m ih =>
    obtain ⟨n, rfl⟩ : ∃ k, n = k + 1 := ⟨n - 1, by omega⟩
    refine (h a).next fun turn => ?_
    cases turn
    · exact ih (by omega) _
    · exact within_refl _

/-- Counting takes no turns of the budget, so only the steps matter. -/
theorem countUp_within {f g : Fixed .i32 → Run σ α} (h : ∀ i, (f i).Within (g i)) {count : Nat}
    {i : Int} (lo : IntType.i32.lo ≤ i) (hi : i + count ≤ IntType.i32.hi) :
    (countUp f count i lo hi).Within (countUp g count i lo hi) := by
  induction count generalizing i with
  | zero => exact within_refl _
  | succ count ih => exact (h _).next fun _ => ih _ _

theorem forEach_within {f g : α → Run σ β} (h : ∀ a, (f a).Within (g a)) (as : List α) :
    (forEach f as).Within (forEach g as) := by
  induction as with
  | nil => exact within_refl _
  | cons a as ih => exact (h a).next fun _ => ih

end Run

namespace Computation

/-! ## Loops as computations -/

/-- Checks `c` until it yields `true`. -/
def untilTrue (c : Computation σ Bool) : Computation σ Unit where
  run n := .untilTrue (c.run n) n
  run_within h := Run.untilTrue_within (c.run_within h) h

/-- Checks `c` and runs `b`, alternately, while the checks yield `true`. -/
def whileTrue (c : Computation σ Bool) (b : Computation σ α) : Computation σ Unit where
  run n := .whileTrue (c.run n) (b.run n) n
  run_within h := Run.whileTrue_within (c.run_within h) (b.run_within h) h

/-- Runs `b` again and again, until it panics. -/
def forever (b : Computation σ α) : Computation σ β where
  run n := .forever (b.run n) n
  run_within h := Run.forever_within (b.run_within h) h

/-- Steps from state to state, from `a` on, until a step finishes. -/
def iterate (f : α → Computation σ (Turn α β)) (a : α) : Computation σ β where
  run n := .iterate (fun a => (f a).run n) n a
  run_within h := Run.iterate_within (fun a => (f a).run_within h) h a

/-- Runs the step for every index from `low` up to and without `high`. -/
def forRange (low high : Fixed .i32) (f : Fixed .i32 → Computation σ α) :
    Computation σ Unit where
  run n := if h : low.val < high.val then
      .countUp (fun i => (f i).run n) (high.val - low.val).toNat low.val low.lo_le
        (Fixed.add_distance_le_hi h)
    else .done ()
  run_within h := by
    split
    · exact Run.countUp_within (fun i => (f i).run_within h) _ _
    · exact Run.within_refl _

/-- Runs the action for every item, in order. -/
def forEach (as : List α) (f : α → Computation σ β) : Computation σ Unit where
  run n := .forEach (fun a => (f a).run n) as
  run_within h := Run.forEach_within (fun a => (f a).run_within h) as

end Computation

end Deferred
