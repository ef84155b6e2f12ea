import Deferred.Proofs.Traversal
import Mathlib.Data.List.FinRange

/-!
# Ranges of indices

The indices of a range are a list (`indices`), and a loop over a range goes through this list: the
loop that counts and the loop over the list differ in the event of their start alone, and so does a
chain of effects, each of which ends by making the one for the next index
(`Effect.recursiveFor`). `Effect.RangeSemantics` says so for all bounds, the least and the greatest
ones and those in the wrong order included.
-/

namespace Deferred

variable {σ α β ε : Type}

/-! ## The indices of a range -/

/-- The indices from `low` up to and without `high`, in order. -/
def indices (low high : Fixed .i32) : List (Fixed .i32) :=
  List.ofFn fun k : Fin (high.val - low.val).toNat =>
    ⟨low.val + k, by have := low.lo_le; omega, by have := high.le_hi; omega⟩

theorem Fixed.val_injective {k : IntType} : Function.Injective (Fixed.val (k := k)) :=
  fun _ _ => Fixed.ext

/-- They are `low`, the number after it, and so on. -/
theorem map_val_indices (low high : Fixed .i32) :
    (indices low high).map Fixed.val =
      (List.range (high.val - low.val).toNat).map fun k : Nat => low.val + k := by
  rw [indices, List.map_ofFn, List.ofFn_eq_map, ← List.map_coe_finRange_eq_range, List.map_map]
  rfl

/-- There are as many numbers as the bounds are apart. -/
theorem length_indices (low high : Fixed .i32) :
    (indices low high).length = (high.val - low.val).toNat := List.length_ofFn

/-- The numbers are those between the bounds, without the upper one. -/
theorem mem_indices_iff {low high i : Fixed .i32} :
    i ∈ indices low high ↔ low.val ≤ i.val ∧ i.val < high.val := by
  rw [← List.mem_map_of_injective Fixed.val_injective, map_val_indices]
  simp only [List.mem_map, List.mem_range]
  constructor
  · rintro ⟨k, hk, hi⟩
    omega
  · rintro ⟨hlow, hhigh⟩
    exact ⟨(i.val - low.val).toNat, by omega, by omega⟩

/-- A range whose bounds are equal or the wrong way round is empty. -/
theorem indices_of_le {low high : Fixed .i32} (h : high.val ≤ low.val) : indices low high = [] := by
  apply List.eq_nil_of_length_eq_zero
  rw [length_indices]
  omega

/-- A nonempty range starts at its lower bound. -/
theorem indices_of_lt {low next high : Fixed .i32} (h : low.val < high.val)
    (hnext : next.val = low.val + 1) : indices low high = low :: indices next high := by
  apply Fixed.val_injective.list_map
  have hcount : (high.val - low.val).toNat = (high.val - next.val).toNat + 1 := by omega
  rw [List.map_cons, map_val_indices, map_val_indices, hcount, List.range_succ_eq_map,
    List.map_cons, List.map_map, hnext]
  refine congrArg₂ List.cons (Int.add_zero _) (List.map_congr_left fun k _ => ?_)
  show low.val + ((k + 1 : Nat) : Int) = low.val + 1 + k
  omega

/-- A range splits at every index between its bounds. -/
theorem indices_append {a b c : Fixed .i32} (hab : a.val ≤ b.val) (hbc : b.val ≤ c.val) :
    indices a b ++ indices b c = indices a c := by
  apply Fixed.val_injective.list_map
  have hcount : (c.val - a.val).toNat = (b.val - a.val).toNat + (c.val - b.val).toNat := by omega
  rw [List.map_append, map_val_indices, map_val_indices, map_val_indices, hcount, List.range_add,
    List.map_append, List.map_map]
  refine congrArg₂ List.append rfl (List.map_congr_left fun k _ => ?_)
  show b.val + (k : Int) = a.val + (((b.val - a.val).toNat + k : Nat) : Int)
  omega

open Deferred.Computation

/-! ## Loops over ranges go through their indices -/

/-- Going through a range is going through the list of its numbers. -/
theorem Computation.forRange_eq_forEach (low high : Fixed .i32)
    (f : Fixed .i32 → Computation σ α) :
    Computation.forRange low high f = Computation.forEach (indices low high) f := by
  induction low using Effect.range_induction high with
  | none low hle =>
    rw [forRange_of_le hle, indices_of_le hle]
    rfl
  | more low next hlt hnext ih =>
    rw [forRange_of_lt hlt hnext, indices_of_lt hlt hnext, forEach_cons, ih]

theorem Computation.tryForRange_eq_tryForEach (low high : Fixed .i32)
    (f : Fixed .i32 → Computation σ (Except ε α)) :
    Computation.tryForRange low high f = Computation.tryForEach (indices low high) f := by
  induction low using Effect.range_induction high with
  | none low hle =>
    rw [tryForRange_of_le hle, indices_of_le hle]
    rfl
  | more low next hlt hnext ih =>
    rw [tryForRange_of_lt hlt hnext, indices_of_lt hlt hnext, tryForEach_cons, ih]

namespace Effect

/-! ## The chain -/

/-- The step of `i` below `high`, followed by the chain from the next index on, which is made when
the step has been run. -/
def recursiveFor (high : Fixed .i32) (step : Fixed .i32 → Computation σ (Effect σ α))
    (i : Fixed .i32) : Effect σ Unit :=
  if h : i.val < high.val then
    let next : Fixed .i32 := ⟨i.val + 1, by have := i.lo_le; omega, by have := high.le_hi; omega⟩
    (defer (step i)).bind fun _ => return recursiveFor high step next
  else unit
termination_by (high.val - i.val).toNat

theorem recursiveFor_of_le {i high : Fixed .i32} (h : high.val ≤ i.val)
    (step : Fixed .i32 → Computation σ (Effect σ α)) : recursiveFor high step i = unit := by
  rw [recursiveFor, dif_neg (Int.not_lt.2 h)]

/-- Below the bound the chain runs one step and calls itself with the next number. -/
theorem recursiveFor_of_lt {i next high : Fixed .i32} (h : i.val < high.val)
    (hnext : next.val = i.val + 1) (step : Fixed .i32 → Computation σ (Effect σ α)) :
    recursiveFor high step i =
      (defer (step i)).bind fun _ => return recursiveFor high step next := by
  obtain ⟨_, lo, hi⟩ := next
  subst hnext
  rw [recursiveFor, dif_pos h]

/-- The next index is added to as any other number is, and never overflows. -/
theorem recursiveFor_eq (high : Fixed .i32) (step : Fixed .i32 → Computation σ (Effect σ α))
    (i : Fixed .i32) :
    recursiveFor high step i =
      if i.val < high.val then
        (defer (step i)).bind fun _ => do
          let next ← (Arithmetic.add i Fixed.one : Except Panic (Fixed .i32))
          return recursiveFor high step next
      else unit := by
  by_cases h : i.val < high.val
  · obtain ⟨next, hnext⟩ := exists_next h
    rw [if_pos h, recursiveFor_of_lt h hnext, add_one_eq hnext]
    rfl
  · rw [if_neg h, recursiveFor_of_le (Int.not_lt.1 h)]

/-- The chain runs as the loop that counts. -/
theorem invoke_recursiveFor (high : Fixed .i32) (step : Fixed .i32 → Computation σ (Effect σ α))
    (i : Fixed .i32) :
    (recursiveFor high step i).invoke = Computation.forRange i high fun i => enter (step i) := by
  induction i using range_induction high with
  | none i hle =>
    rw [recursiveFor_of_le hle, forRange_of_le hle]
    rfl
  | more i next hlt hnext ih =>
    rw [recursiveFor_of_lt hlt hnext, forRange_of_lt hlt hnext, ← ih]
    rfl

/-! ## What a loop over a range does -/

section

variable [Tracer σ]

/-- A loop over a range traverses its numbers in order. -/
theorem traverses_forRange (low high : Fixed .i32)
    (step : Fixed .i32 → Computation σ (Effect σ α)) :
    Traverses (.loopStarted false (.forRange low.val high.val)) (indices low high) step
      (forRange low high step) (forRange low high (notedEach step)) :=
  traverses_of_forEach (forRange_eq_forEach low high _) (forRange_eq_forEach low high _)

/-- A fallible one traverses them up to the first error. -/
theorem tryTraverses_tryForRange (low high : Fixed .i32)
    (step : Fixed .i32 → Computation σ (Effect σ (Except ε α))) :
    TryTraverses (.loopStarted true (.forRange low.val high.val)) (indices low high) step
      (tryForRange low high step) (tryForRange low high (notedEach step)) :=
  tryTraverses_of_tryForEach (tryForRange_eq_tryForEach low high _)
    (tryForRange_eq_tryForEach low high _)

/-- What a loop over a range does, for all bounds. -/
structure RangeSemantics (low high : Fixed .i32)
    (step : Fixed .i32 → Computation σ (Effect σ α)) : Prop where
  /-- Its indices are `low`, `low + 1` and so on, as many as there are numbers from `low` up to and
  without `high`: none, if `high` is not above `low`. -/
  indices_val : (indices low high).map Fixed.val =
    (List.range (high.val - low.val).toNat).map fun k : Nat => low.val + k
  length_lt : (indices low high).length < UInt32.size
  /-- The step is taken for each of them in order, and run to its end before the next one. -/
  traverses : Traverses (.loopStarted false (.forRange low.val high.val)) (indices low high) step
    (forRange low high step) (forRange low high (notedEach step))
  /-- If every step ends, the loop does. -/
  terminates (h : ∀ i : Fixed .i32, low.val ≤ i.val → i.val < high.val →
    ∀ s, ∃ r, (enter (step i)).Halts s r) (s : σ) : ∃ r, (forRange low high step).invoke.Halts s r
  /-- The loop over the list of the indices and the chain run as it does, and differ in the event
  of their start alone, which the chain does not tell of. -/
  as_chain : GoesAs (.loopStarted false (.forRange low.val high.val)) (forRange low high step)
    (recursiveFor high step low)
  made : forEach ((indices low high).map Pure.pure) step =
    Pure.pure (forItems (indices low high) step)
  items_as_chain : GoesAs (.loopStarted false (.forEach (indices low high).length))
    (forItems (indices low high) step) (recursiveFor high step low)
  chain_unseen : SameUnseen (fun same => ∀ i, (enter (step i)).Respects same)
    (forRange low high step) (recursiveFor high step low)
  items_unseen : SameUnseen (fun same => ∀ i, (enter (step i)).Respects same)
    (forRange low high step) (forItems (indices low high) step)
  /-- The chain adds one to an index as to any other number. -/
  chain_eq (i : Fixed .i32) : recursiveFor high step i =
    if i.val < high.val then
      (defer (step i)).bind fun _ => do
        let next ← (Arithmetic.add i Fixed.one : Except Panic (Fixed .i32))
        return recursiveFor high step next
    else unit

/-- A loop over a range is a loop over its numbers, for all bounds. -/
theorem range_semantics (low high : Fixed .i32)
    (step : Fixed .i32 → Computation σ (Effect σ α)) : RangeSemantics low high step where
  indices_val := map_val_indices low high
  length_lt := by
    have hpos : 0 < UInt32.size := by decide
    have hspan : IntType.i32.hi - IntType.i32.lo < UInt32.size := by decide
    have hlow := low.lo_le
    have hhigh := high.le_hi
    rw [length_indices]
    omega
  traverses := traverses_forRange low high step
  terminates := by
    intro h s
    refine not_diverges_iff.1 fun hdiverges => ?_
    rw [forRange, (resumes_emit _ s).diverges_iff, forRange_eq_forEach,
      diverges_forEach_iff] at hdiverges
    obtain ⟨done, i, u, hreaches, hstep⟩ := hdiverges
    have hmem : i ∈ indices low high := hreaches.begins.subset (by simp)
    obtain ⟨hlow, hhigh⟩ := mem_indices_iff.1 hmem
    exact not_diverges_iff.2 (h i hlow hhigh u) hstep
  as_chain := goesAs_of_equiv (equiv_of_eq (invoke_recursiveFor high step low).symm) _
  made := forEach_map_pure (indices low high) step
  items_as_chain := by
    refine goesAs_of_equiv (equiv_of_eq ?_) _
    rw [invoke_recursiveFor, forRange_eq_forEach]
  chain_unseen := by
    refine sameUnseen_of_alike (fun same hsame hstep => ?_) fun i => alike_eq_refl _
    rw [invoke_recursiveFor]
    exact hsame.alike_emit_left _ (alike_forRange low high hstep)
  items_unseen := by
    refine sameUnseen_of_alike (fun same hsame hstep => ?_) fun i => alike_eq_refl _
    rw [forRange, forRange_eq_forEach]
    exact hsame.alike_emit_left _ (hsame.alike_emit_right _ (alike_forItems _ hstep))
  chain_eq := recursiveFor_eq high step

end

end Effect

end Deferred
