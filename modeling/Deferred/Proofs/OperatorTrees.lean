import Deferred.Program.Term
import Deferred.Proofs.Accumulation
import Deferred.Proofs.Totals

/-!
# Operator trees over effects

An operator tree has effects at its leaves and operators of checked arithmetic at its inner nodes.
Its effect is written with the operators of effects (`OperatorTree.effect`). To invoke it is to go
through the subtrees in postorder: a leaf is invoked, and the value of an inner node is computed
when its operands have come before. So the leaves are invoked from left to right, as often as they
occur, and it ends with the first leaf that panics, or with the first node whose exact value the
format does not represent (`OperatorTree.Evaluates`).

What the leaves yield is written into a tree of the same shape, the results, and the exact values of
its subtrees are computed without bounds (`OperatorTree.exact`).
-/

namespace Deferred

variable {σ ι κ : Type} {k : IntType}

open Deferred.Computation

/-! ## Operators -/

namespace NumOp

/-- The operation on integers without bounds. -/
def exact : NumOp → Int → Int → Int
  | .add, m, n => m + n
  | .sub, m, n => m - n
  | .mul, m, n => m * n

/-- What is reported if the result does not fit. -/
def overflow : NumOp → Overflow
  | .add => .add
  | .sub => .sub
  | .mul => .mul

/-- The operator of effects. -/
def lifted (a b : Effect σ (Fixed k)) : NumOp → Effect σ (Fixed k)
  | .add => a + b
  | .sub => a - b
  | .mul => a * b

/-- Both operands are invoked before the operation. -/
theorem invoke_lifted (op : NumOp) (a b : Effect σ (Fixed k)) :
    (op.lifted a b).invoke = (do
      let x ← a.invoke
      let y ← b.invoke
      liftM (Fixed.checked op.overflow (op.exact x.val y.val) : Except Panic (Fixed k))) := by
  cases op <;> rfl

end NumOp

/-- Operators over what stands at the leaves. -/
inductive OperatorTree (ι : Type) where
  | leaf (i : ι)
  | binary (op : NumOp) (left right : OperatorTree ι)
  | neg (operand : OperatorTree ι)

namespace OperatorTree

/-! ## Trees -/

/-- The effect of the tree, if `make` makes those at its leaves. -/
def effect (make : ι → Effect σ (Fixed k)) : OperatorTree ι → Effect σ (Fixed k)
  | leaf i => make i
  | binary op left right => op.lifted (left.effect make) (right.effect make)
  | neg operand => -operand.effect make

def map (f : ι → κ) : OperatorTree ι → OperatorTree κ
  | leaf i => leaf (f i)
  | binary op left right => binary op (left.map f) (right.map f)
  | neg operand => neg (operand.map f)

/-- From left to right, as often as they occur. -/
def leaves : OperatorTree ι → List ι
  | leaf i => [i]
  | binary _ left right => left.leaves ++ right.leaves
  | neg operand => operand.leaves

/-- The subtrees, each of them right after those of its last operand. -/
def postorder : OperatorTree ι → List (OperatorTree ι)
  | leaf i => [leaf i]
  | binary op left right => left.postorder ++ right.postorder ++ [binary op left right]
  | neg operand => operand.postorder ++ [neg operand]

/-- What stands at the root, if that is a leaf. -/
def atRoot : OperatorTree ι → List ι
  | leaf i => [i]
  | _ => []

/-- What the root reports if its value does not fit, unless it is a leaf. -/
def overflow? : OperatorTree ι → Option Overflow
  | leaf _ => none
  | binary op _ _ => some op.overflow
  | neg _ => some .neg

/-- A tree is a leaf or has an operation at its root. -/
theorem leaf_or_node (t : OperatorTree ι) :
    (∃ i, t = leaf i) ∨ ∃ o, t.overflow? = some o ∧ t.atRoot = [] := by
  cases t with
  | leaf i => exact .inl ⟨i, rfl⟩
  | binary op left right => exact .inr ⟨op.overflow, rfl, rfl⟩
  | neg operand => exact .inr ⟨.neg, rfl, rfl⟩

/-- The leaves among the trees. -/
def leavesAmong (trees : List (OperatorTree ι)) : List ι := trees.flatMap atRoot

/-- In postorder the root comes last. -/
theorem exists_postorder_eq (t : OperatorTree ι) : ∃ before, t.postorder = before ++ [t] := by
  cases t with
  | leaf i => exact ⟨[], rfl⟩
  | binary op left right => exact ⟨_, rfl⟩
  | neg operand => exact ⟨_, rfl⟩

/-- Postorder keeps the leaves in their order. -/
theorem leavesAmong_postorder (t : OperatorTree ι) : leavesAmong t.postorder = t.leaves := by
  induction t with
  | leaf i => rfl
  | binary op left right ihl ihr =>
    unfold leavesAmong at ihl ihr ⊢
    rw [postorder, List.flatMap_append, List.flatMap_append, ihl, ihr]
    exact List.append_nil _
  | neg operand ih =>
    unfold leavesAmong at ih ⊢
    rw [postorder, List.flatMap_append, ih]
    exact List.append_nil _

theorem leaves_map (f : ι → κ) (t : OperatorTree ι) : (t.map f).leaves = t.leaves.map f := by
  induction t with
  | leaf i => rfl
  | binary op left right ihl ihr => rw [map, leaves, leaves, ihl, ihr, List.map_append]
  | neg operand ih => exact ih

/-! ## Results -/

/-- The exact value of a tree on the results at its leaves. -/
def exact : OperatorTree (ι × Fixed k) → Int
  | leaf (_, x) => x.val
  | binary op left right => op.exact left.exact right.exact
  | neg operand => -operand.exact

/-- The tree has the shape and the leaves of `t`, and a result at each of them. -/
def ResultsOf (t : OperatorTree ι) (results : OperatorTree (ι × Fixed k)) : Prop :=
  results.map Prod.fst = t

section

variable {P : OperatorTree (ι × Fixed k) → Prop}

/-- The results of a leaf are any value it may yield. -/
theorem exists_resultsOf_leaf_iff {i : ι} :
    (∃ results, (leaf i).ResultsOf results ∧ P results) ↔ ∃ x, P (leaf (i, x)) := by
  constructor
  · rintro ⟨results, hof, hP⟩
    cases results with
    | leaf j =>
      obtain ⟨rfl⟩ := hof
      exact ⟨j.2, hP⟩
    | binary op left right => exact nomatch hof
    | neg operand => exact nomatch hof
  · rintro ⟨x, hP⟩
    exact ⟨leaf (i, x), rfl, hP⟩

/-- The results of an operation are those of its operands, taken apart. -/
theorem exists_resultsOf_binary_iff {op : NumOp} {l r : OperatorTree ι} :
    (∃ results, (binary op l r).ResultsOf results ∧ P results) ↔
      ∃ left, l.ResultsOf left ∧ ∃ right, r.ResultsOf right ∧ P (binary op left right) := by
  constructor
  · rintro ⟨results, hof, hP⟩
    cases results with
    | leaf j => exact nomatch hof
    | binary op' left right =>
      obtain ⟨rfl, hleft, hright⟩ := binary.inj hof
      exact ⟨left, hleft, right, hright, hP⟩
    | neg operand => exact nomatch hof
  · rintro ⟨left, rfl, right, rfl, hP⟩
    exact ⟨binary op left right, rfl, hP⟩

theorem exists_resultsOf_neg_iff {t : OperatorTree ι} :
    (∃ results, (neg t).ResultsOf results ∧ P results) ↔
      ∃ operand, t.ResultsOf operand ∧ P (neg operand) := by
  constructor
  · rintro ⟨results, hof, hP⟩
    cases results with
    | leaf j => exact nomatch hof
    | binary op left right => exact nomatch hof
    | neg operand => exact ⟨operand, neg.inj hof, hP⟩
  · rintro ⟨operand, rfl, hP⟩
    exact ⟨neg operand, rfl, hP⟩

end

/-- Results can be made up where none have been yielded. -/
theorem exists_resultsOf (k : IntType) (t : OperatorTree ι) :
    ∃ results : OperatorTree (ι × Fixed k), t.ResultsOf results := by
  refine ⟨t.map fun i => (i, Fixed.zero), ?_⟩
  induction t with
  | leaf i => rfl
  | binary op left right ihl ihr => exact congrArg₂ (binary op) ihl ihr
  | neg operand ih => exact congrArg neg ih

/-! ## Turns -/

section

variable (make : ι → Effect σ (Fixed k))

/-- What is done in the turn of a subtree, once its operands have come before: a leaf is invoked,
and an inner node computes. -/
def turn : OperatorTree (ι × Fixed k) → Computation σ (Fixed k)
  | leaf (i, _) => (make i).invoke
  | binary op left right => liftM (Fixed.checked op.overflow (binary op left right).exact)
  | neg operand => liftM (Fixed.checked .neg (neg operand).exact)

/-- The turn of a subtree yields its exact value. -/
def Yields (t : OperatorTree (ι × Fixed k)) (s u : σ) : Prop :=
  ∃ x, (t.turn make).Halts s (.ok x, u) ∧ x.val = t.exact

end

section

variable {make : ι → Effect σ (Fixed k)} {t : OperatorTree ι}
  {results left right operand : OperatorTree (ι × Fixed k)} {op : NumOp} {x y r : Fixed k} {s u : σ}

/-- The turn of an operation checks the exact result of its operands. -/
theorem turn_binary_eq (hx : x.val = left.exact) (hy : y.val = right.exact) :
    (binary op left right).turn make =
      liftM (Fixed.checked op.overflow (op.exact x.val y.val) : Except Panic (Fixed k)) := by
  rw [turn, exact, hx, hy]

theorem turn_neg_eq (hx : x.val = operand.exact) :
    (neg operand).turn make =
      liftM (Fixed.checked .neg (-x.val) : Except Panic (Fixed k)) := by
  rw [turn, exact, hx]

theorem invoke_neg (make : ι → Effect σ (Fixed k)) (t : OperatorTree ι) :
    ((neg t).effect make).invoke =
      (t.effect make).invoke >>= fun x => liftM (Fixed.checked .neg (-x.val)) := rfl

/-- At every node the turn checks the exact value of the tree below. -/
theorem turn_node_eq {o : Overflow} (ho : results.overflow? = some o) :
    results.turn make = liftM (Fixed.checked o results.exact : Except Panic (Fixed k)) := by
  cases results with
  | leaf j => exact nomatch ho
  | binary op left right =>
    cases ho
    rfl
  | neg operand =>
    cases ho
    rfl

/-- A node that yields a value leaves the state as it is. -/
theorem halts_node_value_iff {o : Overflow} (ho : results.overflow? = some o) :
    (results.turn make).Halts s (.ok x, u) ↔ x.val = results.exact ∧ s = u := by
  rw [turn_node_eq ho, halts_lift_iff, Prod.mk.injEq, eq_comm, Fixed.checked_eq_ok_iff,
    @eq_comm _ u]

/-- A node panics exactly if its exact value is not representable, and leaves the state alone. -/
theorem halts_node_panic_iff {o : Overflow} (ho : results.overflow? = some o) {p : Panic} :
    (results.turn make).Halts s (.error p, u) ↔
      (¬k.Represents results.exact ∧ p = o.panic) ∧ s = u := by
  rw [turn_node_eq ho, halts_lift_iff, Prod.mk.injEq, eq_comm, Fixed.checked_eq_error_iff,
    IntType.not_represents_iff, @eq_comm _ u]

/-- If all turns pass, there is a number for the value of the tree. -/
theorem exists_val_eq_of_passes (h : Passes (Yields make) results.postorder s u) :
    ∃ x : Fixed k, x.val = results.exact := by
  obtain ⟨before, hbefore⟩ := results.exists_postorder_eq
  rw [hbefore, passes_append_iff] at h
  obtain ⟨v, -, hlast⟩ := h
  obtain ⟨w, ⟨x, -, hx⟩, -⟩ := passes_cons_iff.1 hlast
  exact ⟨x, hx⟩

/-- The effect yields a value if all turns of the subtrees pass, in postorder, and the value is the
exact one. -/
theorem halts_effect_value_iff :
    (t.effect make).invoke.Halts s (.ok r, u) ↔
      ∃ results, t.ResultsOf results ∧
        Passes (Yields make) results.postorder s u ∧ r.val = results.exact := by
  induction t generalizing s u r with
  | leaf i =>
    rw [exists_resultsOf_leaf_iff]
    simp only [postorder, passes_singleton_iff]
    constructor
    · intro h
      exact ⟨r, ⟨r, h, rfl⟩, rfl⟩
    · rintro ⟨x, ⟨y, h, hy⟩, hr⟩
      rw [Fixed.ext (hr.trans hy.symm)]
      exact h
  | binary op l r' ihl ihr =>
    rw [effect, NumOp.invoke_lifted, exists_resultsOf_binary_iff]
    simp only [halts_bind_value_iff, ihl, ihr, postorder, passes_append_iff, passes_singleton_iff]
    constructor
    · rintro ⟨x, v, ⟨left, hl, hleft, hx⟩, y, w, ⟨right, hr, hright, hy⟩, hop⟩
      rw [← turn_binary_eq hx hy] at hop
      have hvalue := ((halts_node_value_iff rfl).1 hop).1
      exact ⟨left, hl, right, hr, ⟨w, ⟨v, hleft, hright⟩, r, hop, hvalue⟩, hvalue⟩
    · rintro ⟨left, hl, right, hr, ⟨w, ⟨v, hleft, hright⟩, z, hop, hz⟩, hvalue⟩
      obtain ⟨x, hx⟩ := exists_val_eq_of_passes hleft
      obtain ⟨y, hy⟩ := exists_val_eq_of_passes hright
      refine ⟨x, v, ⟨left, hl, hleft, hx⟩, y, w, ⟨right, hr, hright, hy⟩, ?_⟩
      rw [← turn_binary_eq hx hy, Fixed.ext (hvalue.trans hz.symm)]
      exact hop
  | neg t ih =>
    rw [invoke_neg, exists_resultsOf_neg_iff]
    simp only [halts_bind_value_iff, ih, postorder, passes_append_iff, passes_singleton_iff]
    constructor
    · rintro ⟨x, v, ⟨operand, hof, hpasses, hx⟩, hop⟩
      rw [← turn_neg_eq hx] at hop
      have hvalue := ((halts_node_value_iff rfl).1 hop).1
      exact ⟨operand, hof, ⟨v, hpasses, r, hop, hvalue⟩, hvalue⟩
    · rintro ⟨operand, hof, ⟨v, hpasses, z, hop, hz⟩, hvalue⟩
      obtain ⟨x, hx⟩ := exists_val_eq_of_passes hpasses
      refine ⟨x, v, ⟨operand, hof, hpasses, hx⟩, ?_⟩
      rw [← turn_neg_eq hx, Fixed.ext (hvalue.trans hz.symm)]
      exact hop

/-- What happens when a sequence runs, in its first part or after that, happens in the turn of a
subtree, when the turns before it have passed. -/
theorem happens_effect_iff (happens : Computation σ (Fixed k) → σ → Prop)
    (hbind : ∀ {x : Computation σ (Fixed k)} {f : Fixed k → Computation σ (Fixed k)} {s : σ},
      happens (x >>= f) s ↔ happens x s ∨ ∃ a u, x.Halts s (.ok a, u) ∧ happens (f a) u) :
    happens (t.effect make).invoke s ↔
      ∃ results, t.ResultsOf results ∧
        ∃ done next u, Reaches (Yields make) results.postorder s done next u ∧
          happens (next.turn make) u := by
  induction t generalizing s with
  | leaf i =>
    rw [exists_resultsOf_leaf_iff]
    constructor
    · intro h
      exact ⟨Fixed.zero, [], _, s, reaches_cons_iff.2 (.inl ⟨rfl, rfl, rfl⟩), h⟩
    · rintro ⟨x, done, next, u, hreaches, h⟩
      obtain ⟨-, rfl, rfl⟩ | ⟨rest, v, -, -, hreaches⟩ := reaches_cons_iff.1 hreaches
      · exact h
      · exact absurd hreaches not_reaches_nil
  | binary op l r ihl ihr =>
    rw [effect, NumOp.invoke_lifted, exists_resultsOf_binary_iff]
    simp only [hbind, ihl, ihr, halts_effect_value_iff, postorder, exists_reaches_append_iff,
      exists_reaches_singleton_iff, passes_append_iff]
    constructor
    · rintro (⟨left, hl, hfirst⟩ | ⟨x, v, ⟨left, hl, hleft, hx⟩, hsecond⟩)
      · obtain ⟨right, hr⟩ := exists_resultsOf k r
        exact ⟨left, hl, right, hr, .inl (.inl hfirst)⟩
      · obtain ⟨right, hr, hsecond⟩ | ⟨y, w, ⟨right, hr, hright, hy⟩, hlast⟩ := hsecond
        · exact ⟨left, hl, right, hr, .inl (.inr ⟨v, hleft, hsecond⟩)⟩
        · rw [← turn_binary_eq hx hy] at hlast
          exact ⟨left, hl, right, hr, .inr ⟨w, ⟨v, hleft, hright⟩, hlast⟩⟩
    · rintro ⟨left, hl, right, hr, (hfirst | ⟨v, hleft, hsecond⟩) | ⟨w, ⟨v, hleft, hright⟩, hlast⟩⟩
      · exact .inl ⟨left, hl, hfirst⟩
      · obtain ⟨x, hx⟩ := exists_val_eq_of_passes hleft
        exact .inr ⟨x, v, ⟨left, hl, hleft, hx⟩, .inl ⟨right, hr, hsecond⟩⟩
      · obtain ⟨x, hx⟩ := exists_val_eq_of_passes hleft
        obtain ⟨y, hy⟩ := exists_val_eq_of_passes hright
        rw [turn_binary_eq hx hy] at hlast
        exact .inr ⟨x, v, ⟨left, hl, hleft, hx⟩, .inr ⟨y, w, ⟨right, hr, hright, hy⟩, hlast⟩⟩
  | neg t ih =>
    rw [invoke_neg, exists_resultsOf_neg_iff]
    simp only [hbind, ih, halts_effect_value_iff, postorder, exists_reaches_append_iff,
      exists_reaches_singleton_iff]
    constructor
    · rintro (⟨operand, hof, hfirst⟩ | ⟨x, v, ⟨operand, hof, hpasses, hx⟩, hlast⟩)
      · exact ⟨operand, hof, .inl hfirst⟩
      · rw [← turn_neg_eq hx] at hlast
        exact ⟨operand, hof, .inr ⟨v, hpasses, hlast⟩⟩
    · rintro ⟨operand, hof, hfirst | ⟨v, hpasses, hlast⟩⟩
      · exact .inl ⟨operand, hof, hfirst⟩
      · obtain ⟨x, hx⟩ := exists_val_eq_of_passes hpasses
        rw [turn_neg_eq hx] at hlast
        exact .inr ⟨x, v, ⟨operand, hof, hpasses, hx⟩, hlast⟩

end

/-! ## Results so far -/

section

variable (make : ι → Effect σ (Fixed k))

/-- The subtrees `done` have had their turns: their leaves have been invoked, in order, and have
yielded their results, and there is a number for the value of each of them. -/
structure Completed (done : List (OperatorTree (ι × Fixed k))) (s u : σ) : Prop where
  leaves : ((leavesAmong done).mapM fun j => (make j.1).invoke).Halts s
    (.ok ((leavesAmong done).map Prod.snd), u)
  fits : ∀ t ∈ done, k.Represents t.exact

/-- The turn of a subtree panics: the leaf does, or there is no number for the value of the node. -/
inductive FailsAt : OperatorTree (ι × Fixed k) → σ → Panic → σ → Prop where
  | leaf {i : ι} {x : Fixed k} {s u : σ} {p : Panic} (h : (make i).invoke.Halts s (.error p, u)) :
    FailsAt (leaf (i, x)) s p u
  | node {next : OperatorTree (ι × Fixed k)} {o : Overflow} {s : σ} (ho : next.overflow? = some o)
    (h : ¬k.Represents next.exact) : FailsAt next s o.panic s

end

section

variable {make : ι → Effect σ (Fixed k)} {next : OperatorTree (ι × Fixed k)}
  {done : List (OperatorTree (ι × Fixed k))} {s u : σ} {p : Panic}

/-- A leaf fails where its effect panics. -/
theorem failsAt_leaf_iff {i : ι} {x : Fixed k} :
    FailsAt make (leaf (i, x)) s p u ↔ (make i).invoke.Halts s (.error p, u) := by
  constructor
  · rintro (⟨h⟩ | ⟨⟨⟩, -⟩)
    exact h
  · exact .leaf

/-- A node fails where its exact value is not representable, with the text of its operation. -/
theorem failsAt_node_iff {o : Overflow} (ho : next.overflow? = some o) :
    FailsAt make next s p u ↔ (¬k.Represents next.exact ∧ p = o.panic) ∧ s = u := by
  constructor
  · rintro (_ | ⟨ho', h⟩)
    · exact nomatch ho
    · cases ho.symm.trans ho'
      exact ⟨⟨h, rfl⟩, rfl⟩
  · rintro ⟨⟨h, rfl⟩, rfl⟩
    exact .node ho h

/-- A turn panics exactly if evaluation fails at its tree. -/
theorem halts_turn_panic_iff :
    (next.turn make).Halts s (.error p, u) ↔ FailsAt make next s p u := by
  obtain ⟨j, rfl⟩ | ⟨o, ho, -⟩ := next.leaf_or_node
  · exact failsAt_leaf_iff.symm
  · rw [halts_node_panic_iff ho, failsAt_node_iff ho]

/-- Only the effect of a leaf can run forever. -/
theorem diverges_turn_iff :
    (next.turn make).Diverges s ↔ ∃ i x, next = leaf (i, x) ∧ (make i).invoke.Diverges s := by
  obtain ⟨j, rfl⟩ | ⟨o, ho, -⟩ := next.leaf_or_node
  · constructor
    · exact fun h => ⟨j.1, j.2, rfl, h⟩
    · rintro ⟨i, x, ⟨⟩, h⟩
      exact h
  · rw [turn_node_eq ho]
    refine iff_of_false (fun h => diverges_iff.1 h _ (halts_lift_iff.2 rfl)) ?_
    rintro ⟨i, x, rfl, -⟩
    exact nomatch ho

theorem yields_leaf_iff {i : ι} {x : Fixed k} :
    Yields make (leaf (i, x)) s u ↔ (make i).invoke.Halts s (.ok x, u) := by
  constructor
  · rintro ⟨y, h, hy⟩
    rw [← Fixed.ext hy]
    exact h
  · exact fun h => ⟨x, h, rfl⟩

theorem yields_node_iff {o : Overflow} (ho : next.overflow? = some o) :
    Yields make next s u ↔ k.Represents next.exact ∧ s = u := by
  simp only [Yields, halts_node_value_iff ho, IntType.represents_iff]
  constructor
  · rintro ⟨x, ⟨hx, rfl⟩, -⟩
    exact ⟨⟨x, hx⟩, rfl⟩
  · rintro ⟨⟨x, hx⟩, rfl⟩
    exact ⟨x, ⟨hx, rfl⟩, hx⟩

theorem completed_nil_iff : Completed make [] s u ↔ s = u := by
  constructor
  · rintro ⟨hleaves, -⟩
    cases halts_pure_iff.1 hleaves
    rfl
  · rintro rfl
    exact ⟨halts_pure_iff.2 rfl, fun t ht => absurd ht List.not_mem_nil⟩

/-- What the others do comes after the first leaf. -/
theorem completed_leaf_iff {i : ι} {x : Fixed k} :
    Completed make (leaf (i, x) :: done) s u ↔
      ∃ v, (make i).invoke.Halts s (.ok x, v) ∧ Completed make done v u := by
  have hmapM : ((leavesAmong (leaf (i, x) :: done)).mapM fun j => (make j.1).invoke) = (do
      let y ← (make i).invoke
      let ys ← (leavesAmong done).mapM fun j => (make j.1).invoke
      return y :: ys) := List.mapM_cons
  constructor
  · rintro ⟨hleaves, hfits⟩
    rw [hmapM] at hleaves
    obtain ⟨y, v, hfirst, hrest⟩ := halts_bind_value_iff.1 hleaves
    obtain ⟨ys, w, hrest, hend⟩ := halts_bind_value_iff.1 hrest
    obtain ⟨hcons, rfl⟩ := Prod.mk.inj (halts_pure_iff.1 hend)
    obtain ⟨rfl, rfl⟩ := List.cons.inj (Except.ok.inj hcons)
    exact ⟨v, hfirst, hrest, fun t ht => hfits t (List.mem_cons_of_mem _ ht)⟩
  · rintro ⟨v, hfirst, hrest, hfits⟩
    refine ⟨?_, fun t ht => ?_⟩
    · rw [hmapM]
      exact (halts_bind_ok_iff hfirst).2 ((halts_bind_ok_iff hrest).2 (halts_pure_iff.2 rfl))
    · obtain rfl | ht := List.mem_cons.1 ht
      · exact x.represents_val
      · exact hfits t ht

/-- Completing a node takes nothing but that its value is representable. -/
theorem completed_node_iff (hnode : next.atRoot = []) :
    Completed make (next :: done) s u ↔
      k.Represents next.exact ∧ Completed make done s u := by
  have hleaves : leavesAmong (next :: done) = leavesAmong done := by
    rw [leavesAmong, List.flatMap_cons, hnode]
    rfl
  constructor
  · rintro ⟨hrun, hfits⟩
    rw [hleaves] at hrun
    exact ⟨hfits next List.mem_cons_self, hrun, fun t ht => hfits t (List.mem_cons_of_mem _ ht)⟩
  · rintro ⟨hnext, hrun, hfits⟩
    refine ⟨hleaves ▸ hrun, fun t ht => ?_⟩
    obtain rfl | ht := List.mem_cons.1 ht
    · exact hnext
    · exact hfits t ht

/-- Going through trees in turn is completing them. -/
theorem passes_yields_iff : Passes (Yields make) done s u ↔ Completed make done s u := by
  induction done generalizing s with
  | nil => rw [passes_nil_iff, completed_nil_iff]
  | cons next done ih =>
    rw [passes_cons_iff]
    obtain ⟨⟨i, x⟩, rfl⟩ | ⟨o, ho, hnode⟩ := next.leaf_or_node
    · simp only [yields_leaf_iff, completed_leaf_iff, ih]
    · simp only [yields_node_iff ho, completed_node_iff hnode, ih, and_assoc, exists_and_left,
        exists_eq_left']

end

/-! ## Which leaves are invoked -/

section

variable {make : ι → Effect σ (Fixed k)} {t : OperatorTree ι} {next : OperatorTree (ι × Fixed k)}
  {done : List (OperatorTree (ι × Fixed k))} {w w' : Watched σ ι}

/-- A tree that yields notes the leaf at its root, if it is one. -/
theorem yields_notedItem_iff :
    Yields (Effect.notedItem make) next w w' ↔
      ∃ u, Yields make next w.state u ∧ w' = ⟨u, w.notes ++ next.atRoot.map Prod.fst⟩ := by
  obtain ⟨⟨i, x⟩, rfl⟩ | ⟨o, ho, hnode⟩ := next.leaf_or_node
  · simp only [yields_leaf_iff]
    exact Effect.halts_noted_iff
  · simp only [yields_node_iff ho, hnode, List.map_nil, List.append_nil, and_assoc, exists_and_left,
      exists_eq_left']
    rw [@eq_comm _ w']

theorem failsAt_notedItem_iff {p : Panic} :
    FailsAt (Effect.notedItem make) next w p w' ↔
      ∃ u, FailsAt make next w.state p u ∧ w' = ⟨u, w.notes ++ next.atRoot.map Prod.fst⟩ := by
  obtain ⟨⟨i, x⟩, rfl⟩ | ⟨o, ho, hnode⟩ := next.leaf_or_node
  · simp only [failsAt_leaf_iff]
    exact Effect.halts_noted_iff
  · simp only [failsAt_node_iff ho, hnode, List.map_nil, List.append_nil, and_assoc,
      exists_and_left, exists_eq_left']
    rw [@eq_comm _ w']

theorem map_leavesAmong (trees : List (OperatorTree (ι × Fixed k))) :
    trees.flatMap (fun next => next.atRoot.map Prod.fst) = (leavesAmong trees).map Prod.fst :=
  List.map_flatMap.symm

theorem append_notes_next (notes : List ι) (done : List (OperatorTree (ι × Fixed k)))
    (next : OperatorTree (ι × Fixed k)) :
    notes ++ (leavesAmong done).map Prod.fst ++ next.atRoot.map Prod.fst =
      notes ++ (leavesAmong (done ++ [next])).map Prod.fst := by
  rw [leavesAmong, leavesAmong, List.flatMap_append, List.map_append, List.flatMap_singleton,
    List.append_assoc]

/-- The trees completed have their leaves noted. -/
theorem passes_notedItem_iff :
    Passes (Yields (Effect.notedItem make)) done w w' ↔
      ∃ u, Passes (Yields make) done w.state u ∧
        w' = ⟨u, w.notes ++ (leavesAmong done).map Prod.fst⟩ := by
  rw [← map_leavesAmong]
  exact passes_noted_iff fun _ _ _ => yields_notedItem_iff

theorem reaches_notedItem_iff {trees : List (OperatorTree (ι × Fixed k))} :
    Reaches (Yields (Effect.notedItem make)) trees w done next w' ↔
      ∃ u, Reaches (Yields make) trees w.state done next u ∧
        w' = ⟨u, w.notes ++ (leavesAmong done).map Prod.fst⟩ := by
  rw [← map_leavesAmong]
  exact reaches_noted_iff fun _ _ _ => yields_notedItem_iff

/-- Noting the leaves changes nothing else about an evaluation. -/
theorem alike_effect (make : ι → Effect σ (Fixed k)) (t : OperatorTree ι) :
    Alike Watched.Of Eq (t.effect make).invoke (t.effect (Effect.notedItem make)).invoke := by
  induction t with
  | leaf i => exact Effect.alike_noted i (make i)
  | binary op left right ihl ihr =>
    rw [effect, effect, NumOp.invoke_lifted, NumOp.invoke_lifted]
    exact ihl.bind_eq fun x => ihr.bind_eq fun y => alike_lift _
  | neg operand ih => exact ih.bind_eq fun x => alike_lift _

end

/-! ## Evaluation -/

section

variable (make : ι → Effect σ (Fixed k)) (t : OperatorTree ι)

/-- The tree panics in the turn of some subtree, after those before it in postorder have had their
turns. By then the leaves `ran` have been invoked. -/
def PanicsAfter (s : σ) (ran : List ι) (p : Panic) (u : σ) : Prop :=
  ∃ results done next v, t.ResultsOf results ∧ done ++ [next] <+: results.postorder ∧
    Completed make done s v ∧ FailsAt make next v p u ∧
    ran = (leavesAmong (done ++ [next])).map Prod.fst

/-- How the effect of an operator tree is invoked. -/
structure Evaluates : Prop where
  /-- If the leaves yield results, one after the other, and there is a number for the exact value of
  every subtree on them, then the value of the whole tree is yielded. -/
  returns_iff {s u : σ} {n : Int} :
    (∃ r : Fixed k, r.val = n ∧ (t.effect make).invoke.Halts s (.ok r, u)) ↔
      ∃ results, t.ResultsOf results ∧
        (t.leaves.mapM fun i => (make i).invoke).Halts s
          (.ok (results.leaves.map Prod.snd), u) ∧
        (∀ next ∈ results.postorder, k.Represents next.exact) ∧ n = results.exact
  panics_iff {s u : σ} {p : Panic} :
    (t.effect make).invoke.Halts s (.error p, u) ↔ ∃ ran, t.PanicsAfter make s ran p u
  diverges_iff {s : σ} : (t.effect make).invoke.Diverges s ↔
    ∃ results done i x v, t.ResultsOf results ∧ done ++ [leaf (i, x)] <+: results.postorder ∧
      Completed make done s v ∧ (make i).invoke.Diverges v
  /-- When a value is yielded, each leaf has been invoked, once for every occurrence, from left to
  right. -/
  returns_noted_iff {w w' : Watched σ ι} {r : Fixed k} :
    (t.effect (Effect.notedItem make)).invoke.Halts w (.ok r, w') ↔
      ∃ u, (t.effect make).invoke.Halts w.state (.ok r, u) ∧ w' = ⟨u, w.notes ++ t.leaves⟩
  /-- A panic comes when some of them have been invoked, those before it in postorder. -/
  panics_noted_iff {w w' : Watched σ ι} {p : Panic} :
    (t.effect (Effect.notedItem make)).invoke.Halts w (.error p, w') ↔
      ∃ ran u, t.PanicsAfter make w.state ran p u ∧ w' = ⟨u, w.notes ++ ran⟩
  /-- Taking notes changes nothing else. -/
  alike_noted :
    Alike Watched.Of Eq (t.effect make).invoke (t.effect (Effect.notedItem make)).invoke

end

section

variable {make : ι → Effect σ (Fixed k)} {t : OperatorTree ι}
  {results : OperatorTree (ι × Fixed k)} {s u : σ}

/-- A tree is completed exactly if its leaves yield in order and all its nodes are representable. -/
theorem completed_postorder_iff (hof : t.ResultsOf results) :
    Completed make results.postorder s u ↔
      (t.leaves.mapM fun i => (make i).invoke).Halts s (.ok (results.leaves.map Prod.snd), u) ∧
        ∀ next ∈ results.postorder, k.Represents next.exact := by
  have hleaves : (t.leaves.mapM fun i => (make i).invoke) =
      (leavesAmong results.postorder).mapM fun j => (make j.1).invoke := by
    rw [← hof, leaves_map, leavesAmong_postorder, List.mapM_map]
    rfl
  constructor
  · rintro ⟨hrun, hfits⟩
    rw [hleaves, ← leavesAmong_postorder]
    exact ⟨hrun, hfits⟩
  · rintro ⟨hrun, hfits⟩
    rw [hleaves, ← leavesAmong_postorder] at hrun
    exact ⟨hrun, hfits⟩

/-- Evaluation panics exactly at the first subtree in postorder that fails. -/
theorem halts_effect_panic_iff {p : Panic} :
    (t.effect make).invoke.Halts s (.error p, u) ↔
      ∃ results, t.ResultsOf results ∧
        ∃ done next v, Reaches (Yields make) results.postorder s done next v ∧
          FailsAt make next v p u := by
  refine (happens_effect_iff (fun x s => x.Halts s (.error p, u)) halts_bind_panic_iff).trans ?_
  simp only [halts_turn_panic_iff]

/-- The leaves of the results are those of the tree. -/
theorem notes_postorder (hof : t.ResultsOf results) :
    (leavesAmong results.postorder).map Prod.fst = t.leaves := by
  rw [leavesAmong_postorder, ← leaves_map, hof]

variable {w w' : Watched σ ι}

/-- An evaluation that returns has invoked every leaf once, in order. -/
theorem halts_notedItem_value_iff {r : Fixed k} :
    (t.effect (Effect.notedItem make)).invoke.Halts w (.ok r, w') ↔
      ∃ u, (t.effect make).invoke.Halts w.state (.ok r, u) ∧ w' = ⟨u, w.notes ++ t.leaves⟩ := by
  simp only [halts_effect_value_iff, passes_notedItem_iff]
  constructor
  · rintro ⟨results, hof, ⟨u, hpasses, rfl⟩, hr⟩
    exact ⟨u, ⟨results, hof, hpasses, hr⟩, by rw [notes_postorder hof]⟩
  · rintro ⟨u, ⟨results, hof, hpasses, hr⟩, rfl⟩
    exact ⟨results, hof, ⟨u, hpasses, by rw [notes_postorder hof]⟩, hr⟩

/-- One that panics has invoked the leaves up to where it failed. -/
theorem halts_notedItem_panic_iff {p : Panic} :
    (t.effect (Effect.notedItem make)).invoke.Halts w (.error p, w') ↔
      ∃ ran u, t.PanicsAfter make w.state ran p u ∧ w' = ⟨u, w.notes ++ ran⟩ := by
  rw [halts_effect_panic_iff]
  simp only [reaches_notedItem_iff, failsAt_notedItem_iff]
  constructor
  · rintro ⟨results, hof, done, next, _, ⟨v, ⟨hbegins, hpasses⟩, rfl⟩, u, hfails, rfl⟩
    refine ⟨_, u, ⟨results, done, next, v, hof, hbegins, passes_yields_iff.1 hpasses, hfails,
      rfl⟩, ?_⟩
    rw [append_notes_next]
  · rintro ⟨_, u, ⟨results, done, next, v, hof, hbegins, hcompleted, hfails, rfl⟩, rfl⟩
    refine ⟨results, hof, done, next, _, ⟨v, ⟨hbegins, passes_yields_iff.2 hcompleted⟩, rfl⟩, u,
      hfails, ?_⟩
    rw [append_notes_next]

end

/-- Every tree of operators evaluates in postorder to its exact value or to the first failure. -/
theorem operator_trees_evaluate (make : ι → Effect σ (Fixed k)) (t : OperatorTree ι) :
    t.Evaluates make where
  returns_iff := by
    intro s u n
    simp only [halts_effect_value_iff, passes_yields_iff]
    constructor
    · rintro ⟨r, rfl, results, hof, hcompleted, hr⟩
      obtain ⟨hrun, hfits⟩ := (completed_postorder_iff hof).1 hcompleted
      exact ⟨results, hof, hrun, hfits, hr⟩
    · rintro ⟨results, hof, hrun, hfits, rfl⟩
      have hcompleted := (completed_postorder_iff hof).2 ⟨hrun, hfits⟩
      obtain ⟨r, hr⟩ := exists_val_eq_of_passes (passes_yields_iff.2 hcompleted)
      exact ⟨r, hr, results, hof, hcompleted, hr⟩
  panics_iff := by
    intro s u p
    rw [halts_effect_panic_iff]
    constructor
    · rintro ⟨results, hof, done, next, v, ⟨hbegins, hpasses⟩, hfails⟩
      exact ⟨_, results, done, next, v, hof, hbegins, passes_yields_iff.1 hpasses, hfails, rfl⟩
    · rintro ⟨ran, results, done, next, v, hof, hbegins, hcompleted, hfails, -⟩
      exact ⟨results, hof, done, next, v, ⟨hbegins, passes_yields_iff.2 hcompleted⟩, hfails⟩
  diverges_iff := by
    intro s
    refine (happens_effect_iff Diverges diverges_bind_iff).trans ?_
    simp only [diverges_turn_iff]
    constructor
    · rintro ⟨results, hof, done, next, v, ⟨hbegins, hpasses⟩, i, x, rfl, hdiverges⟩
      exact ⟨results, done, i, x, v, hof, hbegins, passes_yields_iff.1 hpasses, hdiverges⟩
    · rintro ⟨results, done, i, x, v, hof, hbegins, hcompleted, hdiverges⟩
      exact ⟨results, hof, done, _, v, ⟨hbegins, passes_yields_iff.2 hcompleted⟩, i, x, rfl,
        hdiverges⟩
  returns_noted_iff := halts_notedItem_value_iff
  panics_noted_iff := halts_notedItem_panic_iff
  alike_noted := alike_effect make t

/-- The sum does not fit, so the leaf that would make up for it is not invoked. -/
example :
    let counted (n : Fixed .i8) : Effect Nat (Fixed .i8) := ⟨update fun count => (n, count + 1)⟩
    let one : OperatorTree (Fixed .i8) := leaf ⟨1, by decide, by decide⟩
    let sum := binary .add (leaf ⟨127, by decide, by decide⟩) one
    ((binary .sub sum one).effect counted).invoke.run 0 0 =
      some (.error Overflow.add.panic, 2) := rfl

end OperatorTree

end Deferred
