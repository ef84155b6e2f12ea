import Deferred.Proofs.Combining
import Mathlib.Algebra.BigOperators.Group.List.Basic
import Mathlib.Algebra.Order.BigOperators.Group.List
import Mathlib.Algebra.Order.Ring.Int

/-!
# Totals of checked integers

Sums and products of integers of a fixed width combine as the integers do that they stand for
(`CombinesExactly`), and every result is checked before the next item is taken. So a list has a
total if all of its prefixes have one that the format represents, and otherwise the list overflows
(`ChecksPrefixes`). That the total of the whole list is representable is not enough: a later item
may undo what an earlier one did too much. It is enough for sums of unsigned integers, which only
grow, and so the order of the items makes no difference to these (`lists_checked`).
-/

namespace Deferred

variable {α : Type} {k : IntType}

open Deferred.Semigroup

/-! ## Outcomes -/

/-- The outcome is the one value that satisfies `V`, or else the panic `q`. Which of them it is, `C`
decides. -/
structure DecidedBy (C : Prop) (V : α → Prop) (q : Panic) (outcome : Except Panic α) : Prop where
  eq_ok_iff {r : α} : outcome = .ok r ↔ C ∧ V r
  eq_error_iff {p : Panic} : outcome = .error p ↔ ¬C ∧ p = q

/-- A result with a value if a condition holds and with a panic otherwise is decided by the
condition. -/
theorem decidedBy_of_cases {C : Prop} {V : α → Prop} {q : Panic} {outcome : Except Panic α}
    (hok : C → ∃ r, outcome = .ok r ∧ V r) (herror : ¬C → outcome = .error q)
    (hunique : ∀ {r r'}, V r → V r' → r = r') : DecidedBy C V q outcome := by
  by_cases hC : C
  · obtain ⟨r, rfl, hV⟩ := hok hC
    refine ⟨fun {r'} => ⟨?_, fun h => ?_⟩, fun {p} => ⟨?_, fun h => absurd hC h.1⟩⟩
    · rintro ⟨⟩
      exact ⟨hC, hV⟩
    · rw [hunique hV h.2]
    · rintro ⟨⟩
  · rw [herror hC]
    refine ⟨fun {r} => ⟨?_, fun h => absurd h.1 hC⟩, fun {p} => ⟨?_, fun h => ?_⟩⟩
    · rintro ⟨⟩
    · rintro ⟨⟩
      exact ⟨hC, rfl⟩
    · rw [h.2]

namespace DecidedBy

variable {C : Prop} {V : α → Prop} {q : Panic} {x y : Except Panic α}

/-- There is a value exactly if the condition holds. -/
theorem exists_ok_iff (h : DecidedBy C V q x) : (∃ r, x = .ok r) ↔ C := by
  constructor
  · rintro ⟨r, hr⟩
    exact (h.eq_ok_iff.1 hr).1
  · intro hC
    cases hx : x with
    | ok r => exact ⟨r, rfl⟩
    | error p => exact absurd hC (h.eq_error_iff.1 hx).1

/-- The condition, the value and the panic leave only one result. -/
theorem unique (hx : DecidedBy C V q x) (hy : DecidedBy C V q y) : x = y := by
  cases hr : x with
  | ok r => exact (hy.eq_ok_iff.2 (hx.eq_ok_iff.1 hr)).symm
  | error p => exact (hy.eq_error_iff.2 (hx.eq_error_iff.1 hr)).symm

theorem congr_left {C' : Prop} (h : DecidedBy C V q x) (hC : C ↔ C') : DecidedBy C' V q x :=
  propext hC ▸ h

end DecidedBy

/-! ## Exact results -/

/-- The format has a number for `n`. -/
def IntType.Represents (k : IntType) (n : Int) : Prop := k.lo ≤ n ∧ n ≤ k.hi

/-- A number is not representable exactly if it lies beyond one of the bounds. -/
theorem IntType.not_represents_iff {n : Int} : ¬k.Represents n ↔ n < k.lo ∨ k.hi < n := by
  unfold Represents
  omega

theorem Fixed.represents_val (a : Fixed k) : k.Represents a.val := ⟨a.lo_le, a.le_hi⟩

/-- The representable numbers are the values of the type. -/
theorem IntType.represents_iff {n : Int} : k.Represents n ↔ ∃ a : Fixed k, a.val = n := by
  constructor
  · exact fun h => ⟨⟨n, h.1, h.2⟩, rfl⟩
  · rintro ⟨a, rfl⟩
    exact a.represents_val

/-- Values of `α` combine as the integers that they stand for do under `op`, and `o` is reported
where the format has no number for the result. The `total` of a list takes its items one after the
other, and their order does not matter to it. -/
structure CombinesExactly (α : Type) [Monoid α] (value : α → Fixed k) (op : Int → Int → Int)
    (total : List α → Int) (o : Overflow) : Prop where
  laws : CombiningLaws α
  ext {x y : α} (h : (value x).val = (value y).val) : x = y
  combine_eq_ok_iff {x y r : α} :
    combine x y = .ok r ↔ (value r).val = op (value x).val (value y).val
  combine_eq_error_iff {x y : α} {p : Panic} :
    combine x y = .error p ↔ ¬k.Represents (op (value x).val (value y).val) ∧ p = o.panic
  total_nil : total [] = (value Monoid.empty).val
  total_append (xs : List α) (x : α) : total (xs ++ [x]) = op (total xs) (value x).val
  total_perm {xs ys : List α} (h : xs.Perm ys) : total xs = total ys

/-- The sum of a list as an exact integer. -/
def Sum.total (xs : List (Sum (Fixed k))) : Int := (xs.map fun x => x.value.val).sum

/-- The product of a list as an exact integer. -/
def Product.total (xs : List (Product (Fixed k))) : Int := (xs.map fun x => x.value.val).prod

/-- A sum overflows exactly if the true sum is not representable. -/
theorem combine_sum_eq_error_iff {x y : Sum (Fixed k)} {p : Panic} :
    combine x y = .error p ↔
      ¬k.Represents (x.value.val + y.value.val) ∧ p = Overflow.add.panic := by
  show Sum.mk <$> Fixed.checked .add (x.value.val + y.value.val) = .error p ↔ _
  rw [map_eq_error_iff, Fixed.checked_eq_error_iff, IntType.not_represents_iff]

theorem combine_product_eq_error_iff {x y : Product (Fixed k)} {p : Panic} :
    combine x y = .error p ↔
      ¬k.Represents (x.value.val * y.value.val) ∧ p = Overflow.mul.panic := by
  show Product.mk <$> Fixed.checked .mul (x.value.val * y.value.val) = .error p ↔ _
  rw [map_eq_error_iff, Fixed.checked_eq_error_iff, IntType.not_represents_iff]

theorem combinesExactly_sum (k : IntType) :
    CombinesExactly (Sum (Fixed k)) Sum.value (· + ·) Sum.total .add where
  laws := combiningLaws_sum k
  ext := Sum.ext_val
  combine_eq_ok_iff := combine_sum_eq_ok_iff
  combine_eq_error_iff := combine_sum_eq_error_iff
  total_nil := rfl
  total_append xs x := by
    rw [Sum.total, List.map_append, List.sum_append]
    exact congrArg (Sum.total xs + ·) (List.sum_singleton)
  total_perm h := (h.map _).sum_eq

theorem combinesExactly_product (k : IntType) :
    CombinesExactly (Product (Fixed k)) Product.value (· * ·) Product.total .mul where
  laws := combiningLaws_product k
  ext := Product.ext_val
  combine_eq_ok_iff := combine_product_eq_ok_iff
  combine_eq_error_iff := combine_product_eq_error_iff
  total_nil := rfl
  total_append xs x := by
    rw [Product.total, List.map_append, List.prod_append]
    exact congrArg (Product.total xs * ·) (List.prod_singleton)
  total_perm h := (h.map _).prod_eq

/-! ## Folds -/

/-- The source of values that are there already. -/
def ready (xs : List α) : List (Except Panic α) := xs.map .ok

theorem foldFrom_ready_cons [Semigroup α] (acc x : α) (xs : List α) :
    foldFrom acc (ready (x :: xs)) = combine acc x >>= fun y => foldFrom y (ready xs) := rfl

namespace CombinesExactly

variable [Monoid α] {value : α → Fixed k} {op : Int → Int → Int} {total : List α → Int}
  {o : Overflow}

/-- Two values combine if the format has a number for the result. -/
theorem exists_combine (h : CombinesExactly α value op total o) {x y : α}
    (hfits : k.Represents (op (value x).val (value y).val)) :
    ∃ r, combine x y = .ok r ∧ (value r).val = op (value x).val (value y).val := by
  cases hr : combine x y with
  | ok r => exact ⟨r, rfl, h.combine_eq_ok_iff.1 hr⟩
  | error p => exact absurd hfits (h.combine_eq_error_iff.1 hr).1

section

variable (done : List α) {xs : List α} {acc : α}

/-- A fold that has come to the total of the items `done` goes on to the total of all items. -/
theorem exists_foldFrom (h : CombinesExactly α value op total o)
    (hacc : (value acc).val = total done)
    (hfits : ∀ part, part <+: xs → k.Represents (total (done ++ part))) :
    ∃ r, foldFrom acc (ready xs) = .ok r ∧ (value r).val = total (done ++ xs) := by
  induction xs generalizing done acc with
  | nil => exact ⟨acc, rfl, by rw [List.append_nil, hacc]⟩
  | cons x xs ih =>
    have hx : total (done ++ [x]) = op (value acc).val (value x).val := by
      rw [h.total_append, hacc]
    have hfirst : k.Represents (op (value acc).val (value x).val) :=
      hx ▸ hfits [x] (List.cons_prefix_cons.2 ⟨rfl, List.nil_prefix⟩)
    obtain ⟨y, hy, hvalue⟩ := h.exists_combine hfirst
    rw [foldFrom_ready_cons, hy]
    have hrest := ih (done ++ [x]) (hvalue.trans hx.symm) fun part hpart => by
      rw [List.append_assoc]
      exact hfits (x :: part) (List.cons_prefix_cons.2 ⟨rfl, hpart⟩)
    rw [List.append_assoc] at hrest
    exact hrest

/-- It overflows if there is no number for the total of a prefix. -/
theorem foldFrom_eq_error (h : CombinesExactly α value op total o)
    (hacc : (value acc).val = total done) {part : List α} (hpart : part <+: xs)
    (hfits : ¬k.Represents (total (done ++ part))) :
    foldFrom acc (ready xs) = .error o.panic := by
  induction xs generalizing done acc part with
  | nil =>
    rw [List.prefix_nil.1 hpart, List.append_nil, ← hacc] at hfits
    exact absurd (value acc).represents_val hfits
  | cons x xs ih =>
    rw [foldFrom_ready_cons]
    cases hy : combine acc x with
    | error p =>
      obtain ⟨-, rfl⟩ := h.combine_eq_error_iff.1 hy
      rfl
    | ok y =>
      -- What has been combined so far has a number, so the prefix goes on beyond it.
      obtain rfl | ⟨rest, rfl, hrest⟩ := List.prefix_cons_iff.1 hpart
      · rw [List.append_nil, ← hacc] at hfits
        exact absurd (value acc).represents_val hfits
      · refine ih (done ++ [x]) ?_ hrest ?_
        · rw [h.total_append, ← hacc]
          exact h.combine_eq_ok_iff.1 hy
        · rw [List.append_assoc]
          exact hfits

/-- Accumulating is decided by the totals of all prefixes. -/
theorem decidedBy_foldFrom (h : CombinesExactly α value op total o)
    (hacc : (value acc).val = total done) :
    DecidedBy (∀ part, part <+: xs → k.Represents (total (done ++ part)))
      (fun r => (value r).val = total (done ++ xs)) o.panic (foldFrom acc (ready xs)) := by
  refine decidedBy_of_cases (h.exists_foldFrom done hacc) (fun hnot => ?_)
    fun hr hr' => h.ext (hr.trans hr'.symm)
  simp only [not_forall] at hnot
  obtain ⟨part, hpart, hnot⟩ := hnot
  exact h.foldFrom_eq_error done hacc hpart hnot

end

end CombinesExactly

/-! ## Lists -/

/-- How lists of numbers are combined, if `total` is what they come to and an overflow is reported
by `text`. -/
structure ChecksPrefixes (α : Type) [Monoid α] (value : α → Fixed k) (total : List α → Int)
    (text : String) : Prop where
  /-- There is a number for the total of every prefix, and the last total is the result. -/
  returns_iff {xs : List α} {r : α} :
    Monoid.combineAll (ready xs) = .ok r ↔
      (∀ part, part <+: xs → k.Represents (total part)) ∧ (value r).val = total xs
  /-- Or there is a prefix for whose total there is none. -/
  panics_iff {xs : List α} {p : Panic} :
    Monoid.combineAll (ready xs) = .error p ↔
      (¬∀ part, part <+: xs → k.Represents (total part)) ∧ p = .literal text
  reduceAll_eq_none_iff {xs : List α} : reduceAll (ready xs) = .ok none ↔ xs = []
  /-- Without a neutral value to start from the outcome is the same. -/
  reduceAll_cons (x : α) (xs : List α) :
    reduceAll (ready (x :: xs)) = some <$> Monoid.combineAll (ready (x :: xs))
  /-- Orders of the items that overflow nowhere come to the same value. -/
  perm {xs ys : List α} (h : xs.Perm ys) {r r' : α}
    (hxs : Monoid.combineAll (ready xs) = .ok r)
    (hys : Monoid.combineAll (ready ys) = .ok r') : r = r'

/-- The neutral value is not seen in the outcome. -/
theorem combineAll_ready_cons [Monoid α] (h : CombiningLaws α) (x : α) (xs : List α) :
    Monoid.combineAll (ready (x :: xs)) = foldFrom x (ready xs) := by
  rw [Monoid.combineAll, foldFrom_ready_cons, h.empty_left]
  rfl

/-- Over a nonempty list `reduceAll` gives what `combineAll` does. -/
theorem reduceAll_ready_cons [Monoid α] (h : CombiningLaws α) (x : α) (xs : List α) :
    reduceAll (ready (x :: xs)) = some <$> Monoid.combineAll (ready (x :: xs)) := by
  rw [combineAll_ready_cons h, map_eq_pure_bind]
  rfl

/-- Where combining is exact, a list is checked prefix by prefix. -/
theorem CombinesExactly.checksPrefixes [Monoid α] {value : α → Fixed k} {op : Int → Int → Int}
    {total : List α → Int} {o : Overflow} (h : CombinesExactly α value op total o) :
    ChecksPrefixes α value total o.message where
  returns_iff := (h.decidedBy_foldFrom [] h.total_nil.symm).eq_ok_iff
  panics_iff := (h.decidedBy_foldFrom [] h.total_nil.symm).eq_error_iff
  reduceAll_eq_none_iff := by
    intro xs
    cases xs with
    | nil => exact iff_of_true rfl rfl
    | cons x xs =>
      refine iff_of_false ?_ (List.cons_ne_nil x xs)
      rw [reduceAll_ready_cons h.laws, map_eq_ok_iff]
      rintro ⟨r, -, ⟨⟩⟩
  reduceAll_cons := reduceAll_ready_cons h.laws
  perm := by
    intro xs ys hperm r r' hxs hys
    have hr := (h.decidedBy_foldFrom [] h.total_nil.symm).eq_ok_iff.1 hxs
    have hr' := (h.decidedBy_foldFrom [] h.total_nil.symm).eq_ok_iff.1 hys
    apply h.ext
    calc (value r).val = total xs := hr.2
      _ = total ys := h.total_perm hperm
      _ = (value r').val := hr'.2.symm

/-! ## Sums of unsigned integers -/

theorem Fixed.zero_le_val (hunsigned : k.signed = false) (a : Fixed k) : 0 ≤ a.val := by
  have hlo : k.lo = 0 := by rw [IntType.lo, hunsigned]; rfl
  exact hlo ▸ a.lo_le

/-- Without negative numbers no total is negative. -/
theorem Sum.zero_le_total (hunsigned : k.signed = false) (xs : List (Sum (Fixed k))) :
    0 ≤ Sum.total xs := by
  refine List.sum_nonneg fun n hn => ?_
  obtain ⟨x, -, rfl⟩ := List.mem_map.1 hn
  exact Fixed.zero_le_val hunsigned x.value

/-- The sum of a prefix is at most that of the list. -/
theorem Sum.represents_total_of_prefix (hunsigned : k.signed = false)
    {part xs : List (Sum (Fixed k))} (hpart : part <+: xs) (hfits : k.Represents (Sum.total xs)) :
    k.Represents (Sum.total part) := by
  obtain ⟨rest, rfl⟩ := hpart
  have hsplit : Sum.total (part ++ rest) = Sum.total part + Sum.total rest := by
    rw [Sum.total, List.map_append, List.sum_append]
    rfl
  have hpart := Sum.zero_le_total hunsigned part
  have hrest := Sum.zero_le_total hunsigned rest
  have hlo := k.lo_le_zero
  unfold IntType.Represents at hfits ⊢
  omega

/-- So it is enough that there is a number for the sum itself. -/
theorem Sum.decidedBy_combineAll (hunsigned : k.signed = false) (xs : List (Sum (Fixed k))) :
    DecidedBy (k.Represents (Sum.total xs)) (fun r => r.value.val = Sum.total xs)
      Overflow.add.panic (Monoid.combineAll (ready xs)) := by
  have h := combinesExactly_sum k
  refine (h.decidedBy_foldFrom [] h.total_nil.symm).congr_left ⟨fun hparts => ?_, ?_⟩
  · exact hparts xs (List.prefix_refl xs)
  · intro hfits part hpart
    exact Sum.represents_total_of_prefix hunsigned hpart hfits

/-- How lists of numbers of a format are combined. -/
structure ListsChecked (k : IntType) : Prop where
  sums : ChecksPrefixes (Sum (Fixed k)) Sum.value Sum.total "attempt to add with overflow"
  products : ChecksPrefixes (Product (Fixed k)) Product.value Product.total
    "attempt to multiply with overflow"
  /-- For a sum of unsigned integers it is enough that there is a number for the sum itself. -/
  unsigned_iff (hunsigned : k.signed = false) {xs : List (Sum (Fixed k))} :
    (∃ r, Monoid.combineAll (ready xs) = .ok r) ↔ k.Represents (Sum.total xs)
  /-- So every order of the items has the same outcome, be it a value or a panic. -/
  unsigned_perm (hunsigned : k.signed = false) {xs ys : List (Sum (Fixed k))} (h : xs.Perm ys) :
    Monoid.combineAll (ready xs) = Monoid.combineAll (ready ys)

/-- Lists of sums and of products give their exact totals, or panic at the first prefix that does
not fit. -/
theorem lists_checked (k : IntType) : ListsChecked k where
  sums := (combinesExactly_sum k).checksPrefixes
  products := (combinesExactly_product k).checksPrefixes
  unsigned_iff := by
    intro hunsigned xs
    exact (Sum.decidedBy_combineAll hunsigned xs).exists_ok_iff
  unsigned_perm := by
    intro hunsigned xs ys hperm
    have htotal : Sum.total xs = Sum.total ys := (combinesExactly_sum k).total_perm hperm
    have hxs := Sum.decidedBy_combineAll hunsigned xs
    rw [htotal] at hxs
    exact hxs.unique (Sum.decidedBy_combineAll hunsigned ys)

/-- The sum of these is the greatest number, but there is none for the sum of the first two. -/
example :
    let xs : List (Sum (Fixed .i8)) := [⟨⟨127, by decide, by decide⟩⟩, ⟨⟨1, by decide, by decide⟩⟩,
      ⟨⟨-1, by decide, by decide⟩⟩]
    Sum.total xs = 127 ∧ Monoid.combineAll (ready xs) = .error Overflow.add.panic :=
  ⟨rfl, rfl⟩

end Deferred
