import Deferred.Algebra.Numeric
import Deferred.Identity

/-!
# The laws of combining

The provided types of values (`Combinable`) combine lawfully: the neutral value changes nothing, and
both groupings of three values come to the same value wherever neither of them overflows
(`combiningLaws`). Texts, lists, the unit value and their wrappings never overflow
(`FreelyCombinable`); sums and products of integers may.
-/

namespace Deferred

variable {α β : Type}

/-! ## Results step by step -/

/-- A sequence of fallible results is a value exactly if both of its steps are. -/
theorem bind_eq_ok_iff {x : Except Panic α} {f : α → Except Panic β} {b : β} :
    x >>= f = .ok b ↔ ∃ a, x = .ok a ∧ f a = .ok b := by
  constructor
  · intro h
    cases x with
    | ok a => exact ⟨a, rfl, h⟩
    | error p => exact nomatch h
  · rintro ⟨a, rfl, h⟩
    exact h

theorem map_eq_ok_iff {x : Except Panic α} {f : α → β} {b : β} :
    f <$> x = .ok b ↔ ∃ a, x = .ok a ∧ f a = b := by
  constructor
  · intro h
    cases x with
    | ok a =>
      cases h
      exact ⟨a, rfl, rfl⟩
    | error p => exact nomatch h
  · rintro ⟨a, rfl, rfl⟩
    rfl

theorem map_eq_error_iff {x : Except Panic α} {f : α → β} {p : Panic} :
    f <$> x = .error p ↔ x = .error p := by
  constructor
  · intro h
    cases x with
    | ok a => exact nomatch h
    | error q =>
      cases h
      rfl
  · rintro rfl
    rfl

/-! ## Two groupings of three values -/

namespace Semigroup

variable [Semigroup α]

/-- Combines the first two values, and the third one with what they make. -/
def groupLeft (x y z : α) : Except Panic α := do
  let xy ← combine x y
  combine xy z

/-- Combines the last two values, and what they make with the first one. -/
def groupRight (x y z : α) : Except Panic α := do
  let yz ← combine y z
  combine x yz

/-- The left grouping is a value exactly if the first two combine, and the result combines with the
third. -/
theorem groupLeft_eq_ok_iff {x y z r : α} :
    groupLeft x y z = .ok r ↔ ∃ xy, combine x y = .ok xy ∧ combine xy z = .ok r :=
  bind_eq_ok_iff

/-- The right grouping is a value exactly if the last two combine, and the first combines with the
result. -/
theorem groupRight_eq_ok_iff {x y z r : α} :
    groupRight x y z = .ok r ↔ ∃ yz, combine y z = .ok yz ∧ combine x yz = .ok r :=
  bind_eq_ok_iff

end Semigroup

open Deferred.Semigroup

/-! ## The types -/

/-- Types whose values combine in every case. -/
inductive FreelyCombinable : (α : Type) → [Monoid α] → Prop where
  | text : FreelyCombinable String
  | list (α : Type) : FreelyCombinable (List α)
  | unit : FreelyCombinable Unit
  | identity {α : Type} [Monoid α] (h : FreelyCombinable α) : FreelyCombinable (Identity α)

/-- Types whose values combine, unless a number overflows. -/
inductive Combinable : (α : Type) → [Monoid α] → Prop where
  | free {α : Type} [Monoid α] (h : FreelyCombinable α) : Combinable α
  | sum (k : IntType) : Combinable (Sum (Fixed k))
  | product (k : IntType) : Combinable (Product (Fixed k))
  | identity {α : Type} [Monoid α] (h : Combinable α) : Combinable (Identity α)

/-- The laws of a monoid whose values may fail to combine. -/
structure CombiningLaws (α : Type) [Monoid α] : Prop where
  empty_left (x : α) : combine Monoid.empty x = .ok x
  empty_right (x : α) : combine x Monoid.empty = .ok x
  /-- Where both groupings have a value, it is the same. -/
  associative {x y z l r : α} (hl : groupLeft x y z = .ok l) (hr : groupRight x y z = .ok r) :
    l = r

/-! ## Numbers -/

section

variable {k : IntType}

/-- Combining sums returns exactly the true sum. -/
theorem combine_sum_eq_ok_iff {x y r : Sum (Fixed k)} :
    combine x y = .ok r ↔ r.value.val = x.value.val + y.value.val := by
  show Sum.mk <$> Fixed.checked .add (x.value.val + y.value.val) = .ok r ↔ _
  rw [map_eq_ok_iff]
  constructor
  · rintro ⟨a, h, rfl⟩
    exact Fixed.checked_eq_ok_iff.1 h
  · intro h
    exact ⟨r.value, Fixed.checked_eq_ok_iff.2 h, rfl⟩

theorem combine_product_eq_ok_iff {x y r : Product (Fixed k)} :
    combine x y = .ok r ↔ r.value.val = x.value.val * y.value.val := by
  show Product.mk <$> Fixed.checked .mul (x.value.val * y.value.val) = .ok r ↔ _
  rw [map_eq_ok_iff]
  constructor
  · rintro ⟨a, h, rfl⟩
    exact Fixed.checked_eq_ok_iff.1 h
  · intro h
    exact ⟨r.value, Fixed.checked_eq_ok_iff.2 h, rfl⟩

theorem Sum.ext_val {x y : Sum (Fixed k)} (h : x.value.val = y.value.val) : x = y := by
  cases x
  cases y
  exact congrArg Sum.mk (Fixed.ext h)

theorem Product.ext_val {x y : Product (Fixed k)} (h : x.value.val = y.value.val) : x = y := by
  cases x
  cases y
  exact congrArg Product.mk (Fixed.ext h)

/-- Sums have zero as their identity, and groupings that both return agree. -/
theorem combiningLaws_sum (k : IntType) : CombiningLaws (Sum (Fixed k)) where
  empty_left x := combine_sum_eq_ok_iff.2 (Int.zero_add x.value.val).symm
  empty_right x := combine_sum_eq_ok_iff.2 (Int.add_zero x.value.val).symm
  associative := by
    intro x y z l r hl hr
    obtain ⟨xy, hxy, hl⟩ := groupLeft_eq_ok_iff.1 hl
    obtain ⟨yz, hyz, hr⟩ := groupRight_eq_ok_iff.1 hr
    rw [combine_sum_eq_ok_iff] at hxy hl hyz hr
    apply Sum.ext_val
    rw [hl, hxy, hr, hyz, Int.add_assoc]

theorem combiningLaws_product (k : IntType) : CombiningLaws (Product (Fixed k)) where
  empty_left x := combine_product_eq_ok_iff.2 (Int.one_mul x.value.val).symm
  empty_right x := combine_product_eq_ok_iff.2 (Int.mul_one x.value.val).symm
  associative := by
    intro x y z l r hl hr
    obtain ⟨xy, hxy, hl⟩ := groupLeft_eq_ok_iff.1 hl
    obtain ⟨yz, hyz, hr⟩ := groupRight_eq_ok_iff.1 hr
    rw [combine_product_eq_ok_iff] at hxy hl hyz hr
    apply Product.ext_val
    rw [hl, hxy, hr, hyz, Int.mul_assoc]

/-- Sums fail to combine by an overflow of the addition alone. -/
theorem combine_sum_eq_error {x y : Sum (Fixed k)} {p : Panic} (h : combine x y = .error p) :
    p = Overflow.add.panic :=
  (Fixed.checked_eq_error_iff.1 (map_eq_error_iff.1 h)).2

theorem combine_product_eq_error {x y : Product (Fixed k)} {p : Panic}
    (h : combine x y = .error p) : p = Overflow.mul.panic :=
  (Fixed.checked_eq_error_iff.1 (map_eq_error_iff.1 h)).2

end

/-! ## Wrapped values -/

theorem combine_identity_eq_ok_iff [Semigroup α] {x y r : Identity α} :
    combine x y = .ok r ↔ combine x.value y.value = .ok r.value := by
  show Identity.mk <$> combine x.value y.value = .ok r ↔ _
  rw [map_eq_ok_iff]
  constructor
  · rintro ⟨a, h, rfl⟩
    exact h
  · intro h
    exact ⟨r.value, h, rfl⟩

/-- Wrapping values leaves their laws as they are. -/
theorem CombiningLaws.identity [Monoid α] (h : CombiningLaws α) : CombiningLaws (Identity α) where
  empty_left x := combine_identity_eq_ok_iff.2 (h.empty_left x.value)
  empty_right x := combine_identity_eq_ok_iff.2 (h.empty_right x.value)
  associative := by
    intro x y z l r hl hr
    obtain ⟨xy, hxy, hl⟩ := groupLeft_eq_ok_iff.1 hl
    obtain ⟨yz, hyz, hr⟩ := groupRight_eq_ok_iff.1 hr
    rw [combine_identity_eq_ok_iff] at hxy hl hyz hr
    have hvalue : l.value = r.value :=
      h.associative (groupLeft_eq_ok_iff.2 ⟨_, hxy, hl⟩) (groupRight_eq_ok_iff.2 ⟨_, hyz, hr⟩)
    cases l
    cases r
    exact congrArg Identity.mk hvalue

/-! ## All of them -/

/-- Where values combine freely, combining always returns. -/
theorem FreelyCombinable.exists_combine [Monoid α] (h : FreelyCombinable α) (x y : α) :
    ∃ r, combine x y = .ok r := by
  induction h with
  | text | list _ | unit => exact ⟨_, rfl⟩
  | identity _ ih =>
    obtain ⟨r, hr⟩ := ih x.value y.value
    exact ⟨⟨r⟩, combine_identity_eq_ok_iff.2 hr⟩

/-- Values that combine freely obey the laws without exception. -/
theorem FreelyCombinable.combiningLaws [Monoid α] (h : FreelyCombinable α) : CombiningLaws α := by
  induction h with
  | text =>
    refine ⟨fun x => ?_, fun x => ?_, fun hl hr => ?_⟩
    · exact congrArg Except.ok (String.empty_append)
    · exact congrArg Except.ok (String.append_empty)
    · cases hl
      cases hr
      exact String.append_assoc
  | list α =>
    refine ⟨fun x => ?_, fun x => ?_, fun hl hr => ?_⟩
    · exact congrArg Except.ok (List.nil_append x)
    · exact congrArg Except.ok (List.append_nil x)
    · cases hl
      cases hr
      exact List.append_assoc _ _ _
  | unit => exact ⟨fun _ => rfl, fun _ => rfl, fun _ _ => rfl⟩
  | identity _ ih => exact ih.identity

/-- Values of the provided types fail to combine by an overflow alone. -/
theorem Combinable.overflow [Monoid α] (h : Combinable α) {x y : α} {p : Panic}
    (hp : combine x y = .error p) : p = Overflow.add.panic ∨ p = Overflow.mul.panic := by
  induction h with
  | free h =>
    obtain ⟨r, hr⟩ := h.exists_combine x y
    exact nomatch hr.symm.trans hp
  | sum k => exact .inl (combine_sum_eq_error hp)
  | product k => exact .inr (combine_product_eq_error hp)
  | identity _ ih => exact ih (map_eq_error_iff.1 hp)

/-- The provided types combine lawfully. -/
theorem Combinable.combiningLaws [Monoid α] (h : Combinable α) : CombiningLaws α := by
  induction h with
  | free h => exact h.combiningLaws
  | sum k => exact combiningLaws_sum k
  | product k => exact combiningLaws_product k
  | identity _ ih => exact ih.identity

end Deferred
