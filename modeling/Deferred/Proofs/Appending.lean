import Deferred.Effect.Pointwise
import Deferred.Proofs.Combining
import Deferred.Proofs.MonadLaws

/-!
# Appending effects

Effects whose values combine are appended: one is invoked after the other, and their values are
combined. The constant effect of the neutral value changes nothing. Both groupings of three effects
invoke the first, the second and the third one, and differ in when they combine: the left one
combines the first two values before it invokes the third effect. So they are the same as long as no
number overflows, and otherwise an overflow may come earlier in one of them, or in one of them only
(`Effect.Groupings`).
-/

namespace Deferred

variable {σ α : Type}

open Deferred.Computation Deferred.Semigroup

namespace Effect

/-! ## Orders of invocation -/

section

variable [Semigroup α] {a b c left right : Effect σ α}

/-- Grouped to the left, the first two values are combined before the third effect is invoked. -/
theorem invoke_groupLeft (h : groupLeft a b c = .ok left) :
    left.invoke = (do
      let x ← a.invoke
      let y ← b.invoke
      let xy ← (combine x y : Except Panic α)
      let z ← c.invoke
      combine xy z) := by
  cases h
  simp only [map2, bind_assoc]

/-- Grouped to the right, all three effects are invoked before any values are combined. -/
theorem invoke_groupRight (h : groupRight a b c = .ok right) :
    right.invoke = (do
      let x ← a.invoke
      let y ← b.invoke
      let z ← c.invoke
      let yz ← (combine y z : Except Panic α)
      combine x yz) := by
  cases h
  simp only [map2, bind_assoc]

theorem liftM_groupRight (x y z : α) :
    (liftM (groupRight x y z) : Computation σ α) =
      liftM (combine y z) >>= fun yz => liftM (combine x yz) := by
  rw [groupRight]
  cases combine y z with
  | ok yz => rfl
  | error p => rfl

/-- The effects yield values, one after the other, and in the end they have all been invoked. -/
structure Yield (a b c : Effect σ α) (s : σ) (x y z : α) (t u v : σ) : Prop where
  first : a.invoke.Halts s (.ok x, t)
  second : b.invoke.Halts t (.ok y, u)
  third : c.invoke.Halts u (.ok z, v)

/-- The left grouping returns a value exactly if the three effects yield values that combine to
it. -/
theorem halts_groupLeft_iff (h : groupLeft a b c = .ok left) {s v : σ} {r : α} :
    left.invoke.Halts s (.ok r, v) ↔
      ∃ x y z t u, Yield a b c s x y z t u v ∧ groupLeft x y z = .ok r := by
  rw [invoke_groupLeft h]
  simp only [halts_bind_value_iff, halts_lift_iff, Prod.mk.injEq, groupLeft_eq_ok_iff]
  constructor
  · rintro ⟨x, t, ha, y, u, hb, xy, _, ⟨hxy, rfl⟩, z, _, hc, hr, rfl⟩
    exact ⟨x, y, z, t, _, ⟨ha, hb, hc⟩, xy, hxy.symm, hr.symm⟩
  · rintro ⟨x, y, z, t, u, ⟨ha, hb, hc⟩, xy, hxy, hr⟩
    exact ⟨x, t, ha, y, u, hb, xy, u, ⟨hxy.symm, rfl⟩, z, v, hc, hr.symm, rfl⟩

/-- The right grouping likewise, with the last two values combined first. -/
theorem halts_groupRight_iff (h : groupRight a b c = .ok right) {s v : σ} {r : α} :
    right.invoke.Halts s (.ok r, v) ↔
      ∃ x y z t u, Yield a b c s x y z t u v ∧ groupRight x y z = .ok r := by
  rw [invoke_groupRight h]
  simp only [halts_bind_value_iff, halts_lift_iff, Prod.mk.injEq, groupRight_eq_ok_iff]
  constructor
  · rintro ⟨x, t, ha, y, u, hb, z, _, hc, yz, _, ⟨hyz, rfl⟩, hr, rfl⟩
    exact ⟨x, y, z, t, u, ⟨ha, hb, hc⟩, yz, hyz.symm, hr.symm⟩
  · rintro ⟨x, y, z, t, u, ⟨ha, hb, hc⟩, yz, hyz, hr⟩
    exact ⟨x, t, ha, y, u, hb, z, v, hc, yz, v, ⟨hyz.symm, rfl⟩, hr.symm, rfl⟩

end

variable [Monoid α]

/-! ## The neutral effect -/

/-- Mapping the empty value's effect together with another gives back that other one. -/
theorem empty_map2_eq (h : CombiningLaws α) (a : Effect σ α) :
    ((pure Monoid.empty).map2 a fun x y => combine x y) = a := by
  have hcombine : ∀ y, (liftM (combine Monoid.empty y) : Computation σ α) = Pure.pure y := by
    intro y
    rw [h.empty_left y]
    rfl
  refine congrArg Effect.mk ?_
  show (a.invoke >>= fun y => liftM (combine Monoid.empty y)) = a.invoke
  simp only [hcombine]
  exact bind_pure_eq a.invoke

/-- Appending to the empty effect builds, and the result behaves as the effect appended. -/
theorem empty_append_equiv (h : CombiningLaws α) (a : Effect σ α) :
    ∃ e, combine Monoid.empty a = .ok e ∧ e ≈ a :=
  ⟨_, rfl, equiv_of_invoke_eq (congrArg invoke (empty_map2_eq h a))⟩

/-- Appending the empty effect changes nothing either. -/
theorem append_empty_equiv (h : CombiningLaws α) (a : Effect σ α) :
    ∃ e, combine a Monoid.empty = .ok e ∧ e ≈ a := by
  refine ⟨_, rfl, equiv_of_invoke_eq ?_⟩
  have hcombine : ∀ x, (liftM (combine x Monoid.empty) : Computation σ α) = Pure.pure x := by
    intro x
    rw [h.empty_right x]
    rfl
  show (a.invoke >>= fun x => liftM (combine x Monoid.empty)) = a.invoke
  simp only [hcombine]
  exact bind_pure_eq a.invoke

/-! ## Both groupings -/

/-- From `s` nothing overflows that either grouping combines: not the first two values as soon as
they are there, and nothing once all three are. -/
structure WithinBounds (a b c : Effect σ α) (s : σ) : Prop where
  two {x y : α} {t u : σ} (ha : a.invoke.Halts s (.ok x, t)) (hb : b.invoke.Halts t (.ok y, u)) :
    ∃ xy, combine x y = .ok xy
  three {x y z : α} {t u v : σ} (h : Yield a b c s x y z t u v) :
    ∃ l r, groupLeft x y z = .ok l ∧ groupRight x y z = .ok r

/-- How the two groupings of three effects compare. -/
structure Groupings (a b c left right : Effect σ α) : Prop where
  /-- The left grouping invokes each effect once, in order, and combines the first two values before
  the third effect is invoked. -/
  left_order : left.invoke = (do
    let x ← a.invoke
    let y ← b.invoke
    let xy ← (combine x y : Except Panic α)
    let z ← c.invoke
    combine xy z)
  /-- So does the right one, and combines after the third. -/
  right_order : right.invoke = (do
    let x ← a.invoke
    let y ← b.invoke
    let z ← c.invoke
    let yz ← (combine y z : Except Panic α)
    combine x yz)
  /-- Rows of invocations in which nothing overflows are the same. -/
  within_bounds {s : σ} {count : Nat}
    (h : ∀ k < count, ∀ outcomes t, (left.invocations k).Halts s (.ok outcomes, t) →
      WithinBounds a b c t) :
    (left.invocations count).Resumes s (right.invocations count) s
  /-- Nothing overflows where there are no numbers. -/
  free (h : FreelyCombinable α) : left ≈ right
  /-- Where both yield values, these are the same, and so are the states they leave. -/
  same_value {s t t' : σ} {r r' : α} (hl : left.invoke.Halts s (.ok r, t))
    (hr : right.invoke.Halts s (.ok r', t')) : r = r' ∧ t = t'
  /-- When the first two values overflow, the left grouping is over before the third effect is
  invoked, while the right one goes on with it. -/
  overflow {s t u : σ} {x y : α} {p : Panic} (ha : a.invoke.Halts s (.ok x, t))
    (hb : b.invoke.Halts t (.ok y, u)) (hp : combine x y = .error p) :
    (p = Overflow.add.panic ∨ p = Overflow.mul.panic) ∧
      (∀ e, left.invoke.Halts s e ↔ e = (.error p, u)) ∧
      right.invoke.Resumes s (do let z ← c.invoke; groupRight x y z) u

section

variable {a b c left right : Effect σ α}

/-- From a state from which nothing overflows both groupings come to the same. -/
theorem WithinBounds.resumes (h : CombiningLaws α) (hleft : groupLeft a b c = .ok left)
    (hright : groupRight a b c = .ok right) {s : σ} (hs : WithinBounds a b c s) :
    left.invoke.Resumes s right.invoke s := by
  rw [invoke_groupLeft hleft, invoke_groupRight hright]
  refine Resumes.bind_of_halts fun x t ha => Resumes.bind_of_halts fun y u hb => ?_
  obtain ⟨xy, hxy⟩ := hs.two ha hb
  rw [hxy]
  show (c.invoke >>= fun z => liftM (combine xy z)).Resumes u (c.invoke >>= fun z =>
    liftM (combine y z) >>= fun yz => liftM (combine x yz)) u
  refine Resumes.bind_of_halts fun z v hc => ?_
  obtain ⟨l, r, hl, hr⟩ := hs.three ⟨ha, hb, hc⟩
  have hlr : l = r := h.associative hl hr
  obtain ⟨xy', hxy', hl⟩ := groupLeft_eq_ok_iff.1 hl
  obtain ⟨yz, hyz, hr⟩ := groupRight_eq_ok_iff.1 hr
  cases hxy.symm.trans hxy'
  rw [hyz, hl, hlr, ← hr]
  exact .refl _ _

/-- Where values combine freely, no grouping ever leaves its bounds. -/
theorem FreelyCombinable.withinBounds (h : FreelyCombinable α) (a b c : Effect σ α) (s : σ) :
    WithinBounds a b c s where
  two _ _ := h.exists_combine _ _
  three := by
    intro x y z t u v _
    obtain ⟨xy, hxy⟩ := h.exists_combine x y
    obtain ⟨l, hl⟩ := h.exists_combine xy z
    obtain ⟨yz, hyz⟩ := h.exists_combine y z
    obtain ⟨r, hr⟩ := h.exists_combine x yz
    exact ⟨l, r, groupLeft_eq_ok_iff.2 ⟨xy, hxy, hl⟩, groupRight_eq_ok_iff.2 ⟨yz, hyz, hr⟩⟩

/-- The two groupings invoke the same effects in the same order, and differ only where combining
fails. -/
theorem groupings (h : Combinable α) (hleft : groupLeft a b c = .ok left)
    (hright : groupRight a b c = .ok right) : Groupings a b c left right where
  left_order := invoke_groupLeft hleft
  right_order := invoke_groupRight hright
  within_bounds hbounds := resumes_invocations fun k hk outcomes t hrow =>
    (hbounds k hk outcomes t hrow).resumes h.combiningLaws hleft hright
  free hfree := equiv_iff.2 fun s =>
    (FreelyCombinable.withinBounds hfree a b c s).resumes h.combiningLaws hleft hright
  same_value := by
    intro s t t' r r' hl hr
    obtain ⟨x, y, z, u, v, ⟨ha, hb, hc⟩, hvalue⟩ := (halts_groupLeft_iff hleft).1 hl
    obtain ⟨_, _, _, _, _, ⟨ha', hb', hc'⟩, hvalue'⟩ := (halts_groupRight_iff hright).1 hr
    cases halts_unique ha ha'
    cases halts_unique hb hb'
    cases halts_unique hc hc'
    exact ⟨h.combiningLaws.associative hvalue hvalue', rfl⟩
  overflow := by
    intro s t u x y p ha hb hp
    refine ⟨h.overflow hp, fun e => ?_, ?_⟩
    · rw [invoke_groupLeft hleft, halts_bind_ok_iff ha, halts_bind_ok_iff hb]
      exact halts_bind_error_iff (halts_lift_iff.2 (by rw [hp]))
    · rw [invoke_groupRight hright]
      refine (resumes_bind ha).trans ((resumes_bind hb).trans ?_)
      simp only [liftM_groupRight]
      exact .refl _ _

end

/-! ## The laws together -/

end Effect

/-- The laws of appending effects. -/
structure AppendingLaws (σ α : Type) [Monoid α] : Prop where
  empty_left (a : Effect σ α) : ∃ e, combine Monoid.empty a = .ok e ∧ e ≈ a
  empty_right (a : Effect σ α) : ∃ e, combine a Monoid.empty = .ok e ∧ e ≈ a
  associative (a b c : Effect σ α) :
    ∃ left right, groupLeft a b c = .ok left ∧ groupRight a b c = .ok right ∧
      Effect.Groupings a b c left right

/-- Effects that yield values of the provided types obey the laws of appending. -/
theorem appendingLaws [Monoid α] (h : Combinable α) : AppendingLaws σ α where
  empty_left := Effect.empty_append_equiv h.combiningLaws
  empty_right := Effect.append_empty_equiv h.combiningLaws
  associative _ _ _ := ⟨_, _, rfl, rfl, Effect.groupings h rfl rfl⟩

/-- Counts its invocations, and yields the number. -/
def counting (n : Fixed .i8) : Effect Nat (Sum (Fixed .i8)) :=
  ⟨update fun count => (⟨n⟩, count + 1)⟩

/-- To the greatest number one cannot be added, but nothing can, and that is what one and minus one
make. So one grouping overflows after two invocations, and the other one has a value after three. -/
theorem appendingLaws_counting :
    Combinable (Sum (Fixed .i8)) ∧ ∃ left right,
      groupLeft (counting ⟨127, by decide, by decide⟩) (counting ⟨1, by decide, by decide⟩)
        (counting ⟨-1, by decide, by decide⟩) = .ok left ∧
      groupRight (counting ⟨127, by decide, by decide⟩) (counting ⟨1, by decide, by decide⟩)
        (counting ⟨-1, by decide, by decide⟩) = .ok right ∧
      (∀ e, left.invoke.Halts 0 e ↔ e = (.error Overflow.add.panic, 2)) ∧
      ∀ e, right.invoke.Halts 0 e ↔ e = (.ok ⟨⟨127, by decide, by decide⟩⟩, 3) := by
  have hsum : Combinable (Sum (Fixed .i8)) := .sum .i8
  obtain ⟨left, right, hleft, hright, hgroupings⟩ := (appendingLaws hsum).associative
    (counting ⟨127, by decide, by decide⟩) (counting ⟨1, by decide, by decide⟩)
    (counting ⟨-1, by decide, by decide⟩)
  obtain ⟨-, hpanics, hgoesOn⟩ := hgroupings.overflow (s := 0) ⟨0, rfl⟩ ⟨0, rfl⟩
    (p := Overflow.add.panic) rfl
  refine ⟨hsum, left, right, hleft, hright, hpanics, fun e => (hgoesOn e).trans ?_⟩
  exact (halts_bind_ok_iff ⟨0, rfl⟩).trans halts_lift_iff

end Deferred
