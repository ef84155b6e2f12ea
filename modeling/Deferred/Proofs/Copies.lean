import Deferred.Proofs.Totals

/-!
# Copies of a number

Copies of a number are combined one after the other, and every partial result is checked. The
partial sums are multiples of the number, and the partial products are powers of it. A format that
represents one of these represents those before it too (`IntType.Represents.of_mul`,
`IntType.Represents.of_pow`). So copies overflow only if there is no number for what all of them
come to (`copies_checked`), be it negative or the least number of the format.
-/

namespace Deferred

variable {α : Type} {k : IntType}

open Deferred.Semigroup

/-! ## Multiples and powers -/

/-- The least integer of a format is zero, or one more below zero than the greatest is above it. -/
theorem IntType.lo_eq_or (k : IntType) : k.lo = 0 ∨ k.lo = -(k.hi + 1) := by
  unfold lo hi
  split
  · right
    omega
  · exact .inl rfl

/-- A multiple that is representable has representable smaller multiples. -/
theorem IntType.Represents.of_mul {n : Int} {part count : Nat} (h : k.Represents (count * n))
    (hpart : part ≤ count) : k.Represents (part * n) := by
  have hlo := k.lo_le_zero
  have hhi := k.one_le_hi
  unfold Represents at h ⊢
  obtain hn | hn := Int.le_total 0 n
  · have hzero : 0 ≤ part * n := Int.mul_nonneg (Int.natCast_nonneg part) hn
    have hle : part * n ≤ count * n := Int.mul_le_mul_of_nonneg_right (Int.ofNat_le.2 hpart) hn
    omega
  · have hzero : part * n ≤ 0 := Int.mul_nonpos_of_nonneg_of_nonpos (Int.natCast_nonneg part) hn
    have hle : count * n ≤ part * n := Int.mul_le_mul_of_nonpos_right (Int.ofNat_le.2 hpart) hn
    omega

/-- There is a number for what is at most half as far from zero as a number is, unless it is below
zero and the numbers are not. -/
theorem IntType.Represents.of_natAbs_le {m n : Int} (h : k.Represents n)
    (hle : 2 * m.natAbs ≤ n.natAbs) (hsign : k.lo = 0 → 0 ≤ m) : k.Represents m := by
  have hhi := k.one_le_hi
  unfold Represents at h ⊢
  obtain hlo | hlo := k.lo_eq_or
  · have hm := hsign hlo
    omega
  · omega

/-- A power that is representable has representable smaller powers. -/
theorem IntType.Represents.of_pow {n : Int} {part count : Nat} (hn : k.Represents n)
    (h : k.Represents (n ^ (count + 1))) (hpart : part ≤ count) :
    k.Represents (n ^ (part + 1)) := by
  have hlo := k.lo_le_zero
  have hhi := k.one_le_hi
  obtain rfl | hlt := Nat.eq_or_lt_of_le hpart
  · exact h
  obtain rfl | rfl | rfl | hlarge : n = 0 ∨ n = 1 ∨ n = -1 ∨ 2 ≤ n.natAbs := by omega
  · rw [zero_pow (Nat.succ_ne_zero part)]
    exact ⟨hlo, by omega⟩
  · rw [one_pow]
    exact ⟨by omega, hhi⟩
  · -- The powers alternate, and both that occur have numbers.
    obtain hpow | hpow := neg_one_pow_eq_or Int (part + 1)
    · rw [hpow]
      exact ⟨by omega, hhi⟩
    · rw [hpow]
      exact hn
  · have hdouble : 2 * (n ^ (part + 1)).natAbs ≤ (n ^ (count + 1)).natAbs := by
      rw [Int.natAbs_pow, Int.natAbs_pow]
      calc 2 * n.natAbs ^ (part + 1)
          ≤ n.natAbs * n.natAbs ^ (part + 1) := Nat.mul_le_mul_right _ hlarge
        _ = n.natAbs ^ (part + 2) := (pow_succ' _ _).symm
        _ ≤ n.natAbs ^ (count + 1) := Nat.pow_le_pow_right (by omega) (by omega)
    exact h.of_natAbs_le hdouble fun hzero => pow_nonneg (hzero ▸ hn.1) _

/-! ## Copies as a list -/

/-- Combining more copies accumulates a list of equal values. -/
theorem combineMore_eq_foldFrom [Semigroup α] (x acc : α) (count : Nat) :
    combineMore x count acc = foldFrom acc (ready (List.replicate count x)) := by
  induction count generalizing acc with
  | zero => rfl
  | succ count ih =>
    rw [List.replicate_succ, foldFrom_ready_cons]
    exact bind_congr fun y => ih y

/-- How copies of a number are combined, if `repeated n count` is what `count` copies of `n` come to
and an overflow is reported by `text`. -/
structure CombinesCopies (α : Type) [Semigroup α] (value : α → Fixed k)
    (repeated : Int → Nat → Int) (text : String) : Prop where
  returns_iff {x r : α} {count : Nat} :
    combineN x (count + 1) = .ok r ↔ (value r).val = repeated (value x).val (count + 1)
  panics_iff {x : α} {count : Nat} {p : Panic} :
    combineN x (count + 1) = .error p ↔
      ¬k.Represents (repeated (value x).val (count + 1)) ∧ p = .literal text
  /-- If the copies have a result, then fewer of them have one, so nothing overflows before. -/
  fewer {x r : α} {count part : Nat} (h : combineN x (count + 1) = .ok r) (hpart : part ≤ count) :
    ∃ r', combineN x (part + 1) = .ok r' ∧ (value r').val = repeated (value x).val (part + 1)

namespace CombinesExactly

variable [Monoid α] {value : α → Fixed k} {op : Int → Int → Int} {total : List α → Int}
  {o : Overflow}

theorem total_singleton (h : CombinesExactly α value op total o) (x : α) :
    total [x] = (value x).val := by
  calc total [x] = op (total []) (value x).val := h.total_append [] x
    _ = op (value Monoid.empty).val (value x).val := by rw [h.total_nil]
    _ = (value x).val := (h.combine_eq_ok_iff.1 (h.laws.empty_left x)).symm

/-- Copies combine if the format has numbers for all that fewer of them come to. -/
theorem exists_combineN (h : CombinesExactly α value op total o) {x : α} {count : Nat}
    (hfits : ∀ part ≤ count, k.Represents (total (List.replicate (part + 1) x))) :
    ∃ r, combineN x (count + 1) = .ok r ∧
      (value r).val = total (List.replicate (count + 1) x) := by
  rw [combineN, combineMore_eq_foldFrom]
  refine h.exists_foldFrom [x] (h.total_singleton x).symm fun part hpart => ?_
  obtain ⟨hlength, hpart⟩ := List.prefix_replicate_iff.1 hpart
  rw [hpart]
  exact hfits part.length hlength

/-- Copies whose total is not representable overflow. -/
theorem combineN_eq_error (h : CombinesExactly α value op total o) {x : α} {count : Nat}
    (hnot : ¬k.Represents (total (List.replicate (count + 1) x))) :
    combineN x (count + 1) = .error o.panic := by
  rw [combineN, combineMore_eq_foldFrom]
  exact h.foldFrom_eq_error [x] (h.total_singleton x).symm (List.prefix_refl _) hnot

/-- What all copies come to decides alone, if it has a number only when what fewer of them come to
has one. -/
theorem decidedBy_combineN (h : CombinesExactly α value op total o) {x : α} {count : Nat}
    (hfewer : k.Represents (total (List.replicate (count + 1) x)) →
      ∀ part ≤ count, k.Represents (total (List.replicate (part + 1) x))) :
    DecidedBy (k.Represents (total (List.replicate (count + 1) x)))
      (fun r => (value r).val = total (List.replicate (count + 1) x)) o.panic
      (combineN x (count + 1)) := by
  refine decidedBy_of_cases (fun hfits => h.exists_combineN (hfewer hfits)) h.combineN_eq_error ?_
  exact fun hr hr' => h.ext (hr.trans hr'.symm)

/-- Copies are checked through their total alone, since every partial total is representable when
the whole is. -/
theorem combinesCopies (h : CombinesExactly α value op total o) {repeated : Int → Nat → Int}
    (hrepeated : ∀ x count, total (List.replicate count x) = repeated (value x).val count)
    (hfewer : ∀ x {part count : Nat}, part ≤ count →
      k.Represents (repeated (value x).val (count + 1)) →
      k.Represents (repeated (value x).val (part + 1))) :
    CombinesCopies α value repeated o.message := by
  have hdecided : ∀ x count, DecidedBy (k.Represents (repeated (value x).val (count + 1)))
      (fun r => (value r).val = repeated (value x).val (count + 1)) o.panic
      (combineN x (count + 1)) := by
    intro x count
    rw [← hrepeated]
    refine h.decidedBy_combineN fun hfits part hpart => ?_
    rw [hrepeated] at hfits ⊢
    exact hfewer x hpart hfits
  refine ⟨fun {x r count} => ?_, fun {x count p} => (hdecided x count).eq_error_iff, ?_⟩
  · refine (hdecided x count).eq_ok_iff.trans (and_iff_right_of_imp fun hr => ?_)
    exact hr ▸ (value r).represents_val
  · intro x r count part hr hpart
    have hfits := hfewer x hpart ((hdecided x count).eq_ok_iff.1 hr).1
    obtain ⟨r', hr'⟩ := (hdecided x part).exists_ok_iff.2 hfits
    exact ⟨r', hr', ((hdecided x part).eq_ok_iff.1 hr').2⟩

end CombinesExactly

/-! ## Sums and products -/

theorem Sum.total_replicate (x : Sum (Fixed k)) (count : Nat) :
    Sum.total (List.replicate count x) = count * x.value.val := by
  rw [Sum.total, List.map_replicate, List.sum_replicate, nsmul_eq_mul]

theorem Product.total_replicate (x : Product (Fixed k)) (count : Nat) :
    Product.total (List.replicate count x) = x.value.val ^ count := by
  rw [Product.total, List.map_replicate, List.prod_replicate]

/-- How copies of numbers of a format are combined. -/
structure CopiesChecked (k : IntType) : Prop where
  sums : CombinesCopies (Sum (Fixed k)) Sum.value (fun n count => count * n)
    "attempt to add with overflow"
  products : CombinesCopies (Product (Fixed k)) Product.value (fun n count => n ^ count)
    "attempt to multiply with overflow"

/-- Copies of sums and of products return exact totals, or panic with the overflow. -/
theorem copies_checked (k : IntType) : CopiesChecked k where
  sums := (combinesExactly_sum k).combinesCopies Sum.total_replicate fun _ _ _ hpart hfits =>
    hfits.of_mul (Nat.succ_le_succ hpart)
  products := (combinesExactly_product k).combinesCopies Product.total_replicate
    fun x _ _ hpart hfits => x.value.represents_val.of_pow hfits hpart

end Deferred
