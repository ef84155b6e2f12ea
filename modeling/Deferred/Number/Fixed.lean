/-!
# Integers of a fixed width

An `IntType` is a signed or unsigned two's-complement format of some width, and a value of
`Fixed k` is an integer together with the proof that format `k` represents it. Nothing wraps
around: an operation whose exact result is not representable has to say so.
-/

namespace Deferred

/-- A two's-complement integer format of at least two bits. -/
structure IntType where
  signed : Bool
  bits : Nat
  two_le_bits : 2 ≤ bits := by decide
deriving DecidableEq

namespace IntType

def i8 : IntType where signed := true; bits := 8
def i16 : IntType where signed := true; bits := 16
def i32 : IntType where signed := true; bits := 32
def i64 : IntType where signed := true; bits := 64
def i128 : IntType where signed := true; bits := 128
def u8 : IntType where signed := false; bits := 8
def u16 : IntType where signed := false; bits := 16
def u32 : IntType where signed := false; bits := 32
def u64 : IntType where signed := false; bits := 64
def u128 : IntType where signed := false; bits := 128

/-- The least integer of the format. -/
def lo (k : IntType) : Int := if k.signed then -Int.pow 2 (k.bits - 1) else 0

/-- The greatest integer of the format. -/
def hi (k : IntType) : Int :=
  if k.signed then Int.pow 2 (k.bits - 1) - 1 else Int.pow 2 k.bits - 1

/-- The format's short name: a letter for the sign, then the width. -/
def name (k : IntType) : String := (if k.signed then "i" else "u") ++ toString k.bits

theorem one_lt_two_pow {n : Nat} (h : n ≠ 0) : 1 < Int.pow 2 n := by
  have h : ((1 : Nat) : Int) < ((2 ^ n : Nat) : Int) := Int.ofNat_lt.2 (Nat.one_lt_two_pow h)
  rwa [Int.natCast_pow] at h

/-- Every format represents zero, and one (`one_le_hi`). -/
theorem lo_le_zero (k : IntType) : k.lo ≤ 0 := by
  have hk := k.two_le_bits
  have h := one_lt_two_pow (n := k.bits - 1) (by omega)
  unfold lo
  split <;> omega

theorem one_le_hi (k : IntType) : 1 ≤ k.hi := by
  have hk := k.two_le_bits
  have h := one_lt_two_pow (n := k.bits - 1) (by omega)
  have h' := one_lt_two_pow (n := k.bits) (by omega)
  unfold hi
  split <;> omega

end IntType

/-- An integer that the format `k` represents. -/
structure Fixed (k : IntType) where
  val : Int
  lo_le : k.lo ≤ val
  le_hi : val ≤ k.hi
deriving DecidableEq

namespace Fixed

variable {k : IntType}

/-- Numbers of a format are equal if their values are. -/
theorem ext {a b : Fixed k} (h : a.val = b.val) : a = b := by
  cases a; cases b; simp_all

/-- Counting upwards from `low` does not leave the format before `high`. -/
theorem add_distance_le_hi {low high : Fixed k} (h : low.val < high.val) :
    low.val + (high.val - low.val).toNat ≤ k.hi := by
  have := high.le_hi
  omega

/-- The integer `n`, if the format represents it. -/
def ofInt? (k : IntType) (n : Int) : Option (Fixed k) :=
  if h : k.lo ≤ n ∧ n ≤ k.hi then some ⟨n, h.1, h.2⟩ else none

/-- The number that an integer stands for has it as its value. -/
theorem ofInt?_eq_some_iff {n : Int} {a : Fixed k} : ofInt? k n = some a ↔ a.val = n := by
  unfold ofInt?
  constructor
  · intro h
    split at h
    · cases h; rfl
    · exact nomatch h
  · rintro rfl
    rw [dif_pos ⟨a.lo_le, a.le_hi⟩]

theorem ofInt?_val (a : Fixed k) : ofInt? k a.val = some a :=
  ofInt?_eq_some_iff.2 rfl

/-- An integer is not represented if it is below or above the range. -/
theorem ofInt?_eq_none_iff {n : Int} : ofInt? k n = none ↔ n < k.lo ∨ k.hi < n := by
  unfold ofInt?
  split
  · next h => simp; omega
  · next h => simp; omega

protected def zero : Fixed k where
  val := 0
  lo_le := k.lo_le_zero
  le_hi := by have := k.one_le_hi; omega

protected def one : Fixed k where
  val := 1
  lo_le := by have := k.lo_le_zero; omega
  le_hi := k.one_le_hi

end Fixed

end Deferred
