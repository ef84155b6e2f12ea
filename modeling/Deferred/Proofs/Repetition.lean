import Deferred.Proofs.LoopsIterate

/-!
# Repeating one effect

`e.times n` invokes `e` so many times in a row, each time on the state that the invocation before
left; nothing of an invocation is kept for the next one. The first panic ends the row. Loops whose
body is always the same effect, and effects sequenced with themselves, amount to such rows.
-/

namespace Deferred

open Deferred.Computation

variable {σ α β : Type}

namespace Effect

/-! ## Rows -/

/-- Invokes `e` so many times, unless it panics. -/
def times (e : Effect σ α) : Nat → Effect σ Unit
  | 0 => unit
  | n + 1 => e.andThen (e.times n)

theorem invoke_times_zero (e : Effect σ α) : (e.times 0).invoke = Pure.pure () := rfl

theorem invoke_times_succ (e : Effect σ α) (n : Nat) :
    (e.times (n + 1)).invoke = e.invoke >>= fun _ => (e.times n).invoke := rfl

/-- A row of invocations splits anywhere. -/
theorem invoke_times_add (e : Effect σ α) (m n : Nat) :
    (e.times (m + n)).invoke = (e.times m).invoke >>= fun _ => (e.times n).invoke := by
  induction m with
  | zero => rw [Nat.zero_add, invoke_times_zero, pure_bind]
  | succ m ih => rw [Nat.succ_add, invoke_times_succ, invoke_times_succ, ih, bind_assoc]

/-! ## Endings of rows -/

/-- An invocation that yields a value is one less to go. -/
theorem resumes_times_succ {e : Effect σ α} {s t : σ} (h : ForeverTurn e.invoke s t) (n : Nat) :
    (e.times (n + 1)).invoke.Resumes s (e.times n).invoke t := by
  obtain ⟨a, ha⟩ := h
  exact resumes_bind ha

/-- After some rounds, the remaining ones are still to come. -/
theorem resumes_times_add {e : Effect σ α} {k : Nat} {s t : σ}
    (h : Rounds (ForeverTurn e.invoke) k s t) (n : Nat) :
    (e.times (k + n)).invoke.Resumes s (e.times n).invoke t := by
  induction h with
  | none s =>
    rw [Nat.zero_add]
    exact .refl _ _
  | @more k s t u first _ ih =>
    have hstep := resumes_times_succ first (k + n)
    rw [Nat.succ_add]
    exact hstep.trans ih

/-- If all invocations yield values, the row ends where the last one ended. -/
theorem halts_times_of_rounds {e : Effect σ α} {n : Nat} {s t : σ}
    (h : Rounds (ForeverTurn e.invoke) n s t) : (e.times n).invoke.Halts s (.ok (), t) :=
  (resumes_times_add h 0 _).2 (halts_pure_iff.2 rfl)

/-- The first panic among the invocations is that of the row. -/
theorem halts_times_of_panic {e : Effect σ α} {k n : Nat} {s t u : σ} {p : Panic}
    (h : Rounds (ForeverTurn e.invoke) k s t) (hk : k < n) (hp : e.invoke.Halts t (.error p, u)) :
    (e.times n).invoke.Halts s (.error p, u) := by
  obtain ⟨rest, rfl⟩ := Nat.exists_eq_add_of_lt hk
  have hrest : (e.times (rest + 1)).invoke.Halts t (.error p, u) :=
    (halts_bind_error_iff hp).2 rfl
  exact (resumes_times_add h (rest + 1) _).2 hrest

/-! ## Loops with one body -/

/-- Over a range whose bodies are all the same effect, the indices matter by their number alone. -/
theorem forRange_const_eq_times (e : Effect σ α) {low high : Fixed .i32} {count : Nat}
    (h : low.val + count = high.val) :
    (Computation.forRange low high fun _ => enter (return e)) = (e.times count).invoke := by
  induction count generalizing low with
  | zero =>
    rw [forRange_of_le (by omega)]
    rfl
  | succ count ih =>
    have hlt : low.val < high.val := by omega
    obtain ⟨next, hnext⟩ := exists_next hlt
    rw [forRange_of_lt hlt hnext, ih (by omega), invoke_times_succ]
    rfl

/-- A loop that makes the same effect for all items repeats it as often as there are items. -/
theorem forEach_const_eq_times (e : Effect σ β) (items : List α) :
    (Computation.forEach items fun _ => enter (return e)) = (e.times items.length).invoke := by
  induction items with
  | nil => rfl
  | cons item items ih =>
    rw [forEach_cons, ih, List.length_cons, invoke_times_succ]
    rfl

/-! ## Chains -/

/-- The effect is `e` sequenced with itself so many times in all, however the sequence is
bracketed. -/
inductive Chain (e : Effect σ α) : Nat → Effect σ α → Prop where
  | once : Chain e 1 e
  | andThen {m n : Nat} {c d : Effect σ α} (hc : Chain e m c) (hd : Chain e n d) :
      Chain e (m + n) (c.andThen d)

/-- The chain that adds one invocation after the other. -/
theorem chain_repeat (e : Effect σ α) (n : Nat) :
    Chain e (n + 1) (Nat.repeat (fun c => c.andThen e) n e) := by
  induction n with
  | zero => exact .once
  | succ n ih => exact .andThen ih .once

/-- But for its value, a chain is a row of invocations. -/
theorem Chain.invoke_bind_eq_times {e c : Effect σ α} {n : Nat} (h : Chain e n c) :
    (c.invoke >>= fun _ => Pure.pure ()) = (e.times n).invoke := by
  induction h with
  | once => rfl
  | @andThen m n c d _ _ ihc ihd =>
    rw [invoke_andThen, bind_assoc, ihd, invoke_times_add, ← ihc, bind_assoc]
    simp only [pure_bind]

end Effect

end Deferred
