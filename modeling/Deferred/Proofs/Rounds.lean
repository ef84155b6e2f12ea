import Deferred.Computation.EarlyExit
import Deferred.Proofs.Observation

/-!
# Loops turn by turn

A loop is its first turn followed by the same loop, and it is observed through this equation
alone: whatever the budgets on both sides, they end alike.

`Rounds turn n k l` says that `n` turns lead from the position `k` of a loop to the position `l`.
A position is the state before a turn, together with what the loop has still to do where that
changes: the index, the items left, or the state of an iteration. A loop that has come to a
position goes on from there (`Rounds.resumes` and its instances).
-/

namespace Deferred

variable {σ α β ε κ : Type}

theorem Run.next_congr {x : Run σ α} {f g : α → Run σ β} (h : ∀ a, f a = g a) :
    x.next f = x.next g := by
  rw [show f = g from funext h]

namespace Computation

/-! ## Endings at other budgets -/

/-- Computations end alike if every run of the one is within some run of the other. -/
theorem equiv_of_within {x y : Computation σ α} (h : ∀ n, ∃ m, (x.run n).Within (y.run m))
    (h' : ∀ n, ∃ m, (y.run n).Within (x.run m)) : x ≈ y := by
  intro s r
  constructor
  · rintro ⟨n, hn⟩
    obtain ⟨m, hm⟩ := h n
    exact ⟨m, hm s r hn⟩
  · rintro ⟨n, hn⟩
    obtain ⟨m, hm⟩ := h' n
    exact ⟨m, hm s r hn⟩

/-- A loop and its unfolding end alike if one turn more makes up for the turn unfolded. -/
theorem equiv_of_turn {x y : Computation σ α} (hzero : ∀ s, x.run 0 s = none)
    (hturn : ∀ n, (x.run (n + 1)).Within (y.run (n + 1)))
    (hback : ∀ n, (y.run n).Within (x.run (n + 1))) : x ≈ y := by
  refine equiv_of_within (fun n => ?_) fun n => ⟨n + 1, hback n⟩
  cases n with
  | zero => exact ⟨0, fun s r h => nomatch (hzero s).symm.trans h⟩
  | succ n => exact ⟨n + 1, hturn n⟩

/-! ## One turn of an unbounded loop -/

/-- The loop is a check, and the loop again if that fails. -/
theorem untilTrue_equiv (c : Computation σ Bool) :
    untilTrue c ≈ c >>= fun holds => if holds then pure () else untilTrue c := by
  refine equiv_of_turn (fun _ => rfl) (fun n => ?_) fun n => ?_
  · refine (Run.within_refl _).next fun holds => ?_
    cases holds with
    | true => exact Run.within_refl _
    | false => exact Run.untilTrue_within (Run.within_refl _) n.le_succ
  · refine (c.run_within n.le_succ).next fun holds => ?_
    cases holds with
    | true => exact Run.within_refl _
    | false => exact Run.untilTrue_within (c.run_within n.le_succ) n.le_refl

/-- The loop is a check, and if that succeeds the body and the loop again. -/
theorem whileTrue_equiv (c : Computation σ Bool) (b : Computation σ α) :
    whileTrue c b ≈
      c >>= fun holds => if holds then b >>= fun _ => whileTrue c b else pure () := by
  refine equiv_of_turn (fun _ => rfl) (fun n => ?_) fun n => ?_
  · refine (Run.within_refl _).next fun holds => ?_
    cases holds with
    | true =>
      exact (Run.within_refl _).next fun _ =>
        Run.whileTrue_within (Run.within_refl _) (Run.within_refl _) n.le_succ
    | false => exact Run.within_refl _
  · refine (c.run_within n.le_succ).next fun holds => ?_
    cases holds with
    | true =>
      exact (b.run_within n.le_succ).next fun _ =>
        Run.whileTrue_within (c.run_within n.le_succ) (b.run_within n.le_succ) n.le_refl
    | false => exact Run.within_refl _

/-- The loop is its body, and the loop again. -/
theorem forever_equiv (b : Computation σ α) :
    (forever b : Computation σ β) ≈ b >>= fun _ => forever b := by
  refine equiv_of_turn (fun _ => rfl) (fun n => ?_) fun n => ?_
  · exact (Run.within_refl _).next fun _ => Run.forever_within (Run.within_refl _) n.le_succ
  · exact (b.run_within n.le_succ).next fun _ =>
      Run.forever_within (b.run_within n.le_succ) n.le_refl

/-- What an iteration does with the answer of a step. -/
def proceed (f : α → Computation σ (Turn α β)) : Turn α β → Computation σ β
  | .again a => iterate f a
  | .finish b => pure b

/-- An iteration is a step, and then what its answer asks for. -/
theorem iterate_equiv (f : α → Computation σ (Turn α β)) (a : α) :
    iterate f a ≈ f a >>= proceed f := by
  refine equiv_of_turn (fun _ => rfl) (fun n => ?_) fun n => ?_
  · refine (Run.within_refl _).next fun turn => ?_
    cases turn with
    | again a => exact Run.iterate_within (fun _ => Run.within_refl _) n.le_succ a
    | finish b => exact Run.within_refl _
  · refine ((f a).run_within n.le_succ).next fun turn => ?_
    cases turn with
    | again a => exact Run.iterate_within (fun a => (f a).run_within n.le_succ) n.le_refl a
    | finish b => exact Run.within_refl _

/-! ## One turn of a fallible loop -/

/-- Goes on with a success; an error is the result. -/
def orError (f : α → Computation σ (Except ε β)) : Except ε α → Computation σ (Except ε β)
  | .ok a => f a
  | .error e => pure (.error e)

/-- An error of the check is the result. -/
theorem tryUntil_equiv (c : Computation σ (Except ε Bool)) :
    tryUntil c ≈ c >>= orError fun holds => if holds then pure (.ok ()) else tryUntil c := by
  refine equiv_of_turn (fun _ => rfl) (fun n => ?_) fun n => ?_
  · refine (Run.within_refl _).next fun r => ?_
    match r with
    | .error _ => exact Run.within_refl _
    | .ok true => exact Run.within_refl _
    | .ok false => exact Run.tryUntil_within (Run.within_refl _) n.le_succ
  · refine (c.run_within n.le_succ).next fun r => ?_
    match r with
    | .error _ => exact Run.within_refl _
    | .ok true => exact Run.within_refl _
    | .ok false => exact Run.tryUntil_within (c.run_within n.le_succ) n.le_refl

/-- An error of the check or of the body is the result. -/
theorem tryWhile_equiv (c : Computation σ (Except ε Bool)) (b : Computation σ (Except ε α)) :
    tryWhile c b ≈ c >>= orError fun holds =>
      if holds then b >>= orError fun _ => tryWhile c b else pure (.ok ()) := by
  refine equiv_of_turn (fun _ => rfl) (fun n => ?_) fun n => ?_
  · refine (Run.within_refl _).next fun r => ?_
    match r with
    | .error _ => exact Run.within_refl _
    | .ok false => exact Run.within_refl _
    | .ok true =>
      refine (Run.within_refl _).next fun r => ?_
      cases r with
      | error _ => exact Run.within_refl _
      | ok _ => exact Run.tryWhile_within (Run.within_refl _) (Run.within_refl _) n.le_succ
  · refine (c.run_within n.le_succ).next fun r => ?_
    match r with
    | .error _ => exact Run.within_refl _
    | .ok false => exact Run.within_refl _
    | .ok true =>
      refine (b.run_within n.le_succ).next fun r => ?_
      cases r with
      | error _ => exact Run.within_refl _
      | ok _ =>
        exact Run.tryWhile_within (c.run_within n.le_succ) (b.run_within n.le_succ) n.le_refl

/-! ## One turn of a loop with a length -/

/-- The loop is the action of the first item, and the loop over the others. -/
theorem forEach_cons (a : α) (as : List α) (f : α → Computation σ β) :
    forEach (a :: as) f = f a >>= fun _ => forEach as f := rfl

/-- After an error of the first action the others are not taken. -/
theorem tryForEach_cons (a : α) (as : List α) (f : α → Computation σ (Except ε β)) :
    tryForEach (a :: as) f = f a >>= orError fun _ => tryForEach as f := by
  refine ext fun n s => congrFun (Run.next_congr fun r => ?_) s
  cases r with
  | error _ => rfl
  | ok _ => rfl

/-- Nothing is done for a range without indices. -/
theorem forRange_of_le {low high : Fixed .i32} (h : high.val ≤ low.val)
    (f : Fixed .i32 → Computation σ α) : forRange low high f = pure () :=
  ext fun _ s => congrFun (dif_neg (Int.not_lt.2 h)) s

theorem tryForRange_of_le {low high : Fixed .i32} (h : high.val ≤ low.val)
    (f : Fixed .i32 → Computation σ (Except ε α)) : tryForRange low high f = pure (.ok ()) :=
  ext fun _ s => congrFun (dif_neg (Int.not_lt.2 h)) s

/-- A range that has not been passed is counted through, also when it is empty. -/
theorem run_forRange {low high : Fixed .i32} {count : Nat} (h : low.val + count = high.val)
    (f : Fixed .i32 → Computation σ α) (n : Nat) :
    (forRange low high f).run n = .countUp (fun i => (f i).run n) count low.val low.lo_le
      (h ▸ high.le_hi) := by
  by_cases hlt : low.val < high.val
  · obtain rfl : count = (high.val - low.val).toNat := by omega
    exact dif_pos hlt
  · obtain rfl : count = 0 := by omega
    rw [forRange_of_le (Int.not_lt.1 hlt)]
    rfl

/-- The indices from `low` on are one more than those from the next one on. -/
theorem exists_count {low next high : Fixed .i32} (h : low.val < high.val)
    (hnext : next.val = low.val + 1) :
    ∃ count : Nat, low.val + (count + 1 : Nat) = high.val ∧ next.val + count = high.val :=
  ⟨(high.val - next.val).toNat, by omega, by omega⟩

/-- The indices of a range are its first one and those of the range from the next one on. -/
theorem forRange_of_lt {low next high : Fixed .i32} (h : low.val < high.val)
    (hnext : next.val = low.val + 1) (f : Fixed .i32 → Computation σ α) :
    forRange low high f = f low >>= fun _ => forRange next high f := by
  obtain ⟨count, hall, hrest⟩ := exists_count h hnext
  obtain ⟨_, lo, hi⟩ := next
  subst hnext
  refine ext fun n s => ?_
  rw [run_forRange hall f n]
  refine congrFun (Run.next_congr fun _ => ?_) s
  exact (run_forRange hrest f n).symm

theorem run_tryForRange {low high : Fixed .i32} {count : Nat} (h : low.val + count = high.val)
    (f : Fixed .i32 → Computation σ (Except ε α)) (n : Nat) :
    (tryForRange low high f).run n = .tryCountUp (fun i => (f i).run n) count low.val low.lo_le
      (h ▸ high.le_hi) := by
  by_cases hlt : low.val < high.val
  · obtain rfl : count = (high.val - low.val).toNat := by omega
    exact dif_pos hlt
  · obtain rfl : count = 0 := by omega
    rw [tryForRange_of_le (Int.not_lt.1 hlt)]
    rfl

/-- After an error of the first step the other indices are not taken. -/
theorem tryForRange_of_lt {low next high : Fixed .i32} (h : low.val < high.val)
    (hnext : next.val = low.val + 1) (f : Fixed .i32 → Computation σ (Except ε α)) :
    tryForRange low high f = f low >>= orError fun _ => tryForRange next high f := by
  obtain ⟨count, hall, hrest⟩ := exists_count h hnext
  obtain ⟨_, lo, hi⟩ := next
  subst hnext
  refine ext fun n s => ?_
  rw [run_tryForRange hall f n]
  refine congrFun (Run.next_congr fun r => ?_) s
  cases r with
  | error _ => rfl
  | ok _ => exact (run_tryForRange hrest f n).symm

/-! ## Turns of unbounded loops -/

/-- A check that fails. -/
def UntilTurn (c : Computation σ Bool) (s t : σ) : Prop := c.Halts s (.ok false, t)

/-- A check that succeeds, and the body after it. -/
def WhileTurn (c : Computation σ Bool) (b : Computation σ α) (s t : σ) : Prop :=
  ∃ u a, c.Halts s (.ok true, u) ∧ b.Halts u (.ok a, t)

def ForeverTurn (b : Computation σ α) (s t : σ) : Prop := ∃ a, b.Halts s (.ok a, t)

/-- A step that asks for another one. -/
def IterateTurn (f : α → Computation σ (Turn α β)) (k l : α × σ) : Prop :=
  (f k.1).Halts k.2 (.ok (.again l.1), l.2)

/-- A check that yields `false` and no error. -/
def TryUntilTurn (c : Computation σ (Except ε Bool)) (s t : σ) : Prop :=
  c.Halts s (.ok (.ok false), t)

/-- A check that yields `true`, and a body without an error. -/
def TryWhileTurn (c : Computation σ (Except ε Bool)) (b : Computation σ (Except ε α))
    (s t : σ) : Prop :=
  ∃ u a, c.Halts s (.ok (.ok true), u) ∧ b.Halts u (.ok (.ok a), t)

/-- After a check that fails, the loop goes on as from its beginning. -/
theorem UntilTurn.resumes {c : Computation σ Bool} {s t : σ} (h : UntilTurn c s t) :
    (untilTrue c).Resumes s (untilTrue c) t :=
  (Resumes.of_equiv (untilTrue_equiv c) s).trans (resumes_bind h)

/-- After a check that succeeds, the body comes next. -/
theorem whileTrue_resumes {c : Computation σ Bool} {s t : σ} (h : c.Halts s (.ok true, t))
    (b : Computation σ α) :
    (whileTrue c b).Resumes s (b >>= fun _ => whileTrue c b) t :=
  (Resumes.of_equiv (whileTrue_equiv c b) s).trans (resumes_bind h)

/-- After a check that succeeds and the body, the loop goes on as from its beginning. -/
theorem WhileTurn.resumes {c : Computation σ Bool} {b : Computation σ α} {s t : σ}
    (h : WhileTurn c b s t) : (whileTrue c b).Resumes s (whileTrue c b) t := by
  obtain ⟨u, a, hc, hb⟩ := h
  exact (whileTrue_resumes hc b).trans (resumes_bind hb)

/-- After a body that yields a value, the loop goes on as from its beginning. -/
theorem ForeverTurn.resumes {b : Computation σ α} {s t : σ} (h : ForeverTurn b s t) :
    (forever b : Computation σ β).Resumes s (forever b) t := by
  obtain ⟨a, hb⟩ := h
  exact (Resumes.of_equiv (forever_equiv b) s).trans (resumes_bind hb)

/-- After a step that asks for another turn, the iteration goes on from the state asked for. -/
theorem IterateTurn.resumes {f : α → Computation σ (Turn α β)} {k l : α × σ}
    (h : IterateTurn f k l) : (iterate f k.1).Resumes k.2 (iterate f l.1) l.2 :=
  (Resumes.of_equiv (iterate_equiv f k.1) k.2).trans (resumes_bind h)

theorem TryUntilTurn.resumes {c : Computation σ (Except ε Bool)} {s t : σ}
    (h : TryUntilTurn c s t) : (tryUntil c).Resumes s (tryUntil c) t :=
  (Resumes.of_equiv (tryUntil_equiv c) s).trans (resumes_bind h)

/-- After a check that yields `true`, the body comes next. -/
theorem tryWhile_resumes {c : Computation σ (Except ε Bool)} {s t : σ}
    (h : c.Halts s (.ok (.ok true), t)) (b : Computation σ (Except ε α)) :
    (tryWhile c b).Resumes s (b >>= orError fun _ => tryWhile c b) t :=
  (Resumes.of_equiv (tryWhile_equiv c b) s).trans (resumes_bind h)

/-- After a check and a body without an error, the loop goes on as from its beginning. -/
theorem TryWhileTurn.resumes {c : Computation σ (Except ε Bool)}
    {b : Computation σ (Except ε α)} {s t : σ} (h : TryWhileTurn c b s t) :
    (tryWhile c b).Resumes s (tryWhile c b) t := by
  obtain ⟨u, a, hc, hb⟩ := h
  exact (tryWhile_resumes hc b).trans (resumes_bind hb)

/-! ## Turns of loops with a length -/

/-- The step of an index below `high`. -/
def RangeTurn (high : Fixed .i32) (f : Fixed .i32 → Computation σ α)
    (k l : Fixed .i32 × σ) : Prop :=
  k.1.val < high.val ∧ l.1.val = k.1.val + 1 ∧ ∃ a, (f k.1).Halts k.2 (.ok a, l.2)

/-- The action of the first item left. -/
def ItemTurn (f : α → Computation σ β) (k l : List α × σ) : Prop :=
  ∃ a b, k.1 = a :: l.1 ∧ (f a).Halts k.2 (.ok b, l.2)

/-- The step of an index below `high`, without an error. -/
def TryRangeTurn (high : Fixed .i32) (f : Fixed .i32 → Computation σ (Except ε α))
    (k l : Fixed .i32 × σ) : Prop :=
  k.1.val < high.val ∧ l.1.val = k.1.val + 1 ∧ ∃ a, (f k.1).Halts k.2 (.ok (.ok a), l.2)

/-- The action of the first item left, without an error. -/
def TryItemTurn (f : α → Computation σ (Except ε β)) (k l : List α × σ) : Prop :=
  ∃ a b, k.1 = a :: l.1 ∧ (f a).Halts k.2 (.ok (.ok b), l.2)

/-- After the step of an index, the loop goes on with the next index. -/
theorem RangeTurn.resumes {high : Fixed .i32} {f : Fixed .i32 → Computation σ α}
    {k l : Fixed .i32 × σ} (h : RangeTurn high f k l) :
    (forRange k.1 high f).Resumes k.2 (forRange l.1 high f) l.2 := by
  obtain ⟨hlt, hnext, a, ha⟩ := h
  rw [forRange_of_lt hlt hnext]
  exact resumes_bind ha

/-- After the action of an item, the loop goes on with the items left. -/
theorem ItemTurn.resumes {f : α → Computation σ β} {k l : List α × σ} (h : ItemTurn f k l) :
    (forEach k.1 f).Resumes k.2 (forEach l.1 f) l.2 := by
  obtain ⟨a, b, hitems, ha⟩ := h
  rw [hitems, forEach_cons]
  exact resumes_bind ha

theorem TryRangeTurn.resumes {high : Fixed .i32} {f : Fixed .i32 → Computation σ (Except ε α)}
    {k l : Fixed .i32 × σ} (h : TryRangeTurn high f k l) :
    (tryForRange k.1 high f).Resumes k.2 (tryForRange l.1 high f) l.2 := by
  obtain ⟨hlt, hnext, a, ha⟩ := h
  rw [tryForRange_of_lt hlt hnext]
  exact resumes_bind ha

theorem TryItemTurn.resumes {f : α → Computation σ (Except ε β)} {k l : List α × σ}
    (h : TryItemTurn f k l) : (tryForEach k.1 f).Resumes k.2 (tryForEach l.1 f) l.2 := by
  obtain ⟨a, b, hitems, ha⟩ := h
  rw [hitems, tryForEach_cons]
  exact resumes_bind ha

end Computation

/-! ## Rounds of turns -/

/-- So many turns lead from one position to another. -/
inductive Rounds (turn : κ → κ → Prop) : Nat → κ → κ → Prop where
  | none (k : κ) : Rounds turn 0 k k
  | more {n : Nat} {k l m : κ} : turn k l → Rounds turn n l m → Rounds turn (n + 1) k m

namespace Rounds

open Deferred.Computation

/-- If every turn leads to where the loop goes on, so do all rounds. -/
theorem resumes {turn : κ → κ → Prop} {n : Nat} {k l : κ} (h : Rounds turn n k l)
    (loop : κ → Computation σ α) (state : κ → σ)
    (hturn : ∀ k l, turn k l → (loop k).Resumes (state k) (loop l) (state l)) :
    (loop k).Resumes (state k) (loop l) (state l) := by
  induction h with
  | none k => exact .refl _ _
  | more first _ ih => exact (hturn _ _ first).trans ih

variable {n : Nat}

/-- Without turns the position stays. -/
theorem zero_iff {turn : κ → κ → Prop} {k l : κ} : Rounds turn 0 k l ↔ k = l := by
  constructor
  · intro h
    cases h
    rfl
  · rintro rfl
    exact .none k

/-- The first of several turns, and the others. -/
theorem succ_iff {turn : κ → κ → Prop} {k m : κ} :
    Rounds turn (n + 1) k m ↔ ∃ l, turn k l ∧ Rounds turn n l m := by
  constructor
  · intro h
    cases h with
    | more first rest => exact ⟨_, first, rest⟩
  · rintro ⟨l, first, rest⟩
    exact .more first rest

/-- One turn more at the end. -/
theorem snoc {turn : κ → κ → Prop} {k l m : κ} (h : Rounds turn n k l) (last : turn l m) :
    Rounds turn (n + 1) k m := by
  induction h with
  | none k => exact .more last (.none m)
  | more first _ ih => exact .more first (ih last)

/-- Turns between positions are turns between what stands for the positions. -/
theorem map {ι : Type} {turn : κ → κ → Prop} {turn' : ι → ι → Prop} (f : κ → ι)
    (hmap : ∀ k l, turn k l → turn' (f k) (f l)) {k l : κ} (h : Rounds turn n k l) :
    Rounds turn' n (f k) (f l) := by
  induction h with
  | none k => exact .none _
  | more first _ ih => exact .more (hmap _ _ first) ih

/-- Turns of one kind may be taken for turns of another. -/
theorem imp {turn turn' : κ → κ → Prop} (himp : ∀ k l, turn k l → turn' k l) {k l : κ}
    (h : Rounds turn n k l) : Rounds turn' n k l :=
  h.map id himp

/-- The instances for the single loops: after some rounds the loop goes on as from its beginning,
but in another state. -/
theorem resumes_untilTrue {c : Computation σ Bool} {s t : σ} (h : Rounds (UntilTurn c) n s t) :
    (untilTrue c).Resumes s (untilTrue c) t :=
  h.resumes (fun _ => untilTrue c) id fun _ _ => UntilTurn.resumes

theorem resumes_whileTrue {c : Computation σ Bool} {b : Computation σ α} {s t : σ}
    (h : Rounds (WhileTurn c b) n s t) : (whileTrue c b).Resumes s (whileTrue c b) t :=
  h.resumes (fun _ => whileTrue c b) id fun _ _ => WhileTurn.resumes

theorem resumes_forever {b : Computation σ α} {s t : σ} (h : Rounds (ForeverTurn b) n s t) :
    (forever b : Computation σ β).Resumes s (forever b) t :=
  h.resumes (fun _ => forever b) id fun _ _ => ForeverTurn.resumes

/-- After some rounds the iteration goes on from the state that they have led to. -/
theorem resumes_iterate {f : α → Computation σ (Turn α β)} {k l : α × σ}
    (h : Rounds (IterateTurn f) n k l) : (iterate f k.1).Resumes k.2 (iterate f l.1) l.2 :=
  h.resumes (fun k => iterate f k.1) Prod.snd fun _ _ => IterateTurn.resumes

/-- After some rounds the loop goes on from a later index. -/
theorem resumes_forRange {high : Fixed .i32} {f : Fixed .i32 → Computation σ α}
    {k l : Fixed .i32 × σ} (h : Rounds (RangeTurn high f) n k l) :
    (forRange k.1 high f).Resumes k.2 (forRange l.1 high f) l.2 :=
  h.resumes (fun k => forRange k.1 high f) Prod.snd fun _ _ => RangeTurn.resumes

/-- After some rounds the loop goes on with fewer items. -/
theorem resumes_forEach {f : α → Computation σ β} {k l : List α × σ}
    (h : Rounds (ItemTurn f) n k l) : (forEach k.1 f).Resumes k.2 (forEach l.1 f) l.2 :=
  h.resumes (fun k => forEach k.1 f) Prod.snd fun _ _ => ItemTurn.resumes

theorem resumes_tryUntil {c : Computation σ (Except ε Bool)} {s t : σ}
    (h : Rounds (TryUntilTurn c) n s t) : (tryUntil c).Resumes s (tryUntil c) t :=
  h.resumes (fun _ => tryUntil c) id fun _ _ => TryUntilTurn.resumes

theorem resumes_tryWhile {c : Computation σ (Except ε Bool)} {b : Computation σ (Except ε α)}
    {s t : σ} (h : Rounds (TryWhileTurn c b) n s t) : (tryWhile c b).Resumes s (tryWhile c b) t :=
  h.resumes (fun _ => tryWhile c b) id fun _ _ => TryWhileTurn.resumes

theorem resumes_tryForRange {high : Fixed .i32} {f : Fixed .i32 → Computation σ (Except ε α)}
    {k l : Fixed .i32 × σ} (h : Rounds (TryRangeTurn high f) n k l) :
    (tryForRange k.1 high f).Resumes k.2 (tryForRange l.1 high f) l.2 :=
  h.resumes (fun k => tryForRange k.1 high f) Prod.snd fun _ _ => TryRangeTurn.resumes

theorem resumes_tryForEach {f : α → Computation σ (Except ε β)} {k l : List α × σ}
    (h : Rounds (TryItemTurn f) n k l) :
    (tryForEach k.1 f).Resumes k.2 (tryForEach l.1 f) l.2 :=
  h.resumes (fun k => tryForEach k.1 f) Prod.snd fun _ _ => TryItemTurn.resumes

end Rounds

end Deferred
