import Deferred.Proofs.Program.Confinement
import Deferred.Proofs.Repetition

/-!
# Calling a handle again and again

`Calls` is a row of calls through a handle that all yield values, together with what each of them
adds to the trace. Loops whose body is the handle's effect, and chains of it, do what the calls do:
they add what the calls add, and end where the calls end (`Repeats`). A loop tells of its start
before, which the calls do not notice, since confined effects take no notice of the trace.
-/

namespace Deferred

open Deferred.Computation
open Deferred.Action (reference)

variable {p : Permit} {defined : Array (Effect Context Value)} {handle : Handle} {depth : Nat}
  {vs : List Value} {traces : List (Array Entry)} {c d : Context} {α : Type}

/-- The traces one after the other. -/
def Entry.concat (traces : List (Array Entry)) : Array Entry := traces.foldr (· ++ ·) #[]

/-! ## Calls -/

/-- Calls through the handle, each from where the one before ended: the values that they yield and
what each adds to the trace. -/
inductive Calls (handle : Handle) :
    List Value → List (Array Entry) → Context → Context → Prop where
  | none (c : Context) : Calls handle [] [] c c
  | more {v : Value} {vs : List Value} {added : Array Entry} {traces : List (Array Entry)}
      {c d e : Context} (first : (reference handle).invoke.Halts c (.ok v, d))
      (hadded : d.world.trace = c.world.trace ++ added) (rest : Calls handle vs traces d e) :
      Calls handle (v :: vs) (added :: traces) c e

namespace Calls

/-- Calls in a row are rounds of the effect that the handle refers to. -/
theorem rounds (h : Calls handle vs traces c d) :
    Rounds (ForeverTurn (reference handle).invoke) vs.length c d := by
  induction h with
  | none c => exact .none c
  | more first _ _ ih => exact .more ⟨_, first⟩ ih

/-- Calls leave the effects as they are. -/
theorem call_eq (h : Calls handle vs traces c d) : d.call = c.call := by
  induction h with
  | none c => rfl
  | more first _ _ ih => exact ih.trans (Action.call_of_halts_reference first)

/-- All in all the calls add the concatenation of what each of them adds. -/
theorem trace_eq (h : Calls handle vs traces c d) :
    d.world.trace = c.world.trace ++ Entry.concat traces := by
  induction h with
  | none c => exact Array.append_empty.symm
  | more _ hadded _ ih => rw [ih, hadded, Array.append_assoc]; rfl

/-- The same calls take place whatever the trace is. -/
theorem withTrace (h : Calls handle vs traces c d) (hp : p.Confines defined)
    (hc : c.call = Session.call defined depth) (trace : Array Entry) :
    Calls handle vs traces (c.withTrace trace) (d.withTrace (trace ++ Entry.concat traces)) := by
  induction h generalizing trace with
  | none c =>
    have hempty : trace ++ Entry.concat [] = trace := Array.append_empty
    rw [hempty]
    exact .none _
  | @more v vs added traces c d e first hadded rest ih =>
    have hd : d.call = Session.call defined depth :=
      (Action.call_of_halts_reference first).trans hc
    obtain ⟨added', hadded', hother⟩ := hp.adds hc first
    obtain rfl : added' = added := (Array.append_right_inj _).1 (hadded'.symm.trans hadded)
    have hrest := ih hd (trace ++ added')
    rw [Array.append_assoc] at hrest
    exact .more (hother trace) rfl hrest

/-- The calls of a row that all yield values. -/
theorem of_halts_invocations (hp : p.Confines defined) (hc : c.call = Session.call defined depth)
    (hrow : ((reference handle).invocations vs.length).Halts c (.ok (vs.map Except.ok), d)) :
    ∃ traces, Calls handle vs traces c d := by
  induction vs generalizing c with
  | nil =>
    cases halts_pure_iff.1 hrow
    exact ⟨[], .none _⟩
  | cons v vs ih =>
    obtain ⟨o, os, e, hos, first, hrest⟩ := Effect.halts_invocations_succ_iff.1 hrow
    obtain ⟨rfl, rfl⟩ := List.cons.inj hos
    obtain ⟨added, hadded, -⟩ := hp.adds hc first
    obtain ⟨traces, rest⟩ := ih ((Action.call_of_halts_reference first).trans hc) hrest
    exact ⟨added :: traces, .more first hadded rest⟩

/-- Calls in a row are so many invocations, which yield the values of the calls. -/
theorem halts_invocations (h : Calls handle vs traces c d) :
    ((reference handle).invocations vs.length).Halts c (.ok (vs.map Except.ok), d) := by
  induction h with
  | none c => exact halts_pure_iff.2 rfl
  | more first _ _ ih => exact Effect.halts_invocations_succ_iff.2 ⟨_, _, _, rfl, first, ih⟩

end Calls

/-! ## What repeats the calls -/

/-- From the context `c`, the effect `f` does what `n` calls through the handle do, after adding
`started` to the trace. -/
structure Repeats (handle : Handle) (n : Nat) (started : Array Entry) (f : Effect Context α)
    (c : Context) : Prop where
  /-- If all calls yield values, `f` yields one. It adds all that the calls add and ends where they
  end. -/
  returned {vs : List Value} {traces : List (Array Entry)} {d : Context}
    (h : Calls handle vs traces c d) (hn : vs.length = n) :
    ∃ a, f.invoke.Halts c (.ok a, d.withTrace (c.world.trace ++ started ++ Entry.concat traces))
  /-- If a call panics, so does `f`, and ends where that call ended. -/
  panicked {vs : List Value} {traces : List (Array Entry)} {d d' : Context} {q : Panic}
    {added : Array Entry} (h : Calls handle vs traces c d) (hn : vs.length < n)
    (hq : (reference handle).invoke.Halts d (.error q, d'))
    (hadded : d'.world.trace = d.world.trace ++ added) :
    f.invoke.Halts c
      (.error q, d'.withTrace (c.world.trace ++ started ++ Entry.concat traces ++ added))

/-- It is enough that `f` goes on as a row of invocations once `started` has been added. -/
theorem repeats_of_resumes (hp : p.Confines defined) (hc : c.call = Session.call defined depth)
    {n : Nat} {started : Array Entry} {f : Effect Context α}
    (hf : (f.invoke >>= fun _ => pure ()).Resumes c ((reference handle).times n).invoke
      (c.withTrace (c.world.trace ++ started))) : Repeats handle n started f c where
  returned {vs traces d} h hn := by
    have hrow := Effect.halts_times_of_rounds (h.withTrace hp hc (c.world.trace ++ started)).rounds
    rw [hn] at hrow
    rcases halts_bind_iff.1 ((hf _).2 hrow) with ⟨q, u, -, hend⟩ | ⟨a, u, ha, hend⟩
    · exact nomatch hend
    · cases halts_pure_iff.1 hend
      exact ⟨a, ha⟩
  panicked {vs traces d d' q added} h hn hq hadded := by
    have hcalls := (h.withTrace hp hc (c.world.trace ++ started)).rounds
    obtain ⟨added', hadded', hother⟩ := hp.adds (h.call_eq.trans hc) hq
    obtain rfl : added' = added := (Array.append_right_inj _).1 (hadded'.symm.trans hadded)
    have hpanic := hother (c.world.trace ++ started ++ Entry.concat traces)
    have hrow := Effect.halts_times_of_panic hcalls hn hpanic
    rcases halts_bind_iff.1 ((hf _).2 hrow) with ⟨q, u, hq, hend⟩ | ⟨a, u, -, hend⟩
    · cases hend
      exact hq
    · exact nomatch halts_pure_iff.1 hend

/-- A loop that tells of its start and goes on as a row. -/
theorem repeats_of_invoke_eq (hp : p.Confines defined) (hc : c.call = Session.call defined depth)
    {n : Nat} {event : Event} {loop : Effect Context Unit}
    (h : loop.invoke = emit event >>= fun _ => ((reference handle).times n).invoke) :
    Repeats handle n (c.world.heard event) loop c := by
  refine repeats_of_resumes hp hc ?_
  have hloop : (loop.invoke >>= fun _ => pure ()) = loop.invoke := bind_pure_eq loop.invoke
  rw [hloop, h, ← c.emit_eq_withTrace event]
  exact resumes_emit _ c

/-- A loop over a range that makes the same effect every time calls it as often as there are
numbers. -/
theorem repeats_forRange (hp : p.Confines defined) (hc : c.call = Session.call defined depth)
    {n : Fixed .i32} (hn : 0 ≤ n.val) :
    Repeats handle n.val.toNat (c.world.heard (.loopStarted false (.forRange 0 n.val)))
      (Effect.forRange .zero n fun _ => return reference handle) c := by
  refine repeats_of_invoke_eq hp hc (congrArg (emit _ >>= fun _ => ·) ?_)
  have hcount : (Fixed.zero : Fixed .i32).val + n.val.toNat = n.val := by
    show 0 + (n.val.toNat : Int) = n.val
    omega
  exact Effect.forRange_const_eq_times (reference handle) hcount

/-- A loop over items that makes the same effect every time calls it as often as there are items. -/
theorem repeats_forItems (hp : p.Confines defined) (hc : c.call = Session.call defined depth)
    (items : List α) :
    Repeats handle items.length (c.world.heard (.loopStarted false (.forEach items.length)))
      (Effect.forItems items fun _ => return reference handle) c := by
  refine repeats_of_invoke_eq hp hc (congrArg (emit _ >>= fun _ => ·) ?_)
  exact Effect.forEach_const_eq_times (reference handle) items

/-- A chain that repeats the effect calls it as often as it is long. -/
theorem repeats_chain (hp : p.Confines defined) (hc : c.call = Session.call defined depth) {n : Nat}
    {f : Effect Context Value} (hf : Effect.Chain (reference handle) n f) :
    Repeats handle n #[] f c := by
  refine repeats_of_resumes hp hc ?_
  rw [hf.invoke_bind_eq_times, Array.append_empty]
  exact .refl _ c

end Deferred
