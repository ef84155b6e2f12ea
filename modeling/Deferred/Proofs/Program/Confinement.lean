import Deferred.Proofs.Announcement
import Deferred.Proofs.Program.SessionParametricity

/-!
# What the effects of a session can see

The effects that a session has defined are confined by a permit if their invocations go the same
way from worlds that differ only in what the permit keeps from them (`Permit.Confines`). Programs
are confined by what they mention, so every session is (`Session.confines_of_halts_transcript`).

A confined effect has no access to the trace but adding to it. What it adds does not depend on what
is there already (`Permit.Confines.adds`).
-/

namespace Deferred

open Deferred.Computation

variable {α β : Type} {p : Permit}

/-! ## Confined effects -/

/-- Invocations of the effects go the same way wherever all that the permit allows does. -/
def Permit.Confines (p : Permit) (defined : Array (Effect Context Value)) : Prop :=
  ∀ W, p.KeepsEvents W → ∀ e ∈ defined, e.invoke.Respects (Context.Related W W)

namespace Permit

/-- A permit confines a session that has defined nothing. -/
theorem confines_empty (p : Permit) : p.Confines #[] :=
  fun _ _ _ he => absurd he (Array.not_mem_empty _)

/-- A permit confines one effect more if that keeps what the permit keeps. -/
theorem Confines.push {defined : Array (Effect Context Value)} (h : p.Confines defined)
    {d : Effect Context Value}
    (hd : ∀ W, p.KeepsEvents W → d.invoke.Respects (Context.Related W W)) :
    p.Confines (defined.push d) := by
  intro W hW e he
  rcases Array.mem_push.1 he with hold | rfl
  · exact h W hW e hold
  · exact hd W hW

/-- Related worlds with the same effects are related contexts. -/
theorem Confines.related {defined : Array (Effect Context Value)} (h : p.Confines defined)
    {V W : World → World → Prop} (hW : p.KeepsEvents W) {w v : World} (hwv : V w v) (depth : Nat) :
    Context.Related V W ⟨w, Session.call defined depth⟩ ⟨v, Session.call defined depth⟩ :=
  ⟨hwv, rfl, Session.respects_call (h W hW) depth⟩

/-- Worlds that are the same can be told apart by nobody. -/
theorem keeps_eq (p : Permit) : p.Keeps Eq where
  cells h := by rw [h]
  positions h := by rw [h]
  names h _ _ := by rw [h]
  record h _ := by rw [h]
  setCells h _ := by rw [h]
  setPositions h _ := by rw [h]

end Permit

/-- A value that is yielded has the property. -/
theorem Computation.Assures.of_halts {σ : Type} {S : σ → σ → Prop} {P : α → Prop}
    {x : Computation σ α} (h : Assures S P x) {s t : σ} {a : α} (hs : S s s)
    (hx : x.Halts s (.ok a, t)) : P a := by
  have ⟨o, u, _, hmatch, _⟩ := (h s s hs).1 _ _ hx
  cases hmatch with
  | ok hP => exact hP.2

namespace Session

/-! ## Sessions -/

/-- The context in which a session invokes its effects. -/
def context (depth : Nat) (s : Session) : Context := ⟨s.world, call s.defined depth⟩

/-- Performing an action in a session runs it in the context of the session's world. -/
theorem halts_perform_iff {depth : Nat} {x : Action α} {s t : Session} {o : Except Panic α} :
    (perform depth x).Halts s (o, t) ↔
      ∃ c, x.Halts (s.context depth) (o, c) ∧ t = { s with world := c.world } := by
  rw [perform, halts_onState_iff]
  constructor
  · intro h
    obtain ⟨o', c, hx, hend⟩ := h
    cases hend
    exact ⟨c, hx, rfl⟩
  · intro h
    obtain ⟨c, hx, rfl⟩ := h
    exact ⟨o, c, hx, rfl⟩

theorem defined_eq_of_halts_perform {depth : Nat} {x : Action α} {s t : Session}
    {o : Except Panic α} (h : (perform depth x).Halts s (o, t)) : t.defined = s.defined := by
  obtain ⟨c, -, rfl⟩ := halts_perform_iff.1 h
  rfl

/-- The effects stay confined. -/
def StaysConfined (p : Permit) (s t : Session) : Prop := p.Confines s.defined → p.Confines t.defined

theorem staysConfined_of_eq {s t : Session} (h : t.defined = s.defined) : StaysConfined p s t :=
  fun hs => h ▸ hs

/-- What each step keeps confined, many steps do. -/
theorem staysConfined_of_steps {s t : Session}
    (h : Relation.ReflTransGen (StaysConfined p) s t) : StaysConfined p s t := by
  induction h with
  | refl => exact id
  | tail _ hstep ih => exact hstep ∘ ih

theorem consistsOf_get :
    (get : Computation Session Session).ConsistsOf (StaysConfined p) :=
  consistsOf_part fun s t h => by
    obtain ⟨o, n, hn⟩ := h
    cases hn
    exact id

theorem consistsOf_modify {f : Session → Session} (h : ∀ s, StaysConfined p s (f s)) :
    (modify f : Computation Session Unit).ConsistsOf (StaysConfined p) :=
  consistsOf_part fun s t hleads => by
    obtain ⟨o, hhalts⟩ := hleads
    cases halts_update_iff.1 hhalts
    exact h s

/-- Performing an action keeps all effects confined. -/
theorem consistsOf_perform (depth : Nat) (x : Action α) :
    (perform depth x).ConsistsOf (StaysConfined p) :=
  consistsOf_part fun s t h => by
    obtain ⟨o, hhalts⟩ := h
    exact staysConfined_of_eq (defined_eq_of_halts_perform hhalts)

/-- A confined program builds a confined effect. -/
theorem respects_of_halts_build {e : Term .deferred} (he : p.Covers fun m => e.Mentions m)
    {depth : Nat} {s t : Session} {d : Effect Context Value} (hs : p.Confines s.defined)
    (h : (perform depth (e.build [])).Halts s (.ok d, t)) {W : World → World → Prop}
    (hW : p.KeepsEvents W) : d.invoke.Respects (Context.Related W W) := by
  obtain ⟨c, hbuild, -⟩ := halts_perform_iff.1 h
  have hassures := e.builds hW p.keeps_eq [] he
  exact hassures.of_halts (hs.related hW rfl depth) hbuild

/-- A definition adds an effect that is confined; no other command adds any. -/
theorem consistsOf_execute (depth : Nat) {command : Command}
    (h : p.Covers fun m => command.Mentions m) :
    (execute depth command).ConsistsOf (StaysConfined p) := by
  cases command with
  | define name e =>
    refine consistsOf_part fun s u hleads hs => ?_
    obtain ⟨o, hhalts⟩ := hleads
    rcases halts_bind_iff.1 hhalts with ⟨q, t, hbuild, hend⟩ | ⟨d, t, hbuild, hrest⟩
    · cases hend
      exact staysConfined_of_eq (defined_eq_of_halts_perform hbuild) hs
    · have hend := (halts_bind_ok_iff (halts_update_iff.2 rfl)).1 hrest
      cases halts_pure_iff.1 hend
      have ht : p.Confines t.defined :=
        staysConfined_of_eq (defined_eq_of_halts_perform hbuild) hs
      exact ht.push fun W hW => respects_of_halts_build h hs hbuild hW
  | run name | guard name =>
    refine consistsOf_get.bind fun s => ?_
    cases s.find? name with
    | none => exact consistsOf_pure _
    | some e => exact (consistsOf_perform depth _).bind fun _ => consistsOf_pure _
  | inspect name =>
    refine consistsOf_get.bind fun s => ?_
    cases s.find? name with
    | none => exact consistsOf_pure _
    | some e => exact consistsOf_pure _
  | clone name copy =>
    refine consistsOf_get.bind fun s => ?_
    cases s.world.names.find? name with
    | none => exact consistsOf_pure _
    | some handle =>
      have hassign : (modify (assign copy handle) : Computation Session Unit).ConsistsOf
          (StaysConfined p) := consistsOf_modify fun _ => staysConfined_of_eq rfl
      exact hassign.bind fun _ => consistsOf_pure _
  | drop name =>
    refine consistsOf_part fun s u hleads => ?_
    obtain ⟨o, n, hn⟩ := hleads
    cases hn
    exact id
  | setCell cell x => exact (consistsOf_perform depth _).bind fun _ => consistsOf_pure _

/-- A command that mentions only what is permitted keeps all effects confined. -/
theorem consistsOf_step (depth : Nat) {command : Command}
    (h : p.Covers fun m => command.Mentions m) :
    (step depth command).ConsistsOf (StaysConfined p) := by
  have hreport (outcome : Outcome) : (do
      let world := (← get).world
      modify clearTrace
      return (⟨outcome, world.trace, world.cells⟩ : Report) : Computation Session Report).ConsistsOf
        (StaysConfined p) := by
    have hclear : (modify clearTrace : Computation Session Unit).ConsistsOf (StaysConfined p) :=
      consistsOf_modify fun _ => staysConfined_of_eq rfl
    exact consistsOf_get.bind fun _ => hclear.bind fun _ => consistsOf_pure _
  have hattempt : (execute depth command).attempt.ConsistsOf (StaysConfined p) := by
    intro s t hleads
    obtain ⟨r, hhalts⟩ := hleads
    obtain ⟨o, t, hexecute, hend⟩ := halts_attempt_iff.1 hhalts
    cases hend
    exact consistsOf_execute depth h s t ⟨o, hexecute⟩
  refine hattempt.bind fun o => ?_
  cases o with
  | ok outcome => exact hreport outcome
  | error q => exact hreport (.panicked q)

theorem consistsOf_steps (depth : Nat) {commands : List Command}
    (h : ∀ command ∈ commands, p.Covers fun m => command.Mentions m) :
    (commands.mapM (step depth)).ConsistsOf (StaysConfined p) := by
  induction commands with
  | nil => exact consistsOf_pure []
  | cons command commands ih =>
    have ⟨hfirst, hrest⟩ := List.forall_mem_cons.1 h
    rw [List.mapM_cons]
    exact (consistsOf_step depth hfirst).bind fun _ => (ih hrest).bind fun _ => consistsOf_pure _

/-- So does a whole session of such commands. -/
theorem consistsOf_afterStart (depth : Nat) (cells : Bindings Expr) {commands : List Command}
    (h : ∀ command ∈ commands, p.Covers fun m => command.Mentions m) :
    (afterStart depth cells commands).ConsistsOf (StaysConfined p) := by
  refine ConsistsOf.bind ?_ fun _ => consistsOf_steps depth h
  induction cells with
  | nil => exact consistsOf_pure ()
  | cons entry cells ih => exact (consistsOf_perform 0 _).bind fun _ => ih

/-- The effects of a session are confined by what its commands mention. -/
theorem confines_of_halts_transcript {depth : Nat} {listening : Bool} {cells : Bindings Expr}
    {commands : List Command} (h : ∀ command ∈ commands, p.Covers fun m => command.Mentions m)
    {s t : Session} {o : Except Panic (List Report)}
    (hrun : (transcript depth listening cells commands).Halts s (o, t)) : p.Confines t.defined := by
  have hafter := (resumes_transcript depth listening cells commands s _).1 hrun
  have hsteps := consistsOf_afterStart depth cells h _ t ⟨o, hafter⟩
  exact staysConfined_of_steps hsteps p.confines_empty

end Session

/-! ## The trace -/

namespace World

/-- What the world takes down of an event. -/
def heard (event : Event) (w : World) : Array Entry :=
  if w.listening then #[.event event] else #[]

theorem emit_eq (event : Event) (w : World) :
    Tracer.emit event w = { w with trace := w.trace ++ w.heard event } := by
  show (if w.listening then w.push (.event event) else w) = _
  unfold heard
  by_cases hlistening : w.listening
  · rw [if_pos hlistening, if_pos hlistening]
    rfl
  · rw [if_neg hlistening, if_neg hlistening, Array.append_empty]

/-- The first world has more in front of its trace, and is the second one otherwise. -/
def Preceded (before : Array Entry) (w v : World) : Prop :=
  w = { v with trace := before ++ v.trace }

/-- With more in front of the trace everything goes the same way. -/
theorem keepsEvents_preceded (p : Permit) (before : Array Entry) :
    p.KeepsEvents (Preceded before) where
  cells h := by rw [h]
  positions h := by rw [h]
  names h _ _ := by rw [h]
  record {w v} h value := by rw [h, Preceded, push, push, Array.append_push]
  setCells h _ := by rw [h]; rfl
  setPositions h _ := by rw [h]; rfl
  emit {w v} h event _ := by
    rw [h, Preceded, emit_eq, emit_eq, ← Array.append_assoc]
    rfl

end World

namespace Context

/-- The context with another trace. -/
def withTrace (trace : Array Entry) (c : Context) : Context :=
  c.mapWorld fun w => { w with trace := trace }

theorem emit_eq_withTrace (event : Event) (c : Context) :
    Tracer.emit event c = c.withTrace (c.world.trace ++ c.world.heard event) :=
  congrArg (fun w => { c with world := w }) (c.world.emit_eq event)

end Context

/-- What a program gets when it refers to a handle: whoever has the effect shares the handle. -/
def Action.reference (handle : Handle) : Effect Context Value := ⟨Action.invoke handle⟩

/-- A reference runs the effect that its handle stands for in the same world. -/
theorem Action.halts_reference_iff {handle : Handle} {c d : Context} {o : Except Panic Value} :
    (reference handle).invoke.Halts c (o, d) ↔
      ∃ w, (c.call handle).Halts c.world (o, w) ∧ d = { c with world := w } := by
  have hget : (get : Action Context).Halts c (.ok c, c) := ⟨0, rfl⟩
  have hinvoke : (reference handle).invoke.Halts c (o, d) ↔
      ((c.call handle).onState Context.world fun c w => { c with world := w }).Halts c (o, d) :=
    halts_bind_ok_iff hget
  rw [hinvoke, halts_onState_iff]
  constructor
  · intro h
    obtain ⟨o', w, hcall, hend⟩ := h
    cases hend
    exact ⟨w, hcall, rfl⟩
  · intro h
    obtain ⟨w, hcall, rfl⟩ := h
    exact ⟨o, w, hcall, rfl⟩

theorem Action.call_of_halts_reference {handle : Handle} {c d : Context} {o : Except Panic Value}
    (h : (reference handle).invoke.Halts c (o, d)) : d.call = c.call := by
  obtain ⟨w, -, rfl⟩ := halts_reference_iff.1 h
  rfl

namespace Permit

open Deferred.Action (reference)

variable {defined : Array (Effect Context Value)} {handle : Handle} {depth : Nat}

/-- A call adds to the trace, and adds the same to any other trace. The world with an empty trace is
compared with both. -/
theorem Confines.call_adds (h : p.Confines defined) {w v : World} {o : Except Panic Value}
    (hrun : (Session.call defined depth handle).Halts w (o, v)) :
    ∃ added, v.trace = w.trace ++ added ∧ ∀ trace,
      (Session.call defined depth handle).Halts { w with trace := trace }
        (o, { v with trace := trace ++ added }) := by
  have hcall (before : Array Entry) :
      (Session.call defined depth handle).Respects (World.Preceded before) :=
    Session.respects_call (h _ (World.keepsEvents_preceded p before)) depth handle
  have hempty (trace : Array Entry) :
      World.Preceded trace { w with trace := trace } { w with trace := #[] } := by
    rw [World.Preceded, Array.append_empty]
  obtain ⟨o', u, hu, ho, hvu⟩ := (hcall w.trace _ _ (hempty w.trace)).1 o v hrun
  obtain rfl := matches_eq_iff.1 ho
  refine ⟨u.trace, congrArg World.trace hvu, fun trace => ?_⟩
  obtain ⟨o', u', hu', ho', hu'u⟩ := (hcall trace _ _ (hempty trace)).2 o u hu
  obtain rfl := matches_eq_iff.1 ho'.flip
  have hsame : u' = { v with trace := trace ++ u.trace } := by
    rw [show u' = { u with trace := trace ++ u.trace } from hu'u, hvu]
  rwa [← hsame]

/-- An invocation through a handle adds to the trace, and adds the same to any other trace. -/
theorem Confines.adds (h : p.Confines defined) {c d : Context} {o : Except Panic Value}
    (hc : c.call = Session.call defined depth)
    (hrun : (reference handle).invoke.Halts c (o, d)) :
    ∃ added, d.world.trace = c.world.trace ++ added ∧ ∀ trace,
      (reference handle).invoke.Halts (c.withTrace trace) (o, d.withTrace (trace ++ added)) := by
  obtain ⟨w, hcall, rfl⟩ := Action.halts_reference_iff.1 hrun
  rw [hc] at hcall
  obtain ⟨added, hadded, hother⟩ := h.call_adds hcall
  refine ⟨added, hadded, fun trace => Action.halts_reference_iff.2 ⟨_, ?_, rfl⟩⟩
  have hsame : (c.withTrace trace).call = Session.call defined depth := hc
  rw [hsame]
  exact hother trace

end Permit

end Deferred
