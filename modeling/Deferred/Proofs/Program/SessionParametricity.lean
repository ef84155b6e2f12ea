import Deferred.Proofs.Program.Parametricity
import Deferred.Session
import Mathlib.Data.List.Forall2

/-!
# Sessions do not see what a relation between worlds leaves open

A session whose programs keep a relation between worlds keeps it as well: from related sessions
every command has the same outcome, and the sessions are related again
(`Session.respects_execute`). The effects that have been defined are the same, so what a handle
stands for is called alike however deep the calls go (`Session.respects_call`).
-/

namespace Deferred

open Deferred.Computation

/-! ## What commands mention -/

/-- The term of a definition mentions it, or the command is one that tells of it. -/
def Command.Mentions (m : Mention) : Command → Prop
  | .define _ e => e.Mentions m
  | .guard _ => ∃ error, m = .event (.invocationFailed error)
  | .setCell _ x => x.Mentions m
  | .run _ | .inspect _ | .clone _ _ | .drop _ => False

/-- A session, too, finds the same names in related worlds, and what it does between its commands
leaves related worlds. -/
structure Permit.KeepsSessions (p : Permit) (W : World → World → Prop) : Prop
    extends p.KeepsEvents W where
  names_eq {w v : World} (h : W w v) : w.names = v.names
  setNames {w v : World} (h : W w v) (names : Bindings Handle) :
    W { w with names := names } { v with names := names }
  clearTrace {w v : World} (h : W w v) : W { w with trace := #[] } { v with trace := #[] }

/-- The reports show the same outcome, and worlds that are related. -/
def Report.Related (W : World → World → Prop) (r r' : Report) : Prop :=
  ∃ o w v, W w v ∧ r = ⟨o, w.trace, w.cells⟩ ∧ r' = ⟨o, v.trace, v.cells⟩

namespace Session

/-- The same effects have been defined in related worlds, and they go the same way there. -/
structure Related (W : World → World → Prop) (s t : Session) : Prop where
  world : W s.world t.world
  defined_eq : s.defined = t.defined
  respects {e : Effect Context Value} (he : e ∈ s.defined) :
    e.invoke.Respects (Context.Related W W)

variable {α β : Type} {p : Permit} {W : World → World → Prop}

/-! ## Calls -/

/-- By induction on the depth: a call sees no more than the effect does, which may call again. -/
theorem respects_call {defined : Array (Effect Context Value)}
    (h : ∀ e ∈ defined, e.invoke.Respects (Context.Related W W)) (depth : Nat) (handle : Handle) :
    (call defined depth handle).Respects W := by
  induction depth generalizing handle with
  | zero => exact alike_never
  | succ depth ih =>
    rw [call]
    cases he : defined[handle]? with
    | none => exact alike_never
    | some e =>
      refine Alike.onState (h e (Array.mem_of_getElem? he)) ?_ fun _ _ _ _ _ hcd => hcd.world
      exact fun _ _ hw => ⟨hw, rfl, ih⟩

/-- What programs do alike, they do alike in a session. -/
theorem alike_perform {V : α → β → Prop} {x : Action α} {y : Action β}
    (h : Alike (Context.Related W W) V x y) (depth : Nat) :
    Alike (Related W) V (perform depth x) (perform depth y) := by
  refine Alike.onState h (fun s t hst => ?_) fun s t c d hst hcd => ?_
  · rw [← hst.defined_eq]
    exact ⟨hst.world, rfl, respects_call (fun _ => hst.respects) depth⟩
  · exact ⟨hcd.world, hst.defined_eq, hst.respects⟩

/-! ## Commands -/

theorem respects_modify {f : Session → Session} (h : ∀ s t, Related W s t → Related W (f s) (f t)) :
    (modify f : Computation Session Unit).Respects (Related W) :=
  alike_update fun s t hst => ⟨rfl, h s t hst⟩

/-- Related sessions stay so when a name is assigned. -/
theorem Related.assign (hW : p.KeepsSessions W) {s t : Session} (h : Related W s t) (name : String)
    (handle : Handle) : Related W (s.assign name handle) (t.assign name handle) where
  world := by
    have hnames := hW.setNames h.world (s.world.names.put name handle)
    rwa [Session.assign, Session.assign, ← hW.names_eq h.world]
  defined_eq := h.defined_eq
  respects := h.respects

theorem Related.define (hW : p.KeepsSessions W) {s t : Session} (h : Related W s t) (name : String)
    {e : Effect Context Value} (he : e.invoke.Respects (Context.Related W W)) :
    Related W (s.define name e) (t.define name e) := by
  have hpushed : Related W { s with defined := s.defined.push e }
      { t with defined := s.defined.push e } :=
    { world := h.world
      defined_eq := rfl
      respects := by
        intro d hd
        rcases Array.mem_push.1 hd with hd | rfl
        · exact h.respects hd
        · exact he }
  rw [Session.define, Session.define, ← h.defined_eq]
  exact hpushed.assign hW name _

/-- Both sessions find the same effect. -/
theorem respects_withEffect (hW : p.KeepsSessions W) (name : String)
    {use : Effect Context Value → Computation Session Outcome}
    (huse : ∀ e, e.invoke.Respects (Context.Related W W) → (use e).Respects (Related W)) :
    (withEffect name use).Respects (Related W) := by
  refine alike_get.bind fun s t hst => ?_
  have hfind : t.find? name = s.find? name := by
    rw [find?, find?, hW.names_eq hst.world, hst.defined_eq]
  rw [hfind]
  cases he : s.find? name with
  | none => exact alike_pure rfl
  | some e =>
    obtain ⟨handle, -, hhandle⟩ := Option.bind_eq_some_iff.1 he
    exact huse e (hst.respects (Array.mem_of_getElem? hhandle))

/-- A command that mentions only what is permitted keeps sessions related. -/
theorem respects_execute (hW : p.KeepsSessions W) (depth : Nat) {command : Command}
    (h : p.Covers fun m => command.Mentions m) : (execute depth command).Respects (Related W) := by
  cases command with
  | define name e =>
    have hbuild := e.builds hW.toKeepsEvents hW.toKeeps [] h
    refine Assures.respects_bind (alike_perform hbuild depth) fun e he => ?_
    exact Respects.bind (respects_modify fun s t hst => hst.define hW name he) fun _ =>
      respects_pure _
  | run name =>
    exact respects_withEffect hW name fun e he =>
      Respects.bind (alike_perform he depth) fun _ => respects_pure _
  | guard name =>
    refine respects_withEffect hW name fun e he => ?_
    have hguarded := Effect.respects_invokeGuarded hW.toKeepsEvents
      (fun error => h (.event (.invocationFailed error)) ⟨error, rfl⟩) he
    exact Respects.bind (alike_perform hguarded depth) fun _ => respects_pure _
  | inspect name => exact respects_withEffect hW name fun _ _ => respects_pure _
  | clone name copy =>
    refine alike_get.bind fun s t hst => ?_
    rw [hW.names_eq hst.world]
    cases t.world.names.find? name with
    | none => exact alike_pure rfl
    | some handle =>
      exact Respects.bind (respects_modify fun s t hst => hst.assign hW copy handle) fun _ =>
        respects_pure _
  | drop name =>
    refine alike_get.bind fun s t hst => ?_
    rw [hW.names_eq hst.world]
    refine Alike.bind (V := Eq) (alike_set ⟨?_, hst.defined_eq, hst.respects⟩) fun _ _ _ =>
      alike_pure rfl
    exact hW.setNames hst.world _
  | setCell cell x =>
    have hset : (do let v ← x.eval []; Action.writeCell cell v : Action Unit).Respects
        (Context.Related W W) :=
      Respects.bind (x.respects_eval hW.toKeeps []) fun v =>
        Action.respects_writeCell hW.toKeeps _ v
    exact Respects.bind (alike_perform hset depth) fun _ => respects_pure _

/-! ## Reports -/

/-- What a command shows once its outcome is known. -/
theorem alike_report (hW : p.KeepsSessions W) (outcome : Outcome) :
    Alike (Related W) (Report.Related W)
      (do
        let world := (← get).world
        modify clearTrace
        return ⟨outcome, world.trace, world.cells⟩)
      (do
        let world := (← get).world
        modify clearTrace
        return ⟨outcome, world.trace, world.cells⟩) := by
  refine alike_get.bind fun s t hst => ?_
  refine Alike.bind_eq (respects_modify fun s t hst => ?_) fun _ => alike_pure ?_
  · exact ⟨hW.clearTrace hst.world, hst.defined_eq, hst.respects⟩
  · exact ⟨outcome, s.world, t.world, hst.world, rfl, rfl⟩

/-- Its report is related as well. -/
theorem alike_step (hW : p.KeepsSessions W) (depth : Nat) {command : Command}
    (h : p.Covers fun m => command.Mentions m) :
    Alike (Related W) (Report.Related W) (step depth command) (step depth command) := by
  refine Alike.bind_eq (respects_execute hW depth h).attempt_eq fun o => ?_
  cases o with
  | ok outcome => exact alike_report hW outcome
  | error p => exact alike_report hW (.panicked p)

/-- Command after command. -/
theorem alike_steps (hW : p.KeepsSessions W) (depth : Nat) {commands : List Command}
    (h : ∀ command ∈ commands, p.Covers fun m => command.Mentions m) :
    Alike (Related W) (List.Forall₂ (Report.Related W)) (commands.mapM (step depth))
      (commands.mapM (step depth)) := by
  induction commands with
  | nil => exact alike_pure .nil
  | cons command commands ih =>
    rw [List.mapM_cons]
    refine (alike_step hW depth (h command List.mem_cons_self)).bind fun r r' hr => ?_
    refine (ih fun c hc => h c (List.mem_cons_of_mem _ hc)).bind fun rs rs' hrs => ?_
    exact alike_pure (.cons hr hrs)

/-- The rest of a transcript, once the session is there. -/
def afterStart (depth : Nat) (cells : Bindings Expr) (commands : List Command) :
    Computation Session (List Report) := do
  cells.forM fun (cell, x) => perform 0 do
    let v ← x.eval []
    Action.writeCell cell v
  commands.mapM (step depth)

theorem resumes_transcript (depth : Nat) (listening : Bool) (cells : Bindings Expr)
    (commands : List Command) (s : Session) :
    (transcript depth listening cells commands).Resumes s (afterStart depth cells commands)
      ⟨World.initial listening, #[]⟩ :=
  (resumes_bind (a := ()) ⟨0, rfl⟩).bind _

/-- All reports of related sessions are related. -/
theorem alike_afterStart (hW : p.KeepsSessions W) (depth : Nat) (cells : Bindings Expr)
    {commands : List Command} (h : ∀ command ∈ commands, p.Covers fun m => command.Mentions m) :
    Alike (Related W) (List.Forall₂ (Report.Related W)) (afterStart depth cells commands)
      (afterStart depth cells commands) := by
  refine Alike.bind_eq ?_ fun _ => alike_steps hW depth h
  induction cells with
  | nil => exact alike_pure rfl
  | cons entry cells ih =>
    have hset : (do let v ← entry.2.eval []; Action.writeCell entry.1 v : Action Unit).Respects
        (Context.Related W W) :=
      Respects.bind (entry.2.respects_eval hW.toKeeps []) fun v =>
        Action.respects_writeCell hW.toKeeps _ v
    exact Respects.bind (alike_perform hset 0) fun _ => ih

/-- A session in which nothing has been defined. -/
theorem related_initial {listening listening' : Bool}
    (h : W (World.initial listening) (World.initial listening')) :
    Related W ⟨World.initial listening, #[]⟩ ⟨World.initial listening', #[]⟩ :=
  ⟨h, rfl, fun he => absurd he (Array.not_mem_empty _)⟩

end Session

end Deferred
