import Deferred.Proofs.Announcement
import Deferred.Proofs.Program.SessionParametricity
import Deferred.Proofs.Program.Silence

/-!
# Listening changes nothing

A session that listens to events differs from one that does not in the events of its trace, and in
nothing else: every command has the same outcome and leaves the same cells, scripts and effects
(`Session.halts_transcript_unheard_iff`). Which events there are is said operation by operation
(`Effect.emissions`). Building a program tells of none (`Term.events_build`), and a session tells of
none that its commands do not mention (`Session.admits_of_mem_reports`).
-/

namespace Deferred

open Deferred.Computation

/-- All is allowed. -/
def Permit.all : Permit where
  effect _ := True
  event _ := True

theorem Permit.all_covers (mentions : Mention → Prop) : Permit.all.Covers mentions
  | .var _, _ => trivial
  | .effect _, _ => trivial
  | .event _, _ => trivial

namespace World

/-! ## Worlds with and without a listener -/

/-- The second world is what the first one would be if nobody had listened. -/
def Unheard (w v : World) : Prop := v = w.unheard

/-- Sessions with and without a listener stay related. -/
theorem keepsSessions_unheard : Permit.all.KeepsSessions Unheard where
  cells h := by rw [h]; rfl
  positions h := by rw [h]; rfl
  names h _ _ := by rw [h]; rfl
  record {w v} h value := by
    rw [h]
    exact (w.unheard_push_value value).symm
  setCells h _ := by rw [h]; rfl
  setPositions h _ := by rw [h]; rfl
  emit {w v} h event _ := by
    -- The second world does not listen.
    have hdeaf : Tracer.emit event w.unheard = w.unheard := rfl
    rw [h, hdeaf]
    exact (unheard_emit event w).symm
  names_eq h := by rw [h]; rfl
  setNames h _ := by rw [h]; rfl
  clearTrace h := by rw [h]; rfl

/-! ## Worlds that are the same -/

/-- The same world, whose trace has the property. -/
def Same (P : Array Entry → Prop) (w v : World) : Prop := w = v ∧ P w.trace

section

variable {P : Array Entry → Prop} (hrecord : ∀ trace v, P trace → P (trace.push (.value v)))

include hrecord

theorem keeps_same (p : Permit) : p.Keeps (Same P) where
  cells h := by rw [h.1]
  positions h := by rw [h.1]
  names h _ _ := by rw [h.1]
  record h v := ⟨by rw [h.1], hrecord _ v h.2⟩
  setCells h _ := ⟨by rw [h.1], h.2⟩
  setPositions h _ := ⟨by rw [h.1], h.2⟩

theorem keepsSessions_same {p : Permit} (hempty : P #[])
    (hemit : ∀ trace event, p.event event → P trace → P (trace.push (.event event))) :
    p.KeepsSessions (Same P) where
  toKeeps := keeps_same hrecord p
  emit {w v} h event hevent := by
    refine ⟨by rw [h.1], ?_⟩
    show P (if w.listening then w.push (.event event) else w).trace
    by_cases hlistening : w.listening
    · rw [if_pos hlistening]
      exact hemit _ event hevent h.2
    · rw [if_neg hlistening]
      exact h.2
  names_eq h := by rw [h.1]
  setNames h _ := ⟨by rw [h.1], h.2⟩
  clearTrace h := ⟨by rw [h.1], hempty⟩

end

end World

/-! ## Traces whose events are permitted -/

namespace Permit

/-- The trace tells of permitted events alone. -/
def Admits (p : Permit) (trace : Array Entry) : Prop :=
  ∀ event, .event event ∈ trace → p.event event

variable {p : Permit}

theorem admits_empty : p.Admits #[] := fun _ hmem => absurd hmem (Array.not_mem_empty _)

theorem Admits.push_value {trace : Array Entry} (h : p.Admits trace) (v : Value) :
    p.Admits (trace.push (.value v)) := by
  intro event hmem
  rcases Array.mem_push.1 hmem with hmem | hnew
  · exact h event hmem
  · exact nomatch hnew

theorem Admits.push_event {trace : Array Entry} (h : p.Admits trace) {new : Event}
    (hnew : p.event new) : p.Admits (trace.push (.event new)) := by
  intro event hmem
  rcases Array.mem_push.1 hmem with hmem | heq
  · exact h event hmem
  · cases heq
    exact hnew

/-- Traces with permitted events alone stay so. -/
theorem keepsSessions_admits (p : Permit) : p.KeepsSessions (World.Same p.Admits) :=
  World.keepsSessions_same (fun _ v h => h.push_value v) admits_empty
    fun _ _ hevent h => h.push_event hevent

end Permit

/-! ## Building tells of nothing -/

/-- The events of a trace, in order. -/
def Entry.events (trace : Array Entry) : List Event :=
  trace.toList.filterMap fun
    | .value _ => none
    | .event e => some e

theorem Entry.events_push_value (trace : Array Entry) (v : Value) :
    events (trace.push (.value v)) = events trace := by
  simp [events]

/-- Building a program tells of no event. A program of values has then been run as well. -/
theorem Term.events_build {mode : Mode} (env : Env) (t : Term mode) {c c' : Context}
    {r : Except Panic (mode.Carrier Value)} (h : (t.build env).Halts c (r, c')) :
    Entry.events c'.world.trace = Entry.events c.world.trace := by
  have hrun : Permit.all.KeepsSessions (World.Same fun _ => True) :=
    World.keepsSessions_same (fun _ _ _ => trivial) trivial fun _ _ _ _ => trivial
  have hbuild : Permit.all.Keeps
      (World.Same fun trace => Entry.events trace = Entry.events c.world.trace) :=
    World.keeps_same (fun trace v htrace => by rw [Entry.events_push_value, htrace]) .all
  have hcall : ∀ handle, (c.call handle).Respects (World.Same fun _ => True) := fun handle =>
    respects_of_eq (fun w v => and_iff_left trivial) (c.call handle)
  have halike := t.builds hrun.toKeepsEvents hbuild env (Permit.all_covers _)
  obtain ⟨_, c'', -, -, hrelated⟩ := (halike c c ⟨⟨rfl, rfl⟩, rfl, hcall⟩).1 r c' h
  exact hrelated.world.2

/-! ## Sessions with and without a listener -/

/-- The report without the events of its trace. -/
def Report.unheard (r : Report) : Report :=
  { r with trace := r.trace.filter Entry.isValue }

namespace Session

/-- The session as it would be if nobody had listened. -/
def unheard (s : Session) : Session := { s with world := s.world.unheard }

/-- Related sessions are the same but for what was heard. -/
theorem Related.eq_unheard {s t : Session} (h : Related World.Unheard s t) : t = s.unheard := by
  obtain ⟨world, defined⟩ := t
  obtain rfl : world = s.world.unheard := h.world
  obtain rfl : s.defined = defined := h.defined_eq
  rfl

theorem eq_unheard_of_related {r r' : Report} (h : Report.Related World.Unheard r r') :
    r' = r.unheard := by
  obtain ⟨o, w, v, hw, rfl, rfl⟩ := h
  obtain rfl : v = w.unheard := hw
  rfl

/-- What a transcript yields, without events. -/
def unheardResult (o : Except Panic (List Report)) : Except Panic (List Report) :=
  o.map fun reports => reports.map Report.unheard

theorem eq_unheardResult_of_matches {o o' : Except Panic (List Report)}
    (h : Matches (List.Forall₂ (Report.Related World.Unheard)) o o') : o' = unheardResult o := by
  cases h with
  | error p => rfl
  | ok hreports =>
    have hpointwise := hreports.imp fun _ _ hr => (eq_unheard_of_related hr).symm
    have hmap := List.forall₂_map_left_iff.2 hpointwise
    rw [List.forall₂_eq_eq_eq] at hmap
    exact congrArg Except.ok hmap.symm

/-- A session that nobody listens to ends as one that is listened to, without its events. -/
theorem halts_transcript_unheard_iff (depth : Nat) (cells : Bindings Expr)
    (commands : List Command) (s : Session) (o' : Except Panic (List Report)) (t' : Session) :
    (transcript depth false cells commands).Halts s (o', t') ↔
      ∃ o t, (transcript depth true cells commands).Halts s (o, t) ∧ o' = unheardResult o ∧
        t' = t.unheard := by
  have hinitial : Related World.Unheard ⟨World.initial true, #[]⟩ ⟨World.initial false, #[]⟩ :=
    related_initial rfl
  have halike := alike_afterStart World.keepsSessions_unheard depth cells
    fun command (_ : command ∈ commands) => Permit.all_covers _
  obtain ⟨hforth, hback⟩ := halike _ _ hinitial
  constructor
  · intro h
    have hrest := (resumes_transcript depth false cells commands s _).1 h
    obtain ⟨o, t, hheard, hmatch, hrelated⟩ := hback o' t' hrest
    exact ⟨o, t, (resumes_transcript depth true cells commands s _).2 hheard,
      eq_unheardResult_of_matches hmatch.flip, hrelated.eq_unheard⟩
  · rintro ⟨o, t, h, rfl, rfl⟩
    have hrest := (resumes_transcript depth true cells commands s _).1 h
    obtain ⟨o', t', hunheard, hmatch, hrelated⟩ := hforth o t hrest
    rw [← eq_unheardResult_of_matches hmatch, ← hrelated.eq_unheard]
    exact (resumes_transcript depth false cells commands s _).2 hunheard

/-! ## The events of a session -/

/-- Any effect, and the events that the commands mention. -/
def permit (commands : List Command) : Permit where
  effect _ := True
  event e := ∃ command ∈ commands, command.Mentions (.event e)

theorem permit_covers {commands : List Command} {command : Command} (h : command ∈ commands) :
    (permit commands).Covers fun m => command.Mentions m
  | .var _, _ => trivial
  | .effect _, _ => trivial
  | .event _, hm => ⟨command, h, hm⟩

/-- The reports of commands that tell of permitted events alone tell of no other. -/
theorem admits_of_mem_reports {p : Permit} {depth : Nat} {listening : Bool}
    {cells : Bindings Expr} {commands : List Command} {s t : Session} {reports : List Report}
    (hcommands : ∀ command ∈ commands, p.Covers fun m => command.Mentions m)
    (h : (transcript depth listening cells commands).Halts s (.ok reports, t)) :
    ∀ report ∈ reports, p.Admits report.trace := by
  have hinitial : World.Same p.Admits (World.initial listening) (World.initial listening) :=
    ⟨rfl, Permit.admits_empty⟩
  have halike := alike_afterStart p.keepsSessions_admits depth cells hcommands
  have hrest := (resumes_transcript depth listening cells commands s _).1 h
  obtain ⟨o', t', -, hmatch, -⟩ := (halike _ _ (related_initial hinitial)).1 _ t hrest
  cases hmatch with
  | ok hreports =>
    have htrace : ∀ r r', Report.Related (World.Same p.Admits) r r' → p.Admits r.trace ∧ True := by
      intro r r' hr
      obtain ⟨o, w, v, hw, rfl, rfl⟩ := hr
      exact ⟨hw.2, trivial⟩
    exact ((List.forall₂_and_left _ _).1 (hreports.imp htrace)).1

end Session

/-! ## Listening only observes -/

/-- What listening to events amounts to. -/
structure ListeningObserves : Prop where
  /-- Without a listener a session ends as with one: with the same outcomes, cells, scripts, names
  and effects, and with the same traces but for the events. -/
  unheard (depth : Nat) (cells : Bindings Expr) (commands : List Command) (s : Session)
    (o' : Except Panic (List Report)) (t' : Session) :
    (Session.transcript depth false cells commands).Halts s (o', t') ↔
      ∃ o t, (Session.transcript depth true cells commands).Halts s (o, t) ∧
        o' = Session.unheardResult o ∧ t' = t.unheard
  /-- An event is one entry of the trace, and nothing else. -/
  told (event : Event) (c : Context) : Tracer.emit event c =
    if c.world.listening then c.mapWorld fun w => w.push (.event event) else c
  /-- Loops and guarded invocations tell of events. No other operation does. -/
  emissions (σ : Type) [Tracer σ] : Effect.Emissions σ
  /-- Building tells of none. -/
  building {mode : Mode} (env : Env) (t : Term mode) {c c' : Context}
    {r : Except Panic (mode.Carrier Value)} (h : (t.build env).Halts c (r, c')) :
    Entry.events c'.world.trace = Entry.events c.world.trace
  /-- All events of a session are such as its commands mention. -/
  mentioned {depth : Nat} {listening : Bool} {cells : Bindings Expr} {commands : List Command}
    {s t : Session} {reports : List Report}
    (h : (Session.transcript depth listening cells commands).Halts s (.ok reports, t))
    {report : Report} (hreport : report ∈ reports) {event : Event}
    (hevent : .event event ∈ report.trace) :
    ∃ command ∈ commands, command.Mentions (.event event)

/-- Listening adds the events to the traces and changes nothing else, and all events are such as the
commands mention. -/
theorem listening_observes : ListeningObserves where
  unheard := Session.halts_transcript_unheard_iff
  told := Effect.emit_context
  emissions _ := Effect.emissions
  building := Term.events_build
  mentioned h _ hreport event hevent :=
    Session.admits_of_mem_reports (fun _ hc => Session.permit_covers hc) h _ hreport event hevent

/-- A loop over two items whose body records the item and panics, which is caught; a loop without
turns; a loop whose check panics; a fallible loop that ends at its first item; and a loop that is
not selected. -/
def eventfulCommands : List Command :=
  [.define "loop" <| .forEach (.items (.const (.list [.int 1, .int 2]))) "i" <|
      .guarded <| .act (.var "i") (.fail .formatted (.const (.str "gone"))),
    .run "loop",
    .define "idle" <| .forRange (.const (.int 3)) (.const (.int 3)) "i" .unit,
    .run "idle",
    .define "broken" <| .untilTrue <| .fail .formatted (.const (.str "gone")),
    .guard "broken",
    .define "tried" <| .tryForEach (.items (.const (.list [.int 1, .int 2]))) "i" <|
      .act (.var "i") (.tagged .err (.var "i")),
    .run "tried",
    .define "left" <| .when (.const (.bool false)) (.ref "idle"),
    .run "left"]

theorem listening_observes_eventfulCommands :
    ∃ reports t,
      (Session.transcript 0 true [] eventfulCommands).Halts ⟨World.initial true, #[]⟩
        (.ok reports, t) ∧
      reports.map Report.trace = [#[],
        #[.event (.loopStarted false (.forEach 2)), .value (.int 1),
          .event (.invocationFailed ⟨"gone"⟩), .value (.int 2),
          .event (.invocationFailed ⟨"gone"⟩)],
        #[], #[.event (.loopStarted false (.forRange 3 3))],
        #[], #[.event (.loopStarted false .untilTrue), .event (.invocationFailed ⟨"gone"⟩)],
        #[], #[.event (.loopStarted true (.forEach 2)), .value (.int 1)],
        #[], #[]] ∧
      (Session.transcript 0 false [] eventfulCommands).Halts ⟨World.initial true, #[]⟩
        (.ok (reports.map Report.unheard), t.unheard) ∧
      ∀ report ∈ reports, ∀ event, .event event ∈ report.trace →
        ∃ command ∈ eventfulCommands, command.Mentions (.event event) := by
  have hrun : ∃ reports t,
      (Session.transcript 0 true [] eventfulCommands).Halts ⟨World.initial true, #[]⟩
        (.ok reports, t) ∧
      reports.map Report.trace = [#[],
        #[.event (.loopStarted false (.forEach 2)), .value (.int 1),
          .event (.invocationFailed ⟨"gone"⟩), .value (.int 2),
          .event (.invocationFailed ⟨"gone"⟩)],
        #[], #[.event (.loopStarted false (.forRange 3 3))],
        #[], #[.event (.loopStarted false .untilTrue), .event (.invocationFailed ⟨"gone"⟩)],
        #[], #[.event (.loopStarted true (.forEach 2)), .value (.int 1)],
        #[], #[]] := ⟨_, _, ⟨1, rfl⟩, rfl⟩
  obtain ⟨reports, t, hheard, htraces⟩ := hrun
  have hunheard :=
    (listening_observes.unheard 0 [] eventfulCommands _ _ _).2 ⟨_, t, hheard, rfl, rfl⟩
  exact ⟨reports, t, hheard, htraces, hunheard, fun _ hreport _ hevent =>
    listening_observes.mentioned hheard hreport hevent⟩

end Deferred
