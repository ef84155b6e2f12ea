import Deferred.Proofs.Program.Calling
import Deferred.Proofs.Program.Inertness

/-!
# Handles share their effect

The names of a session are handles on its effects. Which of its names an effect is run by makes no
difference, and neither does what happens to other names in between: a row of runs is the row of
invocations of the one effect (`Session.halts_runs_iff`). Nothing is kept from one run for the next
one but the state (`clones_share`).
-/

namespace Deferred

open Deferred.Computation
open Deferred.Action (reference)

variable {α β : Type} {p : Permit}

/-! ## Names -/

theorem Bindings.find?_forget_of_ne {α : Type} (bindings : Bindings α) {name other : String}
    (h : name ≠ other) : (bindings.forget name).find? other = bindings.find? other := by
  induction bindings with
  | nil => rfl
  | cons entry rest ih =>
    obtain ⟨key, a⟩ := entry
    by_cases hkey : key = name
    · have hother : key ≠ other := hkey ▸ h
      rw [find?, if_neg hother, ← ih]
      simp [forget, hkey]
    · have hkept : forget ((key, a) :: rest) name = (key, a) :: forget rest name := by
        simp [forget, hkey]
      rw [hkept, find?, find?, ih]

/-- The second world has other names, and is the first one otherwise. -/
def World.Renamed (names names' : Bindings Handle) (w v : World) : Prop :=
  w.names = names ∧ v = { w with names := names' }

/-- Programs leave names alone. They do not see names that they do not look up. -/
theorem World.keepsEvents_renamed {names names' : Bindings Handle}
    (h : ∀ name, p.effect name → names.find? name = names'.find? name) :
    p.KeepsEvents (Renamed names names') where
  cells hwv := by rw [hwv.2]
  positions hwv := by rw [hwv.2]
  names hwv name hname := by
    rw [hwv.2, hwv.1]
    exact h name hname
  record hwv value := ⟨hwv.1, by rw [hwv.2]; rfl⟩
  setCells hwv cells := ⟨hwv.1, by rw [hwv.2]⟩
  setPositions hwv positions := ⟨hwv.1, by rw [hwv.2]⟩
  emit {w v} hwv event _ := by
    rw [hwv.2, emit_eq, emit_eq]
    exact ⟨hwv.1, rfl⟩

/-! ## Commands that use a handle -/

namespace Command

/-- The names after the command, if it gives a name to an effect that is there or drops one. -/
def rename (names : Bindings Handle) : Command → Bindings Handle
  | .clone name copy =>
    match names.find? name with
    | some handle => names.put copy handle
    | none => names
  | .drop name => names.forget name
  | _ => names

/-- The command runs the effect by one of its names. Or it drops a name or makes it stand for an
effect, but none of the names that are kept. -/
def Uses (kept : String → Prop) (handle : Handle) (names : Bindings Handle) : Command → Prop
  | .run name => names.find? name = some handle
  | .clone _ copy => ¬kept copy
  | .drop name => ¬kept name
  | _ => False

/-- Every command does so, with the names that the commands before it leave. -/
def UsesAll (kept : String → Prop) (handle : Handle) : Bindings Handle → List Command → Prop
  | _, [] => True
  | names, command :: rest =>
    command.Uses kept handle names ∧ UsesAll kept handle (command.rename names) rest

def isRun : Command → Bool
  | .run _ => true
  | _ => false

theorem exists_of_isRun {command : Command} (h : command.isRun = true) :
    ∃ name, command = .run name := by
  cases command with
  | run name => exact ⟨name, rfl⟩
  | _ => exact nomatch h

/-- Names that are kept stand for what they stood for. -/
theorem Uses.find?_rename {kept : String → Prop} {handle : Handle} {names : Bindings Handle}
    {command : Command} (h : command.Uses kept handle names) {name : String} (hname : kept name) :
    (command.rename names).find? name = names.find? name := by
  cases command with
  | clone source copy =>
    have hne : copy ≠ name := fun heq => h (heq ▸ hname)
    rw [rename]
    cases names.find? source with
    | none => rfl
    | some other =>
      show (names.put copy other).find? name = _
      rw [Bindings.find?_put, if_neg hne]
  | drop dropped =>
    have hne : dropped ≠ name := fun heq => h (heq ▸ hname)
    exact names.find?_forget_of_ne hne
  | run _ => rfl
  | define | guard | inspect | setCell => exact h.elim

/-- Running the same name over and over uses the same handle. -/
theorem usesAll_replicate {kept : String → Prop} {handle : Handle} {names : Bindings Handle}
    {name : String} (h : names.find? name = some handle) (n : Nat) :
    UsesAll kept handle names (List.replicate n (.run name)) := by
  induction n with
  | zero => trivial
  | succ n ih => exact ⟨h, ih⟩

theorem countP_replicate_run (name : String) (n : Nat) :
    (List.replicate n (Command.run name)).countP isRun = n := by
  simp [List.countP_replicate, isRun]

theorem foldl_rename_replicate (names : Bindings Handle) (name : String) (n : Nat) :
    (List.replicate n (Command.run name)).foldl rename names = names := by
  induction n with
  | zero => rfl
  | succ n ih => exact ih

end Command

/-! ## Rows of runs -/

/-- How the effect ended that a command ran, if it ran one. -/
def Outcome.ended? : Except Panic Outcome → Option (Except Panic Value)
  | .ok (.value v) => some (.ok v)
  | .ok _ => none
  | .error q => some (.error q)

namespace Session

/-- Executes the commands one after the other, whether they panic or not, and yields how the effects
ended that they ran. -/
def runs (depth : Nat) : List Command → Computation Session (List (Except Panic Value))
  | [] => return []
  | command :: rest => do
    let o ← (execute depth command).attempt
    let os ← runs depth rest
    return (Outcome.ended? o).toList ++ os

variable {depth : Nat} {handle : Handle} {e : Effect Context Value} {s t : Session}
  {o : Except Panic Value} {os : List (Except Panic Value)}

/-! ### One command -/

/-- Running a name performs one invocation of its effect. -/
theorem halts_execute_run_iff {name : String} (he : s.find? name = some e)
    {r : Except Panic Outcome} :
    (execute depth (.run name)).Halts s (r, t) ↔
      ∃ o, (perform depth e.invoke).Halts s (o, t) ∧ r = o.map Outcome.value := by
  have hfound : (execute depth (.run name)).Halts s (r, t) ↔
      (perform depth e.invoke >>= fun v => pure (Outcome.value v)).Halts s (r, t) := by
    refine (halts_bind_ok_iff (halts_get s)).trans ?_
    rw [he]
  exact hfound.trans halts_bind_pure_iff

/-- A run of an effect is the first of the row. -/
theorem halts_runs_run_iff {name : String} (he : s.find? name = some e) {rest : List Command} :
    (runs depth (.run name :: rest)).Halts s (.ok os, t) ↔
      ∃ o os' u, os = o :: os' ∧ (perform depth e.invoke).Halts s (o, u) ∧
        (runs depth rest).Halts u (.ok os', t) := by
  have hended (o : Except Panic Value) : Outcome.ended? (o.map Outcome.value) = some o := by
    cases o <;> rfl
  constructor
  · intro h
    rcases halts_bind_iff.1 h with ⟨q, u, -, hend⟩ | ⟨r, u, hattempt, hrest⟩
    · exact nomatch hend
    · obtain ⟨r', u', hexecute, hr⟩ := halts_attempt_iff.1 hattempt
      cases hr
      obtain ⟨o, hrun, rfl⟩ := (halts_execute_run_iff he).1 hexecute
      obtain ⟨os', hrest, hos⟩ := halts_bind_pure_iff.1 hrest
      cases os' with
      | error q => exact nomatch hos
      | ok os' =>
        rw [hended o] at hos
        exact ⟨o, os', u, Except.ok.inj hos, hrun, hrest⟩
  · intro h
    obtain ⟨o, os', u, rfl, hrun, hrest⟩ := h
    have hexecute := (halts_execute_run_iff he).2 ⟨o, hrun, rfl⟩
    have hattempt := halts_attempt_iff.2 ⟨_, _, hexecute, rfl⟩
    refine (halts_bind_ok_iff hattempt).2 (halts_bind_pure_iff.2 ⟨.ok os', hrest, ?_⟩)
    rw [hended o]
    rfl

/-- What is done to other names runs nothing. -/
theorem resumes_runs_rename (depth : Nat) (s : Session) {kept : String → Prop} {command : Command}
    (h : command.Uses kept handle s.world.names) (hrun : command.isRun = false)
    (rest : List Command) :
    (runs depth (command :: rest)).Resumes s (runs depth rest)
      (s.withNames (command.rename s.world.names)) := by
  have hexecute : ∃ outcome, (execute depth command).Halts s
      (.ok outcome, s.withNames (command.rename s.world.names)) ∧
      Outcome.ended? (.ok outcome) = none := by
    cases command with
    | clone name copy =>
      cases hname : s.world.names.find? name with
      | some other =>
        refine ⟨.built, (halts_bind_ok_iff (halts_get s)).2 ?_, rfl⟩
        simp only [Command.rename, hname]
        exact ⟨0, rfl⟩
      | none =>
        refine ⟨.missing name, (halts_bind_ok_iff (halts_get s)).2 ?_, rfl⟩
        simp only [Command.rename, hname]
        exact halts_pure_iff.2 rfl
    | drop name => exact ⟨_, ⟨0, rfl⟩, rfl⟩
    | run name => exact nomatch hrun
    | define | guard | inspect | setCell => exact h.elim
  obtain ⟨outcome, hhalts, hended⟩ := hexecute
  refine (resumes_bind (halts_attempt_iff.2 ⟨_, _, hhalts, rfl⟩)).trans ?_
  rw [hended]
  exact .of_equiv (equiv_of_eq (bind_pure_eq (runs depth rest))) _

/-! ### Runs and references -/

/-- Running an effect and invoking it through its handle are the same; a reference is one call
deeper. -/
theorem halts_perform_reference_iff (he : s.defined[handle]? = some e) :
    (perform (depth + 1) (reference handle).invoke).Halts s (o, t) ↔
      (perform depth e.invoke).Halts s (o, t) := by
  rw [halts_perform_iff, halts_perform_iff]
  have hcall : (s.context (depth + 1)).call handle =
      e.invoke.onState (⟨·, call s.defined depth⟩) fun _ context => context.world := by
    show call s.defined (depth + 1) handle = _
    rw [call, he]
  constructor
  · intro h
    obtain ⟨c, hreference, rfl⟩ := h
    obtain ⟨w, hw, rfl⟩ := Action.halts_reference_iff.1 hreference
    rw [hcall] at hw
    obtain ⟨o', c, hinvoke, hend⟩ := halts_onState_iff.1 hw
    cases hend
    exact ⟨c, hinvoke, rfl⟩
  · intro h
    obtain ⟨c, hinvoke, rfl⟩ := h
    refine ⟨_, Action.halts_reference_iff.2 ⟨c.world, ?_, rfl⟩, rfl⟩
    rw [hcall]
    exact halts_onState_iff.2 ⟨o, c, hinvoke, rfl⟩

/-- Performing no invocations leaves the session alone. -/
theorem halts_perform_invocations_zero_iff {f : Effect Context Value} :
    (perform depth (f.invocations 0)).Halts s (.ok os, t) ↔ os = [] ∧ t = s := by
  rw [halts_perform_iff]
  constructor
  · intro h
    obtain ⟨c, hnone, rfl⟩ := h
    obtain ⟨hos, rfl⟩ := Prod.mk.inj (halts_pure_iff.1 hnone)
    exact ⟨Except.ok.inj hos, rfl⟩
  · intro h
    obtain ⟨rfl, rfl⟩ := h
    exact ⟨_, halts_pure_iff.2 rfl, rfl⟩

/-- A row of invocations through a handle goes on from the session that the first one leaves. -/
theorem halts_perform_invocations_succ_iff {n : Nat} :
    (perform depth ((reference handle).invocations (n + 1))).Halts s (.ok os, t) ↔
      ∃ o os' u, os = o :: os' ∧ (perform depth (reference handle).invoke).Halts s (o, u) ∧
        (perform depth ((reference handle).invocations n)).Halts u (.ok os', t) := by
  constructor
  · intro h
    obtain ⟨c, hrow, rfl⟩ := halts_perform_iff.1 h
    obtain ⟨o, os', d, hos, hfirst, hrest⟩ := Effect.halts_invocations_succ_iff.1 hrow
    obtain ⟨w, hw, rfl⟩ := Action.halts_reference_iff.1 hfirst
    exact ⟨o, os', { s with world := w }, hos, halts_perform_iff.2 ⟨_, hfirst, rfl⟩,
      halts_perform_iff.2 ⟨c, hrest, rfl⟩⟩
  · intro h
    obtain ⟨o, os', u, rfl, hperform, hperforms⟩ := h
    obtain ⟨d, hfirst, rfl⟩ := halts_perform_iff.1 hperform
    obtain ⟨w, -, rfl⟩ := Action.halts_reference_iff.1 hfirst
    obtain ⟨c, hrest, rfl⟩ := halts_perform_iff.1 hperforms
    exact halts_perform_iff.2
      ⟨c, Effect.halts_invocations_succ_iff.2 ⟨o, os', _, rfl, hfirst, hrest⟩, rfl⟩

/-- Other names make no difference to a run, if those are kept that the effects look up. -/
theorem halts_perform_withNames_iff (hs : p.Confines s.defined) (he : e ∈ s.defined)
    {names' : Bindings Handle}
    (hnames : ∀ name, p.effect name → s.world.names.find? name = names'.find? name) :
    (perform depth e.invoke).Halts (s.withNames names') (o, t) ↔
      ∃ u, (perform depth e.invoke).Halts s (o, u) ∧ t = u.withNames names' := by
  have hW := World.keepsEvents_renamed hnames
  have hcontexts : Context.Related (World.Renamed s.world.names names')
      (World.Renamed s.world.names names') (s.context depth)
      ((s.withNames names').context depth) := hs.related hW ⟨rfl, rfl⟩ depth
  obtain ⟨hforth, hback⟩ := hs _ hW e he _ _ hcontexts
  constructor
  · intro h
    obtain ⟨c', hinvoke, rfl⟩ := halts_perform_iff.1 h
    obtain ⟨o', c, hsame, hmatch, hrelated⟩ := hback o c' hinvoke
    obtain rfl := matches_eq_iff.1 hmatch.flip
    have hworld : c'.world = { c.world with names := names' } := hrelated.world.2
    refine ⟨{ s with world := c.world }, halts_perform_iff.2 ⟨c, hsame, rfl⟩, ?_⟩
    rw [hworld]
    rfl
  · intro h
    obtain ⟨u, hrun, rfl⟩ := h
    obtain ⟨c, hinvoke, rfl⟩ := halts_perform_iff.1 hrun
    obtain ⟨o', c', hsame, hmatch, hrelated⟩ := hforth o c hinvoke
    obtain rfl := matches_eq_iff.1 hmatch
    have hworld : c'.world = { c.world with names := names' } := hrelated.world.2
    refine halts_perform_iff.2 ⟨c', hsame, ?_⟩
    rw [hworld]
    rfl

/-- An effect that was defined leaves the names alone. -/
theorem names_eq_of_halts_perform (hs : p.Confines s.defined) (he : e ∈ s.defined)
    (h : (perform depth e.invoke).Halts s (o, t)) : t.world.names = s.world.names := by
  obtain ⟨u, -, rfl⟩ := (halts_perform_withNames_iff hs he fun _ _ => rfl).1 h
  rfl

/-! ### All commands -/

/-- Runs by whatever names of an effect are the row of its invocations. The induction is on the
commands; what they have done to the names so far is all that sets the session apart from the one in
which the effect is invoked. -/
theorem halts_runs_iff {names' : Bindings Handle} {commands : List Command}
    (hcommands : Command.UsesAll p.effect handle names' commands) (hs : p.Confines s.defined)
    (he : s.defined[handle]? = some e)
    (hnames : ∀ name, p.effect name → s.world.names.find? name = names'.find? name) :
    (runs depth commands).Halts (s.withNames names') (.ok os, t) ↔
      ∃ u, (perform (depth + 1)
          ((reference handle).invocations (commands.countP Command.isRun))).Halts s (.ok os, u) ∧
        t = u.withNames (commands.foldl Command.rename names') := by
  induction commands generalizing s names' os with
  | nil =>
    constructor
    · intro h
      cases halts_pure_iff.1 h
      exact ⟨s, halts_perform_invocations_zero_iff.2 ⟨rfl, rfl⟩, rfl⟩
    · intro h
      obtain ⟨u, hrow, rfl⟩ := h
      obtain ⟨rfl, rfl⟩ := halts_perform_invocations_zero_iff.1 hrow
      exact halts_pure_iff.2 rfl
  | cons command rest ih =>
    obtain ⟨hcommand, hrest⟩ := hcommands
    by_cases hrun : command.isRun
    · obtain ⟨name, rfl⟩ := Command.exists_of_isRun hrun
      have hfind : (s.withNames names').find? name = some e := by
        show (names'.find? name).bind (fun handle => s.defined[handle]?) = some e
        rw [show names'.find? name = some handle from hcommand]
        exact he
      have hmem : e ∈ s.defined := Array.mem_of_getElem? he
      rw [List.countP_cons_of_pos hrun, halts_runs_run_iff hfind]
      -- The rest is run from the session that the first run leaves.
      have hafter {o : Except Panic Value} {v : Session}
          (hv : (perform depth e.invoke).Halts s (o, v)) {os' : List (Except Panic Value)} :
          (runs depth rest).Halts (v.withNames names') (.ok os', t) ↔
            ∃ u, (perform (depth + 1) ((reference handle).invocations
                (rest.countP Command.isRun))).Halts v (.ok os', u) ∧
              t = u.withNames (rest.foldl Command.rename names') := by
        have hdefined := defined_eq_of_halts_perform hv
        refine ih hrest (hdefined ▸ hs) (hdefined ▸ he) ?_
        rw [names_eq_of_halts_perform hs hmem hv]
        exact hnames
      constructor
      · intro h
        obtain ⟨o, os', u', hos, hfirst, hothers⟩ := h
        obtain ⟨v, hv, rfl⟩ := (halts_perform_withNames_iff hs hmem hnames).1 hfirst
        obtain ⟨u, hrow, ht⟩ := (hafter hv).1 hothers
        exact ⟨u, halts_perform_invocations_succ_iff.2
          ⟨o, os', v, hos, (halts_perform_reference_iff he).2 hv, hrow⟩, ht⟩
      · intro h
        obtain ⟨u, hrow, ht⟩ := h
        obtain ⟨o, os', v, hos, hfirst, hothers⟩ := halts_perform_invocations_succ_iff.1 hrow
        have hv := (halts_perform_reference_iff he).1 hfirst
        exact ⟨o, os', v.withNames names', hos,
          (halts_perform_withNames_iff hs hmem hnames).2 ⟨v, hv, rfl⟩,
          (hafter hv).2 ⟨u, hothers, ht⟩⟩
    · have hskip := resumes_runs_rename depth (s.withNames names') hcommand
        (Bool.eq_false_iff.2 hrun) rest
      rw [List.countP_cons_of_neg hrun, hskip]
      refine ih hrest hs he fun name hname => ?_
      rw [hnames name hname, hcommand.find?_rename hname]

theorem names_eq_of_halts_invocations (hs : p.Confines s.defined)
    (he : s.defined[handle]? = some e) {n : Nat}
    (h : (perform (depth + 1) ((reference handle).invocations n)).Halts s (.ok os, t)) :
    t.world.names = s.world.names := by
  induction n generalizing s os with
  | zero =>
    obtain ⟨-, rfl⟩ := halts_perform_invocations_zero_iff.1 h
    rfl
  | succ n ih =>
    obtain ⟨o, os', u, -, hfirst, hrest⟩ := halts_perform_invocations_succ_iff.1 h
    have hrun := (halts_perform_reference_iff he).1 hfirst
    have hdefined := defined_eq_of_halts_perform hrun
    have hnames := names_eq_of_halts_perform hs (Array.mem_of_getElem? he) hrun
    exact (ih (hdefined ▸ hs) (hdefined ▸ he) hrest).trans hnames

/-- A row of runs by one name is a row of invocations through the handle. -/
theorem halts_runs_replicate_iff {name : String} (hs : p.Confines s.defined)
    (hname : s.world.names.find? name = some handle) (he : s.defined[handle]? = some e) (n : Nat) :
    (runs depth (List.replicate n (.run name))).Halts s (.ok os, t) ↔
      (perform (depth + 1) ((reference handle).invocations n)).Halts s (.ok os, t) := by
  have hruns : (runs depth (List.replicate n (.run name))).Halts s (.ok os, t) ↔ _ :=
    halts_runs_iff (Command.usesAll_replicate hname n) hs he fun _ _ => rfl
  rw [hruns, Command.foldl_rename_replicate, Command.countP_replicate_run]
  constructor
  · intro h
    obtain ⟨u, hrow, rfl⟩ := h
    rwa [← names_eq_of_halts_invocations hs he hrow]
  · intro h
    refine ⟨t, h, ?_⟩
    rw [← names_eq_of_halts_invocations hs he h]
    rfl

/-- Runs by whatever names are the runs by one of them. -/
theorem halts_runs_iff_replicate {name : String} {commands : List Command}
    (hs : p.Confines s.defined) (hname : s.world.names.find? name = some handle)
    (he : s.defined[handle]? = some e)
    (hcommands : Command.UsesAll p.effect handle s.world.names commands) :
    (runs depth commands).Halts s (.ok os, t) ↔
      ∃ u, (runs depth (List.replicate (commands.countP Command.isRun) (.run name))).Halts s
          (.ok os, u) ∧
        t = u.withNames (commands.foldl Command.rename s.world.names) := by
  have hruns : (runs depth commands).Halts s (.ok os, t) ↔ _ :=
    halts_runs_iff hcommands hs he fun _ _ => rfl
  simp only [hruns, halts_runs_replicate_iff hs hname he]

end Session

/-! ## Sharing -/

/-- Building a reference only looks the name up. -/
theorem Term.halts_build_ref {name : String} {handle : Handle} {c : Context}
    (h : c.world.names.find? name = some handle) (env : Env) :
    ((Term.ref name).build env).Halts c (.ok (reference handle), c) := by
  have hworld : Action.world.Halts c (.ok c.world, c) := ⟨0, rfl⟩
  have hresolve : (Action.resolve name).Halts c (.ok handle, c) := by
    refine (halts_bind_ok_iff hworld).2 ?_
    rw [h]
    exact halts_pure_iff.2 rfl
  exact (halts_bind_ok_iff hresolve).2 (halts_pure_iff.2 rfl)

/-- What it means that handles share their effect and that no invocation of it is remembered but in
the state. -/
structure ClonesShare : Prop where
  /-- A program that refers to a name gets a reference to the handle, and a clone of an effect is
  the effect. -/
  references {name : String} {handle : Handle} {c : Context}
    (hname : c.world.names.find? name = some handle) (env : Env) :
    ((Term.ref name).build env).Halts c (.ok (reference handle), c)
  clones (env : Env) (e : Term .deferred) : (Term.clone e).build env = e.build env
  /-- All effects of a session are confined by what its commands mention. -/
  confined {p : Permit} {depth : Nat} {listening : Bool} {cells : Bindings Expr}
    {commands : List Command} (h : ∀ command ∈ commands, p.Covers fun m => command.Mentions m)
    {s t : Session} {o : Except Panic (List Report)}
    (hrun : (Session.transcript depth listening cells commands).Halts s (o, t)) :
    p.Confines t.defined
  /-- Runs by any names of an effect end one by one as runs by one name of it, whatever happens in
  between to names that no effect looks up. Only these names differ in the end. -/
  handles {p : Permit} {s : Session} (hs : p.Confines s.defined) {name : String} {handle : Handle}
    (hname : s.world.names.find? name = some handle) {e : Effect Context Value}
    (he : s.defined[handle]? = some e) {commands : List Command}
    (hcommands : Command.UsesAll p.effect handle s.world.names commands) {depth : Nat}
    {os : List (Except Panic Value)} {t : Session} :
    (Session.runs depth commands).Halts s (.ok os, t) ↔
      ∃ u, (Session.runs depth
          (List.replicate (commands.countP Command.isRun) (.run name))).Halts s (.ok os, u) ∧
        t = u.withNames (commands.foldl Command.rename s.world.names)
  /-- Runs of an effect are invocations of references to it. -/
  runs {p : Permit} {s : Session} (hs : p.Confines s.defined) {name : String} {handle : Handle}
    (hname : s.world.names.find? name = some handle) {e : Effect Context Value}
    (he : s.defined[handle]? = some e) {n depth : Nat} {os : List (Except Panic Value)}
    {t : Session} :
    (Session.runs depth (List.replicate n (.run name))).Halts s (.ok os, t) ↔
      ∃ c, ((reference handle).invocations n).Halts (s.context (depth + 1)) (.ok os, c) ∧
        t = { s with world := c.world }
  /-- Invocations that all yield values add to the trace one after the other. -/
  calls {p : Permit} {s : Session} (hs : p.Confines s.defined) {handle : Handle} {depth : Nat}
    {vs : List Value} {d : Context} :
    ((reference handle).invocations vs.length).Halts (s.context depth) (.ok (vs.map .ok), d) ↔
      ∃ traces, Calls handle vs traces (s.context depth) d ∧
        d.world.trace = s.world.trace ++ Entry.concat traces
  /-- A loop over a range with the effect as its body makes as many calls as there are indices. -/
  forRange {p : Permit} {s : Session} (hs : p.Confines s.defined) (handle : Handle) (depth : Nat)
    {n : Fixed .i32} (hn : 0 ≤ n.val) :
    Repeats handle n.val.toNat (s.world.heard (.loopStarted false (.forRange 0 n.val)))
      (Effect.forRange .zero n fun _ => return reference handle) (s.context depth)
  /-- A loop over items makes as many calls as there are items. -/
  forItems {p : Permit} {s : Session} (hs : p.Confines s.defined) (handle : Handle) (depth : Nat)
    {α : Type} (items : List α) :
    Repeats handle items.length (s.world.heard (.loopStarted false (.forEach items.length)))
      (Effect.forItems items fun _ => return reference handle) (s.context depth)
  /-- A loop over a source is the loop over the items that it takes when it is made. -/
  forEach (handle : Handle) {α : Type} (source : List (Action α)) :
    Effect.MadeOfItems source (Effect.forItems · fun _ => return reference handle)
      (Effect.forEach source fun _ => return reference handle)
  /-- Sequencing the effect with itself link by link makes a chain of it. -/
  links (handle : Handle) (n : Nat) : Effect.Chain (reference handle) (n + 1)
    (Nat.repeat (fun f => f.andThen (reference handle)) n (reference handle))
  /-- A chain of the effect makes as many calls as it has links. -/
  chain {p : Permit} {s : Session} (hs : p.Confines s.defined) (handle : Handle) (depth : Nat)
    {n : Nat} {f : Effect Context Value} (hf : Effect.Chain (reference handle) n f) :
    Repeats handle n #[] f (s.context depth)

/-- Clones and names of an effect share it, and every use is a call of its own. -/
theorem clones_share : ClonesShare where
  references := Term.halts_build_ref
  clones _ _ := rfl
  confined := Session.confines_of_halts_transcript
  handles hs _ _ hname _ he _ hcommands _ _ _ :=
    Session.halts_runs_iff_replicate hs hname he hcommands
  runs hs _ _ hname _ he n _ _ _ :=
    (Session.halts_runs_replicate_iff hs hname he n).trans Session.halts_perform_iff
  calls hs _ _ _ _ := by
    constructor
    · intro h
      obtain ⟨traces, hcalls⟩ := Calls.of_halts_invocations hs rfl h
      exact ⟨traces, hcalls, hcalls.trace_eq⟩
    · intro h
      obtain ⟨traces, hcalls, -⟩ := h
      exact hcalls.halts_invocations
  forRange {_ s} hs _ depth _ hn := repeats_forRange (c := s.context depth) hs rfl hn
  forItems {_ s} hs _ depth _ items := repeats_forItems (c := s.context depth) hs rfl items
  forEach _ _ source := Effect.madeOfItems source _
  links handle := Effect.chain_repeat (reference handle)
  chain hs _ _ _ _ hf := repeats_chain hs rfl hf

/-- An effect whose every invocation yields and records another item, and one that does nothing. -/
def takeNext : List Command :=
  [.define "a" (.script (.const (.str "took")) (.const (.list [.int 1, .int 2, .int 3]))),
    .define "z" .unit]

/-- Runs the first effect by its name, by that of a clone and by that of a clone of the clone. By
the last run one of the other names is gone and one stands for the other effect. -/
def handOver : List Command :=
  [.run "a", .clone "a" "b", .run "b", .clone "b" "c", .drop "a", .clone "z" "b", .run "c"]

/-- The session after the definitions, its names being used in turn; a loop of three turns; and a
loop over three items, made in the same session. -/
theorem clones_share_handOver : ∃ reports s t u,
    (Session.transcript 0 true [] takeNext).Halts ⟨World.initial true, #[]⟩ (.ok reports, s) ∧
      Command.UsesAll (fun _ => False) 0 s.world.names handOver ∧
      (Session.runs 0 handOver).Halts s (.ok [.ok (.int 1), .ok (.int 2), .ok (.int 3)], t) ∧
      (Session.runs 0 (List.replicate 3 (.run "a"))).Halts s
        (.ok [.ok (.int 1), .ok (.int 2), .ok (.int 3)], u) ∧
      t = u.withNames [("z", 1), ("b", 1), ("c", 0)] ∧
      (Effect.forRange .zero ⟨3, by decide, by decide⟩ fun _ => return reference 0).invoke.Halts
        (s.context 1) (.ok (), ⟨{ u.world with
          trace := #[.event (.loopStarted false (.forRange 0 3))] ++ u.world.trace },
          Session.call s.defined 1⟩) ∧
      ∃ loop : Effect Context Unit,
        (Effect.forEach (["x", "y", "z"].map Pure.pure) fun _ => return reference 0).Halts
          (s.context 1) (.ok loop, s.context 1) ∧
        loop.invoke.Halts (s.context 1) (.ok (), ⟨{ u.world with
          trace := #[.event (.loopStarted false (.forEach 3))] ++ u.world.trace },
          Session.call s.defined 1⟩) := by
  have hstart : ∃ reports s e u,
      (Session.transcript 0 true [] takeNext).Halts ⟨World.initial true, #[]⟩ (.ok reports, s) ∧
      s.world = ⟨#[], [], #[0], [("a", 0), ("z", 1)], true⟩ ∧ s.defined[0]? = some e ∧
      (Session.runs 0 (List.replicate 3 (.run "a"))).Halts s
        (.ok [.ok (.int 1), .ok (.int 2), .ok (.int 3)], u) :=
    ⟨_, _, _, _, ⟨0, rfl⟩, rfl, rfl, ⟨0, rfl⟩⟩
  obtain ⟨reports, s, e, u, htranscript, hworld, he, hruns⟩ := hstart
  -- The programs mention nothing, so they look no names up.
  have hs : Permit.Confines ⟨fun _ => False, fun _ => False⟩ s.defined := by
    refine clones_share.confined (List.forall_mem_cons.2 ⟨fun m hm => ?_, ?_⟩) htranscript
    · exact (hm.elim id id : False).elim
    · exact List.forall_mem_singleton.2 fun m hm => False.elim hm
  have hname : s.world.names.find? "a" = some 0 := by rw [hworld]; rfl
  have huses : Command.UsesAll (fun _ => False) 0 s.world.names handOver := by
    rw [hworld]
    exact ⟨rfl, id, rfl, id, id, id, rfl, trivial⟩
  have hends := (clones_share.handles hs hname he huses).2 ⟨u, hruns, rfl⟩
  have hnames : handOver.foldl Command.rename s.world.names = [("z", 1), ("b", 1), ("c", 0)] := by
    rw [hworld]
    rfl
  rw [hnames] at hends
  obtain ⟨d, hrow, rfl⟩ := (clones_share.runs hs hname he).1 hruns
  have hvalues : ((reference 0).invocations [Value.int 1, .int 2, .int 3].length).Halts
      (s.context 1) (.ok ([Value.int 1, .int 2, .int 3].map .ok), d) := hrow
  obtain ⟨traces, hcalls, htrace⟩ := (clones_share.calls hs).1 hvalues
  have hadded : d.world.trace = Entry.concat traces := by
    rw [htrace, hworld]
    exact Array.empty_append
  -- Both loops leave the session of the runs, with their own event before the trace.
  have hstate : ∀ event, d.withTrace ((s.context 1).world.trace ++ s.world.heard event ++
      Entry.concat traces) =
      ⟨{ d.world with trace := #[.event event] ++ d.world.trace }, Session.call s.defined 1⟩ := by
    intro event
    have hempty : (s.context 1).world.trace = #[] := congrArg World.trace hworld
    have hheard : s.world.heard event = #[.event event] := by
      rw [hworld]
      rfl
    rw [hempty, hheard, hadded, Array.empty_append]
    exact congrArg (Context.mk _) hcalls.call_eq
  have hthree : (0 : Int) ≤ (⟨3, by decide, by decide⟩ : Fixed .i32).val := by decide
  obtain ⟨_, hrange⟩ := (clones_share.forRange hs 0 1 hthree).returned hcalls rfl
  obtain ⟨_, hitems⟩ := (clones_share.forItems hs 0 1 ["x", "y", "z"]).returned hcalls rfl
  have hmade := (clones_share.forEach 0 (["x", "y", "z"].map Pure.pure)).given rfl (s.context 1)
  refine ⟨reports, s, _, _, htranscript, huses, hends, hruns, rfl, ?_, _, hmade, ?_⟩
  · rw [← hstate]
    exact hrange
  · rw [← hstate]
    exact hitems

end Deferred
