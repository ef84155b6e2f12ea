import Deferred.Proofs.Observation
import Deferred.Proofs.Program.Construction
import Deferred.Session

/-!
# Making, sharing and showing effects

An effect does nothing before it is invoked. Building one shows `Term.visible` and no more, and
giving it a second name, showing it or forgetting its name changes names alone.
-/

namespace Deferred

open Deferred.Computation

namespace Session

/-! ## Commands that touch names alone -/

/-- The session with other names. -/
def withNames (names : Bindings Handle) (s : Session) : Session :=
  { s with world := { s.world with names := names } }

theorem halts_get (s : Session) : (get : Computation Session Session).Halts s (.ok s, s) :=
  ⟨0, rfl⟩

/-- To inspect an effect leaves the session as it is. -/
theorem halts_inspect (depth : Nat) (name : String) (s : Session) :
    ∃ o, (execute depth (.inspect name)).Halts s (.ok o, s) := by
  cases h : s.find? name with
  | some e =>
    refine ⟨.shown "Effect(<deferred>)", (halts_bind_ok_iff (halts_get s)).2 ?_⟩
    simp only [h]
    exact halts_pure_iff.2 rfl
  | none =>
    refine ⟨.missing name, (halts_bind_ok_iff (halts_get s)).2 ?_⟩
    simp only [h]
    exact halts_pure_iff.2 rfl

/-- To clone one touches names only. -/
theorem halts_clone (depth : Nat) (name copy : String) (s : Session) :
    ∃ o names, (execute depth (.clone name copy)).Halts s (.ok o, s.withNames names) := by
  cases h : s.world.names.find? name with
  | some handle =>
    refine ⟨.built, s.world.names.put copy handle, (halts_bind_ok_iff (halts_get s)).2 ?_⟩
    simp only [h]
    exact ⟨0, rfl⟩
  | none =>
    refine ⟨.missing name, s.world.names, (halts_bind_ok_iff (halts_get s)).2 ?_⟩
    simp only [h]
    exact halts_pure_iff.2 rfl

/-- To drop one forgets its name only. -/
theorem halts_drop (depth : Nat) (name : String) (s : Session) :
    ∃ o, (execute depth (.drop name)).Halts s (.ok o, s.withNames (s.world.names.forget name)) :=
  ⟨_, 0, rfl⟩

end Session

/-! ## Construction is inert -/

/-- Building a settled term ends, and it ends as the visible part of the term does: no effect is
invoked, no function body applied, no event told, no cell changed and no script moved on. Cloning
an effect, showing it and dropping its name change names alone. -/
theorem construction_inert :
    (∀ (t : Term .deferred) (env : Env) (c : Context), t.Settled c.world.names env →
      ∃ r c', (t.build env).Halts c (r, c') ∧
        (t.visible env).Halts c (r.map fun _ => (), c') ∧ c.Grew c') ∧
    (∀ (depth : Nat) (command : Command) (s : Session) (name copy : String),
      command ∈ [.clone name copy, .inspect name, .drop name] →
      ∃ o names, (Session.execute depth command).Halts s (.ok o, s.withNames names)) := by
  constructor
  · intro t env c h
    obtain ⟨r, c', hbuild, hvisible, hgrew⟩ := t.shows_build rfl env h 0 c rfl
    exact ⟨r, c', ⟨0, hbuild⟩, ⟨0, hvisible⟩, hgrew⟩
  · intro depth command s name copy h
    simp only [List.mem_cons, List.not_mem_nil, or_false] at h
    rcases h with rfl | rfl | rfl
    · exact s.halts_clone depth name copy
    · obtain ⟨o, h⟩ := s.halts_inspect depth name
      exact ⟨o, s.world.names, h⟩
    · obtain ⟨o, h⟩ := s.halts_drop depth name
      exact ⟨o, _, h⟩

/-- A block that records while it names a value and ends in no copies of a loop whose items are
recorded when they are taken. -/
def noCopiesOfLoop : Term .deferred :=
  .block [.letIn "x" (.tap (.const (.str "let")) (.const (.int 1)))] <|
    .combineN .string (.forEach (.recorded (.var "x") (.const (.list [.int 2, .int 3]))) "i"
      (.fail .literal (.const (.str "applied")))) 0

theorem construction_inert_noCopiesOfLoop :
    ∃ c', noCopiesOfLoop.Settled [] [] ∧
      (noCopiesOfLoop.build []).Halts ⟨World.initial true, fun _ => .never⟩
        (.error Semigroup.countPanic, c') ∧
      c'.world.trace = #[.value (.str "let"), .value (.pair (.int 1) (.int 2)),
        .value (.pair (.int 1) (.int 3))] ∧
      Context.Grew ⟨World.initial true, fun _ => .never⟩ c' := by
  have hsettled : noCopiesOfLoop.Settled [] [] := by
    rintro v ⟨c, c', n, h⟩
    cases h
    exact ⟨.int 1, [.int 2, .int 3], rfl, rfl⟩
  obtain ⟨r, c', hbuild, hvisible, hgrew⟩ :=
    construction_inert.1 noCopiesOfLoop [] ⟨World.initial true, fun _ => .never⟩ hsettled
  have hends : (noCopiesOfLoop.visible []).Halts ⟨World.initial true, fun _ => .never⟩
      (.error Semigroup.countPanic, Context.grow ⟨World.initial true, fun _ => .never⟩
        [.str "let", .pair (.int 1) (.int 2), .pair (.int 1) (.int 3)] 0) := ⟨0, rfl⟩
  cases r with
  | ok e => exact nomatch halts_unique hvisible hends
  | error p =>
    cases halts_unique hvisible hends
    exact ⟨_, hsettled, hbuild, rfl, hgrew⟩

end Deferred
