import Deferred.Proofs.LoopsIterate
import Deferred.Proofs.Program.Mentions

/-!
# Programs do not see what a relation between worlds leaves open

A relation between worlds says what they have in common. If everything that a program may do keeps
the relation, then the program goes the same way from related worlds: it computes the same values
and leaves related worlds (`Term.builds`).

What a program may do is a `Permit`: the effects that it looks up by their names, and the events
that it tells of. `Permit.Keeps` has a clause for every access to the world, and
`Permit.KeepsEvents` one for events, which only invocations tell of. So there are two relations: one
between the worlds in which a term is built, which events need not keep, and one between the worlds
in which the effect that was built is invoked.
-/

namespace Deferred

open Deferred.Computation

variable {α β γ : Type}

/-! ## What a program may do -/

/-- The effects that a program may look up by their names, and the events that it may tell of. -/
structure Permit where
  effect : String → Prop
  event : Event → Prop

namespace Permit

/-- Names of the scope are free. -/
def Allows (p : Permit) : Mention → Prop
  | .var _ => True
  | .effect name => p.effect name
  | .event event => p.event event

/-- All that is mentioned is allowed. -/
def Covers (p : Permit) (mentions : Mention → Prop) : Prop := ∀ m, mentions m → p.Allows m

section

variable {p : Permit} {A B : Mention → Prop}

theorem Covers.left (h : p.Covers fun m => A m ∨ B m) : p.Covers A := fun m hm => h m (.inl hm)

theorem Covers.right (h : p.Covers fun m => A m ∨ B m) : p.Covers B := fun m hm => h m (.inr hm)

/-- What is mentioned under a binder and is no name of the scope is mentioned outside too. -/
theorem Covers.under {bound : List String} (h : p.Covers fun m => A m ∧ m.Outside bound) :
    p.Covers A
  | .var _, _ => trivial
  | .effect _, hm => h _ ⟨hm, nofun⟩
  | .event _, hm => h _ ⟨hm, nofun⟩

end

/-- Accesses to related worlds answer alike and leave related worlds. -/
structure Keeps (p : Permit) (W : World → World → Prop) : Prop where
  cells {w v : World} (h : W w v) : w.cells = v.cells
  positions {w v : World} (h : W w v) : w.positions = v.positions
  names {w v : World} (h : W w v) {name : String} (hname : p.effect name) :
    w.names.find? name = v.names.find? name
  record {w v : World} (h : W w v) (value : Value) :
    W (w.push (.value value)) (v.push (.value value))
  setCells {w v : World} (h : W w v) (cells : Bindings Value) :
    W { w with cells := cells } { v with cells := cells }
  setPositions {w v : World} (h : W w v) (positions : Array Nat) :
    W { w with positions := positions } { v with positions := positions }

/-- Telling related worlds of an event leaves related worlds as well. -/
structure KeepsEvents (p : Permit) (W : World → World → Prop) : Prop extends p.Keeps W where
  emit {w v : World} (h : W w v) {event : Event} (hevent : p.event event) :
    W (Tracer.emit event w) (Tracer.emit event v)

end Permit

/-- The worlds are related by `V`, and what a handle stands for goes the same way in both contexts,
and alike from worlds that `W` relates. -/
structure Context.Related (V W : World → World → Prop) (c d : Context) : Prop where
  world : V c.world d.world
  call_eq : c.call = d.call
  respects (handle : Handle) : (c.call handle).Respects W

/-! ## Computations that go the same way -/

namespace Computation

variable {σ : Type} {S : σ → σ → Prop} {P : α → Prop} {Q : β → Prop}

/-- From states that `S` relates `x` ends alike, and what it yields has the property `P`. -/
def Assures (S : σ → σ → Prop) (P : α → Prop) (x : Computation σ α) : Prop :=
  Alike S (fun a b => a = b ∧ P a) x x

theorem assures_pure {a : α} (h : P a) : Assures S P (pure a) := alike_pure ⟨rfl, h⟩

theorem Assures.bind {x : Computation σ α} {f : α → Computation σ β} (h : Assures S P x)
    (hf : ∀ a, P a → Assures S Q (f a)) : Assures S Q (x >>= f) := by
  refine Alike.bind h fun a b hab => ?_
  obtain ⟨rfl, ha⟩ := hab
  exact hf a ha

/-- The values of `x` need no property. -/
theorem Respects.assures_bind {x : Computation σ α} {f : α → Computation σ β} (h : x.Respects S)
    (hf : ∀ a, Assures S Q (f a)) : Assures S Q (x >>= f) :=
  Alike.bind_eq h hf

theorem Respects.assures {x : Computation σ α} (h : x.Respects S) (hP : ∀ a, P a) :
    Assures S P x := by
  rw [← bind_pure_eq x]
  exact h.assures_bind fun a => assures_pure (hP a)

/-- A sequence respects a relation if its parts do. -/
theorem Respects.bind {x : Computation σ α} {f : α → Computation σ β} (h : x.Respects S)
    (hf : ∀ a, (f a).Respects S) : (x >>= f).Respects S :=
  Alike.bind_eq h hf

/-- What is assured of a value may be used in what follows it. -/
theorem Assures.respects_bind {x : Computation σ α} {f : α → Computation σ β} (h : Assures S P x)
    (hf : ∀ a, P a → (f a).Respects S) : (x >>= f).Respects S := by
  refine Alike.bind h fun a b hab => ?_
  obtain ⟨rfl, ha⟩ := hab
  exact hf a ha

theorem respects_pure (a : α) : (pure a : Computation σ α).Respects S := alike_pure rfl

theorem respects_lift (r : Except Panic α) : (liftM r : Computation σ α).Respects S := alike_lift r

theorem respects_throw (p : Panic) : (throw p : Computation σ α).Respects S := alike_panic p

end Computation

/-! ## Accesses to the world -/

namespace Action

variable {p : Permit} {V W : World → World → Prop}

/-- Changing related worlds alike is seen by nobody. -/
theorem respects_changeWorld {f : World → World} (h : ∀ w v, V w v → V (f w) (f v)) :
    (changeWorld f).Respects (Context.Related V W) :=
  alike_update fun _ _ hcd => ⟨rfl, h _ _ hcd.world, hcd.call_eq, hcd.respects⟩

theorem alike_world : Alike (Context.Related V W) V world world :=
  alike_get.bind fun _ _ hcd => alike_pure hcd.world

theorem respects_record (hV : p.Keeps V) (v : Value) :
    (record v).Respects (Context.Related V W) :=
  respects_changeWorld fun _ _ h => hV.record h v

theorem respects_recordUnlessUnit (hV : p.Keeps V) (v : Value) :
    (recordUnlessUnit v).Respects (Context.Related V W) := by
  cases v with
  | unit => exact respects_pure ()
  | _ => exact respects_record hV _

/-- A cell holds the same on both sides. -/
theorem respects_readCell (hV : p.Keeps V) (name : String) :
    (readCell name).Respects (Context.Related V W) := by
  refine alike_world.bind fun w v hwv => ?_
  rw [hV.cells hwv]
  cases v.cells.find? name with
  | some a => exact alike_pure rfl
  | none => exact alike_panic _

theorem respects_writeCell (hV : p.Keeps V) (name : String) (v : Value) :
    (writeCell name v).Respects (Context.Related V W) := by
  refine respects_changeWorld fun w w' h => ?_
  rw [hV.cells h]
  exact hV.setCells h _

theorem respects_newScript (hV : p.Keeps V) : newScript.Respects (Context.Related V W) := by
  refine alike_world.bind fun w v hwv => ?_
  rw [hV.positions hwv]
  refine Respects.bind (respects_changeWorld fun w w' h => ?_) fun _ => respects_pure _
  rw [hV.positions h]
  exact hV.setPositions h _

theorem respects_takeItem (hV : p.Keeps V) (id : ScriptId) (label : Value) (items : List Value) :
    (takeItem id label items).Respects (Context.Related V W) := by
  refine alike_world.bind fun w v hwv => ?_
  rw [hV.positions hwv]
  dsimp only
  cases items[v.positions.getD id 0]? with
  | none => exact alike_panic _
  | some item =>
    refine Respects.bind (respects_changeWorld fun w w' h => ?_) fun _ => ?_
    · rw [hV.positions h]
      exact hV.setPositions h _
    · by_cases hlabel : label = .unit
      · rw [if_pos hlabel]
        exact respects_pure item
      · rw [if_neg hlabel]
        exact Respects.bind (respects_record hV _) fun _ => respects_pure item

/-- A permitted name stands for the same handle on both sides. -/
theorem respects_resolve (hV : p.Keeps V) {name : String} (hname : p.effect name) :
    (resolve name).Respects (Context.Related V W) := by
  refine alike_world.bind fun w v hwv => ?_
  rw [hV.names hwv hname]
  cases v.names.find? name with
  | some handle => exact alike_pure rfl
  | none => exact alike_panic _

/-- Both contexts call the same computation, which sees no more than the relation does. -/
theorem respects_invoke (handle : Handle) : (invoke handle).Respects (Context.Related W W) := by
  refine alike_get.bind fun c d hcd => ?_
  rw [← hcd.call_eq]
  refine Alike.onState (hcd.respects handle) (fun _ _ h => h.world) ?_
  intro _ _ _ _ h hworld
  exact ⟨hworld, h.call_eq, h.respects⟩

/-- A permitted event keeps the two sides related. -/
theorem respects_emit (hW : p.KeepsEvents W) {event : Event} (hevent : p.event event) :
    (emit event : Action Unit).Respects (Context.Related W W) :=
  alike_update fun _ _ hcd => ⟨rfl, hW.emit hcd.world hevent, hcd.call_eq, hcd.respects⟩

end Action

/-! ## Expressions -/

namespace Expr

open Deferred.Action

variable {p : Permit} {V W : World → World → Prop}

mutual

/-- An expression evaluates the same on both sides. -/
theorem respects_eval (hV : p.Keeps V) (env : Env) (x : Expr) :
    (x.eval env).Respects (Context.Related V W) := by
  match x with
  | .const v => exact respects_pure v
  | .list items => exact Respects.bind (respects_evalAll hV env items) fun _ => respects_pure _
  | .pair x y =>
    exact Respects.bind (x.respects_eval hV env) fun _ =>
      Respects.bind (y.respects_eval hV env) fun _ => respects_pure _
  | .tagged tag x => exact Respects.bind (x.respects_eval hV env) fun _ => respects_pure _
  | .var name =>
    rw [eval]
    cases env.find? name with
    | some v => exact respects_pure v
    | none => exact respects_throw _
  | .cell name => exact respects_readCell hV name
  | .fst x | .snd x | .not x | .len x =>
    exact Respects.bind (x.respects_eval hV env) fun _ =>
      Respects.bind (respects_lift _) fun _ => respects_pure _
  | .intOp op x y =>
    exact Respects.bind (x.respects_eval hV env) fun _ => Respects.bind (respects_lift _) fun _ =>
      Respects.bind (y.respects_eval hV env) fun _ => Respects.bind (respects_lift _) fun _ =>
      respects_lift _
  | .eq x y =>
    exact Respects.bind (x.respects_eval hV env) fun _ =>
      Respects.bind (y.respects_eval hV env) fun _ => respects_pure _
  | .cond test yes no =>
    refine Respects.bind (test.respects_eval hV env) fun _ =>
      Respects.bind (respects_lift _) fun holds => ?_
    cases holds with
    | true => exact yes.respects_eval hV env
    | false => exact no.respects_eval hV env
  | .letIn name x body =>
    exact Respects.bind (x.respects_eval hV env) fun v => body.respects_eval hV (env.bind name v)
  | .concat x y | .append x y | .range x y =>
    exact Respects.bind (x.respects_eval hV env) fun _ => Respects.bind (respects_lift _) fun _ =>
      Respects.bind (y.respects_eval hV env) fun _ => Respects.bind (respects_lift _) fun _ =>
      respects_pure _
  | .tap x y =>
    exact Respects.bind (x.respects_eval hV env) fun v =>
      Respects.bind (respects_recordUnlessUnit hV v) fun _ => y.respects_eval hV env
  | .fail kind x =>
    exact Respects.bind (x.respects_eval hV env) fun _ => Respects.bind (respects_lift _) fun _ =>
      respects_throw _
termination_by structural x

theorem respects_evalAll (hV : p.Keeps V) (env : Env) (xs : List Expr) :
    (evalAll env xs).Respects (Context.Related V W) := by
  match xs with
  | [] => exact respects_pure []
  | x :: xs =>
    exact Respects.bind (x.respects_eval hV env) fun _ =>
      Respects.bind (respects_evalAll hV env xs) fun _ => respects_pure _
termination_by structural xs

end

end Expr

/-- The steps that take a source's items go the same way. -/
theorem Source.assures_steps {p : Permit} {V W : World → World → Prop} (hV : p.Keeps V) (env : Env)
    (source : Source) :
    Assures (Context.Related V W) (fun steps => ∀ step ∈ steps, step.Respects (Context.Related V W))
      (source.steps env) := by
  cases source with
  | items list =>
    refine Respects.assures_bind (list.respects_eval hV env) fun v =>
      Respects.assures_bind (respects_lift _) fun items => assures_pure fun step hstep => ?_
    obtain ⟨item, -, rfl⟩ := List.mem_map.1 hstep
    exact respects_pure item
  | recorded label list =>
    refine Respects.assures_bind (label.respects_eval hV env) fun label =>
      Respects.assures_bind (list.respects_eval hV env) fun v =>
      Respects.assures_bind (respects_lift _) fun items => assures_pure fun step hstep => ?_
    obtain ⟨item, -, rfl⟩ := List.mem_map.1 hstep
    exact Respects.bind (Action.respects_record hV _) fun _ => respects_pure item

theorem respects_mapM {σ : Type} {S : σ → σ → Prop} {steps : List (Computation σ α)}
    (h : ∀ step ∈ steps, step.Respects S) : (steps.mapM id).Respects S := by
  induction steps with
  | nil => exact respects_pure []
  | cons step steps ih =>
    rw [List.mapM_cons]
    exact Respects.bind (h step List.mem_cons_self) fun _ =>
      Respects.bind (ih fun step hstep => h step (List.mem_cons_of_mem _ hstep)) fun _ =>
        respects_pure _

/-! ## Results of a mode -/

/-- A result goes the same way whenever it is used: an effect is invoked, from states that `S`
relates. -/
def Mode.Sound (S : Context → Context → Prop) : (mode : Mode) → {α : Type} → mode.Carrier α → Prop
  | .deferred, _, e => e.invoke.Respects S
  | .immediate, _, _ => True

/-- How the worlds are related in which functions are applied: effects apply them when they are
invoked, and values while they are built. -/
def Mode.during (V W : World → World → Prop) : Mode → World → World → Prop
  | .deferred => W
  | .immediate => V

/-- What builds a result goes the same way, and so does the result. -/
def Mode.Builds (V W : World → World → Prop) (mode : Mode) {α : Type}
    (x : Action (mode.Carrier α)) : Prop :=
  Assures (Context.Related V W) (mode.Sound (Context.Related W W)) x

theorem Permit.Keeps.during {p : Permit} {V W : World → World → Prop} (hV : p.Keeps V)
    (hW : p.Keeps W) (mode : Mode) : p.Keeps (mode.during V W) := by
  cases mode with
  | deferred => exact hW
  | immediate => exact hV

section

variable {mode : Mode} {V W : World → World → Prop}

theorem sound_pure (a : α) :
    mode.Sound (Context.Related W W) (Sequencing.pure Context a : mode.Carrier α) := by
  cases mode with
  | deferred => exact respects_pure a
  | immediate => exact trivial

theorem builds_pure (a : α) :
    mode.Builds V W (return (Sequencing.pure Context a : mode.Carrier α)) :=
  assures_pure (sound_pure a)

/-- Mapping keeps the two sides related. -/
theorem builds_map {e : mode.Carrier α} (he : mode.Sound (Context.Related W W) e)
    {f : α → Action β} (hf : ∀ a, (f a).Respects (Context.Related (mode.during V W) W)) :
    mode.Builds V W (Sequencing.map e f : Action (mode.Carrier β)) := by
  cases mode with
  | deferred => exact assures_pure (Respects.bind he hf)
  | immediate => exact Respects.assures_bind (hf e.value) fun b => assures_pure trivial

theorem builds_map2 {e : mode.Carrier α} {d : mode.Carrier β}
    (he : mode.Sound (Context.Related W W) e) (hd : mode.Sound (Context.Related W W) d)
    {f : α → β → Action γ} (hf : ∀ a b, (f a b).Respects (Context.Related (mode.during V W) W)) :
    mode.Builds V W (Sequencing.map2 e d f : Action (mode.Carrier γ)) := by
  cases mode with
  | deferred =>
    exact assures_pure (Respects.bind he fun a => Respects.bind hd fun b => hf a b)
  | immediate => exact Respects.assures_bind (hf e.value d.value) fun c => assures_pure trivial

/-- A continuation keeps them related if it builds what is sound. -/
theorem builds_bind {e : mode.Carrier α} (he : mode.Sound (Context.Related W W) e)
    {f : α → Action (mode.Carrier β)} (hf : ∀ a, mode.Builds (mode.during V W) W (f a)) :
    mode.Builds V W (Sequencing.bind e f : Action (mode.Carrier β)) := by
  cases mode with
  | deferred =>
    exact assures_pure (Respects.bind he fun a => Assures.respects_bind (hf a) fun _ hd => hd)
  | immediate => exact hf e.value

theorem builds_mapViaBind {e : mode.Carrier α} (he : mode.Sound (Context.Related W W) e)
    {f : α → Action β} (hf : ∀ a, (f a).Respects (Context.Related (mode.during V W) W)) :
    mode.Builds V W (Sequencing.mapViaBind e f : Action (mode.Carrier β)) :=
  builds_bind he fun a => Respects.assures_bind (hf a) fun b => builds_pure b

/-- What has been mapped to functions yields the functions `f a` alone. -/
def Mode.YieldsFrom (S : Context → Context → Prop) (f : α → β) :
    (mode : Mode) → mode.Carrier β → Prop
  | .deferred, fs => Assures S (fun g => ∃ a, g = f a) fs.invoke
  | .immediate, fs => ∃ a, fs.value = f a

theorem assures_map_functions {e : mode.Carrier α} (he : mode.Sound (Context.Related W W) e)
    (f : α → β) :
    Assures (Context.Related V W) (mode.YieldsFrom (Context.Related W W) f)
      (Sequencing.map e fun a => return f a) := by
  cases mode with
  | deferred => exact assures_pure (Respects.assures_bind he fun a => assures_pure ⟨a, rfl⟩)
  | immediate => exact assures_pure ⟨e.value, rfl⟩

section

variable {f : α → β → Action γ} (hf : ∀ a b, (f a b).Respects (Context.Related (mode.during V W) W))
  {fs : mode.Carrier (β → Action γ)} (hfs : mode.YieldsFrom (Context.Related W W) f fs)
  {d : mode.Carrier β} (hd : mode.Sound (Context.Related W W) d)

include hf hfs hd

/-- Applying keeps them related if the functions come from something that is sound. -/
theorem builds_apply : mode.Builds V W (Sequencing.apply fs d : Action (mode.Carrier γ)) := by
  cases mode with
  | deferred =>
    refine assures_pure (Assures.respects_bind hfs ?_)
    rintro g ⟨a, rfl⟩
    exact Respects.bind hd fun b => hf a b
  | immediate =>
    obtain ⟨a, ha⟩ := hfs
    have happly : (fs.value d.value).Respects (Context.Related V W) := by
      rw [ha]
      exact hf a d.value
    exact Respects.assures_bind happly fun c => assures_pure trivial

theorem builds_applyViaBind :
    mode.Builds V W (Sequencing.applyViaBind fs d : Action (mode.Carrier γ)) := by
  cases mode with
  | deferred =>
    refine assures_pure (Assures.respects_bind hfs ?_)
    rintro g ⟨a, rfl⟩
    have hmap : Mode.deferred.Builds W W (Sequencing.mapViaBind d (f a)) :=
      builds_mapViaBind hd (hf a)
    exact Assures.respects_bind hmap fun _ h => h
  | immediate => exact builds_apply hf hfs hd

end

/-! ### Combining -/

variable [Monoid α]

theorem sound_empty :
    mode.Sound (Context.Related W W) (Monoid.empty : mode.Carrier α) := by
  cases mode with
  | deferred => exact respects_pure Monoid.empty
  | immediate => exact trivial

/-- What two sound effects combine to is sound. -/
theorem builds_combine {e d : mode.Carrier α} (he : mode.Sound (Context.Related W W) e)
    (hd : mode.Sound (Context.Related W W) d) :
    mode.Builds V W (liftM (Semigroup.combine e d) : Action (mode.Carrier α)) := by
  cases mode with
  | deferred =>
    exact assures_pure (Respects.bind he fun a => Respects.bind hd fun b => respects_lift _)
  | immediate =>
    exact (respects_lift _).assures fun _ => trivial

theorem builds_combineMore {e acc : mode.Carrier α} (he : mode.Sound (Context.Related W W) e)
    (hacc : mode.Sound (Context.Related W W) acc) (count : Nat) :
    mode.Builds V W (liftM (Semigroup.combineMore e count acc) : Action (mode.Carrier α)) := by
  cases mode with
  | deferred =>
    induction count generalizing acc with
    | zero => exact assures_pure hacc
    | succ count ih =>
      exact ih (Respects.bind hacc fun a => Respects.bind he fun b => respects_lift _)
  | immediate => exact (respects_lift _).assures fun _ => trivial

theorem builds_combineN {e : mode.Carrier α} (he : mode.Sound (Context.Related W W) e)
    (count : Nat) :
    mode.Builds V W (liftM (Semigroup.combineN e count) : Action (mode.Carrier α)) := by
  cases count with
  | zero => exact alike_panic _
  | succ count => exact builds_combineMore he he count

theorem builds_foldFrom {acc : mode.Carrier α} (hacc : mode.Sound (Context.Related W W) acc)
    {source : List (Action (mode.Carrier α))} (h : ∀ x ∈ source, mode.Builds V W x) :
    mode.Builds V W (Semigroup.foldFrom acc source) := by
  induction source generalizing acc with
  | nil => exact assures_pure hacc
  | cons next source ih =>
    exact Assures.bind (h next List.mem_cons_self) fun _ ha =>
      Assures.bind (builds_combine hacc ha) fun _ hacc =>
      ih hacc fun x hx => h x (List.mem_cons_of_mem _ hx)

/-- What a row is reduced to is sound. -/
theorem assures_reduceAll {source : List (Action (mode.Carrier α))}
    (h : ∀ x ∈ source, mode.Builds V W x) :
    Assures (Context.Related V W) (fun r => ∀ e ∈ r, mode.Sound (Context.Related W W) e)
      (Semigroup.reduceAll source) := by
  cases source with
  | nil => exact assures_pure nofun
  | cons next source =>
    refine Assures.bind (h next List.mem_cons_self) fun _ ha => ?_
    refine Assures.bind (builds_foldFrom ha fun x hx => h x (List.mem_cons_of_mem _ hx)) ?_
    intro e he
    refine assures_pure fun d hd => ?_
    cases hd
    exact he

end

/-! ## Effects -/

namespace Effect

variable {p : Permit} {S : Context → Context → Prop} {W : World → World → Prop}
  {e : Effect Context Value}

theorem respects_reading (he : e.invoke.Respects S) (read : Value → Except Panic α) :
    (e.reading read).invoke.Respects S :=
  Respects.bind he fun _ => respects_lift _

theorem respects_writing {e : Effect Context α} (he : e.invoke.Respects S) (write : α → Value) :
    (e.writing write).invoke.Respects S :=
  Respects.bind he fun _ => respects_pure _

theorem respects_void (he : e.invoke.Respects S) : e.void.invoke.Respects S :=
  Respects.bind he fun _ => respects_pure ()

theorem respects_when {e : Effect Context Unit} (he : e.invoke.Respects S) (holds : Bool) :
    (when holds e).invoke.Respects S := by
  cases holds with
  | true => exact he
  | false => exact respects_pure ()

theorem respects_repeat {f : Effect Context Value → Effect Context Value}
    (hf : ∀ e, e.invoke.Respects S → (f e).invoke.Respects S) (he : e.invoke.Respects S)
    (count : Nat) : (Nat.repeat f count e).invoke.Respects S := by
  induction count with
  | zero => exact he
  | succ count ih => exact hf _ ih

theorem respects_enter {x : Action (Effect Context Value)} (hx : Mode.deferred.Builds W W x) :
    (enter x).Respects (Context.Related W W) :=
  Assures.respects_bind hx fun _ he => he

theorem respects_enter_reading {x : Action (Effect Context Value)}
    (hx : Mode.deferred.Builds W W x) (read : Value → Except Panic α) :
    (enter do let e ← x; return e.reading read).Respects (Context.Related W W) := by
  have hread : (enter do let e ← x; return e.reading read) = enter x >>= fun v => liftM (read v) :=
    enter_map x _
  rw [hread]
  exact Respects.bind (respects_enter hx) fun _ => respects_lift _

/-- An iteration respects a relation if each of its turns does. -/
theorem respects_iterate {f : α → Computation Context (Turn α β)} (hf : ∀ a, (f a).Respects S)
    (a : α) : (Computation.iterate f a).Respects S := by
  refine alike_iterate (A := Eq) (fun a b hab => ?_) rfl
  subst hab
  rw [← bind_pure_eq (f a)]
  exact alike_bind_pure (hf a) id

/-- A guarded invocation does, if the events of its panics are permitted. -/
theorem respects_invokeGuarded (hW : p.KeepsEvents W)
    (hevent : ∀ error, p.event (.invocationFailed error))
    (he : e.invoke.Respects (Context.Related W W)) :
    e.invokeGuarded.Respects (Context.Related W W) := by
  refine Respects.bind (Alike.attempt_eq he) fun o => ?_
  cases o with
  | ok a => exact respects_pure _
  | error q => exact Respects.bind (Action.respects_emit hW (hevent _)) fun _ => respects_pure _

/-- Going on after a success does, if both parts do. -/
theorem respects_andThenOk {e : Effect Context (Except Value Value)} (he : e.invoke.Respects S)
    {f : Value → Action (Effect Context (Except Value Value))}
    (hf : ∀ a, (enter (f a)).Respects S) : (e.andThenOk f).invoke.Respects S := by
  refine Respects.bind he fun r => ?_
  cases r with
  | ok a => exact hf a
  | error error => exact respects_pure _

theorem respects_mapOk {e : Effect Context (Except Value Value)} (he : e.invoke.Respects S)
    {f : Value → Action Value} (hf : ∀ a, (f a).Respects S) : (e.mapOk f).invoke.Respects S := by
  refine Respects.bind he fun r => ?_
  cases r with
  | ok a => exact Respects.bind (hf a) fun _ => respects_pure _
  | error error => exact respects_pure _

theorem respects_numOp {k : IntType} {e d : Effect Context (Fixed k)} (he : e.invoke.Respects S)
    (hd : d.invoke.Respects S) (op : NumOp) : (op.apply e d).invoke.Respects S := by
  cases op with
  | add | sub | mul =>
    exact Respects.bind he fun _ => Respects.bind hd fun _ => respects_lift _

end Effect

/-! ## Terms -/

open Deferred.Action Deferred.Effect in
mutual

/-- From related worlds building goes the same way, and so does what is built. -/
theorem Term.builds {p : Permit} {W : World → World → Prop} (hW : p.KeepsEvents W)
    {V : World → World → Prop} (hV : p.Keeps V) {mode : Mode} (env : Env) (t : Term mode)
    (h : p.Covers fun m => t.Mentions m) : mode.Builds V W (t.build env) := by
  have hduring : p.Keeps (mode.during V W) := hV.during hW.toKeeps mode
  match t, h with
  -- Statements of the host.
  | .mark x e, h =>
    exact Respects.assures_bind (x.respects_eval hV env) fun v =>
      Respects.assures_bind (respects_recordUnlessUnit hV v) fun _ => e.builds hW hV env h.right
  | .letIn name x e, h =>
    exact Respects.assures_bind (x.respects_eval hV env) fun v =>
      e.builds hW hV (env.bind name v) h.right.under
  | .cond test yes no, h =>
    refine Respects.assures_bind (test.respects_eval hV env) fun v =>
      Respects.assures_bind (respects_lift _) fun holds => ?_
    cases holds with
    | true => exact yes.builds hW hV env h.right.left
    | false => exact no.builds hW hV env h.right.right
  -- The sequencing interface.
  | .pure x, _ => exact Respects.assures_bind (x.respects_eval hV env) fun v => builds_pure v
  | .map e name body, h =>
    exact Assures.bind (e.builds hW hV env h.left) fun _ he =>
      builds_map he fun v => body.respects_eval hduring _
  | .map2 e d first second body, h =>
    exact Assures.bind (e.builds hW hV env h.left) fun _ he =>
      Assures.bind (d.builds hW hV env h.right.left) fun _ hd =>
      builds_map2 he hd fun v w => body.respects_eval hduring _
  | .bind e name body, h =>
    exact Assures.bind (e.builds hW hV env h.left) fun _ he =>
      builds_bind he fun v => body.builds hW hduring (env.bind name v) h.right.under
  | .andThen e d, h =>
    exact Assures.bind (e.builds hW hV env h.left) fun _ he =>
      Assures.bind (d.builds hW hV env h.right) fun _ hd => builds_bind he fun _ => assures_pure hd
  | .replace e x, h =>
    exact Assures.bind (e.builds hW hV env h.left) fun _ he =>
      Respects.assures_bind (x.respects_eval hV env) fun v => builds_map he fun _ => respects_pure v
  | .void e, h =>
    exact Assures.bind (e.builds hW hV env h) fun _ he =>
      Assures.bind (builds_map he fun _ => respects_pure ()) fun _ hdone =>
      builds_map hdone fun _ => respects_pure _
  | .product e d, h =>
    exact Assures.bind (e.builds hW hV env h.left) fun _ he =>
      Assures.bind (d.builds hW hV env h.right) fun _ hd =>
      Assures.bind (builds_map2 he hd fun _ _ => respects_pure _) fun _ hboth =>
      builds_map hboth fun _ => respects_pure _
  | .applyFirst e d, h =>
    exact Assures.bind (e.builds hW hV env h.left) fun _ he =>
      Assures.bind (d.builds hW hV env h.right) fun _ hd =>
      builds_map2 he hd fun v _ => respects_pure v
  | .applySecond e d, h =>
    exact Assures.bind (e.builds hW hV env h.left) fun _ he =>
      Assures.bind (d.builds hW hV env h.right) fun _ hd =>
      builds_map2 he hd fun _ w => respects_pure w
  | .apply e name arg body d, h =>
    exact Assures.bind (e.builds hW hV env h.left) fun _ he =>
      Assures.bind (assures_map_functions he _) fun _ hfs =>
      Assures.bind (d.builds hW hV env h.right.left) fun _ hd =>
      builds_apply (fun f v => body.respects_eval hduring _) hfs hd
  | .mapViaBind e name body, h =>
    exact Assures.bind (e.builds hW hV env h.left) fun _ he =>
      builds_mapViaBind he fun v => body.respects_eval hduring _
  | .applyViaBind e name arg body d, h =>
    exact Assures.bind (e.builds hW hV env h.left) fun _ he =>
      Assures.bind (assures_map_functions he _) fun _ hfs =>
      Assures.bind (d.builds hW hV env h.right.left) fun _ hd =>
      builds_applyViaBind (fun f v => body.respects_eval hduring _) hfs hd
  -- Combining.
  | .combine shape e d, h =>
    exact Assures.bind (e.builds hW hV env h.left) fun _ he =>
      Assures.bind (builds_map he fun _ => respects_lift _) fun _ he =>
      Assures.bind (d.builds hW hV env h.right) fun _ hd =>
      Assures.bind (builds_map hd fun _ => respects_lift _) fun _ hd =>
      Assures.bind (builds_combine he hd) fun _ hc => builds_map hc fun _ => respects_pure _
  | .appendViaBind shape e d, h =>
    exact Assures.bind (e.builds hW hV env h.left) fun _ he =>
      Assures.bind (builds_map he fun _ => respects_lift _) fun _ he =>
      Assures.bind (d.builds hW hV env h.right) fun _ hd =>
      Assures.bind (builds_map hd fun _ => respects_lift _) fun _ hd =>
      Assures.bind (builds_bind he fun _ => builds_mapViaBind hd fun _ => respects_lift _)
        fun _ hc => builds_map hc fun _ => respects_pure _
  | .combineN shape e count, h =>
    exact Assures.bind (e.builds hW hV env h) fun _ he =>
      Assures.bind (builds_map he fun _ => respects_lift _) fun _ he =>
      Assures.bind (builds_combineN he count) fun _ hc => builds_map hc fun _ => respects_pure _
  | .combineAll shape es, h =>
    exact Assures.bind (builds_foldFrom sound_empty (es.builds_elements hW hV env shape h))
      fun _ hc => builds_map hc fun _ => respects_pure _
  | .reduceAll shape es, h =>
    refine Assures.bind (assures_reduceAll (es.builds_elements hW hV env shape h)) fun r hr => ?_
    cases r with
    | none => exact builds_pure _
    | some c => exact builds_map (hr c rfl) fun _ => respects_pure _
  | .empty shape, _ => exact builds_map sound_empty fun _ => respects_pure _
  | .emptyViaPure shape, _ => exact builds_map (sound_pure _) fun _ => respects_pure _
  | .here x, _ => exact Respects.assures_bind (x.respects_eval hV env) fun v => assures_pure trivial
  -- Effects that touch the world.
  | .act x y, _ =>
    exact assures_pure <| Respects.bind (x.respects_eval hW.toKeeps env) fun v =>
      Respects.bind (respects_recordUnlessUnit hW.toKeeps v) fun _ =>
      y.respects_eval hW.toKeeps env
  | .readCell cell, _ => exact assures_pure (respects_readCell hW.toKeeps cell)
  | .writeCell cell x, _ =>
    exact assures_pure <| Respects.bind (x.respects_eval hW.toKeeps env) fun v =>
      Respects.bind (respects_writeCell hW.toKeeps cell v) fun _ => respects_pure _
  | .changeCell cell name body, _ =>
    exact assures_pure <| Respects.bind (respects_readCell hW.toKeeps cell) fun old =>
      Respects.bind (body.respects_eval hW.toKeeps _) fun v =>
      Respects.bind (respects_writeCell hW.toKeeps cell v) fun _ => respects_pure v
  | .script label list, _ =>
    exact Respects.assures_bind (label.respects_eval hV env) fun label =>
      Respects.assures_bind (list.respects_eval hV env) fun _ =>
      Respects.assures_bind (respects_lift _) fun items =>
      Respects.assures_bind (respects_newScript hV) fun id =>
      assures_pure (respects_takeItem hW.toKeeps id label items)
  | .fail kind x, _ =>
    exact assures_pure <| Respects.bind (x.respects_eval hW.toKeeps env) fun _ =>
      Respects.bind (respects_lift _) fun _ => respects_throw _
  | .ref effect, h =>
    exact Respects.assures_bind (respects_resolve hV (h (.effect effect) rfl)) fun handle =>
      assures_pure (respects_invoke handle)
  -- Effects of effects.
  | .clone e, h => exact e.builds hW hV env h
  | .unit, _ => exact assures_pure (respects_writing (respects_pure ()) _)
  | .defer e, h => exact assures_pure (respects_enter (e.builds hW hW.toKeeps env h))
  | .guarded e, h =>
    exact Assures.bind (e.builds hW hV env h.right) fun _ he => assures_pure <|
      Respects.bind (respects_invokeGuarded hW (fun error => h _ (.inl ⟨error, rfl⟩)) he)
        fun _ => respects_pure _
  | .mapTimes count e name body, h =>
    exact Assures.bind (e.builds hW hV env h.left) fun _ he => assures_pure <|
      respects_repeat (fun _ he => Respects.bind he fun v => body.respects_eval hW.toKeeps _) he
        count
  | .bindTimes count e name body, h =>
    exact Assures.bind (e.builds hW hV env h.left) fun _ he => assures_pure <|
      respects_repeat (fun _ he => Respects.bind he fun v =>
        respects_enter (body.builds hW hW.toKeeps (env.bind name v) h.right.under)) he count
  | .block statements last, h =>
    exact Statement.builds_buildAll hW hV env _ (fun m => last.Mentions m)
      (fun hV env hlast => last.builds hW hV env hlast) statements h
  | .numOp op k e d, h =>
    exact Assures.bind (e.builds hW hV env h.left) fun _ he =>
      Assures.bind (d.builds hW hV env h.right) fun _ hd => assures_pure <|
      respects_writing (respects_numOp (respects_reading he _) (respects_reading hd _) op) _
  | .neg k e, h =>
    exact Assures.bind (e.builds hW hV env h) fun _ he => assures_pure <|
      respects_writing (Respects.bind (respects_reading he _) fun _ => respects_lift _) _
  -- Loops.
  | .untilTrue c, h =>
    exact Assures.bind (c.builds hW hV env h.right) fun _ hc => assures_pure <|
      respects_writing (Respects.bind (respects_emit hW (h _ (.inl rfl))) fun _ =>
        alike_untilTrue (respects_reading hc _)) _
  | .whileTrue c b, h =>
    exact Assures.bind (c.builds hW hV env h.right.left) fun _ hc =>
      Assures.bind (b.builds hW hV env h.right.right) fun _ hb => assures_pure <|
      respects_writing (Respects.bind (respects_emit hW (h _ (.inl rfl))) fun _ =>
        alike_whileTrue (respects_reading hc _) hb) _
  | .forRange low high name body, h =>
    exact Respects.assures_bind (low.respects_eval hV env) fun _ =>
      Respects.assures_bind (respects_lift _) fun a =>
      Respects.assures_bind (high.respects_eval hV env) fun _ =>
      Respects.assures_bind (respects_lift _) fun b => assures_pure <|
      respects_writing (Respects.bind (respects_emit hW (h _ (.inl ⟨_, _, rfl⟩))) fun _ =>
        alike_forRange a b fun i =>
          respects_enter (body.builds hW hW.toKeeps _ h.right.right.right.under)) _
  | .forEach source name body, h =>
    exact Assures.bind (source.assures_steps hV env) fun _ hsteps =>
      Assures.bind (Respects.assures_bind (respects_mapM hsteps) fun items => assures_pure <|
        Respects.bind (respects_emit hW (h _ (.inl ⟨_, rfl⟩))) fun _ =>
        alike_forItems items fun v =>
          respects_enter (body.builds hW hW.toKeeps (env.bind name v) h.right.right.under))
        fun _ hloop => assures_pure (respects_writing hloop _)
  | .when test e, h =>
    exact Respects.assures_bind (test.respects_eval hV env) fun _ =>
      Respects.assures_bind (respects_lift _) fun holds =>
      Assures.bind (e.builds hW hV env h.right) fun _ he =>
      assures_pure (respects_writing (respects_when (respects_void he) holds) _)
  | .whenNot test e, h =>
    exact Respects.assures_bind (test.respects_eval hV env) fun _ =>
      Respects.assures_bind (respects_lift _) fun holds =>
      Assures.bind (e.builds hW hV env h.right) fun _ he =>
      assures_pure (respects_writing (respects_when (respects_void he) !holds) _)
  | .forever e, h =>
    exact Assures.bind (e.builds hW hV env h) fun _ he => assures_pure (alike_forever he)
  | .iterate x name body, h =>
    exact Respects.assures_bind (x.respects_eval hV env) fun v => assures_pure <|
      respects_iterate (fun v => respects_enter_reading
        (body.builds hW hW.toKeeps (env.bind name v) h.right.under) _) v
  -- Effects that may yield an error.
  | .andThenOk e name body, h =>
    exact Assures.bind (e.builds hW hV env h.left) fun _ he => assures_pure <|
      respects_writing (respects_andThenOk (respects_reading he _) fun v =>
        respects_enter_reading (body.builds hW hW.toKeeps (env.bind name v) h.right.under) _) _
  | .mapOk e name body, h =>
    exact Assures.bind (e.builds hW hV env h.left) fun _ he => assures_pure <|
      respects_writing (respects_mapOk (respects_reading he _) fun v =>
        body.respects_eval hW.toKeeps _) _
  | .tryUntil c, h =>
    exact Assures.bind (c.builds hW hV env h.right) fun _ hc => assures_pure <|
      respects_writing (Respects.bind (respects_emit hW (h _ (.inl rfl))) fun _ =>
        alike_tryUntil (respects_reading hc _)) _
  | .tryWhile c b, h =>
    exact Assures.bind (c.builds hW hV env h.right.left) fun _ hc =>
      Assures.bind (b.builds hW hV env h.right.right) fun _ hb => assures_pure <|
      respects_writing (Respects.bind (respects_emit hW (h _ (.inl rfl))) fun _ =>
        alike_tryWhile (respects_reading hc _) (respects_reading hb _)) _
  | .tryForRange low high name body, h =>
    exact Respects.assures_bind (low.respects_eval hV env) fun _ =>
      Respects.assures_bind (respects_lift _) fun a =>
      Respects.assures_bind (high.respects_eval hV env) fun _ =>
      Respects.assures_bind (respects_lift _) fun b => assures_pure <|
      respects_writing (Respects.bind (respects_emit hW (h _ (.inl ⟨_, _, rfl⟩))) fun _ =>
        alike_tryForRange a b fun i =>
          respects_enter_reading (body.builds hW hW.toKeeps _ h.right.right.right.under) _) _
  | .tryForEach source name body, h =>
    exact Assures.bind (source.assures_steps hV env) fun _ hsteps =>
      Assures.bind (Respects.assures_bind (respects_mapM hsteps) fun items => assures_pure <|
        Respects.bind (respects_emit hW (h _ (.inl ⟨_, rfl⟩))) fun _ =>
        alike_tryForItems items fun v => respects_enter_reading
          (body.builds hW hW.toKeeps (env.bind name v) h.right.right.under) _)
        fun _ hloop => assures_pure (respects_writing hloop _)
termination_by structural t

/-- The elements of a row of terms build on both sides. -/
theorem Terms.builds_elements {p : Permit} {W : World → World → Prop} (hW : p.KeepsEvents W)
    {V : World → World → Prop} (hV : p.Keeps V) {mode : Mode} (env : Env) (shape : Shape)
    (es : Terms mode) (h : p.Covers fun m => es.Mentions m) :
    ∀ x ∈ es.elements env shape, mode.Builds V W x := by
  match es, h with
  | .nil, _ => exact nofun
  | .cons e es, h =>
    intro x hx
    rcases List.mem_cons.1 hx with rfl | hx
    · exact Assures.bind (e.builds hW hV env h.left) fun _ he =>
        builds_map he fun _ => respects_lift _
    · exact es.builds_elements hW hV env shape h.right x hx
termination_by structural es

/-- What follows an effect is built while the effect that the block makes is invoked. -/
theorem Statement.builds_buildAll {p : Permit} {W : World → World → Prop} (hW : p.KeepsEvents W)
    {V : World → World → Prop} (hV : p.Keeps V) (env : Env)
    (last : Env → Action (Effect Context Value)) (mentions : Mention → Prop)
    (hlast : ∀ {V : World → World → Prop}, p.Keeps V → ∀ env, p.Covers mentions →
      Mode.deferred.Builds V W (last env)) (ss : List Statement)
    (h : p.Covers fun m => Statement.MentionsAll m (mentions m) ss) :
    Mode.deferred.Builds V W (Statement.buildAll env last ss) := by
  match ss, h with
  | [], h => exact hlast hV env h
  | .bind name e :: rest, h =>
    exact Assures.bind (e.builds hW hV env h.left) fun _ he => assures_pure <|
      Respects.bind he fun v => respects_enter <|
      Statement.builds_buildAll hW hW.toKeeps (env.bind name v) last mentions hlast rest
        h.right.under
  | .bindPair first second e :: rest, h =>
    exact Assures.bind (e.builds hW hV env h.left) fun _ he => assures_pure <|
      Respects.bind (respects_reading he _) fun q => respects_enter <|
      Statement.builds_buildAll hW hW.toKeeps _ last mentions hlast rest h.right.under
  | .run e :: rest, h =>
    exact Assures.bind (e.builds hW hV env h.left) fun _ he => assures_pure <|
      Respects.bind he fun v => respects_enter <|
      Statement.builds_buildAll hW hW.toKeeps env last mentions hlast rest h.right
  | .letIn name x :: rest, h =>
    exact Respects.assures_bind (x.respects_eval hV env) fun v =>
      Statement.builds_buildAll hW hV (env.bind name v) last mentions hlast rest h.right.under
  | .letPair first second x :: rest, h =>
    exact Respects.assures_bind (x.respects_eval hV env) fun _ =>
      Respects.assures_bind (respects_lift _) fun q =>
      Statement.builds_buildAll hW hV _ last mentions hlast rest h.right.under
termination_by structural ss

end

end Deferred
