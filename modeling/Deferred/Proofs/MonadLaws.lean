import Deferred.Proofs.Observation
import Deferred.Sequencing

/-!
# The monad laws of effects

Sequencing obeys the laws of a monad up to observation. The functions of the laws are computations
that make an effect: applying one may change the state, panic or never end, and it happens anew in
every invocation. So `pure a` followed by `f` is not the effect that one application of `f` makes,
but the effect that applies `f` to `a` whenever it is invoked; the two are the same if applying `f`
leaves no trace of itself.
-/

namespace Deferred

variable {σ α β γ : Type}

open Deferred.Computation

/-! ## Making effects -/

/-- Both ways of making an effect leave the state alone, and what they make cannot be told apart. -/
def MakeAlike (x y : Computation σ (Effect σ α)) : Prop :=
  ∃ e d, (∀ s, x.Halts s (.ok e, s)) ∧ (∀ s, y.Halts s (.ok d, s)) ∧ e ≈ d

/-- Effects that are there already are made alike exactly if they are equivalent. -/
theorem makeAlike_pure_iff {e d : Effect σ α} : MakeAlike (pure e) (pure d) ↔ e ≈ d := by
  constructor
  · rintro ⟨e', d', he, hd, h⟩
    rw [Effect.equiv_iff]
    intro s r
    cases halts_pure_iff.1 (he s)
    cases halts_pure_iff.1 (hd s)
    exact Effect.equiv_iff.1 h s r
  · intro h
    exact ⟨e, d, fun _ => halts_pure_iff.2 rfl, fun _ => halts_pure_iff.2 rfl, h⟩

/-- The monad laws of a way to make constant effects and a way to sequence effects. -/
structure MonadLaws (σ : Type) (unit : {α : Type} → α → Effect σ α)
    (sequence : {α β : Type} → Effect σ α → (α → Computation σ (Effect σ β)) →
      Computation σ (Effect σ β)) : Prop where
  /-- After a constant the function is applied when the effect is invoked. -/
  unit_left {α β : Type} (a : α) (f : α → Computation σ (Effect σ β)) :
    MakeAlike (sequence (unit a) f) (return .defer (f a))
  /-- If applying the function to `a` from any state only makes an effect that acts as `d`, then
  `d` is all that is left of it. -/
  unit_left_made {α β : Type} (a : α) (f : α → Computation σ (Effect σ β)) (d : Effect σ β)
    (h : ∀ s, ∃ e, (f a).Halts s (.ok e, s) ∧ e ≈ d) :
    MakeAlike (sequence (unit a) f) (return d)
  unit_right {α : Type} (m : Effect σ α) :
    MakeAlike (sequence m fun a => return unit a) (return m)
  associative {α β γ : Type} (m : Effect σ α) (f : α → Computation σ (Effect σ β))
    (g : β → Computation σ (Effect σ γ)) :
    MakeAlike (do let n ← sequence m f; sequence n g)
      (sequence m fun a => do let n ← f a; sequence n g)

namespace Effect

/-! ## The laws one by one -/

/-- Left identity, with the function applied anew by every invocation. -/
theorem pure_bind_equiv_defer (a : α) (f : α → Computation σ (Effect σ β)) :
    (pure a).bind f ≈ defer (f a) :=
  equiv_of_invoke_eq rfl

/-- A deferred effect acts as the effect that is made, if making it only makes it. -/
theorem defer_equiv_of_halts {make : Computation σ (Effect σ α)} {d : Effect σ α}
    (h : ∀ s, ∃ e, make.Halts s (.ok e, s) ∧ e ≈ d) : defer make ≈ d := by
  rw [equiv_iff]
  intro s r
  obtain ⟨e, hmake, he⟩ := h s
  calc (defer make).invoke.Halts s r
      ↔ e.invoke.Halts s r := halts_bind_ok_iff hmake
    _ ↔ d.invoke.Halts s r := equiv_iff.1 he s r

/-- Right identity: putting a plain effect after another changes nothing. -/
theorem bind_pure_equiv (m : Effect σ α) : (m.bind fun a => return pure a) ≈ m := by
  apply equiv_of_invoke_eq
  show (m.invoke >>= fun a => Pure.pure a) = m.invoke
  exact bind_pure_eq m.invoke

/-- Associativity: a row of continuations can be grouped either way. -/
theorem bind_bind_equiv (m : Effect σ α) (f : α → Computation σ (Effect σ β))
    (g : β → Computation σ (Effect σ γ)) :
    (m.bind f).bind g ≈ m.bind fun a => do let n ← f a; return n.bind g := by
  apply equiv_of_invoke_eq
  -- Applying `f`, running what it made and then `g` is one sequence, however it is bracketed.
  simp only [bind, bind_assoc, pure_bind]

theorem equiv_trans {e d c : Effect σ α} (h : e ≈ d) (h' : d ≈ c) : e ≈ c :=
  equiv_iff.2 (Computation.equiv_trans (equiv_iff.1 h) (equiv_iff.1 h'))

/-! ## The laws together -/

/-- The methods of effects obey the monad laws, and so do the operations of the sequencing
interface at effects. -/
theorem monadLaws :
    MonadLaws σ Effect.pure (fun e f => return e.bind f) ∧
      MonadLaws σ (Sequencing.pure σ) Sequencing.bind := by
  have laws : MonadLaws σ Effect.pure fun e f => return e.bind f :=
    { unit_left := fun a f => makeAlike_pure_iff.2 (pure_bind_equiv_defer a f)
      unit_left_made := fun a f d h => makeAlike_pure_iff.2 <|
        equiv_trans (pure_bind_equiv_defer a f) (defer_equiv_of_halts h)
      unit_right := fun m => makeAlike_pure_iff.2 (bind_pure_equiv m)
      associative := fun m f g => makeAlike_pure_iff.2 (bind_bind_equiv m f g) }
  exact ⟨laws, laws⟩

/-- A function that makes an adding effect, wrapped once more, adds when it follows a constant. -/
theorem pure_bind_adding :
    (∀ s : Nat, ∃ e, (return ((⟨update fun t => ((), t + 3)⟩ : Effect Nat Unit).bind
        fun u => return .pure u) : Computation Nat (Effect Nat Unit)).Halts s (.ok e, s) ∧
        e ≈ ⟨update fun t => ((), t + 3)⟩) ∧
      ((Effect.pure 3).bind fun n => return ((⟨update fun t => ((), t + n)⟩ : Effect Nat Unit).bind
        fun u => return .pure u)) ≈ ⟨update fun t => ((), t + 3)⟩ := by
  have made : ∀ s : Nat, ∃ e, (return ((⟨update fun t => ((), t + 3)⟩ : Effect Nat Unit).bind
      fun u => return .pure u) : Computation Nat (Effect Nat Unit)).Halts s (.ok e, s) ∧
      e ≈ ⟨update fun t => ((), t + 3)⟩ :=
    fun _ => ⟨_, halts_pure_iff.2 rfl, bind_pure_equiv _⟩
  exact ⟨made, makeAlike_pure_iff.1 (monadLaws.1.unit_left_made 3 _ _ made)⟩

end Effect

end Deferred
