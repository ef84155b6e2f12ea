import Deferred.Proofs.LoopsIterate
import Deferred.Proofs.Watching

/-!
# Chains and iterations

A chain is an effect with so many links after it, each of which applies the same function to the
value so far. It is built from the outside: the last link stands around all others, as deep as the
chain is long. An iteration that counts its steps down goes from the inside, in constant space, and
does the same (`Effect.ChainsIterate`). The induction on the length moves one link from the end of
the chain to its beginning (`Computation.fold_bind_eq`).

The effect at the start is invoked once, then the links are applied one after the other, the
innermost one first, until one of them panics or never ends (`Effect.ChainEnds`).
-/

namespace Deferred

variable {σ α β : Type}

open Deferred.Computation

namespace Computation

/-! ## Repeated application -/

/-- Applies `h` so many times, first to `a`. -/
def applyTimes (h : α → Computation σ α) : Nat → α → Computation σ α
  | 0, a => return a
  | n + 1, a => h a >>= applyTimes h n

theorem applyTimes_succ (h : α → Computation σ α) (n : Nat) (a : α) :
    applyTimes h (n + 1) a = h a >>= applyTimes h n := rfl

/-- One application more at the end is one more at the beginning. -/
theorem applyTimes_bind (h : α → Computation σ α) (n : Nat) (a : α) :
    applyTimes h n a >>= h = applyTimes h (n + 1) a := by
  induction n generalizing a with
  | zero =>
    show pure a >>= h = h a >>= fun b => pure b
    rw [pure_bind, bind_pure_eq]
  | succ n ih =>
    calc applyTimes h (n + 1) a >>= h
        = h a >>= fun b => applyTimes h n b >>= h := bind_assoc (h a) (applyTimes h n) h
      _ = h a >>= applyTimes h (n + 1) := bind_congr ih

/-- Links that stand one around the other are applied one after the other. -/
theorem fold_bind_eq (h : α → Computation σ α) (n : Nat) (x : Computation σ α) :
    n.fold (fun _ _ y => y >>= h) x = x >>= applyTimes h n := by
  induction n with
  | zero => exact (bind_pure_eq x).symm
  | succ n ih =>
    calc (n + 1).fold (fun _ _ y => y >>= h) x
        = n.fold (fun _ _ y => y >>= h) x >>= h := Nat.fold_succ n _ x
      _ = x >>= applyTimes h n >>= h := by rw [ih]
      _ = x >>= fun a => applyTimes h n a >>= h := bind_assoc x (applyTimes h n) h
      _ = x >>= applyTimes h (n + 1) := bind_congr (applyTimes_bind h n)

/-- An application that yields a value. -/
def Applies (h : α → Computation σ α) (k l : α × σ) : Prop := (h k.1).Halts k.2 (.ok l.1, l.2)

/-- Applying `n` times returns a value exactly if `n` applications in a row lead to it. -/
theorem halts_applyTimes_value_iff {h : α → Computation σ α} {n : Nat} {a b : α} {s t : σ} :
    (applyTimes h n a).Halts s (.ok b, t) ↔ Rounds (Applies h) n (a, s) (b, t) := by
  induction n generalizing a s with
  | zero =>
    rw [Rounds.zero_iff, eq_comm, Prod.mk.injEq]
    exact halts_pure_iff.trans (by rw [Prod.mk.injEq, Except.ok.injEq])
  | succ n ih =>
    simp only [applyTimes_succ, halts_bind_value_iff, Rounds.succ_iff, ih, Prod.exists, Applies]

/-! ## Links -/

section

variable {x : Computation σ α} {link : Nat → α → Computation σ α} {n : Nat} {s : σ}

/-- Something happens in a chain, such as a panic, if it happens at the start, or in a link that the
links before it come to. -/
theorem happens_fold_iff (happens : Computation σ α → σ → Prop)
    (hbind : ∀ (y : Computation σ α) (h : α → Computation σ α) s, happens (y >>= h) s ↔
      happens y s ∨ ∃ a t, y.Halts s (.ok a, t) ∧ happens (h a) t) :
    happens (n.fold (fun i _ y => y >>= link i) x) s ↔
      happens x s ∨ ∃ k < n, ∃ a t,
        (k.fold (fun i _ y => y >>= link i) x).Halts s (.ok a, t) ∧ happens (link k a) t := by
  induction n with
  | zero => simp
  | succ n ih =>
    rw [Nat.fold_succ, hbind, ih, or_assoc]
    refine or_congr_right ?_
    simp only [Nat.lt_succ_iff_lt_or_eq, or_and_right, exists_or, exists_eq_left]

end

/-- A chain yields a value if its start does and all links after it do. -/
theorem halts_fold_bind_value_iff {x : Computation σ α} {h : α → Computation σ α} {n : Nat} {b : α}
    {s t : σ} :
    (n.fold (fun _ _ y => y >>= h) x).Halts s (.ok b, t) ↔
      ∃ a u, x.Halts s (.ok a, u) ∧ Rounds (Applies h) n (a, u) (b, t) := by
  rw [fold_bind_eq, halts_bind_value_iff]
  simp only [halts_applyTimes_value_iff]

end Computation

namespace Effect

/-! ## Chains of effects -/

/-- Invoking a chain invokes its first effect, then enters each link from the value before it. -/
theorem invoke_fold_bind (f : Nat → α → Computation σ (Effect σ α)) (n : Nat) (e : Effect σ α) :
    (n.fold (fun i _ d => d.bind (f i)) e).invoke =
      n.fold (fun i _ x => x >>= fun a => enter (f i a)) e.invoke := by
  induction n with
  | zero => rfl
  | succ n ih =>
    rw [Nat.fold_succ, Nat.fold_succ, ← ih]
    rfl

/-- Invoking a mapped chain invokes its first effect, then applies each function in turn. -/
theorem invoke_fold_map (h : Nat → α → Computation σ α) (n : Nat) (e : Effect σ α) :
    (n.fold (fun i _ d => d.map (h i)) e).invoke = n.fold (fun i _ x => x >>= h i) e.invoke := by
  induction n with
  | zero => rfl
  | succ n ih =>
    rw [Nat.fold_succ, Nat.fold_succ, ← ih]
    rfl

/-! ## Counting down -/

/-- Takes one step with the value so far, unless none are left. -/
def countdownStep (f : α → Computation σ (Effect σ α)) :
    Nat × α → Computation σ (Effect σ (Turn (Nat × α) α))
  | (0, a) => return pure (.finish a)
  | (n + 1, a) => do
    let e ← f a
    return e.map fun b => return .again (n, b)

/-- The iteration takes as many steps as are left at first. -/
theorem iterate_countdown_equiv (f : α → Computation σ (Effect σ α)) (n : Nat) (a : α) :
    Computation.iterate (fun left => enter (countdownStep f left)) (n, a) ≈
      applyTimes (fun a => enter (f a)) n a := by
  induction n generalizing a with
  | zero => exact iterate_equiv_onTurn _ (0, a)
  | succ n ih =>
    have hstep : enter (countdownStep f (n + 1, a)) =
        enter (f a) >>= fun b => Pure.pure (.again (n, b)) := enter_map (f a) _
    have hunfold := iterate_equiv_onTurn (fun left => enter (countdownStep f left)) (n + 1, a)
    rw [hstep, bind_assoc] at hunfold
    exact Computation.equiv_trans hunfold (bind_congr_equiv (equiv_refl _) ih)

/-- A chain of `n` links is one iteration that counts them down. -/
theorem fold_bind_equiv_iterate (f : α → Computation σ (Effect σ α)) (n : Nat) (e : Effect σ α) :
    n.fold (fun _ _ d => d.bind f) e ≈ e.bind fun a => return iterate (n, a) (countdownStep f) := by
  have hchain : (n.fold (fun _ _ d => d.bind f) e).invoke =
      e.invoke >>= applyTimes (fun a => enter (f a)) n := by
    rw [invoke_fold_bind, fold_bind_eq]
  rw [equiv_iff, hchain]
  exact bind_congr_equiv (equiv_refl e.invoke) fun a => equiv_symm (iterate_countdown_equiv f n a)

/-- A chain of `n` maps is one map with the function applied `n` times. -/
theorem fold_map_equiv_map (h : α → Computation σ α) (n : Nat) (e : Effect σ α) :
    n.fold (fun _ _ d => d.map h) e ≈ e.map (applyTimes h n) := by
  apply equiv_of_invoke_eq
  rw [invoke_fold_map, fold_bind_eq, map]

/-- It is also a chain of `n` links that return what the function gives. -/
theorem fold_map_equiv_fold_bind (h : α → Computation σ α) (n : Nat) (e : Effect σ α) :
    n.fold (fun _ _ d => d.map h) e ≈
      n.fold (fun _ _ d => d.bind fun a => do let b ← h a; return pure b) e := by
  have hlink : (fun a => enter (do let b ← h a; return pure b)) = h := by
    funext a
    simp only [enter, pure, bind_assoc, pure_bind, bind_pure_eq]
  apply equiv_of_invoke_eq
  rw [invoke_fold_map, invoke_fold_bind, hlink]

/-! ## Links that take notes -/

/-- What is noted of a chain: the invocation of the effect at its start, and the application of the
link that has so many links before it. -/
inductive Link where
  | start
  | applied (before : Nat)

/-- The start, and then the first `n` links. -/
def Link.upTo (n : Nat) : List Link := .start :: (List.range n).map .applied

theorem Link.upTo_succ (n : Nat) : upTo (n + 1) = upTo n ++ [.applied n] := by
  simp only [upTo, List.range_succ, List.map_append, List.map_cons, List.map_nil,
    List.cons_append]

/-- Applies `h`, with a note of it. -/
def notedLink (h : α → Computation σ α) (i : Nat) (a : α) : Computation (Watched σ Link) α :=
  (noted (.applied i) ⟨h a⟩).invoke

/-- The start of a chain yields a value, and after `k` links it has become `b`. -/
def ComesTo (e : Effect σ α) (h : α → Computation σ α) (k : Nat) (s : σ) (b : α) (t : σ) : Prop :=
  ∃ a u, e.invoke.Halts s (.ok a, u) ∧ Rounds (Applies h) k (a, u) (b, t)

/-- How a chain ends that begins with `e` and has `n` links, each of which applies `h`. `noted` is
the same with notes. -/
structure ChainEnds (e : Effect σ α) (h : α → Computation σ α) (n : Nat) (chain : Effect σ α)
    (noted : Effect (Watched σ Link) α) : Prop where
  /-- A value has gone through all links, the innermost one first. -/
  returns_iff {w w' : Watched σ Link} {b : α} : noted.invoke.Halts w (.ok b, w') ↔
    ∃ t, ComesTo e h n w.state b t ∧ w' = ⟨t, w.notes ++ Link.upTo n⟩
  /-- The panic of a link comes after the values of all links before it, and no link comes after
  it. -/
  panics_iff {w w' : Watched σ Link} {p : Panic} : noted.invoke.Halts w (.error p, w') ↔
    (∃ t, e.invoke.Halts w.state (.error p, t) ∧ w' = ⟨t, w.notes ++ [.start]⟩) ∨
    ∃ k < n, ∃ b u t, ComesTo e h k w.state b u ∧ (h b).Halts u (.error p, t) ∧
      w' = ⟨t, w.notes ++ Link.upTo (k + 1)⟩
  diverges_iff {s : σ} : chain.invoke.Diverges s ↔
    e.invoke.Diverges s ∨ ∃ k < n, ∃ b u, ComesTo e h k s b u ∧ (h b).Diverges u
  /-- Taking notes changes nothing else. -/
  alike_noted : Alike Watched.Of Eq chain.invoke noted.invoke

section

variable {e : Effect σ α} {h : α → Computation σ α} {n : Nat} {w w' : Watched σ Link}

/-- A noted link notes its number, then does what the link does. -/
theorem halts_notedLink_iff {i : Nat} {a : α} {o : Except Panic α} :
    (notedLink h i a).Halts w (o, w') ↔
      ∃ t, (h a).Halts w.state (o, t) ∧ w' = ⟨t, w.notes ++ [.applied i]⟩ :=
  halts_noted_iff

/-- A value comes with the notes of all links that it has gone through. -/
theorem halts_notedFold_value_iff {b : α} :
    (n.fold (fun i _ x => x >>= notedLink h i) (e.noted .start).invoke).Halts w (.ok b, w') ↔
      ∃ t, ComesTo e h n w.state b t ∧ w' = ⟨t, w.notes ++ Link.upTo n⟩ := by
  simp only [ComesTo, ← halts_fold_bind_value_iff]
  induction n generalizing b w' with
  | zero => exact halts_noted_iff
  | succ n ih =>
    simp only [Nat.fold_succ, halts_bind_value_iff, ih, halts_notedLink_iff, Link.upTo_succ,
      ← List.append_assoc]
    constructor
    · rintro ⟨a, _, ⟨u, hchain, rfl⟩, t, ha, rfl⟩
      exact ⟨t, ⟨a, u, hchain, ha⟩, rfl⟩
    · rintro ⟨t, ⟨a, u, hchain, ha⟩, rfl⟩
      exact ⟨a, _, ⟨u, hchain, rfl⟩, t, ha, rfl⟩

/-- A panic comes at the start, or with the notes of the links before it and of its own link. -/
theorem halts_notedFold_panic_iff {p : Panic} :
    (n.fold (fun i _ x => x >>= notedLink h i) (e.noted .start).invoke).Halts w (.error p, w') ↔
      (∃ t, e.invoke.Halts w.state (.error p, t) ∧ w' = ⟨t, w.notes ++ [.start]⟩) ∨
      ∃ k < n, ∃ b u t, ComesTo e h k w.state b u ∧ (h b).Halts u (.error p, t) ∧
        w' = ⟨t, w.notes ++ Link.upTo (k + 1)⟩ := by
  rw [happens_fold_iff (fun x w => x.Halts w (.error p, w')) fun _ _ _ => halts_bind_panic_iff,
    halts_noted_iff]
  refine or_congr_right (exists_congr fun k => and_congr_right fun _ => exists_congr fun b => ?_)
  simp only [halts_notedFold_value_iff, halts_notedLink_iff, Link.upTo_succ, ← List.append_assoc,
    Watched.exists_iff, exists_and_left]

/-- A chain runs forever exactly if its first effect does, or a link that it comes to. -/
theorem diverges_fold_bind_iff {s : σ} :
    (n.fold (fun _ _ x => x >>= h) e.invoke).Diverges s ↔
      e.invoke.Diverges s ∨ ∃ k < n, ∃ b u, ComesTo e h k s b u ∧ (h b).Diverges u := by
  rw [happens_fold_iff Diverges fun _ _ _ => diverges_bind_iff]
  simp only [halts_fold_bind_value_iff, ComesTo]

/-- Noting the links changes nothing else about a chain. -/
theorem alike_notedFold (e : Effect σ α) (h : α → Computation σ α) (n : Nat) :
    Alike Watched.Of Eq (n.fold (fun _ _ x => x >>= h) e.invoke)
      (n.fold (fun i _ x => x >>= notedLink h i) (e.noted .start).invoke) := by
  induction n with
  | zero => exact alike_noted _ e
  | succ n ih =>
    rw [Nat.fold_succ, Nat.fold_succ]
    exact ih.bind_eq fun a => alike_noted _ ⟨h a⟩

end

/-- A chain that is invoked as such a fold ends at its value or at the first link that fails. -/
theorem chainEnds_of_fold {e : Effect σ α} {h : α → Computation σ α} {n : Nat}
    {chain : Effect σ α} {noted : Effect (Watched σ Link) α}
    (hchain : chain.invoke = n.fold (fun _ _ x => x >>= h) e.invoke)
    (hnoted : noted.invoke = n.fold (fun i _ x => x >>= notedLink h i) (e.noted .start).invoke) :
    ChainEnds e h n chain noted where
  returns_iff := by
    rw [hnoted]
    exact halts_notedFold_value_iff
  panics_iff := by
    rw [hnoted]
    exact halts_notedFold_panic_iff
  diverges_iff := by
    rw [hchain]
    exact diverges_fold_bind_iff
  alike_noted := by
    rw [hchain, hnoted]
    exact alike_notedFold e h n

/-! ## Both kinds of links -/

/-- What chains of any length do, whose links make effects and invoke them, or apply a function
alone. -/
structure ChainsIterate (σ : Type) : Prop where
  /-- A chain goes as the iteration that counts its links down, from the value at the start. -/
  bind_iterate {α : Type} (e : Effect σ α) (f : α → Computation σ (Effect σ α)) (n : Nat) :
    n.fold (fun _ _ d => d.bind f) e ≈ e.bind fun a => return iterate (n, a) (countdownStep f)
  map_applyTimes {α : Type} (e : Effect σ α) (h : α → Computation σ α) (n : Nat) :
    n.fold (fun _ _ d => d.map h) e ≈ e.map (applyTimes h n)
  map_bind {α : Type} (e : Effect σ α) (h : α → Computation σ α) (n : Nat) :
    n.fold (fun _ _ d => d.map h) e ≈
      n.fold (fun _ _ d => d.bind fun a => do let b ← h a; return pure b) e
  bind_ends {α : Type} (e : Effect σ α) (f : α → Computation σ (Effect σ α)) (n : Nat) :
    ChainEnds e (fun a => enter (f a)) n (n.fold (fun _ _ d => d.bind f) e)
      (n.fold (fun i _ d => d.bind (notedMaking (.applied i) f)) (e.noted .start))
  map_ends {α : Type} (e : Effect σ α) (h : α → Computation σ α) (n : Nat) :
    ChainEnds e h n (n.fold (fun _ _ d => d.map h) e)
      (n.fold (fun i _ d => d.map (notedLink h i)) (e.noted .start))

/-- Chains of any length iterate, and end where their links say. -/
theorem chains_iterate : ChainsIterate σ where
  bind_iterate e f n := fold_bind_equiv_iterate f n e
  map_applyTimes e h n := fold_map_equiv_map h n e
  map_bind e h n := fold_map_equiv_fold_bind h n e
  bind_ends e f n := by
    have hlinks : (fun i a => enter (notedMaking (.applied i) f a)) =
        notedLink fun a => enter (f a) := by
      funext i a
      exact enter_notedMaking
    refine chainEnds_of_fold (invoke_fold_bind (fun _ => f) n e) ?_
    rw [invoke_fold_bind, ← hlinks]
  map_ends e h n :=
    chainEnds_of_fold (invoke_fold_map (fun _ => h) n e) (invoke_fold_map (notedLink h) n _)

end Effect

end Deferred
