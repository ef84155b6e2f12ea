import Deferred.Computation

/-!
# How computations end

Budgets are a means of running; what counts is how a computation ends. `x.Halts s r` says that
`x` ends in `r` from the state `s` within some budget, and `x.Diverges s` that it ends within
none. An ending is unique (`halts_unique`), and there is one unless the computation diverges
(`diverges_iff`).

Two computations are observationally equal, `x ≈ y`, if they end alike from every state. The
ending of `x >>= f` is given by `halts_bind_iff`, and `≈` is kept by sequencing.
-/

namespace Deferred

variable {σ α β : Type}

namespace Computation

/-- Ends in `r`, a value or a panic together with a state. -/
def Halts (x : Computation σ α) (s : σ) (r : Except Panic α × σ) : Prop :=
  ∃ n, x.run n s = some r

/-- Never ends. -/
def Diverges (x : Computation σ α) (s : σ) : Prop :=
  ∀ n, x.run n s = none

/-- There is at most one ending, whatever the budget. -/
theorem halts_unique {x : Computation σ α} {s : σ} {r t : Except Panic α × σ}
    (hr : x.Halts s r) (ht : x.Halts s t) : r = t := by
  obtain ⟨m, hm⟩ := hr
  obtain ⟨n, hn⟩ := ht
  have hm := x.run_within (Nat.le_max_left m n) _ _ hm
  have hn := x.run_within (Nat.le_max_right m n) _ _ hn
  exact Option.some.inj (hm.symm.trans hn)

/-- Without an ending there is divergence, and only then. -/
theorem diverges_iff {x : Computation σ α} {s : σ} : x.Diverges s ↔ ∀ r, ¬x.Halts s r := by
  constructor
  · rintro h r ⟨n, hn⟩
    exact nomatch (h n).symm.trans hn
  · intro h n
    cases hn : x.run n s with
    | none => rfl
    | some r => exact absurd ⟨n, hn⟩ (h r)

/-! ## Endings of the operations -/

theorem halts_pure_iff {a : α} {s : σ} {r : Except Panic α × σ} :
    (pure a : Computation σ α).Halts s r ↔ r = (.ok a, s) :=
  ⟨fun ⟨_, h⟩ => (Option.some.inj h).symm, fun h => ⟨0, h ▸ rfl⟩⟩

theorem halts_panic_iff {p : Panic} {s : σ} {r : Except Panic α × σ} :
    (panic p : Computation σ α).Halts s r ↔ r = (.error p, s) :=
  ⟨fun ⟨_, h⟩ => (Option.some.inj h).symm, fun h => ⟨0, h ▸ rfl⟩⟩

/-- A sequence ends in the panic of its first part, or as its second part does. -/
theorem halts_bind_iff {x : Computation σ α} {f : α → Computation σ β} {s : σ}
    {r : Except Panic β × σ} :
    (x >>= f).Halts s r ↔
      (∃ p s', x.Halts s (.error p, s') ∧ r = (.error p, s')) ∨
      (∃ a s', x.Halts s (.ok a, s') ∧ (f a).Halts s' r) := by
  constructor
  · rintro ⟨n, h⟩
    rw [run_bind] at h
    split at h
    · exact nomatch h
    · next p s' hx => exact .inl ⟨p, s', ⟨n, hx⟩, (Option.some.inj h).symm⟩
    · next a s' hx => exact .inr ⟨a, s', ⟨n, hx⟩, ⟨n, h⟩⟩
  · rintro (⟨p, s', ⟨n, hx⟩, rfl⟩ | ⟨a, s', ⟨m, hx⟩, ⟨n, hf⟩⟩)
    · exact ⟨n, by rw [run_bind, hx]⟩
    · refine ⟨max m n, ?_⟩
      rw [run_bind, x.run_within (Nat.le_max_left m n) _ _ hx]
      exact (f a).run_within (Nat.le_max_right m n) _ _ hf

/-! ## Observational equality -/

/-- Ending alike from every state. -/
instance : HasEquiv (Computation σ α) where
  Equiv x y := ∀ s r, x.Halts s r ↔ y.Halts s r

/-- What it means for two computations to be observationally equal. -/
theorem equiv_def {x y : Computation σ α} : x ≈ y ↔ ∀ s r, x.Halts s r ↔ y.Halts s r := .rfl

theorem equiv_refl (x : Computation σ α) : x ≈ x := fun _ _ => .rfl

theorem equiv_of_eq {x y : Computation σ α} (h : x = y) : x ≈ y := h ▸ equiv_refl x

theorem equiv_symm {x y : Computation σ α} (h : x ≈ y) : y ≈ x := fun s r => (h s r).symm

theorem equiv_trans {x y z : Computation σ α} (h : x ≈ y) (h' : y ≈ z) : x ≈ z :=
  fun s r => (h s r).trans (h' s r)

/-- Computations that end alike diverge alike. -/
theorem diverges_congr {x y : Computation σ α} (h : x ≈ y) {s : σ} :
    x.Diverges s ↔ y.Diverges s := by
  simp only [diverges_iff, equiv_def.1 h s]

/-- Parts of a sequence may be replaced by ones that end alike. -/
theorem bind_congr_equiv {x y : Computation σ α} {f g : α → Computation σ β} (h : x ≈ y)
    (hf : ∀ a, f a ≈ g a) : (x >>= f) ≈ (y >>= g) := by
  intro s r
  simp only [halts_bind_iff, equiv_def.1 h, equiv_def.1 (hf _)]

end Computation

end Deferred
