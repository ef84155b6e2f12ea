import Deferred.Proofs.Iteration

/-!
# Computations that run alike

`Alike S V x y` says that `x` and `y`, run from states that `S` relates, end alike if they end at
all: in the same panic, or in values that `V` relates, and in states that `S` relates again. It is
kept by sequencing (`Alike.bind`) and by iteration (`alike_iterate`).

With a relation between states that sees no events (`EventBlind`), being alike is being the same to
an observer who does not listen: telling the state of an event makes no difference
(`EventBlind.alike_emit`).
-/

namespace Deferred

variable {σ τ α β γ δ : Type}

/-- Both ask for another turn with related states, or both finish with related results. -/
inductive Turn.Related (A : α → β → Prop) (V : γ → δ → Prop) : Turn α γ → Turn β δ → Prop where
  | again {a : α} {b : β} (h : A a b) : Turn.Related A V (.again a) (.again b)
  | finish {c : γ} {d : δ} (h : V c d) : Turn.Related A V (.finish c) (.finish d)

theorem Turn.related_refl (turn : Turn α β) : Turn.Related Eq Eq turn turn := by
  cases turn with
  | again a => exact .again rfl
  | finish b => exact .finish rfl

namespace Computation

/-! ## Related endings -/

/-- Both are values that `V` relates, or both are the same panic. -/
inductive Matches (V : α → β → Prop) : Except Panic α → Except Panic β → Prop where
  | ok {a : α} {b : β} (h : V a b) : Matches V (.ok a) (.ok b)
  | error (p : Panic) : Matches V (.error p) (.error p)

/-- Outcomes that match exactly are equal. -/
theorem matches_eq_iff {o o' : Except Panic α} : Matches Eq o o' ↔ o = o' := by
  constructor
  · rintro (rfl | p) <;> rfl
  · rintro rfl
    cases o with
    | ok a => exact .ok rfl
    | error p => exact .error p

/-- Outcomes match both ways. -/
theorem Matches.flip {V : α → β → Prop} {o : Except Panic α} {o' : Except Panic β}
    (h : Matches (flip V) o' o) : Matches V o o' := by
  cases h with
  | ok hV => exact .ok hV
  | error p => exact .error p

/-- For every ending of `x` from `s` there is a related one of `y` from `t`. -/
def Follows (S : σ → τ → Prop) (V : α → β → Prop) (x : Computation σ α) (s : σ)
    (y : Computation τ β) (t : τ) : Prop :=
  ∀ o s', x.Halts s (o, s') → ∃ o' t', y.Halts t (o', t') ∧ Matches V o o' ∧ S s' t'

section

variable {S : σ → τ → Prop} {V : α → β → Prop} {W : γ → δ → Prop} {s : σ} {t : τ}

/-- A value is followed by a related one, if the states are related. -/
theorem follows_pure {a : α} {b : β} (hV : V a b) (hS : S s t) :
    Follows S V (pure a) s (pure b) t := by
  intro o s' h
  cases halts_pure_iff.1 h
  exact ⟨.ok b, t, halts_pure_iff.2 rfl, .ok hV, hS⟩

theorem follows_panic {p : Panic} (hS : S s t) : Follows S V (panic p) s (panic p) t := by
  intro o s' h
  cases halts_panic_iff.1 h
  exact ⟨.error p, t, halts_panic_iff.2 rfl, .error p, hS⟩

/-- A sequence follows another one part by part. -/
theorem Follows.bind {x : Computation σ α} {y : Computation τ β} {f : α → Computation σ γ}
    {g : β → Computation τ δ} (h : Follows S V x s y t)
    (hf : ∀ a b s t, V a b → S s t → Follows S W (f a) s (g b) t) :
    Follows S W (x >>= f) s (y >>= g) t := by
  intro o u hu
  rcases halts_bind_iff.1 hu with ⟨p, s', hx, hend⟩ | ⟨a, s', hx, hrest⟩
  · cases hend
    obtain ⟨o', t', hy, hmatch, hS⟩ := h _ _ hx
    cases hmatch
    exact ⟨.error p, t', (halts_bind_error_iff hy).2 rfl, .error p, hS⟩
  · obtain ⟨o', t', hy, hmatch, hS⟩ := h _ _ hx
    cases hmatch with
    | ok hV =>
      obtain ⟨o'', u', hg, hmatch, hS'⟩ := hf _ _ _ _ hV hS _ _ hrest
      exact ⟨o'', u', (halts_bind_ok_iff hy).2 hg, hmatch, hS'⟩

/-- Iterations with related steps have related endings, whatever relates their states. -/
theorem follows_iterate {A : α → β → Prop} {f : α → Computation σ (Turn α γ)}
    {g : β → Computation τ (Turn β δ)}
    (hstep : ∀ a b s t, A a b → S s t → Follows S (Turn.Related A W) (f a) s (g b) t) {a : α}
    {b : β} (hA : A a b) (hS : S s t) : Follows S W (iterate f a) s (iterate g b) t := by
  intro o u hu
  have hunfold := iterate_equiv_onTurn g
  refine halts_iterate_induction (motive := fun a s e => ∀ b t, A a b → S s t →
    ∃ o' t', (iterate g b).Halts t (o', t') ∧ Matches W e.1 o' ∧ S e.2 t')
    ?panicked ?finished ?again hu b t hA hS
  case panicked =>
    intro a s p s' hf b t hA hS
    obtain ⟨o', t', hg, hmatch, hS'⟩ := hstep a b s t hA hS _ _ hf
    cases hmatch
    exact ⟨_, t', (hunfold b t _).2 ((halts_bind_error_iff hg).2 rfl), .error p, hS'⟩
  case finished =>
    intro a s c s' hf b t hA hS
    obtain ⟨o', t', hg, hmatch, hS'⟩ := hstep a b s t hA hS _ _ hf
    rcases hmatch with ⟨_ | hW⟩
    exact ⟨_, t', (hunfold b t _).2 ((halts_bind_ok_iff hg).2 (halts_pure_iff.2 rfl)), .ok hW, hS'⟩
  case again =>
    intro a s a' s' e hf _ ih b t hA hS
    obtain ⟨o', t', hg, hmatch, hS'⟩ := hstep a b s t hA hS _ _ hf
    rcases hmatch with ⟨hA' | _⟩
    obtain ⟨o'', u', hrest, hmatch, hS''⟩ := ih _ _ hA' hS'
    exact ⟨o'', u', (hunfold b t _).2 ((halts_bind_ok_iff hg).2 hrest), hmatch, hS''⟩

end

/-! ## Both ways -/

/-- From related states, each has a related ending for every ending of the other. -/
def Alike (S : σ → τ → Prop) (V : α → β → Prop) (x : Computation σ α) (y : Computation τ β) :
    Prop :=
  ∀ s t, S s t → Follows S V x s y t ∧ Follows (flip S) (flip V) y t x s

section

variable {S : σ → τ → Prop} {V : α → β → Prop} {W : γ → δ → Prop}

theorem alike_pure {a : α} {b : β} (hV : V a b) :
    Alike S V (pure a : Computation σ α) (pure b : Computation τ β) :=
  fun _ _ hS => ⟨follows_pure hV hS, follows_pure hV hS⟩

theorem alike_panic (p : Panic) :
    Alike S V (panic p : Computation σ α) (panic p : Computation τ β) :=
  fun _ _ hS => ⟨follows_panic hS, follows_panic hS⟩

/-- Updates run alike if they yield related values and leave related states. -/
theorem alike_update {f : σ → α × σ} {g : τ → β × τ}
    (h : ∀ s t, S s t → V (f s).1 (g t).1 ∧ S (f s).2 (g t).2) :
    Alike S V (update f) (update g) := by
  intro s t hS
  obtain ⟨hV, hS'⟩ := h s t hS
  constructor
  · intro o u hu
    cases halts_update_iff.1 hu
    exact ⟨_, _, halts_update_iff.2 rfl, .ok hV, hS'⟩
  · intro o u hu
    cases halts_update_iff.1 hu
    exact ⟨_, _, halts_update_iff.2 rfl, .ok hV, hS'⟩

/-- Related states are seen as related values. -/
theorem alike_get : Alike S S (get : Computation σ σ) (get : Computation τ τ) := by
  intro s t hS
  constructor
  · rintro o u ⟨n, h⟩
    cases h
    exact ⟨.ok t, t, ⟨0, rfl⟩, .ok hS, hS⟩
  · rintro o u ⟨n, h⟩
    cases h
    exact ⟨.ok s, s, ⟨0, rfl⟩, .ok hS, hS⟩

theorem alike_set {s' : σ} {t' : τ} (h : S s' t') :
    Alike S Eq (set s' : Computation σ Unit) (set t' : Computation τ Unit) := by
  intro s t _
  constructor
  · rintro o u ⟨n, h'⟩
    cases h'
    exact ⟨.ok (), t', ⟨0, rfl⟩, .ok rfl, h⟩
  · rintro o u ⟨n, h'⟩
    cases h'
    exact ⟨.ok (), s', ⟨0, rfl⟩, .ok rfl, h⟩

/-- Sequences run alike if their first parts do, and if what follows them does for related
values. -/
theorem Alike.bind {x : Computation σ α} {y : Computation τ β} {f : α → Computation σ γ}
    {g : β → Computation τ δ} (h : Alike S V x y) (hf : ∀ a b, V a b → Alike S W (f a) (g b)) :
    Alike S W (x >>= f) (y >>= g) := by
  intro s t hS
  obtain ⟨hxy, hyx⟩ := h s t hS
  constructor
  · exact hxy.bind fun a b s t hV hS => (hf a b hV s t hS).1
  · exact hyx.bind fun b a t s hV hS => (hf a b hV s t hS).2

/-- Where the values are the same, what follows has to run alike for each of them. -/
theorem Alike.bind_eq {x : Computation σ α} {y : Computation τ α} {f : α → Computation σ γ}
    {g : α → Computation τ δ} (h : Alike S Eq x y) (hf : ∀ a, Alike S W (f a) (g a)) :
    Alike S W (x >>= f) (y >>= g) := by
  refine h.bind fun a b hab => ?_
  subst hab
  exact hf a

/-- A result that is there already runs alike everywhere. -/
theorem alike_lift (r : Except Panic α) :
    Alike S Eq (liftM r : Computation σ α) (liftM r : Computation τ α) := by
  cases r with
  | ok a => exact alike_pure rfl
  | error p => exact alike_panic p

/-- What never ends runs like anything that never ends. -/
theorem alike_never : Alike S V (never : Computation σ α) (never : Computation τ β) := by
  intro s t _
  constructor
  · rintro o u ⟨n, h⟩
    exact nomatch h
  · rintro o u ⟨n, h⟩
    exact nomatch h

/-- Computations that run alike on other states do so on these, if the views of related states are
related and related states can be brought back. -/
theorem Alike.onState {σ' τ' : Type} {S' : σ' → τ' → Prop} {view : σ → σ'} {put : σ → σ' → σ}
    {view' : τ → τ'} {put' : τ → τ' → τ} {x : Computation σ' α} {y : Computation τ' β}
    (h : Alike S' V x y) (hview : ∀ s t, S s t → S' (view s) (view' t))
    (hput : ∀ s t u v, S s t → S' u v → S (put s u) (put' t v)) :
    Alike S V (x.onState view put) (y.onState view' put') := by
  intro s t hS
  obtain ⟨hxy, hyx⟩ := h _ _ (hview s t hS)
  constructor
  · intro o u hu
    obtain ⟨o, u, hx, hend⟩ := halts_onState_iff.1 hu
    cases hend
    obtain ⟨o', v, hy, hmatch, hS'⟩ := hxy _ _ hx
    exact ⟨o', put' t v, halts_onState_iff.2 ⟨o', v, hy, rfl⟩, hmatch, hput s t u v hS hS'⟩
  · intro o v hv
    obtain ⟨o, v, hy, hend⟩ := halts_onState_iff.1 hv
    cases hend
    obtain ⟨o', u, hx, hmatch, hS'⟩ := hyx _ _ hy
    exact ⟨o', put s u, halts_onState_iff.2 ⟨o', u, hx, rfl⟩, hmatch, hput s t u v hS hS'⟩

/-- Iterations with related steps run alike, whatever relates their states. -/
theorem alike_iterate {A : α → β → Prop} {f : α → Computation σ (Turn α γ)}
    {g : β → Computation τ (Turn β δ)}
    (hstep : ∀ a b, A a b → Alike S (Turn.Related A W) (f a) (g b)) {a : α} {b : β} (hA : A a b) :
    Alike S W (iterate f a) (iterate g b) := by
  intro s t hS
  constructor
  · exact follows_iterate (fun a b s t hA hS => (hstep a b hA s t hS).1) hA hS
  · refine follows_iterate (A := flip A) (fun b a t s hA hS => ?_) hA hS
    intro o t' hg
    obtain ⟨o', s', hf, hmatch, hS'⟩ := (hstep a b hA s t hS).2 o t' hg
    refine ⟨o', s', hf, ?_, hS'⟩
    rcases hmatch with ⟨hA | hW⟩ | p
    · exact .ok (.again hA)
    · exact .ok (.finish hW)
    · exact .error p

/-- Ending alike includes ending at all. -/
theorem Alike.diverges_iff {x : Computation σ α} {y : Computation τ β} (h : Alike S V x y) {s : σ}
    {t : τ} (hS : S s t) : x.Diverges s ↔ y.Diverges t := by
  obtain ⟨hxy, hyx⟩ := h s t hS
  rw [Computation.diverges_iff, Computation.diverges_iff]
  constructor
  · rintro hx ⟨o, t'⟩ hy
    obtain ⟨o', s', hx', -⟩ := hyx o t' hy
    exact hx _ hx'
  · rintro hy ⟨o, s'⟩ hx
    obtain ⟨o', t', hy', -⟩ := hxy o s' hx
    exact hy _ hy'

/-- Computations that end alike everywhere can stand for each other. -/
theorem Alike.of_equiv {x x' : Computation σ α} {y y' : Computation τ β} (hx : x' ≈ x)
    (hy : y' ≈ y) (h : Alike S V x y) : Alike S V x' y' := by
  intro s t hS
  obtain ⟨hxy, hyx⟩ := h s t hS
  constructor
  · intro o s' hx'
    obtain ⟨o', t', hy', hrest⟩ := hxy o s' ((hx s _).1 hx')
    exact ⟨o', t', (hy t _).2 hy', hrest⟩
  · intro o t' hy'
    obtain ⟨o', s', hx', hrest⟩ := hyx o t' ((hy t _).1 hy')
    exact ⟨o', s', (hx s _).2 hx', hrest⟩

/-- Attempts at alike computations yield matching outcomes. -/
theorem Alike.attempt {x : Computation σ α} {y : Computation τ β} (h : Alike S V x y) :
    Alike S (Matches V) x.attempt y.attempt := by
  intro s t hS
  obtain ⟨hxy, hyx⟩ := h s t hS
  constructor
  · intro o s' hx
    obtain ⟨o, s', hx, hend⟩ := halts_attempt_iff.1 hx
    cases hend
    obtain ⟨o', t', hy, hmatch, hS'⟩ := hxy _ _ hx
    exact ⟨.ok o', t', halts_attempt_iff.2 ⟨o', t', hy, rfl⟩, .ok hmatch, hS'⟩
  · intro o t' hy
    obtain ⟨o, t', hy, hend⟩ := halts_attempt_iff.1 hy
    cases hend
    obtain ⟨o', s', hx, hmatch, hS'⟩ := hyx _ _ hy
    exact ⟨.ok o', s', halts_attempt_iff.2 ⟨o', s', hx, rfl⟩, .ok hmatch.flip, hS'⟩

/-- Where the values are the same, so is what an attempt yields. -/
theorem Alike.attempt_eq {x : Computation σ α} {y : Computation τ α} (h : Alike S Eq x y) :
    Alike S Eq x.attempt y.attempt := by
  have hmatches : Alike S (Matches Eq) x.attempt y.attempt := h.attempt
  rw [← bind_pure_eq x.attempt, ← bind_pure_eq y.attempt]
  exact hmatches.bind fun o o' ho => alike_pure (matches_eq_iff.1 ho)

/-- Rows of invocations of effects that run alike have the same outcomes. -/
theorem alike_invocations {e : Effect σ α} {d : Effect τ α} (h : Alike S Eq e.invoke d.invoke)
    (count : Nat) : Alike S Eq (e.invocations count) (d.invocations count) := by
  induction count with
  | zero => exact alike_pure rfl
  | succ count ih =>
    refine h.attempt.bind fun o o' ho => ih.bind fun os os' hos => alike_pure ?_
    rw [matches_eq_iff.1 ho, hos]

end

end Computation

open Deferred.Computation

/-! ## Events that nobody sees -/

/-- `x` does not see what `same` does not: from states that are the same it ends the same. -/
def Computation.Respects (same : σ → σ → Prop) (x : Computation σ α) : Prop := Alike same Eq x x

/-- Every computation ends the same from the same state. -/
theorem Computation.respects_of_eq {same : σ → σ → Prop} (h : ∀ s t, same s t ↔ s = t)
    (x : Computation σ α) : x.Respects same := by
  intro s t hst
  obtain rfl := (h s t).1 hst
  constructor
  · exact fun o u hu => ⟨o, u, hu, matches_eq_iff.2 rfl, (h u u).2 rfl⟩
  · exact fun o u hu => ⟨o, u, hu, (matches_eq_iff.2 rfl).flip, (h u u).2 rfl⟩

theorem alike_eq_refl (x : Computation σ α) : Alike Eq Eq x x :=
  respects_of_eq (fun _ _ => .rfl) x

/-- With equality for both relations, running alike is observational equality. -/
theorem alike_eq_of_equiv {x y : Computation σ α} (h : x ≈ y) : Alike Eq Eq x y :=
  (alike_eq_refl y).of_equiv h (equiv_refl y)

theorem equiv_of_alike_eq {x y : Computation σ α} (h : Alike Eq Eq x y) : x ≈ y := by
  intro s r
  have ⟨hxy, hyx⟩ := h s s rfl
  constructor
  · intro hx
    have ⟨o, t, hy, ho, ht⟩ := hxy r.1 r.2 hx
    rwa [← matches_eq_iff.1 ho, ← ht] at hy
  · intro hy
    have ⟨o, t, hx, ho, ht⟩ := hyx r.1 r.2 hy
    rwa [matches_eq_iff.1 ho.flip, ht] at hx

/-- A relation between states for which it makes no difference whether they were told of an
event. -/
structure EventBlind [Tracer σ] (same : σ → σ → Prop) : Prop extends Equivalence same where
  told (event : Event) (s : σ) : same (Tracer.emit event s) s

/-- What an erasure makes of a state does not tell of events, if it makes the same of a state that
was told of one. -/
theorem eventBlind_of_erasure [Tracer σ] {erase : σ → τ}
    (h : ∀ event s, erase (Tracer.emit event s) = erase s) :
    EventBlind fun s t => erase s = erase t where
  refl _ := rfl
  symm := Eq.symm
  trans := Eq.trans
  told := h

namespace EventBlind

variable [Tracer σ] {same : σ → σ → Prop} {V : α → β → Prop} {x : Computation σ α}
  {y : Computation σ β}

/-- An event on one side is not seen. -/
theorem alike_emit_left (hsame : EventBlind same) (event : Event)
    (h : Alike same V x y) : Alike same V (emit event >>= fun _ => x) y := by
  intro s t hst
  have hemit : (emit event >>= fun _ => x).Resumes s x (Tracer.emit event s) := resumes_emit x s
  obtain ⟨hxy, hyx⟩ := h _ t (hsame.trans (hsame.told event s) hst)
  constructor
  · intro o u hu
    exact hxy o u ((hemit _).1 hu)
  · intro o u hu
    obtain ⟨o', v, hx, hrest⟩ := hyx o u hu
    exact ⟨o', v, (hemit _).2 hx, hrest⟩

theorem alike_emit_right (hsame : EventBlind same) (event : Event)
    (h : Alike same V x y) : Alike same V x (emit event >>= fun _ => y) := by
  intro s t hst
  have hemit : (emit event >>= fun _ => y).Resumes t y (Tracer.emit event t) := resumes_emit y t
  obtain ⟨hxy, hyx⟩ := h s _ (hsame.trans hst (hsame.symm (hsame.told event t)))
  constructor
  · intro o u hu
    obtain ⟨o', v, hy, hrest⟩ := hxy o u hu
    exact ⟨o', v, (hemit _).2 hy, hrest⟩
  · intro o u hu
    exact hyx o u ((hemit _).1 hu)

end EventBlind

/-- The effects go alike but for the events that their invocations tell of. What `parts` says of a
relation between states is that the parts of the effects do not see what the relation does not. -/
structure Effect.SameUnseen [Tracer σ] (parts : (σ → σ → Prop) → Prop) (e d : Effect σ α) : Prop
    where
  /-- Whoever sees no events cannot tell rows of invocations apart, if the parts do not see events
  either. -/
  unseen {same : σ → σ → Prop} (hsame : EventBlind same) (hparts : parts same) (count : Nat) :
    Alike same Eq (e.invocations count) (d.invocations count)
  /-- Where events leave no mark, the effects are the same. -/
  silent (hsilent : ∀ event (s : σ), Tracer.emit event s = s) : e ≈ d

/-- It is enough that the effects run alike for every relation that no event and no part can see
through. -/
theorem Effect.sameUnseen_of_alike [Tracer σ] {parts : (σ → σ → Prop) → Prop} {e d : Effect σ α}
    (h : ∀ same, EventBlind same → parts same → Alike same Eq e.invoke d.invoke)
    (hparts : parts Eq) : SameUnseen parts e d where
  unseen hsame hparts := alike_invocations (h _ hsame hparts)
  silent hsilent :=
    equiv_iff.2 (equiv_of_alike_eq (h Eq ⟨⟨Eq.refl, Eq.symm, Eq.trans⟩, hsilent⟩ hparts))

end Deferred
