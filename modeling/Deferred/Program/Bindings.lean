/-!
# Bindings

Names with what they stand for. The newest binding of a name hides the older ones.
-/

namespace Deferred

/-- Names with what they stand for, the newest first. -/
abbrev Bindings (α : Type) := List (String × α)

namespace Bindings

variable {α : Type}

/-- What the name stands for. -/
def find? : (bindings : Bindings α) → (name : String) → Option α
  | [], _ => none
  | (other, a) :: rest, name => if other = name then some a else find? rest name

/-- Hides what the name stood for. -/
def bind (bindings : Bindings α) (name : String) (a : α) : Bindings α :=
  (name, a) :: bindings

/-- Puts `a` in place of what the name stood for; a new name comes last. -/
def put (name : String) (a : α) : Bindings α → Bindings α
  | [] => [(name, a)]
  | (other, b) :: rest =>
    if other = name then (name, a) :: rest else (other, b) :: put name a rest

/-- Forgets the name. -/
def forget (bindings : Bindings α) (name : String) : Bindings α :=
  bindings.filter fun entry => entry.1 ≠ name

/-- Binding a name shadows it, and leaves all others. -/
theorem find?_bind (bindings : Bindings α) (name other : String) (a : α) :
    (bindings.bind name a).find? other = if name = other then some a else bindings.find? other :=
  rfl

/-- Storing under a name replaces what stood there, and leaves all others. -/
theorem find?_put (bindings : Bindings α) (name other : String) (a : α) :
    find? (put name a bindings) other = if name = other then some a else bindings.find? other := by
  induction bindings with
  | nil => rfl
  | cons entry rest ih =>
    obtain ⟨key, b⟩ := entry
    by_cases hk : key = name <;> by_cases ho : name = other <;> simp_all [find?, put]

end Bindings

end Deferred
