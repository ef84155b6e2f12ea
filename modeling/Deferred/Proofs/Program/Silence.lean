import Deferred.Program.World
import Deferred.Proofs.Alike

/-!
# Worlds without their events

`World.unheard` is what a world would be if no event had been listened to. Worlds that are the same
in this way differ in nothing that a program can see (`World.eventBlind_unheard`).
-/

namespace Deferred

/-- The program itself has recorded the entry. -/
def Entry.isValue : Entry → Bool
  | .value _ => true
  | .event _ => false

namespace World

/-- The world without the events of its trace, no longer listening. -/
def unheard (w : World) : World :=
  { w with trace := w.trace.filter Entry.isValue, listening := false }

@[simp]
theorem unheard_push_value (w : World) (v : Value) :
    (w.push (.value v)).unheard = w.unheard.push (.value v) := by
  have hkept : Entry.isValue (.value v) = true := rfl
  simp [unheard, push, Array.filter_push_of_pos hkept]

@[simp]
theorem unheard_push_event (w : World) (event : Event) :
    (w.push (.event event)).unheard = w.unheard := by
  have hdropped : ¬Entry.isValue (.event event) = true := nofun
  simp [unheard, push, Array.filter_push_of_neg hdropped]

@[simp]
theorem unheard_emit (event : Event) (w : World) :
    (Tracer.emit event w).unheard = w.unheard := by
  show (if w.listening then w.push (.event event) else w).unheard = w.unheard
  split
  · exact unheard_push_event w event
  · rfl

/-- To compare worlds without their events is blind to events. -/
theorem eventBlind_unheard : EventBlind fun w w' : World => w.unheard = w'.unheard :=
  eventBlind_of_erasure unheard_emit

end World

end Deferred
