import Deferred.Program.Build

/-!
# What programs mention

`Term.Mentions` collects what the meaning of a term can depend on besides the world: the names that
it takes from its scope, the effects that it looks up by their names, and the events that it can
tell of. A name that a term binds itself is not mentioned by it (`Mention.Outside`).
-/

namespace Deferred

/-- Something that a program mentions. -/
inductive Mention where
  /-- A name of the scope. -/
  | var (name : String)
  /-- An effect defined under a name. -/
  | effect (name : String)
  /-- An event that an operation of the program tells of. -/
  | event (e : Event)

/-- It is none of the names that are bound here. -/
def Mention.Outside (bound : List String) (m : Mention) : Prop := ∀ name ∈ bound, m ≠ .var name

namespace Expr

mutual

/-- The expression takes the name from its scope. -/
def Mentions (m : Mention) : Expr → Prop
  | const _ | cell _ => False
  | var name => m = .var name
  | list items => MentionsAny m items
  | pair x y | intOp _ x y | eq x y | concat x y | append x y | range x y | tap x y =>
    x.Mentions m ∨ y.Mentions m
  | tagged _ x | fst x | snd x | not x | len x | fail _ x => x.Mentions m
  | cond test yes no => test.Mentions m ∨ yes.Mentions m ∨ no.Mentions m
  | letIn name x body => x.Mentions m ∨ body.Mentions m ∧ m.Outside [name]

def MentionsAny (m : Mention) : List Expr → Prop
  | [] => False
  | x :: xs => x.Mentions m ∨ MentionsAny m xs

end

end Expr

def Source.Mentions (m : Mention) : Source → Prop
  | .items list => list.Mentions m
  | .recorded label list => label.Mentions m ∨ list.Mentions m

mutual

/-- The term mentions it, somewhere in its parts or in the bodies of its functions. -/
def Term.Mentions {mode : Mode} (m : Mention) : Term mode → Prop
  -- Leaves.
  | .readCell _ | .unit | .empty _ | .emptyViaPure _ => False
  | .pure x | .here x | .fail _ x | .writeCell _ x => x.Mentions m
  | .act x y | .script x y => x.Mentions m ∨ y.Mentions m
  | .changeCell _ name body => body.Mentions m ∧ m.Outside [name]
  | .ref effect => m = .effect effect
  -- Terms with one part.
  | .void e | .clone e | .defer e | .neg _ e | .forever e | .combineN _ e _ => e.Mentions m
  | .mark x e | .when x e | .whenNot x e => x.Mentions m ∨ e.Mentions m
  | .replace e x => e.Mentions m ∨ x.Mentions m
  | .letIn name x e | .iterate x name e => x.Mentions m ∨ e.Mentions m ∧ m.Outside [name]
  | .map e name body | .mapViaBind e name body | .mapTimes _ e name body | .mapOk e name body =>
    e.Mentions m ∨ body.Mentions m ∧ m.Outside [name]
  -- Terms with several parts.
  | .andThen e d | .product e d | .applyFirst e d | .applySecond e d | .combine _ e d
  | .appendViaBind _ e d | .numOp _ _ e d => e.Mentions m ∨ d.Mentions m
  | .cond test e d => test.Mentions m ∨ e.Mentions m ∨ d.Mentions m
  | .bind e name d | .bindTimes _ e name d | .andThenOk e name d =>
    e.Mentions m ∨ d.Mentions m ∧ m.Outside [name]
  | .map2 e d first second body =>
    e.Mentions m ∨ d.Mentions m ∨ body.Mentions m ∧ m.Outside [first, second]
  | .apply e name arg body d | .applyViaBind e name arg body d =>
    e.Mentions m ∨ d.Mentions m ∨ body.Mentions m ∧ m.Outside [name, arg]
  | .combineAll _ es | .reduceAll _ es => es.Mentions m
  | .block statements last => Statement.MentionsAll m (last.Mentions m) statements
  -- Terms that tell of events.
  | .guarded e => (∃ error, m = .event (.invocationFailed error)) ∨ e.Mentions m
  | .untilTrue c => m = .event (.loopStarted false .untilTrue) ∨ c.Mentions m
  | .whileTrue c b => m = .event (.loopStarted false .whileTrue) ∨ c.Mentions m ∨ b.Mentions m
  | .forRange low high name body =>
    (∃ a b, m = .event (.loopStarted false (.forRange a b))) ∨
      low.Mentions m ∨ high.Mentions m ∨ body.Mentions m ∧ m.Outside [name]
  | .forEach source name body =>
    (∃ length, m = .event (.loopStarted false (.forEach length))) ∨
      source.Mentions m ∨ body.Mentions m ∧ m.Outside [name]
  | .tryUntil c => m = .event (.loopStarted true .untilTrue) ∨ c.Mentions m
  | .tryWhile c b => m = .event (.loopStarted true .whileTrue) ∨ c.Mentions m ∨ b.Mentions m
  | .tryForRange low high name body =>
    (∃ a b, m = .event (.loopStarted true (.forRange a b))) ∨
      low.Mentions m ∨ high.Mentions m ∨ body.Mentions m ∧ m.Outside [name]
  | .tryForEach source name body =>
    (∃ length, m = .event (.loopStarted true (.forEach length))) ∨
      source.Mentions m ∨ body.Mentions m ∧ m.Outside [name]

def Terms.Mentions {mode : Mode} (m : Mention) : Terms mode → Prop
  | .nil => False
  | .cons e es => e.Mentions m ∨ es.Mentions m

/-- A statement of the block mentions it, or what comes last does. A name that a statement binds is
bound in all that follows. -/
def Statement.MentionsAll (m : Mention) (last : Prop) : List Statement → Prop
  | [] => last
  | .bind name e :: rest => e.Mentions m ∨ Statement.MentionsAll m last rest ∧ m.Outside [name]
  | .bindPair first second e :: rest =>
    e.Mentions m ∨ Statement.MentionsAll m last rest ∧ m.Outside [first, second]
  | .run e :: rest => e.Mentions m ∨ Statement.MentionsAll m last rest
  | .letIn name x :: rest => x.Mentions m ∨ Statement.MentionsAll m last rest ∧ m.Outside [name]
  | .letPair first second x :: rest =>
    x.Mentions m ∨ Statement.MentionsAll m last rest ∧ m.Outside [first, second]

end

end Deferred
