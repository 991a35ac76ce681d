import Formula.Bracket

/-!
The journal of the work on a formula.

* `Event`: what is recorded, with its level and its wording.
* `Logged`: a computation that records events and may end in a fault; what was
  recorded before the fault is kept.
-/

namespace Formula

/-- How much detail an event gives. -/
inductive Event.Level where
  | debug
  | trace
deriving DecidableEq, Repr

/-- What is recorded during the work on a formula. -/
inductive Event where
  /-- The source has been cut into tokens. -/
  | lexed (tokens unknowns : Nat)
  /-- A pair of parentheses has been closed. -/
  | closed (block : Block)
  /-- All parentheses have been paired. -/
  | paired (blocks maxLevel : Nat)
  /-- The tree has been built. -/
  | parsed (nodes : Nat)
  /-- The program has been built. -/
  | compiled (unknowns : List String)
deriving DecidableEq, Repr

namespace Event

/-- Single pairs of parentheses are details, all else are stages of the work. -/
def level : Event → Level
  | closed _ => .trace
  | _ => .debug

/-- The wording of an event. -/
def message : Event → String
  | lexed tokens unknowns =>
      "lexed " ++ toString tokens ++ " token(s), " ++ toString unknowns ++ " unknown(s)"
  | closed b =>
      "paren block " ++ toString b.start ++ ".." ++ toString b.stop ++ " at level "
        ++ toString b.level
  | paired blocks maxLevel =>
      "resolved " ++ toString blocks ++ " paren block(s), max level " ++ toString maxLevel
  | parsed nodes => "parsed " ++ toString nodes ++ " node(s)"
  | compiled unknowns =>
      "compiled expression with unknowns ["
        ++ ", ".intercalate (unknowns.map fun name => "\"" ++ name ++ "\"") ++ "]"

end Event

/-- The outcome of a computation and the events recorded on the way. -/
structure Logged (α : Type) where
  /-- The events, in order. -/
  entries : List Event
  /-- The outcome. -/
  outcome : Except Fault α

namespace Logged

/-- An outcome without events. -/
def ofExcept {α : Type} (outcome : Except Fault α) : Logged α := ⟨[], outcome⟩

/-- Records events. -/
def record (events : List Event) : Logged Unit := ⟨events, .ok ()⟩

/-- Goes on with a further computation, unless the first ends in a fault. -/
def bind {α β : Type} (x : Logged α) (f : α → Logged β) : Logged β :=
  match x.outcome with
  | .ok a => ⟨x.entries ++ (f a).entries, (f a).outcome⟩
  | .error fault => ⟨x.entries, .error fault⟩

instance : Monad Logged where
  pure a := ofExcept (.ok a)
  bind := bind

instance : MonadLift (Except Fault) Logged := ⟨ofExcept⟩

end Logged

end Formula
