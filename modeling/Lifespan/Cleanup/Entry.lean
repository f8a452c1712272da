import Lifespan.Text.Quoted

/-!
# Cleanup entries

A chain is a list of entries, each of which is to be carried out once, the oldest first. An entry
either performs a labelled action or gives up a reference to a shared chain. Every entry bears a
ticket, the serial number of its registration, so that it can be told apart from all others
wherever it moves.
-/

namespace Lifespan.Cleanup

/-- The number of a shared chain. -/
abbrev CellId := Nat

/-- A reference to a shared chain; `none` refers to nothing. -/
abbrev Handle := Option CellId

/-- An action that is known by its label. -/
structure Action where
  label : String
  fails : Bool := false
  /-- Whether the log also tells that the action was dropped. -/
  tellsDrop : Bool := true
deriving DecidableEq, Repr

/-- What an entry is there for. -/
inductive Duty where
  | perform (a : Action)
  | giveUp (h : Handle)
deriving DecidableEq, Repr

/-- A registered duty. -/
structure Entry where
  ticket : Nat
  duty : Duty
deriving DecidableEq, Repr

/-- Entries in the order in which they are carried out. -/
abbrev Chain := List Entry

/-- What becomes of two chains when the entries of the one go to the end of the other. If the other
one is empty, the two change places. -/
def Chain.delegate (source target : Chain) : Chain × Chain :=
  if target.isEmpty then (target, source) else ([], target ++ source)

/-- Both ways lead to the same chains. -/
theorem Chain.delegate_eq (source target : Chain) :
    Chain.delegate source target = ([], target ++ source) := by
  cases target <;> rfl

/-- How an entry ends. -/
inductive Fate where
  | ran
  | dropped
deriving DecidableEq, Repr

/-- The end of an entry. -/
structure Event where
  entry : Entry
  fate : Fate
deriving DecidableEq, Repr

/-- What the log says of an event: the label of an action that was performed, and the label after
an exclamation mark if it was dropped and tells so. Giving up a reference is not told. -/
def Event.text? (e : Event) : Option String :=
  match e.entry.duty, e.fate with
  | .perform a, .ran => some a.label
  | .perform a, .dropped => if a.tellsDrop then some ("!" ++ a.label) else none
  | .giveUp _, _ => none

/-- Events in the order in which they happened. -/
abbrev Log := List Event

namespace Log

/-- What the log says. -/
def texts (l : Log) : List String := l.filterMap Event.text?

/-- What the log says from the event with number `n` on. -/
def textsFrom (l : Log) (n : Nat) : List String := texts (l.drop n)

/-- The text of a log: the list of what it says. -/
def describe (l : Log) : String := Quoted.ofTexts l.texts

end Log

end Lifespan.Cleanup
