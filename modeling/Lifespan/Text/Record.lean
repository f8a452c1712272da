/-!
# Text of records

A record is written as its name and, between braces, its fields in order, each as name, colon and
value. Truth values are written as `true` or `false`, optional values as `None` or
`Some(…)`.
-/

namespace Lifespan.Text

/-- The text of a record with the given fields. -/
def record (name : String) (fields : List (String × String)) : String :=
  name ++ " \x7b " ++ ", ".intercalate (fields.map fun f => f.1 ++ ": " ++ f.2) ++ " \x7d"

/-- The text of a truth value. -/
def truth : Bool → String
  | true => "true"
  | false => "false"

/-- The text of an optional number. -/
def optional : Option Nat → String
  | none => "None"
  | some n => "Some(" ++ toString n ++ ")"

end Lifespan.Text
