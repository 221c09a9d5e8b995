/-!
# Described values

Every structure of the library can be described in one line of text: its name
followed by its fields between braces, and sequences between square brackets.

- `Text.record`: a named record, `Name { field: value, field: value }`.
- `Text.sequence`: a bracketed sequence, `[a, b]`; the empty one is `[]`.
- `Text.quoted`: a name between double quotes.
-/

namespace EntityScene.Text

/-- A record with at least one field, `Name { field: value, field: value }`. -/
def record (name : String) (fields : List (String × String)) : String :=
  name ++ " \x7b " ++ ", ".intercalate (fields.map fun f => f.1 ++ ": " ++ f.2) ++ " \x7d"

/-- A sequence between square brackets, `[a, b]`. -/
def sequence (items : List String) : String :=
  "[" ++ ", ".intercalate items ++ "]"

/-- A name between double quotes. The names of component kinds hold no character
that would need escaping. -/
def quoted (name : String) : String :=
  "\"" ++ name ++ "\""

/-- The words `true` and `false`. -/
def truth : Bool → String
  | true => "true"
  | false => "false"

end EntityScene.Text
