import OverlayStore.Text.Quoted

/-!
# Structural text

The one-line notation in which values, errors and handles show their structure: a name with its
arguments in parentheses, a name with its fields in braces, and brackets around sequences.
-/

namespace OverlayStore.Text

/-- Items with a comma and a blank between them. -/
def commaSeparated (items : List String) : String := ", ".intercalate items

/-- A sequence in brackets. -/
def bracketed (items : List String) : String := "[" ++ commaSeparated items ++ "]"

/-- Key and value pairs in braces. -/
def braced (entries : List (String × String)) : String :=
  "\x7b" ++ commaSeparated (entries.map fun (key, value) => key ++ ": " ++ value) ++ "\x7d"

/-- A name applied to its arguments. -/
def applied (name : String) (arguments : List String) : String :=
  name ++ "(" ++ commaSeparated arguments ++ ")"

/-- Fields of a record, in order; two dots stand for fields that are not shown. -/
def fieldList (fields : List (String × String)) (partly : Bool) : String :=
  commaSeparated
    (fields.map (fun (name, text) => name ++ ": " ++ text) ++ if partly then [".."] else [])

/-- A record with all its fields. -/
def record (name : String) (fields : List (String × String)) : String :=
  name ++ " \x7b " ++ fieldList fields false ++ " \x7d"

/-- A record of which some fields are not shown. -/
def openRecord (name : String) (fields : List (String × String)) : String :=
  name ++ " \x7b " ++ fieldList fields true ++ " \x7d"

/-- An optional part: its text in a marked form, or the word for absence. -/
def optional (text : Option String) : String :=
  match text with
  | some text => applied "Some" [text]
  | none => "None"

end OverlayStore.Text
