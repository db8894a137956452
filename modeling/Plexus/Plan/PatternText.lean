import Plexus.Query.Scope

/-!
# Patterns as text

The text of the part of a pattern that an operator finds: nodes in round brackets, edges in square
ones with an arrow, labels and types after colons, hop bounds after a star, and properties in
braces. Names made by the planner are not shown. Text literals are quoted and escaped, so that
the text has no line breaks of their making.
-/

namespace Plexus

/-- A variable's name, unless the planner made it. -/
def shownName (name : String) : String := if isReserved name then "" else name

/-- The properties in braces after a blank, or nothing. -/
def propertiesText (properties : Assoc String Scalar) : String :=
  if properties.isEmpty then ""
  else
    let parts := properties.map fun (key, value) => key ++ ": " ++ value.literal
    " \x7b" ++ ", ".intercalate parts ++ "\x7d"

/-- A node descriptor under the name of its variable. -/
def NodePattern.text (n : NodePattern) (name : String) : String :=
  "(" ++ shownName name ++ String.join (n.labels.map (":" ++ ·)) ++ propertiesText n.properties ++
    ")"

/-- The hop bounds of an edge descriptor after a star; nothing for exactly one hop. -/
def EdgePattern.hopsText (e : EdgePattern) : String :=
  if e.isSingle then ""
  else
    let most := match e.hops.most with
      | some n => toString n
      | none => ""
    "*" ++ toString e.hops.least ++ ".." ++ most

/-- An edge descriptor under the name of its variable, if it has one, followed in a direction. -/
def EdgePattern.text (e : EdgePattern) (name : Option String) (direction : Direction) : String :=
  let types := if e.types.isEmpty then "" else ":" ++ "|".intercalate e.types
  let inner := (name.map shownName).getD "" ++ types ++ e.hopsText ++ propertiesText e.properties
  match direction with
  | .outgoing => "-[" ++ inner ++ "]->"
  | .incoming => "<-[" ++ inner ++ "]-"
  | .both => "-[" ++ inner ++ "]-"

end Plexus
