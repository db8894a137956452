import Plexus.Double.Shortest
import Plexus.Text.Quoted

/-!
# Rendered values

The tree that hosts receive: rows become objects keyed by column, nodes and edges expand to their
stored data. Objects keep their fields in ascending order of name, one value per name. The
compact text of a tree has no blanks.
-/

namespace Plexus

/-- A rendered value. -/
inductive Json where
  | null
  | boolean (b : Bool)
  | natural (n : Nat)
  | number (x : Double)
  | text (s : String)
  | array (items : List Json)
  | object (fields : List (String × Json))

namespace Json

/-- Give a name a value among fields in ascending order. -/
def setField (name : String) (value : Json) : List (String × Json) → List (String × Json)
  | [] => [(name, value)]
  | (n, v) :: rest =>
    match compare name n with
    | .lt => (name, value) :: (n, v) :: rest
    | .eq => (name, value) :: rest
    | .gt => (n, v) :: setField name value rest

/-- An object with the given fields; of two values for one name the later counts. -/
def ofFields (fields : List (String × Json)) : Json :=
  object (fields.foldl (fun acc f => setField f.1 f.2 acc) [])

mutual

/-- The compact text of a value. -/
def compact : Json → String
  | null => "null"
  | boolean b => if b then "true" else "false"
  | natural n => toString n
  | number x => x.text
  | text s => Text.quoted s
  | array items => "[" ++ compactItems items ++ "]"
  | object fields => "\x7b" ++ compactFields fields ++ "\x7d"

/-- The items of an array, separated by commas. -/
def compactItems : List Json → String
  | [] => ""
  | [v] => compact v
  | v :: rest => compact v ++ "," ++ compactItems rest

/-- The fields of an object, separated by commas. -/
def compactFields : List (String × Json) → String
  | [] => ""
  | [(n, v)] => Text.quoted n ++ ":" ++ compact v
  | (n, v) :: rest => Text.quoted n ++ ":" ++ compact v ++ "," ++ compactFields rest

end

end Json

end Plexus
