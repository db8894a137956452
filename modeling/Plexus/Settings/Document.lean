import Plexus.Settings
import Plexus.Text.Blank
import Plexus.Yaml.Node

/-!
# Settings documents

Settings are written as a document of two levels. A section or a setting that is left out has its
default, and names that mean nothing here are passed over; a name that means something may be
given once. Only plain scalars are numbers and booleans. Numbers are decimal without leading
zeros, or have a base mark.
-/

namespace Plexus.Settings

/-- The number that some digits stand for in a base. -/
def digits? (base : Nat) (digits : List Char) : Option Nat :=
  if digits.isEmpty then none
  else digits.foldlM (fun n c =>
    let digit := if '0' ≤ c && c ≤ '9' then c.toNat - 48
      else if 'a' ≤ c && c ≤ 'z' then c.toNat - 87
      else if 'A' ≤ c && c ≤ 'Z' then c.toNat - 55
      else base
    if digit < base then some (base * n + digit) else none) 0

/-- The number that is written as a text; a plus sign may stand before it. -/
def number? (text : String) : Option Nat :=
  let unsigned := match text.toList with
    | '+' :: rest => rest
    | chars => chars
  match unsigned with
  | '0' :: 'x' :: rest => digits? 16 rest
  | '0' :: 'o' :: rest => digits? 8 rest
  | '0' :: 'b' :: rest => digits? 2 rest
  | ['0'] => some 0
  | '0' :: _ => none
  | chars => digits? 10 chars

/-- The number of a node that is smaller than a bound. -/
def numberBelow? (bound : Nat) : Yaml.Node → Option Nat
  | .scalar text true => do
    let n ← number? text
    if n < bound then some n else none
  | _ => none

/-- The boolean of a node. -/
def boolean? : Yaml.Node → Option Bool
  | .scalar text true =>
    if text ∈ ["true", "True", "TRUE"] then some true
    else if text ∈ ["false", "False", "FALSE"] then some false
    else none
  | _ => none

/-- The named entries of a mapping; an empty plain scalar stands for none. -/
def entries? : Yaml.Node → Option (List (String × Yaml.Node))
  | .mapping entries => entries.mapM fun (key, value) =>
    match key with
    | .scalar name _ => some (name, value)
    | _ => none
  | .scalar "" true => some []
  | _ => none

/-- Read the entry with a name, if there is one, instead of a default. There is no second one. -/
def read? {α : Type} (entries : List (String × Yaml.Node)) (name : String)
    (read : Yaml.Node → Option α) (default : α) : Option α :=
  match entries.filter (·.1 = name) with
  | [] => some default
  | [(_, value)] => read value
  | _ => none

/-- The settings for traversals in a node. -/
def traversal? (node : Yaml.Node) : Option TraversalSettings := do
  let entries ← entries? node
  let standard : TraversalSettings := {}
  let word := numberBelow? 0x10000000000000000
  return ⟨← read? entries "parallel_threshold" word standard.parallelThreshold,
    ← read? entries "batch_size" word standard.batchSize⟩

/-- The settings for snapshots in a node. -/
def snapshot? (node : Yaml.Node) : Option SnapshotSettings := do
  let entries ← entries? node
  let standard : SnapshotSettings := {}
  return ⟨← read? entries "compress" boolean? standard.compress,
    ← read? entries "compression_level" (numberBelow? 0x100000000) standard.compressionLevel⟩

/-- The settings in a node. -/
def ofNode? (node : Yaml.Node) : Option Settings := do
  let entries ← entries? node
  return ⟨← read? entries "traversal" traversal? {}, ← read? entries "snapshot" snapshot? {}⟩

/-- The settings of a document. A text without a document stands for the defaults. -/
def ofText (text : String) : Except SettingsFault Settings :=
  if Text.isBlank text then .ok {}
  else
    match (Yaml.Node.ofText? text).bind fun node => ofNode? (node.getD .empty) with
    | some settings => settings.checked
    | none => .error .malformed

/-- The settings of a file, given what it holds, if it can be read. -/
def load (content : Option String) : Except SettingsFault Settings :=
  match content with
  | some text => ofText text
  | none => .error .unreadable

/-- The document of some settings. -/
def text (s : Settings) : String :=
  s!"traversal:\n  parallel_threshold: {s.traversal.parallelThreshold}\n" ++
    s!"  batch_size: {s.traversal.batchSize}\n" ++
    s!"snapshot:\n  compress: {s.snapshot.compress}\n" ++
    s!"  compression_level: {s.snapshot.compressionLevel}\n"

end Plexus.Settings
