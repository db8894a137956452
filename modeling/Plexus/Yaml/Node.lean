import Plexus.Yaml.Token

/-!
# Nodes of a document

A document is one node: a scalar, a sequence or a mapping. What is left out where a node could
stand is an empty plain scalar. A text without a document is allowed, one with two is not.
-/

namespace Plexus.Yaml

/-- A node of a document. -/
inductive Node where
  | scalar (text : String) (isPlain : Bool)
  | sequence (items : List Node)
  | mapping (entries : List (Node × Node))

namespace Node

/-- What stands for a node that is left out. -/
def empty : Node := scalar "" true

mutual

/-- Read a node. The number bounds the steps here and below. -/
def read? (block indentless : Bool) : Nat → List Token → Option (Node × List Token)
  | 0, _ => none
  | fuel + 1, tokens =>
    match tokens with
    | .scalar text isPlain :: rest => some (scalar text isPlain, rest)
    | .flowSequenceStart :: rest => flowItems? fuel true [] rest
    | .flowMappingStart :: rest => flowEntries? fuel true [] rest
    | .blockSequenceStart :: rest => if block then blockItems? fuel [] rest else none
    | .blockMappingStart :: rest => if block then blockEntries? fuel [] rest else none
    | .blockEntry :: _ => if indentless then indentlessItems? fuel [] tokens else none
    | _ => none

/-- Read a node of a block collection, unless it is left out in front of one of some tokens. -/
def readBlock? (indentless : Bool) (before : List Token) :
    Nat → List Token → Option (Node × List Token)
  | 0, _ => none
  | fuel + 1, tokens =>
    if tokens.head?.any before.contains then some (empty, tokens)
    else read? true indentless fuel tokens

/-- Read a node of a flow collection, unless it is left out in front of one of some tokens. -/
def readFlow? (before : List Token) : Nat → List Token → Option (Node × List Token)
  | 0, _ => none
  | fuel + 1, tokens =>
    if tokens.head?.any before.contains then some (empty, tokens)
    else read? false false fuel tokens

/-- Read the items of a block sequence, after some of them. -/
def blockItems? : Nat → List Node → List Token → Option (Node × List Token)
  | 0, _, _ => none
  | fuel + 1, items, tokens =>
    match tokens with
    | .blockEntry :: rest => do
      let (item, rest) ← readBlock? false [.blockEntry, .blockEnd] fuel rest
      blockItems? fuel (items ++ [item]) rest
    | .blockEnd :: rest => some (sequence items, rest)
    | _ => none

/-- Read the items of a block sequence that is not indented, after some of them. -/
def indentlessItems? : Nat → List Node → List Token → Option (Node × List Token)
  | 0, _, _ => none
  | fuel + 1, items, tokens =>
    match tokens with
    | .blockEntry :: rest => do
      let (item, rest) ← readBlock? false [.blockEntry, .key, .value, .blockEnd] fuel rest
      indentlessItems? fuel (items ++ [item]) rest
    | _ => some (sequence items, tokens)

/-- Read the entries of a block mapping, after some of them. -/
def blockEntries? : Nat → List (Node × Node) → List Token → Option (Node × List Token)
  | 0, _, _ => none
  | fuel + 1, entries, tokens =>
    match tokens with
    | .key :: rest => do
      let (name, rest) ← readBlock? true [.key, .value, .blockEnd] fuel rest
      let (value, rest) ← match rest with
        | .value :: rest => readBlock? true [.key, .value, .blockEnd] fuel rest
        | _ => some (empty, rest)
      blockEntries? fuel (entries ++ [(name, value)]) rest
    | .blockEnd :: rest => some (mapping entries, rest)
    | _ => none

/-- Read the items of a flow sequence, after some of them. An item with a key is a mapping with
one entry; a key that is left out takes the token after it with it. -/
def flowItems? : Nat → Bool → List Node → List Token → Option (Node × List Token)
  | 0, _, _, _ => none
  | fuel + 1, isFirst, items, tokens => do
    if tokens.head? = some .flowSequenceEnd then return (sequence items, tokens.drop 1)
    if !isFirst && tokens.head? ≠ some .flowEntry then none
    let tokens := if isFirst then tokens else tokens.drop 1
    match tokens with
    | .flowSequenceEnd :: rest => return (sequence items, rest)
    | .key :: rest =>
      let (name, rest) ←
        if rest.head?.any [.value, .flowEntry, .flowSequenceEnd].contains then
          some (empty, rest.drop 1)
        else read? false false fuel rest
      let (value, rest) ← match rest with
        | .value :: rest => readFlow? [.flowEntry, .flowSequenceEnd] fuel rest
        | _ => some (empty, rest)
      flowItems? fuel false (items ++ [mapping [(name, value)]]) rest
    | _ =>
      let (item, rest) ← read? false false fuel tokens
      flowItems? fuel false (items ++ [item]) rest

/-- Read the entries of a flow mapping, after some of them. -/
def flowEntries? : Nat → Bool → List (Node × Node) → List Token → Option (Node × List Token)
  | 0, _, _, _ => none
  | fuel + 1, isFirst, entries, tokens => do
    if tokens.head? = some .flowMappingEnd then return (mapping entries, tokens.drop 1)
    if !isFirst && tokens.head? ≠ some .flowEntry then none
    let tokens := if isFirst then tokens else tokens.drop 1
    match tokens with
    | .flowMappingEnd :: rest => return (mapping entries, rest)
    | .key :: rest =>
      let (name, rest) ← readFlow? [.value, .flowEntry, .flowMappingEnd] fuel rest
      let (value, rest) ← match rest with
        | .value :: rest => readFlow? [.flowEntry, .flowMappingEnd] fuel rest
        | _ => some (empty, rest)
      flowEntries? fuel false (entries ++ [(name, value)]) rest
    | _ =>
      let (name, rest) ← read? false false fuel tokens
      flowEntries? fuel false (entries ++ [(name, empty)]) rest

end

/-- A number of steps that is enough for some tokens: no more than three are taken per token. -/
def stepsFor (tokens : List Token) : Nat := 3 * tokens.length + 3

/-- Read the node of a document; after a marker it may be left out. -/
def readDocument? (tokens : List Token) : Option (Node × List Token) :=
  match tokens with
  | .documentStart :: rest =>
    match rest with
    | [] | .documentStart :: _ | .documentEnd :: _ => some (empty, rest)
    | _ => read? true false (stepsFor rest) rest
  | _ => read? true false (stepsFor tokens) tokens

/-- The node of the only document in a text, if there is one. -/
def ofTokens? (tokens : List Token) : Option (Option Node) :=
  if tokens.isEmpty then some none
  else do
    let (node, rest) ← readDocument? tokens
    if rest.all (· = .documentEnd) then return some node else none

/-- The node of the only document in a text, if there is one. -/
def ofText? (text : String) : Option (Option Node) := do ofTokens? (← tokens? text)

end Node

end Plexus.Yaml
