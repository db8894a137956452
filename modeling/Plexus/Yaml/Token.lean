import Plexus.Yaml.Scalar

/-!
# Tokens of a document

A document is cut into markers, indicators and scalars. In block style structure is written by
indentation, and becomes visible as tokens that open and close collections. Whether a scalar is a
key is known only at the colon after it; then the tokens for a key, and perhaps for the beginning
of a block mapping, are put in front of it. Such a key and its colon stand on one line and close
together, and where only a key can stand the colon must come.
-/

namespace Plexus.Yaml

/-- A part of a document. -/
inductive Token where
  /-- The marker in front of a document. -/
  | documentStart
  /-- The marker behind a document. -/
  | documentEnd
  | blockSequenceStart
  | blockMappingStart
  | blockEnd
  | flowSequenceStart
  | flowSequenceEnd
  | flowMappingStart
  | flowMappingEnd
  | blockEntry
  | flowEntry
  | key
  | value
  | scalar (text : String) (isPlain : Bool)
  deriving DecidableEq, Repr

/-- Something that is a key if a colon follows. -/
structure PossibleKey where
  /-- How many tokens stand before it. -/
  position : Nat
  offset : Nat
  line : Nat
  column : Nat
  /-- Nothing but a key can stand there. -/
  isRequired : Bool

/-- What is known while a document is cut into tokens. -/
structure Scanner where
  source : Source
  tokens : Array Token
  /-- The columns of the open block collections, the innermost first. -/
  indents : List Nat
  /-- A key may stand here. -/
  allowsKey : Bool
  /-- The last possible key on this level. -/
  possible : Option PossibleKey
  /-- The possible keys on the levels around the open flow collections, the innermost first. -/
  outer : List (Option PossibleKey)

namespace Scanner

def start (text : List Char) : Scanner := ⟨.start text, #[], [], true, none, []⟩

def inFlow (s : Scanner) : Bool := !s.outer.isEmpty

def push (s : Scanner) (t : Token) : Scanner := { s with tokens := s.tokens.push t }

def skip (s : Scanner) (n : Nat) : Scanner := { s with source := s.source.skip n }

/-- The least column at which a scalar can go on. -/
def scalarIndent (s : Scanner) : Nat :=
  match s.indents with
  | [] => 0
  | i :: _ => i + 1

/-- A possible key that is too far away from a place to be a key. -/
def PossibleKey.isStale (k : PossibleKey) (s : Source) : Bool :=
  k.line < s.line || k.offset + 1024 < s.offset

/-- Give up a possible key that is too far away; one that is required must not be. -/
def freshKey? (source : Source) : Option PossibleKey → Option (Option PossibleKey)
  | none => some none
  | some k =>
    if PossibleKey.isStale k source then if k.isRequired then none else some none
    else some (some k)

/-- Give up all possible keys that are too far away. -/
def refresh? (s : Scanner) : Option Scanner := do
  let possible ← freshKey? s.source s.possible
  let outer ← s.outer.mapM (freshKey? s.source)
  return { s with possible, outer }

/-- Give up the possible key on this level; one that is required cannot be. -/
def dropKey? (s : Scanner) : Option Scanner :=
  if s.possible.any (·.isRequired) then none else some { s with possible := none }

/-- Note a possible key here, if one is allowed. -/
def noteKey? (s : Scanner) : Option Scanner :=
  if s.allowsKey then do
    let p := s.source
    let isRequired := !s.inFlow && s.indents.head? = some p.column
    return { (← s.dropKey?) with
      possible := some ⟨s.tokens.size, p.offset, p.line, p.column, isRequired⟩ }
  else some s

/-- Close the block collections that are indented by more than a column. -/
def closeBeyond (s : Scanner) (column : Nat) : Scanner :=
  if s.inFlow then s
  else
    let closed := s.indents.takeWhile (column < ·)
    { s with
      tokens := s.tokens ++ Array.replicate closed.length .blockEnd
      indents := s.indents.drop closed.length }

/-- Close all block collections. -/
def closeAll (s : Scanner) : Scanner :=
  if s.inFlow then s
  else
    { s with tokens := s.tokens ++ Array.replicate s.indents.length .blockEnd, indents := [] }

/-- Open a block collection at a column, unless one is open there; its token goes to a position. -/
def openBlock (s : Scanner) (column position : Nat) (t : Token) : Scanner :=
  if s.inFlow || s.indents.head?.any (column ≤ ·) then s
  else { s with
    tokens := s.tokens.insertIdxIfInBounds position t
    indents := column :: s.indents }

/-- Open a block collection here, which is refused where no key may stand. -/
def openHere? (s : Scanner) (t : Token) : Option Scanner :=
  if s.inFlow then some s
  else if s.allowsKey then some (s.openBlock s.source.column s.tokens.size t)
  else none

/-- Skip blanks, comments and line breaks, at most as many lines as `fuel`, and a byte order mark
at the beginning of a line. In block style a tab is no blank where a key may stand, and a new line
allows a key. -/
def skipGap : Nat → Scanner → Scanner
  | 0, s => s
  | fuel + 1, s =>
    let source := s.source.skipMark.skipWhile fun c =>
      c = ' ' || (c = '\t' && (s.inFlow || !s.allowsKey))
    let source := if source.rest.head? = some '#' then source.skipWhile (!isBreak ·) else source
    match source.break? with
    | none => { s with source }
    | some (_, source) => skipGap fuel { s with source, allowsKey := s.allowsKey || !s.inFlow }

/-- A marker between documents. -/
def marker? (s : Scanner) (t : Token) : Option Scanner := do
  return { (← s.closeAll.dropKey?) with allowsKey := false }.push t |>.skip 3

/-- The beginning of a flow collection. -/
def openFlow? (s : Scanner) (t : Token) : Option Scanner := do
  let s ← s.noteKey?
  return { s with allowsKey := true, possible := none, outer := s.possible :: s.outer }.push t
    |>.skip 1

/-- The end of a flow collection. -/
def closeFlow? (s : Scanner) (t : Token) : Option Scanner := do
  let s ← s.dropKey?
  let s := match s.outer with
    | [] => s
    | k :: outer => { s with possible := k, outer }
  return { s with allowsKey := false }.push t |>.skip 1

/-- A comma. -/
def flowEntry? (s : Scanner) : Option Scanner := do
  return { (← s.dropKey?) with allowsKey := true }.push .flowEntry |>.skip 1

/-- The mark in front of an item of a block sequence. -/
def blockEntry? (s : Scanner) : Option Scanner := do
  let s ← s.openHere? .blockSequenceStart
  return { (← s.dropKey?) with allowsKey := true }.push .blockEntry |>.skip 1

/-- The mark in front of a key. -/
def key? (s : Scanner) : Option Scanner := do
  let s ← s.openHere? .blockMappingStart
  return { (← s.dropKey?) with allowsKey := !s.inFlow }.push .key |>.skip 1

/-- A colon; what was a possible key is one. -/
def value? (s : Scanner) : Option Scanner :=
  match s.possible with
  | some k =>
    let keyed := { s with tokens := s.tokens.insertIdxIfInBounds k.position .key }
    let opened := keyed.openBlock k.column k.position .blockMappingStart
    some ({ opened with possible := none, allowsKey := false }.push .value |>.skip 1)
  | none => do
    let s ← s.openHere? .blockMappingStart
    return { s with allowsKey := !s.inFlow }.push .value |>.skip 1

/-- A plain scalar. -/
def plain? (s : Scanner) : Option Scanner := do
  let s ← s.noteKey?
  let p ← s.source.plain? s.inFlow s.scalarIndent
  return { s with source := p.after, allowsKey := p.endsLine }.push
    (.scalar (String.ofList p.text) true)

/-- A quoted scalar. -/
def quoted? (s : Scanner) (quote : Char) : Option Scanner := do
  let s ← s.noteKey?
  let (text, source) ← s.source.quoted? quote
  return { s with source, allowsKey := false }.push (.scalar (String.ofList text) false)

/-- Characters at which nothing that is supported begins. -/
def refused : List Char := ['\t', '%', '@', '\x60', '*', '&', '!', '|', '>']

/-- The token that begins here. -/
def token? (s : Scanner) : Option Scanner :=
  match s.source.rest with
  | [] => none
  | c :: rest =>
    if s.source.atMarker then s.marker? (if c = '-' then .documentStart else .documentEnd)
    else if c = '[' then s.openFlow? .flowSequenceStart
    else if c = '\x7b' then s.openFlow? .flowMappingStart
    else if c = ']' then s.closeFlow? .flowSequenceEnd
    else if c = '\x7d' then s.closeFlow? .flowMappingEnd
    else if c = ',' then s.flowEntry?
    else if c = '-' && endsWord rest then s.blockEntry?
    else if c = '?' && (s.inFlow || endsWord rest) then s.key?
    else if c = ':' && (s.inFlow || endsWord rest) then s.value?
    else if c = '\'' || c = '"' then s.quoted? c
    else if refused.contains c then none
    else s.plain?

/-- Cut a document into tokens, at most as many as `fuel`. -/
def run? : Nat → Scanner → Option (Array Token)
  | 0, _ => none
  | fuel + 1, s => do
    let s ← (s.skipGap (s.source.rest.length + 1)).refresh?
    if s.source.rest.isEmpty then return (← s.closeAll.dropKey?).tokens
    run? fuel (← (s.closeBeyond s.source.column).token?)

end Scanner

/-- The tokens of a text. -/
def tokens? (text : String) : Option (List Token) :=
  let chars := text.toList
  if chars.all isAllowed then
    (Scanner.run? (chars.length + 1) (.start chars)).map Array.toList
  else none

end Plexus.Yaml
