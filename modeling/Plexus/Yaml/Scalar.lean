import Plexus.Yaml.Source

/-!
# Scalars of a document

A plain scalar is written without quotes and ends where something else must begin. A quoted
scalar ends with its quote; between single quotes a quote is written twice, and between double
quotes a backslash starts an escape. In all of them a gap with line breaks is folded. Scalars that
break the rules of their style have no reading.
-/

namespace Plexus.Yaml

/-- Indicators of flow collections. -/
def flowIndicators : List Char := [',', '[', ']', '\x7b', '\x7d']

/-- The characters of a plain scalar up to a gap or its end. Inside a flow collection no indicator
may follow a colon. -/
def plainWord? (inFlow : Bool) : List Char → Option (List Char)
  | [] => some []
  | c :: rest =>
    if isBlank c || isBreak c then some []
    else if inFlow && c = ':' && rest.head?.any (('?' :: flowIndicators).contains ·) then none
    else if c = ':' && endsWord rest then some []
    else if inFlow && flowIndicators.contains c then some []
    else (plainWord? inFlow rest).map (c :: ·)

/-- A plain scalar that was read. -/
structure Plain where
  text : List Char
  /-- A line break was read after its last word. -/
  endsLine : Bool
  after : Source

/-- Read on in a plain scalar, by at most as many words as `fuel`, after some words and a gap. -/
def plainFrom? (inFlow : Bool) (indent : Nat) :
    Nat → List Char → Gap → Source → Option Plain
  | 0, text, gap, s => some ⟨text, !gap.breaks.isEmpty, s⟩
  | fuel + 1, text, gap, s =>
    if s.atMarker || s.rest.head? = some '#' then some ⟨text, !gap.breaks.isEmpty, s⟩
    else do
      let word ← plainWord? inFlow s.rest
      if word.isEmpty then return ⟨text, !gap.breaks.isEmpty, s⟩
      let text := text ++ gap.folded ++ word
      let stop := s.skip word.length
      if stop.rest.isEmpty || !endsWord stop.rest then return ⟨text, false, stop⟩
      let (gap, s) ← stop.gap? indent
      if !inFlow && s.column < indent then return ⟨text, !gap.breaks.isEmpty, s⟩
      plainFrom? inFlow indent fuel text gap s

/-- Read a plain scalar. Outside flow collections its lines are indented by at least `indent`. -/
def Source.plain? (s : Source) (inFlow : Bool) (indent : Nat) : Option Plain :=
  plainFrom? inFlow indent s.rest.length [] .none s

/-- The number that some hexadecimal digits stand for. -/
def hexNumber? (digits : List Char) : Option Nat :=
  digits.foldlM (fun n c =>
    if '0' ≤ c && c ≤ '9' then some (16 * n + (c.toNat - 48))
    else if 'a' ≤ c && c ≤ 'f' then some (16 * n + (c.toNat - 87))
    else if 'A' ≤ c && c ≤ 'F' then some (16 * n + (c.toNat - 55))
    else none) 0

/-- The character with a number given by the first digits of a text. -/
def codePoint? (digits : Nat) (text : List Char) : Option Char := do
  let code := text.take digits
  if code.length < digits then none
  let n ← hexNumber? code
  if h : n.isValidChar then return Char.ofNatAux n h else none

/-- The character that an escape stands for, and how many characters follow the backslash. -/
def escape? : List Char → Option (Char × Nat)
  | 'x' :: rest => (codePoint? 2 rest).map (·, 3)
  | 'u' :: rest => (codePoint? 4 rest).map (·, 5)
  | 'U' :: rest => (codePoint? 8 rest).map (·, 9)
  | c :: _ =>
    let simple := [('0', '\x00'), ('a', '\x07'), ('b', '\x08'), ('t', '\t'), ('\t', '\t'),
      ('n', '\n'), ('v', '\x0b'), ('f', '\x0c'), ('r', '\r'), ('e', '\x1b'), (' ', ' '),
      ('"', '"'), ('/', '/'), ('\\', '\\'), ('N', '\u0085'), ('_', '\u00a0'), ('L', '\u2028'),
      ('P', '\u2029')]
    (simple.find? fun p => p.1 = c).map fun p => (p.2, 1)
  | [] => none

/-- Read on in a quoted scalar up to its quote, by at most as many steps as `fuel`. No marker
between documents may stand in it. -/
def quotedFrom? (quote : Char) : Nat → List Char → Source → Option (List Char × Source)
  | 0, _, _ => none
  | fuel + 1, text, s =>
    if s.atMarker then none
    else
      match s.rest with
      | [] => none
      | c :: rest =>
        if isBlank c || isBreak c then do
          let (gap, s) ← s.gap? 0
          quotedFrom? quote fuel (text ++ gap.folded) s
        else if c = quote then
          if quote = '\'' && rest.head? = some '\'' then
            quotedFrom? quote fuel (text ++ [c]) (s.skip 2)
          else some (text, s.skip 1)
        else if quote = '"' && c = '\\' then
          if rest.head?.any isBreak then do
            let (breaks, s) ← (s.skip 1).breaks? 0
            quotedFrom? quote fuel (text ++ breaks.drop 1) s
          else do
            let (escaped, length) ← escape? rest
            quotedFrom? quote fuel (text ++ [escaped]) (s.skip (length + 1))
        else quotedFrom? quote fuel (text ++ [c]) (s.skip 1)

/-- Read a quoted scalar that starts with its quote. -/
def Source.quoted? (s : Source) (quote : Char) : Option (List Char × Source) :=
  quotedFrom? quote s.rest.length [] (s.skip 1)

end Plexus.Yaml
