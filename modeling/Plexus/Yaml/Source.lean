/-!
# Places in a document

A place is the text that is still to be read, with the number of bytes read, the line, and the
column. A line ends with a line feed, a carriage return, both, or one of three Unicode line
breaks. A document may hold only characters that can be printed, tabs and line breaks.
-/

namespace Plexus.Yaml

/-- The character ends a line. -/
def isBreak (c : Char) : Bool := ['\n', '\r', '\u0085', '\u2028', '\u2029'].contains c

/-- The character separates words on a line. -/
def isBlank (c : Char) : Bool := c = ' ' || c = '\t'

/-- A word ends in front of the text: it is empty, or it begins with a blank or a line break. -/
def endsWord (text : List Char) : Bool := text.head?.all fun c => isBlank c || isBreak c

/-- A document may hold the character. -/
def isAllowed (c : Char) : Bool :=
  c = '\t' || c = '\n' || c = '\r' || c = '\u0085' || (' ' ≤ c && c ≤ '~') ||
    ('\u00a0' ≤ c && c ≤ '\ufffd') || 0x10000 ≤ c.toNat

/-- What is still to be read, and where it stands. -/
structure Source where
  rest : List Char
  /-- How many bytes were read. -/
  offset : Nat
  line : Nat
  column : Nat

namespace Source

/-- The beginning of a text. -/
def start (text : List Char) : Source := ⟨text, 0, 0, 0⟩

/-- The offset after some more characters. -/
def offsetAfter (s : Source) (n : Nat) : Nat :=
  (s.rest.take n).foldl (fun offset c => offset + c.utf8Size) s.offset

/-- Read on by some characters of the line. -/
def skip (s : Source) (n : Nat) : Source :=
  ⟨s.rest.drop n, s.offsetAfter n, s.line, s.column + n⟩

/-- Read on as long as the characters of the line pass a test. -/
def skipWhile (s : Source) (test : Char → Bool) : Source := s.skip (s.rest.takeWhile test).length

/-- Read on to the next line, by a line break of the given number of characters. -/
def nextLine (s : Source) (n : Nat) : Source := ⟨s.rest.drop n, s.offsetAfter n, s.line + 1, 0⟩

/-- Read a line break; all but two kinds stand for a line feed. -/
def break? (s : Source) : Option (Char × Source) :=
  match s.rest with
  | '\r' :: '\n' :: _ => some ('\n', s.nextLine 2)
  | c :: _ =>
    if c = '\u2028' || c = '\u2029' then some (c, s.nextLine 1)
    else if isBreak c then some ('\n', s.nextLine 1)
    else none
  | [] => none

/-- Read on by a byte order mark, if one stands at the beginning of the line. -/
def skipMark (s : Source) : Source :=
  if s.column = 0 && s.rest.head? = some '\ufeff' then s.skip 1 else s

/-- A line begins here that holds a marker between documents. -/
def atMarker (s : Source) : Bool :=
  s.column = 0 && endsWord (s.rest.drop 3) &&
    (s.rest.take 3 = ['-', '-', '-'] || s.rest.take 3 = ['.', '.', '.'])

/-- Read line breaks and the blanks around them, at most as many as `fuel`. No tab may stand
before the given column. -/
def breaksWithin? (indent : Nat) : Nat → Source → Option (List Char × Source)
  | 0, s => some ([], s)
  | fuel + 1, s =>
    match s.break? with
    | none => some ([], s)
    | some (c, s) =>
      if ((s.rest.takeWhile isBlank).take indent).contains '\t' then none
      else do
        let (more, s) ← breaksWithin? indent fuel (s.skipWhile isBlank)
        return (c :: more, s)

/-- Read line breaks and the blanks around them. No tab may stand before the given column. -/
def breaks? (s : Source) (indent : Nat) : Option (List Char × Source) :=
  s.breaksWithin? indent s.rest.length

end Source

/-- What separates two words of a scalar. -/
structure Gap where
  /-- The blanks in front of the first line break. -/
  blanks : List Char
  breaks : List Char

namespace Gap

def none : Gap := ⟨[], []⟩

/-- What a gap stands for: its blanks if it is within a line; else a single line break stands for
a blank, and of several the first is left out. -/
def folded (g : Gap) : List Char :=
  match g.breaks with
  | [] => g.blanks
  | ['\n'] => [' ']
  | '\n' :: more => more
  | breaks => breaks

end Gap

/-- Read the blanks and line breaks up to the next word. -/
def Source.gap? (s : Source) (indent : Nat) : Option (Gap × Source) := do
  let (breaks, after) ← (s.skipWhile isBlank).breaks? indent
  return (⟨s.rest.takeWhile isBlank, breaks⟩, after)

end Plexus.Yaml
