import Plexus.Text.Hidden

/-!
# Text literals

A text as a dump shows it: between double quotes, on one line, with every hidden character written
as its code point. A backslash starts every escape and is escaped itself, so different texts have
different literals.
-/

namespace Plexus.Text

/-- The character as it stands in a literal. -/
def escapeLiteral (c : Char) : List Char :=
  if c = '"' then ['\\', '"']
  else if c = '\\' then ['\\', '\\']
  else if c = '\x00' then ['\\', '0']
  else if c = '\t' then ['\\', 't']
  else if c = '\n' then ['\\', 'n']
  else if c = '\r' then ['\\', 'r']
  else if isHidden c then '\\' :: 'u' :: '\x7b' :: Nat.toDigits 16 c.toNat ++ ['\x7d']
  else [c]

/-- The literal of a text. -/
def literal (s : String) : String :=
  String.ofList ('"' :: s.toList.flatMap escapeLiteral ++ ['"'])

/-- The literals of some texts, between brackets. -/
def literals (texts : List String) : String :=
  "[" ++ ", ".intercalate (texts.map literal) ++ "]"

end Plexus.Text
