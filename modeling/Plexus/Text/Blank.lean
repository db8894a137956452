/-!
# Blank text

Text of which nothing can be seen: it holds only the characters that Unicode counts as white space.
-/

namespace Plexus.Text

/-- The code points of white space, as ascending ranges with both ends included. -/
def blankRanges : List (Nat × Nat) := [
  (0x9, 0xd), (0x20, 0x20), (0x85, 0x85), (0xa0, 0xa0), (0x1680, 0x1680), (0x2000, 0x200a),
  (0x2028, 0x2029), (0x202f, 0x202f), (0x205f, 0x205f), (0x3000, 0x3000)]

/-- The character is white space. -/
def isSpace (c : Char) : Bool :=
  blankRanges.any fun (first, last) => first ≤ c.toNat && c.toNat ≤ last

/-- There is nothing but white space. -/
def isBlank (s : String) : Bool := s.toList.all isSpace

end Plexus.Text
