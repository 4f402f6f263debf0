/-!
# White space

The characters that Unicode calls white space. A line of an interactive session that holds nothing
else is passed over.
-/

namespace Scriptlet

/-- The ranges of code points of white space: first and last, in ascending order. -/
def spaceRanges : List (Nat × Nat) :=
  [(0x09, 0x0d), (0x20, 0x20), (0x85, 0x85), (0xa0, 0xa0), (0x1680, 0x1680), (0x2000, 0x200a),
    (0x2028, 0x2029), (0x202f, 0x202f), (0x205f, 0x205f), (0x3000, 0x3000)]

/-- Whether a character is white space. -/
def isSpace (c : Char) : Bool := spaceRanges.any fun r => r.1 ≤ c.toNat && c.toNat ≤ r.2

/-- Whether a text holds nothing but white space. -/
def isSpaceOnly (s : String) : Bool := s.toList.all isSpace

end Scriptlet
