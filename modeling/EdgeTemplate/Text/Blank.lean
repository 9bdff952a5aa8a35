import EdgeTemplate.Text.CharClass

/-!
# Blank characters

The characters with the Unicode property White_Space, and the four information separators.
-/

namespace EdgeTemplate

def blankRanges : CharClass :=
  [(0x9, 0xd), (0x1c, 0x20), (0x85, 0x85), (0xa0, 0xa0), (0x1680, 0x1680), (0x2000, 0x200a),
   (0x2028, 0x2029), (0x202f, 0x202f), (0x205f, 0x205f), (0x3000, 0x3000)]

def isBlank (c : Char) : Bool := blankRanges.contains c

def isBlankText (cs : List Char) : Bool := cs.all isBlank

/-- The text without the blanks at both ends. -/
def trimBlanks (cs : List Char) : List Char :=
  ((cs.dropWhile isBlank).reverse.dropWhile isBlank).reverse

end EdgeTemplate
