/-!
# Classes of characters

A class is a list of ranges of code points, both ends included, in increasing order.
-/

namespace EdgeTemplate

abbrev CharClass := List (Nat × Nat)

def CharClass.contains (ranges : CharClass) (c : Char) : Bool :=
  ranges.any fun range => range.1 ≤ c.toNat && c.toNat ≤ range.2

end EdgeTemplate
