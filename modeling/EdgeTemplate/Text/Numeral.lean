import EdgeTemplate.Text.Digit

/-!
# Numerals

Integers as they are written in settings: an optional sign and decimal digits of any script, with
single underscores between digits.
-/

namespace EdgeTemplate

/-- The most digits that a number may have. -/
def maxDigits : Nat := 4300

/-- The digits of a numeral: one or more, with single underscores allowed between them. -/
def numeralDigits? : List Char → Option (List Nat)
  | [] => none
  | [c] => (digitValue? c).map ([·])
  | c :: '_' :: cs => do
    let digit ← digitValue? c
    let digits ← numeralDigits? cs
    return digit :: digits
  | c :: cs => do
    let digit ← digitValue? c
    let digits ← numeralDigits? cs
    return digit :: digits

def natural? (cs : List Char) : Option Nat := do
  let digits ← numeralDigits? cs
  guard (digits.length ≤ maxDigits)
  return digits.foldl (fun n digit => 10 * n + digit) 0

/-- An integer in decimal digits of any script, with an optional sign. -/
def integer? : List Char → Option Int
  | '+' :: cs => (natural? cs).map fun n => (n : Int)
  | '-' :: cs => (natural? cs).map fun n => -(n : Int)
  | cs => (natural? cs).map fun n => (n : Int)

end EdgeTemplate
