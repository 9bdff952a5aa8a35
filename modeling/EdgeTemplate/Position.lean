import EdgeTemplate.Text.Cut

/-!
# Positions

Offsets count characters from the start of the text; positions count lines and columns, both from
zero, and only a line feed ends a line. A `LineIndex` converts between the two.
-/

namespace EdgeTemplate

/-- A position comes from an editor and may lie outside the text. -/
structure Position where
  line : Int
  column : Int
  deriving DecidableEq

/-- From `start` up to but not including `stop`. -/
structure Range where
  start : Position
  stop : Position
  deriving DecidableEq

/-- The offsets at which the lines of a text start, and the length of the text. -/
structure LineIndex where
  starts : List Nat
  length : Nat
  deriving DecidableEq

namespace LineIndex

/-- The line starts that follow a line end in a text at `offset`. -/
def startsFrom (offset : Nat) : List Char → List Nat
  | [] => []
  | c :: cs => if c = '\n' then (offset + 1) :: startsFrom (offset + 1) cs else startsFrom (offset + 1) cs

def ofText (text : List Char) : LineIndex := ⟨0 :: startsFrom 0 text, text.length⟩

def lineCount (lines : LineIndex) : Nat := lines.starts.length

/-- Offsets outside the text count as the nearest end of it. -/
def positionAt (lines : LineIndex) (offset : Int) : Position :=
  let offset := min offset.toNat lines.length
  let line := lines.starts.countP (· ≤ offset) - 1
  ⟨line, offset - lines.starts.getD line 0⟩

/-- There is an offset for each column of an existing line, the one after its last character included. -/
def offsetAt (lines : LineIndex) (position : Position) : Option Nat :=
  if position.line < 0 || position.column < 0 then none
  else
    match lines.starts.drop position.line.toNat with
    | [] => none
    | start :: following =>
      let stop := match following with
        | [] => lines.length
        | next :: _ => next - 1
      let offset := start + position.column.toNat
      if offset ≤ stop then some offset else none

def range (lines : LineIndex) (start stop : Int) : Range :=
  ⟨lines.positionAt start, lines.positionAt stop⟩

end LineIndex

end EdgeTemplate
