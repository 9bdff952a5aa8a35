import EdgeTemplate.Problem

/-!
# Texts that cannot be read

The template language accepts every text, but a parser of another kind may fail. Such a failure
concerns the document as a whole and is published as one diagnostic.
-/

namespace EdgeTemplate

/-- A text that could not be read at all, with the place where reading stopped, counted from zero. -/
structure ParseError where
  message : String
  line : Option Int := none
  column : Option Int := none
  deriving DecidableEq

namespace ParseError

/-- A column is shown only together with its line. -/
def display (e : ParseError) : String :=
  match e.line, e.column with
  | none, _ => e.message
  | some line, none => s!"{e.message} (line {line + 1})"
  | some line, some column => s!"{e.message} (line {line + 1}, col {column + 1})"

/-- The failure of a reader that counts lines and columns from one, and gives zero or less for a
place it does not know. -/
def unexpected (kind : String) (line column : Int) : ParseError where
  message := s!"Unexpected input: {kind}"
  line := if line > 0 then some (line - 1) else none
  column := if column > 0 then some (column - 1) else none

/-- The last column that a range can name. -/
def maxColumn : Int := Int.pow 2 31 - 1

/-- A failure concerns the document as a whole. -/
def diagnostic (e : ParseError) : Diagnostic where
  severity := .error
  range := ⟨⟨0, 0⟩, ⟨0, maxColumn⟩⟩
  message := "Parse error: " ++ e.display

end ParseError

end EdgeTemplate
