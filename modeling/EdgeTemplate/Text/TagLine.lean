import EdgeTemplate.Text.Cut

/-!
# Tag lines

A tag line begins with blanks, an `@`, an optional `!` and a letter or underscore. Constructs that
are still open are cut before such a line, so one unfinished construct never hides a later tag.
-/

namespace EdgeTemplate

/-- Names are written in ASCII. -/
def isNameStart (c : Char) : Bool := c.isAlpha || c == '_'

def isNameChar (c : Char) : Bool := c.isAlphanum || c == '_'

def isIndent (c : Char) : Bool := c == ' ' || c == '\t'

/-- The text begins with the `@` of a tag. -/
def startsTag : List Char → Bool
  | '@' :: '!' :: c :: _ => isNameStart c
  | '@' :: c :: _ => isNameStart c
  | _ => false

/-- The text, read from the start of a line, is a tag line. -/
def startsTagLine (cs : List Char) : Bool := startsTag (cs.dropWhile isIndent)

/-- The text begins with the line end before a tag line. -/
def startsTagBreak : List Char → Bool
  | '\n' :: cs => startsTagLine cs
  | _ => false

/-- A tag line as its indentation, its tag (`@if`, `@!component`) and what follows. -/
def splitTag (cs : List Char) : List Char × List Char × List Char :=
  let indent := cs.takeWhile isIndent
  match cs.dropWhile isIndent with
  | '@' :: '!' :: rest => (indent, '@' :: '!' :: rest.takeWhile isNameChar, rest.dropWhile isNameChar)
  | c :: rest => (indent, c :: rest.takeWhile isNameChar, rest.dropWhile isNameChar)
  | [] => (indent, [], [])

theorem splitTag_append (cs : List Char) :
    (splitTag cs).1 ++ ((splitTag cs).2.1 ++ (splitTag cs).2.2) = cs := by
  have h := cs.takeWhile_append_dropWhile (p := isIndent)
  unfold splitTag
  split <;> simp_all

/-- A tag line has a tag. -/
theorem splitTag_snd_lt {cs : List Char} (h : startsTagLine cs = true) :
    (splitTag cs).2.2.length < cs.length := by
  have happ := congrArg List.length (splitTag_append cs)
  simp only [List.length_append] at happ
  have : 0 < (splitTag cs).2.1.length := by
    unfold splitTag
    split
    · simp
    · simp
    · next hd => simp [startsTagLine, hd, startsTag] at h
  omega

end EdgeTemplate
