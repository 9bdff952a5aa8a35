import EdgeTemplate.SyntaxTree
import EdgeTemplate.Text.Blank
import EdgeTemplate.Text.Word

/-!
# Directives

What a directive's argument list says, and what the language expects of the directives it knows.
-/

namespace EdgeTemplate

namespace SyntaxTree

/-- A directive's argument list. -/
def arguments? (tree : SyntaxTree) (r : Record) : Option (Int × Record) := do
  let index ← tree.childOfKind? r .arguments
  let arguments ← tree.record? index
  return (index, arguments)

/-- The text between a directive's parentheses. -/
def argumentSource? (tree : SyntaxTree) (r : Record) : Option (List Char) := do
  let (_, arguments) ← tree.arguments? r
  let closed := (arguments.children.getLast?.bind tree.kindAt?) == some .rightParen
  return slice tree.text (arguments.start + 1) (if closed then arguments.stop - 1 else arguments.stop)

/-- The value of the first complete string literal in a directive's arguments, at any depth. -/
def firstString? (tree : SyntaxTree) (r : Record) : Option (List Char) := do
  let (index, arguments) ← tree.arguments? r
  let strings := (tree.descendantsOfKind index arguments .string).filterMap tree.record?
  let literal ← strings.find? (!·.isError)
  return ((tree.sourceOf literal).drop 1).dropLast

end SyntaxTree

/-- Directives that open a block. -/
def blockNames : List String := ["if", "unless", "each", "component", "slot", "section", "block"]

/-- Directives whose arguments are a condition. -/
def conditionNames : List String := ["if", "unless", "elseif"]

/-- Directives whose arguments read `item in collection`. -/
def loopNames : List String := ["each"]

/-- Directives whose first string is the path of a template. -/
def includeNames : List String := ["include", "includeIf"]

/-- The self-closing form of a directive names the same entity. -/
def entityOf (directive : String) : String :=
  let cs := directive.toList
  let inline := "inline_".toList
  if inline.isPrefixOf cs then String.ofList (cs.drop inline.length) else directive

def isSlotNameChar (c : Char) : Bool := c.isAlphanum || c == '_' || c == '-'

def isComponentNameChar (c : Char) : Bool := isSlotNameChar c || c == '.'

/-- The characters that may follow the first letter in the name of an entity. -/
def entityNameChar? (entity : String) : Option (Char → Bool) :=
  if entity = "component" then some isComponentNameChar
  else if entity ∈ ["slot", "section", "block"] then some isSlotNameChar
  else none

/-- A letter followed by allowed characters; one line end after the name is let through. -/
def isEntityName (allowed : Char → Bool) (name : List Char) : Bool :=
  match if name.getLast? == some '\n' then name.dropLast else name with
  | [] => false
  | c :: cs => c.isAlpha && cs.all allowed

end EdgeTemplate
