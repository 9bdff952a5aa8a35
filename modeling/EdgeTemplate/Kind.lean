/-!
# Kinds of nodes

What a node of the tree stands for, and the name under which it is shown. Directives are open-ended:
the kind of `@name` is `name_directive`, that of the self-closing `@!name` is `inline_name_directive`.
-/

namespace EdgeTemplate

/-- The two ways to write an interpolation: `{{ x }}` is escaped on output, `{{{ x }}}` is not. -/
inductive Mustache where
  | plain
  | safe
  deriving DecidableEq

namespace Mustache

def opening : Mustache → List Char
  | plain => ['{', '{']
  | safe => ['{', '{', '{']

def closing : Mustache → List Char
  | plain => ['}', '}']
  | safe => ['}', '}', '}']

end Mustache

/-- Names outside the template language are `other`. -/
inductive Kind where
  | document
  | text
  | comment
  | escapedInterpolation
  | interpolation (style : Mustache)
  | opening (style : Mustache)
  | expression
  | closing (style : Mustache)
  | directive (name : String)
  | directiveName
  | arguments
  | parenthesized
  | leftParen
  | rightParen
  | argumentText
  | string
  | other (name : String)
  deriving DecidableEq

namespace Kind

def name : Kind → String
  | document => "document"
  | text => "text"
  | comment => "comment"
  | escapedInterpolation => "escaped_interpolation"
  | interpolation .plain => "interpolation"
  | interpolation .safe => "safe_interpolation"
  | opening style => String.ofList style.opening
  | expression => "expression"
  | closing style => String.ofList style.closing
  | directive name => name ++ "_directive"
  | directiveName => "directive_name"
  | arguments => "arguments"
  | parenthesized => "parenthesized"
  | leftParen => "("
  | rightParen => ")"
  | argumentText => "argument_text"
  | string => "string"
  | other name => name

/-- The kinds of the template language whose name is fixed. -/
def fixed : List Kind :=
  [document, text, comment, escapedInterpolation, interpolation .plain, interpolation .safe,
    opening .plain, opening .safe, expression, closing .plain, closing .safe, directiveName,
    arguments, parenthesized, leftParen, rightParen, argumentText, string]

/-- The name of the directive whose kind is shown as `name`. -/
def directiveName? (name : String) : Option String :=
  let ending := "_directive".toList
  let cs := name.toList
  if ending.isSuffixOf cs then some (String.ofList (cs.take (cs.length - ending.length))) else none

/-- The kind that is shown as `name`. -/
def ofName (name : String) : Kind :=
  match directiveName? name with
  | some bare => directive bare
  | none => (fixed.find? (·.name == name)).getD (other name)

/-- The kind of the directive that is opened by `tag`, such as `@if` or `@!component`. -/
def ofTag (tag : List Char) : Kind :=
  match tag.dropWhile (· == '@') with
  | '!' :: bare => directive ("inline_" ++ String.ofList bare)
  | bare => directive (String.ofList bare)

def isInterpolation : Kind → Bool
  | interpolation _ => true
  | _ => false

/-- Tokens that end a construct: right after one the cursor is outside. -/
def isClosing : Kind → Bool
  | closing _ | rightParen => true
  | _ => false

end Kind

end EdgeTemplate
