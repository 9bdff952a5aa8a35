import EdgeTemplate.Literal
import EdgeTemplate.SyntaxTree

/-!
# What surrounds a cursor

The tree decides when the cursor sits in no error node. Otherwise the text before the cursor is
read on its own, so that a construct that is still being typed is recognised as well.
-/

namespace EdgeTemplate

inductive Context where
  | directive
  | interpolation
  | stringLiteral
  | plainText
  deriving DecidableEq

namespace Context

def name : Context → String
  | directive => "directive"
  | interpolation => "interpolation"
  | stringLiteral => "string_literal"
  | plainText => "plain_text"

/-- The context inside a node of a kind, if the kind alone settles it. -/
def ofKind? : Kind → Option Context
  | .interpolation _ => some interpolation
  | .directive _ => some directive
  | .string => some stringLiteral
  | _ => none

end Context

/-- The context of a cursor, with the deepest node there if the tree decided it. -/
structure Classification where
  context : Context
  node : Option (Nat × Kind)
  deriving DecidableEq

def Classification.usedFallback (c : Classification) : Bool := c.node.isNone

namespace SyntaxTree

/-- The node at `index` and its ancestors. -/
def path (tree : SyntaxTree) (index : Nat) : List Record :=
  (tree.chain tree.records.size (some index)).filterMap (tree.records[·]?)

/-- The innermost construct around the node at a position, unless an error node is among them. -/
def classify? (tree : SyntaxTree) (position : Position) : Option Classification := do
  let index ← tree.nodeAt? position
  let node ← tree.records[index]?
  let path := tree.path index
  guard !(path.any (·.isError))
  return ⟨(path.findSome? fun r => Context.ofKind? r.kind).getD .plainText, some (index, node.kind)⟩

end SyntaxTree

/-- The quote that is open after one more character; escapes are not looked at. -/
def quoteAfter : Option Quote → Char → Option Quote
  | none, c => Quote.ofChar? c
  | some q, c => if c = q.char then none else some q

def openQuote (cs : List Char) : Option Quote := cs.foldl quoteAfter none

/-- Whether the last mustache of a text is an open interpolation. The text is given backwards from
the cursor, and `after` is what has been passed on the way. A mustache that is closed, that follows
an `@` or that opens a comment is none; three braces never open a comment. -/
def endsInInterpolation (after : List Char) : List Char → Bool
  | '}' :: '}' :: _ => false
  | '{' :: '{' :: before =>
    let comment := before.head? != some '{' && ['-', '-'].isPrefixOf after
    !comment && (before.dropWhile (· == '{')).head? != some '@'
  | c :: before => endsInInterpolation (c :: after) before
  | [] => false

/-- The quote that is open at the end of an argument list, or `none` if the list has been closed.
`depth` lists are open inside it. -/
def quoteInArguments? (depth : Nat) (quote : Option Quote) : List Char → Option (Option Quote)
  | [] => some quote
  | c :: cs =>
    if quote.isSome || isQuote c then quoteInArguments? depth (quoteAfter quote c) cs
    else if c = '(' then quoteInArguments? (depth + 1) none cs
    else if c = ')' then
      match depth with
      | 0 => none
      | depth + 1 => quoteInArguments? depth none cs
    else quoteInArguments? depth none cs

/-- The rest of a marker's line after its name, which may have an `!` in front. -/
def afterMarkerName (cs : List Char) : List Char :=
  match cs with
  | '!' :: rest => rest.dropWhile isNameChar
  | _ => cs.dropWhile isNameChar

namespace Context

def ofQuote (whenClosed : Context) (quote : Option Quote) : Context :=
  if quote.isSome then stringLiteral else whenClosed

/-- The context that an `@` marker gives to the end of its line, `cs` being the text after it. -/
def ofMarker? (cs : List Char) : Option Context :=
  match afterMarkerName cs with
  | [] => some directive
  | '(' :: inner => (quoteInArguments? 0 none inner).map (ofQuote directive)
  | _ => none

/-- The context at the end of a line. The last `@` counts as a marker unless a quote is open there. -/
def ofLine (line : List Char) : Context :=
  let marked := match splitLast? '@' line with
    | some (before, after) => if (openQuote before).isNone then ofMarker? after else none
    | none => none
  marked.getD (ofQuote plainText (openQuote line))

/-- The context at the end of a text. -/
def ofText (before : List Char) : Context :=
  if endsInInterpolation [] before.reverse then interpolation
  else ofLine (before.reverse.takeWhile (· != '\n')).reverse

/-- The context at a position, read off the text before it. -/
def atPosition (text : List Char) (position : Position) : Context :=
  match (LineIndex.ofText text).offsetAt position with
  | some offset => ofText (text.take offset)
  | none => plainText

end Context

/-- The tree, if there is one, is asked first. -/
def classify (tree : Option SyntaxTree) (text : List Char) (position : Position) : Classification :=
  (tree.bind (·.classify? position)).getD ⟨.atPosition text position, none⟩

end EdgeTemplate
