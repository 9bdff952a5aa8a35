import EdgeTemplate.Item

/-!
# Trees of a template

A forest is empty, or a first tree, given by its label and its children, followed by its siblings.
Each label keeps the characters that the node itself takes up, so a forest spells out the text it
was built from (`Forest.text`). Argument tokens are flat; `nest` folds them into parenthesized
groups from the right.
-/

namespace EdgeTemplate

/-- A node without its children. The blanks in front of a directive belong to no node; its label keeps
them in `indent`. Inner nodes have an empty `lexeme`. -/
structure Label where
  kind : Kind
  isError : Bool := false
  indent : List Char := []
  lexeme : List Char := []
  deriving DecidableEq

inductive Forest where
  | nil
  | node (label : Label) (children siblings : Forest)
  deriving DecidableEq

namespace Forest

def leaf (kind : Kind) (lexeme : List Char) (siblings : Forest) : Forest :=
  node { kind, lexeme } nil siblings

def text : Forest → List Char
  | nil => []
  | node label children siblings => label.indent ++ label.lexeme ++ children.text ++ siblings.text

/-- The number of characters. -/
def width : Forest → Nat
  | nil => 0
  | node label children siblings =>
    label.indent.length + label.lexeme.length + children.width + siblings.width

/-- The number of nodes. -/
def size : Forest → Nat
  | nil => 0
  | node _ children siblings => 1 + children.size + siblings.size

def hasError : Forest → Bool
  | nil => false
  | node label children siblings => label.isError || children.hasError || siblings.hasError

/-- The indices of the roots, when the nodes are counted in document order from `index`. -/
def roots (index : Nat) : Forest → List Nat
  | nil => []
  | node _ children siblings => index :: siblings.roots (index + 1 + children.size)

theorem length_text (f : Forest) : f.text.length = f.width := by
  induction f with
  | nil => rfl
  | node label children siblings ihc ihs => simp [text, width, ihc, ihs, Nat.add_assoc]

/-- A list in parentheses; `inside` ends with its closing parenthesis unless the list is unclosed. -/
def group (kind : Kind) (isError : Bool) (inside siblings : Forest) : Forest :=
  node { kind, isError } (leaf .leftParen ['('] inside) siblings

/-- Folds tokens into groups from the right: the forest of the innermost list that is closed in
`tokens` and not opened there, and the forests of the lists around it. An opening parenthesis with
no list to open has no partner, so its group is unclosed and takes all that follows. -/
def nest : List ArgumentToken → Forest × List Forest
  | [] => (nil, [])
  | token :: tokens =>
    let (inside, outer) := nest tokens
    match token, outer with
    | .closing, _ => (leaf .rightParen [')'] nil, inside :: outer)
    | .opening, [] => (group .parenthesized true inside nil, [])
    | .opening, siblings :: outer => (group .parenthesized false inside siblings, outer)
    | .text lexeme, _ => (leaf .argumentText lexeme inside, outer)
    | .literal lexeme, _ => (leaf .string lexeme inside, outer)
    | .unterminated lexeme, _ => (node { kind := .string, isError := true, lexeme } nil inside, outer)

/-- The argument list whose inside is `tokens`. -/
def ofArguments (tokens : List ArgumentToken) : Forest :=
  let (inside, outer) := nest tokens
  group .arguments outer.isEmpty inside nil

def ofInterpolation (style : Mustache) (body : List Char) (closed : Bool) : Forest :=
  let ending := if closed then leaf (.closing style) style.closing nil else nil
  leaf (.opening style) style.opening (if body.isEmpty then ending else leaf .expression body ending)

/-- The tree of an item, in front of `siblings`. -/
def ofItem (siblings : Forest) : Item → Forest
  | .text lexeme => leaf .text lexeme siblings
  | .comment lexeme closed => node { kind := .comment, isError := !closed, lexeme } nil siblings
  | .escaped lexeme closed => node { kind := .escapedInterpolation, isError := !closed, lexeme } nil siblings
  | .interpolation style body closed =>
    node { kind := .interpolation style, isError := !closed } (ofInterpolation style body closed) siblings
  | .directive indent tag arguments =>
    node { kind := .ofTag tag, indent } (leaf .directiveName tag (arguments.elim nil ofArguments)) siblings

def ofItems : List Item → Forest
  | [] => nil
  | item :: items => ofItem (ofItems items) item

/-- The whole document as one tree. -/
def ofText (text : List Char) : Forest :=
  node { kind := .document } (ofItems (items true text)) nil

end Forest

end EdgeTemplate
