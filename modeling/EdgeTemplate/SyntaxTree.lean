import EdgeTemplate.Forest
import EdgeTemplate.Position

/-!
# Syntax trees

A syntax tree lists its nodes in document order, each before its children, and a node is known by
its place in that list. `SyntaxTree.parse` reads a text; a tree may also be given by its records,
whose offsets and indices are then anything at all. A negative one counts back from the end. Walks
along children and parents take as many steps as there are records at most, which is enough for
every tree without cycles.
-/

namespace EdgeTemplate

/-- One node: its span `[start, stop)`, its neighbours by index, and the index just past its last
descendant. `hasError` holds when the node or a descendant `isError`. -/
structure Record where
  kind : Kind
  start : Int
  stop : Int
  parent : Option Nat
  children : List Int
  subtreeEnd : Int
  isError : Bool
  hasError : Bool
  deriving DecidableEq

/-! ## Records of a forest -/

/-- Changes the element at an index, if one is given. -/
def modifyAt {α : Type} (index : Option Nat) (f : α → α) (xs : Array α) : Array α :=
  match index with
  | some i => xs.modify i f
  | none => xs

/-- A node without what only the nodes below it tell. -/
structure Draft where
  kind : Kind
  start : Nat
  stop : Nat
  parent : Option Nat
  children : Array Nat
  isError : Bool

def Draft.adopt (child : Nat) (d : Draft) : Draft := { d with children := d.children.push child }

/-- Puts down the nodes of a forest that starts at `offset`: each behind all nodes before it, and among the children
of its parent. -/
def Forest.draft (parent : Option Nat) (offset : Nat) (drafts : Array Draft) : Forest → Array Draft
  | .nil => drafts
  | .node label children siblings =>
    let index := drafts.size
    let start := offset + label.indent.length
    let inner := start + label.lexeme.length
    let stop := inner + children.width
    let first : Draft := ⟨label.kind, start, stop, parent, #[], label.isError⟩
    let drafts := children.draft (some index) inner ((modifyAt parent (Draft.adopt index) drafts).push first)
    siblings.draft parent stop drafts

/-- Where the subtree of a node ends, and whether it has an error. -/
@[ext] structure Summary where
  subtreeEnd : Nat
  hasError : Bool

def Summary.join (below s : Summary) : Summary :=
  ⟨max s.subtreeEnd below.subtreeEnd, s.hasError || below.hasError⟩

/-- Joins the summary of the node at `index` to that of its parent. -/
def carry (drafts : Array Draft) (index : Nat) (summaries : Array Summary) : Array Summary :=
  match drafts[index]?, summaries[index]? with
  | some d, some below => modifyAt d.parent (Summary.join below) summaries
  | _, _ => summaries

/-- From the last node to the first: the nodes below a node come behind it, so they have all been joined to it when
its own turn comes. -/
def summaries (drafts : Array Draft) : Array Summary :=
  (List.range drafts.size).foldr (carry drafts) (drafts.mapIdx fun i d => ⟨i + 1, d.isError⟩)

def Record.ofDraft (d : Draft) (s : Summary) : Record where
  kind := d.kind
  start := d.start
  stop := d.stop
  parent := d.parent
  children := d.children.toList.map fun (i : Nat) => (i : Int)
  subtreeEnd := s.subtreeEnd
  isError := d.isError
  hasError := s.hasError

def Forest.toRecords (f : Forest) : Array Record :=
  let drafts := f.draft none 0 #[]
  drafts.zipWith Record.ofDraft (summaries drafts)

structure SyntaxTree where
  text : List Char
  records : Array Record
  deriving DecidableEq

namespace SyntaxTree

/-- Every text is a template; what is wrong with it shows as error nodes. -/
def parse (text : List Char) : SyntaxTree :=
  ⟨text, (Forest.ofText text).toRecords⟩

/-- Parses `text`, keeping `previous` if its text is the same. -/
def reparse (previous : Option SyntaxTree) (text : List Char) : SyntaxTree :=
  match previous with
  | some tree => if tree.text = text then tree else parse text
  | none => parse text

def lines (tree : SyntaxTree) : LineIndex := .ofText tree.text

def hasError (tree : SyntaxTree) : Bool := tree.records[0]?.any (·.hasError)

/-- The nodes with their indices. -/
def nodes (tree : SyntaxTree) : List (Nat × Record) := tree.records.toList.zipIdx.map fun (r, i) => (i, r)

/-- The node that an index names. -/
def record? (tree : SyntaxTree) (index : Int) : Option Record :=
  if 0 ≤ index then tree.records[index.toNat]?
  else if 0 ≤ index + tree.records.size then tree.records[(index + tree.records.size).toNat]?
  else none

@[simp] theorem record?_natCast (tree : SyntaxTree) (index : Nat) :
    tree.record? (index : Int) = tree.records[index]? := by
  simp [record?]

def kindAt? (tree : SyntaxTree) (index : Int) : Option Kind := (tree.record? index).map (·.kind)

def sourceOf (tree : SyntaxTree) (r : Record) : List Char := slice tree.text r.start r.stop

def nodesOfKind (tree : SyntaxTree) (kind : Kind) : List Nat :=
  (List.range tree.records.size).filter fun i => tree.kindAt? i == some kind

def childOfKind? (tree : SyntaxTree) (r : Record) (kind : Kind) : Option Int :=
  r.children.find? fun i => tree.kindAt? i == some kind

/-- The descendants of a kind of the node at `index`, in document order. -/
def descendantsOfKind (tree : SyntaxTree) (index : Int) (r : Record) (kind : Kind) : List Int :=
  let indices := (List.range (r.subtreeEnd - (index + 1)).toNat).map fun (i : Nat) => index + 1 + i
  indices.filter fun i => tree.kindAt? i == some kind

/-- The chain of parents from `parent` outwards. -/
def chain (tree : SyntaxTree) : Nat → Option Nat → List Nat
  | fuel + 1, some index => index :: tree.chain fuel (tree.records[index]?.bind (·.parent))
  | _, _ => []

/-- The ancestors of a node, innermost first. -/
def ancestors (tree : SyntaxTree) (r : Record) : List Nat := tree.chain tree.records.size r.parent

/-- A node whose last token closes nothing is still open where it ends. -/
def openAtEnd (tree : SyntaxTree) (r : Record) : Bool :=
  !(tree.kindAt? (r.subtreeEnd - 1)).any Kind.isClosing

def containsAt (tree : SyntaxTree) (offset : Nat) (index : Int) : Bool :=
  (tree.record? index).any fun r => r.start ≤ (offset : Int) && (offset : Int) < r.stop

def stopsAt (tree : SyntaxTree) (offset : Nat) (index : Int) : Bool :=
  (tree.record? index).any fun r => r.stop == (offset : Int)

/-- The child to go down into for `offset`: the first that contains it or, at the end of the text,
the last that reaches the end and is still open there. A child counted from the end is not entered. -/
def enter? (tree : SyntaxTree) (offset : Nat) (children : List Int) : Option Nat :=
  let reaches (i : Int) := tree.stopsAt offset i && (tree.record? i).any tree.openAtEnd
  let child := match children.find? (tree.containsAt offset) with
    | some child => some child
    | none => if offset = tree.text.length then (children.filter reaches).getLast? else none
  child.bind Int.toNat?

def descend (tree : SyntaxTree) (offset : Nat) : Nat → Nat → Nat
  | 0, index => index
  | fuel + 1, index =>
    match (tree.records[index]?).bind fun r => tree.enter? offset r.children with
    | some child => tree.descend offset fuel child
    | none => index

/-- The deepest node at a position of the text. -/
def nodeAt? (tree : SyntaxTree) (position : Position) : Option Nat :=
  (tree.lines.offsetAt position).map fun offset => tree.descend offset tree.records.size 0

end SyntaxTree

/-- A node as it is shown: `<Node text 0:0-1:4>`. -/
def Record.display (lines : LineIndex) (r : Record) : String :=
  let kind := r.kind.name
  let ⟨start, stop⟩ := lines.range r.start r.stop
  s!"<Node {kind} {start.line}:{start.column}-{stop.line}:{stop.column}>"

end EdgeTemplate
