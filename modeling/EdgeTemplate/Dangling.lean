import EdgeTemplate.Cursor
import EdgeTemplate.Validation

/-!
# Dangling indices

A tree that is given by its records may name nodes that do not exist. A question that comes upon
such an index has no answer. Each function below lists the indices that a question comes upon; a
tree that was parsed has no dangling ones.
-/

namespace EdgeTemplate

/-- An index without a node that a question comes upon. -/
structure DanglingIndex where
  index : Int
  deriving DecidableEq

/-- An index is a signed word of 64 bits. -/
def DanglingIndex.message (e : DanglingIndex) : String :=
  if -Int.pow 2 63 ≤ e.index && e.index < Int.pow 2 63 then "tuple index out of range"
  else "cannot fit 'int' into an index-sized integer"

namespace SyntaxTree

/-- The elements of a list up to and with the first that satisfies `p`. -/
def upTo {α : Type} (p : α → Bool) (l : List α) : List α := l.take (l.findIdx p + 1)

/-- Children are looked at up to the first of the kind that is asked for. -/
def childVisits (tree : SyntaxTree) (r : Record) (kind : Kind) : List Int :=
  upTo (fun i => tree.kindAt? i == some kind) r.children

/-- Whether a list is closed shows in its last child. -/
def sourceVisits (tree : SyntaxTree) (r : Record) : List Int :=
  tree.childVisits r .arguments ++ match tree.arguments? r with
    | some (_, arguments) => arguments.children.getLast?.toList
    | none => []

/-- A string is looked for among all descendants of a list. They are visited in order, so of those
that do not exist the first is just past the last record. -/
def stringVisits (tree : SyntaxTree) (r : Record) : List Int :=
  tree.childVisits r .arguments ++ match tree.arguments? r with
    | some (index, arguments) =>
      if index + 1 < arguments.subtreeEnd then [min (arguments.subtreeEnd - 1) tree.records.size] else []
    | none => []

def checkVisits (tree : SyntaxTree) (r : Record) : List Int :=
  match r.kind with
  | .directive name =>
    (if name ∈ conditionNames || name ∈ loopNames then tree.sourceVisits r else []) ++
      if (entityNameChar? (entityOf name)).isSome || name ∈ includeNames then tree.stringVisits r else []
  | .interpolation _ => tree.childVisits r .expression
  | _ => []

/-- The children that are looked at for `offset`; at the end of the text, each that reaches it is
followed by the last node in it. -/
def enterVisits (tree : SyntaxTree) (offset : Nat) (children : List Int) : List Int :=
  (upTo (tree.containsAt offset) children).flatMap fun i =>
    i :: if offset = tree.text.length && tree.stopsAt offset i then
      (tree.record? i).toList.map (·.subtreeEnd - 1) else []

def descendVisits (tree : SyntaxTree) (offset : Nat) : Nat → Nat → List Int
  | 0, index => [(index : Int)]
  | fuel + 1, index =>
    (index : Int) :: match tree.records[index]? with
      | none => []
      | some r =>
        tree.enterVisits offset r.children ++ match tree.enter? offset r.children with
          | some child => tree.descendVisits offset fuel child
          | none => []

/-- The way down to a cursor. -/
def nodeVisits (tree : SyntaxTree) (position : Position) : List Int :=
  match tree.lines.offsetAt position with
  | some offset => tree.descendVisits offset tree.records.size 0
  | none => []

/-- The way from the node at a cursor up to the first error node. -/
def pathVisits (tree : SyntaxTree) (position : Position) : List Int :=
  match tree.nodeAt? position with
  | some index =>
    -- one step more than there are nodes, so that a last dangling parent shows
    let path := tree.chain (tree.records.size + 1) (some index)
    (upTo (fun (i : Nat) => tree.records[i]?.any (·.isError)) path).map fun (i : Nat) => (i : Int)
  | none => []

/-- The tree, unless a question comes upon a dangling index: first the checks, then the nodes at the
given cursors, then what surrounds them. -/
def withoutDangling (tree : SyntaxTree) (cursors : List Position) : Except DanglingIndex SyntaxTree :=
  let visits := tree.records.toList.flatMap tree.checkVisits ++ cursors.flatMap tree.nodeVisits ++
    cursors.flatMap tree.pathVisits
  match visits.find? fun i => (tree.record? i).isNone with
  | some index => .error ⟨index⟩
  | none => .ok tree

end SyntaxTree

end EdgeTemplate
