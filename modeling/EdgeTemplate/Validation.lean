import EdgeTemplate.Block

/-!
# Validation

One walk over the nodes in document order. Each node is checked on its own and, if it is a
directive, against the blocks open before it; blocks that are still open at the end are reported
last, outermost first.
-/

namespace EdgeTemplate

/-- A problem and the node that it is reported on. -/
structure Finding where
  index : Nat
  node : Record
  problem : Problem
  deriving DecidableEq

namespace SyntaxTree

def conditionProblem? (tree : SyntaxTree) (node : Record) (name : String) : Option Problem :=
  if name ∈ conditionNames && (tree.argumentSource? node).all isBlankText then some (.missingCondition name)
  else none

def loopProblem? (tree : SyntaxTree) (node : Record) (name : String) : Option Problem :=
  if name ∈ loopNames && !(tree.argumentSource? node).any (containsWord ['i', 'n'] false) then
    some (.missingIn name)
  else none

def entityProblem? (tree : SyntaxTree) (node : Record) (name : String) : Option Problem := do
  let allowed ← entityNameChar? (entityOf name)
  let value ← tree.firstString? node
  if isEntityName allowed value then none else some (.entityName (entityOf name))

def includeProblem? (tree : SyntaxTree) (node : Record) (name : String) : Option Problem :=
  if name ∈ includeNames && (tree.firstString? node).any (occursIn ['.', '.']) then some .relativeInclude
  else none

def interpolationProblem? (tree : SyntaxTree) (node : Record) : Option Problem :=
  let expression := (tree.childOfKind? node .expression).bind tree.record?
  if expression.all fun e => isBlankText (tree.sourceOf e) then some .emptyInterpolation else none

/-- The problems of a node that do not depend on its place among the blocks. -/
def localProblems (tree : SyntaxTree) (node : Record) : List Problem :=
  let ofKind := match node.kind with
    | .directive name =>
      [tree.conditionProblem? node name, tree.loopProblem? node name, tree.entityProblem? node name,
        tree.includeProblem? node name]
    | .interpolation _ => [tree.interpolationProblem? node]
    | _ => []
  (if node.hasError then [.syntaxError] else []) ++ ofKind.filterMap id

/-- What is found from a node on, when `opened` are the blocks open before it. -/
def findingsFrom (tree : SyntaxTree) (opened : List Frame) : List (Nat × Record) → List Finding
  | [] => opened.reverse.map fun frame => ⟨frame.index, frame.node, .missingEnd frame.block⟩
  | (index, node) :: rest =>
    let role := Role.ofKind node.kind
    let problems := tree.localProblems node ++ (Frame.stray? opened role).toList
    problems.map (⟨index, node, ·⟩) ++ tree.findingsFrom (Frame.advance opened index node role) rest

def findings (tree : SyntaxTree) : List Finding := tree.findingsFrom [] tree.nodes

def diagnostics (tree : SyntaxTree) : List Diagnostic :=
  let lines := tree.lines
  tree.findings.map fun finding =>
    ⟨finding.problem.severity, lines.range finding.node.start finding.node.stop, finding.problem.message⟩

end SyntaxTree

end EdgeTemplate
