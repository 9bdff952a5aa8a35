import EdgeTemplate.Position

/-!
# Problems and diagnostics

A problem is a cause; its wording and its severity are functions of it. A diagnostic is a worded
problem at a range of the document.
-/

namespace EdgeTemplate

inductive Severity where
  | error
  | warning
  deriving DecidableEq

inductive Problem where
  | syntaxError
  | missingCondition (directive : String)
  | missingIn (directive : String)
  | entityName (entity : String)
  | relativeInclude
  | emptyInterpolation
  | strayEnd
  | strayNamedEnd (block : String)
  | missingEnd (block : String)
  deriving DecidableEq

namespace Problem

def severity : Problem → Severity
  | entityName _ | relativeInclude | emptyInterpolation => .warning
  | _ => .error

def message : Problem → String
  | syntaxError => "Syntax error"
  | missingCondition directive => s!"@{directive} directive missing condition"
  | missingIn directive => s!"@{directive} directive missing \"in\" keyword"
  | entityName entity => entity.capitalize ++ " name should follow naming conventions"
  | relativeInclude => "Avoid relative paths in includes"
  | emptyInterpolation => "Empty interpolation"
  | strayEnd => "@end without matching block directive"
  | strayNamedEnd block => s!"@end{block} without matching @{block} directive"
  | missingEnd block => s!"@{block} directive missing its matching @end"

end Problem

structure Diagnostic where
  severity : Severity
  range : Range
  message : String
  deriving DecidableEq

namespace Diagnostic

/-- The name under which diagnostics are published. -/
def source : String := "edge"

/-- Lines and columns are shown from one, and the first column is left out. -/
def display (d : Diagnostic) : String :=
  let line := toString (d.range.start.line + 1)
  let column := if d.range.start.column > 0 then ", col " ++ toString (d.range.start.column + 1) else ""
  let severity := match d.severity with
    | .error => "error"
    | .warning => "warning"
  s!"Line {line}{column} [{severity}]: {d.message}"

end Diagnostic

end EdgeTemplate
