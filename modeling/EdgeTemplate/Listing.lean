import EdgeTemplate.File
import EdgeTemplate.ParseError
import EdgeTemplate.Text.Newline
import EdgeTemplate.Validation

/-!
# Listings

A listing shows every node of a template, indented by depth and with `!` after an error node, and
then its diagnostics.
-/

namespace EdgeTemplate

def SyntaxTree.listing (tree : SyntaxTree) : List String :=
  let lines := tree.lines
  let showNode (r : Record) :=
    String.ofList (List.replicate (2 * (tree.ancestors r).length) ' ') ++ r.display lines ++
      if r.isError then "  !" else ""
  let diagnostics := tree.diagnostics
  tree.records.toList.map showNode ++ ["", toString diagnostics.length ++ " diagnostic(s)"] ++
    diagnostics.map ("  " ++ ·.display)

/-- The lines that are printed, and whether the template could be read. -/
structure Listing where
  readable : Bool
  lines : List String

namespace Listing

def unreadable (path : String) (fault : FileFault) : Listing :=
  ⟨false, ["Error: cannot read " ++ path ++ ": " ++ fault.message path]⟩

/-- The listing of a file's contents. -/
def ofContents (parser : List Char → Except ParseError SyntaxTree) (contents : List Char) : Listing :=
  match parser (normalizeNewlines contents) with
  | .ok tree => ⟨true, tree.listing⟩
  | .error e => ⟨false, ["Parse error: " ++ e.display]⟩

def output (listing : Listing) : String := String.join (listing.lines.map (· ++ "\n"))

end Listing

end EdgeTemplate
