import EdgeTemplate.Event
import EdgeTemplate.File

/-!
# The grammar file

Nothing can be analysed without a grammar, so a grammar file that cannot be read stops the program
at its start.
-/

namespace EdgeTemplate

/-- A path with a null character does not even reach the file system. -/
inductive GrammarFailure where
  | unreadable (path : String) (fault : FileFault)
  | embeddedNull
  deriving DecidableEq

namespace GrammarFailure

/-- What happens to a path that is read from an empty directory. -/
def inEmptyDirectory (path : String) : GrammarFailure :=
  if holdsNull path then .embeddedNull else .unreadable (normalizePath path) (.inEmptyDirectory path)

def message : GrammarFailure → String
  | unreadable path fault => "Cannot read Edge grammar at " ++ path ++ ": " ++ fault.message path
  | embeddedNull => embeddedNullMessage

/-- Only a file that cannot be read is logged as refused. -/
def events (failure : GrammarFailure) : List Event :=
  .loadingGrammar :: match failure with
    | unreadable _ _ => [.grammarRefused failure.message]
    | embeddedNull => []

end GrammarFailure

end EdgeTemplate
