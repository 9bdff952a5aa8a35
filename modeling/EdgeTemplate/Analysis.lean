import EdgeTemplate.Cache
import EdgeTemplate.Cursor
import EdgeTemplate.Validation

/-!
# Analysis of cached documents

The questions an editor asks, answered through the cache. Only an analysis writes to it; asking for
the context of a cursor drops the document's own entry if it is too old, and changes nothing else.
-/

namespace EdgeTemplate

namespace Cache

variable {τ : Type} [Clock τ]

def analyze (c : Cache τ) (parser : Parser) (asked written : τ) (uri : String) (version : Int)
    (text : List Char) : Effect (Cache τ) (Except ParseError (List Diagnostic)) :=
  (c.getOrParse parser asked written uri version text).andThen fun result c =>
    match result with
    | .ok tree =>
      let diagnostics := tree.diagnostics
      ⟨.ok diagnostics, c, [.validated diagnostics.length]⟩
    | .error e => .pure (.error e) c

/-- A cached tree serves if it was parsed from the same text, whatever its version. -/
def classify (c : Cache τ) (parser : Parser) (now : τ) (uri : String) (text : List Char)
    (position : Position) : Effect (Cache τ) Classification :=
  (c.lookup now uri).andThen fun found c =>
    match found.filter (·.text == text) with
    | some e => .pure (EdgeTemplate.classify (some e.tree) text position) c
    | none =>
      match parser text with
      | .ok tree => ⟨EdgeTemplate.classify (some tree) text position, c, [.parsed text]⟩
      | .error e => ⟨EdgeTemplate.classify none text position, c, [.parsed text, .scannedText e]⟩

/-- New limits drop every document; refused limits drop none. -/
def reconfigure (c : Cache τ) (maxSize ttl : Option Int) : Effect (Cache τ) (Except LimitError Unit) :=
  (c.configure maxSize ttl).andThen fun result c =>
    match result with
    | .ok () => c.invalidateAll.andThen fun _ c => ⟨.ok (), c, [.reconfigured c.maxSize c.ttl]⟩
    | .error e => .pure (.error e) c

end Cache

end EdgeTemplate
