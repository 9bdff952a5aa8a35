import EdgeTemplate.Analysis

/-!
# Reports

The answers in words, for an assistant that reads text.
-/

namespace EdgeTemplate.Report

def problems (uri : String) (diagnostics : List Diagnostic) : String :=
  if diagnostics.isEmpty then s!"No problems found in {uri}"
  else
    let errors := diagnostics.countP (·.severity == .error)
    let warnings := diagnostics.length - errors
    "\n".intercalate
      (s!"{uri}: {errors} error(s), {warnings} warning(s)" :: diagnostics.map fun d => "  " ++ d.display)

def context (c : Classification) : String :=
  let node := match c.node with
    | some (_, kind) => "Node: " ++ kind.name
    | none => "Resolved from raw text (no usable syntax tree at the cursor)"
  "Context: " ++ c.context.name ++ "\n" ++ node

def closed (uri : String) : String := s!"Closed {uri}"

variable {τ : Type}

def configured (c : Cache τ) : String := s!"Cache configured: max_size={c.maxSize}, ttl_ms={c.ttl}"

def refused (e : LimitError) : String := "Invalid cache configuration: " ++ e.message

def status (c : Cache τ) : String :=
  "\n".intercalate
    ["Document Cache Status:", s!"- Entries: {c.size}", s!"- Max size: {c.maxSize}", s!"- TTL: {c.ttl} ms"]

end EdgeTemplate.Report
