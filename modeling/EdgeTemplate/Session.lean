import EdgeTemplate.Report

/-!
# Sessions

A session is a run of commands against one cache and one clock. Every command leaves a reply and
the next state, also when it is refused.
-/

namespace EdgeTemplate

inductive Command where
  | analyze (uri : String) (version : Int) (text : List Char)
  | classify (uri : String) (text : List Char) (position : Position)
  | invalidate (uri : String)
  | invalidateAll
  | reconfigure (maxSize ttl : Option Int)
  | get (uri : String) (version : Int) (text : List Char)
  | peek (uri : String)
  | contains (uri : String)
  | setMaxSize (value : Int)
  | setTtl (value : Int)
  | configure (maxSize ttl : Option Int)
  | reportProblems (uri : String) (version : Int) (text : List Char)
  | reportContext (uri : String) (text : List Char) (position : Position)
  | reportClose (uri : String)
  | reportReconfigure (maxSize ttl : Option Int)
  | reportStatus
  | shutDown
  | terminate

inductive Reply (τ : Type) where
  | done
  | diagnostics (diagnostics : List Diagnostic)
  | classification (classification : Classification)
  | tree (tree : SyntaxTree)
  | entry (entry : Option (Entry τ))
  | flag (value : Bool)
  | report (text : String)
  | exit (code : Nat)
  | refused (error : LimitError)
  | unreadable (error : ParseError)

variable {τ : Type}

namespace Reply

def ofLimits : Except LimitError Unit → Reply τ
  | .ok () => done
  | .error e => refused e

def ofParse {α : Type} (f : α → Reply τ) : Except ParseError α → Reply τ
  | .ok a => f a
  | .error e => unreadable e

end Reply

variable [Clock τ]

/-- An analysis as a report; a document that cannot be read gets the one diagnostic that says so. -/
def Cache.reportProblems (c : Cache τ) (parser : Parser) (asked written : τ) (uri : String) (version : Int)
    (text : List Char) : Effect (Cache τ) String :=
  (c.analyze parser asked written uri version text).andThen fun result c =>
    match result with
    | .ok diagnostics => .pure (Report.problems uri diagnostics) c
    | .error e => ⟨Report.problems uri [e.diagnostic], c, [.unreadable uri e]⟩

/-- Runs a command; the clock is read as in `Cache.getOrParse`. -/
def Command.run (parser : Parser) (asked written : τ) (c : Cache τ) : Command → Effect (Cache τ) (Reply τ)
  | analyze uri version text =>
    (c.analyze parser asked written uri version text).map (Reply.ofParse .diagnostics)
  | classify uri text position => (c.classify parser asked uri text position).map .classification
  | invalidate uri => (c.invalidate uri).map fun _ => .done
  | invalidateAll => c.invalidateAll.map fun _ => .done
  | reconfigure maxSize ttl => (c.reconfigure maxSize ttl).map .ofLimits
  | get uri version text => (c.getOrParse parser asked written uri version text).map (Reply.ofParse .tree)
  | peek uri => (c.lookup asked uri).map .entry
  | contains uri => .pure (.flag (c.contains uri)) c
  | setMaxSize value => (c.setMaxSize value).map .ofLimits
  | setTtl value => (c.setTtl value).map .ofLimits
  | configure maxSize ttl => (c.configure maxSize ttl).map .ofLimits
  | reportProblems uri version text =>
    (c.reportProblems parser asked written uri version text).map .report
  | reportContext uri text position =>
    (c.classify parser asked uri text position).map fun result => .report (Report.context result)
  | reportClose uri => (c.invalidate uri).map fun _ => .report (Report.closed uri)
  | reportReconfigure maxSize ttl =>
    (c.reconfigure maxSize ttl).andThen fun result c =>
      match result with
      | .ok () => .pure (.report (Report.configured c)) c
      | .error e => .pure (.report (Report.refused e)) c
  | reportStatus => .pure (.report (Report.status c)) c
  | shutDown => c.invalidateAll.map fun _ => .done
  | terminate => c.invalidateAll.map fun _ => .exit 0

/-- A session with a clock in seconds that stands still between its advances. -/
structure Session where
  parser : Parser
  cache : Cache Seconds
  now : Seconds

namespace Session

def advance (s : Session) (millis : Int) : Session := { s with now := s.now.advance millis }

def run (s : Session) (command : Command) : Effect Session (Reply Seconds) :=
  let effect := command.run s.parser s.now s.now s.cache
  ⟨effect.value, { s with cache := effect.state }, effect.events⟩

end Session

end EdgeTemplate
