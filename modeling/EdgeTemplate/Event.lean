import EdgeTemplate.ParseError

/-!
# Events

What an operation did, in order. Calls of the parser are events too, but only the others are
written to the log.
-/

namespace EdgeTemplate

inductive LogLevel where
  | debug
  | info
  | warning
  | error
  deriving DecidableEq

def LogLevel.name : LogLevel → String
  | debug => "DEBUG"
  | info => "INFO"
  | warning => "WARNING"
  | error => "ERROR"

inductive Event where
  | parsed (text : List Char)
  | hit (uri : String) (version : Int)
  | miss (uri : String) (version : Int)
  | expired (uri age : String)
  | evicted (count maxSize : Nat)
  | invalidated (uri : String)
  | cleared (count : Nat)
  | reconfigured (maxSize ttl : Nat)
  | validated (count : Nat)
  | unreadable (uri : String) (error : ParseError)
  | scannedText (error : ParseError)
  | loadingGrammar
  | grammarRefused (refusal : String)
  deriving DecidableEq

namespace Event

def isParse : Event → Bool
  | parsed _ => true
  | _ => false

def level : Event → LogLevel
  | reconfigured _ _ => .info
  | unreadable _ _ => .warning
  | grammarRefused _ => .error
  | _ => .debug

def message? : Event → Option String
  | parsed _ => none
  | hit uri version => s!"Cache hit for {uri} (version {version})"
  | miss uri version => s!"Cache miss for {uri} (version {version}), parsing"
  | expired uri age => s!"Cache entry for {uri} expired after {age}ms"
  | evicted count maxSize => s!"Evicted {count} cache entries (max size {maxSize})"
  | invalidated uri => s!"Invalidated cache entry for {uri}"
  | cleared count => s!"Invalidated all {count} cache entries"
  | reconfigured maxSize ttl => s!"Cache reconfigured: max_size={maxSize}, ttl_ms={ttl}"
  | validated count => s!"Validation produced {count} diagnostic(s)"
  | unreadable uri error => s!"Could not parse {uri}: {error.display}"
  | scannedText error => s!"Parse failed during classification, using text scan: {error.display}"
  | loadingGrammar => "Initializing Edge grammar"
  | grammarRefused refusal => s!"Edge grammar failed to load: {refusal}"

/-- The line that the log shows. -/
def logLine? (e : Event) : Option String := e.message?.map fun message => e.level.name ++ " " ++ message

end Event

end EdgeTemplate
