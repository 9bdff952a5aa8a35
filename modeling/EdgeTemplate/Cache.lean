import EdgeTemplate.Clock
import EdgeTemplate.Effect
import EdgeTemplate.SyntaxTree

/-!
# The document cache

Parsed documents by uri, in the order of their last write. An entry is served while version and
text agree and it is younger than the time to live; its age counts from the write and is looked at
only when the entry is asked for. When there are more entries than the size limit allows, the
oldest go, in write order where stamps agree.
-/

namespace EdgeTemplate

/-- A parser may fail on some texts. -/
abbrev Parser := List Char → Except ParseError SyntaxTree

inductive Limit where
  | maxSize
  | ttl
  deriving DecidableEq

def Limit.name : Limit → String
  | maxSize => "max_size"
  | ttl => "ttl_millis"

/-- A limit may not be negative. -/
structure LimitError where
  limit : Limit
  value : Int
  deriving DecidableEq

def LimitError.message (e : LimitError) : String := s!"{e.limit.name} must be >= 0, got {e.value}"

def Limit.check (limit : Limit) (value : Int) : Except LimitError Nat :=
  if value < 0 then .error ⟨limit, value⟩ else .ok value.toNat

/-- What is kept for a document, under a key. -/
structure Entry (τ : Type) where
  key : String
  uri : String
  version : Int
  text : List Char
  tree : SyntaxTree
  stamp : τ

/-- The limits are those that `Limit.check` has let through, so they are natural numbers. -/
structure Cache (τ : Type) where
  entries : List (Entry τ)
  maxSize : Nat
  ttl : Nat

namespace Cache

variable {τ : Type}

/-- An empty cache; the size limit is checked first. -/
def create (maxSize ttl : Int) : Except LimitError (Cache τ) := do
  let maxSize ← Limit.maxSize.check maxSize
  let ttl ← Limit.ttl.check ttl
  return ⟨[], maxSize, ttl⟩

def size (c : Cache τ) : Nat := c.entries.length

def find? (c : Cache τ) (uri : String) : Option (Entry τ) := c.entries.find? (·.key == uri)

def contains (c : Cache τ) (uri : String) : Bool := (c.find? uri).isSome

def erase (c : Cache τ) (uri : String) : Cache τ := { c with entries := c.entries.filter (·.key != uri) }

/-- A written entry comes last, wherever an earlier one under its key stood. -/
def write (c : Cache τ) (e : Entry τ) : Cache τ := { c with entries := (c.erase e.key).entries ++ [e] }

def invalidate (c : Cache τ) (uri : String) : Effect (Cache τ) Unit :=
  if c.contains uri then ⟨(), c.erase uri, [.invalidated uri]⟩ else .pure () c

def invalidateAll (c : Cache τ) : Effect (Cache τ) Unit := ⟨(), { c with entries := [] }, [.cleared c.size]⟩

def setTtl (c : Cache τ) (value : Int) : Effect (Cache τ) (Except LimitError Unit) :=
  match Limit.ttl.check value with
  | .error e => .pure (.error e) c
  | .ok ttl => .pure (.ok ()) { c with ttl }

variable [Clock τ]

/-- Entries from the oldest stamp to the newest, in write order where stamps agree. -/
def byAge (entries : List (Entry τ)) : List (Entry τ) :=
  entries.mergeSort fun a b => !Clock.earlier b.stamp a.stamp

/-- Drops the oldest entries that are too many, by what they say their uri is. -/
def evict (c : Cache τ) : Effect (Cache τ) Unit :=
  let excess := c.size - c.maxSize
  if excess = 0 then .pure () c
  else
    let dropped := ((byAge c.entries).take excess).map (·.uri)
    ⟨(), { c with entries := c.entries.filter fun e => !dropped.contains e.key }, [.evicted excess c.maxSize]⟩

/-- The live entry of a uri; an entry that is too old is dropped. -/
def lookup (c : Cache τ) (now : τ) (uri : String) : Effect (Cache τ) (Option (Entry τ)) :=
  match c.find? uri with
  | none => .pure none c
  | some e =>
    if Clock.aged now e.stamp c.ttl then ⟨none, c.erase uri, [.expired uri (Clock.ageText now e.stamp)]⟩
    else .pure (some e) c

/-- The tree of a document, parsed if the cache does not hold it. The clock is read when the entry
is looked up (`asked`) and again when a new one is written (`written`). -/
def getOrParse (c : Cache τ) (parser : Parser) (asked written : τ) (uri : String) (version : Int)
    (text : List Char) : Effect (Cache τ) (Except ParseError SyntaxTree) :=
  (c.lookup asked uri).andThen fun found c =>
    match found.filter fun e => e.version == version && e.text == text with
    | some e => ⟨.ok e.tree, c, [.hit uri version]⟩
    | none =>
      match parser text with
      | .error e => ⟨.error e, c, [.miss uri version, .parsed text]⟩
      | .ok tree =>
        let kept := (c.write ⟨uri, uri, version, text, tree, written⟩).evict
        ⟨.ok tree, kept.state, [.miss uri version, .parsed text] ++ kept.events⟩

def setMaxSize (c : Cache τ) (value : Int) : Effect (Cache τ) (Except LimitError Unit) :=
  match Limit.maxSize.check value with
  | .error e => .pure (.error e) c
  | .ok maxSize => (evict { c with maxSize }).map .ok

/-- Sets the limits that are given, the time to live first. If the size limit is then refused, the
time to live stays set. -/
def configure (c : Cache τ) (maxSize ttl : Option Int) : Effect (Cache τ) (Except LimitError Unit) :=
  (ttl.elim (.pure (.ok ()) c) c.setTtl).andThen fun result c =>
    match result, maxSize with
    | .ok (), some value => c.setMaxSize value
    | result, _ => .pure result c

end Cache

end EdgeTemplate
