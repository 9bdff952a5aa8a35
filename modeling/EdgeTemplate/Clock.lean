import EdgeTemplate.Double

/-!
# Clocks

What the document cache needs of a clock: which of two readings is earlier, and whether a reading
is at least so many milliseconds old. A clock may be set back between two readings.
-/

namespace EdgeTemplate

class Clock (τ : Type) where
  /-- The first reading is strictly earlier than the second. -/
  earlier : τ → τ → Bool
  /-- At `now`, something stamped `stamp` is at least `ttl` milliseconds old. -/
  aged (now stamp : τ) (ttl : Nat) : Bool
  /-- The age in milliseconds as it is written in the log. -/
  ageText (now stamp : τ) : String

/-- A reading in seconds. -/
structure Seconds where
  value : Float

namespace Seconds

def advance (s : Seconds) (millis : Int) : Seconds :=
  let step := Double.ofRatio millis.natAbs 1000
  ⟨s.value + if millis < 0 then -step else step⟩

def ageMillis (now stamp : Seconds) : Float := (now.value - stamp.value) * 1000

instance : Clock Seconds where
  earlier a b := a.value < b.value
  aged now stamp ttl := Double.reaches (ageMillis now stamp) ttl
  ageText now stamp := Double.wholeText (ageMillis now stamp)

end Seconds

end EdgeTemplate
