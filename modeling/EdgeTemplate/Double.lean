/-!
# Exact values of doubles

A finite double is an integer times a power of two. Comparing it with an integer, writing it as a
whole number and dividing two integers are done on that exact value; of two equally near results
the even one is taken.
-/

namespace EdgeTemplate

/-- The integer nearest to `n / d`, the even one of two. -/
def roundDiv (n d : Nat) : Nat :=
  let q := n / d
  let r := n % d
  if 2 * r < d then q
  else if 2 * r > d then q + 1
  else q + q % 2

namespace Double

/-- The magnitude of a finite double as `(m, e)`, meaning `m * 2 ^ e`. -/
def magnitude? (x : Float) : Option (Nat × Int) :=
  let bits := x.toBits.toNat
  let exponent : Nat := bits / Nat.pow 2 52 % Nat.pow 2 11
  let fraction : Nat := bits % Nat.pow 2 52
  if exponent = Nat.pow 2 11 - 1 then none
  else if exponent = 0 then some (fraction, -1074)
  else some (Nat.pow 2 52 + fraction, exponent - 1075)

/-- The fraction `m * 2 ^ e`. -/
def scaled (m : Nat) (e : Int) : Nat × Nat :=
  if e ≥ 0 then (m * Nat.pow 2 e.toNat, 1) else (m, Nat.pow 2 (-e).toNat)

/-- Whether `n ≤ x`, without rounding `n`. -/
def reaches (x : Float) (n : Nat) : Bool :=
  match magnitude? x with
  | none => x > 0
  | some (m, e) =>
    let (num, den) := scaled m e
    if x < 0 then false else n * den ≤ num

/-- A double that is not negative, as the nearest whole number. -/
def wholeText (x : Float) : String :=
  match magnitude? x with
  | none => if x > 0 then "inf" else "nan"
  | some (m, e) =>
    let (num, den) := scaled m e
    toString (roundDiv num den)

/-- The double nearest to `n / d`: its 53 leading bits are rounded as an integer. -/
def ofRatio (n d : Nat) : Float :=
  let shifted (e : Int) : Nat × Nat :=
    let (num, den) := scaled d e
    (n * den, num)
  let low : Int := (n.log2 : Int) - d.log2 - 53
  let (num, den) := shifted low
  let e := if num / den ≥ Nat.pow 2 53 then low + 1 else low
  let (num, den) := shifted e
  (Float.ofNat (roundDiv num den)).scaleB e

end Double

end EdgeTemplate
