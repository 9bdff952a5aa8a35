/-!
# Cutting text

Template text is a list of characters. `cut stop` takes characters until what is left satisfies
`stop`; the plain lexemes of the template language are all cuts of this kind. The two halves give
the text back, the second half is empty or satisfies `stop`, and no earlier place does.
-/

namespace EdgeTemplate

/-- Splits before the first place where the remaining text satisfies `stop`. -/
def cut (stop : List Char → Bool) : List Char → List Char × List Char
  | [] => ([], [])
  | c :: cs =>
    if stop (c :: cs) then ([], c :: cs)
    else
      let halves := cut stop cs
      (c :: halves.1, halves.2)

theorem cut_append (stop : List Char → Bool) (cs : List Char) : (cut stop cs).1 ++ (cut stop cs).2 = cs := by
  induction cs with
  | nil => rfl
  | cons c cs ih =>
    unfold cut
    split <;> simp [ih]

theorem cut_length (stop : List Char → Bool) (cs : List Char) :
    (cut stop cs).1.length + (cut stop cs).2.length = cs.length := by
  rw [← List.length_append, cut_append]

theorem cut_snd_le (stop : List Char → Bool) (cs : List Char) : (cut stop cs).2.length ≤ cs.length := by
  have := cut_length stop cs
  omega

/-- A cut that does not stop at once takes at least one character. -/
theorem cut_snd_lt {stop : List Char → Bool} {cs : List Char} (hne : cs ≠ []) (hgo : stop cs = false) :
    (cut stop cs).2.length < cs.length := by
  cases cs with
  | nil => exact absurd rfl hne
  | cons c cs =>
    have := cut_snd_le stop cs
    simp [cut, hgo]
    omega

theorem cut_snd (stop : List Char → Bool) (cs : List Char) :
    (cut stop cs).2 = [] ∨ stop (cut stop cs).2 = true := by
  induction cs with
  | nil => exact .inl rfl
  | cons c cs ih =>
    unfold cut
    split
    · next h => exact .inr h
    · exact ih

def occursIn (part : List Char) : List Char → Bool
  | [] => part.isEmpty
  | c :: cs => part.isPrefixOf (c :: cs) || occursIn part cs

theorem occursIn_iff {part cs : List Char} : occursIn part cs = true ↔ part <:+: cs := by
  induction cs with
  | nil => simp [occursIn]
  | cons c cs ih => simp [occursIn, ih, List.infix_cons_iff]

/-- The offset that `i` names in a text of `length` characters; a negative one counts back from the end. -/
def offsetIn (length : Nat) (i : Int) : Nat := if i < 0 then (i + length).toNat else i.toNat

@[simp] theorem offsetIn_natCast (length n : Nat) : offsetIn length (n : Int) = n := by
  rw [offsetIn, if_neg (by omega), Int.toNat_natCast]

/-- The characters from `start` up to `stop`. -/
def slice (text : List Char) (start stop : Int) : List Char :=
  (text.take (offsetIn text.length stop)).drop (offsetIn text.length start)

theorem slice_natCast (text : List Char) (start stop : Nat) :
    slice text (start : Int) (stop : Int) = (text.take stop).drop start := by
  simp [slice]

/-- The part before the last `c` and the part after it. -/
def splitLast? (c : Char) : List Char → Option (List Char × List Char)
  | [] => none
  | d :: cs =>
    match splitLast? c cs with
    | some (before, after) => some (d :: before, after)
    | none => if d = c then some ([], cs) else none

end EdgeTemplate
