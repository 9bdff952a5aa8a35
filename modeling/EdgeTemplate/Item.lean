import EdgeTemplate.Argument
import EdgeTemplate.Kind

/-!
# Document items

A template is a flat run of items: plain text, comments, escaped mustaches, interpolations and
directives. At each place the first form that fits is taken, in the order in which `Item.next`
lists them, and some form always fits, so every text splits into items (`items`) and the items'
lexemes give it back (`items_append`).
-/

namespace EdgeTemplate

/-- A body up to its closing mark, whether the mark was found, and the text after it. -/
structure Enclosed where
  body : List Char
  closed : Bool
  rest : List Char

/-- Reads up to the first `closing` mark, giving up where the remaining text satisfies `giveUp`. -/
def enclose (closing : List Char) (giveUp : List Char → Bool) (cs : List Char) : Enclosed :=
  let halves := cut (fun rest => closing.isPrefixOf rest || giveUp rest) cs
  if closing.isPrefixOf halves.2 then ⟨halves.1, true, halves.2.drop closing.length⟩
  else ⟨halves.1, false, halves.2⟩

/-- The body together with its closing mark. -/
def Enclosed.lexeme (closing : List Char) (e : Enclosed) : List Char :=
  e.body ++ if e.closed then closing else []

theorem enclose_append (closing : List Char) (giveUp : List Char → Bool) (cs : List Char) :
    (enclose closing giveUp cs).lexeme closing ++ (enclose closing giveUp cs).rest = cs := by
  have happ := cut_append (fun rest => closing.isPrefixOf rest || giveUp rest) cs
  unfold enclose
  dsimp only
  split
  · next h =>
    obtain ⟨rest, hrest⟩ := List.isPrefixOf_iff_prefix.1 h
    rw [← hrest] at happ
    simpa [Enclosed.lexeme, ← hrest] using happ
  · simpa [Enclosed.lexeme] using happ

inductive Item where
  | text (lexeme : List Char)
  | comment (lexeme : List Char) (closed : Bool)
  | escaped (lexeme : List Char) (closed : Bool)
  | interpolation (style : Mustache) (body : List Char) (closed : Bool)
  | directive (indent tag : List Char) (arguments : Option (List ArgumentToken))
  deriving DecidableEq

namespace Item

def commentOpening : List Char := ['{', '{', '-', '-']

def commentClosing : List Char := ['-', '-', '}', '}']

def escapedOpening : List Char := ['@', '{', '{']

/-- The whole source of the item. -/
def lexeme : Item → List Char
  | text lexeme | comment lexeme _ | escaped lexeme _ => lexeme
  | interpolation style body closed => style.opening ++ body ++ if closed then style.closing else []
  | directive indent tag none => indent ++ tag
  | directive indent tag (some tokens) => indent ++ tag ++ '(' :: tokens.flatMap ArgumentToken.lexeme

/-- Where plain text ends; it also takes the line end before a tag line. -/
def endsText (cs : List Char) : Bool :=
  Mustache.plain.opening.isPrefixOf cs || escapedOpening.isPrefixOf cs || startsTagBreak cs

def nextComment (cs : List Char) : Item × List Char :=
  let e := enclose commentClosing (fun _ => false) (cs.drop commentOpening.length)
  (comment (commentOpening ++ e.lexeme commentClosing) e.closed, e.rest)

/-- An escaped mustache may close with a third brace. -/
def nextEscaped (cs : List Char) : Item × List Char :=
  let e := enclose Mustache.plain.closing (fun _ => false) (cs.drop escapedOpening.length)
  let lexeme := escapedOpening ++ e.lexeme Mustache.plain.closing
  match e.closed, e.rest with
  | true, '}' :: rest => (escaped (lexeme ++ ['}']) true, rest)
  | closed, rest => (escaped lexeme closed, rest)

def nextInterpolation (style : Mustache) (cs : List Char) : Item × List Char :=
  let e := enclose style.closing startsTagBreak (cs.drop style.opening.length)
  (interpolation style e.body e.closed, e.rest)

def nextDirective (cs : List Char) : Item × List Char :=
  let (indent, tag, rest) := splitTag cs
  match rest with
  | '(' :: inner =>
    let scanned := ArgumentToken.scan 0 inner
    (directive indent tag (some scanned.1), scanned.2)
  | _ => (directive indent tag none, rest)

def nextText (cs : List Char) : Item × List Char :=
  let halves := cut endsText cs
  match halves.2 with
  | '\n' :: rest => (text (halves.1 ++ ['\n']), rest)
  | rest => (text halves.1, rest)

/-- The item at the start of a text that is not empty. `lineStart` tells whether a line starts there. -/
def next (lineStart : Bool) (cs : List Char) : Item × List Char :=
  if commentOpening.isPrefixOf cs then nextComment cs
  else if escapedOpening.isPrefixOf cs then nextEscaped cs
  else if Mustache.safe.opening.isPrefixOf cs then nextInterpolation .safe cs
  else if Mustache.plain.opening.isPrefixOf cs then nextInterpolation .plain cs
  else if lineStart && startsTagLine cs then nextDirective cs
  else nextText cs

/-- A line starts right after the item. -/
def endsLine : Item → Bool
  | text lexeme => lexeme.getLast? == some '\n'
  | _ => false

theorem nextComment_append {cs : List Char} (h : commentOpening.isPrefixOf cs = true) :
    (nextComment cs).1.lexeme ++ (nextComment cs).2 = cs := by
  obtain ⟨rest, rfl⟩ := List.isPrefixOf_iff_prefix.1 h
  simp [nextComment, lexeme, enclose_append]

theorem nextEscaped_append {cs : List Char} (h : escapedOpening.isPrefixOf cs = true) :
    (nextEscaped cs).1.lexeme ++ (nextEscaped cs).2 = cs := by
  obtain ⟨rest, rfl⟩ := List.isPrefixOf_iff_prefix.1 h
  have happ := enclose_append Mustache.plain.closing (fun _ => false) rest
  unfold nextEscaped
  simp only [List.drop_left]
  split
  · next hr => simpa [lexeme, hr] using happ
  · simpa [lexeme] using happ

theorem nextInterpolation_append {style : Mustache} {cs : List Char} (h : style.opening.isPrefixOf cs = true) :
    (nextInterpolation style cs).1.lexeme ++ (nextInterpolation style cs).2 = cs := by
  obtain ⟨rest, rfl⟩ := List.isPrefixOf_iff_prefix.1 h
  have happ := enclose_append style.closing startsTagBreak rest
  simpa [nextInterpolation, lexeme, Enclosed.lexeme] using happ

theorem nextDirective_append (cs : List Char) :
    (nextDirective cs).1.lexeme ++ (nextDirective cs).2 = cs := by
  have happ := splitTag_append cs
  unfold nextDirective
  split
  next indent tag rest hs =>
    rw [hs] at happ
    split
    · next inner =>
      have hscan := ArgumentToken.scan_append 0 inner
      simp [lexeme, hscan, happ]
    · simpa [lexeme] using happ

theorem nextText_append (cs : List Char) : (nextText cs).1.lexeme ++ (nextText cs).2 = cs := by
  have happ := cut_append endsText cs
  unfold nextText
  dsimp only
  split
  · next hr =>
    rw [hr] at happ
    simpa [lexeme] using happ
  · simpa [lexeme] using happ

theorem next_append (lineStart : Bool) (cs : List Char) :
    (next lineStart cs).1.lexeme ++ (next lineStart cs).2 = cs := by
  unfold next
  split
  · next h => exact nextComment_append h
  split
  · next h => exact nextEscaped_append h
  split
  · next h => exact nextInterpolation_append h
  split
  · next h => exact nextInterpolation_append h
  split
  · exact nextDirective_append cs
  · exact nextText_append cs

/-- Plain text takes a character wherever no mustache starts. -/
theorem nextText_ne_nil {cs : List Char} (hne : cs ≠ []) (hm : Mustache.plain.opening.isPrefixOf cs = false)
    (he : escapedOpening.isPrefixOf cs = false) : (nextText cs).1.lexeme ≠ [] := by
  unfold nextText
  dsimp only
  split
  · simp [lexeme]
  · next hr =>
    cases hb : startsTagBreak cs with
    | true =>
      -- a cut that stops at once leaves the line end in front
      cases cs with
      | nil => exact absurd rfl hne
      | cons c cs =>
        have hc : c = '\n' := by
          unfold startsTagBreak at hb
          split at hb <;> simp_all
        subst hc
        have : cut endsText ('\n' :: cs) = ([], '\n' :: cs) := by simp [cut, endsText, hb]
        exact absurd (by rw [this]) (hr cs)
    | false =>
      have hgo : endsText cs = false := by simp [endsText, hm, he, hb]
      have := cut_snd_lt hne hgo
      have hl := cut_length endsText cs
      simp only [lexeme, ne_eq]
      intro h0
      simp only [h0, List.length_nil] at hl
      omega

theorem next_ne_nil (lineStart : Bool) {cs : List Char} (hne : cs ≠ []) :
    (next lineStart cs).1.lexeme ≠ [] := by
  unfold next
  split
  · simp [nextComment, lexeme, commentOpening]
  split
  · unfold nextEscaped
    dsimp only
    split <;> simp [lexeme, escapedOpening]
  split
  · simp [nextInterpolation, lexeme, Mustache.opening]
  split
  · simp [nextInterpolation, lexeme, Mustache.opening]
  split
  · next h =>
    have htag := splitTag_snd_lt (Bool.and_eq_true_iff.1 h).2
    have happ := congrArg List.length (splitTag_append cs)
    simp only [List.length_append] at happ
    unfold nextDirective
    split
    next hs =>
      simp only [hs] at htag happ
      split <;> simp only [lexeme, ne_eq, List.append_eq_nil_iff, not_and] <;> grind
  · next he _ hm _ => exact nextText_ne_nil hne (Bool.eq_false_iff.2 hm) (Bool.eq_false_iff.2 he)

theorem next_lt (lineStart : Bool) {cs : List Char} (hne : cs ≠ []) :
    (next lineStart cs).2.length < cs.length := by
  have happ := congrArg List.length (next_append lineStart cs)
  have hpos := List.length_pos_iff.2 (next_ne_nil lineStart hne)
  simp only [List.length_append] at happ
  omega

end Item

/-- Splits a text into its items; `lineStart` tells whether it starts a line. -/
def items (lineStart : Bool) (cs : List Char) : List Item :=
  if hne : cs = [] then []
  else
    have := Item.next_lt lineStart hne
    let first := Item.next lineStart cs
    first.1 :: items first.1.endsLine first.2
termination_by cs.length

theorem items_append (lineStart : Bool) (cs : List Char) : (items lineStart cs).flatMap Item.lexeme = cs := by
  fun_induction items lineStart cs with
  | case1 => rfl
  | case2 lineStart cs _ _ first ih =>
    rw [List.flatMap_cons, ih]
    exact Item.next_append lineStart cs

end EdgeTemplate
