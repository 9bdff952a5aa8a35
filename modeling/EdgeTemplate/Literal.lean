import EdgeTemplate.Text.TagLine

/-!
# String literals

A literal ends at the first matching quote that no backslash escapes. A backslash escapes any
character but a line end, and only a backtick literal may run over several lines.
-/

namespace EdgeTemplate

inductive Quote where
  | single
  | double
  | backtick
  deriving DecidableEq

def Quote.char : Quote → Char
  | .single => '\x27'
  | .double => '\x22'
  | .backtick => '\x60'

def Quote.ofChar? (c : Char) : Option Quote :=
  if c = '\x27' then some .single
  else if c = '\x22' then some .double
  else if c = '\x60' then some .backtick
  else none

def isQuote (c : Char) : Bool := (Quote.ofChar? c).isSome

def Quote.spansLines (q : Quote) : Bool := q == .backtick

/-- Reads the text after an opening quote up to and with the quote that closes it. -/
def closeLiteral (q : Quote) : List Char → Option (List Char × List Char)
  | [] => none
  | c :: cs =>
    if c = q.char then some ([c], cs)
    else if c = '\\' then
      match cs with
      | [] => none
      | d :: ds =>
        if d = '\n' then none
        else (closeLiteral q ds).map fun found => (c :: d :: found.1, found.2)
    else if c = '\n' && !q.spansLines then none
    else (closeLiteral q cs).map fun found => (c :: found.1, found.2)

theorem closeLiteral_append {q : Quote} {cs lexeme rest : List Char}
    (h : closeLiteral q cs = some (lexeme, rest)) : lexeme ++ rest = cs := by
  fun_induction closeLiteral q cs generalizing lexeme rest with
  | case1 => simp at h
  | case2 =>
    simp only [Option.some.injEq, Prod.mk.injEq] at h
    simp [← h.1, ← h.2]
  | case3 => simp at h
  | case4 => simp at h
  | case5 _ _ _ _ ih =>
    obtain ⟨found, hf, he⟩ := Option.map_eq_some_iff.1 h
    cases he
    simp [ih hf]
  | case6 => simp at h
  | case7 _ _ _ _ _ ih =>
    obtain ⟨found, hf, he⟩ := Option.map_eq_some_iff.1 h
    cases he
    simp [ih hf]

/-- Where the run of an unterminated literal ends: at any quote, at a line end or at `)`. -/
def endsUnterminated : List Char → Bool
  | [] => false
  | c :: _ => isQuote c || c == '\n' || c == ')'

end EdgeTemplate
