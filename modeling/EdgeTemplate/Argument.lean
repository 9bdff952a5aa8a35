import EdgeTemplate.Literal

/-!
# Argument lists

The inside of an argument list is read as a flat run of tokens with a depth counter. The run ends
at the parenthesis that closes the list, before a tag line or at the end of the text; in the last
two cases every list still open stays unclosed.
-/

namespace EdgeTemplate

inductive ArgumentToken where
  | opening
  | closing
  | text (lexeme : List Char)
  | literal (lexeme : List Char)
  | unterminated (lexeme : List Char)
  deriving DecidableEq

namespace ArgumentToken

def lexeme : ArgumentToken → List Char
  | opening => ['(']
  | closing => [')']
  | text lexeme | literal lexeme | unterminated lexeme => lexeme

/-- The number of inner lists that are open after the token. -/
def depthAfter (depth : Nat) : ArgumentToken → Nat
  | opening => depth + 1
  | closing => depth - 1
  | _ => depth

def endsText (cs : List Char) : Bool :=
  startsTagBreak cs || cs.head?.any fun c => c == '(' || c == ')' || isQuote c

/-- The token at the start of the text; there is none at its end or before a tag line. -/
def next? : List Char → Option (ArgumentToken × List Char)
  | [] => none
  | c :: cs =>
    if c = '(' then some (opening, cs)
    else if c = ')' then some (closing, cs)
    else
      match Quote.ofChar? c with
      | some q =>
        match closeLiteral q cs with
        | some (body, rest) => some (literal (c :: body), rest)
        | none =>
          let halves := cut endsUnterminated cs
          some (unterminated (c :: halves.1), halves.2)
      | none =>
        if startsTagBreak (c :: cs) then none
        else
          let halves := cut endsText cs
          some (text (c :: halves.1), halves.2)

theorem next?_append {cs rest : List Char} {token : ArgumentToken} (h : next? cs = some (token, rest)) :
    token.lexeme ++ rest = cs := by
  unfold next? at h
  split at h
  · cases h
  · next c cs =>
    split at h
    · cases h; simp_all [lexeme]
    · split at h
      · cases h; simp_all [lexeme]
      · split at h
        · split at h
          · next hc => cases h; simp [lexeme, closeLiteral_append hc]
          · cases h; simp [lexeme, cut_append]
        · split at h
          · cases h
          · cases h; simp [lexeme, cut_append]

theorem next?_length {cs rest : List Char} {token : ArgumentToken} (h : next? cs = some (token, rest)) :
    rest.length < cs.length := by
  have happ := congrArg List.length (next?_append h)
  have hpos : 0 < token.lexeme.length := by
    unfold next? at h
    repeat' split at h
    all_goals (try cases h) <;> simp [lexeme]
  simp only [List.length_append] at happ
  omega

/-- Reads the tokens of a list in which `depth` inner lists are open. -/
def scan (depth : Nat) (cs : List Char) : List ArgumentToken × List Char :=
  match h : next? cs with
  | none => ([], cs)
  | some (token, rest) =>
    have := next?_length h
    if token = closing ∧ depth = 0 then ([token], rest)
    else
      let tail := scan (token.depthAfter depth) rest
      (token :: tail.1, tail.2)
termination_by cs.length

theorem scan_append (depth : Nat) (cs : List Char) :
    (scan depth cs).1.flatMap lexeme ++ (scan depth cs).2 = cs := by
  fun_induction scan depth cs with
  | case1 => simp
  | case2 _ _ _ _ h => simpa using next?_append h
  | case3 _ _ _ _ h _ _ tail ih =>
    have htail : tail.1.flatMap lexeme ++ tail.2 = _ := ih
    rw [List.flatMap_cons, List.append_assoc, htail]
    exact next?_append h

end ArgumentToken

end EdgeTemplate
