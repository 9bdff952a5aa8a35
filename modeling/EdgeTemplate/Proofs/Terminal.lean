import EdgeTemplate.Proofs.Pattern
import EdgeTemplate.Proofs.ReadSound

/-!
# Terminals of the template language

Every lexeme of the language is a match of one of these patterns. Each pattern reads what the scanner
of the same name reads: its repetitions are the cuts, and its lookaheads are the places to stop.
-/

namespace EdgeTemplate

inductive Terminal where
  | string
  | unterminatedString
  | leftParen
  | rightParen
  | argumentText
  | closing (style : Mustache)
  | expression (style : Mustache)
  | comment
  | unclosedComment
  | escaped
  | unclosedEscaped
  | opening (style : Mustache)
  | tagName
  | text
  deriving DecidableEq

namespace Pattern

/-- Blanks, an `@`, an optional `!` and then `name`. -/
def tag (name : Pattern) : Pattern :=
  seq (star (char isIndent)) (seq (one '@') (seq (opt (one '!')) name))

def tagStart : Pattern := tag (char isNameStart)

/-- The inside of a literal: any character but the quote, a backslash and, unless it may run over
lines, a line end; or a backslash with a character on the same line. -/
def literalChar (q : Quote) : Pattern :=
  alt (char fun c => c != q.char && c != '\\' && (q.spansLines || c != '\n')) (seq (one '\\') (char (· != '\n')))

def literal (q : Quote) : Pattern := seq (one q.char) (seq (star (literalChar q)) (one q.char))

def argumentChar : Pattern :=
  alt (char fun c => c != '(' && c != ')' && !isQuote c && c != '\n') (seq (one '\n') (notAhead tagStart))

def expressionChar (style : Mustache) : Pattern :=
  seq (notAhead (alt (lit style.closing) (seq (one '\n') tagStart))) any

def textChar : Pattern :=
  alt (char fun c => c != '@' && c != '{' && c != '\n')
    (alt (seq (one '{') (notAhead (one '{')))
      (alt (seq (one '@') (notAhead (lit Mustache.plain.opening))) (seq (one '\n') (notAhead tagStart))))

/-- An escaped mustache may close with a third brace. -/
def escapedEnd : Pattern := seq (lit Mustache.plain.closing) (opt (one '}'))

/-- The line end before a tag line. -/
def tagBreak : Pattern := seq (one '\n') (ahead tagStart)

end Pattern

open Pattern in
def Terminal.pattern : Terminal → Pattern
  | string => alt (literal .single) (alt (literal .double) (literal .backtick))
  | unterminatedString => seq (char isQuote) (star (char fun c => !(isQuote c || c == '\n' || c == ')')))
  | leftParen => lit ['(']
  | rightParen => lit [')']
  | argumentText => plus argumentChar
  | closing style => lit style.closing
  | expression style => plus (expressionChar style)
  | comment => seq (lit Item.commentOpening) (seq (lazyStar any) (lit Item.commentClosing))
  | unclosedComment => seq (lit Item.commentOpening) (star any)
  | escaped => seq (lit Item.escapedOpening) (seq (opt (one '{')) (seq (lazyStar any) escapedEnd))
  | unclosedEscaped => seq (lit Item.escapedOpening) (star any)
  | opening style => lit style.opening
  | tagName => seq (notBehind (· != '\n')) (tag (seq (char isNameStart) (star (char isNameChar))))
  | text => alt (seq (plus textChar) (opt tagBreak)) tagBreak

/-- The end of the terminal's match, if it matches. -/
def Terminal.match? (t : Terminal) (p : Place) : Option Place := (t.pattern.ends p).head?

/-! ## Tags -/

namespace Pattern

theorem cut_head (accepts : Char → Bool) (cs : List Char) :
    cut (fun r => !r.head?.any accepts) cs = (cs.takeWhile accepts, cs.dropWhile accepts) := by
  induction cs with
  | nil => rfl
  | cons c cs ih => cases h : accepts c <;> simp [cut, ih, h]

theorem ends_tag (name : Pattern) (d cs : List Char) :
    (tag name).ends ⟨d, cs⟩ =
      (seq (one '@') (seq (opt (one '!')) name)).ends ⟨(cs.takeWhile isIndent).reverse ++ d, cs.dropWhile isIndent⟩ := by
  rw [tag, ends_star_seq (steps_char isIndent), cut_head]
  · rfl
  · intro d c r h
    have hc : c ≠ '@' := by rintro rfl; simp [isIndent] at h
    rw [ends, ends_one_ne hc, List.flatMap_nil]

theorem ends_bang {name : Pattern} {d r : List Char} (hn : name.ends ⟨d, '!' :: r⟩ = []) :
    (seq (opt (one '!')) name).ends ⟨d, '!' :: r⟩ = name.ends ⟨'!' :: d, r⟩ := by
  simp [ends_seq, ends_opt, ends_one, hn]

theorem ends_no_bang {name : Pattern} {d cs : List Char} (h : cs.head? ≠ some '!') :
    (seq (opt (one '!')) name).ends ⟨d, cs⟩ = name.ends ⟨d, cs⟩ := by
  cases cs with
  | nil => simp [ends_opt, one, ends]
  | cons c r =>
    have hc : c ≠ '!' := fun hc => h (by rw [hc]; rfl)
    simp [ends_seq, ends_opt, ends_one_ne hc]

/-- A pattern that matches wherever a name starts. -/
def StartsName (name : Pattern) : Prop :=
  ∀ d cs, name.ends ⟨d, cs⟩ = [] ↔ cs.head?.all (!isNameStart ·) = true

theorem startsName_char : StartsName (char isNameStart) := by
  intro d cs
  cases cs with
  | nil => exact ⟨fun _ => rfl, fun _ => rfl⟩
  | cons c r => cases h : isNameStart c <;> simp [ends, h]

theorem startsName_name : StartsName (seq (char isNameStart) (star (char isNameChar))) := by
  intro d cs
  rw [← startsName_char d cs, ends_seq]
  constructor
  · intro h
    cases hc : (char isNameStart).ends ⟨d, cs⟩ with
    | nil => rfl
    | cons p ps =>
      have := head_star (steps_char isNameChar) p.done p.rest
      rw [hc, List.flatMap_cons, List.append_eq_nil_iff] at h
      rw [h.1] at this
      cases this
  · intro h
    rw [h, List.flatMap_nil]

theorem ends_tag_eq_nil {name : Pattern} (hname : StartsName name) (d cs : List Char) :
    (tag name).ends ⟨d, cs⟩ = [] ↔ startsTagLine cs = false := by
  rw [ends_tag, startsTagLine]
  generalize cs.dropWhile isIndent = r
  generalize (cs.takeWhile isIndent).reverse ++ d = d'
  cases r with
  | nil => exact ⟨fun _ => rfl, fun _ => rfl⟩
  | cons c r =>
    by_cases hc : c = '@'
    · subst hc
      rw [ends, ends_one, List.flatMap_singleton]
      cases r with
      | nil =>
        rw [ends_no_bang (by simp), hname]
        exact ⟨fun _ => rfl, fun _ => rfl⟩
      | cons e r =>
        by_cases he : e = '!'
        · subst he
          rw [ends_bang ((hname _ _).2 (by simp [isNameStart])), hname]
          cases r with
          | nil => exact ⟨fun _ => rfl, fun _ => rfl⟩
          | cons f r => simp [startsTag]
        · rw [ends_no_bang (by simpa using he), hname, startsTag_plain he]
          simp
    · have hno : startsTag (c :: r) = false := by
        by_cases h : startsTag (c :: r) = true
        · obtain ⟨t, ht⟩ := startsTag_head h
          exact absurd (List.cons.inj ht).1 hc
        · exact Bool.eq_false_iff.2 h
      rw [ends, ends_one_ne hc, List.flatMap_nil]
      exact ⟨fun _ => hno, fun _ => rfl⟩

theorem ends_tagStart_eq_nil (d cs : List Char) : tagStart.ends ⟨d, cs⟩ = [] ↔ startsTagLine cs = false :=
  ends_tag_eq_nil startsName_char d cs

theorem ends_newline (d r : List Char) :
    (seq (one '\n') (notAhead tagStart)).ends ⟨d, '\n' :: r⟩ = if startsTagLine r then [] else [⟨'\n' :: d, r⟩] := by
  rw [ends, ends_one, List.flatMap_singleton, ends]
  cases h : startsTagLine r with
  | true =>
    have : tagStart.ends ⟨'\n' :: d, r⟩ ≠ [] := fun he => by
      rw [(ends_tagStart_eq_nil _ _).1 he] at h; cases h
    simp [this]
  | false => simp [(ends_tagStart_eq_nil ('\n' :: d) r).2 h]

theorem ends_tagBreak (d r : List Char) :
    tagBreak.ends ⟨d, '\n' :: r⟩ = if startsTagLine r then [⟨'\n' :: d, r⟩] else [] := by
  rw [tagBreak, ends, ends_one, List.flatMap_singleton, ends]
  cases h : startsTagLine r with
  | true =>
    have : tagStart.ends ⟨'\n' :: d, r⟩ ≠ [] := fun he => by
      rw [(ends_tagStart_eq_nil _ _).1 he] at h; cases h
    simp [this]
  | false => simp [(ends_tagStart_eq_nil ('\n' :: d) r).2 h]

theorem ends_tagBreak_nil {d cs : List Char} (h : startsTagBreak cs = false) : tagBreak.ends ⟨d, cs⟩ = [] := by
  cases cs with
  | nil => rfl
  | cons c r =>
    by_cases hc : c = '\n'
    · subst hc
      have : startsTagLine r = false := h
      rw [ends_tagBreak, this]
      rfl
    · rw [tagBreak, ends, ends_one_ne hc, List.flatMap_nil]

/-! ## Patterns that read one character -/

theorem startsTagBreak_cons {c : Char} (h : c ≠ '\n') (r : List Char) : startsTagBreak (c :: r) = false := by
  simp [startsTagBreak, h]

theorem steps_argumentChar : argumentChar.Steps ArgumentToken.endsText := by
  refine .intro (fun _ => rfl) fun d c r => ?_
  by_cases hc : c = '\n'
  · subst hc
    have hends : ArgumentToken.endsText ('\n' :: r) = startsTagLine r := by
      simp [ArgumentToken.endsText, startsTagBreak, isQuote, Quote.ofChar?]
    rw [argumentChar, ends, ends_newline, hends]
    simp [ends]
  · have hends : ArgumentToken.endsText (c :: r) = (c == '(' || c == ')' || isQuote c) := by
      simp [ArgumentToken.endsText, startsTagBreak_cons hc]
    have hsecond : (seq (one '\n') (notAhead tagStart)).ends ⟨d, c :: r⟩ = [] := by
      rw [ends, ends_one_ne hc, List.flatMap_nil]
    rw [argumentChar, ends, hsecond, hends, List.append_nil]
    simp only [ends]
    by_cases ho : c = '(' <;> by_cases hp : c = ')' <;> cases hq : isQuote c <;> simp [ho, hp, hc]

theorem steps_expressionChar (style : Mustache) :
    (expressionChar style).Steps fun r => style.closing.isPrefixOf r || startsTagBreak r := by
  refine steps_notAhead_any fun d c r => ?_
  rw [ends, List.append_eq_nil_iff, ends_lit_eq_nil, Bool.or_eq_false_iff]
  refine and_congr_right fun _ => ?_
  by_cases hc : c = '\n'
  · subst hc
    rw [ends, ends_one, List.flatMap_singleton, ends_tagStart_eq_nil]
    rfl
  · rw [ends, ends_one_ne hc, List.flatMap_nil]
    exact ⟨fun _ => startsTagBreak_cons hc r, fun _ => rfl⟩

theorem steps_textChar : textChar.Steps Item.endsText := by
  refine .intro (fun _ => rfl) fun d c r => ?_
  rw [textChar, ends_alt, ends_alt, ends_alt]
  by_cases hn : c = '\n'
  · subst hn
    have hends : Item.endsText ('\n' :: r) = startsTagLine r := by
      simp [Item.endsText, Mustache.opening, Item.escapedOpening, startsTagBreak]
    rw [ends_newline, hends]
    simp [ends, one]
  have hends : Item.endsText (c :: r) =
      (Mustache.plain.opening.isPrefixOf (c :: r) || Item.escapedOpening.isPrefixOf (c :: r)) := by
    simp [Item.endsText, startsTagBreak_cons hn]
  have hline : (seq (one '\n') (notAhead tagStart)).ends ⟨d, c :: r⟩ = [] := by
    rw [ends, ends_one_ne hn, List.flatMap_nil]
  rw [hends, hline, List.append_nil]
  by_cases hb : c = '{'
  · subst hb
    cases r with
    | nil => simp [ends, one, Mustache.opening, Item.escapedOpening]
    | cons e r =>
      by_cases he : e = '{'
      · simp [ends, one, Mustache.opening, he]
      · simp [ends, one, Mustache.opening, Item.escapedOpening, List.isPrefixOf, he, Ne.symm he]
  by_cases ha : c = '@'
  · subst ha
    have hp : Item.escapedOpening.isPrefixOf ('@' :: r) = Mustache.plain.opening.isPrefixOf r := by
      simp [Item.escapedOpening, Mustache.opening]
    have hm : Mustache.plain.opening.isPrefixOf ('@' :: r) = false := rfl
    rw [hp, hm, Bool.false_or]
    cases h : Mustache.plain.opening.isPrefixOf r with
    | true =>
      have : (lit Mustache.plain.opening).ends ⟨'@' :: d, r⟩ ≠ [] := fun he => by
        rw [ends_lit_eq_nil.1 he] at h; cases h
      simp [ends, one, this]
    | false => simp [ends, one, ends_lit_none h]
  · have hm : Mustache.plain.opening.isPrefixOf (c :: r) = false := Item.isPrefixOf_cons_of_ne rfl hb r
    have he : Item.escapedOpening.isPrefixOf (c :: r) = false := Item.isPrefixOf_cons_of_ne rfl ha r
    simp [ends, one, hn, hb, ha, hm, he]

theorem steps_unterminated :
    (char fun c => !(isQuote c || c == '\n' || c == ')')).Steps endsUnterminated := by
  refine .intro (fun _ => rfl) fun d c r => ?_
  cases h : isQuote c || c == '\n' || c == ')' <;> simp [ends, endsUnterminated, h]

theorem steps_any : any.Steps fun _ => false := .intro (fun _ => rfl) fun _ _ _ => rfl

end Pattern

/-! ## What the terminals match -/

namespace Terminal

open Pattern

/-- The fixed text with which the terminal begins. -/
def mark? : Terminal → Option (List Char)
  | leftParen => some ['(']
  | rightParen => some [')']
  | closing style => some style.closing
  | comment | unclosedComment => some Item.commentOpening
  | escaped | unclosedEscaped => some Item.escapedOpening
  | opening style => some style.opening
  | _ => none

theorem match_none_of_mark {t : Terminal} {mark cs : List Char} (ht : t.mark? = some mark)
    (h : mark.isPrefixOf cs = false) (d : List Char) : t.match? ⟨d, cs⟩ = none := by
  have hlit := ends_lit_none h d
  have hseq : ∀ k, (seq (lit mark) k).ends ⟨d, cs⟩ = [] := fun k => by rw [ends_seq, hlit, List.flatMap_nil]
  cases t <;> cases ht <;> simp only [match?, pattern, hlit, hseq, List.head?_nil]

theorem match_mark {t : Terminal} {mark : List Char} (ht : t.pattern = lit mark) (d r : List Char) :
    t.match? ⟨d, mark ++ r⟩ = some ⟨mark.reverse ++ d, r⟩ := by
  rw [match?, ht, ends_lit]
  rfl

theorem match_comment {e : Enclosed} (h : e.Ends Item.commentClosing fun _ => false) (d : List Char) :
    comment.match? ⟨d, Item.commentOpening ++ (e.lexeme Item.commentClosing ++ e.rest)⟩ =
      if e.closed then some ⟨(Item.commentOpening ++ e.lexeme Item.commentClosing).reverse ++ d, e.rest⟩
      else none := by
  have hcut := h.cut_eq
  simp only [Bool.or_false] at hcut
  rw [match?, pattern, ends_seq, ends_lit, List.flatMap_singleton,
    head_lazy (fun _ _ => ends_lit_eq_nil), hcut, Place.after]
  cases hc : e.closed with
  | true => simp [ends_lit, Enclosed.lexeme, hc]
  | false => simp [ends_lit_none (h.2 hc).1]

/-- The unclosed forms run to the end of the text. -/
theorem head_to_end (mark d r : List Char) :
    ((seq (lit mark) (star any)).ends ⟨d, mark ++ r⟩).head? = some ⟨(mark ++ r).reverse ++ d, []⟩ := by
  have hcut : cut (fun _ => false) r = (r, []) := by
    have : Unstopped (fun _ => false) r [] := by
      induction r with
      | nil => trivial
      | cons c r ih => exact ⟨rfl, ih⟩
    simpa using cut_eq this (.inl rfl)
  rw [ends_seq, ends_lit, List.flatMap_singleton, head_star steps_any, hcut]
  simp [Place.after]

theorem ends_escapedEnd_eq_nil (d r : List Char) :
    escapedEnd.ends ⟨d, r⟩ = [] ↔ Mustache.plain.closing.isPrefixOf r = false := by
  rw [← @ends_lit_eq_nil _ _ d, escapedEnd, ends_seq]
  constructor
  · intro h
    cases hl : (lit Mustache.plain.closing).ends ⟨d, r⟩ with
    | nil => rfl
    | cons p ps => simp [hl, ends_opt] at h
  · intro h
    rw [h, List.flatMap_nil]

/-- The optional third brace of the opening mark changes nothing: the body may begin with it as well. -/
theorem head_escaped (d r : List Char) :
    escaped.match? ⟨d, Item.escapedOpening ++ r⟩ =
      ((seq (lazyStar any) escapedEnd).ends ⟨Item.escapedOpening.reverse ++ d, r⟩).head? := by
  rw [match?, pattern, ends_seq, ends_lit, List.flatMap_singleton, ends_seq, ends_opt]
  generalize Item.escapedOpening.reverse ++ d = d'
  rw [List.flatMap_append, List.flatMap_singleton, List.head?_append]
  by_cases hr : ∃ r', r = '{' :: r'
  · obtain ⟨r, rfl⟩ := hr
    have hgo : Mustache.plain.closing.isPrefixOf ('{' :: r) = false := Item.isPrefixOf_cons_of_ne rfl (by decide) r
    have hsame : ((seq (lazyStar any) escapedEnd).ends ⟨d', '{' :: r⟩).head? =
        ((seq (lazyStar any) escapedEnd).ends ⟨'{' :: d', r⟩).head? := by
      rw [head_lazy ends_escapedEnd_eq_nil, head_lazy ends_escapedEnd_eq_nil]
      simp [cut, hgo, Place.after]
    rw [ends_one, List.flatMap_singleton, hsame, Option.or_self]
  · have hone : (one '{').ends ⟨d', r⟩ = [] := by
      cases r with
      | nil => rfl
      | cons c r => exact ends_one_ne (fun hc => hr ⟨r, by rw [hc]⟩) d' r
    rw [hone, List.flatMap_nil, List.head?_nil, Option.none_or]

theorem match_escaped {e : Enclosed} (h : e.Ends Mustache.plain.closing fun _ => false) (d : List Char) :
    escaped.match? ⟨d, Item.escapedOpening ++ (e.lexeme Mustache.plain.closing ++ e.rest)⟩ =
      if e.closed then
        let p : Place := ⟨(Item.escapedOpening ++ e.lexeme Mustache.plain.closing).reverse ++ d, e.rest⟩
        (((one '}').ends p).head?.or (some p))
      else none := by
  have hcut := h.cut_eq
  simp only [Bool.or_false] at hcut
  rw [head_escaped, head_lazy ends_escapedEnd_eq_nil, hcut, Place.after]
  cases hc : e.closed with
  | true =>
    rw [escapedEnd, ends_seq]
    simp [ends_lit, Enclosed.lexeme, hc, head_opt]
  | false =>
    have : escapedEnd.ends ⟨e.body.reverse ++ (Item.escapedOpening.reverse ++ d), e.rest⟩ = [] :=
      (ends_escapedEnd_eq_nil _ _).2 (h.2 hc).1
    simp [this]

theorem match_tagName_none {d cs : List Char} (h : (d.head?.all (· == '\n') && startsTagLine cs) = false) :
    tagName.match? ⟨d, cs⟩ = none := by
  have hbehind : d.head?.any (· != '\n') = !d.head?.all (· == '\n') := by cases d.head? <;> rfl
  rw [match?, pattern, ends_seq, ends, hbehind]
  cases hd : d.head?.all (· == '\n') with
  | false => rfl
  | true =>
    rw [hd, Bool.true_and] at h
    simp [(ends_tag_eq_nil startsName_name d cs).2 h]

theorem head_name {c : Char} {cs rest : List Char} (hc : isNameStart c = true) (hcs : cs.all isNameChar = true)
    (hr : ∀ c, rest.head? = some c → isNameChar c = false) (d : List Char) :
    ((seq (char isNameStart) (star (char isNameChar))).ends ⟨d, c :: cs ++ rest⟩).head? =
      some ⟨(c :: cs).reverse ++ d, rest⟩ := by
  have hs := span_nameChars cs hcs hr
  have hone : (char isNameStart).ends ⟨d, c :: cs ++ rest⟩ = [⟨c :: d, cs ++ rest⟩] := by simp [ends, hc]
  rw [ends_seq, hone, List.flatMap_singleton, head_star (steps_char isNameChar), cut_head, hs.1, hs.2]
  simp [Place.after]

theorem match_tagName {indent tag rest d : List Char} (h : TagSplit indent tag rest)
    (hd : d.head?.all (· == '\n') = true) :
    tagName.match? ⟨d, indent ++ (tag ++ rest)⟩ = some ⟨(indent ++ tag).reverse ++ d, rest⟩ := by
  have hbehind : d.head?.any (· != '\n') = false := by
    cases hh : d.head? with
    | none => rfl
    | some c => rw [hh] at hd; simpa using hd
  rw [match?, pattern, ends_seq, ends, hbehind, if_neg (by simp), List.flatMap_singleton, ends_tag, h.span.1, h.span.2]
  cases h.tag with
  | plain c cs hc hcs =>
    have hb : c ≠ '!' := by rintro rfl; exact absurd hc (by decide)
    have hn := head_name hc hcs h.rest ('@' :: (indent.reverse ++ d))
    rw [List.cons_append, ends_seq, ends_one, List.flatMap_singleton, ends_no_bang (by simpa using hb), hn]
    simp
  | inline c cs hc hcs =>
    have hn := head_name hc hcs h.rest ('!' :: '@' :: (indent.reverse ++ d))
    rw [List.cons_append, ends_seq, ends_one, List.flatMap_singleton, List.cons_append, ends_bang, hn]
    · simp
    · exact (startsName_name _ _).2 (by simp [isNameStart])

theorem match_text {a b : List Char} (hne : a ≠ []) (ha : Unstopped Item.endsText a b)
    (hb : b = [] ∨ Item.endsText b = true) (hn : startsTagBreak b = false) (d : List Char) :
    text.match? ⟨d, a ++ b⟩ = some ⟨a.reverse ++ d, b⟩ := by
  have hp := head_plus steps_textChar (cut_eq ha hb) hne d
  rw [match?, pattern, ends_alt, List.head?_append, head_seq_opt _ hp, ends_tagBreak_nil hn]
  rfl

theorem match_line {a b : List Char} (ha : Unstopped Item.endsText a ('\n' :: b)) (hb : startsTagLine b = true)
    (d : List Char) : text.match? ⟨d, a ++ '\n' :: b⟩ = some ⟨(a ++ ['\n']).reverse ++ d, b⟩ := by
  have hstop : Item.endsText ('\n' :: b) = true := by simp [Item.endsText, startsTagBreak, hb]
  rw [match?, pattern, ends_alt, List.head?_append]
  by_cases hne : a = []
  · subst hne
    rw [ends_seq, List.nil_append, ends_plus_stop steps_textChar (.inr hstop), ends_tagBreak, hb]
    simp
  · have hp := head_plus steps_textChar (cut_eq ha (.inr hstop)) hne d
    rw [head_seq_opt _ hp, ends_tagBreak, hb]
    simp

theorem match_argumentText {a b : List Char} (hne : a ≠ []) (ha : Unstopped ArgumentToken.endsText a b)
    (hb : b = [] ∨ ArgumentToken.endsText b = true) (d : List Char) :
    argumentText.match? ⟨d, a ++ b⟩ = some ⟨a.reverse ++ d, b⟩ :=
  head_plus steps_argumentChar (cut_eq ha hb) hne d

theorem match_argumentText_none {cs : List Char} (h : cs = [] ∨ ArgumentToken.endsText cs = true) (d : List Char) :
    argumentText.match? ⟨d, cs⟩ = none := by
  rw [match?, pattern, ends_plus_stop steps_argumentChar h]
  rfl

theorem match_expression {style : Mustache} {e : Enclosed} (h : e.Ends style.closing startsTagBreak)
    (hne : e.body ≠ []) (d : List Char) :
    (expression style).match? ⟨d, e.lexeme style.closing ++ e.rest⟩ =
      some ⟨e.body.reverse ++ d, (if e.closed then style.closing else []) ++ e.rest⟩ :=
  head_plus (steps_expressionChar style) h.cut_eq hne d

theorem match_expression_none {style : Mustache} {cs : List Char} (h : cs = [] ∨ startsTagBreak cs = true)
    (d : List Char) : (expression style).match? ⟨d, cs⟩ = none := by
  rw [match?, pattern, ends_plus_stop (steps_expressionChar style)]
  · rfl
  · exact h.imp_right fun h => by simp [h]

/-! ## String literals -/

theorem ends_closeLiteral (q : Quote) (cs d : List Char) :
    (seq (star (literalChar q)) (one q.char)).ends ⟨d, cs⟩ =
      (closeLiteral q cs).toList.map fun found => ⟨found.1.reverse ++ d, found.2⟩ := by
  have hq : q.char ≠ '\\' := by cases q <;> decide
  have hstop : ∀ {p : Place}, (literalChar q).ends p = [] →
      (seq (star (literalChar q)) (one q.char)).ends p = (one q.char).ends p := by
    intro p h
    have : (star (literalChar q)).ends p = [p] := repeats_of_none h
    rw [ends_seq, this, List.flatMap_singleton]
  have hgo : ∀ {p p' : Place}, (literalChar q).ends p = [p'] → p'.rest.length < p.rest.length →
      (one q.char).ends p = [] → (seq (star (literalChar q)) (one q.char)).ends p =
        (seq (star (literalChar q)) (one q.char)).ends p' := by
    intro p p' h hl hp
    have : (star (literalChar q)).ends p = (star (literalChar q)).ends p' ++ [p] := repeats_of_one true h hl
    rw [ends_seq, ends_seq, this, List.flatMap_append, List.flatMap_singleton, hp, List.append_nil]
  fun_induction closeLiteral q cs generalizing d with
  | case1 => rw [hstop] <;> rfl
  | case2 cs =>
    rw [hstop (by simp [literalChar, ends, one, hq])]
    simp [ends_one]
  | case3 _ =>
    rw [hstop (by simp [literalChar, ends, one]), ends_one_ne hq.symm]
    rfl
  | case4 _ =>
    rw [hstop (by simp [literalChar, ends, one]), ends_one_ne hq.symm]
    rfl
  | case5 c cs hn =>
    rename_i ih
    have hstep : (literalChar q).ends ⟨d, '\\' :: c :: cs⟩ = [⟨c :: '\\' :: d, cs⟩] := by
      simp [literalChar, ends, one, hn]
    rw [hgo hstep (by simp only [List.length_cons]; omega) (ends_one_ne hq.symm _ _), ih]
    simp [Option.toList_map]
  | case6 c cs hc hb hn =>
    have hl : (q.spansLines || c != '\n') = false := by
      rw [Bool.and_eq_true] at hn
      simpa [and_comm] using hn
    rw [hstop (by simp [literalChar, ends, one, hb, hl]), ends_one_ne hc]
    rfl
  | case7 c cs hc hb hn =>
    rename_i ih
    have hl : (q.spansLines || c != '\n') = true := by
      cases hs : q.spansLines <;> simp_all
    have hstep : (literalChar q).ends ⟨d, c :: cs⟩ = [⟨c :: d, cs⟩] := by
      simp [literalChar, ends, one, hc, hb, hl]
    rw [hgo hstep (by simp) (ends_one_ne hc _ _), ih]
    simp [Option.toList_map]

theorem ends_literal (q : Quote) (cs d : List Char) :
    (literal q).ends ⟨d, q.char :: cs⟩ =
      (closeLiteral q cs).toList.map fun found => ⟨(q.char :: found.1).reverse ++ d, found.2⟩ := by
  rw [literal, ends_seq, ends_one, List.flatMap_singleton, ends_closeLiteral]
  simp

theorem ends_literal_ne {q : Quote} {c : Char} (hc : c ≠ q.char) (cs d : List Char) :
    (literal q).ends ⟨d, c :: cs⟩ = [] := by
  rw [literal, ends_seq, ends_one_ne hc, List.flatMap_nil]

/-- At a quote only its own kind of literal can match. -/
theorem match_string (q : Quote) (cs d : List Char) :
    string.match? ⟨d, q.char :: cs⟩ =
      (closeLiteral q cs).map fun found => ⟨(q.char :: found.1).reverse ++ d, found.2⟩ := by
  have hone : ∀ q', q' ≠ q → (literal q').ends ⟨d, q.char :: cs⟩ = [] := fun q' h =>
    ends_literal_ne (by cases q <;> cases q' <;> first | exact absurd rfl h | decide) cs d
  have hends : string.pattern.ends ⟨d, q.char :: cs⟩ = (literal q).ends ⟨d, q.char :: cs⟩ := by
    rw [pattern, ends_alt, ends_alt]
    cases q with
    | single => rw [hone .double (by decide), hone .backtick (by decide), List.append_nil, List.append_nil]
    | double => rw [hone .single (by decide), hone .backtick (by decide), List.append_nil, List.nil_append]
    | backtick => rw [hone .single (by decide), hone .double (by decide), List.nil_append, List.nil_append]
  rw [match?, hends, ends_literal]
  cases closeLiteral q cs <;> rfl

theorem match_string_none {cs : List Char} (h : cs.head?.any isQuote = false) (d : List Char) :
    string.match? ⟨d, cs⟩ = none := by
  cases cs with
  | nil => rfl
  | cons c cs =>
    have hc : ∀ q : Quote, c ≠ q.char := by
      rintro q rfl
      simp [isQuote_char] at h
    rw [match?, pattern, ends_alt, ends_alt, ends_literal_ne (hc _), ends_literal_ne (hc _), ends_literal_ne (hc _)]
    rfl

theorem match_unterminated {q : Quote} {a b : List Char} (ha : Unstopped endsUnterminated a b)
    (hb : b = [] ∨ endsUnterminated b = true) (d : List Char) :
    unterminatedString.match? ⟨d, q.char :: (a ++ b)⟩ = some ⟨(q.char :: a).reverse ++ d, b⟩ := by
  have hone : (char isQuote).ends ⟨d, q.char :: (a ++ b)⟩ = [⟨q.char :: d, a ++ b⟩] := by
    simp [ends, isQuote_char]
  rw [match?, pattern, ends_seq, hone, List.flatMap_singleton, head_star steps_unterminated, cut_eq ha hb]
  simp [Place.after]

theorem match_unterminated_none {cs : List Char} (h : cs.head?.any isQuote = false) (d : List Char) :
    unterminatedString.match? ⟨d, cs⟩ = none := by
  have hone : (char isQuote).ends ⟨d, cs⟩ = [] := by
    cases cs with
    | nil => rfl
    | cons c cs => simpa [ends] using h
  rw [match?, pattern, ends_seq, hone]
  rfl

end Terminal

end EdgeTemplate
