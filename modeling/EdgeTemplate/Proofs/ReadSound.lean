import EdgeTemplate.Proofs.TagLineSound

/-!
# What is read at a place

The rules by which arguments and items are read, one for each form, with everything that the scanner
has looked at. `ArgumentToken.next?` and `Item.next` follow exactly these rules, so later proofs go
by cases on a rule. `Boundary` relates what the items before a place leave behind to what may start
there, and holds between any two items of a document.
-/

namespace EdgeTemplate

theorem ofChar?_eq_some {c : Char} {q : Quote} : Quote.ofChar? c = some q ↔ c = q.char := by
  unfold Quote.ofChar?
  constructor
  · intro h
    repeat' split at h
    all_goals cases h
    all_goals assumption
  · rintro rfl
    cases q <;> decide

theorem isQuote_char (q : Quote) : isQuote q.char = true := by
  cases q <;> decide

theorem ofChar?_eq_none {c : Char} : Quote.ofChar? c = none ↔ isQuote c = false := by
  simp [isQuote]

namespace ArgumentToken

/-- A literal is tried before the unterminated form, and text stops at whatever starts another token. -/
inductive Read : List Char → ArgumentToken → List Char → Prop
  | opening (cs : List Char) : Read ('(' :: cs) .opening cs
  | closing (cs : List Char) : Read (')' :: cs) .closing cs
  | literal {q : Quote} {cs body rest : List Char} : closeLiteral q cs = some (body, rest) →
      Read (q.char :: cs) (.literal (q.char :: body)) rest
  | unterminated {q : Quote} {a b : List Char} : closeLiteral q (a ++ b) = none →
      Unstopped endsUnterminated a b → b = [] ∨ endsUnterminated b = true →
      Read (q.char :: (a ++ b)) (.unterminated (q.char :: a)) b
  | text {a b : List Char} : a ≠ [] → Unstopped endsText a b → b = [] ∨ endsText b = true →
      Read (a ++ b) (.text a) b

theorem endsText_cons {c : Char} {cs : List Char} :
    endsText (c :: cs) = false ↔ startsTagBreak (c :: cs) = false ∧ c ≠ '(' ∧ c ≠ ')' ∧ isQuote c = false := by
  simp [endsText, and_assoc]

theorem read_of_next? {cs rest : List Char} {token : ArgumentToken} (h : next? cs = some (token, rest)) :
    Read cs token rest := by
  cases cs with
  | nil => cases h
  | cons c cs =>
    by_cases ho : c = '('
    · subst ho
      simp only [next?, ite_true, Option.some.injEq, Prod.mk.injEq] at h
      obtain ⟨rfl, rfl⟩ := h
      exact .opening cs
    by_cases hc : c = ')'
    · subst hc
      simp only [next?, ho, ite_false, ite_true, Option.some.injEq, Prod.mk.injEq] at h
      obtain ⟨rfl, rfl⟩ := h
      exact .closing cs
    simp only [next?, ho, hc, ite_false] at h
    cases hq : Quote.ofChar? c with
    | some q =>
      obtain rfl := ofChar?_eq_some.1 hq
      simp only [hq] at h
      cases hl : closeLiteral q cs with
      | some found =>
        obtain ⟨body, rest'⟩ := found
        simp only [hl, Option.some.injEq, Prod.mk.injEq] at h
        obtain ⟨rfl, rfl⟩ := h
        exact .literal hl
      | none =>
        simp only [hl, Option.some.injEq, Prod.mk.injEq] at h
        obtain ⟨rfl, rfl⟩ := h
        have happ := cut_append endsUnterminated cs
        have := @Read.unterminated q (cut endsUnterminated cs).1 (cut endsUnterminated cs).2
          (by rw [happ]; exact hl) (cut_unstopped _ _) (cut_snd _ _)
        rwa [happ] at this
    | none =>
      simp only [hq] at h
      split at h
      · cases h
      · next hb =>
        simp only [Option.some.injEq, Prod.mk.injEq] at h
        obtain ⟨rfl, rfl⟩ := h
        have happ := cut_append endsText cs
        have hgo : endsText (c :: cs) = false :=
          endsText_cons.2 ⟨Bool.eq_false_iff.2 hb, ho, hc, ofChar?_eq_none.1 hq⟩
        have hun : Unstopped endsText (c :: (cut endsText cs).1) (cut endsText cs).2 :=
          ⟨by rw [happ]; exact hgo, cut_unstopped _ _⟩
        have := Read.text (List.cons_ne_nil c _) hun (cut_snd _ _)
        rwa [List.cons_append, happ] at this

theorem next?_of_read {cs rest : List Char} {token : ArgumentToken} (h : Read cs token rest) :
    next? cs = some (token, rest) := by
  cases h with
  | opening => simp [next?]
  | closing => simp [next?]
  | @literal q cs body rest hl =>
    have hq : Quote.ofChar? q.char = some q := ofChar?_eq_some.2 rfl
    have ho : q.char ≠ '(' := by cases q <;> decide
    have hc : q.char ≠ ')' := by cases q <;> decide
    simp [next?, ho, hc, hq, hl]
  | @unterminated q a b hl hun hend =>
    have hq : Quote.ofChar? q.char = some q := ofChar?_eq_some.2 rfl
    have ho : q.char ≠ '(' := by cases q <;> decide
    have hc : q.char ≠ ')' := by cases q <;> decide
    simp [next?, ho, hc, hq, hl, cut_eq hun hend]
  | @text a b hne hun hend =>
    cases a with
    | nil => exact absurd rfl hne
    | cons c a =>
      obtain ⟨hb, ho, hc, hq⟩ := endsText_cons.1 hun.1
      simp [next?, ho, hc, ofChar?_eq_none.2 hq, hb, cut_eq hun.2 hend]

theorem next?_eq_some_iff {cs rest : List Char} {token : ArgumentToken} :
    next? cs = some (token, rest) ↔ Read cs token rest :=
  ⟨read_of_next?, next?_of_read⟩

theorem next?_eq_none_iff {cs : List Char} : next? cs = none ↔ cs = [] ∨ startsTagBreak cs = true := by
  cases cs with
  | nil => simp [next?]
  | cons c cs =>
    constructor
    · intro h
      by_cases hb : startsTagBreak (c :: cs) = true
      · exact .inr hb
      · simp only [next?, hb, Bool.false_eq_true, ite_false] at h
        repeat' split at h
        all_goals exact absurd h (by simp)
    · rintro (h | h)
      · cases h
      · obtain ⟨r, hr, -⟩ := startsTagBreak_head h
        obtain ⟨rfl, rfl⟩ := List.cons.inj hr
        have hq : Quote.ofChar? '\n' = none := by decide
        simp [next?, hq, h]

end ArgumentToken

/-! ## Items -/

namespace Item

/-- The forms of an item. Text runs to a mustache or to the end, or up to and with the line end before
a tag line. -/
inductive Read (lineStart : Bool) : List Char → Item → List Char → Prop
  | comment (e : Enclosed) : e.Ends commentClosing (fun _ => false) →
      Read lineStart (commentOpening ++ (e.lexeme commentClosing ++ e.rest))
        (.comment (commentOpening ++ e.lexeme commentClosing) e.closed) e.rest
  | escaped (e : Enclosed) : e.Ends Mustache.plain.closing (fun _ => false) →
      (e.closed = true → e.rest.head? ≠ some '}') →
      Read lineStart (escapedOpening ++ (e.lexeme Mustache.plain.closing ++ e.rest))
        (.escaped (escapedOpening ++ e.lexeme Mustache.plain.closing) e.closed) e.rest
  | escapedSafe (body rest : List Char) :
      Enclosed.Ends Mustache.plain.closing (fun _ => false) ⟨body, true, '}' :: rest⟩ →
      Read lineStart (escapedOpening ++ (body ++ Mustache.safe.closing ++ rest))
        (.escaped (escapedOpening ++ (body ++ Mustache.safe.closing)) true) rest
  | interpolation (style : Mustache) (e : Enclosed) : e.Ends style.closing startsTagBreak →
      (style = .plain →
        commentOpening.isPrefixOf (style.opening ++ (e.lexeme style.closing ++ e.rest)) = false ∧
        Mustache.safe.opening.isPrefixOf (style.opening ++ (e.lexeme style.closing ++ e.rest)) = false) →
      Read lineStart (style.opening ++ (e.lexeme style.closing ++ e.rest))
        (.interpolation style e.body e.closed) e.rest
  | directive {indent tag rest : List Char} : lineStart = true → TagSplit indent tag rest →
      rest.head? ≠ some '(' → Read lineStart (indent ++ (tag ++ rest)) (.directive indent tag none) rest
  | arguments {indent tag inner : List Char} : lineStart = true → TagSplit indent tag ('(' :: inner) →
      Read lineStart (indent ++ (tag ++ '(' :: inner))
        (.directive indent tag (some (ArgumentToken.scan 0 inner).1)) (ArgumentToken.scan 0 inner).2
  | text {a b : List Char} : a ≠ [] → Unstopped endsText a b →
      b = [] ∨ Mustache.plain.opening.isPrefixOf b = true ∨ escapedOpening.isPrefixOf b = true →
      (lineStart && startsTagLine (a ++ b)) = false → Read lineStart (a ++ b) (.text a) b
  | line {a b : List Char} : Unstopped endsText a ('\n' :: b) → startsTagLine b = true →
      (lineStart && startsTagLine (a ++ '\n' :: b)) = false →
      Read lineStart (a ++ '\n' :: b) (.text (a ++ ['\n'])) b

theorem read_comment {lineStart : Bool} {cs : List Char} (h : commentOpening.isPrefixOf cs = true) :
    Read lineStart cs (nextComment cs).1 (nextComment cs).2 := by
  obtain ⟨r, rfl⟩ := List.isPrefixOf_iff_prefix.1 h
  unfold nextComment
  rw [List.drop_left]
  have := @Read.comment lineStart (enclose commentClosing (fun _ => false) r) (enclose_ends _ _ _)
  rwa [enclose_append] at this

theorem read_escaped {lineStart : Bool} {cs : List Char} (h : escapedOpening.isPrefixOf cs = true) :
    Read lineStart cs (nextEscaped cs).1 (nextEscaped cs).2 := by
  obtain ⟨r, rfl⟩ := List.isPrefixOf_iff_prefix.1 h
  have happ := enclose_append Mustache.plain.closing (fun _ => false) r
  have hends := enclose_ends Mustache.plain.closing (fun _ => false) r
  unfold nextEscaped
  simp only [List.drop_left]
  generalize enclose Mustache.plain.closing (fun _ => false) r = e at happ hends
  obtain ⟨body, closed, rest⟩ := e
  split
  · next hc hr =>
    simp only at hc hr
    subst hc hr
    have := @Read.escapedSafe lineStart body _ hends
    simp only [Enclosed.lexeme, ite_true] at happ ⊢
    rw [← happ]
    simpa [Mustache.closing] using this
  · next hne =>
    have := @Read.escaped lineStart ⟨body, closed, rest⟩ hends (fun hc hh => ?_)
    · rwa [happ] at this
    · obtain ⟨t, ht⟩ := List.head?_eq_some_iff.1 hh
      exact hne t hc ht

theorem read_interpolation {lineStart : Bool} {style : Mustache} {cs : List Char}
    (h : style.opening.isPrefixOf cs = true)
    (hp : style = .plain → commentOpening.isPrefixOf cs = false ∧ Mustache.safe.opening.isPrefixOf cs = false) :
    Read lineStart cs (nextInterpolation style cs).1 (nextInterpolation style cs).2 := by
  obtain ⟨r, rfl⟩ := List.isPrefixOf_iff_prefix.1 h
  have happ := enclose_append style.closing startsTagBreak r
  unfold nextInterpolation
  rw [List.drop_left]
  have := @Read.interpolation lineStart style (enclose style.closing startsTagBreak r)
    (enclose_ends _ _ _) (by rw [happ]; exact hp)
  rwa [happ] at this

theorem read_directive {cs : List Char} (h : startsTagLine cs = true) :
    Read true cs (nextDirective cs).1 (nextDirective cs).2 := by
  have happ := splitTag_append cs
  have hsplit := splitTag_split h
  unfold nextDirective
  generalize splitTag cs = s at happ hsplit
  obtain ⟨indent, tag, rest⟩ := s
  dsimp only at happ hsplit ⊢
  subst happ
  split
  · exact .arguments rfl hsplit
  · next hne =>
    refine .directive rfl hsplit fun hh => ?_
    obtain ⟨t, ht⟩ := List.head?_eq_some_iff.1 hh
    exact hne t ht

theorem read_text {lineStart : Bool} {cs : List Char} (hne : cs ≠ [])
    (hm : Mustache.plain.opening.isPrefixOf cs = false) (he : escapedOpening.isPrefixOf cs = false)
    (ht : (lineStart && startsTagLine cs) = false) : Read lineStart cs (nextText cs).1 (nextText cs).2 := by
  have happ := cut_append endsText cs
  have hun := cut_unstopped endsText cs
  have hend := cut_snd endsText cs
  unfold nextText
  generalize cut endsText cs = halves at happ hun hend
  obtain ⟨a, b⟩ := halves
  dsimp only at happ hun hend ⊢
  subst happ
  split
  · next b =>
    -- no mustache starts with a line end, so the cut stopped before a tag line
    have hb : startsTagLine b = true := by
      rcases hend with hend | hend
      · cases hend
      · simpa [endsText, Mustache.opening, escapedOpening, startsTagBreak, List.isPrefixOf] using hend
    exact .line hun hb ht
  · next hnl =>
    have hb : b = [] ∨ Mustache.plain.opening.isPrefixOf b = true ∨ escapedOpening.isPrefixOf b = true := by
      rcases hend with hend | hend
      · exact .inl hend
      · simp only [endsText, Bool.or_eq_true] at hend
        rcases hend with (hend | hend) | hend
        · exact .inr (.inl hend)
        · exact .inr (.inr hend)
        · obtain ⟨r, rfl, -⟩ := startsTagBreak_head hend
          exact absurd rfl (hnl r)
    refine .text ?_ hun hb ht
    rintro rfl
    rw [List.nil_append] at hm he hne
    simp [hne, hm, he] at hb

theorem next_read (lineStart : Bool) {cs : List Char} (hne : cs ≠ []) :
    Read lineStart cs (next lineStart cs).1 (next lineStart cs).2 := by
  unfold next
  split
  · next h => exact read_comment h
  split
  · next h => exact read_escaped h
  split
  · next h => exact read_interpolation h (fun hp => by cases hp)
  split
  · next hc _ hs h => exact read_interpolation h fun _ => ⟨Bool.eq_false_iff.2 hc, Bool.eq_false_iff.2 hs⟩
  split
  · next h =>
    rw [Bool.and_eq_true] at h
    rw [h.1]
    exact read_directive h.2
  · next he _ hm ht =>
    exact read_text hne (Bool.eq_false_iff.2 hm) (Bool.eq_false_iff.2 he) (Bool.eq_false_iff.2 ht)

theorem isPrefixOf_cons_of_ne {mark : List Char} {c d : Char} (hm : mark.head? = some d) (hc : c ≠ d)
    (cs : List Char) : mark.isPrefixOf (c :: cs) = false := by
  obtain ⟨m, rfl⟩ := List.head?_eq_some_iff.1 hm
  simp [List.isPrefixOf, Ne.symm hc]

/-- Comments and safe interpolations begin like plain ones. -/
theorem plain_opening_of_isPrefixOf {cs : List Char}
    (h : commentOpening.isPrefixOf cs = true ∨ Mustache.safe.opening.isPrefixOf cs = true) :
    Mustache.plain.opening.isPrefixOf cs = true := by
  rw [List.isPrefixOf_iff_prefix, List.isPrefixOf_iff_prefix] at h
  rw [List.isPrefixOf_iff_prefix]
  rcases h with h | h
  · exact .trans ⟨['-', '-'], rfl⟩ h
  · exact .trans ⟨['{'], rfl⟩ h

theorem no_opening_of_plain {cs : List Char} (hm : Mustache.plain.opening.isPrefixOf cs = false) :
    commentOpening.isPrefixOf cs = false ∧ Mustache.safe.opening.isPrefixOf cs = false := by
  constructor
  · by_cases h : commentOpening.isPrefixOf cs = true
    · rw [plain_opening_of_isPrefixOf (.inl h)] at hm; cases hm
    · exact Bool.eq_false_iff.2 h
  · by_cases h : Mustache.safe.opening.isPrefixOf cs = true
    · rw [plain_opening_of_isPrefixOf (.inr h)] at hm; cases hm
    · exact Bool.eq_false_iff.2 h

theorem next_of_no_opening (lineStart : Bool) {cs : List Char} (hm : Mustache.plain.opening.isPrefixOf cs = false)
    (he : escapedOpening.isPrefixOf cs = false) :
    next lineStart cs = if lineStart && startsTagLine cs then nextDirective cs else nextText cs := by
  obtain ⟨hc, hs⟩ := no_opening_of_plain hm
  simp [next, hc, he, hs, hm]

theorem no_opening_of_tagLine {cs : List Char} (h : startsTagLine cs = true) :
    Mustache.plain.opening.isPrefixOf cs = false ∧ escapedOpening.isPrefixOf cs = false := by
  constructor
  · by_cases hm : Mustache.plain.opening.isPrefixOf cs = true
    · obtain ⟨r, rfl⟩ := List.isPrefixOf_iff_prefix.1 hm
      rw [Mustache.opening, List.cons_append, startsTagLine_cons (by decide) (by decide)] at h
      cases h
    · exact Bool.eq_false_iff.2 hm
  · by_cases he : escapedOpening.isPrefixOf cs = true
    · obtain ⟨r, rfl⟩ := List.isPrefixOf_iff_prefix.1 he
      have hn : isNameStart '{' = false := by decide
      simp [startsTagLine, escapedOpening, isIndent, startsTag, hn] at h
    · exact Bool.eq_false_iff.2 he

theorem no_opening_of_endsText {cs : List Char} (h : endsText cs = false) :
    Mustache.plain.opening.isPrefixOf cs = false ∧ escapedOpening.isPrefixOf cs = false := by
  simp only [endsText, Bool.or_eq_false_iff] at h
  exact h.1

theorem no_opening_of_line {a b : List Char} (h : Unstopped endsText a ('\n' :: b)) :
    Mustache.plain.opening.isPrefixOf (a ++ '\n' :: b) = false ∧
      escapedOpening.isPrefixOf (a ++ '\n' :: b) = false := by
  by_cases ha : a = []
  · subst ha
    exact ⟨rfl, rfl⟩
  · exact no_opening_of_endsText (unstopped_at (x := []) h ha)

theorem next_of_read {lineStart : Bool} {cs rest : List Char} {item : Item} (h : Read lineStart cs item rest) :
    next lineStart cs = (item, rest) := by
  cases h with
  | comment e he =>
    have hp : commentOpening.isPrefixOf (commentOpening ++ (e.lexeme commentClosing ++ e.rest)) = true := by
      rw [List.isPrefixOf_iff_prefix]; exact List.prefix_append _ _
    unfold next
    rw [if_pos hp, nextComment, List.drop_left, enclose_eq he]
  | escaped e he hr =>
    have hc : commentOpening.isPrefixOf (escapedOpening ++ (e.lexeme Mustache.plain.closing ++ e.rest)) = false :=
      isPrefixOf_cons_of_ne (d := '{') rfl (by decide) _
    have hp : escapedOpening.isPrefixOf (escapedOpening ++ (e.lexeme Mustache.plain.closing ++ e.rest)) = true := by
      rw [List.isPrefixOf_iff_prefix]; exact List.prefix_append _ _
    unfold next
    rw [if_neg (Bool.eq_false_iff.1 hc), if_pos hp]
    unfold nextEscaped
    rw [List.drop_left, enclose_eq he]
    dsimp only
    split
    · next hcl hrest => rw [hrest] at hr; exact absurd rfl (hr hcl)
    · rfl
  | escapedSafe body rest he =>
    have hc : commentOpening.isPrefixOf (escapedOpening ++ (body ++ Mustache.safe.closing ++ rest)) = false :=
      isPrefixOf_cons_of_ne (d := '{') rfl (by decide) _
    have hp : escapedOpening.isPrefixOf (escapedOpening ++ (body ++ Mustache.safe.closing ++ rest)) = true := by
      rw [List.isPrefixOf_iff_prefix]; exact List.prefix_append _ _
    have hb : body ++ Mustache.safe.closing ++ rest =
        Enclosed.lexeme Mustache.plain.closing ⟨body, true, '}' :: rest⟩ ++ '}' :: rest := by
      simp [Enclosed.lexeme, Mustache.closing]
    unfold next
    rw [if_neg (Bool.eq_false_iff.1 hc), if_pos hp]
    unfold nextEscaped
    rw [List.drop_left, hb, enclose_eq he]
    simp [Enclosed.lexeme, Mustache.closing]
  | interpolation style e he hp =>
    have hx : escapedOpening.isPrefixOf (style.opening ++ (e.lexeme style.closing ++ e.rest)) = false := by
      cases style <;> rfl
    have hpre : style.opening.isPrefixOf (style.opening ++ (e.lexeme style.closing ++ e.rest)) = true := by
      rw [List.isPrefixOf_iff_prefix]; exact List.prefix_append _ _
    unfold next
    cases style with
    | safe =>
      rw [if_neg (by simp [commentOpening, Mustache.opening, List.isPrefixOf]), if_neg (Bool.eq_false_iff.1 hx),
        if_pos hpre, nextInterpolation, List.drop_left, enclose_eq he]
    | plain =>
      obtain ⟨hc, hs⟩ := hp rfl
      rw [if_neg (Bool.eq_false_iff.1 hc), if_neg (Bool.eq_false_iff.1 hx), if_neg (Bool.eq_false_iff.1 hs),
        if_pos hpre, nextInterpolation, List.drop_left, enclose_eq he]
  | @directive indent tag rest hl hsplit hr =>
    have ht := startsTagLine_of_split hsplit
    obtain ⟨hm, he⟩ := no_opening_of_tagLine ht
    rw [next_of_no_opening _ hm he, hl, ht, Bool.true_and, if_pos rfl, nextDirective, splitTag_eq hsplit]
    dsimp only
    split
    · exact absurd rfl hr
    · rfl
  | @arguments indent tag inner hl hsplit =>
    have ht := startsTagLine_of_split hsplit
    obtain ⟨hm, he⟩ := no_opening_of_tagLine ht
    rw [next_of_no_opening _ hm he, hl, ht, Bool.true_and, if_pos rfl, nextDirective, splitTag_eq hsplit]
    rfl
  | @text a _ hne hun hb ht =>
    have hgo : endsText (a ++ rest) = false := unstopped_at (x := []) hun hne
    obtain ⟨hm, he⟩ := no_opening_of_endsText hgo
    have hend : rest = [] ∨ endsText rest = true := hb.imp_right fun h => by
      simpa [endsText, or_assoc] using Or.inl h
    rw [next_of_no_opening _ hm he, ht, if_neg (by simp), nextText, cut_eq hun hend]
    dsimp only
    split
    · simp [Mustache.opening, escapedOpening, List.isPrefixOf] at hb
    · rfl
  | @line a _ hun hb ht =>
    have hstop : endsText ('\n' :: rest) = true := by simp [endsText, startsTagBreak, hb]
    have hno := no_opening_of_line hun
    rw [next_of_no_opening _ hno.1 hno.2, ht, if_neg (by simp), nextText, cut_eq hun (.inr hstop)]
    rfl

theorem next_eq_iff {lineStart : Bool} {cs rest : List Char} {item : Item} (hne : cs ≠ []) :
    next lineStart cs = (item, rest) ↔ Read lineStart cs item rest := by
  constructor
  · intro h
    have := next_read lineStart hne
    rwa [h] at this
  · exact next_of_read

theorem Read.append {lineStart : Bool} {cs rest : List Char} {item : Item} (h : Read lineStart cs item rest) :
    item.lexeme ++ rest = cs := by
  have := next_append lineStart cs
  rwa [next_of_read h] at this

theorem Read.ne_nil {lineStart : Bool} {cs rest : List Char} {item : Item} (h : Read lineStart cs item rest) :
    cs ≠ [] := by
  cases h with
  | comment => simp [commentOpening]
  | escaped => simp [escapedOpening]
  | escapedSafe => simp [escapedOpening]
  | interpolation style => cases style <;> simp [Mustache.opening]
  | directive _ hsplit _ =>
    obtain ⟨t, rfl⟩ := hsplit.tag.head
    simp
  | arguments _ hsplit =>
    obtain ⟨t, rfl⟩ := hsplit.tag.head
    simp
  | text hne => simp [hne]
  | line => simp

end Item

/-! ## Between two items -/

/-- `lineStart` is right about the text `pre` before a place, and a tag line that starts there, or in
whose indentation the place lies, is known to start there. -/
structure Boundary (lineStart : Bool) (pre cs : List Char) : Prop where
  start : lineStart = true → atLineStart pre = true
  tag : startsTagLine cs = true → endsInIndent pre = true → lineStart = true

theorem boundary_start (cs : List Char) : Boundary true [] cs := ⟨fun _ => rfl, fun _ _ => rfl⟩

theorem Boundary.no_tagLine {lineStart : Bool} {pre cs : List Char} (hb : Boundary lineStart pre cs)
    (h : (lineStart && startsTagLine cs) = false) (hi : endsInIndent pre = true) : startsTagLine cs = false := by
  refine Bool.eq_false_iff.2 fun ht => ?_
  rw [hb.tag ht hi, ht] at h
  cases h

theorem boundary_of_last {pre cs : List Char} {c : Char} (hl : pre.getLast? = some c) (hc : isIndent c = false)
    (hn : c ≠ '\n') : Boundary false pre cs := by
  obtain ⟨p, rfl⟩ := List.getLast?_eq_some_iff.1 hl
  refine ⟨fun h => absurd h (by simp), fun _ hi => ?_⟩
  rw [endsInIndent_concat] at hi
  simp [hc, hn] at hi

theorem boundary_of_rest {pre cs : List Char} (h : startsTagLine cs = false) : Boundary false pre cs :=
  ⟨fun h' => absurd h' (by simp), fun h' => absurd h' (by simp [h])⟩

theorem boundary_of_stop {pre cs : List Char} (h : cs = [] ∨ startsTagBreak cs = true) :
    Boundary false pre cs := by
  refine boundary_of_rest ?_
  rcases h with rfl | h
  · exact startsTagLine_nil
  · exact startsTagLine_of_break h

theorem not_indent_of_nameChar {c : Char} (h : isNameChar c = true) : isIndent c = false ∧ c ≠ '\n' := by
  constructor
  · by_cases hi : isIndent c = true
    · simp only [isIndent, Bool.or_eq_true, beq_iff_eq] at hi
      rcases hi with rfl | rfl <;> exact absurd h (by decide)
    · exact Bool.eq_false_iff.2 hi
  · rintro rfl
    exact absurd h (by decide)

theorem closeLiteral_last {q : Quote} {cs lexeme rest : List Char}
    (h : closeLiteral q cs = some (lexeme, rest)) : ∃ body, lexeme = body ++ [q.char] := by
  fun_induction closeLiteral q cs generalizing lexeme rest with
  | case1 => cases h
  | case2 =>
    simp only [Option.some.injEq, Prod.mk.injEq] at h
    exact ⟨[], h.1.symm⟩
  | case3 => cases h
  | case4 => cases h
  | case5 d _ _ _ ih =>
    obtain ⟨found, hf, he⟩ := Option.map_eq_some_iff.1 h
    obtain ⟨body, hb⟩ := ih hf
    cases he
    exact ⟨'\\' :: d :: body, by rw [hb]; rfl⟩
  | case6 => cases h
  | case7 c _ _ _ _ ih =>
    obtain ⟨found, hf, he⟩ := Option.map_eq_some_iff.1 h
    obtain ⟨body, hb⟩ := ih hf
    cases he
    exact ⟨c :: body, by rw [hb]; rfl⟩

theorem char_not_indent (q : Quote) : isIndent q.char = false ∧ q.char ≠ '\n' := by
  cases q <;> decide

theorem unterminated_run {a b : List Char} (h : Unstopped endsUnterminated a b) {c : Char} (hc : c ∈ a) :
    (!(isQuote c || c == '\n' || c == ')')) = true := by
  obtain ⟨x, y, rfl⟩ := List.append_of_mem hc
  have hgo := unstopped_at h (List.cons_ne_nil c y)
  rw [show (isQuote c || c == '\n' || c == ')') = false from hgo]
  rfl

theorem newline_not_mem_of_unstopped {a b : List Char} (h : Unstopped endsUnterminated a b) : '\n' ∉ a :=
  fun hn => absurd (unterminated_run h hn) (by decide)

/-- Nothing that a token leaves behind is the indentation of a tag line. -/
theorem ArgumentToken.Read.boundary {cs rest : List Char} {token : ArgumentToken} (h : Read cs token rest)
    (pre : List Char) : Boundary false (pre ++ token.lexeme) rest := by
  cases h with
  | opening => exact boundary_of_last List.getLast?_concat (by decide) (by decide)
  | closing => exact boundary_of_last List.getLast?_concat (by decide) (by decide)
  | @literal q _ _ _ hl =>
    obtain ⟨body, rfl⟩ := closeLiteral_last hl
    refine boundary_of_last ?_ (char_not_indent q).1 (char_not_indent q).2
    simp only [lexeme]
    rw [← List.cons_append, ← List.append_assoc, List.getLast?_concat]
  | @unterminated q a _ _ hun _ =>
    have hn : '\n' ∉ q.char :: a := by
      rw [List.mem_cons, not_or]
      exact ⟨(char_not_indent q).2.symm, newline_not_mem_of_unstopped hun⟩
    refine ⟨fun h' => absurd h' (by simp), fun _ hi => ?_⟩
    simp only [lexeme] at hi
    rw [endsInIndent_append hn] at hi
    simp [(char_not_indent q).1] at hi
  | text _ _ hend =>
    rcases hend with rfl | hend
    · exact boundary_of_stop (.inl rfl)
    · cases rest with
      | nil => exact boundary_of_stop (.inl rfl)
      | cons c rest =>
        by_cases hb : startsTagBreak (c :: rest) = true
        · exact boundary_of_stop (.inr hb)
        · refine boundary_of_rest (startsTagLine_cons ?_ ?_ rest)
          · simp only [endsText, hb, Bool.false_or, List.head?_cons, Option.any_some, Bool.or_eq_true,
              beq_iff_eq] at hend
            rcases hend with (rfl | rfl) | hq
            · decide
            · decide
            · obtain ⟨q, hq⟩ := Option.isSome_iff_exists.1 hq
              obtain rfl := ofChar?_eq_some.1 hq
              exact (char_not_indent q).1
          · rintro rfl
            exact absurd hend (by simp [endsText, startsTagBreak]; decide)

theorem ArgumentToken.scan_boundary (depth : Nat) {pre cs : List Char} (h : Boundary false pre cs) :
    Boundary false (pre ++ (scan depth cs).1.flatMap lexeme) (scan depth cs).2 := by
  fun_induction scan depth cs generalizing pre with
  | case1 => simpa using h
  | case2 _ _ _ _ hn => simpa using (read_of_next? hn).boundary pre
  | case3 depth _ token rest hn =>
    rename_i ih
    have := ih ((read_of_next? hn).boundary pre)
    rwa [List.flatMap_cons, ← List.append_assoc]

theorem Item.Read.boundary {lineStart : Bool} {cs rest : List Char} {item : Item} (h : Read lineStart cs item rest)
    (pre : List Char) : Boundary item.endsLine (pre ++ item.lexeme) rest := by
  cases h with
  | comment e he =>
    cases hc : e.closed with
    | true =>
      refine boundary_of_last (c := '}') ?_ (by decide) (by decide)
      simp [lexeme, Enclosed.lexeme, hc, List.getLast?_append, commentClosing]
    | false => exact boundary_of_stop (.inl (by simpa using (he.2 hc).2))
  | escaped e he _ =>
    cases hc : e.closed with
    | true =>
      refine boundary_of_last (c := '}') ?_ (by decide) (by decide)
      simp [lexeme, Enclosed.lexeme, hc, List.getLast?_append, Mustache.closing]
    | false => exact boundary_of_stop (.inl (by simpa using (he.2 hc).2))
  | escapedSafe body rest he =>
    refine boundary_of_last (c := '}') ?_ (by decide) (by decide)
    simp [lexeme, List.getLast?_append, Mustache.closing]
  | interpolation style e he hp =>
    cases hc : e.closed with
    | true =>
      refine boundary_of_last (c := '}') ?_ (by decide) (by decide)
      cases style <;> simp [lexeme, List.getLast?_append, Mustache.closing]
    | false => exact boundary_of_stop (he.2 hc).2
  | @directive indent tag _ hl hsplit hr =>
    obtain ⟨t, c, rfl, hc⟩ := hsplit.tag.last
    refine boundary_of_last (c := c) ?_ (not_indent_of_nameChar hc).1 (not_indent_of_nameChar hc).2
    simp [lexeme, List.getLast?_append]
  | @arguments indent tag inner hl hsplit =>
    have hopen : Boundary false (pre ++ indent ++ tag ++ ['(']) inner :=
      boundary_of_last List.getLast?_concat (by decide) (by decide)
    have := ArgumentToken.scan_boundary 0 hopen
    simpa [lexeme, endsLine] using this
  | @text a _ hne hun hb ht =>
    have hrest : startsTagLine rest = false := by
      rcases hb with rfl | hb
      · exact startsTagLine_nil
      · by_cases h : startsTagLine rest = true
        · obtain ⟨hm, he⟩ := no_opening_of_tagLine h
          simp [hm, he] at hb
        · exact Bool.eq_false_iff.2 h
    refine ⟨fun h => ?_, fun h => absurd h (by simp [hrest])⟩
    simp only [endsLine, beq_iff_eq] at h
    simp [atLineStart, lexeme, List.getLast?_append, h]
  | @line a _ hun hb ht =>
    have hl : endsLine (.text (a ++ ['\n'])) = true := by simp [endsLine]
    rw [hl]
    exact ⟨fun _ => by simp [atLineStart, lexeme, List.getLast?_append], fun _ _ => rfl⟩

/-- Every item of a document was read by a rule, at a place that is a boundary. -/
theorem items_read {lineStart : Bool} {pre cs : List Char} (hb : Boundary lineStart pre cs) {before after : List Item}
    {item : Item} (h : items lineStart cs = before ++ item :: after) :
    ∃ ls suf rest, cs = before.flatMap Item.lexeme ++ suf ∧ Item.Read ls suf item rest ∧
      Boundary ls (pre ++ before.flatMap Item.lexeme) suf ∧ items item.endsLine rest = after := by
  fun_induction items lineStart cs generalizing pre before with
  | case1 => simp at h
  | case2 ls cs hne _ first =>
    rename_i ih
    have hread := Item.next_read ls hne
    have happ := hread.append
    cases before with
    | nil =>
      obtain ⟨rfl, hafter⟩ := List.cons.inj h
      exact ⟨ls, cs, first.2, by simp, hread, by simpa using hb, hafter⟩
    | cons item' before =>
      obtain ⟨rfl, htail⟩ := List.cons.inj h
      obtain ⟨ls', suf, rest, hcs, hr, hb', hafter⟩ := ih (hread.boundary pre) htail
      refine ⟨ls', suf, rest, ?_, hr, ?_, hafter⟩
      · rw [List.flatMap_cons, List.append_assoc, ← hcs]
        exact happ.symm
      · rwa [List.flatMap_cons, ← List.append_assoc]

end EdgeTemplate
