import EdgeTemplate.Proofs.LeafSound
import EdgeTemplate.Proofs.Terminal

/-!
# The lexer

What a text is made of, read token by token: in each state some terminals are allowed, the first of
them that matches is taken, and where none matches the text cannot be read. This never happens.
Whatever the text, the tokens are those of its items (`lex_items`).
-/

namespace EdgeTemplate

structure Token where
  terminal : Terminal
  lexeme : List Char
  deriving DecidableEq

inductive LexState where
  | document
  | afterTag
  | arguments (depth : Nat)
  | afterOpening (style : Mustache)
  | afterExpression (style : Mustache)

namespace Terminal

def priority : Terminal → Nat
  | string => 14
  | unterminatedString => 13
  | leftParen => 12
  | rightParen => 12
  | argumentText => 11
  | closing _ => 12
  | expression _ => 11
  | comment => 8
  | unclosedComment => 7
  | escaped => 6
  | unclosedEscaped => 5
  | opening .safe => 4
  | opening .plain => 3
  | tagName => 2
  | text => 1

def byPriority : List Terminal :=
  [string, unterminatedString, leftParen, rightParen, closing .plain, closing .safe, argumentText, expression .plain,
    expression .safe, comment, unclosedComment, escaped, unclosedEscaped, opening .safe, opening .plain, tagName, text]

theorem mem_byPriority (t : Terminal) : t ∈ byPriority := by
  cases t with
  | closing style => cases style <;> decide
  | expression style => cases style <;> decide
  | opening style => cases style <;> decide
  | _ => decide

theorem byPriority_descending : byPriority.Pairwise fun a b => b.priority ≤ a.priority := by decide

end Terminal

namespace LexState

/-- The state behind a terminal, where the terminal is allowed. -/
def next? : LexState → Terminal → Option LexState
  | _, .comment => some document
  | _, .unclosedComment => some document
  | _, .escaped => some document
  | _, .unclosedEscaped => some document
  | _, .text => some document
  | _, .opening style => some (afterOpening style)
  | _, .tagName => some afterTag
  | afterTag, .leftParen => some (arguments 0)
  | arguments depth, .string => some (arguments depth)
  | arguments depth, .unterminatedString => some (arguments depth)
  | arguments depth, .argumentText => some (arguments depth)
  | arguments depth, .leftParen => some (arguments (depth + 1))
  | arguments (depth + 1), .rightParen => some (arguments depth)
  | arguments 0, .rightParen => some document
  | afterOpening style, .expression style' => if style' = style then some (afterExpression style) else none
  | afterOpening style, .closing style' => if style' = style then some document else none
  | afterExpression style, .closing style' => if style' = style then some document else none
  | _, _ => none

def allowed (s : LexState) : List Terminal := Terminal.byPriority.filter fun t => (s.next? t).isSome

/-- The terminals that are allowed everywhere. Inside a construct they end it. -/
def outer : List Terminal :=
  [.comment, .unclosedComment, .escaped, .unclosedEscaped, .opening .safe, .opening .plain, .tagName, .text]

/-- The terminals that only this state allows. -/
def inner : LexState → List Terminal
  | document => []
  | afterTag => [.leftParen]
  | arguments _ => [.string, .unterminatedString, .leftParen, .rightParen, .argumentText]
  | afterOpening style => [.closing style, .expression style]
  | afterExpression style => [.closing style]

theorem allowed_eq (s : LexState) : s.allowed = s.inner ++ outer := by
  cases s with
  | document => rfl
  | afterTag => rfl
  | arguments depth => cases depth <;> rfl
  | afterOpening style => cases style <;> rfl
  | afterExpression style => cases style <;> rfl

def read? (s : LexState) (p : Place) : Option (Terminal × Place) :=
  s.allowed.findSome? fun t => (t.match? p).map fun q => (t, q)

/-- Of the allowed terminals that match, none comes before the one that is taken. -/
theorem read_priority {s : LexState} {p q : Place} {t u : Terminal} (h : s.read? p = some (t, q))
    (hu : u ∈ s.allowed) (hm : (u.match? p).isSome = true) : u.priority ≤ t.priority := by
  obtain ⟨before, x, after, hs, hx, hbefore⟩ := List.findSome?_eq_some_iff.1 h
  obtain ⟨q', -, hxt⟩ := Option.map_eq_some_iff.1 hx
  obtain ⟨rfl, rfl⟩ := Prod.mk.inj hxt
  have hdescending := Terminal.byPriority_descending.filter fun t => (s.next? t).isSome
  rw [← allowed, hs, List.pairwise_append] at hdescending
  rw [hs, List.mem_append, List.mem_cons] at hu
  rcases hu with hu | rfl | hu
  · have hnone := Option.map_eq_none_iff.1 (hbefore u hu)
    rw [hnone] at hm
    cases hm
  · exact Nat.le_refl _
  · exact (List.pairwise_cons.1 hdescending.2.1).1 u hu

/-- The tokens from a place on, or nothing where no allowed terminal takes a character. -/
def lex? (s : LexState) (p : Place) : Option (List Token) :=
  if p.rest = [] then some []
  else
    match s.read? p with
    | none => none
    | some (t, q) =>
      if q.rest.length < p.rest.length then
        (s.next? t).bind fun s' => (lex? s' q).map (⟨t, p.rest.take (p.rest.length - q.rest.length)⟩ :: ·)
      else none
termination_by p.rest.length

theorem lex_step {s s' : LexState} {t : Terminal} {d lexeme rest : List Char} (hne : lexeme ≠ [])
    (h : s.read? ⟨d, lexeme ++ rest⟩ = some (t, ⟨lexeme.reverse ++ d, rest⟩)) (hnext : s.next? t = some s') :
    s.lex? ⟨d, lexeme ++ rest⟩ = (s'.lex? ⟨lexeme.reverse ++ d, rest⟩).map (⟨t, lexeme⟩ :: ·) := by
  have hpos := List.length_pos_iff.2 hne
  rw [lex?, if_neg (by simp [hne]), h]
  simp [hpos, hnext]

theorem read_outer {s : LexState} {p : Place} (h : ∀ t ∈ s.inner, t.match? p = none) :
    s.read? p = document.read? p := by
  rw [read?, read?, allowed_eq, List.findSome?_append]
  have : s.inner.findSome? (fun t => (t.match? p).map fun q => (t, q)) = none := by
    rw [List.findSome?_eq_none_iff]
    intro t ht
    rw [h t ht]
    rfl
  rw [this, Option.none_or]
  rfl

theorem next_outer (s : LexState) {t : Terminal} (h : t ∈ outer) : s.next? t = document.next? t := by
  simp only [outer, List.mem_cons, List.not_mem_nil, or_false] at h
  rcases h with rfl | rfl | rfl | rfl | rfl | rfl | rfl | rfl <;> cases s <;> rfl

/-- Where nothing of its own matches, a state ends like the document. -/
theorem lex_outer {s : LexState} {p : Place} (h : ∀ t ∈ s.inner, t.match? p = none) :
    s.lex? p = document.lex? p := by
  rw [lex?, lex?, read_outer h]
  split
  · rfl
  · cases hr : document.read? p with
    | none => rfl
    | some tq =>
      have hmem : tq.1 ∈ outer := by
        obtain ⟨t, ht, htq⟩ := List.exists_of_findSome?_eq_some hr
        obtain ⟨q, -, rfl⟩ := Option.map_eq_some_iff.1 htq
        exact ht
      simp only [next_outer s hmem]

theorem read_first {s : LexState} {p q : Place} {t : Terminal} {before after : List Terminal}
    (hs : s.inner ++ outer = before ++ t :: after) (hb : ∀ t' ∈ before, t'.match? p = none)
    (ht : t.match? p = some q) : s.read? p = some (t, q) := by
  rw [read?, allowed_eq, hs, List.findSome?_append]
  have : before.findSome? (fun t => (t.match? p).map fun q => (t, q)) = none := by
    rw [List.findSome?_eq_none_iff]
    intro t' ht'
    rw [hb t' ht']
    rfl
  rw [this, Option.none_or, List.findSome?_cons, ht]
  rfl

/-- From one state and place to another the lexer takes these tokens. -/
def Takes (s : LexState) (p : Place) (tokens : List Token) (s' : LexState) (p' : Place) : Prop :=
  s.lex? p = (s'.lex? p').map (tokens ++ ·)

theorem Takes.trans {s s' s'' : LexState} {p p' p'' : Place} {xs ys : List Token} (h : s.Takes p xs s' p')
    (h' : s'.Takes p' ys s'' p'') : s.Takes p (xs ++ ys) s'' p'' := by
  rw [Takes, h, h', Option.map_map]
  congr 1
  funext ts
  exact (List.append_assoc xs ys ts).symm

theorem takes_one {s s' : LexState} {t : Terminal} {d lexeme rest : List Char} (before : List Terminal)
    {after : List Terminal} (hs : s.inner ++ outer = before ++ t :: after) (hnext : s.next? t = some s')
    (hb : ∀ t' ∈ before, t'.match? ⟨d, lexeme ++ rest⟩ = none)
    (ht : t.match? ⟨d, lexeme ++ rest⟩ = some ⟨lexeme.reverse ++ d, rest⟩) (hne : lexeme ≠ []) :
    s.Takes ⟨d, lexeme ++ rest⟩ [⟨t, lexeme⟩] s' ⟨lexeme.reverse ++ d, rest⟩ :=
  lex_step hne (read_first hs hb ht) hnext

theorem takes_none {s : LexState} {p : Place} (h : ∀ t ∈ s.inner, t.match? p = none) :
    s.Takes p [] document p := by
  rw [Takes, lex_outer h]
  exact (Option.map_id_apply).symm

end LexState

/-! ## The tokens of an item -/

def ArgumentToken.token : ArgumentToken → Token
  | opening => ⟨.leftParen, ['(']⟩
  | closing => ⟨.rightParen, [')']⟩
  | text lexeme => ⟨.argumentText, lexeme⟩
  | literal lexeme => ⟨.string, lexeme⟩
  | unterminated lexeme => ⟨.unterminatedString, lexeme⟩

def Item.tokens : Item → List Token
  | text lexeme => [⟨.text, lexeme⟩]
  | comment lexeme closed => [⟨if closed then .comment else .unclosedComment, lexeme⟩]
  | escaped lexeme closed => [⟨if closed then .escaped else .unclosedEscaped, lexeme⟩]
  | interpolation style body closed =>
    ⟨.opening style, style.opening⟩ ::
      ((if body.isEmpty then [] else [⟨.expression style, body⟩]) ++
        if closed then [⟨.closing style, style.closing⟩] else [])
  | directive indent tag none => [⟨.tagName, indent ++ tag⟩]
  | directive indent tag (some tokens) =>
    ⟨.tagName, indent ++ tag⟩ :: (ArgumentToken.opening :: tokens).map ArgumentToken.token

namespace LexState

open Terminal

theorem none_concat {ts : List Terminal} {t : Terminal} {p : Place} (hts : ∀ t' ∈ ts, t'.match? p = none)
    (ht : t.match? p = none) : ∀ t' ∈ ts ++ [t], t'.match? p = none := by
  intro t' hm
  rcases List.mem_append.1 hm with hm | hm
  · exact hts t' hm
  · rw [List.mem_singleton.1 hm]
    exact ht

theorem outer_none {cs : List Char} (hm : Mustache.plain.opening.isPrefixOf cs = false)
    (he : Item.escapedOpening.isPrefixOf cs = false) (d : List Char) :
    ∀ t ∈ [comment, unclosedComment, escaped, unclosedEscaped, opening .safe, opening .plain],
      t.match? ⟨d, cs⟩ = none := by
  obtain ⟨hc, hs⟩ := Item.no_opening_of_plain hm
  simp only [List.forall_mem_cons, List.not_mem_nil, false_imp_iff, implies_true, and_true]
  exact ⟨match_none_of_mark rfl hc d, match_none_of_mark rfl hc d, match_none_of_mark rfl he d,
    match_none_of_mark rfl he d, match_none_of_mark rfl hs d, match_none_of_mark rfl hm d⟩

theorem takes_comment {e : Enclosed} (h : e.Ends Item.commentClosing fun _ => false) (d : List Char) :
    document.Takes ⟨d, Item.commentOpening ++ e.lexeme Item.commentClosing ++ e.rest⟩
      [⟨if e.closed then comment else unclosedComment, Item.commentOpening ++ e.lexeme Item.commentClosing⟩]
      document ⟨(Item.commentOpening ++ e.lexeme Item.commentClosing).reverse ++ d, e.rest⟩ := by
  have hm := match_comment h d
  rw [← List.append_assoc] at hm
  have hne : Item.commentOpening ++ e.lexeme Item.commentClosing ≠ [] := by simp [Item.commentOpening]
  cases hc : e.closed with
  | true =>
    rw [hc, if_pos rfl] at hm
    exact takes_one [] rfl rfl (by simp) hm hne
  | false =>
    rw [hc, if_neg (by simp)] at hm
    have hrest : e.rest = [] := by simpa using (h.2 hc).2
    refine takes_one [comment] rfl rfl (by simpa using hm) ?_ hne
    rw [hrest, List.append_nil]
    exact head_to_end Item.commentOpening d _

theorem no_comment_of_escaped (r d : List Char) :
    ∀ t ∈ [comment, unclosedComment], t.match? ⟨d, Item.escapedOpening ++ r⟩ = none := by
  have hc : Item.commentOpening.isPrefixOf (Item.escapedOpening ++ r) = false := rfl
  simp only [List.forall_mem_cons, List.not_mem_nil, false_imp_iff, implies_true, and_true]
  exact ⟨match_none_of_mark rfl hc d, match_none_of_mark rfl hc d⟩

theorem takes_escaped {e : Enclosed} (h : e.Ends Mustache.plain.closing fun _ => false)
    (hr : e.closed = true → e.rest.head? ≠ some '}') (d : List Char) :
    document.Takes ⟨d, Item.escapedOpening ++ e.lexeme Mustache.plain.closing ++ e.rest⟩
      [⟨if e.closed then escaped else unclosedEscaped, Item.escapedOpening ++ e.lexeme Mustache.plain.closing⟩]
      document ⟨(Item.escapedOpening ++ e.lexeme Mustache.plain.closing).reverse ++ d, e.rest⟩ := by
  have hm := match_escaped h d
  have hcom := no_comment_of_escaped (e.lexeme Mustache.plain.closing ++ e.rest) d
  rw [← List.append_assoc] at hm hcom
  have hne : Item.escapedOpening ++ e.lexeme Mustache.plain.closing ≠ [] := by simp [Item.escapedOpening]
  cases hc : e.closed with
  | true =>
    have hone : ∀ d', (Pattern.one '}').ends ⟨d', e.rest⟩ = [] := fun d' => by
      have := hr hc
      cases hrest : e.rest with
      | nil => rfl
      | cons c r =>
        rw [hrest] at this
        exact Pattern.ends_one_ne (by simpa using this) d' r
    simp only [hc, hone, ite_true, List.head?_nil, Option.none_or] at hm
    exact takes_one _ rfl rfl hcom hm hne
  | false =>
    rw [hc, if_neg (by simp)] at hm
    have hrest : e.rest = [] := by simpa using (h.2 hc).2
    refine takes_one _ rfl rfl (none_concat hcom hm) ?_ hne
    rw [hrest, List.append_nil]
    exact head_to_end Item.escapedOpening d _

/-- A third closing brace is taken along. -/
theorem takes_escapedSafe {body rest : List Char}
    (h : Enclosed.Ends Mustache.plain.closing (fun _ => false) ⟨body, true, '}' :: rest⟩) (d : List Char) :
    document.Takes ⟨d, Item.escapedOpening ++ (body ++ Mustache.safe.closing) ++ rest⟩
      [⟨escaped, Item.escapedOpening ++ (body ++ Mustache.safe.closing)⟩]
      document ⟨(Item.escapedOpening ++ (body ++ Mustache.safe.closing)).reverse ++ d, rest⟩ := by
  have hm := match_escaped h d
  have hcom := no_comment_of_escaped (body ++ Mustache.safe.closing ++ rest) d
  rw [← List.append_assoc] at hcom
  have hsplit : Item.escapedOpening ++ (body ++ Mustache.safe.closing) ++ rest =
      Item.escapedOpening ++ (Enclosed.lexeme Mustache.plain.closing ⟨body, true, '}' :: rest⟩ ++ '}' :: rest) := by
    simp [Enclosed.lexeme, Mustache.closing]
  simp only [ite_true, Pattern.ends_one, List.head?_cons, Option.some_or] at hm
  refine takes_one _ rfl rfl hcom ?_ (by simp [Item.escapedOpening])
  rw [hsplit, hm]
  simp [Enclosed.lexeme, Mustache.closing]

theorem takes_ending {style : Mustache} {s : LexState} (hs : s = afterOpening style ∨ s = afterExpression style)
    {e : Enclosed} (h : e.Ends style.closing startsTagBreak) (d : List Char) :
    s.Takes ⟨d, (if e.closed then style.closing else []) ++ e.rest⟩
      (if e.closed then [⟨closing style, style.closing⟩] else [])
      document ⟨(if e.closed then style.closing else []).reverse ++ d, e.rest⟩ := by
  cases hc : e.closed with
  | true =>
    have hne : style.closing ≠ [] := by cases style <;> simp [Mustache.closing]
    have hm : (closing style).match? ⟨d, style.closing ++ e.rest⟩ = _ := match_mark rfl d e.rest
    rcases hs with rfl | rfl
    · exact takes_one [] rfl (if_pos rfl) (by simp) hm hne
    · exact takes_one [] rfl (if_pos rfl) (by simp) hm hne
  | false =>
    have hclose : (closing style).match? ⟨d, e.rest⟩ = none := match_none_of_mark rfl (h.2 hc).1 d
    have hexpr : (expression style).match? ⟨d, e.rest⟩ = none := match_expression_none (h.2 hc).2 d
    refine takes_none fun t ht => ?_
    rcases hs with rfl | rfl
    · simp only [inner, List.mem_cons, List.not_mem_nil, or_false] at ht
      rcases ht with rfl | rfl
      · exact hclose
      · exact hexpr
    · rw [inner, List.mem_singleton] at ht
      rw [ht]
      exact hclose

theorem takes_interpolation {style : Mustache} {e : Enclosed} (h : e.Ends style.closing startsTagBreak)
    (d : List Char) :
    (afterOpening style).Takes ⟨d, e.lexeme style.closing ++ e.rest⟩
      ((if e.body.isEmpty then [] else [⟨expression style, e.body⟩]) ++
        if e.closed then [⟨closing style, style.closing⟩] else [])
      document ⟨(e.lexeme style.closing).reverse ++ d, e.rest⟩ := by
  have hexpr := fun hb => match_expression h hb d
  rw [Enclosed.lexeme, List.append_assoc] at hexpr ⊢
  by_cases hb : e.body = []
  · rw [hb]
    exact takes_ending (.inl rfl) h d
  · have hclose : (closing style).match? ⟨d, e.body ++ ((if e.closed then style.closing else []) ++ e.rest)⟩ = none := by
      have hgo := unstopped_at (x := []) h.1 hb
      rw [Bool.or_eq_false_iff] at hgo
      exact match_none_of_mark rfl hgo.1 d
    have hone := takes_one (s := afterOpening style) [closing style] rfl (if_pos rfl) (by simpa using hclose)
      (hexpr hb) hb
    have := hone.trans (takes_ending (.inr rfl) h _)
    simpa [hb, List.isEmpty_iff] using this

theorem takes_opening {style : Mustache} {r : List Char}
    (hp : style = .plain → Item.commentOpening.isPrefixOf (style.opening ++ r) = false ∧
      Mustache.safe.opening.isPrefixOf (style.opening ++ r) = false) (d : List Char) :
    document.Takes ⟨d, style.opening ++ r⟩ [⟨opening style, style.opening⟩] (afterOpening style)
      ⟨style.opening.reverse ++ d, r⟩ := by
  have hm : (opening style).match? ⟨d, style.opening ++ r⟩ = _ := match_mark rfl d r
  have he : Item.escapedOpening.isPrefixOf (style.opening ++ r) = false := by cases style <;> rfl
  have hc : Item.commentOpening.isPrefixOf (style.opening ++ r) = false := by
    cases style with
    | plain => exact (hp rfl).1
    | safe => rfl
  have hearly : ∀ t ∈ [comment, unclosedComment, escaped, unclosedEscaped],
      t.match? ⟨d, style.opening ++ r⟩ = none := by
    simp only [List.forall_mem_cons, List.not_mem_nil, false_imp_iff, implies_true, and_true]
    exact ⟨match_none_of_mark rfl hc d, match_none_of_mark rfl hc d, match_none_of_mark rfl he d,
      match_none_of_mark rfl he d⟩
  cases style with
  | safe => exact takes_one _ rfl rfl hearly hm (by simp [Mustache.opening])
  | plain =>
    have hs : (opening .safe).match? ⟨d, Mustache.plain.opening ++ r⟩ = none := match_none_of_mark rfl (hp rfl).2 d
    exact takes_one _ rfl rfl (none_concat hearly hs) hm (by simp [Mustache.opening])

theorem takes_tag {indent tag rest d : List Char} (h : TagSplit indent tag rest)
    (hd : d.head?.all (· == '\n') = true) :
    document.Takes ⟨d, indent ++ tag ++ rest⟩ [⟨tagName, indent ++ tag⟩] afterTag
      ⟨(indent ++ tag).reverse ++ d, rest⟩ := by
  obtain ⟨hm, he⟩ := Item.no_opening_of_tagLine (startsTagLine_of_split h)
  have hno := outer_none hm he d
  have hmatch := match_tagName h hd
  rw [← List.append_assoc] at hno hmatch
  obtain ⟨t, rfl⟩ := h.tag.head
  exact takes_one _ rfl rfl hno hmatch (by simp)

/-! ## Arguments -/

/-- The state behind a token of an argument list. -/
def afterArgument (depth : Nat) (token : ArgumentToken) : LexState :=
  if token = .closing ∧ depth = 0 then document else arguments (token.depthAfter depth)

theorem next_argument (depth : Nat) (token : ArgumentToken) :
    (arguments depth).next? token.token.terminal = some (afterArgument depth token) := by
  cases token with
  | closing => cases depth <;> rfl
  | _ => rfl

theorem argument_none {cs : List Char} (h : cs.head?.any isQuote = false) (d : List Char) :
    ∀ t ∈ [string, unterminatedString], t.match? ⟨d, cs⟩ = none := by
  simp only [List.forall_mem_cons, List.not_mem_nil, false_imp_iff, implies_true, and_true]
  exact ⟨match_string_none h d, match_unterminated_none h d⟩

theorem paren_none {c : Char} (ho : c ≠ '(') (hc : c ≠ ')') (cs d : List Char) :
    ∀ t ∈ [leftParen, rightParen], t.match? ⟨d, c :: cs⟩ = none := by
  simp only [List.forall_mem_cons, List.not_mem_nil, false_imp_iff, implies_true, and_true]
  exact ⟨match_none_of_mark rfl (Item.isPrefixOf_cons_of_ne rfl ho cs) d,
    match_none_of_mark rfl (Item.isPrefixOf_cons_of_ne rfl hc cs) d⟩

theorem takes_argument {cs rest : List Char} {token : ArgumentToken} (h : ArgumentToken.Read cs token rest)
    (depth : Nat) (d : List Char) :
    (arguments depth).Takes ⟨d, token.lexeme ++ rest⟩ [token.token]
      (afterArgument depth token) ⟨token.lexeme.reverse ++ d, rest⟩ := by
  have hnext := next_argument depth token
  cases h with
  | opening =>
    exact takes_one [string, unterminatedString] rfl hnext (argument_none rfl d) (match_mark rfl d _)
      (by simp [ArgumentToken.lexeme])
  | closing =>
    have hopen : leftParen.match? ⟨d, [')'] ++ rest⟩ = none := match_none_of_mark rfl rfl d
    exact takes_one _ rfl hnext (none_concat (argument_none rfl d) hopen) (match_mark rfl d _)
      (by simp [ArgumentToken.lexeme])
  | @literal q cs body _ hl =>
    have hm := match_string q cs d
    rw [hl, ← closeLiteral_append hl, Option.map_some] at hm
    exact takes_one [] rfl hnext (by simp) hm (by simp [ArgumentToken.lexeme])
  | @unterminated q a _ hl hun hend =>
    have hm := match_string q (a ++ rest) d
    rw [hl, Option.map_none] at hm
    exact takes_one [string] rfl hnext (by simpa [ArgumentToken.lexeme] using hm) (match_unterminated hun hend d)
      (by simp [ArgumentToken.lexeme])
  | @text a _ hne hun hend =>
    refine takes_one ([string, unterminatedString] ++ [leftParen, rightParen]) rfl hnext (fun t ht => ?_)
      (match_argumentText hne hun hend d) hne
    cases a with
    | nil => exact absurd rfl hne
    | cons c a =>
      obtain ⟨-, ho, hc, hq⟩ := ArgumentToken.endsText_cons.1 hun.1
      rcases List.mem_append.1 ht with ht | ht
      · exact argument_none (by simpa [ArgumentToken.lexeme] using hq) d t ht
      · exact paren_none ho hc (a ++ rest) d t ht

theorem arguments_none {cs : List Char} (h : cs = [] ∨ startsTagBreak cs = true) (depth : Nat) (d : List Char) :
    ∀ t ∈ (arguments depth).inner, t.match? ⟨d, cs⟩ = none := by
  have hend : cs = [] ∨ ArgumentToken.endsText cs = true := h.imp_right fun h => by
    simp [ArgumentToken.endsText, h]
  have hearly : ∀ t ∈ [string, unterminatedString] ++ [leftParen, rightParen], t.match? ⟨d, cs⟩ = none := by
    intro t ht
    rcases h with rfl | h
    · rcases List.mem_append.1 ht with ht | ht
      · exact argument_none rfl d t ht
      · simp only [List.mem_cons, List.not_mem_nil, or_false] at ht
        rcases ht with rfl | rfl
        · exact match_none_of_mark rfl rfl d
        · exact match_none_of_mark rfl rfl d
    · obtain ⟨r, rfl, -⟩ := startsTagBreak_head h
      rcases List.mem_append.1 ht with ht | ht
      · exact argument_none (by simp [isQuote, Quote.ofChar?]) d t ht
      · exact paren_none (by decide) (by decide) r d t ht
  exact none_concat hearly (match_argumentText_none hend d)

theorem takes_scan (depth : Nat) (cs d : List Char) :
    (arguments depth).Takes ⟨d, cs⟩ ((ArgumentToken.scan depth cs).1.map ArgumentToken.token) document
      ⟨((ArgumentToken.scan depth cs).1.flatMap ArgumentToken.lexeme).reverse ++ d, (ArgumentToken.scan depth cs).2⟩ := by
  fun_induction ArgumentToken.scan depth cs generalizing d with
  | case1 depth cs hn => exact takes_none (arguments_none (ArgumentToken.next?_eq_none_iff.1 hn) depth d)
  | case2 depth cs token rest hn _ hc =>
    have hread := ArgumentToken.read_of_next? hn
    have := takes_argument hread depth d
    rw [afterArgument, if_pos hc, ArgumentToken.next?_append hn] at this
    simpa using this
  | case3 depth cs token rest hn _ hc =>
    rename_i ih
    have hread := ArgumentToken.read_of_next? hn
    have := takes_argument hread depth d
    rw [afterArgument, if_neg hc, ArgumentToken.next?_append hn] at this
    simpa using this.trans (ih _)

/-! ## Items -/

theorem takes_text {lexeme rest d : List Char} (hne : lexeme ≠ [])
    (hno : Mustache.plain.opening.isPrefixOf (lexeme ++ rest) = false ∧
      Item.escapedOpening.isPrefixOf (lexeme ++ rest) = false)
    (ht : (d.head?.all (· == '\n') && startsTagLine (lexeme ++ rest)) = false)
    (hm : text.match? ⟨d, lexeme ++ rest⟩ = some ⟨lexeme.reverse ++ d, rest⟩) :
    document.Takes ⟨d, lexeme ++ rest⟩ [⟨text, lexeme⟩] document ⟨lexeme.reverse ++ d, rest⟩ := by
  exact takes_one _ rfl rfl (none_concat (outer_none hno.1 hno.2 d) (match_tagName_none ht)) hm hne

theorem head_all_reverse (d : List Char) : d.head?.all (· == '\n') = atLineStart d.reverse := by
  rw [atLineStart, List.getLast?_reverse]

theorem no_tag_of_boundary {lineStart : Bool} {d cs : List Char} (hb : Boundary lineStart d.reverse cs)
    (h : (lineStart && startsTagLine cs) = false) : (d.head?.all (· == '\n') && startsTagLine cs) = false := by
  rw [head_all_reverse]
  by_cases ha : atLineStart d.reverse = true
  · rw [hb.no_tagLine h (endsInIndent_of_atLineStart ha)]
    exact Bool.and_false _
  · rw [Bool.eq_false_iff.2 ha]
    exact Bool.false_and _

/-- What the scanner reads as an item, the lexer reads as its tokens. -/
theorem takes_item {lineStart : Bool} {cs rest d : List Char} {item : Item} (hb : Boundary lineStart d.reverse cs)
    (h : Item.Read lineStart cs item rest) :
    document.Takes ⟨d, cs⟩ item.tokens document ⟨item.lexeme.reverse ++ d, rest⟩ := by
  cases h with
  | comment e he =>
    rw [← List.append_assoc]
    exact takes_comment he d
  | escaped e he hr =>
    rw [← List.append_assoc]
    exact takes_escaped he hr d
  | escapedSafe body rest he =>
    rw [← List.append_assoc]
    exact takes_escapedSafe he d
  | interpolation style e he hp =>
    have := (takes_opening hp d).trans (takes_interpolation he _)
    simpa [Item.tokens, Item.lexeme, Enclosed.lexeme] using this
  | @directive indent tag _ hl hsplit hr =>
    have hstart := head_all_reverse d ▸ hb.start hl
    have hparen : ∀ t ∈ afterTag.inner, t.match? ⟨(indent ++ tag).reverse ++ d, rest⟩ = none := by
      intro t ht
      rw [inner, List.mem_singleton] at ht
      rw [ht]
      refine @match_none_of_mark leftParen ['('] rest rfl ?_ _
      cases rest with
      | nil => rfl
      | cons c rest => exact Item.isPrefixOf_cons_of_ne rfl (by simpa using hr) rest
    have := (takes_tag hsplit hstart).trans (takes_none hparen)
    rw [List.append_nil, List.append_assoc] at this
    exact this
  | @arguments indent tag inner hl hsplit =>
    have hstart := head_all_reverse d ▸ hb.start hl
    have hopen : afterTag.Takes ⟨(indent ++ tag).reverse ++ d, ['('] ++ inner⟩ [⟨leftParen, ['(']⟩] (arguments 0)
        ⟨['('].reverse ++ ((indent ++ tag).reverse ++ d), inner⟩ :=
      takes_one [] rfl rfl (by simp) (match_mark rfl _ _) (by simp)
    have := ((takes_tag hsplit hstart).trans hopen).trans (takes_scan 0 inner _)
    simpa [Item.tokens, Item.lexeme, ArgumentToken.token] using this
  | @text a _ hne hun hend ht =>
    have hstop : rest = [] ∨ Item.endsText rest = true := hend.imp_right fun h => by
      simpa [Item.endsText, or_assoc] using Or.inl h
    have hbreak : startsTagBreak rest = false := Bool.eq_false_iff.2 fun h => by
      obtain ⟨r, rfl, -⟩ := startsTagBreak_head h
      simp [Mustache.opening, Item.escapedOpening] at hend
    exact takes_text hne (Item.no_opening_of_endsText (unstopped_at (x := []) hun hne)) (no_tag_of_boundary hb ht)
      (match_text hne hun hstop hbreak d)
  | @line a _ hun hline ht =>
    have hno := Item.no_opening_of_line hun
    have hm := match_line hun hline d
    have hnone := no_tag_of_boundary hb ht
    rw [List.append_cons] at hno hm hnone ⊢
    exact takes_text (by simp) hno hnone hm

end LexState

theorem lex_items {lineStart : Bool} {d cs : List Char} (hb : Boundary lineStart d.reverse cs) :
    LexState.document.lex? ⟨d, cs⟩ = some ((items lineStart cs).flatMap Item.tokens) := by
  fun_induction items lineStart cs generalizing d with
  | case1 => simp [LexState.lex?]
  | case2 ls cs hne _ first =>
    rename_i ih
    have hread := Item.next_read ls hne
    have hnext : Boundary first.1.endsLine (first.1.lexeme.reverse ++ d).reverse first.2 := by
      rw [List.reverse_append, List.reverse_reverse]
      exact hread.boundary d.reverse
    rw [LexState.takes_item hb hread, ih hnext, List.flatMap_cons]
    rfl

end EdgeTemplate
