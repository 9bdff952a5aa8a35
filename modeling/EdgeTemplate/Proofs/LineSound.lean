import EdgeTemplate.Proofs.ClassifySound
import EdgeTemplate.Proofs.ExcerptSound

/-!
# Directives on one line

Without a tree the line before a cursor is read from its last `@` on: the name is skipped, and the argument list is run
through with a depth counter and the quote that is open. Token by token this keeps step with the nested list of the tree
(`ArgumentToken.Read.quote_through`), and inside a token a quote is open exactly if the token is a literal that has
begun (`ArgumentToken.quote_scan`). So both ways to classify a cursor agree in a directive that has no line end, no
escape and no second `@` (`classify_directive`).
-/

namespace EdgeTemplate

/-! ## The line up to a cursor -/

theorem line_of_start {pre a : List Char} (hpre : atLineStart pre = true) (ha : '\n' ∉ a) :
    ((pre ++ a).reverse.takeWhile (· != '\n')).reverse = a := by
  have hall : ∀ c ∈ a.reverse, (c != '\n') = true := by
    intro c hc
    rw [bne_iff_ne]
    rintro rfl
    exact ha (List.mem_reverse.1 hc)
  have hstop : pre.reverse.takeWhile (· != '\n') = [] := by
    rw [atLineStart, List.getLast?_eq_head?_reverse] at hpre
    cases hr : pre.reverse with
    | nil => rfl
    | cons c r =>
      rw [hr, List.head?_cons, Option.all_some, beq_iff_eq] at hpre
      simp [hpre]
  rw [List.reverse_append, List.takeWhile_append_of_pos hall, hstop, List.append_nil, List.reverse_reverse]

theorem splitLast?_eq_none {c : Char} {cs : List Char} (h : c ∉ cs) : splitLast? c cs = none := by
  induction cs with
  | nil => rfl
  | cons d cs ih =>
    rw [List.mem_cons, not_or] at h
    rw [splitLast?, ih h.2]
    simp [Ne.symm h.1]

theorem splitLast?_append {c : Char} (a : List Char) {b : List Char} (h : c ∉ b) :
    splitLast? c (a ++ c :: b) = some (a, b) := by
  induction a with
  | nil => simp [splitLast?, splitLast?_eq_none h]
  | cons d a ih => rw [List.cons_append, splitLast?, ih]

theorem openQuote_indent {cs : List Char} (h : cs.all isIndent = true) : openQuote cs = none := by
  induction cs with
  | nil => rfl
  | cons c cs ih =>
    rw [List.all_cons, Bool.and_eq_true] at h
    have hc : quoteAfter none c = none := by
      rw [quoteAfter, ofChar?_eq_none, Bool.eq_false_iff]
      intro hq
      obtain ⟨q, hq⟩ := Option.isSome_iff_exists.1 hq
      rw [ofChar?_eq_some.1 hq, (char_not_indent q).1] at h
      cases h.1
    rw [openQuote, List.foldl_cons, hc]
    exact ih h.2

theorem afterMarkerName_eq {u w : List Char} (hu : u.all isNameChar = true)
    (hw : ∀ c, w.head? = some c → isNameChar c = false) (hbang : (u ++ w).head? ≠ some '!') :
    afterMarkerName (u ++ w) = w := by
  unfold afterMarkerName
  split
  · next heq => simp [heq] at hbang
  · exact (span_nameChars u hu hw).2

theorem afterMarkerName_bang {u w : List Char} (hu : u.all isNameChar = true)
    (hw : ∀ c, w.head? = some c → isNameChar c = false) : afterMarkerName ('!' :: (u ++ w)) = w :=
  (span_nameChars u hu hw).2

section

variable {name : List Char} (h : IsTag ('@' :: name))
include h

theorem afterMarkerName_append {w : List Char} (hw : ∀ c, w.head? = some c → isNameChar c = false) :
    afterMarkerName (name ++ w) = w := by
  cases h with
  | plain c cs hc hcs =>
    refine afterMarkerName_eq (by simp [isNameChar_of_isNameStart hc, hcs]) hw ?_
    rw [List.cons_append, List.head?_cons, ne_eq, Option.some.injEq]
    rintro rfl
    exact absurd hc (by decide)
  | inline c cs hc hcs => exact afterMarkerName_bang (by simp [isNameChar_of_isNameStart hc, hcs]) hw

theorem afterMarkerName_prefix {u : List Char} (hu : u <+: name) : afterMarkerName u = [] := by
  have hnames : ∀ {v w : List Char}, v <+: w → w.all isNameChar = true → v.all isNameChar = true :=
    fun hv hw => List.all_eq_true.2 fun c hc => List.all_eq_true.1 hw c (hv.subset hc)
  cases h with
  | plain c cs hc hcs =>
    have hall := hnames hu (by simp [isNameChar_of_isNameStart hc, hcs])
    have hbang : (u ++ []).head? ≠ some '!' := by
      rw [List.append_nil]
      intro hb
      exact absurd (List.all_eq_true.1 hall '!' (List.mem_of_mem_head? hb)) (by decide)
    simpa using afterMarkerName_eq hall (by simp) hbang
  | inline c cs hc hcs =>
    rcases List.prefix_cons_iff.1 hu with rfl | ⟨v, rfl, hv⟩
    · rfl
    · have hall := hnames hv (by simp [isNameChar_of_isNameStart hc, hcs])
      simpa using afterMarkerName_bang (w := []) hall (by simp)

end

namespace Context

theorem ofMarker?_name {name u : List Char} (h : IsTag ('@' :: name)) (hu : u <+: name) :
    ofMarker? u = some .directive := by
  rw [ofMarker?, afterMarkerName_prefix h hu]

theorem ofMarker?_arguments {name : List Char} (h : IsTag ('@' :: name)) (v : List Char) :
    ofMarker? (name ++ '(' :: v) = (quoteInArguments? 0 none v).map (ofQuote directive) := by
  have hparen : ∀ c, ('(' :: v).head? = some c → isNameChar c = false := by
    intro c hc
    obtain rfl : '(' = c := by simpa using hc
    decide
  rw [ofMarker?, afterMarkerName_append h hparen]
  rfl

theorem ofLine_marker {indent u : List Char} {c : Context} (hi : indent.all isIndent = true) (hu : '@' ∉ u)
    (hc : ofMarker? u = some c) : ofLine (indent ++ '@' :: u) = c := by
  simp [ofLine, splitLast?_append indent hu, openQuote_indent hi, hc]

theorem atPosition_of_line {text pre a : List Char} {offset : Nat} {position : Position}
    (ho : (SyntaxTree.parse text).lines.offsetAt position = some offset) (htake : text.take offset = pre ++ a)
    (hpre : atLineStart pre = true) (ha : '\n' ∉ a)
    (hscan : endsInInterpolation [] (text.take offset).reverse = false) : atPosition text position = ofLine a := by
  have ho' : (LineIndex.ofText text).offsetAt position = some offset := ho
  rw [atPosition, ho']
  dsimp only
  rw [ofText, hscan, htake, line_of_start hpre ha]
  rfl

end Context

/-! ## Quotes in an argument list -/

theorem quoteInArguments?_after {quote : Option Quote} {c : Char} (h : (quote.isSome || isQuote c) = true) (depth : Nat)
    (cs : List Char) : quoteInArguments? depth quote (c :: cs) = quoteInArguments? depth (quoteAfter quote c) cs := by
  rw [quoteInArguments?.eq_def]
  exact if_pos h

theorem quoteInArguments?_plain {a : List Char} (h : ∀ c ∈ a, c ≠ '(' ∧ c ≠ ')' ∧ isQuote c = false) (depth : Nat)
    (w : List Char) : quoteInArguments? depth none (a ++ w) = quoteInArguments? depth none w := by
  induction a with
  | nil => rfl
  | cons c a ih =>
    obtain ⟨⟨ho, hc, hq⟩, ha⟩ := List.forall_mem_cons.1 h
    rw [List.cons_append, quoteInArguments?.eq_def]
    simp [ho, hc, hq, ih ha]

theorem quoteInArguments?_quoted {q : Quote} {a : List Char} (h : q.char ∉ a) (depth : Nat) (w : List Char) :
    quoteInArguments? depth (some q) (a ++ w) = quoteInArguments? depth (some q) w := by
  induction a with
  | nil => rfl
  | cons c a ih =>
    rw [List.mem_cons, not_or] at h
    rw [List.cons_append, quoteInArguments?_after rfl, quoteAfter, if_neg (Ne.symm h.1), ih h.2]

theorem quoteInArguments?_open (q : Quote) (depth : Nat) (w : List Char) :
    quoteInArguments? depth none (q.char :: w) = quoteInArguments? depth (some q) w := by
  have hq : (Option.isSome (none : Option Quote) || isQuote q.char) = true := isQuote_char q
  rw [quoteInArguments?_after hq, quoteAfter, ofChar?_eq_some.2 rfl]

theorem quoteInArguments?_close (q : Quote) (depth : Nat) (w : List Char) :
    quoteInArguments? depth (some q) (q.char :: w) = quoteInArguments? depth none w := by
  rw [quoteInArguments?_after rfl, quoteAfter, if_pos rfl]

/-- Without escapes a literal ends at the next quote of its kind. -/
theorem closeLiteral_plain {q : Quote} {cs body rest : List Char} (h : closeLiteral q cs = some (body, rest))
    (hs : '\\' ∉ body) : ∃ inner, body = inner ++ [q.char] ∧ q.char ∉ inner := by
  fun_induction closeLiteral q cs generalizing body rest with
  | case1 => cases h
  | case2 =>
    cases h
    exact ⟨[], rfl, List.not_mem_nil⟩
  | case3 => cases h
  | case4 => cases h
  | case5 =>
    obtain ⟨found, -, he⟩ := Option.map_eq_some_iff.1 h
    cases he
    simp at hs
  | case6 => cases h
  | case7 c cs hc _ _ ih =>
    obtain ⟨found, hf, he⟩ := Option.map_eq_some_iff.1 h
    cases he
    rw [List.mem_cons, not_or] at hs
    obtain ⟨inner, hi, hq⟩ := ih hf hs.2
    exact ⟨c :: inner, by rw [hi, List.cons_append], by simp [hq, Ne.symm hc]⟩

namespace ArgumentToken

def isLiteral : ArgumentToken → Bool
  | literal _ => true
  | _ => false

theorem kind_label_string {token : ArgumentToken} (hu : ∀ l, token ≠ .unterminated l) :
    token.label.kind = .string ↔ token.isLiteral = true := by
  cases token with
  | unterminated l => exact absurd rfl (hu l)
  | _ => simp [label, isLiteral]

theorem plain_of_unstopped {a b : List Char} (h : Unstopped endsText a b) :
    ∀ c ∈ a, c ≠ '(' ∧ c ≠ ')' ∧ isQuote c = false := by
  induction a with
  | nil => simp
  | cons c a ih => exact List.forall_mem_cons.2 ⟨(endsText_cons.1 h.1).2, ih h.2⟩

section

variable {cs rest : List Char} {token : ArgumentToken} (h : Read cs token rest) (hs : '\\' ∉ token.lexeme)
  (hu : ∀ l, token ≠ .unterminated l)
include h hs hu

/-- No quote is open after a token. -/
theorem Read.quote_through {depth : Nat} (hd : ¬(token = .closing ∧ depth = 0)) (w : List Char) :
    quoteInArguments? depth none (token.lexeme ++ w) = quoteInArguments? (token.depthAfter depth) none w := by
  cases h with
  | opening => rfl
  | closing =>
    cases depth with
    | zero => exact absurd ⟨rfl, rfl⟩ hd
    | succ depth => rfl
  | @literal q cs body rest hc =>
    rw [lexeme, List.mem_cons, not_or] at hs
    obtain ⟨inner, rfl, hq⟩ := closeLiteral_plain hc hs.2
    rw [lexeme, List.cons_append, List.append_assoc, quoteInArguments?_open, quoteInArguments?_quoted hq]
    exact quoteInArguments?_close q depth w
  | unterminated => exact absurd rfl (hu _)
  | text _ ha _ => exact quoteInArguments?_plain (plain_of_unstopped ha) depth w

/-- Before the end of a token a quote is open if the token is a literal that has begun. -/
theorem Read.quote_inside (depth : Nat) {z y : List Char} (hz : token.lexeme = z ++ y) (hy : y ≠ []) :
    (quoteInArguments? depth none z).map Option.isSome = some (token.isLiteral && !z.isEmpty) := by
  cases z with
  | nil => simp [quoteInArguments?]
  | cons c z =>
    cases h with
    | opening => simp_all [lexeme]
    | closing => simp_all [lexeme]
    | @literal q cs body rest hc =>
      rw [lexeme, List.mem_cons, not_or] at hs
      obtain ⟨inner, rfl, hq⟩ := closeLiteral_plain hc hs.2
      obtain ⟨rfl, hbody⟩ : q.char = c ∧ inner ++ [q.char] = z ++ y := List.cons.inj hz
      have hin : q.char ∉ z := by
        obtain ⟨y, d, rfl⟩ := (List.eq_nil_or_concat' y).resolve_left hy
        rw [← List.append_assoc] at hbody
        rw [(List.append_inj' hbody rfl).1, List.mem_append, not_or] at hq
        exact hq.1
      have hrun := quoteInArguments?_quoted hin depth []
      rw [List.append_nil] at hrun
      rw [quoteInArguments?_open, hrun]
      rfl
    | unterminated => exact absurd rfl (hu _)
    | @text a b _ ha _ =>
      have hplain := plain_of_unstopped ha
      have hrun := quoteInArguments?_plain (a := c :: z) (fun d hd => hplain d ?_) depth []
      · rw [List.append_nil] at hrun
        rw [hrun]
        rfl
      · rw [show a = c :: z ++ y from hz]
        exact List.mem_append_left _ hd

end

/-- The quote that is open at a place of an argument list, and the token at that place. -/
theorem quote_scan (depth : Nat) (cs : List Char) {u v : List Char}
    (h : (scan depth cs).1.flatMap lexeme = u ++ v) (hv : v ≠ []) (hs : '\\' ∉ (scan depth cs).1.flatMap lexeme)
    (hu : ∀ l, .unterminated l ∉ (scan depth cs).1) :
    ∃ xs token ys z y, (scan depth cs).1 = xs ++ token :: ys ∧ u = xs.flatMap lexeme ++ z ∧
      token.lexeme = z ++ y ∧ y ≠ [] ∧
      (quoteInArguments? depth none u).map Option.isSome = some (token.isLiteral && !z.isEmpty) := by
  fun_induction scan depth cs generalizing u with
  | case1 => simp_all
  | case2 depth cs token rest hn _ hc =>
    rw [List.flatMap_singleton] at h hs
    have hread := read_of_next? hn
    have hinside := hread.quote_inside hs (fun l he => hu l (he ▸ List.mem_cons_self)) depth h hv
    exact ⟨[], token, [], u, v, rfl, rfl, h, hv, hinside⟩
  | case3 depth cs token rest hn _ hc =>
    rename_i ih
    have hread := read_of_next? hn
    have hu' : ∀ l, token ≠ .unterminated l := fun l he => hu l (he ▸ List.mem_cons_self)
    rw [List.flatMap_cons] at h hs
    rw [List.mem_append, not_or] at hs
    by_cases hp : token.lexeme <+: u
    · obtain ⟨a, rfl⟩ := hp
      rw [List.append_assoc, List.append_cancel_left_eq] at h
      obtain ⟨xs, found, ys, z, y, hscan, ha, hz, hy, hquote⟩ := ih h hs.2 fun l hl => hu l (List.mem_cons_of_mem _ hl)
      refine ⟨token :: xs, found, ys, z, y, ?_, ?_, hz, hy, ?_⟩
      · exact congrArg (token :: ·) hscan
      · rw [ha, List.flatMap_cons, List.append_assoc]
      · rw [hread.quote_through hs.1 hu' hc, hquote]
    · rcases List.append_eq_append_iff.1 h with ⟨a, ha, -⟩ | ⟨y, hy, -⟩
      · exact absurd ⟨a, ha.symm⟩ hp
      · have hne : y ≠ [] := by
          rintro rfl
          exact hp ⟨[], by rw [hy, List.append_nil, List.append_nil]⟩
        exact ⟨[], token, _, u, y, rfl, rfl, hy, hne, hread.quote_inside hs.1 hu' depth hy hne⟩

end ArgumentToken

/-! ## Literals of the tree -/

/-- A literal has begun before the place and ends behind it. -/
def SyntaxTree.InLiteral (tree : SyntaxTree) (offset : Nat) : Prop :=
  ∃ s ∈ tree.records, s.kind = .string ∧ s.start < offset ∧ offset < s.stop

/-- The context that a directive gives to a place in it. -/
inductive SyntaxTree.DirectiveContext (tree : SyntaxTree) (offset : Nat) : Context → Prop
  | literal : tree.InLiteral offset → DirectiveContext tree offset .stringLiteral
  | directive : ¬tree.InLiteral offset → DirectiveContext tree offset .directive

section

variable {text : List Char} {before after : List Item} {item : Item} {offset : Nat}

theorem inLiteral_iff {s : Record} (hs : s ∈ (SyntaxTree.parse text).leaves) (hc : s.Covers offset) :
    (SyntaxTree.parse text).InLiteral offset ↔ s.kind = .string ∧ s.start < offset := by
  constructor
  · intro ⟨t, ht, hk, hstart, hstop⟩
    have hleaf := mem_leaves_of_isLeaf ht (by rw [hk]; rfl)
    obtain rfl := leaf_unique hleaf hs ⟨Int.le_of_lt hstart, hstop⟩ hc
    exact ⟨hk, hstart⟩
  · intro ⟨hk, hstart⟩
    exact ⟨s, mem_records_of_leaf hs, hk, hstart, hc.2⟩

theorem leaf_of_label (hx : items true text = before ++ item :: after) {front back : List Label} {l : Label}
    (hl : item.leaves = front ++ l :: back) : ∃ s ∈ (SyntaxTree.parse text).leaves, s.kind = l.kind ∧
      s.start = ((before.flatMap Item.lexeme ++ spell front).length + l.indent.length : Nat) ∧
      s.stop = ((before.flatMap Item.lexeme ++ spell front).length + l.indent.length + l.lexeme.length : Nat) := by
  have hlabels : (items true text).flatMap Item.leaves =
      (before.flatMap Item.leaves ++ front) ++ l :: (back ++ after.flatMap Item.leaves) := by
    simp [hx, hl]
  have hleaves := outline_leaves text
  rw [hlabels, outlines_append, outlines, spell_append, spell_items_leaves, Nat.zero_add,
    List.map_eq_append_iff] at hleaves
  obtain ⟨_, rest, hsplit, -, hrest⟩ := hleaves
  obtain ⟨s, _, rfl, hs, -⟩ := List.map_eq_cons_iff.1 hrest
  simp only [Record.outline, Prod.mk.injEq] at hs
  exact ⟨s, by simp [hsplit], hs.1, hs.2.2.1, hs.2.2.2⟩

/-- The place behind `z` lies in a literal if it lies in a leaf that is one and has begun. -/
theorem inLiteral_of_label (hx : items true text = before ++ item :: after) {front back : List Label} {l : Label}
    (hl : item.leaves = front ++ l :: back) {z y : List Char} (hz : l.lexeme = z ++ y) (hy : y ≠ []) :
    (SyntaxTree.parse text).InLiteral (before.flatMap Item.lexeme ++ (spell front ++ (l.indent ++ z))).length ↔
      l.kind = .string ∧ z ≠ [] := by
  obtain ⟨s, hs, hk, hstart, hstop⟩ := leaf_of_label hx hl
  have hpos := List.length_pos_iff.2 hy
  simp only [hz, List.length_append] at hstart hstop ⊢
  rw [inLiteral_iff hs ⟨by omega, by omega⟩, hk, ← List.length_pos_iff]
  exact and_congr_right fun _ => by omega

end

/-! ## Both ways agree -/

section

variable {text : List Char} {before after : List Item} {indent name : List Char}

theorem marker_in_name {arguments : Option (List ArgumentToken)} {u v : List Char}
    (hx : items true text = before ++ .directive indent ('@' :: name) arguments :: after) (htag : IsTag ('@' :: name))
    (hu : name = u ++ v) (hv : v ≠ []) : ∃ c, Context.ofMarker? u = some c ∧
      (SyntaxTree.parse text).DirectiveContext (before.flatMap Item.lexeme ++ (indent ++ '@' :: u)).length c := by
  obtain ⟨back, hl⟩ : ∃ back, (Item.directive indent ('@' :: name) arguments).leaves =
      [] ++ { kind := .directiveName, indent, lexeme := '@' :: name } :: back := by
    cases arguments with
    | _ => exact ⟨_, rfl⟩
  have hin := inLiteral_of_label hx hl (z := '@' :: u) (congrArg ('@' :: ·) hu) hv
  rw [spell_nil, List.nil_append] at hin
  exact ⟨.directive, Context.ofMarker?_name htag ⟨v, hu.symm⟩, .directive fun h => nomatch (hin.1 h).1⟩

section

variable {inner : List Char}
  (hx : items true text = before ++ .directive indent ('@' :: name) (some (ArgumentToken.scan 0 inner).1) :: after)
  (htag : IsTag ('@' :: name))
include hx htag

theorem marker_before_arguments : ∃ c, Context.ofMarker? name = some c ∧
    (SyntaxTree.parse text).DirectiveContext (before.flatMap Item.lexeme ++ (indent ++ '@' :: name)).length c := by
  have hl : (Item.directive indent ('@' :: name) (some (ArgumentToken.scan 0 inner).1)).leaves =
      [{ kind := .directiveName, indent, lexeme := '@' :: name }] ++ ArgumentToken.opening.label ::
        (ArgumentToken.scan 0 inner).1.map ArgumentToken.label := rfl
  have hin := inLiteral_of_label hx hl (z := []) (y := ['(']) rfl (List.cons_ne_nil _ _)
  have hplace : indent ++ '@' :: name =
      spell [{ kind := .directiveName, indent, lexeme := '@' :: name }] ++ ([] ++ []) := by
    simp
  rw [hplace]
  exact ⟨.directive, Context.ofMarker?_name htag List.prefix_rfl, .directive fun h => (hin.1 h).2 rfl⟩

theorem marker_in_arguments {u v : List Char} (hu : ∀ l, .unterminated l ∉ (ArgumentToken.scan 0 inner).1)
    (hs : '\\' ∉ (ArgumentToken.scan 0 inner).1.flatMap ArgumentToken.lexeme)
    (huv : (ArgumentToken.scan 0 inner).1.flatMap ArgumentToken.lexeme = u ++ v) (hv : v ≠ []) :
    ∃ c, Context.ofMarker? (name ++ '(' :: u) = some c ∧
      (SyntaxTree.parse text).DirectiveContext
        (before.flatMap Item.lexeme ++ (indent ++ '@' :: (name ++ '(' :: u))).length c := by
  obtain ⟨xs, token, ys, z, y, hscan, hxs, hz, hy, hquote⟩ := ArgumentToken.quote_scan 0 inner huv hv hs hu
  obtain ⟨quote, hq, hsome⟩ := Option.map_eq_some_iff.1 hquote
  have hl : (Item.directive indent ('@' :: name) (some (ArgumentToken.scan 0 inner).1)).leaves =
      ({ kind := .directiveName, indent, lexeme := '@' :: name } :: ArgumentToken.opening.label ::
        xs.map ArgumentToken.label) ++ token.label :: ys.map ArgumentToken.label := by
    simp [Item.leaves, hscan]
  have hin := inLiteral_of_label hx hl (token.lexeme_label.trans hz) hy
  rw [ArgumentToken.kind_label_string fun l he => hu l (by simp [hscan, he]), token.indent_label] at hin
  have hplace : indent ++ '@' :: (name ++ '(' :: u) =
      spell ({ kind := .directiveName, indent, lexeme := '@' :: name } :: ArgumentToken.opening.label ::
        xs.map ArgumentToken.label) ++ ([] ++ z) := by
    simp [spell_map_label, ArgumentToken.label, hxs]
  rw [Context.ofMarker?_arguments htag, hq, hplace]
  refine ⟨_, rfl, ?_⟩
  rw [Context.ofQuote, hsome]
  by_cases hb : token.isLiteral = true ∧ z ≠ []
  · rw [if_pos (by simpa using hb)]
    exact .literal (hin.2 hb)
  · rw [if_neg (by simpa using hb)]
    exact .directive fun h => hb (hin.1 h)

end

theorem marker_of_directive {ls : Bool} {suf rest u v : List Char} {arguments : Option (List ArgumentToken)}
    (hx : items true text = before ++ .directive indent ('@' :: name) arguments :: after)
    (hread : Item.Read ls suf (.directive indent ('@' :: name) arguments) rest)
    (herr : (Forest.ofItem .nil (.directive indent ('@' :: name) arguments)).hasError = false)
    (hs : '\\' ∉ (Item.directive [] ('@' :: name) arguments).lexeme)
    (huv : (Item.directive [] ('@' :: name) arguments).lexeme = '@' :: (u ++ v)) (hv : v ≠ []) :
    ∃ c, Context.ofMarker? u = some c ∧
      (SyntaxTree.parse text).DirectiveContext (before.flatMap Item.lexeme ++ (indent ++ '@' :: u)).length c := by
  obtain ⟨-, _, -, hsplit, -⟩ := hread.tagSplit
  have htag := hsplit.tag
  cases hread with
  | directive =>
    rw [Item.lexeme, List.nil_append] at huv
    exact marker_in_name hx htag (List.cons.inj huv).2 hv
  | @arguments _ _ inner _ _ =>
    obtain ⟨-, hu⟩ := Item.closes_of_directive herr
    rw [Item.lexeme, List.nil_append, List.cons_append] at huv hs
    have hs' : '\\' ∉ (ArgumentToken.scan 0 inner).1.flatMap ArgumentToken.lexeme :=
      fun h => hs (List.mem_cons_of_mem _ (List.mem_append_right _ (List.mem_cons_of_mem _ h)))
    rcases List.append_eq_append_iff.1 (List.cons.inj huv).2 with ⟨a, rfl, ha⟩ | ⟨a, hname, -⟩
    · cases a with
      | nil =>
        rw [List.append_nil]
        exact marker_before_arguments hx htag
      | cons c a =>
        obtain ⟨rfl, hflat⟩ := List.cons.inj ha
        exact marker_in_arguments hx htag hu hs' hflat hv
    · cases a with
      | nil =>
        rw [List.append_nil] at hname
        exact hname ▸ marker_before_arguments hx htag
      | cons c a => exact marker_in_name hx htag hname (List.cons_ne_nil c a)

theorem surrounds_of_directive {offset : Nat} {d : Record} {c : Context} (hd : d ∈ (SyntaxTree.parse text).records)
    (hk : d.kind.isDirective = true) (hc : d.Covers offset)
    (hquote : ∀ s ∈ (SyntaxTree.parse text).records, s.kind = .string → s.start ≠ offset)
    (h : (SyntaxTree.parse text).DirectiveContext offset c) : (SyntaxTree.parse text).Surrounds offset c := by
  cases h with
  | literal h =>
    obtain ⟨s, hs, hsk, hstart, hstop⟩ := h
    exact .stringLiteral ⟨s, hs, beq_iff_eq.2 hsk, Int.le_of_lt hstart, hstop⟩
  | directive h =>
    refine .directive ⟨d, hd, hk, hc⟩ fun ⟨s, hs, hsk, hstart, hstop⟩ => h ⟨s, hs, beq_iff_eq.1 hsk, ?_, hstop⟩
    exact Int.lt_iff_le_and_ne.2 ⟨hstart, hquote s hs (beq_iff_eq.1 hsk)⟩

theorem itemRecords_hasError {item : Item} {r : Record} (h : (itemRecords before item)[0]? = some r) :
    r.hasError = (Forest.ofItem .nil item).hasError := by
  obtain ⟨label, children, hf, -⟩ := Forest.children_ofItem item
  rw [itemRecords, hf, Forest.records, List.getElem?_cons_zero, Option.some.injEq] at h
  rw [← h, hf, Forest.hasError, Forest.hasError, Bool.or_false]

/-- The text before a place of a directive behind its `@`. -/
theorem take_directive {arguments : Option (List ArgumentToken)} {offset : Nat} {d : Record}
    (hx : items true text = before ++ .directive indent ('@' :: name) arguments :: after)
    (hd : (itemRecords before (.directive indent ('@' :: name) arguments))[0]? = some d) (hstart : d.start < offset)
    (hstop : offset < d.stop) : ∃ u v, (Item.directive [] ('@' :: name) arguments).lexeme = '@' :: (u ++ v) ∧
      v ≠ [] ∧ text.take offset = before.flatMap Item.lexeme ++ (indent ++ '@' :: u) ∧ offset < text.length := by
  obtain ⟨ls, suf, rest, htext, hread, -⟩ := items_read (boundary_start text) hx
  obtain ⟨hds, hdt, -⟩ := itemRecords_first hd
  obtain ⟨w, hw⟩ : ∃ w, (Item.directive [] ('@' :: name) arguments).lexeme = '@' :: w := by
    cases arguments with
    | _ => exact ⟨_, rfl⟩
  have hlex : (Item.directive indent ('@' :: name) arguments).lexeme = indent ++ '@' :: w := by
    rw [← hw]
    exact (Item.lexeme_bare _).symm
  rw [Forest.width_ofItem hread, hlex] at hdt
  rw [← hread.append, hlex] at htext
  simp only [List.length_append, List.length_cons, Item.indent] at hds hdt
  obtain ⟨n, hn, hlt⟩ : ∃ n, offset = (before.flatMap Item.lexeme ++ indent).length + (n + 1) ∧ n < w.length := by
    refine ⟨offset - (before.flatMap Item.lexeme ++ indent).length - 1, ?_, ?_⟩
    · rw [List.length_append]
      omega
    · rw [List.length_append]
      omega
  refine ⟨w.take n, w.drop n, ?_, ?_, ?_, ?_⟩
  · rw [hw, List.take_append_drop]
  · rw [ne_eq, List.drop_eq_nil_iff]
    omega
  · rw [htext, hn, List.append_assoc, ← List.append_assoc, List.take_length_add_append, List.cons_append,
      List.take_succ_cons, List.take_append_of_le_length (Nat.le_of_lt hlt), List.append_assoc]
  · rw [htext]
    simp only [List.length_append, List.length_cons]
    omega

end

/-- In a directive on one line, without escapes and without a second `@`, the tree and the line give the same context
wherever the line is read at all and no literal begins. -/
theorem classify_directive {text : List Char} {i offset : Nat} {d : Record} {position : Position}
    (hd : (SyntaxTree.parse text).records[i]? = some d) (hk : d.kind.isDirective = true) (herr : d.hasError = false)
    (hline : '\n' ∉ (SyntaxTree.parse text).sourceOf d) (hslash : '\\' ∉ (SyntaxTree.parse text).sourceOf d)
    (hat : '@' ∉ ((SyntaxTree.parse text).sourceOf d).tail)
    (ho : (SyntaxTree.parse text).lines.offsetAt position = some offset) (hstart : d.start < offset)
    (hstop : offset < d.stop)
    (hquote : ∀ s ∈ (SyntaxTree.parse text).records, s.kind = .string → s.start ≠ offset)
    (hscan : endsInInterpolation [] (text.take offset).reverse = false) :
    ∃ c, (SyntaxTree.parse text).DirectiveContext offset c ∧
      (classify (some (SyntaxTree.parse text)) text position).context = c ∧ Context.atPosition text position = c := by
  obtain ⟨before, indent, tag, arguments, after, hx, -, hd0⟩ := directive_record hd hk
  obtain ⟨ls, suf, rest, -, hread, hb, -⟩ := items_read (boundary_start text) hx
  obtain ⟨hls, _, -, hsplit, -⟩ := hread.tagSplit
  obtain ⟨name, rfl⟩ := hsplit.tag.head
  obtain ⟨u, v, huv, hv, htake, hlt⟩ := take_directive hx hd0 hstart hstop
  have hsource : (SyntaxTree.parse text).sourceOf d = '@' :: (u ++ v) := (source_item hx hd0).trans huv
  rw [hsource] at hline hslash hat
  obtain ⟨c, hmarker, hcontext⟩ :=
    marker_of_directive hx hread ((itemRecords_hasError hd0).symm.trans herr) (huv ▸ hslash) huv hv
  rw [← htake, List.length_take, Nat.min_eq_left (Nat.le_of_lt hlt)] at hcontext
  have hcovers : d.Covers offset := ⟨Int.le_of_lt hstart, hstop⟩
  refine ⟨c, hcontext, ?_, ?_⟩
  · exact classify_eq ho hlt (no_error_of_item hd (Kind.isItem_of_isDirective hk) hcovers herr)
      (surrounds_of_directive (Array.mem_of_getElem? hd) hk hcovers hquote hcontext)
  · have hnewline : '\n' ∉ indent ++ '@' :: u := by
      rw [List.mem_append, not_or]
      exact ⟨not_mem_of_all hsplit.indent (by decide), fun hm => hline (List.mem_append_left v hm)⟩
    rw [Context.atPosition_of_line ho htake (hb.start hls) hnewline hscan]
    exact Context.ofLine_marker hsplit.indent (fun hm => hat (List.mem_append_left v hm)) hmarker

/-- A quote of one kind and a parenthesis in a literal of another, inside an inner list. -/
theorem classify_directive_mixed :
    let text := "x\n  @if(f(\"')\"), b)".toList
    let tree := SyntaxTree.parse text
    ∃ d : Record, tree.records[2]? = some d ∧ d.kind.isDirective = true ∧ d.hasError = false ∧
      '\n' ∉ tree.sourceOf d ∧ '\\' ∉ tree.sourceOf d ∧ '@' ∉ (tree.sourceOf d).tail ∧
      tree.lines.offsetAt ⟨1, 10⟩ = some 12 ∧ d.start < (12 : Nat) ∧ (12 : Nat) < d.stop ∧
      (∀ s ∈ tree.records, s.kind = .string → s.start ≠ (12 : Nat)) ∧
      endsInInterpolation [] (text.take 12).reverse = false ∧
      ∃ c, tree.DirectiveContext 12 c ∧ (classify (some tree) text ⟨1, 10⟩).context = c ∧
        Context.atPosition text ⟨1, 10⟩ = c := by
  intro text tree
  have hfound : (tree.records[2]?).any (fun d => d.kind.isDirective = true ∧ d.hasError = false ∧ d.start = 4 ∧
      d.stop = 19) = true := by
    decide +kernel
  have ho : tree.lines.offsetAt ⟨1, 10⟩ = some 12 := by decide +kernel
  have hquote : ∀ s ∈ tree.records.toList, s.kind = .string → s.start ≠ (12 : Nat) := by decide +kernel
  have hscan : endsInInterpolation [] (text.take 12).reverse = false := by decide +kernel
  obtain ⟨d, hd, hspan⟩ := (Option.any_eq_true _ _).1 hfound
  obtain ⟨hk, herr, hstart, hstop⟩ := of_decide_eq_true hspan
  have hsource : tree.sourceOf d = "@if(f(\"')\"), b)".toList := by
    rw [SyntaxTree.sourceOf, hstart, hstop]
    decide +kernel
  have hline : '\n' ∉ tree.sourceOf d := by
    rw [hsource]
    decide +kernel
  have hslash : '\\' ∉ tree.sourceOf d := by
    rw [hsource]
    decide +kernel
  have hat : '@' ∉ (tree.sourceOf d).tail := by
    rw [hsource]
    decide +kernel
  have hquote' : ∀ s ∈ tree.records, s.kind = .string → s.start ≠ (12 : Nat) :=
    fun s hs => hquote s (Array.mem_toList_iff.2 hs)
  exact ⟨d, hd, hk, herr, hline, hslash, hat, ho, by omega, by omega, hquote', hscan,
    classify_directive hd hk herr hline hslash hat ho (by omega) (by omega) hquote' hscan⟩

end EdgeTemplate
