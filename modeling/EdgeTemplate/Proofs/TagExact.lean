import EdgeTemplate.Proofs.Lossless

/-!
# Tags are read where they stand

A tag stands where only indentation precedes it on its line. Such a place is a directive unless a
comment, an escaped mustache or a backtick literal goes over it (`directive_exact`). The proof looks
at each leaf where it was read: none but those three holds a tag, and the name of a directive holds
its own.
-/

namespace EdgeTemplate

/-! ## Leaves that hold a tag -/

/-- The leaves that may hold a tag: comments, escaped mustaches and complete backtick literals. -/
def Label.Hides (l : Label) : Prop :=
  l.kind = .comment ∨ l.kind = .escapedInterpolation ∨
    l.kind = .string ∧ l.isError = false ∧ l.lexeme.head? = some Quote.backtick.char

/-- A tag in a leaf is the leaf's own name, or is hidden. -/
def Exposed (pre : List Char) (l : Label) (rest : List Char) : Prop :=
  ∀ x y, l.indent ++ l.lexeme = x ++ y → y ≠ [] → endsInIndent (pre ++ x) = true → startsTag (y ++ rest) = true →
    l.kind = .directiveName ∧ x = l.indent ∨ l.indent = [] ∧ l.Hides

theorem exposed_of_free {pre rest : List Char} {l : Label}
    (h : ∀ x y, l.indent ++ l.lexeme = x ++ y → y ≠ [] → endsInIndent (pre ++ x) = true →
      startsTag (y ++ rest) = false) : Exposed pre l rest := by
  intro x y hl hy hi ht
  rw [h x y hl hy hi] at ht
  cases ht

theorem mem_of_startsTag {y rest : List Char} (hy : y ≠ []) (h : startsTag (y ++ rest) = true) : '@' ∈ y := by
  obtain ⟨r, hr⟩ := startsTag_head h
  cases y with
  | nil => exact absurd rfl hy
  | cons c y =>
    rw [List.cons_append] at hr
    rw [(List.cons.inj hr).1]
    exact List.mem_cons_self

theorem exposed_of_no_mark {l : Label} (h : '@' ∉ l.indent ++ l.lexeme) (pre rest : List Char) :
    Exposed pre l rest := by
  intro x y hl hy _ ht
  rw [hl] at h
  exact absurd (List.mem_append_right x (mem_of_startsTag hy ht)) h

theorem no_tag_in_unstopped {pre x y b : List Char} (hun : Unstopped startsTagBreak (x ++ y) b)
    (hline : endsInIndent pre = true → startsTagLine (x ++ y ++ b) = false) (hi : endsInIndent (pre ++ x) = true) :
    startsTag (y ++ b) = false := by
  refine @no_tag_in_run pre x _ ?_ ?_ hi
  · rintro u v rfl
    rw [List.append_assoc] at hun
    have hgo := unstopped_at hun (List.cons_ne_nil '\n' (v ++ y))
    rw [← List.append_assoc]
    exact hgo
  · intro hpre
    rw [← List.append_assoc]
    exact hline hpre

theorem endsInIndent_of_last {pre : List Char} {c : Char} (hi : isIndent c = false) (hn : c ≠ '\n') :
    endsInIndent (pre ++ [c]) = false := by
  rw [endsInIndent_concat, hi]
  simpa using hn

/-- A lexeme on one line that begins with no blank holds no tag but at its start. -/
theorem no_tag_in_line {pre rest lexeme x y : List Char} {c : Char} (hc : isIndent c = false) (hc' : c ≠ '@')
    (hn : '\n' ∉ c :: lexeme) (hl : c :: lexeme = x ++ y) (hi : endsInIndent (pre ++ x) = true) :
    startsTag (y ++ rest) = false := by
  cases x with
  | nil =>
    by_cases ht : startsTag (y ++ rest) = true
    · obtain ⟨r, hr⟩ := startsTag_head ht
      rw [List.nil_append] at hl
      rw [← hl, List.cons_append] at hr
      exact absurd (List.cons.inj hr).1 hc'
    · exact Bool.eq_false_iff.2 ht
  | cons d x =>
    rw [List.cons_append] at hl
    obtain ⟨rfl, hl⟩ := List.cons.inj hl
    have hx : '\n' ∉ c :: x := by
      intro hm
      refine hn ?_
      rw [hl]
      exact List.mem_append_left y hm
    rw [endsInIndent_append hx] at hi
    simp [hc] at hi

theorem closeLiteral_newline {q : Quote} (hq : q.spansLines = false) {cs lexeme rest : List Char}
    (h : closeLiteral q cs = some (lexeme, rest)) : '\n' ∉ lexeme := by
  fun_induction closeLiteral q cs generalizing lexeme rest with
  | case1 => cases h
  | case2 =>
    simp only [Option.some.injEq, Prod.mk.injEq] at h
    rw [← h.1, List.mem_singleton]
    exact (char_not_indent q).2.symm
  | case3 => cases h
  | case4 => cases h
  | case5 d _ hd _ ih =>
    obtain ⟨found, hf, he⟩ := Option.map_eq_some_iff.1 h
    cases he
    simp [ih hf, Ne.symm hd]
  | case6 => cases h
  | case7 c _ _ _ hn ih =>
    obtain ⟨found, hf, he⟩ := Option.map_eq_some_iff.1 h
    cases he
    have hc : '\n' ≠ c := by
      rintro rfl
      simp [hq] at hn
    simp [ih hf, hc]

theorem exposed_argument {pre cs rest : List Char} {token : ArgumentToken} (hb : Boundary false pre cs)
    (h : ArgumentToken.Read cs token rest) : Exposed pre token.label rest := by
  cases h with
  | opening => exact exposed_of_no_mark (by simp [ArgumentToken.label]) pre _
  | closing => exact exposed_of_no_mark (by simp [ArgumentToken.label]) pre _
  | @literal q cs body rest hl =>
    by_cases hq : q = .backtick
    · subst hq
      exact fun _ _ _ _ _ _ => .inr ⟨rfl, .inr (.inr ⟨rfl, rfl, rfl⟩)⟩
    · have hs : q.spansLines = false := by simpa [Quote.spansLines] using hq
      refine exposed_of_free fun x y hx hy hi => ?_
      have hn : '\n' ∉ q.char :: body := by
        rw [List.mem_cons, not_or]
        exact ⟨(char_not_indent q).2.symm, closeLiteral_newline hs hl⟩
      exact no_tag_in_line (char_not_indent q).1 (by cases q <;> decide) hn hx hi
  | @unterminated q a _ hl hun hend =>
    refine exposed_of_free fun x y hx hy hi => ?_
    have hn : '\n' ∉ q.char :: a := by
      rw [List.mem_cons, not_or]
      exact ⟨(char_not_indent q).2.symm, newline_not_mem_of_unstopped hun⟩
    exact no_tag_in_line (char_not_indent q).1 (by cases q <;> decide) hn hx hi
  | @text a _ hne hun hend =>
    refine exposed_of_free fun x y hx hy hi => ?_
    have hun' : Unstopped startsTagBreak a rest := unstopped_mono (fun s hs => by simp [ArgumentToken.endsText, hs]) hun
    have ha : a = x ++ y := hx
    subst ha
    exact no_tag_in_unstopped hun' (hb.no_tagLine (Bool.false_and _)) hi

theorem not_mem_of_all {p : Char → Bool} {cs : List Char} {c : Char} (h : cs.all p = true) (hc : p c = false) :
    c ∉ cs := by
  intro hm
  have := List.all_eq_true.1 h c hm
  rw [hc] at this
  cases this

theorem IsTag.mark_once {tag t : List Char} (h : IsTag tag) (ht : tag = '@' :: t) : '@' ∉ t := by
  cases h with
  | plain c cs hc hcs =>
    rw [← (List.cons.inj ht).2]
    exact @not_mem_of_all isNameChar _ _ (by simp [isNameChar_of_isNameStart hc, hcs]) (by decide)
  | inline c cs hc hcs =>
    rw [← (List.cons.inj ht).2, List.mem_cons, not_or]
    exact ⟨by decide, @not_mem_of_all isNameChar _ _ (by simp [isNameChar_of_isNameStart hc, hcs]) (by decide)⟩

/-- The only tag on the line of a directive's name is the name itself. -/
theorem exposed_name {indent tag rest' : List Char} (h : TagSplit indent tag rest') (pre rest : List Char) :
    Exposed pre { kind := .directiveName, indent, lexeme := tag } rest := by
  intro x y hl hy _ ht
  obtain ⟨t, rfl⟩ := h.tag.head
  have hmark := mem_of_startsTag hy ht
  dsimp only at hl
  refine .inl ⟨rfl, ?_⟩
  rcases List.append_eq_append_iff.1 hl with ⟨a, rfl, ha⟩ | ⟨a, ha, rfl⟩
  · cases a with
    | nil => exact List.append_nil _
    | cons c a =>
      obtain ⟨-, rfl⟩ := List.cons.inj ha
      exact absurd (List.mem_append_right a hmark) (h.tag.mark_once rfl)
  · cases a with
    | nil => rw [ha, List.append_nil]
    | cons c a =>
      -- the tag would start in the indentation
      obtain ⟨r, hr⟩ := startsTag_head ht
      have hc : c = '@' := (List.cons.inj hr).1
      have hno : '@' ∉ indent := not_mem_of_all h.indent (by decide)
      rw [ha, hc] at hno
      exact absurd (by simp) hno

theorem exposed_expression {style : Mustache} {e : Enclosed} (h : e.Ends style.closing startsTagBreak)
    (pre : List Char) :
    Exposed (pre ++ style.opening) { kind := .expression, lexeme := e.body }
      ((if e.closed then style.closing else []) ++ e.rest) := by
  have hpre : endsInIndent (pre ++ style.opening) = false := by
    cases style with
    | plain => simpa [Mustache.opening] using @endsInIndent_of_last (pre ++ ['{']) '{' (by decide) (by decide)
    | safe => simpa [Mustache.opening] using @endsInIndent_of_last (pre ++ ['{', '{']) '{' (by decide) (by decide)
  have hun : Unstopped startsTagBreak e.body _ := unstopped_mono (fun s hs => by simp [hs]) h.1
  refine exposed_of_free fun x y hx _ hi => ?_
  have hx' : e.body = x ++ y := hx
  rw [hx'] at hun
  refine no_tag_in_unstopped hun (fun h => ?_) hi
  rw [hpre] at h
  cases h

theorem exposed_item {lineStart : Bool} {pre cs rest : List Char} {item : Item} (hb : Boundary lineStart pre cs)
    (h : Item.Read lineStart cs item rest) : Throughout Exposed pre item.leaves rest := by
  have hhide : ∀ {l : Label} {rest' : List Char}, l.indent = [] → l.Hides → Exposed pre l rest' :=
    fun hi hh _ _ _ _ _ _ => .inr ⟨hi, hh⟩
  cases h with
  | comment e he => exact ⟨hhide rfl (.inl rfl), trivial⟩
  | escaped e he hr => exact ⟨hhide rfl (.inr (.inl rfl)), trivial⟩
  | escapedSafe body rest he => exact ⟨hhide rfl (.inr (.inl rfl)), trivial⟩
  | interpolation style e he hp =>
    have ho : '@' ∉ style.opening := by cases style <;> decide
    have hc : '@' ∉ style.closing := by cases style <;> decide
    rw [Item.leaves]
    refine ⟨exposed_of_no_mark (by simpa using ho) _ _, (throughout_append _ _ _ _ _).2 ⟨?_, ?_⟩⟩
    · cases hbody : e.body.isEmpty with
      | true => trivial
      | false =>
        have hspell : spell (if e.closed then [{ kind := .closing style, lexeme := style.closing }] else []) =
            if e.closed then style.closing else [] := by
          cases e.closed <;> simp
        refine ⟨?_, trivial⟩
        rw [spell_nil, List.nil_append, hspell]
        exact exposed_expression he pre
    · cases e.closed with
      | true => exact ⟨exposed_of_no_mark (by simpa using hc) _ _, trivial⟩
      | false => trivial
  | directive hl hsplit hr => exact ⟨exposed_name hsplit pre _, trivial⟩
  | @arguments indent tag inner hl hsplit =>
    have hopen : Boundary false (pre ++ (indent ++ tag) ++ ['(']) inner :=
      boundary_of_last List.getLast?_concat (by decide) (by decide)
    rw [Item.leaves, List.map_cons]
    refine ⟨exposed_name hsplit pre _, exposed_of_no_mark (by simp [ArgumentToken.label]) _ _, ?_⟩
    exact throughout_scan (fun _ _ _ _ => exposed_argument) 0 hopen
  | @text a _ hne hun hend ht =>
    refine ⟨exposed_of_free fun x y hx _ hi => ?_, trivial⟩
    have hun' : Unstopped startsTagBreak a rest := unstopped_mono (fun s hs => by simp [Item.endsText, hs]) hun
    have ha : a = x ++ y := hx
    subst ha
    exact no_tag_in_unstopped hun' (hb.no_tagLine ht) hi
  | @line a _ hun hend ht =>
    refine ⟨exposed_of_free fun x y hx hy hi => ?_, trivial⟩
    -- the line end is taken along, but the run was scanned without it
    rcases List.eq_nil_or_concat y with rfl | ⟨y, c, rfl⟩
    · exact absurd rfl hy
    · rw [List.concat_eq_append] at hx ⊢
      have hx' : a ++ ['\n'] = x ++ y ++ [c] := by rw [List.append_assoc]; exact hx
      obtain ⟨rfl, hc⟩ := List.append_inj' hx' rfl
      obtain rfl : '\n' = c := by simpa using hc
      have hun' : Unstopped startsTagBreak (x ++ y) ('\n' :: rest) :=
        unstopped_mono (fun s hs => by simp [Item.endsText, hs]) hun
      have := no_tag_in_unstopped hun' (hb.no_tagLine ht) hi
      simpa using this

theorem exposed_items (text : List Char) : Throughout Exposed [] ((items true text).flatMap Item.leaves) [] :=
  throughout_items (fun _ _ _ _ _ => exposed_item) (boundary_start text)

/-! ## Nodes over a place -/

/-- The nodes in which a tag is not read. -/
def SyntaxTree.Hides (tree : SyntaxTree) (r : Record) : Prop :=
  r.kind = .comment ∨ r.kind = .escapedInterpolation ∨
    r.kind = .string ∧ r.isError = false ∧ (tree.sourceOf r).head? = some Quote.backtick.char

theorem tag_leaf {u v : List Char} (hi : endsInIndent u = true) (ht : startsTag v = true) :
    ∃ r ∈ (SyntaxTree.parse (u ++ v)).leaves, r.Covers u.length ∧
      (r.kind = .directiveName ∧ r.start = u.length ∨ (SyntaxTree.parse (u ++ v)).Hides r) := by
  have hv : v ≠ [] := by
    rintro rfl
    cases ht
  have hspell : spell ((items true (u ++ v)).flatMap Item.leaves) = u ++ v := by
    rw [spell_items_leaves, items_append]
  obtain ⟨before, l, after, x, y, hl, hy, hx, ha, hp, -, ho⟩ := (exposed_items (u ++ v)).at_offset hspell hv
  rw [List.nil_append] at hx
  rw [List.append_nil] at ha
  rw [List.length_nil, ← outline_leaves] at ho
  obtain ⟨r, hr, hro⟩ := List.mem_map.1 ho
  simp only [Record.outline, Prod.mk.injEq] at hro
  obtain ⟨hkind, herror, hstart, hstop⟩ := hro
  have hlen := congrArg List.length hl
  have hux := congrArg List.length hx
  have hypos := List.length_pos_iff.2 hy
  simp only [List.length_append] at hlen hux hstart hstop
  refine ⟨r, hr, ?_⟩
  rcases hp x y hl hy (by rw [hx]; exact hi) (by rw [ha]; exact ht) with ⟨hk, rfl⟩ | ⟨hi0, hh⟩
  · exact ⟨⟨by omega, by omega⟩, .inl ⟨hkind.trans hk, by omega⟩⟩
  · rw [hi0, List.length_nil] at hstart hstop hlen
    refine ⟨⟨by omega, by omega⟩, .inr ?_⟩
    rcases hh with hk | hk | ⟨hk, he, hq⟩
    · exact .inl (hkind.trans hk)
    · exact .inr (.inl (hkind.trans hk))
    · refine .inr (.inr ⟨hkind.trans hk, herror.trans he, ?_⟩)
      have hsource : (SyntaxTree.parse (u ++ v)).sourceOf r = l.lexeme := by
        rw [hi0, List.nil_append] at hl
        have htext : u ++ v = before ++ (l.lexeme ++ after) := by rw [hl, ← ha, ← hx]; simp
        have := slice_append before l.lexeme after
        rw [← htext, List.length_append] at this
        rw [SyntaxTree.sourceOf, hstart, hstop, Nat.add_zero, Nat.zero_add]
        exact this
      rw [hsource]
      exact hq

/-! ## Directives as records -/

/-- The kinds of top-level nodes. -/
def Kind.isItem : Kind → Bool
  | text | comment | escapedInterpolation | interpolation _ | directive _ => true
  | _ => false

theorem Kind.isItem_of_isDirective {k : Kind} (h : k.isDirective = true) : k.isItem = true := by
  cases k <;> simp_all [isDirective, isItem]

theorem Kind.isInterpolation_ofTag (tag : List Char) : (ofTag tag).isInterpolation = false := by
  unfold ofTag
  split <;> rfl

theorem Forest.children_ofItem (item : Item) : ∃ label children, ofItem nil item = node label children nil ∧
    children.Every fun l _ => l.kind.isItem = false := by
  cases item with
  | text lexeme => exact ⟨_, _, rfl, trivial⟩
  | comment lexeme closed => exact ⟨_, _, rfl, trivial⟩
  | escaped lexeme closed => exact ⟨_, _, rfl, trivial⟩
  | interpolation style body closed =>
    refine ⟨_, _, rfl, ?_⟩
    cases hb : body.isEmpty <;> cases closed <;> simp [ofInterpolation, leaf, Every, Kind.isItem, hb]
  | directive indent tag arguments =>
    refine ⟨_, _, rfl, rfl, trivial, ?_⟩
    cases arguments with
    | none => trivial
    | some tokens =>
      exact every_ofArguments (fun _ _ => rfl) (fun _ _ => rfl) (fun token => by cases token <;> rfl) tokens

theorem itemRecords_root {before : List Item} {item : Item} {k : Nat} {r : Record}
    (h : (itemRecords before item)[k]? = some r) (hk : r.kind.isItem = true) : k = 0 := by
  obtain ⟨label, children, hf, hc⟩ := Forest.children_ofItem item
  cases k with
  | zero => rfl
  | succ k =>
    rw [itemRecords, hf, Forest.records, List.getElem?_cons_succ, Forest.records, List.append_nil] at h
    obtain ⟨l, _, _, hl, hkind, -⟩ := hc.record (List.mem_of_getElem? h)
    rw [hkind, hl] at hk
    cases hk

theorem item_of_kind {text : List Char} {r : Record} (hr : r ∈ (SyntaxTree.parse text).records)
    (hk : r.kind.isItem = true) :
    ∃ before item after, items true text = before ++ item :: after ∧ (itemRecords before item)[0]? = some r := by
  have hne : r.kind ≠ .document := by
    intro hd
    rw [hd] at hk
    cases hk
  obtain ⟨before, item, after, hx, hm⟩ := mem_records_item hr hne
  obtain ⟨k, h⟩ := List.getElem?_of_mem hm
  obtain rfl := itemRecords_root h hk
  exact ⟨before, item, after, hx, h⟩

theorem directive_record {text : List Char} {i : Nat} {d : Record}
    (h : (SyntaxTree.parse text).records[i]? = some d) (hd : d.kind.isDirective = true) :
    ∃ before indent tag arguments after, items true text = before ++ .directive indent tag arguments :: after ∧
      i = 1 + (Forest.ofItems before).size ∧
      (itemRecords before (.directive indent tag arguments))[0]? = some d := by
  have hi : i ≠ 0 := by
    rintro rfl
    rw [(document_record h).1] at hd
    cases hd
  obtain ⟨before, item, after, k, hx, rfl, hr⟩ := record_item h hi
  obtain rfl := itemRecords_root hr (Kind.isItem_of_isDirective hd)
  cases item with
  | directive indent tag arguments => exact ⟨before, indent, tag, arguments, after, hx, rfl, hr⟩
  | _ =>
    rw [← Option.some.inj hr] at hd
    cases hd

theorem IsTag.length_le {tag name rest s : List Char} (ht : IsTag tag) (hn : IsTag name)
    (hr : ∀ c, rest.head? = some c → isNameChar c = false) (h : tag ++ s = name ++ rest) :
    tag.length ≤ name.length := by
  have hchars : ∀ cs cs' : List Char, cs.all isNameChar = true → cs ++ s = cs' ++ rest → cs.length ≤ cs'.length := by
    intro cs cs' hcs heq
    rcases List.append_eq_append_iff.1 heq with ⟨a, rfl, -⟩ | ⟨a, rfl, ha⟩
    · simp
    · cases a with
      | nil => simp
      | cons c a =>
        have hc := hr c (by rw [ha]; rfl)
        rw [List.all_append, List.all_cons, hc] at hcs
        simp at hcs
  have hbang : isNameStart '!' = false := by decide
  cases ht with
  | plain c cs hc hcs =>
    cases hn with
    | plain c' cs' _ _ =>
      have := hchars cs cs' hcs (by simpa using (List.cons.inj (List.cons.inj h).2).2)
      simpa using this
    | inline c' cs' _ _ =>
      rw [(List.cons.inj (List.cons.inj h).2).1, hbang] at hc
      cases hc
  | inline c cs hc hcs =>
    cases hn with
    | plain c' cs' hc' _ =>
      rw [← (List.cons.inj (List.cons.inj h).2).1, hbang] at hc'
      cases hc'
    | inline c' cs' _ _ =>
      have := hchars cs cs' hcs (List.cons.inj (List.cons.inj (List.cons.inj h).2).2).2
      simpa using this

/-- The directive at index `i` has the name and the arguments that stand in the text: its first child
spans `name`, which goes on as long as it can, and a list of arguments follows if `rest` opens one. -/
structure SyntaxTree.Describes (tree : SyntaxTree) (i : Nat) (d : Record) (name rest : List Char) : Prop where
  source : tree.text.drop d.start.toNat = name ++ rest
  tag : IsTag name
  longest : ∀ tag, IsTag tag → tag <+: name ++ rest → tag.length ≤ name.length
  kind : d.kind = .ofTag name
  first : d.children.head? = some ((i + 1 : Nat) : Int)
  named : ∃ n, tree.records[i + 1]? = some n ∧ n.kind = .directiveName ∧ n.start = d.start ∧
    n.stop = d.start + name.length
  arguments : (∃ child ∈ d.children, tree.kindAt? child = some .arguments) ↔ rest.head? = some '('

theorem itemRecords_name (before : List Item) (indent tag : List Char) (arguments : Option (List ArgumentToken)) :
    ∃ n, (itemRecords before (.directive indent tag arguments))[1]? = some n ∧ n.kind = .directiveName ∧
      n.start = (((before.flatMap Item.lexeme).length + indent.length : Nat) : Int) ∧
      n.stop = (((before.flatMap Item.lexeme).length + indent.length + tag.length : Nat) : Int) :=
  ⟨_, rfl, rfl, by simp, by simp [Forest.width]⟩

theorem Item.Read.tagSplit {lineStart : Bool} {cs indent tag rest : List Char} {arguments : Option (List ArgumentToken)}
    (h : Item.Read lineStart cs (.directive indent tag arguments) rest) :
    lineStart = true ∧ ∃ after, cs = indent ++ (tag ++ after) ∧ TagSplit indent tag after ∧
      (arguments.isSome = true ↔ after.head? = some '(') := by
  cases h with
  | directive hl hsplit hr => exact ⟨hl, rest, rfl, hsplit, by simpa using hr⟩
  | @arguments _ _ inner hl hsplit => exact ⟨hl, '(' :: inner, rfl, hsplit, by simp⟩

theorem kindAt_item {text : List Char} {before after : List Item} {item : Item}
    (h : items true text = before ++ item :: after) {k : Nat} {r : Record}
    (hr : (itemRecords before item)[k]? = some r) :
    (SyntaxTree.parse text).kindAt? ((1 + (Forest.ofItems before).size + k : Nat) : Int) = some r.kind := by
  rw [SyntaxTree.kindAt?, SyntaxTree.record?_natCast, getElem?_item h hr, Option.map_some]

theorem arguments_child {text : List Char} {before after : List Item} {indent tag : List Char}
    {arguments : Option (List ArgumentToken)} (h : items true text = before ++ .directive indent tag arguments :: after)
    {d : Record} (hd : (itemRecords before (.directive indent tag arguments))[0]? = some d) :
    (∃ child ∈ d.children, (SyntaxTree.parse text).kindAt? child = some .arguments) ↔ arguments.isSome = true := by
  obtain ⟨n, hn, hnk, -⟩ := itemRecords_name before indent tag arguments
  have hname := kindAt_item h hn
  rw [hnk] at hname
  have hd' := Option.some.inj hd
  cases arguments with
  | none =>
    refine ⟨?_, fun hs => absurd hs (by simp)⟩
    rintro ⟨child, hc, hk⟩
    rw [← hd'] at hc
    obtain rfl : child = _ := List.mem_singleton.1 hc
    rw [hname] at hk
    cases hk
  | some tokens =>
    have hargs : ∃ a, (itemRecords before (.directive indent tag (some tokens)))[2]? = some a ∧ a.kind = .arguments :=
      ⟨_, rfl, rfl⟩
    obtain ⟨a, ha, hak⟩ := hargs
    refine ⟨fun _ => rfl, fun _ => ⟨((1 + (Forest.ofItems before).size + 2 : Nat) : Int), ?_, ?_⟩⟩
    · rw [← hd']
      exact List.mem_cons_of_mem _ List.mem_cons_self
    · rw [kindAt_item h ha, hak]

theorem directive_describes {text : List Char} {i : Nat} {d : Record}
    (h : (SyntaxTree.parse text).records[i]? = some d) (hd : d.kind.isDirective = true) :
    ∃ pre indent name rest, text = pre ++ indent ++ (name ++ rest) ∧ endsInIndent (pre ++ indent) = true ∧
      d.start = ((pre ++ indent).length : Int) ∧ (SyntaxTree.parse text).Describes i d name rest := by
  obtain ⟨before, indent, name, arguments, after, hx, rfl, hr⟩ := directive_record h hd
  obtain ⟨ls, suf, rest, htext, hread, hb, -⟩ := items_read (boundary_start text) hx
  obtain ⟨hl, rest, rfl, hsplit, hargs⟩ := hread.tagSplit
  obtain ⟨n, hn, hnk, hns, hne⟩ := itemRecords_name before indent name arguments
  have hd' := Option.some.inj hr
  have hstart : d.start = ((before.flatMap Item.lexeme ++ indent).length : Int) := by
    rw [← hd', List.length_append]
  rw [← List.append_assoc] at htext
  rw [List.nil_append] at hb
  refine ⟨before.flatMap Item.lexeme, indent, name, rest, htext, ?_, hstart, ?_⟩
  · have hblank : '\n' ∉ indent := not_mem_of_all hsplit.indent (by decide)
    rw [endsInIndent_append hblank, endsInIndent_of_atLineStart (hb.start hl), hsplit.indent]
    rfl
  · refine ⟨?_, hsplit.tag, ?_, ?_, ?_, ⟨n, getElem?_item hx hn, hnk, ?_, ?_⟩, (arguments_child hx hr).trans hargs⟩
    · show text.drop _ = _
      rw [hstart, Int.toNat_natCast, htext, List.drop_left]
    · rintro tag ht ⟨s, hs⟩
      exact ht.length_le hsplit.tag hsplit.rest hs
    · rw [← hd']
    · rw [← hd']
      rfl
    · rw [hns, hstart, List.length_append]
    · rw [hne, hstart, List.length_append, Int.natCast_add]

/-! ## Where tags are read -/

theorem interpolation_free {lineStart closed : Bool} {pre cs body rest x y : List Char} {style : Mustache}
    (hb : Boundary lineStart pre cs) (h : Item.Read lineStart cs (.interpolation style body closed) rest)
    (hl : (Item.interpolation style body closed).lexeme = x ++ y) (hy : y ≠ [])
    (hi : endsInIndent (pre ++ x) = true) : startsTag (y ++ rest) = false := by
  refine Bool.eq_false_iff.2 fun ht => ?_
  have hkinds : ∀ l ∈ (Item.interpolation style body closed).leaves,
      l.kind ≠ .directiveName ∧ ¬l.Hides := by
    intro l hl
    simp only [Item.leaves, List.mem_cons, List.mem_append] at hl
    rcases hl with rfl | hl | hl
    · simp [Label.Hides]
    · split at hl
      · cases hl
      · rw [List.mem_singleton.1 hl]
        simp [Label.Hides]
    · split at hl
      · rw [List.mem_singleton.1 hl]
        simp [Label.Hides]
      · cases hl
  rw [← spell_item_leaves] at hl
  obtain ⟨before, l, after, x', y', hxy, hy', hx', ha, hp, hm, -⟩ := (exposed_item hb h).at_offset hl hy
  rcases hp x' y' hxy hy' (by rw [hx']; exact hi) (by rw [ha]; exact ht) with ⟨hk, -⟩ | ⟨-, hh⟩
  · exact (hkinds l hm).1 hk
  · exact (hkinds l hm).2 hh

theorem interpolation_not_covers {text : List Char} {p : Nat} {r : Record} (hr : r ∈ (SyntaxTree.parse text).records)
    (hk : r.kind.isInterpolation = true) (hi : endsInIndent (text.take p) = true)
    (ht : startsTag (text.drop p) = true) : ¬r.Covers p := by
  rintro ⟨hp, hp'⟩
  have hitem : r.kind.isItem = true := by
    cases h : r.kind <;> simp_all [Kind.isInterpolation, Kind.isItem]
  obtain ⟨before, item, after, hx, hk'⟩ := item_of_kind hr hitem
  obtain ⟨ls, suf, rest, htext, hread, hb, -⟩ := items_read (boundary_start text) hx
  have happ := hread.append
  have hwidth : (Forest.ofItem .nil item).width = item.lexeme.length := Forest.width_ofItem hread
  cases item with
  | interpolation style body closed =>
    have hr' := Option.some.inj hk'
    have hstart : r.start = ((before.flatMap Item.lexeme).length : Int) := by
      rw [← hr']
      rfl
    have hstop : r.stop = (((before.flatMap Item.lexeme).length +
        (Item.interpolation style body closed).lexeme.length : Nat) : Int) := by
      rw [← hr', ← hwidth]
      simp [Forest.ofItem, Forest.width]
    obtain ⟨k, rfl⟩ : ∃ k, p = (before.flatMap Item.lexeme).length + k := Nat.exists_eq_add_of_le (by omega)
    have hy : (Item.interpolation style body closed).lexeme.drop k ≠ [] := by
      rw [ne_eq, List.drop_eq_nil_iff]
      omega
    have hle : k ≤ (Item.interpolation style body closed).lexeme.length := by omega
    rw [htext, ← happ, List.take_length_add_append, List.take_append_of_le_length hle] at hi
    rw [htext, ← happ, List.drop_length_add_append, List.drop_append_of_le_length hle] at ht
    have := interpolation_free hb hread (List.take_append_drop k _).symm hy (by simpa using hi)
    rw [this] at ht
    cases ht
  | directive indent tag arguments =>
    rw [← Option.some.inj hk'] at hk
    exact absurd hk (by simp [Kind.isInterpolation_ofTag])
  | _ =>
    rw [← Option.some.inj hk'] at hk
    cases hk

theorem tag_leaf_at {text : List Char} {p : Nat} (hi : endsInIndent (text.take p) = true)
    (ht : startsTag (text.drop p) = true) :
    ∃ r ∈ (SyntaxTree.parse text).leaves, r.Covers p ∧
      (r.kind = .directiveName ∧ r.start = p ∨ (SyntaxTree.parse text).Hides r) := by
  have hp : p ≤ text.length := by
    refine Nat.le_of_not_lt fun hlt => ?_
    rw [List.drop_eq_nil_of_le (Nat.le_of_lt hlt)] at ht
    cases ht
  have := tag_leaf hi ht
  rwa [List.take_append_drop, List.length_take, Nat.min_eq_left hp] at this

theorem SyntaxTree.Hides.isLeaf {tree : SyntaxTree} {r : Record} (h : tree.Hides r) :
    r.kind.isLeaf = true ∧ r.kind ≠ .directiveName := by
  rcases h with h | h | ⟨h, -⟩
  · exact ⟨by rw [h]; rfl, by rw [h]; simp⟩
  · exact ⟨by rw [h]; rfl, by rw [h]; simp⟩
  · exact ⟨by rw [h]; rfl, by rw [h]; simp⟩

/-- Nothing that hides tags goes over the start of a directive: the name is already there. -/
theorem directive_not_hidden {text name rest : List Char} {i : Nat} {d r : Record}
    (h : (SyntaxTree.parse text).Describes i d name rest) (hr : r ∈ (SyntaxTree.parse text).records) {p : Nat}
    (hp : d.start = p) (hcov : r.Covers p) : ¬(SyntaxTree.parse text).Hides r := by
  intro hh
  obtain ⟨n, hn, hnk, hns, hne⟩ := h.named
  have hname : name ≠ [] := by
    obtain ⟨t, rfl⟩ := h.tag.head
    exact List.cons_ne_nil _ _
  have hpos := List.length_pos_iff.2 hname
  have hncov : n.Covers p := ⟨by omega, by omega⟩
  have hnl := mem_leaves_of_isLeaf (Array.mem_iff_getElem?.2 ⟨_, hn⟩) (by rw [hnk]; rfl)
  obtain rfl := leaf_unique (mem_leaves_of_isLeaf hr hh.isLeaf.1) hnl hcov hncov
  exact hh.isLeaf.2 hnk

theorem covers_tag {text : List Char} {p : Nat} {r : Record} (hi : endsInIndent (text.take p) = true)
    (ht : startsTag (text.drop p) = true) (hr : r ∈ (SyntaxTree.parse text).records) (hcov : r.Covers p)
    (hl : r.kind.isLeaf = true) : r.kind = .directiveName ∨ (SyntaxTree.parse text).Hides r := by
  obtain ⟨r', hr', hcov', hk⟩ := tag_leaf_at hi ht
  obtain rfl := leaf_unique (mem_leaves_of_isLeaf hr hl) hr' hcov hcov'
  exact hk.imp_left And.left

/-- A directive starts exactly where a tag stands that nothing hides. It has the name and the arguments
that stand there, and no other text goes over a tag. -/
theorem directive_exact (text : List Char) :
    (∀ p : Nat, (∃ d ∈ (SyntaxTree.parse text).records, d.kind.isDirective = true ∧ d.start = p) ↔
      endsInIndent (text.take p) = true ∧ startsTag (text.drop p) = true ∧
        ∀ r ∈ (SyntaxTree.parse text).records, r.Covers p → ¬(SyntaxTree.parse text).Hides r) ∧
    (∀ (i : Nat) (d : Record), (SyntaxTree.parse text).records[i]? = some d → d.kind.isDirective = true →
      ∃ name rest, (SyntaxTree.parse text).Describes i d name rest) ∧
    (∀ p : Nat, endsInIndent (text.take p) = true → startsTag (text.drop p) = true →
      ∀ r ∈ (SyntaxTree.parse text).records, r.Covers p →
        r.kind ≠ .text ∧ r.kind ≠ .expression ∧ r.kind ≠ .argumentText ∧ r.kind.isInterpolation = false ∧
          ¬(r.kind = .string ∧ r.isError = true)) := by
  refine ⟨fun p => ⟨?_, ?_⟩, ?_, ?_⟩
  · rintro ⟨d, hd, hk, hp⟩
    obtain ⟨i, hi⟩ := Array.mem_iff_getElem?.1 hd
    obtain ⟨pre, indent, name, rest, htext, hindent, hstart, hdesc⟩ := directive_describes hi hk
    refine ⟨?_, ?_, fun r hr hcov => directive_not_hidden hdesc hr hp hcov⟩
    · rw [show p = (pre ++ indent).length by omega, htext, List.take_left]
      exact hindent
    · rw [show p = (pre ++ indent).length by omega, htext, List.drop_left]
      exact hdesc.tag.startsTag rest
  · rintro ⟨hi, ht, hfree⟩
    obtain ⟨r, hr, hcov, ⟨hk, hs⟩ | hh⟩ := tag_leaf_at hi ht
    · obtain ⟨d, hd, hdk, hds⟩ := directive_of_name (mem_records_of_leaf hr) hk
      exact ⟨d, hd, hdk, hds.trans hs⟩
    · exact absurd hh (hfree r (mem_records_of_leaf hr) hcov)
  · intro i d hi hk
    obtain ⟨_, _, name, rest, -, -, -, hdesc⟩ := directive_describes hi hk
    exact ⟨name, rest, hdesc⟩
  · intro p hi ht r hr hcov
    have hcovers := covers_tag hi ht hr hcov
    have hplain : ∀ k ∈ [Kind.text, .expression, .argumentText], r.kind ≠ k := by
      rintro k hk rfl
      simp only [List.mem_cons, List.not_mem_nil, or_false] at hk
      rcases hcovers (by rcases hk with hk | hk | hk <;> rw [hk] <;> rfl) with h | h
      · rw [h] at hk
        simp at hk
      · rcases hk with hk | hk | hk <;> simp [SyntaxTree.Hides, hk] at h
    refine ⟨hplain _ (by simp), hplain _ (by simp), hplain _ (by simp), ?_, ?_⟩
    · exact Bool.eq_false_iff.2 fun hk => interpolation_not_covers hr hk hi ht hcov
    · rintro ⟨hk, he⟩
      rcases hcovers (by rw [hk]; rfl) with h | h
      · rw [hk] at h
        cases h
      · simp [SyntaxTree.Hides, hk, he] at h

end EdgeTemplate
