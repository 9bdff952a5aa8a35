import EdgeTemplate.Proofs.ClassifySound
import EdgeTemplate.Proofs.ExcerptSound

/-!
# The scan for the last mustache

Without a tree the text before a cursor is searched backwards for a pair of braces, and only the characters next to that
pair are looked at. In an expression that has no pair of its own the scan comes to the opening of the interpolation
(`endsInInterpolation_opening`). No item in front of an opening ends in a brace or an `@` (`Item.Read.last_of_opening`),
so the scan finds there what the tree says (`classify_expression`).
-/

namespace EdgeTemplate

/-! ## The scan -/

def startsPair (cs : List Char) : Bool :=
  Mustache.plain.closing.isPrefixOf cs || Mustache.plain.opening.isPrefixOf cs

theorem startsPair_cons (c d : Char) (cs : List Char) :
    startsPair (c :: d :: cs) = true ↔ c = d ∧ (c = '}' ∨ c = '{') := by
  unfold startsPair Mustache.closing Mustache.opening
  grind

theorem endsInInterpolation_cons {c : Char} {cs : List Char} (h : startsPair (c :: cs) = false) (after : List Char) :
    endsInInterpolation after (c :: cs) = endsInInterpolation (c :: after) cs := by
  rw [endsInInterpolation]
  · rintro tail rfl rfl
    simp [startsPair, Mustache.closing] at h
  · rintro tail rfl rfl
    simp [startsPair, Mustache.opening] at h

theorem endsInInterpolation_append {a b : List Char} (h : Unstopped startsPair a b) (after : List Char) :
    endsInInterpolation after (a ++ b) = endsInInterpolation (a.reverse ++ after) b := by
  induction a generalizing after with
  | nil => rfl
  | cons c a ih => rw [List.cons_append, endsInInterpolation_cons h.1, ih h.2, List.reverse_cons, List.append_assoc,
      List.singleton_append]

/-- The text has no pair of equal braces. -/
def Unpaired (cs : List Char) : Prop := ¬Mustache.plain.opening <:+: cs ∧ ¬Mustache.plain.closing <:+: cs

theorem Unpaired.sub {a cs : List Char} (h : Unpaired cs) (ha : a <:+: cs) : Unpaired a :=
  ⟨fun ho => h.1 (ho.trans ha), fun hc => h.2 (hc.trans ha)⟩

theorem Unpaired.startsPair_eq {cs : List Char} (h : Unpaired cs) : startsPair cs = false := by
  rw [startsPair, Bool.or_eq_false_iff]
  constructor
  · rw [Bool.eq_false_iff]
    intro hc
    exact h.2 (List.isPrefixOf_iff_prefix.1 hc).isInfix
  · rw [Bool.eq_false_iff]
    intro ho
    exact h.1 (List.isPrefixOf_iff_prefix.1 ho).isInfix

/-- A text without pairs has none backwards either, if none arises with what comes after. -/
theorem Unpaired.reverse {y b : List Char} (h : Unpaired y) (hh : ∀ c, y.head? = some c → startsPair (c :: b) = false) :
    Unstopped startsPair y.reverse b := by
  induction y generalizing b with
  | nil => trivial
  | cons c y ih =>
    rw [List.reverse_cons, unstopped_append]
    refine ⟨ih (h.sub (List.suffix_cons c y).isInfix) ?_, hh c rfl, trivial⟩
    intro d hd
    obtain ⟨y, rfl⟩ := List.head?_eq_some_iff.1 hd
    have hpair := h.startsPair_eq
    rw [Bool.eq_false_iff, ne_eq, startsPair_cons] at hpair
    rw [Bool.eq_false_iff, List.singleton_append, ne_eq, startsPair_cons]
    rintro ⟨rfl, hb⟩
    exact hpair ⟨rfl, hb⟩

/-- Two or more braces open an interpolation, unless an `@` stands before them or a comment begins behind just two. -/
theorem endsInInterpolation_braces {pre y : List Char} {k : Nat} (hbrace : pre.getLast? ≠ some '{')
    (hat : pre.getLast? ≠ some '@') (hy : Unpaired y) (hhead : y.head? ≠ some '{')
    (hcomment : k = 0 → ['-', '-'].isPrefixOf y = false) :
    endsInInterpolation [] (pre ++ (List.replicate (k + 2) '{' ++ y)).reverse = true := by
  have hrun : Unstopped startsPair y.reverse ('{' :: '{' :: (List.replicate k '{' ++ pre.reverse)) := by
    apply hy.reverse
    intro c hc
    rw [Bool.eq_false_iff, ne_eq, startsPair_cons]
    rintro ⟨rfl, -⟩
    exact hhead hc
  have hdrop : (List.replicate k '{' ++ pre.reverse).dropWhile (· == '{') = pre.reverse := by
    rw [List.dropWhile_append_of_pos (by simp +contextual [List.mem_replicate])]
    cases hr : pre.reverse with
    | nil => rfl
    | cons c r =>
      rw [List.getLast?_eq_head?_reverse, hr] at hbrace
      rw [List.dropWhile_cons_of_neg]
      simpa using hbrace
  have hrev : (pre ++ (List.replicate (k + 2) '{' ++ y)).reverse =
      y.reverse ++ '{' :: '{' :: (List.replicate k '{' ++ pre.reverse) := by
    rw [List.reverse_append, List.reverse_append, List.reverse_replicate, List.append_assoc]
    rfl
  rw [hrev, endsInInterpolation_append hrun, List.reverse_reverse, List.append_nil, endsInInterpolation, hdrop,
    ← List.getLast?_eq_head?_reverse]
  cases k with
  | zero => simp [hcomment rfl, hat]
  | succ k => simp [List.replicate_succ, hat]

theorem endsInInterpolation_opening {style : Mustache} {pre x : List Char} (hbrace : pre.getLast? ≠ some '{')
    (hat : pre.getLast? ≠ some '@') (hx : Unpaired x)
    (hplain : style = .plain → x.head? ≠ some '{' ∧ ['-', '-'].isPrefixOf x = false) :
    endsInInterpolation [] (pre ++ (style.opening ++ x)).reverse = true := by
  cases style with
  | plain => exact endsInInterpolation_braces (k := 0) hbrace hat hx (hplain rfl).1 fun _ => (hplain rfl).2
  | safe =>
    by_cases hhead : x.head? = some '{'
    · -- the expression's own first brace counts with those of the opening
      obtain ⟨y, rfl⟩ := List.head?_eq_some_iff.1 hhead
      refine endsInInterpolation_braces (k := 2) hbrace hat (hx.sub (List.suffix_cons _ y).isInfix) ?_ nofun
      intro hy
      obtain ⟨z, rfl⟩ := List.head?_eq_some_iff.1 hy
      exact hx.1 ⟨[], z, rfl⟩
    · exact endsInInterpolation_braces (k := 1) hbrace hat hx hhead nofun

/-! ## What stands before an opening -/

theorem not_opening_of_stop {cs : List Char} (h : cs = [] ∨ startsTagBreak cs = true) :
    Mustache.plain.opening.isPrefixOf cs = false := by
  rcases h with rfl | h
  · rfl
  · obtain ⟨r, rfl, -⟩ := startsTagBreak_head h
    rfl

theorem not_mark_of_nameChar {c : Char} (h : isNameChar c = true) : c ≠ '{' ∧ c ≠ '@' := by
  constructor
  · rintro rfl
    exact absurd h (by decide)
  · rintro rfl
    exact absurd h (by decide)

/-- An item that is not closed is followed by nothing or by a tag line, and all others end in a character that is not
part of an opening. -/
theorem Item.Read.last_of_opening {lineStart : Bool} {cs rest : List Char} {item : Item}
    (h : Read lineStart cs item rest) (hr : Mustache.plain.opening.isPrefixOf rest = true) :
    ∃ init c, item.lexeme = init ++ [c] ∧ c ≠ '{' ∧ c ≠ '@' := by
  have hclosed : (Forest.ofItem .nil item).hasUnclosed = false := by
    rw [Bool.eq_false_iff]
    intro hu
    rw [not_opening_of_stop ((h.rest_of_unclosed hu).imp_right fun hb => hb.1)] at hr
    cases hr
  cases h with
  | comment e he =>
    have hc : e.closed = true := by simpa [Forest.ofItem, Forest.hasUnclosed, Label.isUnclosed] using hclosed
    exact ⟨commentOpening ++ e.body ++ ['-', '-', '}'], '}', by simp [lexeme, Enclosed.lexeme, hc, commentClosing],
      by decide, by decide⟩
  | escaped e he _ =>
    have hc : e.closed = true := by simpa [Forest.ofItem, Forest.hasUnclosed, Label.isUnclosed] using hclosed
    exact ⟨escapedOpening ++ e.body ++ ['}'], '}', by simp [lexeme, Enclosed.lexeme, hc, Mustache.closing],
      by decide, by decide⟩
  | escapedSafe body rest he =>
    exact ⟨escapedOpening ++ body ++ ['}', '}'], '}', by simp [lexeme, Mustache.closing], by decide, by decide⟩
  | interpolation style e he _ =>
    have hc : e.closed = true := by
      simp only [Forest.ofItem, Forest.hasUnclosed, Label.isUnclosed, Bool.or_eq_false_iff] at hclosed
      simpa using hclosed.1.1
    cases style with
    | plain =>
      exact ⟨Mustache.plain.opening ++ e.body ++ ['}'], '}', by simp [lexeme, hc, Mustache.closing], by decide,
        by decide⟩
    | safe =>
      exact ⟨Mustache.safe.opening ++ e.body ++ ['}', '}'], '}', by simp [lexeme, hc, Mustache.closing], by decide,
        by decide⟩
  | @directive indent tag rest _ hs _ =>
    obtain ⟨t, c, rfl, hc⟩ := hs.tag.last
    exact ⟨indent ++ t, c, by simp [lexeme], not_mark_of_nameChar hc⟩
  | @arguments indent tag inner _ _ =>
    have hcl : ArgumentToken.Closes 0 (ArgumentToken.scan 0 inner).1 := by
      rcases Forest.nest_scan_zero inner with hn | ⟨-, hn⟩
      · simp [ArgumentToken.Closes, hn]
      · rw [not_opening_of_stop (ArgumentToken.next?_eq_none_iff.1 hn)] at hr
        cases hr
    obtain ⟨init, hi⟩ := ArgumentToken.scan_last 0 hcl
    exact ⟨indent ++ tag ++ '(' :: init.flatMap ArgumentToken.lexeme, ')',
      by simp [lexeme, hi, ArgumentToken.lexeme], by decide, by decide⟩
  | @text a b hne ha _ _ =>
    obtain ⟨init, c, rfl⟩ := (List.eq_nil_or_concat' a).resolve_left hne
    have hstop := unstopped_at ha (List.cons_ne_nil c [])
    obtain ⟨r, rfl⟩ := List.isPrefixOf_iff_prefix.1 hr
    refine ⟨init, c, rfl, ?_, ?_⟩
    · rintro rfl
      simp [endsText, Mustache.opening] at hstop
    · rintro rfl
      simp [endsText, escapedOpening, Mustache.opening] at hstop
  | @line a b _ _ _ => exact ⟨a, '\n', rfl, by decide, by decide⟩

theorem last_before_opening {text : List Char} {before after : List Item} {item : Item}
    (h : items true text = before ++ item :: after) (ho : Mustache.plain.opening.isPrefixOf item.lexeme = true) :
    (before.flatMap Item.lexeme).getLast? ≠ some '{' ∧ (before.flatMap Item.lexeme).getLast? ≠ some '@' := by
  rcases List.eq_nil_or_concat' before with rfl | ⟨init, last, rfl⟩
  · simp
  · rw [List.append_assoc] at h
    obtain ⟨ls, suf, rest, -, hread, -, hrest⟩ := items_read (boundary_start text) h
    have hopen : Mustache.plain.opening.isPrefixOf rest = true := by
      rw [← items_append last.endsLine rest, hrest]
      exact isPrefixOf_extend ho _
    obtain ⟨body, c, hlast, hc⟩ := hread.last_of_opening hopen
    simpa [hlast] using hc

/-! ## Expressions -/

section

variable {text : List Char} {i : Nat} {e : Record}

theorem kind_label_ne_expression (token : ArgumentToken) : token.label.kind ≠ .expression := by
  cases token <;> nofun

theorem expression_item (h : e ∈ (SyntaxTree.parse text).records) (hk : e.kind = .expression) :
    ∃ before style body closed after, items true text = before ++ .interpolation style body closed :: after ∧
      e ∈ itemRecords before (.interpolation style body closed) := by
  obtain ⟨before, item, after, hx, he⟩ := mem_records_item h (by simp [hk])
  obtain ⟨ls, suf, rest, -, hread, -⟩ := items_read (boundary_start text) hx
  obtain ⟨front, l, back, hl, ho⟩ := mem_outlines (outline_item hread he (by simp [hk, Kind.isLeaf]))
  have hmem : l ∈ item.leaves := by simp [hl]
  have hlk : l.kind = .expression := (congrArg (·.1) ho).symm.trans hk
  cases item with
  | interpolation style body closed => exact ⟨before, style, body, closed, after, hx, he⟩
  | directive indent tag arguments =>
    exfalso
    cases arguments with
    | none =>
      obtain rfl := List.mem_singleton.1 hmem
      cases hlk
    | some tokens =>
      rcases List.mem_cons.1 hmem with rfl | hmem
      · cases hlk
      · obtain ⟨token, -, rfl⟩ := List.mem_map.1 hmem
        exact kind_label_ne_expression token hlk
  | _ =>
    obtain rfl := List.mem_singleton.1 hmem
    cases hlk

theorem Forest.mem_records_leaf {kind : Kind} {lexeme : List Char} {siblings : Forest} {parent : Option Nat}
    {offset index : Nat} {r : Record} : r ∈ (leaf kind lexeme siblings).records parent offset index ↔
      r = record parent offset index { kind, lexeme } nil ∨
        r ∈ siblings.records parent (offset + lexeme.length) (index + 1) := by
  rw [leaf, records, List.mem_cons]
  rfl

theorem Forest.mem_records_ofInterpolation {style : Mustache} {body : List Char} {closed : Bool} {parent : Option Nat}
    {offset index : Nat} (h : e ∈ (ofInterpolation style body closed).records parent offset index)
    (hk : e.kind = .expression) :
    e.parent = parent ∧ e.start = (offset + style.opening.length : Nat) ∧
      e.stop = (offset + style.opening.length + body.length : Nat) := by
  have hending : ∀ offset index,
      e ∉ (if closed then leaf (.closing style) style.closing nil else nil).records parent offset index := by
    intro offset index he
    cases closed with
    | false => cases he
    | true =>
      rcases mem_records_leaf.1 he with rfl | he
      · cases hk
      · cases he
  rw [ofInterpolation, mem_records_leaf] at h
  rcases h with rfl | h
  · cases hk
  · split at h
    · exact absurd h (hending _ _)
    · rcases mem_records_leaf.1 h with rfl | h
      · exact ⟨rfl, rfl, rfl⟩
      · exact absurd h (hending _ _)

theorem expression_record {before : List Item} {style : Mustache} {body : List Char} {closed : Bool}
    (h : e ∈ itemRecords before (.interpolation style body closed)) (hk : e.kind = .expression) :
    e.parent = some (1 + (Forest.ofItems before).size) ∧
      e.start = ((before.flatMap Item.lexeme ++ style.opening).length : Int) ∧
      e.stop = ((before.flatMap Item.lexeme ++ style.opening ++ body).length : Int) := by
  rw [itemRecords, Forest.ofItem, Forest.records, Forest.records, List.append_nil, List.mem_cons] at h
  rcases h with rfl | h
  · cases hk
  · simpa [Nat.add_assoc, Int.add_assoc] using Forest.mem_records_ofInterpolation h hk

theorem interpolation_record {before after : List Item} {style : Mustache} {body : List Char} {closed : Bool}
    (h : items true text = before ++ .interpolation style body closed :: after) : ∃ r : Record,
      (SyntaxTree.parse text).records[1 + (Forest.ofItems before).size]? = some r ∧
      r.kind.isInterpolation = true ∧ r.isError = !closed ∧ r.hasError = !closed ∧
      r.start = ((before.flatMap Item.lexeme).length : Int) ∧
      r.stop = ((before.flatMap Item.lexeme ++ style.opening ++ body).length +
        (if closed then style.closing else []).length : Nat) := by
  obtain ⟨ls, suf, rest, -, hread, -⟩ := items_read (boundary_start text) h
  have herr : (Forest.ofInterpolation style body closed).hasError = false := by
    cases hb : body.isEmpty <;> cases closed <;> simp [Forest.ofInterpolation, Forest.leaf, Forest.hasError, hb]
  obtain ⟨r, hr, hk, he, hh⟩ : ∃ r, (itemRecords before (.interpolation style body closed))[0]? = some r ∧
      r.kind.isInterpolation = true ∧ r.isError = !closed ∧
      r.hasError = (!closed || (Forest.ofInterpolation style body closed).hasError) := ⟨_, rfl, rfl, rfl, rfl⟩
  obtain ⟨hstart, hstop, -⟩ := itemRecords_first hr
  refine ⟨r, getElem?_item h hr, hk, he, ?_, ?_, ?_⟩
  · rw [hh, herr, Bool.or_false]
  · simp [hstart, Item.indent]
  · rw [hstop, Forest.width_ofItem hread, Item.lexeme]
    simp only [List.length_append, Nat.add_assoc]

/-! ## Both ways agree -/

theorem text_interpolation {before after : List Item} {style : Mustache} {body : List Char} {closed : Bool}
    (h : items true text = before ++ .interpolation style body closed :: after) :
    ∃ rest, text = before.flatMap Item.lexeme ++ style.opening ++
      (body ++ ((if closed then style.closing else []) ++ rest)) := by
  obtain ⟨ls, suf, rest, htext, hread, -⟩ := items_read (boundary_start text) h
  rw [htext, ← hread.append, Item.lexeme]
  exact ⟨rest, by simp⟩

theorem scan_interpolation {before after : List Item} {style : Mustache} {body x : List Char} {closed : Bool}
    (h : items true text = before ++ .interpolation style body closed :: after) (hx : x <+: body) (hp : Unpaired x) :
    endsInInterpolation [] (before.flatMap Item.lexeme ++ (style.opening ++ x)).reverse = true := by
  have hopen : Mustache.plain.opening.isPrefixOf (Item.interpolation style body closed).lexeme = true := by
    cases style <;> rfl
  obtain ⟨hbrace, hat⟩ := last_before_opening h hopen
  refine endsInInterpolation_opening hbrace hat hp ?_
  rintro rfl
  obtain ⟨ls, suf, rest, -, hread, -⟩ := items_read (boundary_start text) h
  cases hread with
  | interpolation _ c _ hplain =>
    obtain ⟨y, hy⟩ := hx
    obtain ⟨hcomment, hsafe⟩ := hplain rfl
    rw [Enclosed.lexeme, ← hy, List.append_assoc, List.append_assoc, ← List.append_assoc] at hcomment hsafe
    constructor
    · intro hhead
      obtain ⟨z, rfl⟩ := List.head?_eq_some_iff.1 hhead
      exact absurd (isPrefixOf_cutOff hsafe) (by simp [Mustache.opening])
    · simpa [Item.commentOpening, Mustache.opening] using isPrefixOf_cutOff hcomment

end

/-- Up to its end an expression is taken for an interpolation by the scan. The tree decides so too inside the
expression, and at its end if the interpolation is closed. -/
theorem classify_expression {text : List Char} {i offset : Nat} {e : Record} {position : Position}
    (he : (SyntaxTree.parse text).records[i]? = some e) (hk : e.kind = .expression)
    (hp : Unpaired ((SyntaxTree.parse text).sourceOf e))
    (ho : (SyntaxTree.parse text).lines.offsetAt position = some offset) (hstart : e.start ≤ offset)
    (hstop : offset ≤ e.stop) :
    Context.atPosition text position = .interpolation ∧ ∃ (p : Nat) (r : Record), e.parent = some p ∧
      (SyntaxTree.parse text).records[p]? = some r ∧ r.kind.isInterpolation = true ∧
      (offset < e.stop ∨ r.isError = false →
        (classify (some (SyntaxTree.parse text)) text position).context = .interpolation) := by
  obtain ⟨before, style, body, closed, after, hx, hmem⟩ := expression_item (Array.mem_of_getElem? he) hk
  obtain ⟨hparent, hes, het⟩ := expression_record hmem hk
  obtain ⟨rest, htext⟩ := text_interpolation hx
  have hsource : (SyntaxTree.parse text).sourceOf e = body := by
    rw [SyntaxTree.sourceOf, hes, het]
    show slice text _ _ = _
    rw [htext, slice_append]
  obtain ⟨n, hn, hle⟩ : ∃ n, offset = (before.flatMap Item.lexeme ++ style.opening).length + n ∧ n ≤ body.length := by
    refine ⟨offset - (before.flatMap Item.lexeme ++ style.opening).length, ?_, ?_⟩
    · omega
    · rw [List.length_append] at het
      omega
  have hscan : Context.atPosition text position = .interpolation := by
    have htake : text.take offset = before.flatMap Item.lexeme ++ (style.opening ++ body.take n) := by
      rw [htext, hn, List.take_length_add_append, List.take_append_of_le_length hle, List.append_assoc]
    have hfound := scan_interpolation hx (List.take_prefix n body)
      ((hsource ▸ hp).sub (List.take_prefix n body).isInfix)
    have ho' : (LineIndex.ofText text).offsetAt position = some offset := ho
    rw [Context.atPosition, ho']
    dsimp only
    rw [Context.ofText, htake, if_pos hfound]
  obtain ⟨r, hr, hrk, hre, hrh, hrs, hrt⟩ := interpolation_record hx
  refine ⟨hscan, _, r, hparent, hr, hrk, fun hin => ?_⟩
  have hlen := congrArg List.length htext
  simp only [List.length_append] at hlen hes het hrt
  cases closed with
  | true =>
    have hclosing : 0 < style.closing.length := by cases style <;> decide
    rw [if_pos rfl] at hlen hrt
    have hcovers : r.Covers offset := ⟨by omega, by omega⟩
    exact classify_eq ho (by omega) (no_error_of_item hr (Kind.isItem_of_isInterpolation hrk) hcovers hrh)
      (.interpolation ⟨r, Array.mem_of_getElem? hr, hrk, hcovers⟩)
  | false =>
    -- the interpolation is an error itself, so the text decides
    have hlt : offset < e.stop := hin.resolve_right (by simp [hre])
    rw [classify_error ho (by omega) ⟨r, Array.mem_of_getElem? hr, hre, by omega, by omega⟩]
    exact hscan

/-- A fourth brace belongs to the expression; its end is looked at. -/
theorem classify_expression_braces :
    let text := "@{{ a }}\n@if(b)\n{{{{ c }}}}".toList
    let tree := SyntaxTree.parse text
    ∃ e : Record, tree.records[12]? = some e ∧ e.kind = .expression ∧ Unpaired (tree.sourceOf e) ∧
      tree.lines.offsetAt ⟨2, 7⟩ = some 23 ∧ e.start ≤ (23 : Nat) ∧ (23 : Nat) ≤ e.stop ∧
      Context.atPosition text ⟨2, 7⟩ = .interpolation ∧ ∃ (p : Nat) (r : Record), e.parent = some p ∧
        tree.records[p]? = some r ∧ r.kind.isInterpolation = true ∧
        ((23 : Nat) < e.stop ∨ r.isError = false →
          (classify (some tree) text ⟨2, 7⟩).context = .interpolation) := by
  intro text tree
  have hfound : (tree.records[12]?).any (fun e => e.kind = .expression ∧ e.start = 19 ∧ e.stop = 23) = true := by
    decide +kernel
  have ho : tree.lines.offsetAt ⟨2, 7⟩ = some 23 := by decide +kernel
  obtain ⟨e, he, hspan⟩ := (Option.any_eq_true _ _).1 hfound
  obtain ⟨hk, hstart, hstop⟩ := of_decide_eq_true hspan
  have hsource : tree.sourceOf e = ['{', ' ', 'c', ' '] := by
    rw [SyntaxTree.sourceOf, hstart, hstop]
    decide +kernel
  have hp : Unpaired (tree.sourceOf e) := by
    rw [hsource]
    exact ⟨by rw [← occursIn_iff]; decide, by rw [← occursIn_iff]; decide⟩
  exact ⟨e, he, hk, hp, ho, by omega, by omega, classify_expression he hk hp ho (by omega) (by omega)⟩

end EdgeTemplate
