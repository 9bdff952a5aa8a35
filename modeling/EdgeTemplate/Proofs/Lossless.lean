import EdgeTemplate.Proofs.GrammarSound
import EdgeTemplate.Proofs.RecordSound

/-!
# Nothing is lost

Every text can be read to its end, and each token becomes one leaf of the tree. The leaves follow one
another in the text, and all that is left between them is the indentation of tag lines
(`parse_lossless`).
-/

namespace EdgeTemplate

/-! ## Tokens and leaves -/

theorem spell_tokens (tokens : List Token) : spell (tokens.map Token.label) = tokens.flatMap (·.lexeme) := by
  induction tokens with
  | nil => rfl
  | cons t tokens ih => rw [List.map_cons, spell_cons, Token.label_append, ih, List.flatMap_cons]

theorem label_tokens {lineStart : Bool} {cs rest : List Char} {item : Item} (h : Item.Read lineStart cs item rest) :
    item.tokens.map Token.label = item.leaves := by
  have htoken : ∀ tokens : List ArgumentToken,
      (tokens.map ArgumentToken.token).map Token.label = tokens.map ArgumentToken.label := by
    intro tokens
    rw [List.map_map]
    refine List.map_congr_left fun token _ => ?_
    cases token <;> rfl
  cases h with
  | comment e he => cases hc : e.closed <;> rfl
  | escaped e he hr => cases hc : e.closed <;> rfl
  | escapedSafe body rest he => rfl
  | interpolation style e he hp =>
    cases hb : e.body.isEmpty <;> cases hc : e.closed <;>
      simp [Item.tokens, Item.leaves, hb, Token.label, Terminal.kind, Terminal.isError]
  | directive hl hsplit hr => simp [Item.tokens, Item.leaves, label_tagName hsplit]
  | arguments hl hsplit =>
    rw [Item.tokens, Item.leaves, List.map_cons, htoken, label_tagName hsplit]
  | text hne hun hb ht => rfl
  | line hun hb ht => rfl

theorem label_items {xs : List Item} (h : ∀ item ∈ xs, ∃ ls suf rest, Item.Read ls suf item rest) :
    (xs.flatMap Item.tokens).map Token.label = xs.flatMap Item.leaves := by
  induction xs with
  | nil => rfl
  | cons item xs ih =>
    obtain ⟨ls, suf, rest, hr⟩ := h item (by simp)
    rw [List.flatMap_cons, List.map_append, label_tokens hr, ih fun i hi => h i (by simp [hi]), List.flatMap_cons]

/-! ## Where leaves stand -/

/-- A leaf is not empty, and only the name of a directive that starts its line has blanks before it. -/
def Placed (pre : List Char) (l : Label) (_ : List Char) : Prop :=
  l.lexeme ≠ [] ∧ (l.indent = [] ∨ l.kind = .directiveName ∧ atLineStart pre = true ∧
    l.indent.all isIndent = true ∧ ∃ t, l.lexeme = '@' :: t)

theorem placed_argument {cs rest : List Char} {token : ArgumentToken} (h : ArgumentToken.Read cs token rest)
    (pre : List Char) : Placed pre token.label rest := by
  cases h with
  | text hne hun hend => exact ⟨hne, .inl rfl⟩
  | _ => exact ⟨List.cons_ne_nil _ _, .inl rfl⟩

theorem placed_item {lineStart : Bool} {pre cs rest : List Char} {item : Item} (hb : Boundary lineStart pre cs)
    (h : Item.Read lineStart cs item rest) : Throughout Placed pre item.leaves rest := by
  have hname : ∀ {indent tag rest' after : List Char}, lineStart = true → TagSplit indent tag rest' →
      Placed pre { kind := .directiveName, indent, lexeme := tag } after := by
    intro indent tag rest' after hl hsplit
    obtain ⟨t, rfl⟩ := hsplit.tag.head
    exact ⟨List.cons_ne_nil _ _, .inr ⟨rfl, hb.start hl, hsplit.indent, t, rfl⟩⟩
  cases h with
  | comment e he => exact ⟨⟨by simp [Item.commentOpening], .inl rfl⟩, trivial⟩
  | escaped e he hr => exact ⟨⟨by simp [Item.escapedOpening], .inl rfl⟩, trivial⟩
  | escapedSafe body rest he => exact ⟨⟨by simp [Item.escapedOpening], .inl rfl⟩, trivial⟩
  | interpolation style e he hp =>
    have ho : style.opening ≠ [] := by cases style <;> simp [Mustache.opening]
    have hc : style.closing ≠ [] := by cases style <;> simp [Mustache.closing]
    rw [Item.leaves]
    refine ⟨⟨ho, .inl rfl⟩, (throughout_append _ _ _ _ _).2 ⟨?_, ?_⟩⟩
    · cases hbody : e.body.isEmpty with
      | true => trivial
      | false =>
        have : e.body ≠ [] := fun h0 => by rw [h0] at hbody; cases hbody
        exact ⟨⟨this, .inl rfl⟩, trivial⟩
    · cases e.closed with
      | true => exact ⟨⟨hc, .inl rfl⟩, trivial⟩
      | false => trivial
  | directive hl hsplit hr => exact ⟨hname hl hsplit, trivial⟩
  | @arguments indent tag inner hl hsplit =>
    have hopen : Boundary false (pre ++ (indent ++ tag) ++ ['(']) inner :=
      boundary_of_last List.getLast?_concat (by decide) (by decide)
    rw [Item.leaves, List.map_cons]
    refine ⟨hname hl hsplit, ⟨List.cons_ne_nil _ _, .inl rfl⟩, ?_⟩
    exact throughout_scan (fun pre _ _ _ _ hr => placed_argument hr pre) 0 hopen
  | text hne hun hend ht => exact ⟨⟨hne, .inl rfl⟩, trivial⟩
  | line hun hend ht => exact ⟨⟨by simp, .inl rfl⟩, trivial⟩

theorem placed_items (text : List Char) : Throughout Placed [] ((items true text).flatMap Item.leaves) [] :=
  throughout_items (fun _ _ _ _ _ => placed_item) (boundary_start text)

/-! ## Spans and what lies between them -/

/-- The spans before, between and after the given ones, from `offset` to `stop`. -/
def gaps (offset stop : Int) : List (Int × Int) → List (Int × Int)
  | [] => [(offset, stop)]
  | (i, j) :: spans => (offset, i) :: gaps j stop spans

/-- The given spans together with what lies between them, in order. -/
def pieces (offset stop : Int) : List (Int × Int) → List (Int × Int)
  | [] => [(offset, stop)]
  | (i, j) :: spans => (offset, i) :: (i, j) :: pieces j stop spans

theorem slice_append (a b c : List Char) : slice (a ++ (b ++ c)) (a.length : Int) ((a ++ b).length : Int) = b := by
  rw [slice_natCast, ← List.append_assoc, List.take_left, List.drop_left]

theorem pieces_outlines (pre : List Char) (ls : List Label) :
    (pieces pre.length (pre ++ spell ls).length ((outlines pre.length ls).map (·.2.2))).flatMap
      (fun span => slice (pre ++ spell ls) span.1 span.2) = spell ls := by
  induction ls generalizing pre with
  | nil =>
    have := slice_append pre [] []
    simpa [pieces, outlines] using this
  | cons l ls ih =>
    have hrest := ih (pre ++ l.indent ++ l.lexeme)
    have hindent := slice_append pre l.indent (l.lexeme ++ spell ls)
    have hlexeme := slice_append (pre ++ l.indent) l.lexeme (spell ls)
    simp only [List.length_append, List.append_assoc] at hrest hindent hlexeme
    simp only [outlines, List.map_cons, pieces, List.flatMap_cons, spell_cons, List.length_append, List.append_assoc,
      Nat.add_assoc, hindent, hlexeme, hrest]

/-- Every gap is empty or the indentation of a leaf. -/
theorem gaps_outlines {P : List Char → Label → List Char → Prop} {pre : List Char} {ls : List Label}
    (h : Throughout P pre ls []) {gap : Int × Int}
    (hg : gap ∈ gaps pre.length (pre ++ spell ls).length ((outlines pre.length ls).map (·.2.2))) :
    gap.1 = gap.2 ∨ ∃ before l after, pre ++ spell ls = before ++ (l.indent ++ (l.lexeme ++ after)) ∧
      P before l after ∧ gap = ((before.length : Int), ((before ++ l.indent).length : Int)) ∧
      ∃ stop, (l.kind, l.isError, gap.2, stop) ∈ outlines pre.length ls := by
  induction ls generalizing pre with
  | nil =>
    rw [outlines, List.map_nil, gaps, List.mem_singleton] at hg
    exact .inl (by rw [hg, spell_nil, List.append_nil])
  | cons l ls ih =>
    rw [outlines, List.map_cons, gaps, List.mem_cons] at hg
    rcases hg with rfl | hg
    · refine .inr ⟨pre, l, spell ls, by simp, by simpa using h.1, by simp, ?_⟩
      exact ⟨_, by rw [outlines]; exact List.mem_cons_self⟩
    · have hlen : pre.length + l.indent.length + l.lexeme.length = (pre ++ (l.indent ++ l.lexeme)).length := by
        simp [Nat.add_assoc]
      have happ : pre ++ spell (l :: ls) = pre ++ (l.indent ++ l.lexeme) ++ spell ls := by simp
      rw [hlen, happ] at hg
      rcases ih h.2 hg with hg | ⟨before, l', after, htext, hp, hgap, stop, hmem⟩
      · exact .inl hg
      · refine .inr ⟨before, l', after, by rw [happ, htext], hp, hgap, stop, ?_⟩
        rw [outlines, hlen]
        exact List.mem_cons_of_mem _ hmem

theorem le_of_mem_outlines {offset : Nat} {ls : List Label} {o : Kind × Bool × Int × Int}
    (ho : o ∈ outlines offset ls) : (offset : Int) ≤ o.2.2.1 := by
  obtain ⟨before, l, after, -, rfl⟩ := mem_outlines ho
  simp only [Int.ofNat_le]
  omega

theorem pairwise_outlines (offset : Nat) (ls : List Label) :
    (outlines offset ls).Pairwise fun a b => a.2.2.2 ≤ b.2.2.1 := by
  induction ls generalizing offset with
  | nil => exact List.Pairwise.nil
  | cons l ls ih =>
    rw [outlines, List.pairwise_cons]
    exact ⟨fun o ho => le_of_mem_outlines ho, ih _⟩

theorem leaves_pairwise (text : List Char) :
    (SyntaxTree.parse text).leaves.Pairwise fun a b => a.stop ≤ b.start := by
  have := pairwise_outlines 0 ((items true text).flatMap Item.leaves)
  rw [← outline_leaves, List.pairwise_map] at this
  exact this

/-- A node is over the places of its span. -/
def Record.Covers (r : Record) (p : Nat) : Prop := r.start ≤ p ∧ (p : Int) < r.stop

/-- Of nodes that follow one another only one is over a place. -/
theorem covers_unique {α : Type} {record : α → Record} {l : List α}
    (h : l.Pairwise fun a b => (record a).stop ≤ (record b).start) {p : Nat} {a b : α} (ha : a ∈ l) (hb : b ∈ l)
    (hap : (record a).Covers p) (hbp : (record b).Covers p) : a = b := by
  obtain ⟨i, hi, rfl⟩ := List.getElem_of_mem ha
  obtain ⟨j, hj, rfl⟩ := List.getElem_of_mem hb
  rw [List.pairwise_iff_getElem] at h
  obtain ⟨ha1, ha2⟩ := hap
  obtain ⟨hb1, hb2⟩ := hbp
  rcases Nat.lt_trichotomy i j with hij | rfl | hij
  · have := h i j hi hj hij
    omega
  · rfl
  · have := h j i hj hi hij
    omega

theorem leaf_unique {text : List Char} {p : Nat} {a b : Record} (ha : a ∈ (SyntaxTree.parse text).leaves)
    (hb : b ∈ (SyntaxTree.parse text).leaves) (hap : a.Covers p) (hbp : b.Covers p) : a = b :=
  covers_unique (leaves_pairwise text) ha hb hap hbp

def SyntaxTree.leafSpans (tree : SyntaxTree) : List (Int × Int) := tree.leaves.map fun r => (r.start, r.stop)

theorem leafSpans_eq (text : List Char) :
    (SyntaxTree.parse text).leafSpans = (outlines 0 ((items true text).flatMap Item.leaves)).map (·.2.2) := by
  rw [SyntaxTree.leafSpans, ← outline_leaves, List.map_map]
  rfl

theorem leaf_placed {text : List Char} {r : Record} (hr : r ∈ (SyntaxTree.parse text).leaves) :
    ∃ before l after, text = before ++ (l.indent ++ (l.lexeme ++ after)) ∧ Placed before l after ∧
      r.start = ((before ++ l.indent).length : Int) ∧ r.stop = ((before ++ l.indent ++ l.lexeme).length : Int) := by
  have ho : r.outline ∈ outlines 0 ((items true text).flatMap Item.leaves) := by
    rw [← outline_leaves]
    exact List.mem_map_of_mem hr
  obtain ⟨before, l, after, htext, hp, ho⟩ := (placed_items text).at_leaf ho
  simp only [Record.outline, Prod.mk.injEq] at ho
  refine ⟨before, l, after, ?_, hp, ho.2.2⟩
  rw [← htext, spell_items_leaves, items_append, List.nil_append, List.append_nil]

/-- From `i` to `j` stand the blanks between a line start and the `@` of a directive. -/
structure SyntaxTree.Indentation (tree : SyntaxTree) (i j : Int) : Prop where
  nonempty : i < j
  lineStart : atLineStart (slice tree.text 0 i) = true
  blanks : (slice tree.text i j).all isIndent = true
  mark : slice tree.text j (j + 1) = ['@']
  directive : ∃ r ∈ tree.records, r.kind.isDirective = true ∧ r.start = j

theorem slice_zero (a b : List Char) : slice (a ++ b) 0 (a.length : Int) = a := slice_append [] a b

theorem indentation_of_placed {text before after : List Char} {l : Label}
    (htext : text = before ++ (l.indent ++ (l.lexeme ++ after))) (hp : Placed before l after) (hi : l.indent ≠ [])
    {stop : Int} (ho : (l.kind, l.isError, ((before ++ l.indent).length : Int), stop) ∈
      outlines 0 ((items true text).flatMap Item.leaves)) :
    (SyntaxTree.parse text).Indentation (before.length : Int) ((before ++ l.indent).length : Int) := by
  obtain ⟨-, hp⟩ := hp
  obtain ⟨hk, hline, hblank, t, ht⟩ := hp.resolve_left hi
  have hpos := List.length_pos_iff.2 hi
  have hmark : (((before ++ l.indent).length : Int) + 1) = ((before ++ l.indent ++ ['@']).length : Int) := by
    simp [Int.add_assoc]
  constructor
  · rw [List.length_append]; omega
  · show atLineStart (slice text 0 _) = true
    rw [htext, slice_zero]
    exact hline
  · show (slice text _ _).all isIndent = true
    rw [htext, slice_append]
    exact hblank
  · show slice text _ _ = ['@']
    rw [htext, ht, hmark, ← List.append_assoc]
    exact slice_append _ ['@'] (t ++ after)
  · rw [← outline_leaves] at ho
    obtain ⟨r, hr, hro⟩ := List.mem_map.1 ho
    simp only [Record.outline, Prod.mk.injEq] at hro
    rw [← hro.2.2.1]
    exact directive_of_name (mem_records_of_leaf hr) (hro.1.trans hk)

/-- Reading goes through on every text, and its tokens are a sentence of the grammar and the leaves of the tree in
order; the leaves and the indentation of tag lines make up the text. -/
theorem parse_lossless (text : List Char) :
    (∃ tokens, LexState.document.lex? ⟨[], text⟩ = some tokens ∧ Parses (.rule .start) tokens (Forest.ofText text) ∧
      (∀ t ∈ tokens, t.lexeme ≠ []) ∧ tokens.flatMap (·.lexeme) = text ∧
      (SyntaxTree.parse text).leaves.map Record.outline = outlines 0 (tokens.map Token.label)) ∧
    (∀ r ∈ (SyntaxTree.parse text).leaves, 0 ≤ r.start ∧ r.start < r.stop ∧ r.stop ≤ text.length) ∧
    (SyntaxTree.parse text).leaves.Pairwise (fun a b => a.stop ≤ b.start) ∧
    (∀ gap ∈ gaps 0 text.length (SyntaxTree.parse text).leafSpans,
      gap.1 = gap.2 ∨ (SyntaxTree.parse text).Indentation gap.1 gap.2) ∧
    (pieces 0 text.length (SyntaxTree.parse text).leafSpans).flatMap (fun span => slice text span.1 span.2) = text := by
  have hspell : spell ((items true text).flatMap Item.leaves) = text := by
    rw [spell_items_leaves, items_append]
  have hlabel := @label_items (items true text) fun _ => items_mem_read
  refine ⟨⟨_, lex_items (boundary_start text), parses_text text, ?_, ?_, ?_⟩, ?_, leaves_pairwise text, ?_, ?_⟩
  · intro t ht h0
    have hmem : t.label ∈ (items true text).flatMap Item.leaves := by
      rw [← hlabel]
      exact List.mem_map_of_mem ht
    have hempty := Token.label_append t
    rw [h0, List.append_eq_nil_iff] at hempty
    obtain ⟨before, after, hsplit⟩ := List.append_of_mem hmem
    have hp := placed_items text
    rw [hsplit, throughout_append] at hp
    exact hp.2.1.1 hempty.2
  · rw [← spell_tokens, hlabel, hspell]
  · rw [hlabel, outline_leaves]
  · intro r hr
    obtain ⟨before, l, after, htext, ⟨hne, -⟩, hstart, hstop⟩ := leaf_placed hr
    have hpos := List.length_pos_iff.2 hne
    rw [hstart, hstop, htext]
    simp only [List.length_append]
    omega
  · intro gap hg
    rw [leafSpans_eq] at hg
    have hgap := @gaps_outlines _ [] _ (placed_items text) gap
    rw [List.nil_append, hspell] at hgap
    rcases hgap hg with hg | ⟨before, l, after, htext, hp, rfl, stop, hmem⟩
    · exact .inl hg
    · by_cases hi : l.indent = []
      · exact .inl (by simp [hi])
      · exact .inr (indentation_of_placed htext hp hi hmem)
  · have := pieces_outlines [] ((items true text).flatMap Item.leaves)
    rw [List.nil_append, hspell] at this
    rw [leafSpans_eq]
    exact this

end EdgeTemplate
