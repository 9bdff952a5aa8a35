import EdgeTemplate.Proofs.ExcerptSound
import EdgeTemplate.Proofs.UnclosedSound

/-!
# The order of top-level nodes

The nodes right below the document are the first nodes of its items, one for each (`document_children`), so two of them
stand side by side as two items do that are read one after the other. Text goes on until something else starts, a tag
is only read where text has ended a line, and a comment that is not closed takes the rest of the text
(`Item.Read.adjacent`). This gives the children of every document the same form (`document_normal`).
-/

namespace EdgeTemplate

/-! ## Items side by side -/

namespace Item

theorem eq_text_of_kind {item : Item} (h : item.kind = .text) : ∃ lexeme, item = .text lexeme := by
  cases item with
  | text lexeme => exact ⟨lexeme, rfl⟩
  | directive indent tag arguments =>
    have hd := Kind.isDirective_ofTag tag
    rw [show Kind.ofTag tag = _ from h] at hd
    cases hd
  | _ => cases h

theorem eq_directive_of_kind {item : Item} (h : item.kind.isDirective = true) :
    ∃ indent tag arguments, item = .directive indent tag arguments := by
  cases item with
  | directive indent tag arguments => exact ⟨indent, tag, arguments, rfl⟩
  | _ => cases h

theorem eq_line_of_endsLine {item : Item} (h : item.endsLine = true) : ∃ front, item = .text (front ++ ['\n']) := by
  cases item with
  | text lexeme =>
    obtain ⟨front, hf⟩ := List.getLast?_eq_some_iff.1 (beq_iff_eq.1 h)
    exact ⟨front, by rw [hf]⟩
  | _ => cases h

section

variable {lineStart : Bool} {cs rest lexeme : List Char}

/-- Text is read where nothing else can be. -/
theorem Read.start_of_text (h : Read lineStart cs (.text lexeme) rest) :
    Mustache.plain.opening.isPrefixOf cs = false ∧ escapedOpening.isPrefixOf cs = false ∧
      (lineStart && startsTagLine cs) = false := by
  cases h with
  | text hne hun _ hline =>
    obtain ⟨hm, he⟩ := no_opening_of_endsText (unstopped_at (x := []) hun hne)
    exact ⟨hm, he, hline⟩
  | line hun _ hline =>
    obtain ⟨hm, he⟩ := no_opening_of_line hun
    exact ⟨hm, he, hline⟩

/-- Text stops at the end, or where something else can be read. -/
theorem Read.stop_of_text (h : Read lineStart cs (.text lexeme) rest) :
    rest = [] ∨ Mustache.plain.opening.isPrefixOf rest = true ∨ escapedOpening.isPrefixOf rest = true ∨
      (endsLine (.text lexeme) && startsTagLine rest) = true := by
  cases h with
  | text _ _ hb _ =>
    rcases hb with hb | hb | hb
    · exact .inl hb
    · exact .inr (.inl hb)
    · exact .inr (.inr (.inl hb))
  | line _ hb _ => exact .inr (.inr (.inr (by simp [endsLine, hb])))

end

/-- What holds of an item and the one behind it. -/
structure Adjacent (item next : Item) : Prop where
  texts : item.kind = .text → next.kind ≠ .text
  line : next.kind.isDirective = true → item.endsLine = true
  closed : (Forest.ofItem .nil item).hasUnclosed = true → item.kind ≠ .comment ∧ item.kind ≠ .escapedInterpolation

theorem Read.adjacent {lineStart : Bool} {cs rest rest' : List Char} {item next : Item}
    (h : Read lineStart cs item rest) (h' : Read item.endsLine rest next rest') : Adjacent item next := by
  constructor
  · intro hk hk'
    obtain ⟨lexeme, rfl⟩ := eq_text_of_kind hk
    obtain ⟨lexeme', rfl⟩ := eq_text_of_kind hk'
    obtain ⟨hm, he, hline⟩ := h'.start_of_text
    rcases h.stop_of_text with hstop | hstop | hstop | hstop
    · exact h'.ne_nil hstop
    · rw [hm] at hstop
      cases hstop
    · rw [he] at hstop
      cases hstop
    · rw [hline] at hstop
      cases hstop
  · intro hk
    obtain ⟨indent, tag, arguments, rfl⟩ := eq_directive_of_kind hk
    exact h'.tagSplit.1
  · intro hu
    rcases h.rest_of_unclosed hu with hstop | ⟨-, hkinds⟩
    · exact absurd hstop h'.ne_nil
    · exact hkinds

end Item

theorem items_adjacent {text : List Char} {before after : List Item} {item next : Item}
    (h : items true text = before ++ item :: next :: after) : item.Adjacent next := by
  obtain ⟨ls, suf, rest, -, hread, -, hrest⟩ := items_read (boundary_start text) h
  obtain ⟨rest', hread', -⟩ := items_uncons hrest
  exact hread.adjacent hread'

/-! ## Children of the document -/

namespace Forest

/-- The tree of an item is one node, in front of those of the items behind it. -/
theorem ofItems_cons (item : Item) : ∃ label children, ofItem nil item = node label children nil ∧
    ∀ xs, ofItems (item :: xs) = node label children (ofItems xs) := by
  cases item with
  | _ => exact ⟨_, _, rfl, fun _ => rfl⟩

theorem length_rootNodes (xs : List Item) (parent : Option Nat) (offset index : Nat) :
    ((ofItems xs).rootNodes parent offset index).length = xs.length := by
  induction xs generalizing offset index with
  | nil => rfl
  | cons item xs ih =>
    obtain ⟨label, children, -, hnode⟩ := ofItems_cons item
    rw [hnode, rootNodes, List.length_cons, List.length_cons, ih]

theorem getElem?_rootNodes {xs : List Item} {parent : Option Nat} {offset index k : Nat} {n : Nat × Record}
    (h : ((ofItems xs).rootNodes parent offset index)[k]? = some n) :
    ∃ before item after, xs = before ++ item :: after ∧ before.length = k ∧
      ((ofItem nil item).records parent (offset + (ofItems before).width) (index + (ofItems before).size))[0]? =
        some n.2 := by
  induction xs generalizing offset index k with
  | nil => cases h
  | cons item xs ih =>
    obtain ⟨label, children, hfirst, hnode⟩ := ofItems_cons item
    rw [hnode, rootNodes] at h
    cases k with
    | zero =>
      rw [List.getElem?_cons_zero, Option.some.injEq] at h
      refine ⟨[], item, xs, rfl, rfl, ?_⟩
      rw [hfirst, ← h]
      rfl
    | succ k =>
      rw [List.getElem?_cons_succ] at h
      obtain ⟨before, item', after, rfl, hk, hr⟩ := ih h
      refine ⟨item :: before, item', after, rfl, by rw [List.length_cons, hk], ?_⟩
      rw [hnode before, width, size]
      simp only [Nat.add_assoc] at hr ⊢
      exact hr

end Forest

/-- The children of the document are the first nodes of its items, in the same order. -/
theorem document_children (text : List Char) : ∃ (root : Record) (nodes : List Record),
    (SyntaxTree.parse text).records[0]? = some root ∧
    root.children.map (SyntaxTree.parse text).record? = nodes.map some ∧ nodes.length = (items true text).length ∧
    ∀ k r, nodes[k]? = some r → ∃ before item after, items true text = before ++ item :: after ∧ before.length = k ∧
      (itemRecords before item)[0]? = some r := by
  have hroot : (SyntaxTree.parse text).records[0]? =
      some (Forest.record none 0 0 { kind := .document } (Forest.ofItems (items true text))) := by
    rw [SyntaxTree.parse_eq]
    rfl
  refine ⟨_, ((Forest.ofItems (items true text)).rootNodes (some 0) 0 1).map Prod.snd, hroot, ?_, ?_, ?_⟩
  · rw [Forest.record, ← Forest.map_rootNodes _ (some 0) 0, List.map_map, List.map_map, List.map_map]
    refine List.map_congr_left fun n hn => ?_
    have hbefore : ∀ q, some 0 = some q → q < 1 := by
      intro q hq
      rw [← Option.some.inj hq]
      exact Nat.zero_lt_one
    exact (SyntaxTree.record?_natCast _ _).trans (record_of_node (Forest.mem_nodes_of_rootNodes hbefore hn))
  · rw [List.length_map, Forest.length_rootNodes]
  · intro k r hr
    rw [List.getElem?_map, Option.map_eq_some_iff] at hr
    obtain ⟨n, hn, rfl⟩ := hr
    obtain ⟨before, item, after, hx, hk, hfirst⟩ := Forest.getElem?_rootNodes hn
    refine ⟨before, item, after, hx, hk, ?_⟩
    rw [itemRecords, ← width_ofItems hx, ← Nat.zero_add (Forest.width _)]
    exact hfirst

/-! ## The normal form -/

section

variable {text : List Char} {before before' after after' : List Item} {item next : Item}
  (hx : items true text = before ++ item :: after)
include hx

/-- Items at places that follow one another stand side by side. -/
theorem items_successive (hx' : items true text = before' ++ next :: after') (hl : before'.length = before.length + 1) :
    before' = before ++ [item] ∧ items true text = before ++ item :: next :: after' := by
  have hsplit : before ++ [item] ++ after = before' ++ next :: after' := by
    rw [List.append_assoc, List.singleton_append, ← hx, hx']
  obtain ⟨hbefore, hafter⟩ := List.append_inj hsplit (by rw [List.length_append, hl, List.length_singleton])
  exact ⟨hbefore.symm, by rw [hx, hafter]⟩

/-- A top-level node ends with its item. -/
theorem first_stop {r : Record} (hr : (itemRecords before item)[0]? = some r) :
    r.stop = (((before ++ [item]).flatMap Item.lexeme).length : Int) := by
  obtain ⟨ls, suf, rest, -, hread, -⟩ := items_read (boundary_start text) hx
  rw [(itemRecords_first hr).2.1, Forest.width_ofItem hread, List.flatMap_append, List.length_append,
    List.flatMap_singleton]

/-- Between a directive and the end of the item before it stands its indentation. -/
theorem blank_before_directive {d : Record} (hd : (itemRecords before item)[0]? = some d)
    (hk : d.kind.isDirective = true) :
    (slice text (before.flatMap Item.lexeme).length d.start).all isIndent = true := by
  rw [first_kind hd] at hk
  obtain ⟨indent, tag, arguments, rfl⟩ := Item.eq_directive_of_kind hk
  obtain ⟨ls, suf, rest, htext, hread, -⟩ := items_read (boundary_start text) hx
  obtain ⟨-, tail, rfl, hsplit, -⟩ := hread.tagSplit
  rw [(itemRecords_first hd).1, htext, Item.indent, slice_append]
  exact hsplit.indent

end

/-- The children of a document in order: texts are apart, a directive starts the document or follows a text that ends
with a line end, up to its indentation, and a comment or escaped mustache that is not closed is the last. -/
structure SyntaxTree.NormalForm (tree : SyntaxTree) (nodes : List Record) : Prop where
  texts_apart : ∀ (k : Nat) (r s : Record), nodes[k]? = some r → nodes[k + 1]? = some s → r.kind = .text →
    s.kind ≠ .text
  directive_first : ∀ d : Record, nodes[0]? = some d → d.kind.isDirective = true →
    (slice tree.text 0 d.start).all isIndent = true
  directive_line : ∀ (k : Nat) (d : Record), nodes[k + 1]? = some d → d.kind.isDirective = true →
    ∃ t, nodes[k]? = some t ∧ t.kind = .text ∧ (tree.sourceOf t).getLast? = some '\n' ∧
      (slice tree.text t.stop d.start).all isIndent = true
  unclosed_last : ∀ (k : Nat) (r : Record), nodes[k]? = some r → r.isError = true →
    r.kind = .comment ∨ r.kind = .escapedInterpolation → nodes.length = k + 1

theorem document_normal (text : List Char) : ∃ (root : Record) (nodes : List Record),
    (SyntaxTree.parse text).records[0]? = some root ∧
    root.children.map (SyntaxTree.parse text).record? = nodes.map some ∧ (SyntaxTree.parse text).NormalForm nodes := by
  obtain ⟨root, nodes, hroot, hnodes, hlen, hitem⟩ := document_children text
  refine ⟨root, nodes, hroot, hnodes, ?_, ?_, ?_, ?_⟩
  · intro k r s hr hs hk
    obtain ⟨before, item, after, hx, rfl, hfirst⟩ := hitem k r hr
    obtain ⟨before', next, after', hx', hl, hfirst'⟩ := hitem _ s hs
    rw [first_kind hfirst] at hk
    rw [first_kind hfirst']
    exact (items_adjacent (items_successive hx hx' hl).2).texts hk
  · intro d hd hk
    obtain ⟨before, item, after, hx, hl, hfirst⟩ := hitem 0 d hd
    have hblank := blank_before_directive hx hfirst hk
    rw [List.length_eq_zero_iff.1 hl] at hblank
    exact hblank
  · intro k d hd hk
    have hlt : k < nodes.length := Nat.lt_of_succ_lt (List.getElem?_eq_some_iff.1 hd).1
    obtain ⟨t, ht⟩ : ∃ t, nodes[k]? = some t := ⟨_, List.getElem?_eq_getElem hlt⟩
    obtain ⟨before, item, after, hx, rfl, hfirst⟩ := hitem k t ht
    obtain ⟨before', next, after', hx', hl, hfirst'⟩ := hitem _ d hd
    obtain ⟨rfl, hxs⟩ := items_successive hx hx' hl
    have hline := (items_adjacent hxs).line (first_kind hfirst' ▸ hk)
    obtain ⟨front, rfl⟩ := Item.eq_line_of_endsLine hline
    refine ⟨t, ht, first_kind hfirst, ?_, ?_⟩
    · rw [source_item hx hfirst]
      exact List.getLast?_concat
    · rw [first_stop hx hfirst]
      exact blank_before_directive hx' hfirst' hk
  · intro k r hr he hk
    obtain ⟨before, item, after, hx, rfl, hfirst⟩ := hitem k r hr
    have hstring : r.kind ≠ .string := by
      rcases hk with hk | hk
      · simp [hk]
      · simp [hk]
    have hopen := Forest.hasUnclosed_of_record (List.mem_of_getElem? hfirst) he hstring
    rw [first_kind hfirst] at hk
    cases after with
    | nil => rw [hlen, hx, List.length_append, List.length_singleton]
    | cons next after =>
      obtain ⟨hcomment, hescaped⟩ := (items_adjacent hx).closed hopen
      exact absurd hk (not_or.2 ⟨hcomment, hescaped⟩)

/-- Between two directives there is always a text, if only a line end. -/
example :
    let tree := SyntaxTree.parse " @if(a\n\t@end\nb\x7b\x7b c \x7d\x7d\x7b\x7b-- d".toList
    (tree.records.filter (·.parent == some 0)).map (fun r => (r.kind, r.start, r.stop, r.isError)) =
      #[(.directive "if", 1, 6, false), (.text, 6, 7, false), (.directive "end", 8, 12, false), (.text, 12, 14, false),
        (.interpolation .plain, 14, 21, false), (.comment, 21, 27, true)] := by
  decide +kernel

end EdgeTemplate
