import EdgeTemplate.Proofs.LeafSound

/-!
# Records of a document

Every record of a parsed text but the root belongs to one item, and stands in the list of records
after those of the items before it (`record_item`, `records_split`). What holds of every node of a
forest is said by `Forest.Every` and found again at its records.
-/

namespace EdgeTemplate

namespace Kind

/-- Nodes of these kinds have no children. -/
def isLeaf : Kind → Bool
  | document | interpolation _ | directive _ | arguments | parenthesized => false
  | _ => true

def isDirective : Kind → Bool
  | directive _ => true
  | _ => false

theorem isDirective_ofTag (tag : List Char) : (ofTag tag).isDirective = true := by
  unfold ofTag
  split <;> rfl

theorem isLeaf_of_isDirective {k : Kind} (h : k.isDirective = true) : k.isLeaf = false := by
  cases k <;> simp_all [isDirective, isLeaf]

end Kind

namespace Forest

/-- `P` holds of each node, given by its label and its children. -/
def Every (P : Label → Forest → Prop) : Forest → Prop
  | nil => True
  | node label children siblings => P label children ∧ children.Every P ∧ siblings.Every P

section

variable {P : Label → Forest → Prop}

theorem every_append (f g : Forest) : (f.append g).Every P ↔ f.Every P ∧ g.Every P := by
  induction f with
  | nil => simp [append, Every]
  | node label children siblings _ ih => simp only [append, Every, ih, and_assoc]

theorem Every.record {f : Forest} (h : f.Every P) {parent : Option Nat} {offset index : Nat} {r : Record}
    (hr : r ∈ f.records parent offset index) : ∃ label children i, P label children ∧ r.kind = label.kind ∧
      r.isError = label.isError ∧ r.children = (children.roots i).map fun (j : Nat) => (j : Int) := by
  induction f generalizing parent offset index with
  | nil => cases hr
  | node label children siblings ihc ihs =>
    obtain ⟨hl, hc, hs⟩ := h
    rw [records, List.mem_cons, List.mem_append] at hr
    rcases hr with rfl | hr | hr
    · exact ⟨label, children, index + 1, hl, rfl, rfl, rfl⟩
    · exact ihc hc hr
    · exact ihs hs hr

theorem Nested.every (hgroup : ∀ isError inside, P { kind := .parenthesized, isError } (leaf .leftParen ['('] inside))
    (htoken : ∀ token : ArgumentToken, P token.label .nil) {tokens : List ArgumentToken} {inside : Forest}
    {outer : List Forest} (h : Nested tokens inside outer) : inside.Every P ∧ ∀ f ∈ outer, f.Every P := by
  induction h with
  | nil => exact ⟨trivial, fun f hf => absurd hf List.not_mem_nil⟩
  | plain _ _ _ ih => exact ⟨⟨htoken _, trivial, ih.1⟩, ih.2⟩
  | closing _ ih => exact ⟨⟨htoken .closing, trivial, trivial⟩, List.forall_mem_cons.2 ih⟩
  | unclosed _ ih => exact ⟨⟨hgroup true _, ⟨htoken .opening, trivial, ih.1⟩, trivial⟩, ih.2⟩
  | closed _ ih =>
    obtain ⟨hs, hout⟩ := List.forall_mem_cons.1 ih.2
    exact ⟨⟨hgroup false _, ⟨htoken .opening, trivial, ih.1⟩, hs⟩, hout⟩

theorem every_ofArguments (hlist : ∀ isError inside, P { kind := .arguments, isError } (leaf .leftParen ['('] inside))
    (hgroup : ∀ isError inside, P { kind := .parenthesized, isError } (leaf .leftParen ['('] inside))
    (htoken : ∀ token : ArgumentToken, P token.label nil) (tokens : List ArgumentToken) :
    (ofArguments tokens).Every P :=
  ⟨hlist _ _, ⟨htoken .opening, trivial, ((nested tokens).every hgroup htoken).1⟩, trivial⟩

end

/-- The kind of a node tells whether it has children. -/
def Shaped : Forest → Prop := Every fun label children => label.kind.isLeaf = true ↔ children = nil

theorem shaped_label (token : ArgumentToken) : token.label.kind.isLeaf = true ↔ nil = nil := by
  cases token <;> simp [ArgumentToken.label, Kind.isLeaf]

theorem shaped_ofItem (item : Item) : (ofItem nil item).Shaped := by
  cases item with
  | text lexeme => simp [ofItem, leaf, Shaped, Every, Kind.isLeaf]
  | comment lexeme closed => simp [ofItem, Shaped, Every, Kind.isLeaf]
  | escaped lexeme closed => simp [ofItem, Shaped, Every, Kind.isLeaf]
  | interpolation style body closed =>
    cases hb : body.isEmpty <;> cases closed <;>
      simp [ofItem, ofInterpolation, leaf, Shaped, Every, Kind.isLeaf, hb]
  | directive indent tag arguments =>
    have hd := Kind.isLeaf_of_isDirective (Kind.isDirective_ofTag tag)
    have hargs : (arguments.elim nil ofArguments).Shaped := by
      cases arguments with
      | none => trivial
      | some tokens =>
        refine every_ofArguments (fun _ _ => ?_) (fun _ _ => ?_) shaped_label tokens
        · simp [Kind.isLeaf, leaf]
        · simp [Kind.isLeaf, leaf]
    exact ⟨by simp [hd, leaf], ⟨by simp [Kind.isLeaf], trivial, hargs⟩, trivial⟩

theorem shaped_ofItems (xs : List Item) : (ofItems xs).Shaped := by
  induction xs with
  | nil => trivial
  | cons item xs ih =>
    rw [ofItems, ofItem_eq_append]
    exact (every_append _ _).2 ⟨shaped_ofItem item, ih⟩

theorem Shaped.record {f : Forest} (h : f.Shaped) {parent : Option Nat} {offset index : Nat} {r : Record}
    (hr : r ∈ f.records parent offset index) : r.kind.isLeaf = true ↔ r.children = [] := by
  obtain ⟨label, children, i, hp, hk, -, hc⟩ := Every.record h hr
  rw [hk, hp, hc, List.map_eq_nil_iff, roots_eq_nil]

end Forest

/-! ## Items and their records -/

/-- The records of an item that follows the items `before` in a document. -/
def itemRecords (before : List Item) (item : Item) : List Record :=
  (Forest.ofItem .nil item).records (some 0) (before.flatMap Item.lexeme).length (1 + (Forest.ofItems before).size)

theorem Forest.records_ofItems_split (before after : List Item) (item : Item) (parent : Option Nat)
    (offset index : Nat) :
    (ofItems (before ++ item :: after)).records parent offset index =
      (ofItems before).records parent offset index ++
        ((ofItem nil item).records parent (offset + (ofItems before).width) (index + (ofItems before).size) ++
          (ofItems after).records parent (offset + (ofItems before).width + (ofItem nil item).width)
            (index + (ofItems before).size + (ofItem nil item).size)) := by
  rw [ofItems_append, records_append, ofItems, ofItem_eq_append, records_append]

theorem width_ofItems {text : List Char} {before after : List Item} (h : items true text = before ++ after) :
    (Forest.ofItems before).width = (before.flatMap Item.lexeme).length := by
  rw [← Forest.length_text, Forest.text_ofItems]
  intro item hi
  exact items_mem_read (by rw [h]; exact List.mem_append_left _ hi)

theorem records_split {text : List Char} {before after : List Item} {item : Item}
    (h : items true text = before ++ item :: after) :
    ∃ front back, (SyntaxTree.parse text).records.toList = front ++ (itemRecords before item ++ back) ∧
      front.length = 1 + (Forest.ofItems before).size := by
  have hw := width_ofItems h
  simp only [SyntaxTree.parse_eq, Forest.ofText, Forest.records, h, Forest.records_ofItems_split, List.append_nil,
    List.length_nil, Nat.zero_add, hw]
  refine ⟨_ :: (Forest.ofItems before).records (some 0) 0 1, _, rfl, ?_⟩
  rw [List.length_cons, Forest.length_records, Nat.add_comm]

theorem Forest.getElem?_ofItems {xs : List Item} {parent : Option Nat} {offset index i : Nat} {r : Record}
    (h : ((ofItems xs).records parent offset index)[i]? = some r) :
    ∃ before item after k, xs = before ++ item :: after ∧ i = (ofItems before).size + k ∧
      ((ofItem nil item).records parent (offset + (ofItems before).width) (index + (ofItems before).size))[k]? =
        some r := by
  induction xs generalizing offset index i with
  | nil => simp [ofItems, records] at h
  | cons item xs ih =>
    rw [ofItems, ofItem_eq_append, records_append] at h
    by_cases hi : i < ((ofItem nil item).records parent offset index).length
    · rw [List.getElem?_append_left hi] at h
      exact ⟨[], item, xs, i, rfl, by simp [ofItems, size], h⟩
    · have hi' := Nat.le_of_not_lt hi
      rw [List.getElem?_append_right hi', length_records] at h
      rw [length_records] at hi'
      obtain ⟨before, item', after, k, rfl, hk, hr⟩ := ih h
      have hw : (ofItems (item :: before)).width = (ofItem nil item).width + (ofItems before).width := by
        rw [ofItems, ofItem_eq_append, width_append]
      have hs : (ofItems (item :: before)).size = (ofItem nil item).size + (ofItems before).size := by
        rw [ofItems, ofItem_eq_append, size_append]
      refine ⟨item :: before, item', after, k, rfl, by omega, ?_⟩
      rw [hw, hs, ← Nat.add_assoc, ← Nat.add_assoc]
      exact hr

theorem record_item {text : List Char} {i : Nat} {r : Record} (h : (SyntaxTree.parse text).records[i]? = some r)
    (hi : i ≠ 0) :
    ∃ before item after k, items true text = before ++ item :: after ∧ i = 1 + (Forest.ofItems before).size + k ∧
      (itemRecords before item)[k]? = some r := by
  obtain ⟨j, rfl⟩ := Nat.exists_eq_succ_of_ne_zero hi
  simp only [SyntaxTree.parse_eq, Forest.ofText, Forest.records, List.append_nil, List.getElem?_toArray,
    Nat.succ_eq_add_one, List.getElem?_cons_succ] at h
  obtain ⟨before, item, after, k, hx, rfl, hr⟩ := Forest.getElem?_ofItems h
  refine ⟨before, item, after, k, hx, by omega, ?_⟩
  simpa [itemRecords, width_ofItems hx] using hr

theorem getElem?_item {text : List Char} {before after : List Item} {item : Item}
    (h : items true text = before ++ item :: after) {k : Nat} {r : Record}
    (hr : (itemRecords before item)[k]? = some r) :
    (SyntaxTree.parse text).records[1 + (Forest.ofItems before).size + k]? = some r := by
  obtain ⟨front, back, hs, hl⟩ := records_split h
  have hk := (List.getElem?_eq_some_iff.1 hr).1
  rw [← Array.getElem?_toList, hs, List.getElem?_append_right (by omega), hl, Nat.add_sub_cancel_left,
    List.getElem?_append_left hk, hr]

theorem document_record {text : List Char} {r : Record} (h : (SyntaxTree.parse text).records[0]? = some r) :
    r.kind = .document ∧ r.isError = false := by
  simp only [SyntaxTree.parse_eq, Forest.ofText, Forest.records, List.getElem?_toArray, List.getElem?_cons_zero,
    Option.some.injEq] at h
  rw [← h]
  exact ⟨rfl, rfl⟩

theorem mem_records_item {text : List Char} {r : Record} (h : r ∈ (SyntaxTree.parse text).records)
    (hk : r.kind ≠ .document) :
    ∃ before item after, items true text = before ++ item :: after ∧ r ∈ itemRecords before item := by
  obtain ⟨i, hi⟩ := Array.mem_iff_getElem?.1 h
  by_cases h0 : i = 0
  · subst h0
    exact absurd (document_record hi).1 hk
  · obtain ⟨before, item, after, k, hx, -, hr⟩ := record_item hi h0
    exact ⟨before, item, after, hx, List.mem_of_getElem? hr⟩

theorem mem_records_of_item {text : List Char} {before after : List Item} {item : Item}
    (h : items true text = before ++ item :: after) {r : Record} (hr : r ∈ itemRecords before item) :
    r ∈ (SyntaxTree.parse text).records := by
  obtain ⟨front, back, hs, -⟩ := records_split h
  rw [← Array.mem_toList_iff, hs]
  simp [hr]

/-! ## Leaves of the tree -/

/-- The nodes without children other than the root, in the order of the records. -/
def SyntaxTree.leaves (tree : SyntaxTree) : List Record := tree.records.toList.tail.filter (·.children.isEmpty)

theorem outline_leaves (text : List Char) :
    (SyntaxTree.parse text).leaves.map Record.outline = outlines 0 ((items true text).flatMap Item.leaves) := by
  have hr := @Forest.leaves_ofItems (items true text) fun item hi => items_mem_read hi
  have := Forest.records_leaves (Forest.ofItems (items true text)) [] (some 0) 0 1
  simpa [SyntaxTree.leaves, SyntaxTree.parse_eq, Forest.ofText, Forest.records, hr] using this

theorem outline_item {before : List Item} {item : Item} {ls : Bool} {suf rest : List Char}
    (h : Item.Read ls suf item rest) {r : Record} (hr : r ∈ itemRecords before item) (hl : r.kind.isLeaf = true) :
    r.outline ∈ outlines (before.flatMap Item.lexeme).length item.leaves := by
  have hc := ((Forest.shaped_ofItem item).record hr).1 hl
  have := Forest.records_leaves (Forest.ofItem .nil item) [] (some 0) (before.flatMap Item.lexeme).length
    (1 + (Forest.ofItems before).size)
  rw [Forest.leaves_ofItem h] at this
  rw [← this]
  exact List.mem_map_of_mem (List.mem_filter.2 ⟨hr, by simp [hc]⟩)

theorem mem_leaves_of_isLeaf {text : List Char} {r : Record} (h : r ∈ (SyntaxTree.parse text).records)
    (hl : r.kind.isLeaf = true) : r ∈ (SyntaxTree.parse text).leaves := by
  have hm : r ∈ (Forest.ofItems (items true text)).records (some 0) 0 1 := by
    rw [SyntaxTree.parse_eq, List.mem_toArray] at h
    simp only [Forest.ofText, Forest.records, List.append_nil, List.mem_cons] at h
    rcases h with rfl | h
    · cases hl
    · exact h
  refine List.mem_filter.2 ⟨?_, by simp [((Forest.shaped_ofItems _).record hm).1 hl]⟩
  simpa [SyntaxTree.parse_eq, Forest.ofText, Forest.records] using hm

theorem mem_records_of_leaf {tree : SyntaxTree} {r : Record} (h : r ∈ tree.leaves) : r ∈ tree.records := by
  rw [← Array.mem_toList_iff]
  exact List.mem_of_mem_tail (List.mem_filter.1 h).1

/-! ## Directives -/

theorem kind_label_ne (token : ArgumentToken) : token.label.kind ≠ .directiveName := by
  cases token <;> simp [ArgumentToken.label]

theorem directiveName_leaf {item : Item} {before after : List Label} {l : Label}
    (h : item.leaves = before ++ l :: after) (hk : l.kind = .directiveName) :
    before = [] ∧ ∃ tag arguments, item = .directive l.indent tag arguments := by
  have hl : l ∈ item.leaves := by rw [h]; simp
  cases item with
  | directive indent tag arguments =>
    cases before with
    | nil =>
      refine ⟨rfl, tag, arguments, ?_⟩
      cases arguments with
      | none => rw [← (List.cons.inj h).1]
      | some tokens => rw [← (List.cons.inj h).1]
    | cons b before =>
      cases arguments with
      | none => simp [Item.leaves] at h
      | some tokens =>
        have hm : l ∈ (ArgumentToken.opening :: tokens).map ArgumentToken.label := by
          rw [(List.cons.inj h).2]
          simp
        obtain ⟨token, -, rfl⟩ := List.mem_map.1 hm
        exact absurd hk (kind_label_ne token)
  | interpolation style body closed =>
    simp only [Item.leaves, List.mem_cons, List.mem_append] at hl
    rcases hl with rfl | hl | hl
    · cases hk
    · split at hl
      · cases hl
      · rw [List.mem_singleton.1 hl] at hk
        cases hk
    · split at hl
      · rw [List.mem_singleton.1 hl] at hk
        cases hk
      · cases hl
  | _ =>
    rw [Item.leaves, List.mem_singleton] at hl
    rw [hl] at hk
    cases hk

theorem directive_mem_itemRecords (before : List Item) (indent tag : List Char)
    (arguments : Option (List ArgumentToken)) :
    ∃ d ∈ itemRecords before (.directive indent tag arguments), d.kind = .ofTag tag ∧
      d.start = (((before.flatMap Item.lexeme).length + indent.length : Nat) : Int) :=
  ⟨_, List.mem_cons_self, rfl, rfl⟩

theorem directive_of_name {text : List Char} {r : Record} (h : r ∈ (SyntaxTree.parse text).records)
    (hk : r.kind = .directiveName) :
    ∃ d ∈ (SyntaxTree.parse text).records, d.kind.isDirective = true ∧ d.start = r.start := by
  obtain ⟨before, item, after, hx, hr⟩ := mem_records_item h (by rw [hk]; simp)
  obtain ⟨ls, suf, rest, -, hread, -⟩ := items_read (boundary_start text) hx
  have hout := outline_item hread hr (by rw [hk]; rfl)
  obtain ⟨ls, l, ls', hl, ho⟩ := mem_outlines hout
  simp only [Record.outline, Prod.mk.injEq] at ho
  obtain ⟨hkind, -, hstart, -⟩ := ho
  obtain ⟨rfl, tag, arguments, rfl⟩ := directiveName_leaf hl (hkind ▸ hk)
  obtain ⟨d, hd, hdk, hds⟩ := directive_mem_itemRecords before l.indent tag arguments
  refine ⟨d, mem_records_of_item hx hd, ?_, ?_⟩
  · rw [hdk]
    exact Kind.isDirective_ofTag tag
  · rw [hds, hstart]
    simp

end EdgeTemplate
