import EdgeTemplate.Proofs.ArenaSound
import EdgeTemplate.Proofs.TagExact

/-!
# Where unclosed constructs end

A construct is unclosed if and only if its last child is not the token that closes it. Nothing follows an
unclosed construct in its item (`Forest.Trailing`), so it ends where the item does, and such an item
ends with the text or before a tag line (`Item.Read.rest_of_unclosed`). A list that is unclosed leaves
the lists around it unclosed too, up to the same place (`parse_recovers`).
-/

namespace EdgeTemplate

def Kind.closer? : Kind → Option Kind
  | interpolation style => some (.closing style)
  | arguments | parenthesized => some .rightParen
  | _ => none

def Kind.isList : Kind → Bool
  | arguments | parenthesized => true
  | _ => false

/-- An unterminated literal is an error too, but it does not run to the end of its item. -/
def Label.isUnclosed (l : Label) : Bool := l.isError && l.kind != .string

namespace Forest

def rootLabels : Forest → List Label
  | nil => []
  | node label _ siblings => label :: siblings.rootLabels

def hasUnclosed : Forest → Bool
  | nil => false
  | node label children siblings => label.isUnclosed || children.hasUnclosed || siblings.hasUnclosed

/-- Nothing follows what is unclosed. -/
def Trailing : Forest → Prop
  | nil => True
  | node label children siblings =>
    ((label.isUnclosed || children.hasUnclosed) = true → siblings = nil) ∧ children.Trailing ∧ siblings.Trailing

theorem trailing_of_closed {f : Forest} (h : f.hasUnclosed = false) : f.Trailing := by
  induction f with
  | nil => trivial
  | node label children siblings ihc ihs =>
    simp only [hasUnclosed, Bool.or_eq_false_iff] at h
    obtain ⟨⟨hl, hc⟩, hs⟩ := h
    exact ⟨by simp [hl, hc], ihc hc, ihs hs⟩

theorem hasUnclosed_of_root {f : Forest} {l : Label} (hl : l ∈ f.rootLabels) (h : l.isUnclosed = true) :
    f.hasUnclosed = true := by
  induction f with
  | nil => cases hl
  | node label children siblings _ ih =>
    rw [hasUnclosed]
    rcases List.mem_cons.1 hl with rfl | hl
    · simp [h]
    · simp [ih hl]

/-- What holds of a node of a template, given by its label and its children. -/
structure Recovered (label : Label) (children : Forest) : Prop where
  closer : ∀ closer, label.kind.closer? = some closer →
    ∃ last, children.rootLabels.getLast? = some last ∧ (label.isError = true ↔ last.kind ≠ closer)
  inside : ∀ l ∈ children.rootLabels, l.kind = .parenthesized → l.isError = true →
    label.kind.isList = true ∧ label.isError = true
  trailing : children.Trailing

theorem recovered_of_closed {label : Label} {children : Forest} (h : children.hasUnclosed = false)
    (hc : ∀ closer, label.kind.closer? = some closer →
      ∃ last, children.rootLabels.getLast? = some last ∧ (label.isError = true ↔ last.kind ≠ closer)) :
    Recovered label children := by
  refine ⟨hc, ?_, trailing_of_closed h⟩
  intro l hl hp he
  have := hasUnclosed_of_root hl (by simp [Label.isUnclosed, hp, he])
  rw [h] at this
  cases this

theorem recovered_leaf {label : Label} (h : label.kind.closer? = none) : Recovered label nil := by
  refine recovered_of_closed rfl ?_
  intro closer hc
  rw [h] at hc
  cases hc

/-! ## Nested lists -/

/-- The inside of a list with its closing parenthesis. -/
structure Closed (f : Forest) : Prop where
  last : ∃ last, f.rootLabels.getLast? = some last ∧ last.kind = .rightParen
  closed : f.hasUnclosed = false

/-- The inside of a list up to where the reading stopped. -/
structure Open (f : Forest) : Prop where
  last : ∀ last, f.rootLabels.getLast? = some last → last.kind ≠ .rightParen
  trailing : f.Trailing

/-- Of lists that lie in one another, innermost first, all but the outermost are closed. -/
def Layered : Forest → List Forest → Prop
  | f, [] => f.Open
  | f, g :: outer => f.Closed ∧ Layered g outer

theorem Layered.trailing {f : Forest} {outer : List Forest} (h : Layered f outer) : f.Trailing := by
  cases outer with
  | nil => exact Open.trailing h
  | cons g outer => exact trailing_of_closed h.1.closed

theorem Layered.node {f : Forest} {outer : List Forest} (h : Layered f outer) {label : Label} {children : Forest}
    (hk : label.kind ≠ .rightParen) (hl : label.isUnclosed = false) (hc : children.hasUnclosed = false) :
    Layered (.node label children f) outer := by
  cases outer with
  | nil =>
    refine ⟨?_, by simp [hl, hc], trailing_of_closed hc, Open.trailing h⟩
    intro last hlast
    rw [rootLabels, List.getLast?_cons, Option.some.injEq] at hlast
    cases hf : f.rootLabels.getLast? with
    | none =>
      rw [hf, Option.getD_none] at hlast
      rwa [← hlast]
    | some l =>
      rw [hf, Option.getD_some] at hlast
      rw [← hlast]
      exact Open.last h l hf
  | cons g outer =>
    obtain ⟨hclosed, hrest⟩ := h
    obtain ⟨last, hlast, hr⟩ := hclosed.last
    refine ⟨⟨⟨last, ?_, hr⟩, ?_⟩, hrest⟩
    · rw [rootLabels, List.getLast?_cons, hlast, Option.getD_some]
    · simp [hasUnclosed, hl, hc, hclosed.closed]

theorem Nested.layered {tokens : List ArgumentToken} {inside : Forest} {outer : List Forest}
    (h : Nested tokens inside outer) : Layered inside outer := by
  induction h with
  | nil => exact ⟨by simp [rootLabels], trivial⟩
  | plain ho hc _ ih =>
    refine ih.node ?_ ?_ rfl
    · rcases ArgumentToken.kind_label_plain ho hc with hk | ⟨hk, -⟩ <;> simp [hk]
    · rcases ArgumentToken.kind_label_plain ho hc with hk | ⟨-, he⟩
      · simp [Label.isUnclosed, hk]
      · simp [Label.isUnclosed, he]
  | closing _ ih => exact ⟨⟨⟨_, rfl, rfl⟩, rfl⟩, ih⟩
  | unclosed _ ih =>
    -- the group takes all that follows, so it has no siblings
    refine ⟨?_, fun _ => rfl, ⟨by simp [Label.isUnclosed, hasUnclosed], trivial, Open.trailing ih⟩, trivial⟩
    intro last hlast
    rw [← Option.some.inj hlast]
    simp [rootLabels]
  | closed _ ih =>
    obtain ⟨hclosed, hrest⟩ := ih
    refine hrest.node (by simp) rfl ?_
    simp [leaf, hasUnclosed, hclosed.closed, Label.isUnclosed]

section

variable {kind : Kind} (hk : kind.isList = true) {inside : Forest}
include hk

theorem closer_of_isList : kind.closer? = some .rightParen := by
  cases kind <;> simp_all [Kind.isList, Kind.closer?]

theorem recovered_closed (h : inside.Closed) : Recovered { kind } (leaf .leftParen ['('] inside) := by
  refine recovered_of_closed (by simp [leaf, hasUnclosed, h.closed, Label.isUnclosed]) ?_
  intro closer hc
  rw [closer_of_isList hk] at hc
  cases hc
  obtain ⟨last, hlast, hr⟩ := h.last
  refine ⟨last, ?_, by simp [hr]⟩
  rw [leaf, rootLabels, List.getLast?_cons, hlast, Option.getD_some]

theorem recovered_open (h : inside.Open) : Recovered { kind, isError := true } (leaf .leftParen ['('] inside) := by
  refine ⟨?_, fun l _ _ _ => ⟨hk, rfl⟩, by simp [Label.isUnclosed, hasUnclosed], trivial, h.trailing⟩
  intro closer hc
  rw [closer_of_isList hk] at hc
  cases hc
  rw [leaf, rootLabels, List.getLast?_cons]
  refine ⟨_, rfl, fun _ => ?_, fun _ => rfl⟩
  cases hlast : inside.rootLabels.getLast? with
  | none => simp
  | some last => exact h.last last hlast

end

theorem Nested.recovered {tokens : List ArgumentToken} {inside : Forest} {outer : List Forest}
    (h : Nested tokens inside outer) : inside.Every Recovered ∧ ∀ f ∈ outer, f.Every Recovered := by
  induction h with
  | nil => exact ⟨trivial, fun f hf => absurd hf List.not_mem_nil⟩
  | plain ho hc _ ih =>
    refine ⟨⟨recovered_leaf ?_, trivial, ih.1⟩, ih.2⟩
    rcases ArgumentToken.kind_label_plain ho hc with hk | ⟨hk, -⟩ <;> rw [hk] <;> rfl
  | closing _ ih => exact ⟨⟨recovered_leaf rfl, trivial, trivial⟩, List.forall_mem_cons.2 ih⟩
  | unclosed h ih =>
    exact ⟨⟨recovered_open rfl h.layered, ⟨recovered_leaf rfl, trivial, ih.1⟩, trivial⟩, ih.2⟩
  | closed h ih =>
    obtain ⟨hs, hout⟩ := List.forall_mem_cons.1 ih.2
    exact ⟨⟨recovered_closed rfl h.layered.1, ⟨recovered_leaf rfl, trivial, ih.1⟩, hs⟩, hout⟩

theorem recovered_ofArguments (tokens : List ArgumentToken) : (ofArguments tokens).Every Recovered := by
  have hlayer := (nested tokens).layered
  obtain ⟨hin, -⟩ := (nested tokens).recovered
  unfold ofArguments
  generalize nest tokens = n at hlayer hin
  obtain ⟨inside, outer⟩ := n
  refine ⟨?_, ⟨recovered_leaf rfl, trivial, hin⟩, trivial⟩
  cases outer with
  | nil => exact recovered_open rfl hlayer
  | cons g outer => exact recovered_closed rfl hlayer.1

theorem trailing_ofArguments (tokens : List ArgumentToken) : (ofArguments tokens).Trailing :=
  ⟨fun _ => rfl, ⟨by simp [Label.isUnclosed, hasUnclosed], trivial, (nested tokens).layered.trailing⟩, trivial⟩

/-! ## Items -/

theorem recovered_interpolation (style : Mustache) (body : List Char) (closed : Bool) :
    Recovered { kind := .interpolation style, isError := !closed } (ofInterpolation style body closed) := by
  apply recovered_of_closed
  · cases hb : body.isEmpty <;> cases closed <;> simp [ofInterpolation, leaf, hasUnclosed, Label.isUnclosed, hb]
  · intro closer hc
    cases hc
    cases hb : body.isEmpty <;> cases closed <;> simp [ofInterpolation, leaf, rootLabels, hb]

theorem recovered_directive (indent tag : List Char) (arguments : Option (List ArgumentToken)) :
    Recovered { kind := .ofTag tag, indent } (leaf .directiveName tag (arguments.elim nil ofArguments)) := by
  have hkind : (Kind.ofTag tag).closer? = none := by
    have := Kind.isDirective_ofTag tag
    cases hk : Kind.ofTag tag <;> simp_all [Kind.isDirective, Kind.closer?]
  refine ⟨?_, ?_, by simp [Label.isUnclosed, hasUnclosed], trivial, ?_⟩
  · intro closer hc
    rw [hkind] at hc
    cases hc
  · intro l hl hp
    cases arguments with
    | none => simp_all [leaf, rootLabels]
    | some tokens =>
      simp only [leaf, rootLabels, Option.elim_some, ofArguments, group, List.mem_cons, List.not_mem_nil,
        or_false] at hl
      rcases hl with rfl | rfl
      · cases hp
      · cases hp
  · cases arguments with
    | none => trivial
    | some tokens => exact trailing_ofArguments tokens

theorem recovered_ofItem (item : Item) : (ofItem nil item).Every Recovered := by
  cases item with
  | text lexeme => exact ⟨recovered_leaf rfl, trivial, trivial⟩
  | comment lexeme closed => exact ⟨recovered_leaf rfl, trivial, trivial⟩
  | escaped lexeme closed => exact ⟨recovered_leaf rfl, trivial, trivial⟩
  | interpolation style body closed =>
    have hending : (if closed then leaf (.closing style) style.closing nil else nil).Every Recovered := by
      split
      · exact ⟨recovered_leaf rfl, trivial, trivial⟩
      · trivial
    refine ⟨recovered_interpolation style body closed, ⟨recovered_leaf rfl, trivial, ?_⟩, trivial⟩
    split
    · exact hending
    · exact ⟨recovered_leaf rfl, trivial, hending⟩
  | directive indent tag arguments =>
    refine ⟨recovered_directive indent tag arguments, ⟨recovered_leaf rfl, trivial, ?_⟩, trivial⟩
    cases arguments with
    | none => trivial
    | some tokens => exact recovered_ofArguments tokens

theorem recovered_ofItems (xs : List Item) : (ofItems xs).Every Recovered := by
  induction xs with
  | nil => trivial
  | cons item xs ih =>
    rw [ofItems, ofItem_eq_append]
    exact (every_append _ _).2 ⟨recovered_ofItem item, ih⟩

theorem trailing_ofItem (item : Item) : (ofItem nil item).Trailing := by
  have h := recovered_ofItem item
  obtain ⟨label, children, hf, -⟩ := children_ofItem item
  rw [hf] at h ⊢
  exact ⟨fun _ => rfl, h.1.trailing, trivial⟩

/-! ## Records -/

section

variable {f : Forest} {parent : Option Nat} {offset index : Nat}

theorem hasUnclosed_of_record {r : Record} (hr : r ∈ f.records parent offset index) (he : r.isError = true)
    (hk : r.kind ≠ .string) : f.hasUnclosed = true := by
  induction f generalizing parent offset index with
  | nil => cases hr
  | node label children siblings ihc ihs =>
    rw [records, List.mem_cons, List.mem_append] at hr
    rw [hasUnclosed]
    rcases hr with rfl | hr | hr
    · simp_all [Label.isUnclosed]
    · simp [ihc hr]
    · simp [ihs hr]

/-- What is unclosed runs to the end of the forest. -/
theorem Trailing.stop (h : f.Trailing) {r : Record} (hr : r ∈ f.records parent offset index) (he : r.isError = true)
    (hk : r.kind ≠ .string) : r.stop = (offset + f.width : Nat) := by
  induction f generalizing parent offset index with
  | nil => cases hr
  | node label children siblings ihc ihs =>
    obtain ⟨hlast, hc, hs⟩ := h
    rw [records, List.mem_cons, List.mem_append] at hr
    rw [width]
    rcases hr with rfl | hr | hr
    · have hnil := hlast (by simp_all [Label.isUnclosed])
      simp only [hnil, width]
      omega
    · have hnil := hlast (by simp [hasUnclosed_of_record hr he hk])
      rw [ihc hc hr, hnil, width]
      omega
    · rw [ihs hs hr]
      omega

theorem node_of_every {P : Label → Forest → Prop} (h : f.Every P) {n : Nat × Record}
    (hn : n ∈ f.nodes parent offset index) : ∃ label children offset' parent',
      n.2 = record parent' offset' n.1 label children ∧ P label children ∧
      ∀ m ∈ children.nodes (some n.1) (offset' + label.indent.length + label.lexeme.length) (n.1 + 1),
        m ∈ f.nodes parent offset index := by
  induction f generalizing parent offset index with
  | nil => cases hn
  | node label children siblings ihc ihs =>
    obtain ⟨hl, hc, hs⟩ := h
    rw [nodes_node, List.mem_cons, List.mem_append] at hn
    simp only [nodes_node, List.mem_cons, List.mem_append]
    rcases hn with rfl | hn | hn
    · exact ⟨label, children, offset, parent, rfl, hl, fun m hm => .inr (.inl hm)⟩
    · obtain ⟨label', children', offset', parent', hr, hp, hm⟩ := ihc hc hn
      exact ⟨label', children', offset', parent', hr, hp, fun m h => .inr (.inl (hm m h))⟩
    · obtain ⟨label', children', offset', parent', hr, hp, hm⟩ := ihs hs hn
      exact ⟨label', children', offset', parent', hr, hp, fun m h => .inr (.inr (hm m h))⟩

theorem map_kind_rootNodes (f : Forest) (parent : Option Nat) (offset index : Nat) :
    (f.rootNodes parent offset index).map (·.2.kind) = f.rootLabels.map (·.kind) := by
  induction f generalizing offset index with
  | nil => rfl
  | node label children siblings _ ih =>
    rw [rootNodes, rootLabels, List.map_cons, List.map_cons, ih]
    rfl

theorem mem_nodes_of_rootNodes (h : ∀ q, parent = some q → q < index) {n : Nat × Record}
    (hn : n ∈ f.rootNodes parent offset index) : n ∈ f.nodes parent offset index := by
  rw [← filter_parent h] at hn
  exact (List.mem_filter.1 hn).1

theorem last_root (offset : Nat) (h : ∀ q, parent = some q → q < index) {last : Label}
    (hl : f.rootLabels.getLast? = some last) :
    ∃ n ∈ f.nodes parent offset index, (f.roots index).getLast? = some n.1 ∧ n.2.kind = last.kind := by
  have hkind := congrArg List.getLast? (f.map_kind_rootNodes parent offset index)
  rw [List.getLast?_map, List.getLast?_map, hl, Option.map_some, Option.map_eq_some_iff] at hkind
  obtain ⟨n, hn, hk⟩ := hkind
  refine ⟨n, mem_nodes_of_rootNodes h (List.mem_of_getLast? hn), ?_, hk⟩
  rw [← f.map_rootNodes parent offset index, List.getLast?_map, hn, Option.map_some]

/-- An unclosed list is a root, or lies in an unclosed list that ends where it ends. -/
theorem unclosed_inside (h : f.Every Recovered) {n : Nat × Record} (hn : n ∈ f.nodes parent offset index)
    (hk : n.2.kind = .parenthesized) (he : n.2.isError = true) :
    (∃ l ∈ f.rootLabels, l.kind = .parenthesized ∧ l.isError = true ∧ n.2.parent = parent) ∨
      ∃ p ∈ f.nodes parent offset index, n.2.parent = some p.1 ∧ p.2.kind.isList = true ∧ p.2.isError = true ∧
        p.2.stop = n.2.stop := by
  induction f generalizing parent offset index with
  | nil => cases hn
  | node label children siblings ihc ihs =>
    obtain ⟨hl, hc, hs⟩ := h
    rw [nodes_node, List.mem_cons, List.mem_append] at hn
    simp only [nodes_node, List.mem_cons, List.mem_append]
    rcases hn with rfl | hn | hn
    · exact .inl ⟨label, List.mem_cons_self, hk, he, rfl⟩
    · right
      rcases ihc hc hn with ⟨l, hroot, hlk, hle, hp⟩ | ⟨p, hp, hrest⟩
      · obtain ⟨hlist, herr⟩ := hl.inside l hroot hlk hle
        have hr : n.2 ∈ children.records (some index) (offset + label.indent.length + label.lexeme.length)
            (index + 1) := by
          rw [← map_snd_nodes]
          exact List.mem_map_of_mem hn
        refine ⟨_, .inl rfl, hp, hlist, herr, ?_⟩
        rw [hl.trailing.stop hr he (by simp [hk])]
        rfl
      · exact ⟨p, .inr (.inl hp), hrest⟩
    · rcases ihs hs hn with ⟨l, hroot, hrest⟩ | ⟨p, hp, hrest⟩
      · exact .inl ⟨l, List.mem_cons_of_mem _ hroot, hrest⟩
      · exact .inr ⟨p, .inr (.inr hp), hrest⟩

end

end Forest

/-! ## Where an item ends -/

def Item.kind : Item → Kind
  | text _ => .text
  | comment _ _ => .comment
  | escaped _ _ => .escapedInterpolation
  | interpolation style _ _ => .interpolation style
  | directive _ tag _ => .ofTag tag

theorem Item.isItem_kind (item : Item) : item.kind.isItem = true := by
  cases item with
  | directive indent tag arguments => exact Kind.isItem_of_isDirective (Kind.isDirective_ofTag tag)
  | _ => rfl

theorem Forest.rootLabels_isItem {xs : List Item} : ∀ l ∈ (ofItems xs).rootLabels, l.kind.isItem = true := by
  induction xs with
  | nil => exact nofun
  | cons item xs ih =>
    have hroots : ∃ label, (ofItem (ofItems xs) item).rootLabels = label :: (ofItems xs).rootLabels ∧
        label.kind = item.kind := by
      cases item with
      | _ => exact ⟨_, rfl, rfl⟩
    obtain ⟨label, hl, hk⟩ := hroots
    rw [ofItems, hl]
    exact List.forall_mem_cons.2 ⟨hk ▸ item.isItem_kind, ih⟩

theorem first_kind {before : List Item} {item : Item} {r : Record} (h : (itemRecords before item)[0]? = some r) :
    r.kind = item.kind := by
  cases item with
  | _ => exact (congrArg Record.kind (Option.some.inj h)).symm

theorem itemRecords_kind {before : List Item} {item : Item} {k : Nat} {r : Record}
    (h : (itemRecords before item)[k]? = some r) (hk : r.kind.isItem = true) : r.kind = item.kind := by
  obtain rfl := itemRecords_root h hk
  exact first_kind h

theorem Item.Read.rest_of_unclosed {lineStart : Bool} {cs rest : List Char} {item : Item}
    (h : Read lineStart cs item rest) (hu : (Forest.ofItem .nil item).hasUnclosed = true) :
    rest = [] ∨ startsTagBreak rest = true ∧ item.kind ≠ .comment ∧ item.kind ≠ .escapedInterpolation := by
  cases h with
  | comment e he =>
    have hc : e.closed = false := by simpa [Forest.ofItem, Forest.hasUnclosed, Label.isUnclosed] using hu
    exact .inl (by simpa using (he.2 hc).2)
  | escaped e he _ =>
    have hc : e.closed = false := by simpa [Forest.ofItem, Forest.hasUnclosed, Label.isUnclosed] using hu
    exact .inl (by simpa using (he.2 hc).2)
  | escapedSafe => simp [Forest.ofItem, Forest.hasUnclosed, Label.isUnclosed] at hu
  | interpolation style e he _ =>
    have hc : e.closed = false := by
      cases hb : e.body.isEmpty <;> cases hc : e.closed <;>
        simp_all [Forest.ofItem, Forest.ofInterpolation, Forest.leaf, Forest.hasUnclosed, Label.isUnclosed]
    exact (he.2 hc).2.imp_right fun hb => ⟨hb, by simp [kind], by simp [kind]⟩
  | directive => simp [Forest.ofItem, Forest.leaf, Forest.hasUnclosed, Label.isUnclosed] at hu
  | @arguments indent tag inner _ _ =>
    have hlayer := (Forest.nested (ArgumentToken.scan 0 inner).1).layered
    have hd := Kind.isDirective_ofTag tag
    rcases Forest.nest_scan_zero inner with hn | ⟨-, hn⟩
    · -- the list is closed, and so is all that is in it
      rw [hn] at hlayer
      simp [Forest.ofItem, Forest.leaf, Forest.ofArguments, Forest.group, Forest.hasUnclosed, Label.isUnclosed, hn,
        hlayer.1.closed] at hu
    · refine (ArgumentToken.next?_eq_none_iff.1 hn).imp_right fun hb => ⟨hb, ?_, ?_⟩
      · intro hk
        rw [show Kind.ofTag tag = _ from hk] at hd
        cases hd
      · intro hk
        rw [show Kind.ofTag tag = _ from hk] at hd
        cases hd
  | text => simp [Forest.ofItem, Forest.leaf, Forest.hasUnclosed, Label.isUnclosed] at hu
  | line => simp [Forest.ofItem, Forest.leaf, Forest.hasUnclosed, Label.isUnclosed] at hu

/-- An unclosed construct ends where its item does. -/
theorem unclosed_stop {text : List Char} {r : Record} (h : r ∈ (SyntaxTree.parse text).records)
    (he : r.isError = true) (hk : r.kind ≠ .string) : ∃ stop : Nat, r.stop = stop ∧
      (stop = text.length ∨ startsTagBreak (text.drop stop) = true ∧ r.kind ≠ .comment ∧
        r.kind ≠ .escapedInterpolation) := by
  obtain ⟨i, hi⟩ := Array.mem_iff_getElem?.1 h
  have h0 : i ≠ 0 := by
    rintro rfl
    rw [(document_record hi).2] at he
    cases he
  obtain ⟨before, item, after, k, hx, -, hr⟩ := record_item hi h0
  obtain ⟨ls, suf, rest, htext, hread, -⟩ := items_read (boundary_start text) hx
  have hmem := List.mem_of_getElem? hr
  have htext : text = before.flatMap Item.lexeme ++ (item.lexeme ++ rest) := by rw [htext, hread.append]
  have hwidth : (Forest.ofItem .nil item).width = item.lexeme.length := Forest.width_ofItem hread
  refine ⟨(before.flatMap Item.lexeme).length + item.lexeme.length, ?_, ?_⟩
  · rw [(Forest.trailing_ofItem item).stop hmem he hk, hwidth]
  · rcases hread.rest_of_unclosed (Forest.hasUnclosed_of_record hmem he hk) with hnil | ⟨hb, hc, hesc⟩
    · left
      rw [htext, hnil, List.append_nil, List.length_append]
    · right
      refine ⟨?_, ?_, ?_⟩
      · rw [htext, List.drop_length_add_append, List.drop_left]
        exact hb
      · intro hkind
        exact hc (itemRecords_kind hr (by rw [hkind]; rfl) ▸ hkind)
      · intro hkind
        exact hesc (itemRecords_kind hr (by rw [hkind]; rfl) ▸ hkind)

/-! ## The tree of a text -/

theorem ne_zero_of_kind {text : List Char} {i : Nat} {r : Record} (h : (SyntaxTree.parse text).records[i]? = some r)
    (hk : r.kind ≠ .document) : i ≠ 0 := by
  rintro rfl
  obtain ⟨root, hroot, hdoc, -⟩ := parse_root text
  rw [h] at hroot
  cases hroot
  exact hk hdoc

theorem last_child {text : List Char} {i : Nat} {r : Record} (h : (SyntaxTree.parse text).records[i]? = some r)
    {closer : Kind} (hc : r.kind.closer? = some closer) : ∃ (j : Nat) (last : Record),
      r.children.getLast? = some (j : Int) ∧ (SyntaxTree.parse text).records[j]? = some last ∧
      (r.isError = true ↔ last.kind ≠ closer) := by
  have hdoc : r.kind ≠ .document := by
    intro hk
    rw [hk] at hc
    cases hc
  obtain ⟨label, children, offset, parent, hr, hrec, hsub⟩ :=
    Forest.node_of_every (Forest.recovered_ofItems _) (node_below_root h (ne_zero_of_kind h hdoc))
  dsimp only at hr hsub
  subst hr
  obtain ⟨last, hlast, hiff⟩ := hrec.closer closer hc
  have hbefore : ∀ q, some i = some q → q < i + 1 := by
    intro q hq
    rw [← Option.some.inj hq]
    exact Nat.lt_succ_self i
  obtain ⟨n, hn, hroot, hkind⟩ :=
    Forest.last_root (offset + label.indent.length + label.lexeme.length) hbefore hlast
  refine ⟨n.1, n.2, ?_, record_of_node (hsub n hn), ?_⟩
  · rw [Forest.record, List.getLast?_map, hroot, Option.map_some]
  · rw [hkind]
    exact hiff

theorem unclosed_parent {text : List Char} {i : Nat} {r : Record} (h : (SyntaxTree.parse text).records[i]? = some r)
    (hk : r.kind = .parenthesized) (he : r.isError = true) : ∃ p q, r.parent = some p ∧
      (SyntaxTree.parse text).records[p]? = some q ∧ (q.kind = .parenthesized ∨ q.kind = .arguments) ∧
      q.isError = true ∧ q.stop = r.stop := by
  have hnode := node_below_root h (ne_zero_of_kind h (by simp [hk]))
  rcases Forest.unclosed_inside (Forest.recovered_ofItems _) hnode hk he with
    ⟨l, hl, hlk, -⟩ | ⟨p, hp, hparent, hlist, herr, hstop⟩
  · have := Forest.rootLabels_isItem l hl
    rw [hlk] at this
    cases this
  · refine ⟨p.1, p.2, hparent, record_of_node hp, ?_, herr, hstop⟩
    cases hq : p.2.kind <;> simp_all [Kind.isList]

/-- How a tree stands where the text it was read from leaves a construct unclosed: the construct is an error, it
ends with the text or, if it is no leaf, before a tag line, and with a list all that it lies in is unclosed. -/
structure SyntaxTree.Recovers (tree : SyntaxTree) : Prop where
  unclosed_iff : ∀ r ∈ tree.records, ∀ closer, r.kind.closer? = some closer → ∃ (j : Nat) (last : Record),
    r.children.getLast? = some (j : Int) ∧ tree.records[j]? = some last ∧ (r.isError = true ↔ last.kind ≠ closer)
  cut : ∀ r ∈ tree.records, r.kind.closer?.isSome = true → r.isError = true → ∃ stop : Nat, r.stop = stop ∧
    (stop = tree.text.length ∨ startsTagBreak (tree.text.drop stop) = true)
  leaf_stop : ∀ r ∈ tree.records, r.kind = .comment ∨ r.kind = .escapedInterpolation → r.isError = true →
    r.stop = tree.text.length
  outward : ∀ r ∈ tree.records, r.kind = .parenthesized → r.isError = true → ∃ p q, r.parent = some p ∧
    tree.records[p]? = some q ∧ (q.kind = .parenthesized ∨ q.kind = .arguments) ∧ q.isError = true ∧ q.stop = r.stop

theorem parse_recovers (text : List Char) : (SyntaxTree.parse text).Recovers := by
  constructor
  · intro r hr closer hc
    obtain ⟨i, hi⟩ := Array.mem_iff_getElem?.1 hr
    exact last_child hi hc
  · intro r hr hc he
    obtain ⟨stop, hstop, hend⟩ := unclosed_stop hr he (by rintro hk; rw [hk] at hc; cases hc)
    exact ⟨stop, hstop, hend.imp_right And.left⟩
  · intro r hr hk he
    obtain ⟨stop, hstop, hend⟩ := unclosed_stop hr he (by rcases hk with hk | hk <;> simp [hk])
    rcases hend with hend | ⟨-, hcomment, hescaped⟩
    · rw [hstop, hend]
      rfl
    · exact absurd hk (not_or.2 ⟨hcomment, hescaped⟩)
  · intro r hr hk he
    obtain ⟨i, hi⟩ := Array.mem_iff_getElem?.1 hr
    exact unclosed_parent hi hk he

example : ((SyntaxTree.parse "@if((a)(b'\n@end(".toList).records.toList.filter (·.isError)).map
    (fun r => (r.kind, r.start, r.stop)) =
    [(.arguments, 3, 10), (.parenthesized, 7, 10), (.string, 9, 10), (.arguments, 15, 16)] := by
  decide +kernel

end EdgeTemplate
