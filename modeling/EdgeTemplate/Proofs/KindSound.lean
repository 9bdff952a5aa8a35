import EdgeTemplate.Proofs.UnclosedSound

/-!
# What lies in what

The kind of a node says which kinds of nodes it has right below it (`Kind.holds`) and whether it can be an error
(`Kind.mayFail`). Every tree of a text keeps to this (`kind_of_child`, `kind_of_error`). So the top-level nodes are
those of the kinds of items, and all that belongs to an argument list lies in a directive.
-/

namespace EdgeTemplate

namespace Kind

/-- What stands in parentheses. -/
def isArgument : Kind → Bool
  | leftParen | rightParen | argumentText | string | parenthesized => true
  | _ => false

def holds : Kind → Kind → Bool
  | document, k => k.isItem
  | interpolation style, k => k == opening style || k == expression || k == closing style
  | directive _, k => k == directiveName || k == arguments
  | arguments, k | parenthesized, k => k.isArgument
  | _, _ => false

def mayFail : Kind → Bool
  | comment | escapedInterpolation | interpolation _ | arguments | parenthesized | string => true
  | _ => false

theorem isItem_of_isInterpolation {k : Kind} (h : k.isInterpolation = true) : k.isItem = true := by
  cases k <;> simp_all [isInterpolation, isItem]

theorem holds_of_isList {kind : Kind} (h : kind.isList = true) (k : Kind) : kind.holds k = k.isArgument := by
  cases kind <;> simp_all [isList, holds]

theorem mayFail_of_isList {kind : Kind} (h : kind.isList = true) : kind.mayFail = true := by
  cases kind <;> simp_all [isList, mayFail]

theorem isList_of_holds {outer k : Kind} (h : outer.holds k = true) (hk : k.isArgument = true) :
    outer.isList = true := by
  cases k <;> simp [isArgument] at hk <;> cases outer <;> simp_all [holds, isList, isItem]

theorem isDirective_of_holds {outer : Kind} (h : outer.holds .arguments = true) : outer.isDirective = true := by
  cases outer <;> simp_all [holds, isDirective, isItem, isArgument]

theorem document_of_holds {outer k : Kind} (h : outer.holds k = true) (hk : k.isItem = true) : outer = .document := by
  cases k <;> simp [isItem] at hk <;> cases outer <;> simp_all [holds, isArgument]

theorem not_holds_document (outer : Kind) : outer.holds .document = false := by
  cases outer <;> simp [holds, isItem, isArgument]

theorem not_holds_of_isLeaf {outer : Kind} (h : outer.isLeaf = true) (k : Kind) : outer.holds k = false := by
  cases outer <;> simp_all [isLeaf, holds]

end Kind

namespace Forest

/-- A node, given by its label and its children, keeps to what its kind says. -/
structure Fits (label : Label) (children : Forest) : Prop where
  below : ∀ l ∈ children.rootLabels, label.kind.holds l.kind = true
  error : label.isError = true → label.kind.mayFail = true

theorem fits_leaf {label : Label} (h : label.isError = true → label.kind.mayFail = true) : Fits label nil :=
  ⟨fun _ hl => absurd hl List.not_mem_nil, h⟩

/-! ## Arguments -/

/-- The forest may stand in a list. -/
structure InList (f : Forest) : Prop where
  roots : ∀ l ∈ f.rootLabels, l.kind.isArgument = true
  fits : f.Every Fits

theorem inList_nil : InList nil := ⟨fun _ hl => absurd hl List.not_mem_nil, trivial⟩

theorem InList.node {label : Label} {children siblings : Forest} (hs : siblings.InList)
    (hk : label.kind.isArgument = true) (hf : Fits label children) (hc : children.Every Fits) :
    InList (node label children siblings) :=
  ⟨List.forall_mem_cons.2 ⟨hk, hs.roots⟩, hf, hc, hs.fits⟩

theorem fits_group {kind : Kind} (hk : kind.isList = true) (isError : Bool) {inside : Forest} (h : inside.InList) :
    Fits { kind, isError } (leaf .leftParen ['('] inside) ∧ (leaf .leftParen ['('] inside).Every Fits := by
  have hin : (leaf .leftParen ['('] inside).InList := h.node rfl (fits_leaf (by simp)) trivial
  refine ⟨⟨fun l hl => ?_, fun _ => Kind.mayFail_of_isList hk⟩, hin.fits⟩
  rw [Kind.holds_of_isList hk]
  exact hin.roots l hl

theorem Nested.inList {tokens : List ArgumentToken} {inside : Forest} {outer : List Forest}
    (h : Nested tokens inside outer) : inside.InList ∧ ∀ f ∈ outer, f.InList := by
  induction h with
  | nil => exact ⟨inList_nil, fun f hf => absurd hf List.not_mem_nil⟩
  | plain ho hc _ ih =>
    refine ⟨ih.1.node ?_ (fits_leaf ?_) trivial, ih.2⟩
    · rcases ArgumentToken.kind_label_plain ho hc with hk | ⟨hk, -⟩ <;> rw [hk] <;> rfl
    · rcases ArgumentToken.kind_label_plain ho hc with hk | ⟨-, he⟩
      · rw [hk]
        exact fun _ => rfl
      · simp [he]
  | closing _ ih => exact ⟨inList_nil.node rfl (fits_leaf (by simp)) trivial, List.forall_mem_cons.2 ih⟩
  | unclosed _ ih =>
    obtain ⟨hf, hc⟩ := @fits_group .parenthesized rfl true _ ih.1
    exact ⟨inList_nil.node rfl hf hc, ih.2⟩
  | closed _ ih =>
    obtain ⟨hs, hout⟩ := List.forall_mem_cons.1 ih.2
    obtain ⟨hf, hc⟩ := @fits_group .parenthesized rfl false _ ih.1
    exact ⟨hs.node rfl hf hc, hout⟩

theorem fits_ofArguments (tokens : List ArgumentToken) : (ofArguments tokens).Every Fits := by
  obtain ⟨hf, hc⟩ := @fits_group .arguments rfl (nest tokens).2.isEmpty _ (nested tokens).inList.1
  exact ⟨hf, hc, trivial⟩

/-! ## Items -/

theorem fits_ofItem (item : Item) : (ofItem nil item).Every Fits := by
  cases item with
  | text lexeme => exact ⟨fits_leaf (by simp), trivial, trivial⟩
  | comment lexeme closed => exact ⟨fits_leaf fun _ => rfl, trivial, trivial⟩
  | escaped lexeme closed => exact ⟨fits_leaf fun _ => rfl, trivial, trivial⟩
  | interpolation style body closed =>
    refine ⟨⟨?_, fun _ => rfl⟩, ?_, trivial⟩
    · cases hb : body.isEmpty <;> cases closed <;> simp [ofInterpolation, leaf, rootLabels, Kind.holds, hb]
    · have hleaf : ∀ {kind : Kind} {lexeme : List Char} {siblings : Forest}, siblings.Every Fits →
          (leaf kind lexeme siblings).Every Fits := fun hs => ⟨fits_leaf (by simp), trivial, hs⟩
      cases hb : body.isEmpty <;> cases closed <;>
        simp only [ofInterpolation, hb, Bool.false_eq_true, if_true, if_false]
      · exact hleaf (hleaf trivial)
      · exact hleaf (hleaf (hleaf trivial))
      · exact hleaf trivial
      · exact hleaf (hleaf trivial)
  | directive indent tag arguments =>
    have hkind := Kind.isDirective_ofTag tag
    refine ⟨⟨?_, by simp⟩, ⟨fits_leaf (by simp), trivial, ?_⟩, trivial⟩
    · cases hk : Kind.ofTag tag <;> simp only [hk, Kind.isDirective, Bool.false_eq_true] at hkind
      cases arguments <;> simp [leaf, rootLabels, ofArguments, group, Kind.holds]
    · cases arguments with
      | none => trivial
      | some tokens => exact fits_ofArguments tokens

theorem fits_ofItems (xs : List Item) : (ofItems xs).Every Fits := by
  induction xs with
  | nil => trivial
  | cons item xs ih =>
    rw [ofItems, ofItem_eq_append]
    exact (every_append _ _).2 ⟨fits_ofItem item, ih⟩

theorem fits_ofText (text : List Char) : (ofText text).Every Fits :=
  ⟨⟨rootLabels_isItem, by simp⟩, fits_ofItems _, trivial⟩

theorem holds_of_fits {f : Forest} (h : f.Every Fits) {parent : Option Nat} {offset index : Nat} {n : Nat × Record}
    (hn : n ∈ f.nodes parent offset index) :
    (n.2.parent = parent ∧ ∃ l ∈ f.rootLabels, l.kind = n.2.kind) ∨
      ∃ p ∈ f.nodes parent offset index, n.2.parent = some p.1 ∧ p.2.kind.holds n.2.kind = true := by
  induction f generalizing parent offset index with
  | nil => cases hn
  | node label children siblings ihc ihs =>
    obtain ⟨hl, hc, hs⟩ := h
    rw [nodes_node, List.mem_cons, List.mem_append] at hn
    simp only [nodes_node, List.mem_cons, List.mem_append]
    rcases hn with rfl | hn | hn
    · exact .inl ⟨rfl, label, List.mem_cons_self, rfl⟩
    · right
      rcases ihc hc hn with ⟨hp, l, hroot, hk⟩ | ⟨p, hp, hrest⟩
      · refine ⟨_, .inl rfl, hp, ?_⟩
        rw [← hk]
        exact hl.below l hroot
      · exact ⟨p, .inr (.inl hp), hrest⟩
    · rcases ihs hs hn with ⟨hp, l, hroot, hk⟩ | ⟨p, hp, hrest⟩
      · exact .inl ⟨hp, l, List.mem_cons_of_mem _ hroot, hk⟩
      · exact .inr ⟨p, .inr (.inr hp), hrest⟩

end Forest

/-! ## The tree of a text -/

section

variable {text : List Char} {i j p : Nat} {r s : Record}

theorem kind_of_child (hj : (SyntaxTree.parse text).records[j]? = some s) (hp : s.parent = some p)
    (hr : (SyntaxTree.parse text).records[p]? = some r) : r.kind.holds s.kind = true := by
  rcases Forest.holds_of_fits (Forest.fits_ofText text) (node_of_record hj) with ⟨hnone, -⟩ | ⟨q, hq, hparent, hholds⟩
  · rw [hp] at hnone
    cases hnone
  · rw [← parse_nodes] at hq
    have hq := SyntaxTree.mem_nodes.1 hq
    rw [hp, Option.some.injEq] at hparent
    rw [← hparent, hr] at hq
    cases hq
    exact hholds

theorem kind_of_error (hr : (SyntaxTree.parse text).records[i]? = some r) (he : r.isError = true) :
    r.kind.mayFail = true := by
  have hm := Array.mem_of_getElem? hr
  rw [SyntaxTree.parse_eq, List.mem_toArray] at hm
  obtain ⟨label, children, _, hfits, hk, herror, -⟩ := Forest.Every.record (Forest.fits_ofText text) hm
  rw [hk]
  exact hfits.error (herror ▸ he)

theorem root_record (hr : (SyntaxTree.parse text).records[0]? = some r) :
    r.kind = .document ∧ r.parent = none ∧ r.stop = text.length := by
  obtain ⟨root, hroot, hkind, hparent, -, hstop⟩ := parse_root text
  rw [hr] at hroot
  cases hroot
  exact ⟨hkind, hparent, hstop⟩

theorem ne_zero_of_error (hr : (SyntaxTree.parse text).records[i]? = some r) (he : r.isError = true) : i ≠ 0 := by
  rintro rfl
  have hfail := kind_of_error hr he
  rw [(root_record hr).1] at hfail
  cases hfail

theorem no_child_of_isLeaf (hr : (SyntaxTree.parse text).records[p]? = some r) (hl : r.kind.isLeaf = true)
    (hj : (SyntaxTree.parse text).records[j]? = some s) : s.parent ≠ some p := by
  intro hp
  have := kind_of_child hj hp hr
  rw [Kind.not_holds_of_isLeaf hl] at this
  cases this

theorem eq_zero_of_document (hr : (SyntaxTree.parse text).records[i]? = some r) (hk : r.kind = .document) : i = 0 := by
  by_cases h0 : i = 0
  · exact h0
  · obtain ⟨p, hp, -⟩ := parse_parent hr h0
    obtain ⟨-, q, hq, -⟩ := SyntaxTree.parent_listed (parse_nodes text) hr hp
    have := kind_of_child hr hp hq
    rw [hk, Kind.not_holds_document] at this
    cases this

/-- The nodes of items are the top-level ones. -/
theorem parent_of_isItem (hr : (SyntaxTree.parse text).records[i]? = some r) (hk : r.kind.isItem = true) :
    r.parent = some 0 := by
  have h0 : i ≠ 0 := ne_zero_of_kind hr fun hdoc => by
    rw [hdoc] at hk
    cases hk
  obtain ⟨p, hp, -⟩ := parse_parent hr h0
  obtain ⟨-, q, hq, -⟩ := SyntaxTree.parent_listed (parse_nodes text) hr hp
  rw [hp, eq_zero_of_document hq (Kind.document_of_holds (kind_of_child hr hp hq) hk)]

end

end EdgeTemplate
