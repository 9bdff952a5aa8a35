import EdgeTemplate.Proofs.ForestSound

/-!
# Leaves

The nodes without children carry the text. `Forest.leaves` lists them in document order, each with the
characters that belong to no node in front of it, and `Item.leaves` says which they are for an item.
A property of leaves is proved for a whole document by proving it for the leaves of one item where
that item was read (`throughout_items`), and is found again at the records of the tree
(`Throughout.at_leaf`).
-/

namespace EdgeTemplate

/-- The text of a run of leaves. -/
def spell (labels : List Label) : List Char := labels.flatMap fun l => l.indent ++ l.lexeme

@[simp] theorem spell_nil : spell [] = [] := rfl

@[simp] theorem spell_cons (l : Label) (ls : List Label) : spell (l :: ls) = l.indent ++ l.lexeme ++ spell ls := rfl

@[simp] theorem spell_append (xs ys : List Label) : spell (xs ++ ys) = spell xs ++ spell ys := by
  simp [spell]

namespace Forest

/-- The nodes without children; `pending` are characters in front of the first that it takes over. -/
def leaves (pending : List Char) : Forest → List Label
  | nil => []
  | node label nil siblings => { label with indent := pending ++ label.indent } :: siblings.leaves []
  | node label children siblings =>
    children.leaves (pending ++ label.indent ++ label.lexeme) ++ siblings.leaves []

theorem leaves_node (pending : List Char) (label : Label) {children : Forest} (h : children ≠ nil)
    (siblings : Forest) : (node label children siblings).leaves pending =
      children.leaves (pending ++ label.indent ++ label.lexeme) ++ siblings.leaves [] := by
  cases children with
  | nil => exact absurd rfl h
  | node => rfl

theorem leaves_append (f g : Forest) : (f.append g).leaves [] = f.leaves [] ++ g.leaves [] := by
  induction f with
  | nil => rfl
  | node label children siblings _ ih =>
    by_cases hc : children = nil
    · subst hc
      rw [append, leaves, leaves, ih, List.cons_append]
    · simp only [append, leaves_node _ _ hc, ih, List.append_assoc]

theorem spell_leaves {f : Forest} (hf : f ≠ nil) (pending : List Char) :
    spell (f.leaves pending) = pending ++ f.text := by
  induction f generalizing pending with
  | nil => exact absurd rfl hf
  | node label children siblings ihc ihs =>
    have hs : spell (siblings.leaves []) = siblings.text := by
      by_cases h : siblings = nil
      · subst h; rfl
      · exact ihs h []
    by_cases hc : children = nil
    · subst hc
      simp [leaves, hs, text]
    · rw [leaves_node _ _ hc, spell_append, ihc hc, hs]
      simp [text]

end Forest

/-! ## The leaves of an item -/

def Item.leaves : Item → List Label
  | text lexeme => [{ kind := .text, lexeme }]
  | comment lexeme closed => [{ kind := .comment, isError := !closed, lexeme }]
  | escaped lexeme closed => [{ kind := .escapedInterpolation, isError := !closed, lexeme }]
  | interpolation style body closed =>
    { kind := .opening style, lexeme := style.opening } ::
      ((if body.isEmpty then [] else [{ kind := .expression, lexeme := body }]) ++
        if closed then [{ kind := .closing style, lexeme := style.closing }] else [])
  | directive indent tag none => [{ kind := .directiveName, indent, lexeme := tag }]
  | directive indent tag (some tokens) =>
    { kind := .directiveName, indent, lexeme := tag } :: (ArgumentToken.opening :: tokens).map ArgumentToken.label

theorem spell_map_label (tokens : List ArgumentToken) :
    spell (tokens.map ArgumentToken.label) = tokens.flatMap ArgumentToken.lexeme := by
  induction tokens with
  | nil => rfl
  | cons token tokens ih =>
    rw [List.map_cons, spell_cons, ih, List.flatMap_cons]
    cases token <;> rfl

theorem spell_item_leaves (item : Item) : spell item.leaves = item.lexeme := by
  cases item with
  | interpolation style body closed =>
    cases hb : body.isEmpty with
    | true =>
      have : body = [] := List.isEmpty_iff.1 hb
      cases closed <;> simp [Item.leaves, Item.lexeme, this]
    | false => cases closed <;> simp [Item.leaves, Item.lexeme, hb]
  | directive indent tag arguments =>
    cases arguments with
    | none => simp [Item.leaves, Item.lexeme]
    | some tokens =>
      rw [Item.leaves, spell_cons, spell_map_label, List.flatMap_cons]
      simp [Item.lexeme, ArgumentToken.lexeme]
  | _ => simp [Item.leaves, Item.lexeme]

theorem spell_items_leaves (xs : List Item) : spell (xs.flatMap Item.leaves) = xs.flatMap Item.lexeme := by
  induction xs with
  | nil => rfl
  | cons item xs ih => rw [List.flatMap_cons, spell_append, spell_item_leaves, ih, List.flatMap_cons]

namespace Forest

theorem Nested.leaves_eq {tokens : List ArgumentToken} {inside : Forest} {outer : List Forest}
    (h : Nested tokens inside outer) :
    inside.leaves [] ++ outer.flatMap (leaves []) = tokens.map ArgumentToken.label := by
  induction h with
  | nil => rfl
  | plain _ _ _ ih => simp [leaves, ← ih]
  | closing _ ih => simp [leaf, leaves, ArgumentToken.label, ← ih]
  | unclosed _ ih => simpa [group, leaf, leaves, ArgumentToken.label] using ih
  | closed _ ih => simpa [group, leaf, leaves, ArgumentToken.label] using ih

theorem leaves_ofArguments (cs : List Char) :
    (ofArguments (ArgumentToken.scan 0 cs).1).leaves [] =
      (ArgumentToken.opening :: (ArgumentToken.scan 0 cs).1).map ArgumentToken.label := by
  rw [List.map_cons, ← (nested _).leaves_eq]
  rcases nest_scan_zero cs with h | ⟨h, -⟩ <;> simp [ofArguments, group, leaf, leaves, h, ArgumentToken.label]

theorem leaves_ofItem {lineStart : Bool} {cs rest : List Char} {item : Item} (h : Item.Read lineStart cs item rest) :
    (ofItem nil item).leaves [] = item.leaves := by
  cases h with
  | interpolation style e _ _ =>
    cases hb : e.body.isEmpty <;> cases e.closed <;>
      simp [ofItem, ofInterpolation, leaf, leaves, Item.leaves, hb]
  | @arguments indent tag inner _ _ =>
    simp only [ofItem, leaf, leaves, Item.leaves, Option.elim_some, leaves_ofArguments]
    simp
  | _ => simp [ofItem, leaf, leaves, Item.leaves]

theorem leaves_ofItems {xs : List Item} (h : ∀ item ∈ xs, ∃ ls suf rest, Item.Read ls suf item rest) :
    (ofItems xs).leaves [] = xs.flatMap Item.leaves := by
  induction xs with
  | nil => rfl
  | cons item xs ih =>
    obtain ⟨ls, suf, rest, hr⟩ := h item (by simp)
    rw [ofItems, ofItem_eq_append, leaves_append, leaves_ofItem hr, ih fun i hi => h i (by simp [hi]),
      List.flatMap_cons]

end Forest

/-! ## Leaves as records -/

/-- What a record says about a node on its own: its kind, whether it is an error, and its span. -/
def Record.outline (r : Record) : Kind × Bool × Int × Int := (r.kind, r.isError, r.start, r.stop)

/-- The outlines of a run of leaves that starts at `offset`. -/
def outlines (offset : Nat) : List Label → List (Kind × Bool × Int × Int)
  | [] => []
  | l :: ls =>
    let start := offset + l.indent.length
    let stop := start + l.lexeme.length
    (l.kind, l.isError, (start : Int), (stop : Int)) :: outlines stop ls

theorem outlines_append (offset : Nat) (xs ys : List Label) :
    outlines offset (xs ++ ys) = outlines offset xs ++ outlines (offset + (spell xs).length) ys := by
  induction xs generalizing offset with
  | nil => rfl
  | cons l xs ih =>
    rw [List.cons_append, outlines, outlines, ih]
    simp [Nat.add_assoc]

theorem Forest.roots_eq_nil {f : Forest} {index : Nat} : f.roots index = [] ↔ f = nil := by
  cases f <;> simp [roots]

theorem Forest.records_leaves (f : Forest) (pending : List Char) (parent : Option Nat) (offset index : Nat) :
    ((f.records parent (offset + pending.length) index).filter (·.children.isEmpty)).map Record.outline =
      outlines offset (f.leaves pending) := by
  induction f generalizing pending parent offset index with
  | nil => rfl
  | node label children siblings ihc ihs =>
    have hs := fun o i => ihs [] parent o i
    simp only [List.length_nil, Nat.add_zero] at hs
    by_cases hc : children = nil
    · subst hc
      simp [records, leaves, outlines, roots, hs, Record.outline, width, Nat.add_assoc]
    · have hroots : (children.roots (index + 1)).isEmpty = false := by
        simpa [roots_eq_nil] using hc
      have hin := ihc (pending ++ label.indent ++ label.lexeme) (some index) offset (index + 1)
      have hlen := congrArg List.length (spell_leaves hc (pending ++ label.indent ++ label.lexeme))
      simp only [List.length_append, length_text] at hin hlen
      rw [leaves_node _ _ hc, outlines_append, hlen, ← hin, records, List.filter_cons]
      simp only [List.isEmpty_map, hroots, Bool.false_eq_true, ite_false, List.filter_append, List.map_append, hs,
        Nat.add_assoc]

/-! ## Properties of leaves where they stand -/

/-- `P` holds of each leaf, together with the text before its indentation and the text after it. -/
def Throughout (P : List Char → Label → List Char → Prop) : List Char → List Label → List Char → Prop
  | _, [], _ => True
  | pre, l :: ls, rest => P pre l (spell ls ++ rest) ∧ Throughout P (pre ++ (l.indent ++ l.lexeme)) ls rest

theorem throughout_append (P : List Char → Label → List Char → Prop) (pre : List Char) (xs ys : List Label)
    (rest : List Char) : Throughout P pre (xs ++ ys) rest ↔
      Throughout P pre xs (spell ys ++ rest) ∧ Throughout P (pre ++ spell xs) ys rest := by
  induction xs generalizing pre with
  | nil => simp [Throughout]
  | cons l xs ih => simp [Throughout, ih, and_assoc]

/-- The leaves of a document have a property if those of each item have it where the item is read. -/
theorem throughout_items {P : List Char → Label → List Char → Prop}
    (hstep : ∀ ls pre cs item rest, Boundary ls pre cs → Item.Read ls cs item rest →
      Throughout P pre item.leaves rest)
    {lineStart : Bool} {pre cs : List Char} (hb : Boundary lineStart pre cs) :
    Throughout P pre ((items lineStart cs).flatMap Item.leaves) [] := by
  fun_induction items lineStart cs generalizing pre with
  | case1 => trivial
  | case2 ls cs hne _ first =>
    rename_i ih
    have hread := Item.next_read ls hne
    rw [List.flatMap_cons, throughout_append, spell_item_leaves, spell_items_leaves, items_append, List.append_nil]
    exact ⟨hstep ls pre cs _ _ hb hread, ih (hread.boundary pre)⟩

/-- The tokens of an argument list have a property if each has it where it is read. -/
theorem throughout_scan {P : List Char → Label → List Char → Prop}
    (hstep : ∀ pre cs token rest, Boundary false pre cs → ArgumentToken.Read cs token rest → P pre token.label rest)
    (depth : Nat) {pre cs : List Char} (hb : Boundary false pre cs) :
    Throughout P pre ((ArgumentToken.scan depth cs).1.map ArgumentToken.label) (ArgumentToken.scan depth cs).2 := by
  fun_induction ArgumentToken.scan depth cs generalizing pre with
  | case1 => trivial
  | case2 depth cs token rest hn => exact ⟨hstep pre cs token rest hb (ArgumentToken.read_of_next? hn), trivial⟩
  | case3 depth cs token rest hn =>
    rename_i ih
    have hread := ArgumentToken.read_of_next? hn
    refine ⟨?_, ?_⟩
    · have happ := ArgumentToken.scan_append (token.depthAfter depth) rest
      rw [← spell_map_label] at happ
      rw [happ]
      exact hstep pre cs token rest hb hread
    · rw [ArgumentToken.label_append]
      exact ih (hread.boundary pre)

theorem mem_outlines {offset : Nat} {ls : List Label} {o : Kind × Bool × Int × Int} (ho : o ∈ outlines offset ls) :
    ∃ before l after, ls = before ++ l :: after ∧
      o = (l.kind, l.isError, ((offset + (spell before).length + l.indent.length : Nat) : Int),
        ((offset + (spell before).length + l.indent.length + l.lexeme.length : Nat) : Int)) := by
  induction ls generalizing offset with
  | nil => cases ho
  | cons l ls ih =>
    rw [outlines, List.mem_cons] at ho
    rcases ho with rfl | ho
    · exact ⟨[], l, ls, rfl, by simp⟩
    · obtain ⟨before, l', after, rfl, rfl⟩ := ih ho
      exact ⟨l :: before, l', after, rfl, by simp [Int.add_assoc]⟩

theorem Throughout.at_leaf {P : List Char → Label → List Char → Prop} {pre rest : List Char} {ls : List Label}
    (h : Throughout P pre ls rest) {o : Kind × Bool × Int × Int} (ho : o ∈ outlines pre.length ls) :
    ∃ before l after, pre ++ spell ls ++ rest = before ++ (l.indent ++ (l.lexeme ++ after)) ∧ P before l after ∧
      o = (l.kind, l.isError, ((before ++ l.indent).length : Int), ((before ++ l.indent ++ l.lexeme).length : Int)) := by
  obtain ⟨before, l, after, rfl, rfl⟩ := mem_outlines ho
  have hl := ((throughout_append P pre before (l :: after) rest).1 h).2.1
  refine ⟨pre ++ spell before, l, spell after ++ rest, by simp, hl, ?_⟩
  simp [Nat.add_assoc]

/-- The leaf that holds the characters after `u`, or has them in its indentation. -/
theorem Throughout.at_offset {P : List Char → Label → List Char → Prop} {pre rest : List Char} {ls : List Label}
    (h : Throughout P pre ls rest) {u v : List Char} (hs : spell ls = u ++ v) (hv : v ≠ []) :
    ∃ before l after x y, l.indent ++ l.lexeme = x ++ y ∧ y ≠ [] ∧ before ++ x = pre ++ u ∧ y ++ after = v ++ rest ∧
      P before l after ∧ l ∈ ls ∧
      (l.kind, l.isError, ((before ++ l.indent).length : Int), ((before ++ (l.indent ++ l.lexeme)).length : Int)) ∈
        outlines pre.length ls := by
  induction ls generalizing pre u with
  | nil =>
    rw [spell_nil] at hs
    exact absurd (List.append_eq_nil_iff.1 hs.symm).2 hv
  | cons l ls ih =>
    have hlater : ∀ u', spell ls = u' ++ v → u = l.indent ++ l.lexeme ++ u' →
        ∃ before l' after x y, l'.indent ++ l'.lexeme = x ++ y ∧ y ≠ [] ∧ before ++ x = pre ++ u ∧
          y ++ after = v ++ rest ∧ P before l' after ∧ l' ∈ l :: ls ∧
          (l'.kind, l'.isError, ((before ++ l'.indent).length : Int),
            ((before ++ (l'.indent ++ l'.lexeme)).length : Int)) ∈ outlines pre.length (l :: ls) := by
      intro u' hs' hu
      obtain ⟨before, l', after, x, y, hl, hy, hx, ha, hp, hm, ho⟩ := ih h.2 hs'
      refine ⟨before, l', after, x, y, hl, hy, ?_, ha, hp, List.mem_cons_of_mem _ hm, ?_⟩
      · rw [hx, hu]
        simp
      · have hlen : pre.length + l.indent.length + l.lexeme.length = (pre ++ (l.indent ++ l.lexeme)).length := by
          simp [Nat.add_assoc]
        rw [outlines, hlen]
        exact List.mem_cons_of_mem _ ho
    rw [spell_cons] at hs
    rcases List.append_eq_append_iff.1 hs with ⟨u', hu, hs'⟩ | ⟨y, hl, hv'⟩
    · exact hlater u' hs' hu
    · by_cases hy : y = []
      · subst hy
        exact hlater [] (by simpa using hv'.symm) (by simpa using hl.symm)
      · refine ⟨pre, l, spell ls ++ rest, u, y, hl, hy, rfl, ?_, h.1, List.mem_cons_self, ?_⟩
        · rw [hv', List.append_assoc]
        · rw [outlines]
          simp [Int.add_assoc]

end EdgeTemplate
