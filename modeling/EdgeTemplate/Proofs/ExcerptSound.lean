import EdgeTemplate.Proofs.ArenaSound
import EdgeTemplate.Proofs.Graft
import EdgeTemplate.Proofs.TagExact

/-!
# Excerpts

A construct is read from its own characters. A stop that later text cannot undo is not met earlier when that text is
cut off (`Unstopped.cutOff`), and where a scanner stopped before the end of the construct it sees the same characters
again. So each token, each run of tokens and each item but plain text is read from its own lexeme as it was read in
the document (`Item.Read.alone`), and the tree of that lexeme is the subtree of the construct (`parse_excerpt`).
-/

namespace EdgeTemplate

/-! ## Text that is cut off behind -/

theorem eq_false_of_append {stop : List Char → Bool} (hs : ∀ cs w, stop cs = true → stop (cs ++ w) = true)
    {cs w : List Char} (h : stop (cs ++ w) = false) : stop cs = false := by
  by_cases hstop : stop cs = true
  · rw [hs cs w hstop] at h
    cases h
  · exact Bool.eq_false_iff.2 hstop

theorem isPrefixOf_cutOff {mark cs w : List Char} (h : mark.isPrefixOf (cs ++ w) = false) :
    mark.isPrefixOf cs = false :=
  @eq_false_of_append mark.isPrefixOf (fun _ w h => isPrefixOf_extend h w) cs w h

theorem Unstopped.cutOff {stop : List Char → Bool} (hs : ∀ cs w, stop cs = true → stop (cs ++ w) = true)
    {a b w : List Char} (h : Unstopped stop a (b ++ w)) : Unstopped stop a b := by
  refine unstopped_congr (fun y _ _ hgo => ?_) h
  rw [← List.append_assoc] at hgo
  exact eq_false_of_append hs hgo

theorem endsUnterminated_extend {cs : List Char} (h : endsUnterminated cs = true) (w : List Char) :
    endsUnterminated (cs ++ w) = true := by
  cases cs with
  | nil => cases h
  | cons c cs => exact h

namespace ArgumentToken

/-- A token is read again from its lexeme and what is left behind it, unless that cuts a tag line off. -/
theorem Read.cutOff {cs b w : List Char} {token : ArgumentToken} (h : Read cs token (b ++ w))
    (hb : b = [] ∨ (startsTagBreak (b ++ w) = true → startsTagBreak b = true)) : Read (token.lexeme ++ b) token b := by
  generalize hr : b ++ w = rest at h
  cases h with
  | opening => exact .opening b
  | closing => exact .closing b
  | literal hl => exact .literal (closeLiteral_before hl b)
  | @unterminated q a rest hl hun hend =>
    subst hr
    refine .unterminated ?_ (hun.cutOff fun _ w h => endsUnterminated_extend h w) ?_
    · -- a quote that closed the literal here would close it in the document
      cases hc : closeLiteral q (a ++ b) with
      | none => rfl
      | some found =>
        have := closeLiteral_extend hc w
        rw [List.append_assoc, hl] at this
        cases this
    · cases b with
      | nil => exact .inl rfl
      | cons c b => exact hend.imp_left fun h => absurd h (by simp)
  | @text a rest hne hun hend =>
    subst hr
    refine .text hne (hun.cutOff fun _ w h => endsText_extend h w) ?_
    cases b with
    | nil => exact .inl rfl
    | cons c b =>
      have hstop := hend.resolve_left (by simp)
      rw [endsText, Bool.or_eq_true] at hstop ⊢
      exact .inr (hstop.imp_left (hb.resolve_left (by simp)))

theorem scan_of_break {cs : List Char} (h : startsTagBreak cs = true) (depth : Nat) : scan depth cs = ([], cs) := by
  have hn := next?_eq_none_iff.2 (.inr h)
  rw [scan]
  split
  · rfl
  · next h' =>
    rw [hn] at h'
    cases h'

theorem scan_cutOff (depth : Nat) {cs b w : List Char} (hrest : (scan depth cs).2 = b ++ w)
    (hb : b = [] ∨ (startsTagBreak (b ++ w) = true → startsTagBreak b = true)) :
    scan depth ((scan depth cs).1.flatMap lexeme ++ b) = ((scan depth cs).1, b) := by
  fun_induction scan depth cs with
  | case1 depth cs hn =>
    rcases hb with rfl | hb
    · exact scan_nil depth
    · rcases next?_eq_none_iff.1 hn with rfl | hbreak
      · rw [(List.append_eq_nil_iff.1 hrest.symm).1]
        exact scan_nil depth
      · rw [show cs = b ++ w from hrest] at hbreak
        exact scan_of_break (hb hbreak) depth
  | case2 depth cs token rest hn _ hc =>
    have hread := read_of_next? hn
    rw [show rest = b ++ w from hrest] at hread
    rw [List.flatMap_singleton, scan_of_read (hread.cutOff hb), if_pos hc]
  | case3 depth cs token rest hn _ hc tail ih =>
    have happ : tail.1.flatMap lexeme ++ tail.2 = rest := scan_append _ rest
    have hread := read_of_next? hn
    rw [← happ, show tail.2 = b ++ w from hrest, ← List.append_assoc] at hread
    have hread' := hread.cutOff (by
      by_cases hbreak : startsTagBreak rest = true
      · rw [show tail = ([], rest) from scan_of_break hbreak _]
        exact hb
      · rw [List.append_assoc, ← hrest, happ]
        exact .inr fun h => absurd h hbreak)
    rw [List.flatMap_cons, List.append_assoc, scan_of_read hread', if_neg hc, ih hrest]

theorem scan_alone (depth : Nat) (cs : List Char) :
    scan depth ((scan depth cs).1.flatMap lexeme) = ((scan depth cs).1, []) := by
  simpa using scan_cutOff depth (b := []) rfl (.inl rfl)

end ArgumentToken

theorem Enclosed.Ends.cutOff {closing body b w : List Char} {closed : Bool} {giveUp : List Char → Bool}
    (h : Enclosed.Ends closing giveUp ⟨body, closed, b ++ w⟩) (hb : b = [] ∨ (giveUp (b ++ w) = true → giveUp b = true))
    (hg : ∀ cs w, giveUp cs = true → giveUp (cs ++ w) = true) : Enclosed.Ends closing giveUp ⟨body, closed, b⟩ := by
  obtain ⟨hun, hopen⟩ := h
  constructor
  · dsimp only at hun ⊢
    rw [← List.append_assoc] at hun
    refine hun.cutOff fun cs w h => ?_
    rw [Bool.or_eq_true] at h ⊢
    exact h.imp (fun h => isPrefixOf_extend h w) (hg cs w)
  · intro hc
    obtain ⟨hclosing, hend⟩ := hopen hc
    refine ⟨isPrefixOf_cutOff hclosing, hb.elim .inl fun hb => ?_⟩
    exact hend.imp (fun h => (List.append_eq_nil_iff.1 h).1) hb

/-! ## Items -/

namespace Item

/-- The blanks before the first node of the item. -/
def indent : Item → List Char
  | directive indent _ _ => indent
  | _ => []

/-- The item without the blanks. -/
def bare : Item → Item
  | directive _ tag arguments => directive [] tag arguments
  | item => item

theorem lexeme_bare (item : Item) : item.indent ++ item.bare.lexeme = item.lexeme := by
  cases item with
  | directive indent tag arguments => cases arguments <;> simp [Item.indent, bare, lexeme]
  | _ => rfl

/-- What was read as an item other than text is read so at the start of a document that has nothing else. -/
theorem Read.alone {lineStart : Bool} {cs rest : List Char} {item : Item} (h : Read lineStart cs item rest)
    (ht : ∀ l, item ≠ .text l) : Read true item.bare.lexeme item.bare [] := by
  cases h with
  | comment e he =>
    have := @Read.comment true _ (he.cutOff (b := []) (.inl rfl) fun _ _ h => h)
    simpa [bare, lexeme, Enclosed.lexeme] using this
  | escaped e he hr =>
    have := @Read.escaped true _ (he.cutOff (b := []) (.inl rfl) fun _ _ h => h) (by simp)
    simpa [bare, lexeme, Enclosed.lexeme] using this
  | escapedSafe body rest he =>
    have := @Read.escapedSafe true body [] (he.cutOff (b := ['}']) (.inr id) fun _ _ h => h)
    simpa [bare, lexeme] using this
  | interpolation style e he hp =>
    have hends := he.cutOff (b := []) (.inl rfl) fun _ w h => startsTagBreak_extend h w
    have := @Read.interpolation true style _ hends ?_
    · simpa [bare, lexeme, Enclosed.lexeme] using this
    · intro hs
      have hfirst := hp hs
      rw [← List.append_assoc] at hfirst
      rw [List.append_nil]
      exact ⟨isPrefixOf_cutOff hfirst.1, isPrefixOf_cutOff hfirst.2⟩
  | @directive indent tag _ hl hsplit hr =>
    have := @Read.directive true [] tag [] rfl ⟨rfl, hsplit.tag, by simp⟩ (by simp)
    simpa [bare, lexeme] using this
  | @arguments indent tag inner hl hsplit =>
    have := @Read.arguments true [] tag ((ArgumentToken.scan 0 inner).1.flatMap ArgumentToken.lexeme) rfl
      ⟨rfl, hsplit.tag, hsplit.rest⟩
    rw [ArgumentToken.scan_alone] at this
    simpa [bare, lexeme] using this
  | text => exact absurd rfl (ht _)
  | line => exact absurd rfl (ht _)

end Item

theorem items_alone {lineStart : Bool} {cs rest : List Char} {item : Item} (h : Item.Read lineStart cs item rest)
    (ht : ∀ l, item ≠ .text l) : items true item.bare.lexeme = [item.bare] := by
  have hread := h.alone ht
  rw [items_of_read hread.ne_nil hread, items, dif_pos rfl]

/-! ## Records -/

theorem Forest.records_bare (item : Item) (parent : Option Nat) (offset index : Nat) :
    (ofItem nil item).records parent offset index =
      (ofItem nil item.bare).records parent (offset + item.indent.length) index := by
  cases item with
  | directive indent tag arguments => simp [ofItem, records, Item.bare, Item.indent]
  | _ => rfl

theorem itemRecords_of_parent {before : List Item} {item : Item} {k : Nat} {r : Record}
    (h : (itemRecords before item)[k]? = some r) (hp : r.parent = some 0) : k = 0 := by
  obtain ⟨label, children, hf, -⟩ := Forest.children_ofItem item
  cases k with
  | zero => rfl
  | succ k =>
    rw [itemRecords, hf, Forest.records, List.getElem?_cons_succ, Forest.records, List.append_nil,
      ← Forest.map_snd_nodes] at h
    obtain ⟨n, hn, rfl⟩ := List.mem_map.1 (List.mem_of_getElem? h)
    -- below the first record every parent is one of the item
    rcases Forest.parent_ge hn with hpar | ⟨p, hpar, hge, -⟩
    · rw [hp, Option.some.injEq] at hpar
      omega
    · rw [hp, Option.some.injEq] at hpar
      omega

theorem itemRecords_first {before : List Item} {item : Item} {r : Record} (h : (itemRecords before item)[0]? = some r) :
    r.start = ((before.flatMap Item.lexeme ++ item.indent).length : Int) ∧
      r.stop = ((before.flatMap Item.lexeme).length + (Forest.ofItem .nil item).width : Nat) ∧
      r.subtreeEnd = (1 + (Forest.ofItems before).size + (Forest.ofItem .nil item).size : Nat) := by
  obtain ⟨label, children, hf, hindent⟩ :
      ∃ label children, Forest.ofItem .nil item = .node label children .nil ∧ label.indent = item.indent := by
    cases item with
    | _ => exact ⟨_, _, rfl, rfl⟩
  rw [itemRecords, hf, Forest.records, List.getElem?_cons_zero, Option.some.injEq] at h
  subst h
  rw [hf, ← hindent, List.length_append, Forest.width, Forest.size, Forest.width, Forest.size]
  refine ⟨rfl, ?_, ?_⟩
  · dsimp only
    omega
  · dsimp only
    omega

/-- The node at `i` and all that is below it. -/
def SyntaxTree.subtree (tree : SyntaxTree) (i : Nat) (r : Record) : List Record :=
  (tree.records.toList.take r.subtreeEnd.toNat).drop i

theorem subtree_item {text : List Char} {before after : List Item} {item : Item} {r : Record}
    (hx : items true text = before ++ item :: after) (h : (itemRecords before item)[0]? = some r) :
    (SyntaxTree.parse text).subtree (1 + (Forest.ofItems before).size) r = itemRecords before item := by
  obtain ⟨front, back, hsplit, hlen⟩ := records_split hx
  have hitem : (itemRecords before item).length = (Forest.ofItem .nil item).size := Forest.length_records _ _ _ _
  have hstop : r.subtreeEnd.toNat = (front ++ itemRecords before item).length := by
    rw [(itemRecords_first h).2.2, List.length_append, hlen, hitem, Int.toNat_natCast]
  rw [SyntaxTree.subtree, hsplit, hstop, ← List.append_assoc, List.take_left, ← hlen, List.drop_left]

theorem source_item {text : List Char} {before after : List Item} {item : Item} {r : Record}
    (hx : items true text = before ++ item :: after) (h : (itemRecords before item)[0]? = some r) :
    (SyntaxTree.parse text).sourceOf r = item.bare.lexeme := by
  obtain ⟨hstart, hstop, -⟩ := itemRecords_first h
  obtain ⟨ls, suf, rest, htext, hread, -⟩ := items_read (boundary_start text) hx
  have hparts : text = before.flatMap Item.lexeme ++ item.indent ++ (item.bare.lexeme ++ rest) := by
    rw [htext, ← hread.append, ← item.lexeme_bare]
    simp
  rw [Forest.width_ofItem hread, ← item.lexeme_bare, ← List.length_append,
    ← List.append_assoc] at hstop
  rw [SyntaxTree.sourceOf, hstart, hstop]
  show slice text _ _ = _
  rw [hparts, slice_append]

/-- The top-level nodes are the first of their items. -/
theorem record_top {text : List Char} {i : Nat} {r : Record} (hr : (SyntaxTree.parse text).records[i]? = some r)
    (hp : r.parent = some 0) : ∃ before item after, items true text = before ++ item :: after ∧
      i = 1 + (Forest.ofItems before).size ∧ (itemRecords before item)[0]? = some r := by
  have hi : i ≠ 0 := by
    rintro rfl
    obtain ⟨root, hroot, -, hnone, -⟩ := parse_root text
    rw [hr] at hroot
    cases hroot
    rw [hnone] at hp
    cases hp
  obtain ⟨before, item, after, k, hx, hik, hrk⟩ := record_item hr hi
  obtain rfl := itemRecords_of_parent hrk hp
  exact ⟨before, item, after, hx, hik, hrk⟩

/-- A top-level node other than text is parsed from its own source: the tree has this one node below its root, and
the nodes there, moved to where the source stands, are the subtree of the node. -/
theorem parse_excerpt {text : List Char} {i : Nat} {r : Record} (hr : (SyntaxTree.parse text).records[i]? = some r)
    (hp : r.parent = some 0) (hk : r.kind ≠ .text) : ∃ (start n : Nat) (root : Record) (nodes : List Record),
      r.start = start ∧ i = 1 + n ∧
      (SyntaxTree.parse ((SyntaxTree.parse text).sourceOf r)).records.toList = root :: nodes ∧ root.children = [1] ∧
      (SyntaxTree.parse text).subtree i r = nodes.map (Record.shift start n) := by
  obtain ⟨before, item, after, hx, rfl, hfirst⟩ := record_top hr hp
  obtain ⟨ls, suf, rest, -, hread, -⟩ := items_read (boundary_start text) hx
  have ht : ∀ l, item ≠ .text l := by
    rintro l rfl
    cases hfirst
    exact hk rfl
  have hrecords := parse_records item.bare.lexeme
  rw [items_alone hread ht] at hrecords
  have hshift := (Forest.ofItems [item.bare]).records_shift (some 0) 0 1
    (before.flatMap Item.lexeme ++ item.indent).length (Forest.ofItems before).size (by simp)
  rw [source_item hx hfirst]
  refine ⟨_, _, _, _, (itemRecords_first hfirst).1, rfl, hrecords, ?_, ?_⟩
  · obtain ⟨label, children, hf, -⟩ := Forest.children_ofItem item.bare
    rw [Forest.ofItems, Forest.ofItems, hf]
    rfl
  · rw [subtree_item hx hfirst, ← hshift, itemRecords, Forest.records_bare, List.length_append, Nat.zero_add]
    rfl

/-- An unclosed list with a literal that is not closed either, between text and another tag line. -/
theorem parse_excerpt_unclosed :
    let tree := SyntaxTree.parse "a\n  @if(b, (c) \"d\n@end".toList
    ∃ r : Record, tree.records[2]? = some r ∧ r.parent = some 0 ∧ r.kind ≠ .text ∧
      ∃ (start n : Nat) (root : Record) (nodes : List Record), r.start = start ∧ 2 = 1 + n ∧
        (SyntaxTree.parse (tree.sourceOf r)).records.toList = root :: nodes ∧ root.children = [1] ∧
        tree.subtree 2 r = nodes.map (Record.shift start n) := by
  have hfound : ((SyntaxTree.parse "a\n  @if(b, (c) \"d\n@end".toList).records[2]?).any
      (fun r => r.parent = some 0 ∧ r.kind ≠ .text) = true := by
    decide +kernel
  obtain ⟨r, hr, htop⟩ := (Option.any_eq_true _ _).1 hfound
  obtain ⟨hp, hk⟩ := of_decide_eq_true htop
  exact ⟨r, hr, hp, hk, parse_excerpt hr hp hk⟩

end EdgeTemplate
