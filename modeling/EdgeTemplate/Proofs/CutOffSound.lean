import EdgeTemplate.Proofs.MaskSound

/-!
# Constructs that a tag line cuts off

An interpolation or an argument list that is not closed ends with the text or before a tag line. If the text is cut off
there then all items up to the construct are read as before, since what stops each of them is still in the text
(`Anchored`, `Item.Read.cutOff`). At the end of that text the cursor is in the construct, which is an error, so the text
gives the answer. Before a tag line the cursor is on the line end instead, which is a text of its own, and what is being
typed there counts as plain text (`classify_cutOff`).
-/

namespace EdgeTemplate

/-! ## Stops that stay -/

/-- The beginning of a mustache or of a tag line is in the text. -/
def Anchored (b : List Char) : Prop :=
  ∃ u v, b = u ++ v ∧ (Mustache.plain.opening.isPrefixOf v = true ∨ startsTagLine v = true)

theorem nameStart_mem {cs : List Char} (h : startsTagLine cs = true) : ∃ c ∈ cs, isNameStart c = true := by
  have htag := (splitTag_split h).tag
  have happ := splitTag_append cs
  generalize splitTag cs = s at htag happ
  obtain ⟨indent, tag, rest⟩ := s
  rw [← happ]
  cases htag with
  | plain c t hc _ => exact ⟨c, by simp, hc⟩
  | inline c t hc _ => exact ⟨c, by simp, hc⟩

theorem isDecisive_of_nameStart {c : Char} (h : isNameStart c = true) : isDecisive c = true ∧ c ≠ '\n' := by
  obtain ⟨hindent, hline⟩ := not_indent_of_nameChar (isNameChar_of_isNameStart h)
  have hat : c ≠ '@' := by
    rintro rfl
    exact absurd h (by decide)
  have hbang : c ≠ '!' := by
    rintro rfl
    exact absurd h (by decide)
  exact ⟨by simp [isDecisive, hindent, hat, hbang], hline⟩

namespace Anchored

variable {b : List Char} (h : Anchored b)
include h

theorem append (a : List Char) : Anchored (a ++ b) := by
  obtain ⟨u, v, rfl, hv⟩ := h
  exact ⟨a ++ u, v, by rw [List.append_assoc], hv⟩

theorem ne_nil : b ≠ [] := by
  rintro rfl
  obtain ⟨u, v, huv, hv⟩ := h
  obtain ⟨-, rfl⟩ := List.append_eq_nil_iff.1 huv.symm
  revert hv
  decide

theorem decisive : ∃ c ∈ b, isDecisive c = true ∧ c ≠ '\n' := by
  obtain ⟨u, v, rfl, hv | hv⟩ := h
  · obtain ⟨rest, rfl⟩ := List.isPrefixOf_iff_prefix.1 hv
    exact ⟨'{', by simp [Mustache.opening], by decide, by decide⟩
  · obtain ⟨c, hc, hn⟩ := nameStart_mem hv
    exact ⟨c, List.mem_append_right u hc, isDecisive_of_nameStart hn⟩

theorem tagLine {w : List Char} (hs : startsTagLine (b ++ w) = true) : startsTagLine b = true := by
  obtain ⟨c, hc, hd, -⟩ := h.decisive
  rwa [startsTagLine_stable hc hd] at hs

theorem tagBreak {w : List Char} (hs : startsTagBreak (b ++ w) = true) : startsTagBreak b = true := by
  obtain ⟨c, hc, hd, hline⟩ := h.decisive
  have htail : c ∈ b.tail := by
    cases b with
    | nil => cases hc
    | cons a b =>
      obtain ⟨r, hr, -⟩ := startsTagBreak_head hs
      rw [(List.cons.inj hr).1] at hc
      exact (List.mem_cons.1 hc).resolve_left hline
  rwa [startsTagBreak_stable htail hd] at hs

theorem mustache {w : List Char}
    (hs : Mustache.plain.opening.isPrefixOf (b ++ w) = true ∨ Item.escapedOpening.isPrefixOf (b ++ w) = true) :
    Mustache.plain.opening.isPrefixOf b = true ∨ Item.escapedOpening.isPrefixOf b = true := by
  obtain ⟨u, v, rfl, hv | hv⟩ := h
  · obtain ⟨rest, rfl⟩ := List.isPrefixOf_iff_prefix.1 hv
    refine hs.imp (fun hs => ?_) fun hs => ?_
    · rwa [isPrefixOf_stable (.inl (by simp [Mustache.opening]; omega))] at hs
    · cases u with
      | nil => cases hs
      | cons c u => rwa [isPrefixOf_stable (.inl (by simp [Item.escapedOpening, Mustache.opening]; omega))] at hs
  · obtain ⟨c, hc, hn⟩ := nameStart_mem hv
    obtain ⟨hbrace, hat⟩ := not_mark_of_nameChar (isNameChar_of_isNameStart hn)
    have hmem := List.mem_append_right u hc
    rw [isPrefixOf_stable (.inr ⟨c, hmem, by simp [Mustache.opening, hbrace]⟩),
      isPrefixOf_stable (.inr ⟨c, hmem, by simp [Item.escapedOpening, hbrace, hat]⟩)] at hs
    exact hs

end Anchored

/-! ## Items -/

namespace Item

theorem endsText_extend {cs : List Char} (h : endsText cs = true) (w : List Char) : endsText (cs ++ w) = true := by
  simp only [endsText, Bool.or_eq_true] at h ⊢
  exact h.imp (fun h => h.imp (isPrefixOf_extend · w) (isPrefixOf_extend · w)) (startsTagBreak_extend · w)

theorem head_cutOff {b w : List Char} {c : Char} (h : b.head? = some c) : (b ++ w).head? = some c := by
  obtain ⟨b, rfl⟩ := List.head?_eq_some_iff.1 h
  rfl

/-- An item is read again if what is left behind it shows where it ends. -/
theorem Read.cutOff {lineStart : Bool} {cs b w : List Char} {item : Item} (h : Read lineStart cs item (b ++ w))
    (hb : Anchored b ∨ b = [] ∧ ∀ l, item ≠ .text l) : Read lineStart (item.lexeme ++ b) item b := by
  have hbreak : b = [] ∨ (startsTagBreak (b ++ w) = true → startsTagBreak b = true) :=
    hb.symm.imp And.left fun hb => hb.tagBreak
  have htagLine : ∀ a, (lineStart && startsTagLine (a ++ (b ++ w))) = false →
      (lineStart && startsTagLine (a ++ b)) = false := by
    intro a ha
    rw [← List.append_assoc] at ha
    refine @eq_false_of_append (fun cs => lineStart && startsTagLine cs) (fun cs w hcs => ?_) (a ++ b) w ha
    rw [Bool.and_eq_true] at hcs ⊢
    exact ⟨hcs.1, startsTagLine_extend hcs.2 w⟩
  generalize hr : b ++ w = rest at h
  cases h with
  | comment e he =>
    obtain ⟨body, closed, rest⟩ := e
    subst hr
    have := @Read.comment lineStart _ (he.cutOff (.inr id) fun _ _ h => h)
    simpa [lexeme, Enclosed.lexeme] using this
  | escaped e he hhead =>
    obtain ⟨body, closed, rest⟩ := e
    subst hr
    have := @Read.escaped lineStart _ (he.cutOff (.inr id) fun _ _ h => h) fun hc h => hhead hc (head_cutOff h)
    simpa [lexeme, Enclosed.lexeme] using this
  | escapedSafe body rest he =>
    subst hr
    have := @Read.escapedSafe lineStart body b (@Enclosed.Ends.cutOff _ _ ('}' :: b) w _ _ he (.inr id) fun _ _ h => h)
    simpa [lexeme] using this
  | interpolation style e he hp =>
    obtain ⟨body, closed, rest⟩ := e
    subst hr
    have := @Read.interpolation lineStart style _ (he.cutOff hbreak fun _ w h => startsTagBreak_extend h w) ?_
    · simpa [lexeme, Enclosed.lexeme] using this
    · intro hs
      have hfirst := hp hs
      dsimp only at hfirst
      rw [← List.append_assoc, ← List.append_assoc] at hfirst
      rw [← List.append_assoc]
      exact ⟨isPrefixOf_cutOff hfirst.1, isPrefixOf_cutOff hfirst.2⟩
  | @directive indent tag _ hl hsplit hhead =>
    subst hr
    have hsplit' : TagSplit indent tag b := ⟨hsplit.indent, hsplit.tag, fun c hc => hsplit.rest c (head_cutOff hc)⟩
    have := @Read.directive lineStart indent tag b hl hsplit' fun h => hhead (head_cutOff h)
    simpa [lexeme] using this
  | @arguments indent tag inner hl hsplit =>
    have := @Read.arguments lineStart indent tag ((ArgumentToken.scan 0 inner).1.flatMap ArgumentToken.lexeme ++ b) hl
      ⟨hsplit.indent, hsplit.tag, hsplit.rest⟩
    rw [ArgumentToken.scan_cutOff 0 hr.symm hbreak] at this
    simpa [lexeme] using this
  | @text a _ hne hun hend ht =>
    subst hr
    have hb : Anchored b := hb.resolve_right fun hb => hb.2 a rfl
    have hstop := hb.mustache (hend.resolve_left fun h => hb.ne_nil (List.append_eq_nil_iff.1 h).1)
    exact .text hne (hun.cutOff fun _ w h => endsText_extend h w) (.inr hstop) (htagLine a ht)
  | @line a _ hun htag ht =>
    subst hr
    have hb : Anchored b := hb.resolve_right fun hb => hb.2 _ rfl
    rw [lexeme, List.append_assoc]
    refine .line (Unstopped.cutOff (fun _ w h => endsText_extend h w) hun) (hb.tagLine htag) ?_
    simpa using htagLine (a ++ ['\n']) (by simpa using ht)

end Item

/-- The items up to one that is no text are read again if the text is cut off behind it. -/
theorem items_cutOff {lineStart : Bool} {cs : List Char} {before after : List Item} {item : Item}
    (h : items lineStart cs = before ++ item :: after) (ht : ∀ l, item ≠ .text l) (ha : Anchored item.lexeme) :
    items lineStart ((before ++ [item]).flatMap Item.lexeme) = before ++ [item] := by
  induction before generalizing lineStart cs with
  | nil =>
    obtain ⟨rest, hread, -⟩ := items_uncons h
    have hread' := @Item.Read.cutOff _ _ [] rest _ hread (.inr ⟨rfl, ht⟩)
    rw [List.append_nil] at hread'
    rw [List.nil_append, List.flatMap_singleton, items_of_read hread'.ne_nil hread', items, dif_pos rfl]
  | cons x before ih =>
    rw [List.cons_append] at h
    obtain ⟨rest, hread, hrest⟩ := items_uncons h
    have hsplit : rest = (before ++ [item]).flatMap Item.lexeme ++ after.flatMap Item.lexeme := by
      rw [← items_append x.endsLine rest, hrest]
      simp
    have hb : Anchored ((before ++ [item]).flatMap Item.lexeme) := by
      rw [List.flatMap_append, List.flatMap_singleton]
      exact ha.append _
    rw [hsplit] at hread
    have hread' := hread.cutOff (.inl hb)
    rw [List.cons_append, List.flatMap_cons, items_of_read hread'.ne_nil hread', ih hrest]

/-! ## Unclosed constructs -/

theorem anchored_directive {indent tag : List Char} (hindent : indent.all isIndent = true) (htag : IsTag tag)
    (arguments : Option (List ArgumentToken)) : Anchored (Item.directive indent tag arguments).lexeme := by
  have hline := @startsTagLine_of_split indent tag [] ⟨hindent, htag, by simp⟩
  rw [List.append_nil] at hline
  refine ⟨[], _, rfl, .inr ?_⟩
  cases arguments with
  | none => exact hline
  | some tokens => exact startsTagLine_extend hline _

/-- Only interpolations and directives have such nodes. -/
theorem anchored_item {before : List Item} {item : Item} {lineStart : Bool} {cs rest : List Char} {r : Record}
    (hread : Item.Read lineStart cs item rest) (hr : r ∈ itemRecords before item)
    (hk : r.kind.isInterpolation = true ∨ r.kind = .arguments) : Anchored item.lexeme ∧ ∀ l, item ≠ .text l := by
  have hleaf : r.kind.isLeaf = false := by
    rcases hk with hk | hk
    · cases hkind : r.kind <;> simp_all [Kind.isInterpolation, Kind.isLeaf]
    · rw [hk]
      rfl
  cases item with
  | interpolation style body closed =>
    refine ⟨⟨[], _, rfl, .inl ?_⟩, by simp⟩
    cases style <;> rfl
  | directive indent tag arguments =>
    obtain ⟨-, after, -, hsplit, -⟩ := hread.tagSplit
    exact ⟨anchored_directive hsplit.indent hsplit.tag arguments, by simp⟩
  | _ =>
    obtain rfl := List.mem_singleton.1 hr
    cases hleaf

/-- In the text an unclosed item is followed by nothing or by a tag line. -/
structure LeftOpen (text : List Char) (before : List Item) (item : Item) (rest : List Char) : Prop where
  items : items true text = before ++ item :: items item.endsLine rest
  text : text = (before ++ [item]).flatMap Item.lexeme ++ rest
  rest : rest = [] ∨ startsTagBreak rest = true
  anchored : Anchored item.lexeme
  noText : ∀ l, item ≠ .text l

namespace LeftOpen

variable {text rest : List Char} {before : List Item} {item : Item} (h : LeftOpen text before item rest)
include h

theorem take : text.take ((before ++ [item]).flatMap Item.lexeme).length = (before ++ [item]).flatMap Item.lexeme := by
  rw [h.text, List.take_left]

theorem items_take : EdgeTemplate.items true (text.take ((before ++ [item]).flatMap Item.lexeme).length) =
    before ++ [item] := by
  rw [h.take]
  exact items_cutOff h.items h.noText h.anchored

/-- The line end before the tag line is a text of its own. -/
theorem line_end (hr : rest ≠ []) : ∃ s ∈ (SyntaxTree.parse text).records, s.kind = .text ∧ s.hasError = false ∧
    s.Covers ((before ++ [item]).flatMap Item.lexeme).length := by
  obtain ⟨tail, rfl, htag⟩ := startsTagBreak_head (h.rest.resolve_left hr)
  have hread : Item.Read item.endsLine ('\n' :: tail) (.text ['\n']) tail :=
    .line (a := []) trivial htag (by rw [List.nil_append, startsTagLine_cons (by decide) (by decide), Bool.and_false])
  have hx := h.items
  rw [items_of_read hread.ne_nil hread, List.append_cons] at hx
  refine ⟨_, mem_records_of_item hx List.mem_cons_self, rfl, rfl, ?_⟩
  unfold Record.Covers
  simp only [List.length_nil, List.length_singleton, Forest.width]
  omega

end LeftOpen

section

variable {text : List Char} {i stop : Nat} {r : Record} (hi : (SyntaxTree.parse text).records[i]? = some r)
  (hk : r.kind.isInterpolation = true ∨ r.kind = .arguments) (he : r.isError = true) (hstop : r.stop = stop)
include hi hk he hstop

theorem unclosed_item : ∃ before item rest k, LeftOpen text before item rest ∧
    stop = ((before ++ [item]).flatMap Item.lexeme).length ∧ i = 1 + (Forest.ofItems before).size + k ∧
    (itemRecords before item)[k]? = some r := by
  obtain ⟨before, item, after, k, hx, hik, hr⟩ := record_item hi (ne_zero_of_error hi he)
  obtain ⟨ls, suf, rest, htext, hread, -, rfl⟩ := items_read (boundary_start text) hx
  have hmem := List.mem_of_getElem? hr
  have hstring : r.kind ≠ .string := by
    intro hs
    simp [hs, Kind.isInterpolation] at hk
  obtain ⟨ha, ht⟩ := anchored_item hread hmem hk
  refine ⟨before, item, rest, k, ⟨hx, ?_, ?_, ha, ht⟩, ?_, hik, hr⟩
  · rw [htext, ← hread.append]
    simp
  · exact (hread.rest_of_unclosed (Forest.hasUnclosed_of_record hmem he hstring)).imp_right And.left
  · have hend := (Forest.trailing_ofItem item).stop hmem he hstring
    rw [hstop, Forest.width_ofItem hread] at hend
    simpa using Int.ofNat.inj hend

/-- The construct is the same in the text that ends with it. -/
theorem record_cutOff : (SyntaxTree.parse (text.take stop)).records[i]? = some r := by
  obtain ⟨before, item, rest, k, h, rfl, rfl, hr⟩ := unclosed_item hi hk he hstop
  exact getElem?_item h.items_take hr

theorem classify_before_tag {position : Position} (hlt : stop < text.length)
    (ho : (SyntaxTree.parse text).lines.offsetAt position = some stop) :
    (classify (some (SyntaxTree.parse text)) text position).context = .plainText := by
  obtain ⟨before, item, rest, k, h, hlast, -⟩ := unclosed_item hi hk he hstop
  have hrest : rest ≠ [] := by
    rintro rfl
    have hlen := congrArg List.length h.text
    rw [List.append_nil] at hlen
    omega
  obtain ⟨s, hs, hkind, hse, hc⟩ := h.line_end hrest
  rw [← hlast] at hc
  exact classify_plain hs (by rw [hkind]; rfl) (by rw [hkind]; rfl) (by rw [hkind]; rfl) hse ho hc

end

/-! ## The end of an unclosed construct -/

section

variable {text : List Char} {position : Position}
  (ho : (SyntaxTree.parse text).lines.offsetAt position = some text.length)
include ho

theorem classify_end_closed (hclosed : (SyntaxTree.parse text).endsClosed = true) :
    (classify (some (SyntaxTree.parse text)) text position).context = .plainText := by
  obtain ⟨root, hroot, hdoc, hnone, -⟩ := parse_root text
  have herror : root.isError = false := Bool.eq_false_iff.2 fun he => ne_zero_of_error hroot he rfl
  have hpath : (SyntaxTree.parse text).path 0 = [root] := by
    rw [SyntaxTree.path_listed (parse_nodes text) hroot, SyntaxTree.ancestors_root hnone]
    rfl
  rw [classify, Option.bind_some, SyntaxTree.classify?_of_path (nodeAt_closed ho hclosed) hroot, hpath]
  simp [herror, hdoc, Context.ofKind?]

/-- At the end of the text an unclosed construct leaves the answer to the text, unless it ends with a closed list. -/
theorem classify_end_unclosed {i : Nat} {r : Record} (hi : (SyntaxTree.parse text).records[i]? = some r)
    (he : r.isError = true) (hstop : r.stop = text.length) :
    ((SyntaxTree.parse text).EndsInGroup i →
      (classify (some (SyntaxTree.parse text)) text position).context = .plainText) ∧
    (¬(SyntaxTree.parse text).EndsInGroup i →
      (classify (some (SyntaxTree.parse text)) text position).context = .ofText text) := by
  by_cases hclosed : (SyntaxTree.parse text).endsClosed = true
  · have hgroup := (endsInGroup_of_endsClosed hi he hstop hclosed).2
    exact ⟨fun _ => classify_end_closed ho hclosed, fun h => absurd hgroup h⟩
  · refine ⟨fun ⟨j, s, hs, _, hk, hse, hend⟩ => absurd (endsClosed_of_group hs hk hse hend) hclosed, fun _ => ?_⟩
    rw [classify_end ho (Bool.eq_false_iff.2 hclosed) hi he hstop]

end

/-- An unclosed construct stays the same if the text is cut off behind it, and at its end the text that is left gives
the answer then, unless it ends with a closed list. In the whole text the answer is the same if nothing has been cut
off, but before a tag line it is plain text always. -/
theorem classify_cutOff {text : List Char} {i stop : Nat} {r : Record} {position position' : Position}
    (hi : (SyntaxTree.parse text).records[i]? = some r) (hk : r.kind.isInterpolation = true ∨ r.kind = .arguments)
    (he : r.isError = true) (hstop : r.stop = stop)
    (ho : (SyntaxTree.parse text).lines.offsetAt position = some stop)
    (ho' : (SyntaxTree.parse (text.take stop)).lines.offsetAt position' = some stop) :
    let whole := (classify (some (SyntaxTree.parse text)) text position).context
    let alone := (classify (some (SyntaxTree.parse (text.take stop))) (text.take stop) position').context
    (SyntaxTree.parse (text.take stop)).records[i]? = some r ∧
      ((SyntaxTree.parse (text.take stop)).EndsInGroup i → alone = .plainText) ∧
      (¬(SyntaxTree.parse (text.take stop)).EndsInGroup i → alone = .ofText (text.take stop)) ∧
      (stop < text.length → whole = .plainText) ∧ (whole = alone ↔ stop = text.length ∨ alone = .plainText) := by
  intro whole alone
  have hle : stop ≤ text.length := Int.ofNat_le.1 (hstop ▸ stop_le hi)
  have hsame := record_cutOff hi hk he hstop
  have hlen : (text.take stop).length = stop := by rw [List.length_take, Nat.min_eq_left hle]
  have halone := classify_end_unclosed (ho'.trans (congrArg some hlen.symm)) hsame he (by rw [hstop, hlen])
  have hwhole := fun hlt => classify_before_tag hi hk he hstop hlt ho
  refine ⟨hsame, halone.1, halone.2, hwhole, fun heq => ?_, fun h => ?_⟩
  · rcases Nat.lt_or_eq_of_le hle with hlt | hlt
    · exact .inr (heq ▸ hwhole hlt)
    · exact .inl hlt
  · rcases Nat.lt_or_eq_of_le hle with hlt | rfl
    · exact (hwhole hlt).trans (h.resolve_left (Nat.ne_of_lt hlt)).symm
    · -- nothing is cut off, so both answers are given by the same tree
      have hend := classify_end_unclosed ho hi he hstop
      have htext : text.take text.length = text := List.take_length
      by_cases hg : (SyntaxTree.parse text).EndsInGroup i
      · exact (hend.1 hg).trans (halone.1 (by rwa [htext])).symm
      · refine (hend.2 hg).trans (.symm ((halone.2 (by rwa [htext])).trans ?_))
        rw [htext]

/-- Items stand before the list, and a tag line cuts off a literal in it. -/
theorem classify_cutOff_literal :
    let text := "{{ a }}\n@each(b in 'c\n@end".toList
    let tree := SyntaxTree.parse text
    let left := SyntaxTree.parse (text.take 21)
    let whole := (classify (some tree) text ⟨1, 13⟩).context
    let alone := (classify (some left) (text.take 21) ⟨1, 13⟩).context
    ∃ r : Record, tree.records[8]? = some r ∧ r.kind = .arguments ∧ r.isError = true ∧ r.stop = (21 : Nat) ∧
      tree.lines.offsetAt ⟨1, 13⟩ = some 21 ∧ left.lines.offsetAt ⟨1, 13⟩ = some 21 ∧ left.records[8]? = some r ∧
      (left.EndsInGroup 8 → alone = .plainText) ∧ (¬left.EndsInGroup 8 → alone = .ofText (text.take 21)) ∧
      (21 < text.length → whole = .plainText) ∧ (whole = alone ↔ 21 = text.length ∨ alone = .plainText) := by
  intro text tree left whole alone
  have hfound : (tree.records[8]?).any (fun r => r.kind = .arguments ∧ r.isError = true ∧ r.stop = 21) = true := by
    decide +kernel
  have ho : tree.lines.offsetAt ⟨1, 13⟩ = some 21 := by decide +kernel
  have ho' : left.lines.offsetAt ⟨1, 13⟩ = some 21 := by decide +kernel
  obtain ⟨r, hr, hspan⟩ := (Option.any_eq_true _ _).1 hfound
  obtain ⟨hk, he, hstop⟩ := of_decide_eq_true hspan
  exact ⟨r, hr, hk, he, hstop, ho, ho', classify_cutOff hr (.inr hk) he hstop ho ho'⟩

theorem classify_cutOff_line :
    let text := "\x7b\x7b a\n@if".toList
    let tree := SyntaxTree.parse text
    (∃ r ∈ tree.records, r.kind = .interpolation .plain ∧ r.isError = true ∧ r.stop = 4) ∧
      tree.lines.offsetAt ⟨0, 4⟩ = some 4 ∧ (classify (some tree) text ⟨0, 4⟩).context = .plainText ∧
      (SyntaxTree.parse (text.take 4)).lines.offsetAt ⟨0, 4⟩ = some 4 ∧
      (classify (some (SyntaxTree.parse (text.take 4))) (text.take 4) ⟨0, 4⟩).context = .interpolation := by
  decide +kernel

end EdgeTemplate
