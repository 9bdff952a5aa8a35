import EdgeTemplate.Proofs.CutOffSound
import EdgeTemplate.Proofs.VerdictSound

/-!
# Comments are opaque

What stands in a closed comment is read by nobody: the items before it end before its opening mark and look no further
(`items_exchange`), and behind its closing mark reading goes on as if nothing had been there. With another body the
document has the same nodes, apart from where they stand, and the same problems in the same order (`comment_opaque`).
-/

namespace EdgeTemplate

/-! ## Reading around a comment -/

/-- Items without errors are read again if what follows them is exchanged behind the mark that they stop at. -/
theorem items_exchange {lineStart : Bool} {before after : List Item} {b u : List Char} (hb : Anchored b)
    (h : items lineStart (before.flatMap Item.lexeme ++ (b ++ u)) = before ++ after)
    (herr : ∀ item ∈ before, (Forest.ofItem .nil item).hasError = false) : ∃ ls, items ls (b ++ u) = after ∧
      ∀ v, items lineStart (before.flatMap Item.lexeme ++ (b ++ v)) = before ++ items ls (b ++ v) := by
  induction before generalizing lineStart with
  | nil => exact ⟨lineStart, h, fun v => rfl⟩
  | cons item before ih =>
    obtain ⟨hitem, hbefore⟩ := List.forall_mem_cons.1 herr
    obtain ⟨rest, hread, hrest⟩ := items_uncons h
    have hsplit : rest = before.flatMap Item.lexeme ++ (b ++ u) := by
      have happ := hread.append
      rw [List.flatMap_cons, List.append_assoc] at happ
      exact List.append_cancel_left happ
    subst hsplit
    obtain ⟨ls, hu, hv⟩ := ih hrest hbefore
    refine ⟨ls, hu, fun v => ?_⟩
    -- what is read of an item reaches no further than the next mark, which is in `b` at the latest
    have hanchor : Anchored (before.flatMap Item.lexeme ++ b) := hb.append _
    rw [← List.append_assoc (before.flatMap Item.lexeme)] at hread
    have hext := (hread.cutOff (.inl hanchor)).extend hitem hanchor.ne_nil v
    have hsame : (item :: before).flatMap Item.lexeme ++ (b ++ v) =
        item.lexeme ++ (before.flatMap Item.lexeme ++ b) ++ v := by simp
    rw [hsame, items_of_read hext.ne_nil hext, List.append_assoc, hv]
    rfl

/-- The closing mark first occurs behind the body. -/
def IsCommentBody (body : List Char) : Prop :=
  ∀ k < body.length, ¬Item.commentClosing <+: (body ++ Item.commentClosing).drop k

instance (body : List Char) : Decidable (IsCommentBody body) :=
  inferInstanceAs (Decidable (∀ k < body.length, ¬Item.commentClosing <+: (body ++ Item.commentClosing).drop k))

theorem items_comment {body : List Char} (h : IsCommentBody body) (ls : Bool) (rest : List Char) :
    items ls (Item.commentOpening ++ (body ++ Item.commentClosing ++ rest)) =
      .comment (Item.commentOpening ++ (body ++ Item.commentClosing)) true :: items false rest := by
  have hends : Enclosed.Ends Item.commentClosing (fun _ => false) ⟨body, true, rest⟩ := by
    refine ⟨unstopped_of_drop fun k hk => ?_, fun hc => by cases hc⟩
    have hk : k < body.length := hk
    have hlen : Item.commentClosing.length ≤ ((body ++ Item.commentClosing).drop k).length := by
      rw [List.length_drop, List.length_append]
      omega
    have hfirst : Item.commentClosing.isPrefixOf ((body ++ Item.commentClosing).drop k) = false :=
      Bool.eq_false_iff.2 fun hp => h k hk (List.isPrefixOf_iff_prefix.1 hp)
    rw [if_pos rfl, ← List.append_assoc, List.drop_append_of_le_length (by simp; omega),
      isPrefixOf_stable (.inl hlen), hfirst]
    rfl
  have hread := @Item.Read.comment ls _ hends
  simp only [Enclosed.lexeme, ite_true] at hread
  exact items_of_read hread.ne_nil hread

/-! ## The comment in the tree -/

section

variable {text : List Char} {r : Record}

theorem Item.Read.opens_comment {ls closed : Bool} {suf lexeme rest : List Char}
    (h : Item.Read ls suf (.comment lexeme closed) rest) : Item.commentOpening <+: lexeme := by
  cases h
  exact List.prefix_append _ _

theorem comment_item (hr : r ∈ (SyntaxTree.parse text).records) (hk : r.kind = .comment) (he : r.isError = false) :
    ∃ (before after : List Item) (lexeme rest : List Char), items true text = before ++ .comment lexeme true :: after ∧
      Item.commentOpening <+: lexeme ∧ items false rest = after ∧
      text = before.flatMap Item.lexeme ++ (lexeme ++ rest) ∧ r.start = (before.flatMap Item.lexeme).length ∧
      r.stop = ((before.flatMap Item.lexeme).length + lexeme.length : Nat) := by
  have hitem : r.kind.isItem = true := by rw [hk]; rfl
  obtain ⟨before, item, after, hx, h⟩ := item_of_kind hr hitem
  have hkind := itemRecords_kind h hitem
  rw [hk] at hkind
  obtain ⟨ls, suf, rest, htext, hread, -, hafter⟩ := items_read (boundary_start text) hx
  cases item with
  | comment lexeme closed =>
    obtain rfl := Option.some.inj h
    obtain rfl : closed = true := by simpa using he
    refine ⟨before, after, lexeme, rest, hx, hread.opens_comment, hafter, ?_, by simp, ?_⟩
    · rw [htext, ← hread.append]
      rfl
    · simp [Forest.width]
  | directive indent tag arguments =>
    have hd := Kind.isDirective_ofTag tag
    rw [show Kind.ofTag tag = .comment from hkind.symm] at hd
    cases hd
  | _ => cases hkind

theorem clean_before {before after : List Item} (hx : items true text = before ++ after)
    (hfirst : ∀ s ∈ (SyntaxTree.parse text).records, s.isError = true →
      ((before.flatMap Item.lexeme).length : Int) ≤ s.start) :
    ∀ item ∈ before, (Forest.ofItem .nil item).hasError = false := by
  intro item hm
  by_contra herr
  obtain ⟨front, back, rfl⟩ := List.append_of_mem hm
  rw [Bool.not_eq_false, Forest.hasError_eq_any _ (some 0) 0 1, ← Forest.map_snd_nodes, List.any_map,
    List.any_eq_true] at herr
  obtain ⟨n, hn, he⟩ := herr
  -- the error node is not empty and ends within its item, so it starts before the items of `before` end
  have hitem : items true text = front ++ item :: (back ++ after) := by rw [hx]; simp
  have hrec := nodes_item hitem hn
  have hindex := (Forest.node_index hn).1
  have hspan := span_nonempty hrec (by omega)
  have hle := hfirst _ (Array.mem_of_getElem? hrec) he
  obtain ⟨start, stop, hstart, hstop, hbound⟩ := Forest.node_bounds hn
  obtain ⟨ls, suf, rest, -, hread, -⟩ := items_read (boundary_start text) hitem
  rw [Forest.width_ofItem hread] at hbound
  simp only [Record.shift, List.flatMap_append, List.flatMap_cons, List.length_append] at hspan hle
  omega

end

/-! ## Another body -/

namespace Forest

/-- The forest with the kinds and errors of its nodes but none of their text. -/
def shape : Forest → Forest
  | .nil => .nil
  | .node label children siblings =>
    .node { label with indent := [], lexeme := [] } children.shape siblings.shape

theorem shape_append (f g : Forest) : (f.append g).shape = f.shape.append g.shape := by
  induction f with
  | nil => rfl
  | node label children siblings _ ih => rw [append, shape, shape, ih, append]

theorem size_shape (f : Forest) : f.shape.size = f.size := by
  induction f with
  | nil => rfl
  | node label children siblings ihc ihs => rw [shape, size, size, ihc, ihs]

theorem roots_shape (f : Forest) (index : Nat) : f.shape.roots index = f.roots index := by
  induction f generalizing index with
  | nil => rfl
  | node label children siblings _ ih => rw [shape, roots, roots, size_shape, ih]

theorem hasError_shape (f : Forest) : f.shape.hasError = f.hasError := by
  induction f with
  | nil => rfl
  | node label children siblings ihc ihs => rw [shape, hasError, hasError, ihc, ihs]

end Forest

/-- The node apart from where it stands in the text. -/
def Record.unplaced (r : Record) : Record := { r with start := 0, stop := 0 }

theorem Forest.records_shape (f : Forest) (parent : Option Nat) (offset offset' index : Nat) :
    (f.shape.records parent offset index).map Record.unplaced =
      (f.records parent offset' index).map Record.unplaced := by
  induction f generalizing parent offset offset' index with
  | nil => rfl
  | node label children siblings ihc ihs =>
    simp only [shape, records, List.map_cons, List.map_append, Record.unplaced, size_shape, roots_shape, hasError_shape]
    exact congrArg _ (congrArg₂ _ (ihc ..) (ihs ..))

section

variable {text text' : List Char} {before after : List Item} {a b : List Char}

theorem shape_exchange (before after : List Item) (a b : List Char) :
    (Forest.ofItems (before ++ .comment a true :: after)).shape =
      (Forest.ofItems (before ++ .comment b true :: after)).shape := by
  simp only [Forest.ofItems_append, Forest.shape_append]
  rfl

theorem records_exchange (h : items true text = before ++ .comment a true :: after)
    (h' : items true text' = before ++ .comment b true :: after) :
    (SyntaxTree.parse text).records.toList.map Record.unplaced =
      (SyntaxTree.parse text').records.toList.map Record.unplaced := by
  have hshape : (Forest.ofText text).shape = (Forest.ofText text').shape := by
    rw [Forest.ofText, Forest.ofText, Forest.shape, h, h', shape_exchange before after a b]
    rfl
  have hrecords := (Forest.ofText text).records_shape none 0 0 0
  rw [hshape, Forest.records_shape _ none 0 0 0] at hrecords
  rw [SyntaxTree.parse_eq, SyntaxTree.parse_eq]
  exact hrecords.symm

theorem problems_exchange (h : items true text = before ++ .comment a true :: after)
    (h' : items true text' = before ++ .comment b true :: after) :
    (SyntaxTree.parse text).findings.map (·.problem) = (SyntaxTree.parse text').findings.map (·.problem) := by
  refine problems_congr ?_ ?_
  · rw [h, h', List.flatMap_append, List.flatMap_append]
    rfl
  · rw [h, h', ← Forest.hasError_shape, shape_exchange before after a b, Forest.hasError_shape]

end

/-- The text with another body in the comment at `r`. -/
def replaceComment (text : List Char) (r : Record) (body : List Char) : List Char :=
  text.take r.start.toNat ++ (Item.commentOpening ++ body ++ Item.commentClosing) ++ text.drop r.stop.toNat

/-- If no error comes before it, the body of a closed comment changes neither the nodes nor what is reported. -/
theorem comment_opaque {text body : List Char} {r : Record} (hr : r ∈ (SyntaxTree.parse text).records)
    (hk : r.kind = .comment) (he : r.isError = false)
    (hfirst : ∀ s ∈ (SyntaxTree.parse text).records, s.isError = true → r.start ≤ s.start)
    (hbody : IsCommentBody body) :
    (SyntaxTree.parse (replaceComment text r body)).records.toList.map Record.unplaced =
        (SyntaxTree.parse text).records.toList.map Record.unplaced ∧
      (SyntaxTree.parse (replaceComment text r body)).diagnostics.map (fun d => (d.severity, d.message)) =
        (SyntaxTree.parse text).diagnostics.map fun d => (d.severity, d.message) := by
  obtain ⟨before, after, lexeme, rest, hx, ⟨tail, rfl⟩, hafter, htext, hstart, hstop⟩ := comment_item hr hk he
  rw [hstart] at hfirst
  have hclean := clean_before hx hfirst
  have hanchor : Anchored Item.commentOpening := ⟨[], _, rfl, .inl (by decide)⟩
  have hwhole := hx
  rw [htext, List.append_assoc] at hwhole
  obtain ⟨ls, -, hexchange⟩ := items_exchange hanchor hwhole hclean
  have htake : text.take r.start.toNat = before.flatMap Item.lexeme := by
    rw [hstart, Int.toNat_natCast, htext, List.take_left]
  have hdrop : text.drop r.stop.toNat = rest := by
    rw [hstop, Int.toNat_natCast, htext, ← List.append_assoc, ← List.length_append, List.drop_left]
  have hswap : replaceComment text r body =
      before.flatMap Item.lexeme ++ (Item.commentOpening ++ (body ++ Item.commentClosing ++ rest)) := by
    simp only [replaceComment, htake, hdrop, List.append_assoc]
  have hx' : items true (replaceComment text r body) =
      before ++ .comment (Item.commentOpening ++ (body ++ Item.commentClosing)) true :: after := by
    rw [hswap, hexchange, items_comment hbody, hafter]
  refine ⟨records_exchange hx' hx, ?_⟩
  have hproblems := congrArg (List.map fun p : Problem => (p.severity, p.message)) (problems_exchange hx' hx)
  rw [List.map_map, List.map_map] at hproblems
  rw [SyntaxTree.diagnostics, SyntaxTree.diagnostics, List.map_map, List.map_map]
  exact hproblems

/-- A closing tag in the comment closes nothing, whatever stands around it there. -/
theorem comment_opaque_end :
    let text := "@if(x)\n\x7b\x7b-- a --\x7d\x7d\n\x7b\x7b y".toList
    let body := "'\n@end\n\x7b\x7b `\" --\x7d".toList
    ∃ r, (SyntaxTree.parse text).records[8]? = some r ∧ r.kind = .comment ∧ r.isError = false ∧ IsCommentBody body ∧
      (SyntaxTree.parse (replaceComment text r body)).records.toList.map Record.unplaced =
        (SyntaxTree.parse text).records.toList.map Record.unplaced ∧
      (SyntaxTree.parse (replaceComment text r body)).diagnostics.map (fun d => (d.severity, d.message)) =
        (SyntaxTree.parse text).diagnostics.map fun d => (d.severity, d.message) := by
  intro text body
  have hfound : ((SyntaxTree.parse text).records[8]?).any (fun r => r.kind = .comment ∧ r.isError = false ∧
      ∀ s ∈ (SyntaxTree.parse text).records.toList, s.isError = true → r.start ≤ s.start) = true := by decide +kernel
  have hbody : IsCommentBody body := by decide +kernel
  obtain ⟨r, hr, hrp⟩ := (Option.any_eq_true _ _).1 hfound
  obtain ⟨hk, he, hfirst⟩ := of_decide_eq_true hrp
  exact ⟨r, hr, hk, he, hbody, comment_opaque (Array.mem_of_getElem? hr) hk he
    (fun s hs => hfirst s (Array.mem_toList_iff.2 hs)) hbody⟩

end EdgeTemplate
