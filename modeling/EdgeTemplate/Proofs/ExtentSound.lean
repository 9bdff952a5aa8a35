import EdgeTemplate.Proofs.ExcerptSound

/-!
# How far an argument list goes

The tokens of an argument list are folded from the right into nested groups, which are closed by the parentheses behind
them. Read from the left, character by character, a counter of the open lists is enough (`extent`): it stops where the
list does, with the number of lists that are unclosed. Each token takes the counter along (`extent_read`), and in any
run of tokens the openings that the counter has kept are the groups without a closing parenthesis (`extent_scan`).
-/

namespace EdgeTemplate

/-! ## The counter -/

/-- Where a count stopped: how many lists are open there, whether the outermost has been closed, and what follows. -/
structure Extent where
  depth : Nat
  closed : Bool
  rest : List Char
  deriving DecidableEq

/-- What follows a literal whose quote has been read. One without an end goes on to the next quote, line end or closing
parenthesis. -/
def afterQuote (q : Quote) (cs : List Char) : List Char :=
  match closeLiteral q cs with
  | some (_, rest) => rest
  | none => cs.dropWhile fun c => !(isQuote c || c == '\n' || c == ')')

theorem length_afterQuote (q : Quote) (cs : List Char) : (afterQuote q cs).length ≤ cs.length := by
  unfold afterQuote
  split
  · next h => simp [← closeLiteral_append h]
  · exact (List.dropWhile_suffix _).length_le

/-- Counts the open lists up to where the outermost is closed, a tag line follows or the text ends. -/
def extent (depth : Nat) : List Char → Extent
  | [] => ⟨depth, false, []⟩
  | c :: cs =>
    if startsTagBreak (c :: cs) then ⟨depth, false, c :: cs⟩
    else if c = '(' then extent (depth + 1) cs
    else if c = ')' then if depth ≤ 1 then ⟨0, true, cs⟩ else extent (depth - 1) cs
    else
      match Quote.ofChar? c with
      | some q =>
        have := length_afterQuote q cs
        extent depth (afterQuote q cs)
      | none => extent depth cs
termination_by cs => cs.length

theorem extent_stop {cs : List Char} (h : cs = [] ∨ startsTagBreak cs = true) (depth : Nat) :
    extent depth cs = ⟨depth, false, cs⟩ := by
  cases cs with
  | nil => rw [extent]
  | cons c cs => rw [extent, if_pos (h.resolve_left (by simp))]

theorem extent_cons {c : Char} {cs : List Char} (h : startsTagBreak (c :: cs) = false) (depth : Nat) :
    extent depth (c :: cs) =
      if c = '(' then extent (depth + 1) cs
      else if c = ')' then if depth ≤ 1 then ⟨0, true, cs⟩ else extent (depth - 1) cs
      else match Quote.ofChar? c with
        | some q => extent depth (afterQuote q cs)
        | none => extent depth cs := by
  rw [extent, if_neg (Bool.eq_false_iff.1 h)]

/-! ## Tokens -/

namespace ArgumentToken

theorem extent_text {a b : List Char} (h : Unstopped endsText a b) (depth : Nat) :
    extent depth (a ++ b) = extent depth b := by
  induction a with
  | nil => rfl
  | cons c a ih =>
    obtain ⟨hbreak, ho, hc, hq⟩ := endsText_cons.1 h.1
    rw [List.cons_append, extent_cons hbreak, if_neg ho, if_neg hc, ofChar?_eq_none.2 hq]
    exact ih h.2

theorem afterQuote_unterminated {q : Quote} {a b : List Char} (hl : closeLiteral q (a ++ b) = none)
    (hun : Unstopped endsUnterminated a b) (hend : b = [] ∨ endsUnterminated b = true) : afterQuote q (a ++ b) = b := by
  rw [afterQuote, hl]
  dsimp only
  rw [List.dropWhile_append_of_pos fun _ => unterminated_run hun]
  cases b with
  | nil => rfl
  | cons c b =>
    have hstop : (isQuote c || c == '\n' || c == ')') = true := hend.resolve_left (by simp)
    rw [List.dropWhile_cons_of_neg (by rw [hstop]; decide)]

/-- A token takes the counter on to what follows it. -/
theorem extent_read {cs rest : List Char} {token : ArgumentToken} (h : Read cs token rest) {depth : Nat}
    (hc : ¬(token = .closing ∧ depth = 0)) : extent (depth + 1) cs = extent (token.depthAfter depth + 1) rest := by
  have hquote : ∀ (q : Quote) (cs : List Char),
      extent (depth + 1) (q.char :: cs) = extent (depth + 1) (afterQuote q cs) := by
    intro q cs
    rw [extent_cons (by cases q <;> rfl), if_neg (by cases q <;> decide), if_neg (by cases q <;> decide),
      ofChar?_eq_some.2 rfl]
  cases h with
  | opening =>
    rw [extent_cons rfl, if_pos rfl]
    rfl
  | closing =>
    have hd : depth ≠ 0 := fun h0 => hc ⟨rfl, h0⟩
    rw [extent_cons rfl, if_neg (by decide), if_pos rfl, if_neg (by omega)]
    congr 1
    simp only [depthAfter]
    omega
  | literal hl =>
    rw [hquote, afterQuote, hl]
    rfl
  | unterminated hl hun hend =>
    rw [hquote, afterQuote_unterminated hl hun hend]
    rfl
  | text _ hun _ =>
    rw [extent_text hun]
    rfl

end ArgumentToken

/-! ## Groups -/

namespace Forest

/-- The number of groups without a closing parenthesis. -/
def openGroups : Forest → Nat
  | nil => 0
  | node label children siblings =>
    (if label.kind = .parenthesized ∧ label.isError = true then 1 else 0) + children.openGroups + siblings.openGroups

theorem countP_records (f : Forest) (parent : Option Nat) (offset index : Nat) :
    (f.records parent offset index).countP (fun r => r.isError && r.kind == .parenthesized) = f.openGroups := by
  induction f generalizing parent offset index with
  | nil => rfl
  | node label children siblings ihc ihs =>
    rw [records, List.countP_cons, List.countP_append, ihc, ihs, openGroups]
    simp only [Bool.and_eq_true, beq_iff_eq, and_comm]
    omega

/-- The number of such groups in lists that lie in one another. -/
def openAround (n : Forest × List Forest) : Nat :=
  n.1.openGroups + n.2.foldr (fun siblings total => siblings.openGroups + total) 0

/-- What a token adds to the depth is in the lists behind it: an opening is a group that stays open, or it takes one of
the lists that are closed there. -/
theorem nest_balance (token : ArgumentToken) (tokens : List ArgumentToken) {depth : Nat}
    (hc : token = .closing → 0 < depth) :
    (nest (token :: tokens)).2.length + token.depthAfter depth + openAround (nest tokens) =
      (nest tokens).2.length + depth + openAround (nest (token :: tokens)) := by
  generalize hn : nest tokens = n
  obtain ⟨inside, outer⟩ := n
  cases token with
  | opening =>
    cases outer with
    | nil =>
      simp [nest, hn, openAround, group, leaf, openGroups, ArgumentToken.depthAfter]
      omega
    | cons siblings outer =>
      simp [nest, hn, openAround, group, leaf, openGroups, ArgumentToken.depthAfter]
      omega
  | closing =>
    have := hc rfl
    simp [nest, hn, openAround, leaf, openGroups, ArgumentToken.depthAfter]
    omega
  | _ =>
    rw [nest_plain (by simp) (by simp), hn]
    simp [openAround, openGroups, ArgumentToken.label, ArgumentToken.depthAfter]

end Forest

/-- Inside `depth` lists the counter keeps step with the scan for tokens. Of the lists that it has left open some have
been opened around these tokens and are not closed by them, and the others are their open groups. -/
theorem extent_scan (depth : Nat) (cs : List Char) :
    (extent (depth + 1) cs).rest = (ArgumentToken.scan depth cs).2 ∧
      ((extent (depth + 1) cs).closed = true ↔ ArgumentToken.Closes depth (ArgumentToken.scan depth cs).1) ∧
      (extent (depth + 1) cs).depth + (Forest.nest (ArgumentToken.scan depth cs).1).2.length =
        depth + 1 + Forest.openAround (Forest.nest (ArgumentToken.scan depth cs).1) := by
  fun_induction ArgumentToken.scan depth cs with
  | case1 depth cs hn =>
    rw [extent_stop (ArgumentToken.next?_eq_none_iff.1 hn)]
    exact ⟨rfl, iff_of_false Bool.false_ne_true (ArgumentToken.not_closes_nil depth), rfl⟩
  | case2 depth cs token rest hn _ hc =>
    obtain ⟨rfl, rfl⟩ := hc
    cases ArgumentToken.read_of_next? hn
    rw [extent_cons rfl, if_neg (by decide), if_pos rfl, if_pos (Nat.le_refl 1)]
    exact ⟨rfl, iff_of_true rfl Nat.zero_lt_one, rfl⟩
  | case3 depth cs token rest hn _ hc tail ih =>
    obtain ⟨hrest, hclosed, hdepth⟩ := ih
    have hbalance := @Forest.nest_balance token tail.1 depth fun ht => Nat.pos_of_ne_zero fun h0 => hc ⟨ht, h0⟩
    have hdepth : _ + (Forest.nest tail.1).2.length = _ + 1 + Forest.openAround (Forest.nest tail.1) := hdepth
    rw [ArgumentToken.extent_read (ArgumentToken.read_of_next? hn) hc]
    refine ⟨hrest, hclosed.trans (ArgumentToken.closes_cons hc).symm, ?_⟩
    dsimp only
    omega

theorem extent_arguments (inner : List Char) :
    let e := extent 0 ('(' :: inner)
    let n := Forest.nest (ArgumentToken.scan 0 inner).1
    e.rest = (ArgumentToken.scan 0 inner).2 ∧ (n.2.isEmpty = true ↔ e.closed = false) ∧
      (if n.2.isEmpty then 1 else 0) + n.1.openGroups = e.depth := by
  dsimp only
  obtain ⟨hrest, hclosed, hdepth⟩ := extent_scan 0 inner
  rw [extent_cons rfl, if_pos rfl]
  rw [ArgumentToken.Closes] at hclosed
  rw [Forest.openAround] at hdepth
  refine ⟨hrest, ?_⟩
  rcases Forest.nest_scan_zero inner with hn | ⟨hn, -⟩
  · rw [hn] at hclosed hdepth ⊢
    have hc := hclosed.2 Nat.zero_lt_one
    simp [Forest.openGroups] at hdepth
    exact ⟨by simp [hc], by simp; omega⟩
  · rw [hn] at hclosed hdepth ⊢
    have hc := Bool.eq_false_iff.2 fun h => Nat.not_lt_zero 0 (hclosed.1 h)
    simp at hdepth
    exact ⟨by simp [hc], by simp; omega⟩

/-! ## Records -/

theorem countP_range {α : Type} {l : List α} {p : Nat → Bool} {q : α → Bool}
    (h : ∀ i a, l[i]? = some a → p i = q a) : (List.range l.length).countP p = l.countP q := by
  induction l generalizing p with
  | nil => rfl
  | cons a l ih =>
    have hrest := @ih (p ∘ Nat.succ) fun i b hb => h (i + 1) b (by simpa using hb)
    rw [List.length_cons, List.range_succ_eq_map, List.countP_cons, List.countP_map, List.countP_cons, h 0 a rfl, hrest]

theorem countP_descendants {tree : SyntaxTree} {j : Nat} {a : Record} {front below back : List Record}
    (h : tree.records.toList = front ++ (a :: (below ++ back))) (hj : front.length = j)
    (hend : a.subtreeEnd = (j + 1 + below.length : Nat)) (kind : Kind) :
    (tree.descendantsOfKind j a kind).countP (fun k => (tree.record? k).any (·.isError)) =
      below.countP fun r => r.isError && r.kind == kind := by
  have hlen : (a.subtreeEnd - ((j : Int) + 1)).toNat = below.length := by omega
  unfold SyntaxTree.descendantsOfKind
  rw [hlen, List.countP_filter, List.countP_map]
  refine countP_range fun k r hr => ?_
  have hrecord : tree.record? ((j : Int) + 1 + (k : Int)) = some r := by
    have hlt := (List.getElem?_eq_some_iff.1 hr).1
    rw [show (j : Int) + 1 + (k : Int) = ((front.length + (k + 1) : Nat) : Int) by omega, SyntaxTree.record?_natCast,
      ← Array.getElem?_toList, h, List.getElem?_append_right (by omega), Nat.add_sub_cancel_left,
      List.getElem?_cons_succ, List.getElem?_append_left hlt, hr]
  simp [hrecord, SyntaxTree.kindAt?]

theorem records_ofArguments (tokens : List ArgumentToken) (parent : Option Nat) (offset index : Nat) :
    (Forest.ofArguments tokens).records parent offset index =
      Forest.record parent offset index { kind := .arguments, isError := (Forest.nest tokens).2.isEmpty }
          (Forest.leaf .leftParen ['('] (Forest.nest tokens).1) ::
        (Forest.leaf .leftParen ['('] (Forest.nest tokens).1).records (some index) offset (index + 1) := by
  simp [Forest.ofArguments, Forest.group, Forest.records, Forest.record]

/-- The list of a directive comes behind the record of the directive and that of its name. -/
theorem itemRecords_arguments (before : List Item) (indent tag : List Char) (tokens : List ArgumentToken) :
    ∃ a below, (itemRecords before (.directive indent tag (some tokens))).drop 2 = a :: below ∧ a.kind = .arguments ∧
      a.start = ((before.flatMap Item.lexeme).length + indent.length + tag.length : Nat) ∧
      a.stop = a.start + (Forest.ofArguments tokens).width ∧ a.isError = (Forest.nest tokens).2.isEmpty ∧
      a.subtreeEnd = (1 + (Forest.ofItems before).size + 2 + 1 + below.length : Nat) ∧
      below.countP (fun r => r.isError && r.kind == .parenthesized) = (Forest.nest tokens).1.openGroups := by
  have hdrop : (itemRecords before (.directive indent tag (some tokens))).drop 2 =
      (Forest.ofArguments tokens).records (some (1 + (Forest.ofItems before).size))
        ((before.flatMap Item.lexeme).length + indent.length + tag.length)
        (1 + (Forest.ofItems before).size + 2) := by
    simp [itemRecords, Forest.ofItem, Forest.leaf, Forest.records, Forest.width, Forest.size, Nat.add_assoc]
  rw [records_ofArguments] at hdrop
  refine ⟨_, _, hdrop, rfl, ?_, ?_, rfl, ?_, ?_⟩
  · simp [Forest.record]
  · simp [Forest.record, Forest.ofArguments, Forest.group, Forest.width]
  · rw [Forest.length_records, Forest.record]
  · rw [Forest.countP_records]
    simp [Forest.leaf, Forest.openGroups]

section

variable {text : List Char} {before after : List Item} {indent tag : List Char} {tokens : List ArgumentToken}
  (hx : items true text = before ++ .directive indent tag (some tokens) :: after)
include hx

theorem arguments_record : ∃ a : Record,
    (SyntaxTree.parse text).records[1 + (Forest.ofItems before).size + 2]? = some a ∧ a.kind = .arguments ∧
      a.start = ((before.flatMap Item.lexeme).length + indent.length + tag.length : Nat) ∧
      a.stop = a.start + (Forest.ofArguments tokens).width ∧ a.isError = (Forest.nest tokens).2.isEmpty ∧
      ((SyntaxTree.parse text).descendantsOfKind (1 + (Forest.ofItems before).size + 2 : Nat) a .parenthesized).countP
        (fun k => ((SyntaxTree.parse text).record? k).any (·.isError)) = (Forest.nest tokens).1.openGroups := by
  obtain ⟨a, below, hdrop, hkind, hstart, hstop, herror, hend, hcount⟩ :=
    itemRecords_arguments before indent tag tokens
  obtain ⟨front, back, hsplit, hlen⟩ := records_split hx
  have ha : (itemRecords before (.directive indent tag (some tokens)))[2]? = some a := by
    rw [← Nat.add_zero 2, ← List.getElem?_drop, hdrop, List.getElem?_cons_zero]
  refine ⟨a, getElem?_item hx ha, hkind, hstart, hstop, herror, ?_⟩
  rw [← List.take_append_drop 2 (itemRecords before _), hdrop, List.append_assoc, ← List.append_assoc,
    List.cons_append] at hsplit
  rw [countP_descendants hsplit ?_ hend, hcount]
  have htwo := (List.getElem?_eq_some_iff.1 ha).1
  rw [List.length_append, List.length_take]
  omega

theorem arguments_childOfKind {d : Record}
    (hd : (itemRecords before (.directive indent tag (some tokens)))[0]? = some d) :
    (SyntaxTree.parse text).childOfKind? d .arguments = some ((1 + (Forest.ofItems before).size + 2 : Nat) : Int) := by
  obtain ⟨n, hn, hnk, -⟩ := itemRecords_name before indent tag (some tokens)
  obtain ⟨a, ha, hak, -⟩ := arguments_record hx
  have hname := kindAt_item hx hn
  have hlist :
      (SyntaxTree.parse text).kindAt? ((1 + (Forest.ofItems before).size + 2 : Nat) : Int) = some .arguments := by
    rw [SyntaxTree.kindAt?, SyntaxTree.record?_natCast, ha, Option.map_some, hak]
  have hchildren : d.children = [((1 + (Forest.ofItems before).size + 1 : Nat) : Int),
      ((1 + (Forest.ofItems before).size + 2 : Nat) : Int)] := by
    rw [← Option.some.inj hd]
    rfl
  rw [SyntaxTree.childOfKind?, hchildren, List.find?_cons_of_neg, List.find?_cons_of_pos]
  · rw [hlist]
    rfl
  · rw [hname, hnk]
    decide

end

/-- The first child of a directive is its name, which has the characters of the tag. -/
theorem name_childOfKind {text : List Char} {before after : List Item} {indent tag : List Char}
    {arguments : Option (List ArgumentToken)} {d : Record}
    (hx : items true text = before ++ .directive indent tag arguments :: after)
    (hd : (itemRecords before (.directive indent tag arguments))[0]? = some d) : ∃ n,
      (SyntaxTree.parse text).childOfKind? d .directiveName =
        some ((1 + (Forest.ofItems before).size + 1 : Nat) : Int) ∧
      (SyntaxTree.parse text).records[1 + (Forest.ofItems before).size + 1]? = some n ∧ n.kind = .directiveName ∧
      n.stop = ((before.flatMap Item.lexeme ++ indent ++ tag).length : Int) ∧
      (SyntaxTree.parse text).sourceOf n = tag := by
  obtain ⟨n, hn, hkind, hstart, hstop⟩ := itemRecords_name before indent tag arguments
  obtain ⟨tail, hchildren⟩ : ∃ tail, d.children = ((1 + (Forest.ofItems before).size + 1 : Nat) : Int) :: tail := by
    rw [← Option.some.inj hd]
    exact ⟨_, rfl⟩
  obtain ⟨ls, suf, rest, htext, hread, -⟩ := items_read (boundary_start text) hx
  obtain ⟨-, behind, hsuf, -⟩ := hread.tagSplit
  rw [← List.length_append] at hstart hstop
  rw [← List.length_append] at hstop
  refine ⟨n, ?_, getElem?_item hx hn, hkind, hstop, ?_⟩
  · rw [SyntaxTree.childOfKind?, hchildren, List.find?_cons_of_pos (by rw [kindAt_item hx hn, hkind]; rfl)]
  · rw [SyntaxTree.sourceOf, hstart, hstop]
    show slice text _ _ = _
    rw [htext, hsuf, ← List.append_assoc, slice_append]

theorem name_stop {text : List Char} {before after : List Item} {indent tag : List Char}
    {arguments : Option (List ArgumentToken)} {d n : Record} {c : Int}
    (hx : items true text = before ++ .directive indent tag arguments :: after)
    (hd : (itemRecords before (.directive indent tag arguments))[0]? = some d)
    (hc : (SyntaxTree.parse text).childOfKind? d .directiveName = some c)
    (hn : (SyntaxTree.parse text).record? c = some n) :
    n.stop = ((before.flatMap Item.lexeme).length + indent.length + tag.length : Nat) := by
  obtain ⟨m, hm, hrec, -, hstop, -⟩ := name_childOfKind hx hd
  rw [hm] at hc
  cases hc
  rw [SyntaxTree.record?_natCast, hrec] at hn
  cases hn
  rw [hstop, List.length_append, List.length_append]

/-- The list of a directive ends where the counter stops, is an error exactly if the counter has stopped without closing
it, and has as many unclosed lists, with itself, as are open there. -/
theorem arguments_extent {text : List Char} {i : Nat} {d n : Record} {c : Int}
    (hd : (SyntaxTree.parse text).records[i]? = some d) (hk : d.kind.isDirective = true)
    (hc : (SyntaxTree.parse text).childOfKind? d .directiveName = some c)
    (hn : (SyntaxTree.parse text).record? c = some n) (hopen : (text.drop n.stop.toNat).head? = some '(') :
    let tree := SyntaxTree.parse text
    let e := extent 0 (text.drop n.stop.toNat)
    ∃ (j : Nat) (a : Record), tree.childOfKind? d .arguments = some (j : Int) ∧ tree.records[j]? = some a ∧
      a.start = n.stop ∧ a.stop + e.rest.length = text.length ∧ (a.isError = true ↔ e.closed = false) ∧
      ((j : Int) :: tree.descendantsOfKind j a .parenthesized).countP (fun k => (tree.record? k).any (·.isError)) =
        e.depth := by
  obtain ⟨before, indent, tag, arguments, after, hx, rfl, hr⟩ := directive_record hd hk
  obtain ⟨ls, suf, rest, htext, hread, -⟩ := items_read (boundary_start text) hx
  have hstop := name_stop hx hr hc hn
  have hdrop : ∀ x, suf = indent ++ (tag ++ x) → text.drop n.stop.toNat = x := by
    intro x hsuf
    rw [hstop, htext, hsuf, Int.toNat_natCast, ← List.append_assoc, ← List.append_assoc]
    exact List.drop_left' (by simp [Nat.add_assoc])
  cases hread with
  | directive _ _ hhead =>
    rw [hdrop _ rfl] at hopen
    exact absurd hopen hhead
  | @arguments _ _ inner _ _ =>
    intro tree e
    obtain ⟨hrest, hclosed, hdepth⟩ := extent_arguments inner
    have he : e = extent 0 ('(' :: inner) := congrArg (extent 0) (hdrop _ rfl)
    obtain ⟨a, ha, -, hstart, hend, herror, hcount⟩ := arguments_record hx
    refine ⟨_, a, arguments_childOfKind hx hr, ha, hstart.trans hstop.symm, ?_, ?_, ?_⟩
    · have hscan := congrArg List.length (ArgumentToken.scan_append 0 inner)
      rw [he, hrest, hend, hstart, ← Forest.length_text, Forest.text_ofArguments, htext]
      simp only [List.length_append, List.length_cons] at hscan ⊢
      omega
    · rw [herror, he]
      exact hclosed
    · rw [List.countP_cons, hcount, he, ← hdepth, SyntaxTree.record?_natCast, ha, Option.any_some, herror, Nat.add_comm]

/-- A closed group, and then one that is cut off with the list around it by the next tag line. -/
theorem arguments_extent_cutOff :
    let text := "@if((a)(b'\n@end(".toList
    let tree := SyntaxTree.parse text
    ∃ d n : Record, tree.records[1]? = some d ∧ d.kind.isDirective = true ∧
      tree.childOfKind? d .directiveName = some 2 ∧ tree.record? 2 = some n ∧ n.stop = 3 ∧
      ∃ (j : Nat) (a : Record), tree.childOfKind? d .arguments = some (j : Int) ∧ tree.records[j]? = some a ∧
        a.start = 3 ∧ a.stop = 10 ∧ a.isError = true ∧
        ((j : Int) :: tree.descendantsOfKind j a .parenthesized).countP (fun k => (tree.record? k).any (·.isError)) =
          2 := by
  intro text tree
  have hdirective : (tree.records[1]?).any (fun d => d.kind.isDirective = true ∧
      tree.childOfKind? d .directiveName = some 2) = true := by
    decide +kernel
  have hname : (tree.record? 2).any (fun n => n.stop = 3) = true := by decide +kernel
  have he : extent 0 (text.drop 3) = ⟨2, false, "\n@end(".toList⟩ := by decide +kernel
  obtain ⟨d, hd, hdp⟩ := (Option.any_eq_true _ _).1 hdirective
  obtain ⟨n, hn, hnp⟩ := (Option.any_eq_true _ _).1 hname
  obtain ⟨hk, hc⟩ := of_decide_eq_true hdp
  have hstop : n.stop = 3 := of_decide_eq_true hnp
  have hdrop : text.drop n.stop.toNat = text.drop 3 := by
    rw [hstop]
    rfl
  have hopen : (text.drop n.stop.toNat).head? = some '(' := by
    rw [hdrop]
    decide +kernel
  have hlen : text.length = 16 := by decide +kernel
  have hrest : "\n@end(".toList.length = 6 := by decide +kernel
  obtain ⟨j, a, hj, ha, hstart, hend, herror, hcount⟩ := arguments_extent hd hk hc hn hopen
  rw [hdrop, he] at hend herror hcount
  rw [hlen, hrest] at hend
  exact ⟨d, n, hd, hk, hc, hn, hstop, j, a, hj, ha, hstart.trans hstop, by omega, herror.2 rfl, hcount⟩

end EdgeTemplate
