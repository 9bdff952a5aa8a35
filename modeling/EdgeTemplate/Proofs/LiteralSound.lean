import EdgeTemplate.Proofs.Lossless

/-!
# Where literals end

What stands between the quotes of a literal is `Quote.Scanned`, and a literal is closed by the first of
its quotes that such a run reaches (`closeLiteral_eq_some_iff`). A string of the tree is a literal up to
that quote, or, if there is none, an error over the run up to another quote, a line end or `)`
(`string_extent`).
-/

namespace EdgeTemplate

/-! ## The scan for the closing quote -/

/-- What the scan passes: pairs of a backslash and a character of the same line, and characters that
neither close the literal nor end it early. -/
inductive Quote.Scanned (q : Quote) : List Char → Prop
  | nil : q.Scanned []
  | escaped {c : Char} {body : List Char} : c ≠ '\n' → q.Scanned body → q.Scanned ('\\' :: c :: body)
  | plain {c : Char} {body : List Char} : c ≠ q.char → c ≠ '\\' → (c = '\n' → q = .backtick) →
      q.Scanned body → q.Scanned (c :: body)

theorem scanned_of_closeLiteral {q : Quote} {cs lexeme rest : List Char}
    (h : closeLiteral q cs = some (lexeme, rest)) : ∃ body, q.Scanned body ∧ lexeme = body ++ [q.char] := by
  fun_induction closeLiteral q cs generalizing lexeme rest with
  | case1 => cases h
  | case2 =>
    simp only [Option.some.injEq, Prod.mk.injEq] at h
    exact ⟨[], .nil, h.1.symm⟩
  | case3 => cases h
  | case4 => cases h
  | case5 d ds hd _ ih =>
    obtain ⟨found, hf, he⟩ := Option.map_eq_some_iff.1 h
    obtain ⟨body, hbody, hb⟩ := ih hf
    cases he
    exact ⟨'\\' :: d :: body, .escaped hd hbody, by rw [hb]; rfl⟩
  | case6 => cases h
  | case7 c cs hq hs hline ih =>
    obtain ⟨found, hf, he⟩ := Option.map_eq_some_iff.1 h
    obtain ⟨body, hbody, hb⟩ := ih hf
    cases he
    refine ⟨c :: body, .plain hq hs (fun hc => ?_) hbody, by rw [hb]; rfl⟩
    simpa [hc, Quote.spansLines] using hline

theorem Quote.Scanned.closeLiteral_eq {q : Quote} {body : List Char} (h : q.Scanned body) (rest : List Char) :
    closeLiteral q (body ++ q.char :: rest) = some (body ++ [q.char], rest) := by
  induction h with
  | nil =>
    rw [List.nil_append, closeLiteral.eq_def]
    simp
  | @escaped c body hc _ ih =>
    have hq : '\\' ≠ q.char := by cases q <;> decide
    simp [closeLiteral, hq, hc, ih]
  | @plain c body hq hs hline _ ih =>
    have hl : (decide (c = '\n') && !q.spansLines) = false := by
      by_cases hc : c = '\n'
      · simp [hline hc, Quote.spansLines]
      · simp [hc]
    rw [List.cons_append, closeLiteral.eq_def]
    simp only [hq, hs, hl, Bool.false_eq_true, ite_false, ih]
    rfl

theorem closeLiteral_eq_some_iff {q : Quote} {cs lexeme rest : List Char} :
    closeLiteral q cs = some (lexeme, rest) ↔
      ∃ body, q.Scanned body ∧ lexeme = body ++ [q.char] ∧ cs = body ++ q.char :: rest := by
  constructor
  · intro h
    obtain ⟨body, hbody, rfl⟩ := scanned_of_closeLiteral h
    exact ⟨body, hbody, rfl, by simp [← closeLiteral_append h]⟩
  · rintro ⟨body, hbody, rfl, rfl⟩
    exact hbody.closeLiteral_eq rest

theorem Quote.Scanned.unique {q : Quote} {a b x y : List Char} (ha : q.Scanned a) (hb : q.Scanned b)
    (h : a ++ q.char :: x = b ++ q.char :: y) : a = b := by
  have hx := ha.closeLiteral_eq x
  rw [h, hb.closeLiteral_eq y, Option.some.injEq, Prod.mk.injEq] at hx
  exact (List.append_cancel_right hx.1).symm

/-- The run of an unterminated literal is as long as it can be. -/
theorem takeWhile_unterminated {a b : List Char} (hun : Unstopped endsUnterminated a b)
    (hend : b = [] ∨ endsUnterminated b = true) :
    (a ++ b).takeWhile (fun c => !(isQuote c || c == '\n' || c == ')')) = a := by
  rw [List.takeWhile_append_of_pos fun _ => unterminated_run hun]
  cases b with
  | nil => simp
  | cons c b =>
    have hstop : (isQuote c || c == '\n' || c == ')') = true := hend.resolve_left (by simp)
    rw [List.takeWhile_cons_of_neg (by rw [hstop]; decide), List.append_nil]

/-! ## Strings of a tree -/

/-- A string is a token of an argument list, read where it stands. -/
def ReadAsToken (_ : List Char) (l : Label) (rest : List Char) : Prop :=
  l.kind = .string → ∃ token, ArgumentToken.Read (l.lexeme ++ rest) token rest ∧ l = token.label

theorem readAsToken_argument {cs rest : List Char} {token : ArgumentToken} (h : ArgumentToken.Read cs token rest)
    (pre : List Char) : ReadAsToken pre token.label rest := by
  have hlexeme := token.lexeme_label
  intro _
  refine ⟨token, ?_, rfl⟩
  rw [hlexeme, ArgumentToken.next?_append (ArgumentToken.next?_of_read h)]
  exact h

theorem readAsToken_other {l : Label} (h : l.kind ≠ .string) (pre rest : List Char) : ReadAsToken pre l rest :=
  fun hk => absurd hk h

theorem readAsToken_item {lineStart : Bool} {pre cs rest : List Char} {item : Item}
    (h : Item.Read lineStart cs item rest) : Throughout ReadAsToken pre item.leaves rest := by
  cases h with
  | interpolation style e he hp =>
    rw [Item.leaves]
    refine ⟨readAsToken_other (by simp) _ _, (throughout_append _ _ _ _ _).2 ⟨?_, ?_⟩⟩
    · cases e.body.isEmpty with
      | true => trivial
      | false => exact ⟨readAsToken_other (by simp) _ _, trivial⟩
    · cases e.closed with
      | true => exact ⟨readAsToken_other (by simp) _ _, trivial⟩
      | false => trivial
  | @arguments indent tag inner hl hsplit =>
    have hopen : Boundary false (pre ++ (indent ++ tag) ++ ['(']) inner :=
      boundary_of_last List.getLast?_concat (by decide) (by decide)
    rw [Item.leaves, List.map_cons]
    refine ⟨readAsToken_other (by simp) _ _, readAsToken_other (by simp [ArgumentToken.label]) _ _, ?_⟩
    exact throughout_scan (fun pre _ _ _ _ hr => readAsToken_argument hr pre) 0 hopen
  | _ => exact ⟨readAsToken_other (by simp) _ _, trivial⟩

theorem string_token {text : List Char} {r : Record} (hr : r ∈ (SyntaxTree.parse text).records)
    (hk : r.kind = .string) : ∃ before token after, text = before ++ (token.lexeme ++ after) ∧
      ArgumentToken.Read (token.lexeme ++ after) token after ∧ token.label.kind = .string ∧
      r.isError = token.label.isError ∧ r.start = (before.length : Int) ∧
      r.stop = ((before ++ token.lexeme).length : Int) := by
  have hleaf := mem_leaves_of_isLeaf hr (by rw [hk]; rfl)
  have ho : r.outline ∈ outlines 0 ((items true text).flatMap Item.leaves) := by
    rw [← outline_leaves]
    exact List.mem_map_of_mem hleaf
  have hall : Throughout ReadAsToken [] ((items true text).flatMap Item.leaves) [] :=
    throughout_items (fun _ _ _ _ _ _ => readAsToken_item) (boundary_start text)
  obtain ⟨before, l, after, htext, hp, ho⟩ := hall.at_leaf ho
  simp only [Record.outline, Prod.mk.injEq] at ho
  obtain ⟨token, hread, rfl⟩ := hp (ho.1.symm.trans hk)
  have hindent := token.indent_label
  have hlexeme := token.lexeme_label
  rw [hlexeme] at hread
  rw [spell_items_leaves, items_append, List.nil_append, List.append_nil] at htext
  simp only [hindent, hlexeme, List.append_nil, List.nil_append] at htext ho
  exact ⟨before, token, after, htext, hread, ho.1.symm.trans hk, ho.2.1, ho.2.2⟩

/-- A string starts with a quote. It is no error exactly if the scan behind this quote reaches the same
quote again, and then it ends there; otherwise it takes the run that no quote, line end or `)` is in. -/
theorem string_extent {text : List Char} {r : Record} (hr : r ∈ (SyntaxTree.parse text).records)
    (hk : r.kind = .string) : ∃ (q : Quote) (before after : List Char),
      text = before ++ q.char :: after ∧ r.start = before.length ∧
      (r.isError = false ↔ ∃ body rest, q.Scanned body ∧ after = body ++ q.char :: rest) ∧
      (∀ body rest, q.Scanned body → after = body ++ q.char :: rest →
        r.stop = r.start + body.length + 2 ∧ 2 ≤ ((SyntaxTree.parse text).sourceOf r).length ∧
        (((SyntaxTree.parse text).sourceOf r).drop 1).dropLast = body) ∧
      (r.isError = true → (SyntaxTree.parse text).sourceOf r =
          q.char :: after.takeWhile (fun c => !(isQuote c || c == '\n' || c == ')')) ∧
        r.stop = r.start + ((SyntaxTree.parse text).sourceOf r).length) := by
  obtain ⟨before, token, after, htext, hread, hstring, herror, hstart, hstop⟩ := string_token hr hk
  have hsource : (SyntaxTree.parse text).sourceOf r = token.lexeme := by
    rw [SyntaxTree.sourceOf, hstart, hstop]
    show slice text _ _ = _
    rw [htext, slice_append]
  rw [hsource, hstart, hstop, herror, List.length_append, htext]
  generalize hcs : token.lexeme ++ after = cs at hread
  cases hread with
  | opening => cases hstring
  | closing => cases hstring
  | text => cases hstring
  | @literal q cs _ after hl =>
    obtain ⟨body, hbody, rfl, rfl⟩ := closeLiteral_eq_some_iff.1 hl
    refine ⟨q, before, _, rfl, rfl, iff_of_true rfl ⟨body, after, hbody, rfl⟩, ?_, fun h => by cases h⟩
    intro body' rest hbody' h
    obtain rfl := hbody.unique hbody' h
    have hlen : (q.char :: (body ++ [q.char])).length = body.length + 2 := by simp
    refine ⟨?_, ?_, ?_⟩
    · rw [ArgumentToken.lexeme, hlen]
      omega
    · rw [ArgumentToken.lexeme, hlen]
      exact Nat.le_add_left 2 _
    · rw [ArgumentToken.lexeme, List.drop_one, List.tail_cons, List.dropLast_concat]
  | @unterminated q a _ hl hun hend =>
    have hnone : ¬∃ body rest, q.Scanned body ∧ a ++ after = body ++ q.char :: rest := by
      rintro ⟨body, rest, hbody, h⟩
      rw [h, hbody.closeLiteral_eq rest] at hl
      cases hl
    refine ⟨q, before, _, rfl, rfl, iff_of_false (by simp [ArgumentToken.label]) hnone, ?_, fun _ => ⟨?_, rfl⟩⟩
    · intro body rest hbody h
      exact absurd ⟨body, rest, hbody, h⟩ hnone
    · rw [takeWhile_unterminated hun hend]
      rfl

/-- A literal with an escaped quote, and one that only a parenthesis stops. -/
theorem string_extent_escaped :
    let text := "@if('it\\'s' + \"a)".toList
    let tree := SyntaxTree.parse text
    ∃ r s : Record, tree.records[5]? = some r ∧ r.kind = .string ∧ r.isError = false ∧
      tree.records[7]? = some s ∧ s.kind = .string ∧ s.isError = true ∧
      (∃ (q : Quote) (before body rest : List Char), text = before ++ q.char :: (body ++ q.char :: rest) ∧
        q.Scanned body ∧ r.start = before.length ∧ r.stop = r.start + body.length + 2 ∧
        ((tree.sourceOf r).drop 1).dropLast = body) ∧
      ∃ (q : Quote) (before after : List Char), text = before ++ q.char :: after ∧ s.start = before.length ∧
        tree.sourceOf s = q.char :: after.takeWhile (fun c => !(isQuote c || c == '\n' || c == ')')) := by
  intro text tree
  have hclosed : (tree.records[5]?).any (fun r => r.kind = .string ∧ r.isError = false) = true := by decide +kernel
  have hopen : (tree.records[7]?).any (fun r => r.kind = .string ∧ r.isError = true) = true := by decide +kernel
  obtain ⟨r, hr, hrp⟩ := (Option.any_eq_true _ _).1 hclosed
  obtain ⟨s, hs, hsp⟩ := (Option.any_eq_true _ _).1 hopen
  obtain ⟨hrk, hre⟩ := of_decide_eq_true hrp
  obtain ⟨hsk, hse⟩ := of_decide_eq_true hsp
  refine ⟨r, s, hr, hrk, hre, hs, hsk, hse, ?_, ?_⟩
  · obtain ⟨q, before, after, htext, hstart, hiff, hextent, -⟩ := string_extent (Array.mem_of_getElem? hr) hrk
    obtain ⟨body, rest, hbody, rfl⟩ := hiff.1 hre
    obtain ⟨hstop, -, hinner⟩ := hextent body rest hbody rfl
    exact ⟨q, before, body, rest, htext, hbody, hstart, hstop, hinner⟩
  · obtain ⟨q, before, after, htext, hstart, -, -, hrun⟩ := string_extent (Array.mem_of_getElem? hs) hsk
    exact ⟨q, before, after, htext, hstart, (hrun hse).1⟩

end EdgeTemplate
