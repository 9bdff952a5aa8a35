import EdgeTemplate.Proofs.LineSound

/-!
# The marker of a line

The directive that is being typed on a line is marked by the last `@` that stands in no quote (`IsMarker`), and the
marker gives the end of the line its context as long as its name or its argument list goes on there (`LineContext`).
A line is read by its last `@` of all. If that one stands in a quote then no marker is looked for before it, so where a
list with such a literal is still open the line counts as plain text (`ofLine_marked`).
-/

namespace EdgeTemplate

/-! ## Quotes and lists -/

theorem openQuote_append (a b : List Char) : openQuote (a ++ b) = b.foldl quoteAfter (openQuote a) :=
  List.foldl_append

theorem openQuote_plain {a : List Char} (h : ∀ c ∈ a, isQuote c = false) : openQuote a = none := by
  induction a with
  | nil => rfl
  | cons c a ih =>
    obtain ⟨hc, ha⟩ := List.forall_mem_cons.1 h
    rw [openQuote, List.foldl_cons, quoteAfter, ofChar?_eq_none.2 hc]
    exact ih ha

/-- The characters outside quotes, with `quote` open at the start. -/
def unquoted (quote : Option Quote) : List Char → List Char
  | [] => []
  | c :: cs => if quote.isSome || isQuote c then unquoted (quoteAfter quote c) cs else c :: unquoted none cs

/-- With `depth` lists open at the start, no parenthesis closes more than these and those opened since. -/
def StaysOpen (depth : Nat) (cs : List Char) : Prop := ∀ a, a <+: cs → a.count ')' ≤ depth + a.count '('

theorem staysOpen_nil (depth : Nat) : StaysOpen depth [] := by
  intro a ha
  rw [List.prefix_nil.1 ha]
  exact Nat.zero_le _

theorem staysOpen_cons {depth : Nat} {c : Char} {cs : List Char} :
    StaysOpen depth (c :: cs) ↔ ∀ a, a <+: cs → (c :: a).count ')' ≤ depth + (c :: a).count '(' := by
  constructor
  · intro h a ha
    exact h (c :: a) (List.cons_prefix_cons.2 ⟨rfl, ha⟩)
  · intro h b hb
    rcases List.prefix_cons_iff.1 hb with rfl | ⟨a, rfl, ha⟩
    · exact Nat.zero_le _
    · exact h a ha

theorem staysOpen_opening {depth : Nat} {cs : List Char} :
    StaysOpen depth ('(' :: cs) ↔ StaysOpen (depth + 1) cs := by
  rw [staysOpen_cons]
  refine forall₂_congr fun a _ => ?_
  rw [List.count_cons_of_ne (by decide), List.count_cons_self]
  omega

theorem staysOpen_closing {depth : Nat} {cs : List Char} :
    StaysOpen (depth + 1) (')' :: cs) ↔ StaysOpen depth cs := by
  rw [staysOpen_cons]
  refine forall₂_congr fun a _ => ?_
  rw [List.count_cons_self, List.count_cons_of_ne (by decide)]
  omega

theorem not_staysOpen_closing (cs : List Char) : ¬StaysOpen 0 (')' :: cs) := by
  intro h
  exact absurd (h [')'] ⟨cs, rfl⟩) (by decide)

theorem staysOpen_other {depth : Nat} {c : Char} {cs : List Char} (ho : c ≠ '(') (hc : c ≠ ')') :
    StaysOpen depth (c :: cs) ↔ StaysOpen depth cs := by
  rw [staysOpen_cons]
  refine forall₂_congr fun a _ => ?_
  rw [List.count_cons_of_ne hc, List.count_cons_of_ne ho]

/-- The scan of an argument list answers as long as the list is open, with the quote that is open in it. -/
theorem quoteInArguments?_eq_some_iff {depth : Nat} {quote found : Option Quote} {cs : List Char} :
    quoteInArguments? depth quote cs = some found ↔
      StaysOpen depth (unquoted quote cs) ∧ cs.foldl quoteAfter quote = found := by
  induction cs generalizing depth quote with
  | nil => simp [quoteInArguments?, unquoted, staysOpen_nil]
  | cons c cs ih =>
    rw [List.foldl_cons, unquoted]
    by_cases hq : (quote.isSome || isQuote c) = true
    · rw [quoteInArguments?_after hq, if_pos hq]
      exact ih
    · rw [if_neg hq]
      rw [Bool.or_eq_true, not_or] at hq
      obtain rfl : quote = none := by simpa using hq.1
      have hafter : quoteAfter none c = none := ofChar?_eq_none.2 (Bool.eq_false_iff.2 hq.2)
      rw [hafter]
      by_cases ho : c = '('
      · subst ho
        rw [staysOpen_opening]
        exact ih
      · by_cases hc : c = ')'
        · subst hc
          cases depth with
          | zero =>
            refine ⟨fun h => ?_, fun h => absurd h.1 (not_staysOpen_closing _)⟩
            cases h
          | succ depth =>
            rw [staysOpen_closing]
            exact ih
        · have hplain := quoteInArguments?_plain (a := [c])
            (fun d hd => List.mem_singleton.1 hd ▸ ⟨ho, hc, Bool.eq_false_iff.2 hq.2⟩) depth cs
          rw [List.singleton_append] at hplain
          rw [hplain, staysOpen_other ho hc]
          exact ih

/-! ## Markers -/

/-- The `@` behind `before` stands in no quote, and none behind it does so too. -/
structure IsMarker (line before after : List Char) : Prop where
  split : line = before ++ '@' :: after
  unquoted : openQuote before = none
  last : ∀ b a, line = b ++ '@' :: a → openQuote b = none → b.length ≤ before.length

inductive IsMarkerName : List Char → Prop
  | plain {cs : List Char} : cs.all isNameChar = true → IsMarkerName cs
  | inline {cs : List Char} : cs.all isNameChar = true → IsMarkerName ('!' :: cs)

/-- The context that a marker gives to the end of its line, by the text behind it. -/
inductive MarkerContext : List Char → Context → Prop
  | name {name : List Char} : IsMarkerName name → MarkerContext name .directive
  | list {name inner : List Char} : IsMarkerName name → StaysOpen 0 (unquoted none inner) → openQuote inner = none →
      MarkerContext (name ++ '(' :: inner) .directive
  | literal {name inner : List Char} : IsMarkerName name → StaysOpen 0 (unquoted none inner) →
      (openQuote inner).isSome = true → MarkerContext (name ++ '(' :: inner) .stringLiteral

/-- The context at the end of a line: that of the marker and, where it gives none, that of the quotes. -/
inductive LineContext (line : List Char) : Context → Prop
  | marker {before after : List Char} {c : Context} : IsMarker line before after → MarkerContext after c →
      LineContext line c
  | literal : (∀ before after c, IsMarker line before after → ¬MarkerContext after c) →
      (openQuote line).isSome = true → LineContext line .stringLiteral
  | plain : (∀ before after c, IsMarker line before after → ¬MarkerContext after c) →
      openQuote line = none → LineContext line .plainText

/-- The last `@` stands in a quote. -/
def LastMarkQuoted (line : List Char) : Prop :=
  ∃ before after, line = before ++ '@' :: after ∧ '@' ∉ after ∧ (openQuote before).isSome = true

theorem not_mem_of_splitLast? {c : Char} {cs : List Char} (h : splitLast? c cs = none) : c ∉ cs := by
  induction cs with
  | nil => exact List.not_mem_nil
  | cons d cs ih =>
    rw [splitLast?] at h
    cases hs : splitLast? c cs with
    | some found =>
      rw [hs] at h
      cases h
    | none =>
      rw [hs] at h
      rw [List.mem_cons, not_or]
      exact ⟨fun hc => by simp [hc] at h, ih hs⟩

theorem splitLast?_eq_some {c : Char} {cs a b : List Char} (h : splitLast? c cs = some (a, b)) :
    cs = a ++ c :: b ∧ c ∉ b := by
  induction cs generalizing a with
  | nil => cases h
  | cons d cs ih =>
    rw [splitLast?] at h
    cases hs : splitLast? c cs with
    | some found =>
      rw [hs] at h
      cases h
      obtain ⟨hsplit, hb⟩ := ih hs
      exact ⟨congrArg (d :: ·) hsplit, hb⟩
    | none =>
      rw [hs] at h
      obtain ⟨rfl, he⟩ := Option.ite_none_right_eq_some.1 h
      cases he
      exact ⟨rfl, not_mem_of_splitLast? hs⟩

theorem length_le_of_last {b a b' a' : List Char} (h : b ++ '@' :: a = b' ++ '@' :: a') (ha : '@' ∉ a') :
    b.length ≤ b'.length := by
  rcases List.append_eq_append_iff.1 h with ⟨x, rfl, -⟩ | ⟨x, rfl, hx⟩
  · simp
  · cases x with
    | nil => simp
    | cons c x =>
      refine absurd ?_ ha
      rw [(List.cons.inj hx).2]
      simp

namespace IsMarker

variable {line before after : List Char}

theorem of_last (hs : line = before ++ '@' :: after) (hl : '@' ∉ after) (hq : openQuote before = none) :
    IsMarker line before after :=
  ⟨hs, hq, fun _ _ hba _ => length_le_of_last (hba.symm.trans hs) hl⟩

theorem unique {before' after' : List Char} (h : IsMarker line before after) (h' : IsMarker line before' after') :
    before = before' ∧ after = after' := by
  have hle := h.last _ _ h'.split h'.unquoted
  have hle' := h'.last _ _ h.split h.unquoted
  have hsplit := h.split.symm.trans h'.split
  obtain ⟨hb, ha⟩ := List.append_inj hsplit (Nat.le_antisymm hle' hle)
  exact ⟨hb, (List.cons.inj ha).2⟩

/-- A quoted `@` at the end of the line comes behind the marker. -/
theorem mem_after (h : IsMarker line before after) (hq : LastMarkQuoted line) : '@' ∈ after := by
  obtain ⟨b, a, hsplit, ha, hquoted⟩ := hq
  by_contra hafter
  have hsame := h.split.symm.trans hsplit
  have hlen := Nat.le_antisymm (length_le_of_last hsame ha) (length_le_of_last hsame.symm hafter)
  rw [← (List.append_inj hsame hlen).1, h.unquoted] at hquoted
  cases hquoted

end IsMarker

/-! ## The context of a marker -/

theorem afterMarkerName_split (cs : List Char) : ∃ name, IsMarkerName name ∧ cs = name ++ afterMarkerName cs := by
  unfold afterMarkerName
  split
  · next rest =>
    refine ⟨'!' :: rest.takeWhile isNameChar, .inline List.all_takeWhile, ?_⟩
    rw [List.cons_append, List.takeWhile_append_dropWhile]
  · exact ⟨cs.takeWhile isNameChar, .plain List.all_takeWhile, List.takeWhile_append_dropWhile.symm⟩

namespace IsMarkerName

variable {name : List Char} (h : IsMarkerName name)
include h

theorem nameChar {c : Char} (hc : c ∈ name) : isNameChar c = true ∨ c = '!' := by
  cases h with
  | plain hall => exact .inl (List.all_eq_true.1 hall c hc)
  | inline hall =>
    rcases List.mem_cons.1 hc with rfl | hc
    · exact .inr rfl
    · exact .inl (List.all_eq_true.1 hall c hc)

theorem not_quote {c : Char} (hc : c ∈ name) : isQuote c = false := by
  rw [← ofChar?_eq_none, Option.eq_none_iff_forall_ne_some]
  intro q hq
  have hname := h.nameChar hc
  rw [ofChar?_eq_some.1 hq] at hname
  revert hname
  cases q <;> decide

theorem not_mark : '@' ∉ name := by
  intro hm
  exact absurd (h.nameChar hm) (by decide)

theorem afterMarkerName_append {w : List Char} (hw : ∀ c, w.head? = some c → c = '(') :
    afterMarkerName (name ++ w) = w := by
  have hstop : ∀ c, w.head? = some c → isNameChar c = false := by
    intro c hc
    rw [hw c hc]
    decide
  cases h with
  | plain hall =>
    refine afterMarkerName_eq hall hstop fun hbang => ?_
    cases name with
    | nil => exact absurd (hw '!' hbang) (by decide)
    | cons c cs =>
      obtain rfl : c = '!' := by simpa using hbang
      exact absurd (List.all_eq_true.1 hall '!' List.mem_cons_self) (by decide)
  | inline hall => exact afterMarkerName_bang hall hstop

end IsMarkerName

/-- The quote that is open in the list of a marker is the one that is open on the line. -/
theorem IsMarker.openQuote_eq {line before name inner : List Char} (h : IsMarker line before (name ++ '(' :: inner))
    (hname : IsMarkerName name) : openQuote line = openQuote inner := by
  have hplain : openQuote ('@' :: (name ++ ['('])) = none := by
    refine openQuote_plain fun c hc => ?_
    simp only [List.mem_cons, List.mem_append, List.not_mem_nil, or_false] at hc
    rcases hc with rfl | hc | rfl
    · decide
    · exact hname.not_quote hc
    · decide
  have hline : line = (before ++ '@' :: (name ++ ['('])) ++ inner := by
    rw [h.split]
    simp
  rw [hline, openQuote_append, openQuote_append, h.unquoted]
  show inner.foldl quoteAfter (openQuote ('@' :: (name ++ ['(']))) = _
  rw [hplain]
  rfl

theorem IsMarkerName.ofMarker?_list {name : List Char} (h : IsMarkerName name) (inner : List Char) :
    Context.ofMarker? (name ++ '(' :: inner) = (quoteInArguments? 0 none inner).map (.ofQuote .directive) := by
  rw [Context.ofMarker?, h.afterMarkerName_append (by simp)]
  rfl

theorem markerContext_iff {after : List Char} {c : Context} :
    MarkerContext after c ↔ Context.ofMarker? after = some c := by
  constructor
  · intro h
    cases h with
    | name hn =>
      rw [Context.ofMarker?, ← List.append_nil after, hn.afterMarkerName_append (by simp)]
    | list hn ho hq =>
      rw [hn.ofMarker?_list, quoteInArguments?_eq_some_iff.2 ⟨ho, hq⟩]
      rfl
    | literal hn ho hq =>
      rw [hn.ofMarker?_list, quoteInArguments?_eq_some_iff.2 ⟨ho, rfl⟩]
      exact congrArg some (if_pos hq)
  · intro h
    obtain ⟨name, hname, hsplit⟩ := afterMarkerName_split after
    rw [Context.ofMarker?] at h
    rw [hsplit]
    split at h
    · next hnil =>
      cases h
      rw [hnil, List.append_nil]
      exact .name hname
    · next inner hlist =>
      obtain ⟨quote, hquote, hc⟩ := Option.map_eq_some_iff.1 h
      obtain ⟨ho, hq⟩ := quoteInArguments?_eq_some_iff.1 hquote
      rw [hlist, ← hc]
      cases quote with
      | none => exact .list hname ho hq
      | some q => exact .literal hname ho (Option.isSome_iff_exists.2 ⟨q, hq⟩)
    · cases h

/-- Behind a quoted `@` no name goes on, and a list leaves the context to the quotes of the line. -/
theorem MarkerContext.of_quoted {line before after : List Char} {c : Context} (h : MarkerContext after c)
    (hm : IsMarker line before after) (hq : LastMarkQuoted line) :
    c = Context.ofQuote .directive (openQuote line) := by
  cases h with
  | name hn => exact absurd (hm.mem_after hq) hn.not_mark
  | list hn _ ho => rw [hm.openQuote_eq hn, ho, Context.ofQuote, if_neg (by simp)]
  | literal hn _ ho => rw [hm.openQuote_eq hn, Context.ofQuote, if_pos ho]

/-! ## The context of a line -/

theorem Context.ofQuote_plainText_ne (quote : Option Quote) : ofQuote .plainText quote ≠ .directive := by
  cases quote <;> simp [ofQuote]

section

variable {line : List Char}

theorem lineContext_quotes (h : ∀ before after c, IsMarker line before after → ¬MarkerContext after c) {c : Context} :
    LineContext line c ↔ c = Context.ofQuote .plainText (openQuote line) := by
  unfold Context.ofQuote
  constructor
  · intro hc
    cases hc with
    | marker hm hc => exact absurd hc (h _ _ _ hm)
    | literal _ hq => rw [if_pos hq]
    | plain _ hq => rw [hq, if_neg (by simp)]
  · rintro rfl
    by_cases hq : (openQuote line).isSome = true
    · rw [if_pos hq]
      exact .literal h hq
    · rw [if_neg hq]
      exact .plain h (by simpa using hq)

theorem IsMarker.lineContext_iff {before after : List Char} (h : IsMarker line before after) {c : Context} :
    LineContext line c ↔ c = (Context.ofMarker? after).getD (.ofQuote .plainText (openQuote line)) := by
  cases hm : Context.ofMarker? after with
  | none =>
    refine lineContext_quotes fun b a d hb hd => ?_
    rw [markerContext_iff, ← (h.unique hb).2, hm] at hd
    cases hd
  | some d =>
    have hd := markerContext_iff.2 hm
    rw [Option.getD_some]
    constructor
    · intro hc
      cases hc with
      | marker hb hc =>
        rw [markerContext_iff, ← (h.unique hb).2, hm] at hc
        exact (Option.some.inj hc).symm
      | literal hno _ => exact absurd hd (hno _ _ _ h)
      | plain hno _ => exact absurd hd (hno _ _ _ h)
    · rintro rfl
      exact .marker h hd

theorem existsUnique_lineContext (line : List Char) : ∃! c, LineContext line c := by
  by_cases h : ∃ before after, IsMarker line before after
  · obtain ⟨before, after, hm⟩ := h
    exact ⟨_, hm.lineContext_iff.2 rfl, fun c hc => hm.lineContext_iff.1 hc⟩
  · have hno : ∀ before after c, IsMarker line before after → ¬MarkerContext after c :=
      fun before after _ hm => absurd ⟨before, after, hm⟩ h
    exact ⟨_, (lineContext_quotes hno).2 rfl, fun c hc => (lineContext_quotes hno).1 hc⟩

theorem ofLine_of_quoted (h : LastMarkQuoted line) :
    Context.ofLine line = .ofQuote .plainText (openQuote line) := by
  obtain ⟨before, after, rfl, ha, hq⟩ := h
  rw [Context.ofLine, splitLast?_append before ha]
  simp [Option.isSome_iff_ne_none.1 hq]

/-- A line whose last `@` is not quoted is read as its marker says. -/
theorem lineContext_of_unquoted (h : ¬LastMarkQuoted line) : LineContext line (Context.ofLine line) := by
  cases hs : splitLast? '@' line with
  | none =>
    have hmark := not_mem_of_splitLast? hs
    refine (lineContext_quotes fun before after _ hm => ?_).2 ?_
    · rw [hm.split] at hmark
      simp at hmark
    · rw [Context.ofLine, hs]
      rfl
  | some found =>
    obtain ⟨before, after⟩ := found
    obtain ⟨hsplit, ha⟩ := splitLast?_eq_some hs
    have hq : openQuote before = none := by
      cases hb : openQuote before with
      | none => rfl
      | some q => exact absurd ⟨before, after, hsplit, ha, by rw [hb]; rfl⟩ h
    refine (IsMarker.of_last hsplit ha hq).lineContext_iff.2 ?_
    rw [Context.ofLine, hs]
    simp [hq]

theorem LastMarkQuoted.lineContext (h : LastMarkQuoted line) :
    LineContext line (Context.ofLine line) ∧ Context.ofLine line ≠ .directive ∨
      LineContext line .directive ∧ Context.ofLine line = .plainText := by
  have hread := ofLine_of_quoted h
  rw [hread]
  by_cases hm : ∃ before after c, IsMarker line before after ∧ MarkerContext after c
  · obtain ⟨before, after, c, hm, hc⟩ := hm
    have hline := LineContext.marker hm hc
    rw [hc.of_quoted hm h] at hline
    cases hq : openQuote line with
    | some q =>
      rw [hq] at hline
      exact .inl ⟨hline, Context.ofQuote_plainText_ne _⟩
    | none =>
      rw [hq] at hline
      exact .inr ⟨hline, rfl⟩
  · refine .inl ⟨(lineContext_quotes fun before after c hb hc => hm ⟨before, after, c, hb, hc⟩).2 rfl, ?_⟩
    exact Context.ofQuote_plainText_ne _

end

/-- One context belongs to the end of a line, by its last unquoted `@`. The line is read so unless its last `@` is
quoted in a list that is still open outside quotes; then it counts as plain text. -/
theorem ofLine_marked (line : List Char) :
    (∃! c, LineContext line c) ∧
      (LineContext line (Context.ofLine line) ↔ ¬(LastMarkQuoted line ∧ LineContext line .directive)) ∧
      (LineContext line (Context.ofLine line) ∨ Context.ofLine line = .plainText) := by
  have hunique := existsUnique_lineContext line
  by_cases hq : LastMarkQuoted line
  · rcases hq.lineContext with ⟨hread, hne⟩ | ⟨hd, hplain⟩
    · have hnot : ¬LineContext line .directive := fun hd => hne (hunique.unique hread hd)
      exact ⟨hunique, iff_of_true hread fun h => hnot h.2, .inl hread⟩
    · have hnot : ¬LineContext line (Context.ofLine line) := by
        intro hread
        rw [hplain] at hread
        cases hunique.unique hread hd
      exact ⟨hunique, iff_of_false hnot (not_not_intro ⟨hq, hd⟩), .inr hplain⟩
  · have hread := lineContext_of_unquoted hq
    exact ⟨hunique, iff_of_true hread fun h => hq h.1, .inl hread⟩

theorem ofLine_quoted_mark :
    let line := "@if(\"a@b\", ".toList
    LineContext line .directive ∧ Context.ofLine line = .plainText ∧ ¬LineContext line (Context.ofLine line) := by
  intro line
  have hlast : ∀ k < line.length, (line.drop k).head? = some '@' → openQuote (line.take k) = none → k ≤ 0 := by
    decide +kernel
  have hmarker : IsMarker line [] "if(\"a@b\", ".toList := by
    refine ⟨by decide +kernel, rfl, fun b a hsplit hb => hlast b.length ?_ ?_ ?_⟩
    · rw [hsplit]
      simp
    · rw [hsplit]
      simp
    · rw [hsplit]
      simpa using hb
  have hdirective : LineContext line .directive := .marker hmarker (markerContext_iff.2 (by decide +kernel))
  have hread : Context.ofLine line = .plainText := by decide +kernel
  refine ⟨hdirective, hread, fun h => ?_⟩
  rw [hread] at h
  cases (existsUnique_lineContext line).unique h hdirective

end EdgeTemplate
