import Mathlib.Data.List.Basic
import EdgeTemplate.Proofs.ForestSound

/-!
# Parsing in parts

Where a tag line follows a text without errors that ends its last line, the two can be parsed apart:
no scanner that works on the first part looks into the second (`Item.Read.extend`), so the items are
those of the one followed by those of the other (`items_graft`). The second tree is moved behind the
first as it is (`parse_append`).
-/

namespace EdgeTemplate

/-! ## Text that is added behind -/

theorem isPrefixOf_extend {mark z : List Char} (h : mark.isPrefixOf z = true) (w : List Char) :
    mark.isPrefixOf (z ++ w) = true := by
  rw [List.isPrefixOf_iff_prefix] at h ⊢
  exact h.trans (List.prefix_append z w)

/-- A mark is not completed by later text if all of it fits before, or a character bars the way. -/
theorem isPrefixOf_stable {mark z : List Char} (h : mark.length ≤ z.length ∨ ∃ c ∈ z, c ∉ mark) (w : List Char) :
    mark.isPrefixOf (z ++ w) = mark.isPrefixOf z := by
  rw [Bool.eq_iff_iff]
  refine ⟨fun hp => ?_, fun hp => isPrefixOf_extend hp w⟩
  rw [List.isPrefixOf_iff_prefix] at hp ⊢
  by_cases hl : mark.length ≤ z.length
  · exact List.prefix_of_prefix_length_le hp (List.prefix_append z w) hl
  · obtain ⟨c, hc, hm⟩ := h.resolve_left hl
    have hz := List.prefix_of_prefix_length_le (List.prefix_append z w) hp (by omega)
    exact absurd (hz.subset hc) hm

theorem startsTag_extend {cs : List Char} (h : startsTag cs = true) (w : List Char) : startsTag (cs ++ w) = true := by
  obtain ⟨r, rfl⟩ := startsTag_head h
  cases r with
  | nil => exact absurd h (by decide)
  | cons c r =>
    by_cases hc : c = '!'
    · subst hc
      cases r with
      | nil => exact absurd h (by decide)
      | cons d r => exact h
    · rw [startsTag_plain hc] at h
      exact (startsTag_plain hc (r ++ w)).trans h

theorem startsTagLine_extend {cs : List Char} (h : startsTagLine cs = true) (w : List Char) :
    startsTagLine (cs ++ w) = true := by
  unfold startsTagLine at h ⊢
  rw [List.dropWhile_append]
  split
  · next he =>
    rw [List.isEmpty_iff.1 he] at h
    exact absurd h (by decide)
  · exact startsTag_extend h w

theorem startsTagBreak_extend {cs : List Char} (h : startsTagBreak cs = true) (w : List Char) :
    startsTagBreak (cs ++ w) = true := by
  obtain ⟨r, rfl, hr⟩ := startsTagBreak_head h
  exact startsTagLine_extend hr w

/-- Characters that are not part of the beginning of a tag line. -/
def isDecisive (c : Char) : Bool := !(isIndent c || c == '@' || c == '!')

theorem startsTag_stable {cs : List Char} {c : Char} (hc : c ∈ cs) (hd : isDecisive c = true) (w : List Char) :
    startsTag (cs ++ w) = startsTag cs := by
  rw [Bool.eq_iff_iff]
  refine ⟨fun h => ?_, fun h => startsTag_extend h w⟩
  have hat : c ≠ '@' ∧ c ≠ '!' := by
    constructor <;> (rintro rfl; exact absurd hd (by decide))
  obtain ⟨r, hr⟩ := startsTag_head h
  cases cs with
  | nil => cases hc
  | cons a cs =>
    obtain ⟨rfl, rfl⟩ := List.cons.inj hr
    cases cs with
    | nil => exact absurd (List.mem_singleton.1 hc) hat.1
    | cons b cs =>
      by_cases hb : b = '!'
      · subst hb
        cases cs with
        | nil => simp [hat] at hc
        | cons d cs => exact h
      · rw [List.cons_append, List.cons_append, startsTag_plain hb] at h
        exact (startsTag_plain hb cs).trans h

theorem startsTagLine_stable {cs : List Char} {c : Char} (hc : c ∈ cs) (hd : isDecisive c = true) (w : List Char) :
    startsTagLine (cs ++ w) = startsTagLine cs := by
  have hi : isIndent c = false := by
    simp only [isDecisive, Bool.not_eq_true', Bool.or_eq_false_iff] at hd
    exact hd.1.1
  have hm : c ∈ cs.dropWhile isIndent := by
    rw [← @List.takeWhile_append_dropWhile _ isIndent cs, List.mem_append] at hc
    refine hc.resolve_left fun hc => ?_
    have := List.all_eq_true.1 (@List.all_takeWhile _ isIndent cs) c hc
    rw [hi] at this
    cases this
  unfold startsTagLine
  rw [List.dropWhile_append]
  split
  · next he =>
    rw [List.isEmpty_iff.1 he] at hm
    cases hm
  · exact startsTag_stable hm hd w

theorem startsTagBreak_stable {cs : List Char} {c : Char} (hc : c ∈ cs.tail) (hd : isDecisive c = true)
    (w : List Char) : startsTagBreak (cs ++ w) = startsTagBreak cs := by
  cases cs with
  | nil => cases hc
  | cons a cs =>
    by_cases ha : a = '\n'
    · subst ha
      exact startsTagLine_stable hc hd w
    · simp [startsTagBreak, ha]

/-! ## Arguments -/

/-- A literal is read up to its closing quote, whatever follows. -/
theorem closeLiteral_before {q : Quote} {cs lexeme rest : List Char} (h : closeLiteral q cs = some (lexeme, rest))
    (w : List Char) : closeLiteral q (lexeme ++ w) = some (lexeme, w) := by
  fun_induction closeLiteral q cs generalizing lexeme rest with
  | case1 => cases h
  | case2 =>
    simp only [Option.some.injEq, Prod.mk.injEq] at h
    obtain ⟨rfl, rfl⟩ := h
    rw [List.singleton_append, closeLiteral.eq_def]
    simp
  | case3 => cases h
  | case4 => cases h
  | case5 d ds hd hq ih =>
    obtain ⟨found, hf, he⟩ := Option.map_eq_some_iff.1 h
    cases he
    simp [closeLiteral, hd, hq, ih hf]
  | case6 => cases h
  | case7 c cs hc hb hn ih =>
    obtain ⟨found, hf, he⟩ := Option.map_eq_some_iff.1 h
    cases he
    rw [List.cons_append, closeLiteral.eq_def]
    simp only [hc, hb, hn, ite_false, ih hf]
    rfl

theorem closeLiteral_extend {q : Quote} {cs lexeme rest : List Char} (h : closeLiteral q cs = some (lexeme, rest))
    (w : List Char) : closeLiteral q (cs ++ w) = some (lexeme, rest ++ w) := by
  rw [← closeLiteral_append h, List.append_assoc]
  exact closeLiteral_before h (rest ++ w)

namespace ArgumentToken

theorem isDecisive_of_endsText {c : Char} {cs : List Char} (h : endsText (c :: cs) = true) : isDecisive c = true := by
  simp only [endsText, Bool.or_eq_true, List.head?_cons, Option.any_some, beq_iff_eq] at h
  rcases h with h | (rfl | rfl) | h
  · obtain ⟨r, hr, -⟩ := startsTagBreak_head h
    rw [(List.cons.inj hr).1]
    decide
  · decide
  · decide
  · obtain ⟨q, hq⟩ := Option.isSome_iff_exists.1 h
    rw [ofChar?_eq_some.1 hq]
    cases q <;> decide

theorem endsText_extend {cs : List Char} (h : endsText cs = true) (w : List Char) : endsText (cs ++ w) = true := by
  cases cs with
  | nil => cases h
  | cons c cs =>
    simp only [endsText, Bool.or_eq_true] at h ⊢
    exact h.imp (fun h => startsTagBreak_extend h w) id

theorem endsText_stable {y b : List Char} (hy : y ≠ []) {c : Char} (hc : c ∈ b) (hd : isDecisive c = true)
    (w : List Char) : endsText (y ++ (b ++ w)) = endsText (y ++ b) := by
  cases y with
  | nil => exact absurd rfl hy
  | cons a y =>
    have := @startsTagBreak_stable (a :: y ++ b) c (List.mem_append_right y hc) hd w
    rw [List.append_assoc] at this
    rw [endsText, endsText, this]
    rfl

/-- A token that ends before the end of the text is not changed by text behind. -/
theorem Read.extend {cs rest : List Char} {token : ArgumentToken} (h : Read cs token rest)
    (hu : ∀ l, token ≠ .unterminated l) (hr : rest ≠ [] ∨ ∀ l, token ≠ .text l) (w : List Char) :
    Read (cs ++ w) token (rest ++ w) := by
  cases h with
  | opening => exact .opening _
  | closing => exact .closing _
  | literal hl => exact .literal (closeLiteral_extend hl w)
  | unterminated => exact absurd rfl (hu _)
  | @text a _ hne hun hend =>
    have hb : rest ≠ [] := hr.resolve_right fun h => absurd rfl (h a)
    have hstop := hend.resolve_left hb
    cases rest with
    | nil => exact absurd rfl hb
    | cons c b =>
      have hd := isDecisive_of_endsText hstop
      rw [List.append_assoc]
      refine .text hne ?_ (.inr (endsText_extend hstop w))
      refine unstopped_congr (fun y hy _ hstop => ?_) hun
      rw [endsText_stable hy List.mem_cons_self hd]
      exact hstop

theorem scan_of_read {cs rest : List Char} {token : ArgumentToken} (h : Read cs token rest) (depth : Nat) :
    scan depth cs = if token = .closing ∧ depth = 0 then ([token], rest)
      else (token :: (scan (token.depthAfter depth) rest).1, (scan (token.depthAfter depth) rest).2) := by
  have hn := next?_of_read h
  rw [scan]
  split
  · next h0 => rw [h0] at hn; cases hn
  · next token' rest' h' =>
    rw [h'] at hn
    cases hn
    rfl

theorem scan_nil (depth : Nat) : scan depth [] = ([], []) := by
  rw [scan]
  rfl

/-- The list that the scan is in has been closed, with every list opened inside it. -/
def Closes (depth : Nat) (tokens : List ArgumentToken) : Prop := depth < (Forest.nest tokens).2.length

theorem closes_cons {depth : Nat} {token : ArgumentToken} {tokens : List ArgumentToken}
    (hc : ¬(token = .closing ∧ depth = 0)) :
    Closes depth (token :: tokens) ↔ Closes (token.depthAfter depth) tokens := by
  unfold Closes
  rw [Forest.nest_cons_snd]
  cases token with
  | opening =>
    simp only [List.length_tail, depthAfter]
    omega
  | closing =>
    have hd : depth ≠ 0 := fun h0 => hc ⟨rfl, h0⟩
    simp only [List.length_cons, depthAfter]
    omega
  | text lexeme => rfl
  | literal lexeme => rfl
  | unterminated lexeme => rfl

theorem not_closes_nil (depth : Nat) : ¬Closes depth [] := by
  simp [Closes, Forest.nest]

theorem scan_extend (depth : Nat) {cs : List Char} (hclosed : Closes depth (scan depth cs).1)
    (hu : ∀ l, .unterminated l ∉ (scan depth cs).1) (w : List Char) :
    scan depth (cs ++ w) = ((scan depth cs).1, (scan depth cs).2 ++ w) := by
  fun_induction scan depth cs with
  | case1 => exact absurd hclosed (not_closes_nil _)
  | case2 depth cs token rest hn _ hc =>
    have hread := (read_of_next? hn).extend (by simp [hc.1]) (.inr (by simp [hc.1])) w
    rw [scan_of_read hread, if_pos hc]
  | case3 depth cs token rest hn _ hc tail ih =>
    have htail := (closes_cons hc).1 hclosed
    -- a text token at the end could go on, but then its list would not be closed
    have hrest : rest ≠ [] := by
      rintro rfl
      rw [show tail = ([], []) from scan_nil _] at htail
      exact not_closes_nil _ htail
    have hread := (read_of_next? hn).extend (fun l h => hu l (by simp [h])) (.inl hrest) w
    rw [scan_of_read hread, if_neg hc, ih htail fun l h => hu l (List.mem_cons_of_mem _ h)]

theorem scan_last (depth : Nat) {cs : List Char} (hclosed : Closes depth (scan depth cs).1) :
    ∃ init, (scan depth cs).1 = init ++ [.closing] := by
  fun_induction scan depth cs with
  | case1 => exact absurd hclosed (not_closes_nil _)
  | case2 depth cs token rest hn _ hc => exact ⟨[], by rw [hc.1]; rfl⟩
  | case3 depth cs token rest hn _ hc tail ih =>
    obtain ⟨init, hi⟩ := ih ((closes_cons hc).1 hclosed)
    exact ⟨token :: init, by rw [hi]; rfl⟩

end ArgumentToken

theorem Forest.Nested.hasError_of_unterminated {tokens : List ArgumentToken} {inside : Forest} {outer : List Forest}
    (h : Nested tokens inside outer) {l : List Char} (hl : .unterminated l ∈ tokens) :
    (inside.hasError || outer.any hasError) = true := by
  induction h with
  | nil => cases hl
  | plain _ _ _ ih =>
    rcases List.mem_cons.1 hl with rfl | hl
    · simp [hasError, ArgumentToken.label]
    · rw [hasError, Bool.or_assoc, ih hl, Bool.or_true]
  | closing _ ih =>
    have := ih (by simpa using hl)
    simpa [leaf, hasError] using this
  | unclosed => simp [group, hasError]
  | closed _ ih =>
    have := ih (by simpa using hl)
    simpa [group, leaf, hasError, or_assoc] using this

/-- A list of arguments without errors is closed and all its literals are. -/
theorem closes_of_hasError {cs : List Char}
    (h : (Forest.ofArguments (ArgumentToken.scan 0 cs).1).hasError = false) :
    ArgumentToken.Closes 0 (ArgumentToken.scan 0 cs).1 ∧ ∀ l, .unterminated l ∉ (ArgumentToken.scan 0 cs).1 := by
  simp only [Forest.ofArguments, Forest.group, Forest.leaf, Forest.hasError, Bool.or_eq_false_iff] at h
  obtain ⟨⟨hopen, -, hinside⟩, -⟩ := h
  have houter : (Forest.nest (ArgumentToken.scan 0 cs).1).2 = [.nil] := by
    rcases Forest.nest_scan_zero cs with hn | ⟨hn, -⟩
    · exact hn
    · rw [hn] at hopen
      cases hopen
  refine ⟨?_, fun l hl => ?_⟩
  · rw [ArgumentToken.Closes, houter]
    exact Nat.zero_lt_one
  · have := (Forest.nested _).hasError_of_unterminated hl
    rw [houter, hinside] at this
    cases this

/-! ## Items -/

theorem Enclosed.Ends.extend {closing : List Char} {giveUp : List Char → Bool} {e : Enclosed}
    (h : e.Ends closing giveUp) (hc : e.closed = true) (w : List Char)
    (hg : ∀ y, y ≠ [] → giveUp (y ++ (closing ++ e.rest)) = false → giveUp (y ++ (closing ++ e.rest) ++ w) = false) :
    Enclosed.Ends closing giveUp ⟨e.body, true, e.rest ++ w⟩ := by
  have hun := h.1
  rw [hc, if_pos rfl] at hun
  refine ⟨?_, fun h => absurd h (by simp)⟩
  rw [if_pos rfl]
  refine unstopped_congr (fun y hy _ hstop => ?_) hun
  rw [Bool.or_eq_false_iff] at hstop ⊢
  rw [← List.append_assoc, ← List.append_assoc, List.append_assoc y]
  refine ⟨?_, hg y hy hstop.2⟩
  rw [isPrefixOf_stable (.inl (by simp only [List.length_append]; omega))]
  exact hstop.1

namespace Item

theorem endsText_stable {y b : List Char} (hy : y ≠ []) {c : Char} (hc : c ∈ b) (hd : isDecisive c = true)
    (hb : c = '\n' ∨ 2 ≤ b.length) (w : List Char) : endsText (y ++ (b ++ w)) = endsText (y ++ b) := by
  have htail : c ∈ (y ++ b).tail := by
    cases y with
    | nil => exact absurd rfl hy
    | cons c y => exact List.mem_append_right y hc
  have hmark : ∀ mark : List Char, mark.length ≤ 3 → '\n' ∉ mark →
      mark.isPrefixOf (y ++ b ++ w) = mark.isPrefixOf (y ++ b) := by
    intro mark hlen hline
    refine isPrefixOf_stable ?_ w
    rcases hb with rfl | hb
    · exact .inr ⟨_, List.mem_append_right y hc, hline⟩
    · have := List.length_pos_iff.2 hy
      exact .inl (by rw [List.length_append]; omega)
  rw [← List.append_assoc, endsText, endsText, hmark _ (by decide) (by decide), hmark _ (by decide) (by decide),
    startsTagBreak_stable htail hd]

/-- Plain text goes on as far as before if a line end or a mustache behind it is still there. -/
theorem unstopped_extend {a b : List Char} (h : Unstopped endsText a b)
    (hb : '\n' ∈ b ∨ Mustache.plain.opening.isPrefixOf b = true ∨ escapedOpening.isPrefixOf b = true)
    (w : List Char) : Unstopped endsText a (b ++ w) := by
  obtain ⟨c, hc, hd, hlen⟩ : ∃ c ∈ b, isDecisive c = true ∧ (c = '\n' ∨ 2 ≤ b.length) := by
    rcases hb with hb | hb | hb
    · exact ⟨'\n', hb, by decide, .inl rfl⟩
    · obtain ⟨r, rfl⟩ := List.isPrefixOf_iff_prefix.1 hb
      exact ⟨'{', by simp [Mustache.opening], by decide, .inr (by simp [Mustache.opening])⟩
    · obtain ⟨r, rfl⟩ := List.isPrefixOf_iff_prefix.1 hb
      exact ⟨'{', by simp [escapedOpening], by decide, .inr (by simp [escapedOpening])⟩
  refine unstopped_congr (fun y hy _ hstop => ?_) h
  rw [endsText_stable hy hc hd hlen]
  exact hstop

theorem closed_of_interpolation {style : Mustache} {body : List Char} {closed : Bool}
    (h : (Forest.ofItem .nil (.interpolation style body closed)).hasError = false) : closed = true := by
  simp only [Forest.ofItem, Forest.hasError, Bool.or_eq_false_iff] at h
  simpa using h.1.1

theorem closes_of_directive {indent tag cs : List Char}
    (h : (Forest.ofItem .nil (.directive indent tag (some (ArgumentToken.scan 0 cs).1))).hasError = false) :
    ArgumentToken.Closes 0 (ArgumentToken.scan 0 cs).1 ∧ ∀ l, .unterminated l ∉ (ArgumentToken.scan 0 cs).1 := by
  refine closes_of_hasError ?_
  simpa [Forest.ofItem, Forest.leaf, Forest.hasError] using h

/-- Without an error, only text ends with a line end. -/
theorem Read.last_ne {lineStart : Bool} {cs rest : List Char} {item : Item} (h : Read lineStart cs item rest)
    (herr : (Forest.ofItem .nil item).hasError = false) (ht : ∀ l, item ≠ .text l) :
    item.lexeme.getLast? ≠ some '\n' := by
  cases h with
  | comment e he =>
    have hc : e.closed = true := by simpa [Forest.ofItem, Forest.hasError] using herr
    simp [lexeme, Enclosed.lexeme, hc, List.getLast?_append, commentClosing]
  | escaped e he hr =>
    have hc : e.closed = true := by simpa [Forest.ofItem, Forest.hasError] using herr
    simp [lexeme, Enclosed.lexeme, hc, List.getLast?_append, Mustache.closing]
  | escapedSafe body rest he => simp [lexeme, List.getLast?_append, Mustache.closing]
  | interpolation style e he hp =>
    have hc : e.closed = true := closed_of_interpolation herr
    cases style <;> simp [lexeme, hc, List.getLast?_append, Mustache.closing]
  | directive hl hsplit hr =>
    obtain ⟨t, c, rfl, hc⟩ := hsplit.tag.last
    simpa [lexeme, List.getLast?_append] using (not_indent_of_nameChar hc).2
  | @arguments indent tag inner hl hsplit =>
    obtain ⟨init, hi⟩ := ArgumentToken.scan_last 0 (closes_of_directive herr).1
    have hlex : lexeme (.directive indent tag (some (ArgumentToken.scan 0 inner).1)) =
        indent ++ tag ++ '(' :: init.flatMap ArgumentToken.lexeme ++ [')'] := by
      simp [lexeme, hi, ArgumentToken.lexeme]
    rw [hlex, List.getLast?_concat]
    simp
  | text => exact absurd rfl (ht _)
  | line => exact absurd rfl (ht _)

theorem Read.rest_ne_nil {lineStart : Bool} {cs rest : List Char} {item : Item} (h : Read lineStart cs item rest)
    (hlast : cs.getLast? = some '\n') (herr : (Forest.ofItem .nil item).hasError = false)
    (ht : ∀ l, item ≠ .text l) : rest ≠ [] := by
  rintro rfl
  have happ := h.append
  rw [List.append_nil] at happ
  rw [← happ] at hlast
  exact h.last_ne herr ht hlast

theorem head_extend {rest : List Char} (h : rest ≠ []) (w : List Char) : (rest ++ w).head? = rest.head? := by
  cases rest with
  | nil => exact absurd rfl h
  | cons c rest => rfl

/-- An item without errors that ends before the end of the text is not changed by text behind. -/
theorem Read.extend {lineStart : Bool} {cs rest : List Char} {item : Item} (h : Read lineStart cs item rest)
    (herr : (Forest.ofItem .nil item).hasError = false) (hrest : rest ≠ []) (w : List Char) :
    Read lineStart (cs ++ w) item (rest ++ w) := by
  have hhead := head_extend hrest w
  cases h with
  | comment e he =>
    have hc : e.closed = true := by simpa [Forest.ofItem, Forest.hasError] using herr
    have := @Read.comment lineStart _ (he.extend hc w fun _ _ hg => hg)
    simpa [Enclosed.lexeme, hc] using this
  | escaped e he hr =>
    have hc : e.closed = true := by simpa [Forest.ofItem, Forest.hasError] using herr
    have := @Read.escaped lineStart _ (he.extend hc w fun _ _ hg => hg) fun _ => by
      rw [hhead]
      exact hr hc
    simpa [Enclosed.lexeme, hc] using this
  | escapedSafe body rest he =>
    have := @Read.escapedSafe lineStart body (rest ++ w) (he.extend rfl w fun _ _ hg => hg)
    simpa using this
  | interpolation style e he hp =>
    have hc : e.closed = true := closed_of_interpolation herr
    have hbrace : '}' ∈ style.closing := by cases style <;> decide
    have hends := he.extend hc w fun y hy hg => by
      cases y with
      | nil => exact absurd rfl hy
      | cons c y =>
        rw [startsTagBreak_stable (List.mem_append_right y (List.mem_append_left _ hbrace)) (by decide)]
        exact hg
    have := @Read.interpolation lineStart style _ hends ?_
    · simpa [Enclosed.lexeme, hc] using this
    · intro hs
      obtain ⟨hcomment, hsafe⟩ := hp hs
      have happ : style.opening ++ (Enclosed.lexeme style.closing ⟨e.body, true, e.rest ++ w⟩ ++ (e.rest ++ w)) =
          style.opening ++ (e.lexeme style.closing ++ e.rest) ++ w := by
        simp [Enclosed.lexeme, hc]
      subst hs
      have hlen : commentOpening.length ≤
          (Mustache.plain.opening ++ (e.lexeme Mustache.plain.closing ++ e.rest)).length := by
        simp only [commentOpening, Mustache.opening, Mustache.closing, Enclosed.lexeme, hc, if_true,
          List.length_append, List.length_cons, List.length_nil]
        omega
      have hlen' : Mustache.safe.opening.length ≤ _ := Nat.le_of_succ_le hlen
      rw [happ, isPrefixOf_stable (.inl hlen), isPrefixOf_stable (.inl hlen')]
      exact ⟨hcomment, hsafe⟩
  | @directive indent tag _ hl hsplit hr =>
    rw [List.append_assoc, List.append_assoc]
    refine .directive hl ⟨hsplit.indent, hsplit.tag, ?_⟩ ?_
    · rw [hhead]
      exact hsplit.rest
    · rw [hhead]
      exact hr
  | @arguments indent tag inner hl hsplit =>
    obtain ⟨hclosed, hu⟩ := closes_of_directive herr
    have hscan := ArgumentToken.scan_extend 0 hclosed hu w
    have hsplit' : TagSplit indent tag ('(' :: (inner ++ w)) := ⟨hsplit.indent, hsplit.tag, hsplit.rest⟩
    have := @Read.arguments lineStart _ _ _ hl hsplit'
    rw [hscan] at this
    simpa using this
  | @text a _ hne hun hend ht =>
    have hstop := hend.resolve_left hrest
    have hbrace : '{' ∈ a ++ rest := by
      rcases hstop with hb | hb
      · obtain ⟨r, rfl⟩ := List.isPrefixOf_iff_prefix.1 hb
        simp [Mustache.opening]
      · obtain ⟨r, rfl⟩ := List.isPrefixOf_iff_prefix.1 hb
        simp [escapedOpening]
    have htag := startsTagLine_stable hbrace (by decide) w
    rw [List.append_assoc] at htag ⊢
    refine .text hne (unstopped_extend hun (.inr hstop) w) (.inr ?_) (by rw [htag]; exact ht)
    exact hstop.imp (fun h => isPrefixOf_extend h w) fun h => isPrefixOf_extend h w
  | @line a _ hun hb ht =>
    have htag := @startsTagLine_stable (a ++ '\n' :: rest) '\n' (by simp) (by decide) w
    rw [List.append_assoc] at htag ⊢
    exact .line (unstopped_extend hun (.inl (by simp)) w) (startsTagLine_extend hb w) (by rw [← ht, ← htag]; rfl)

/-- What an item without errors was read from may be followed by a tag line: the item stays the same. -/
theorem Read.extend_line {lineStart : Bool} {cs rest w : List Char} {item : Item} (h : Read lineStart cs item rest)
    (hlast : cs.getLast? = some '\n') (herr : (Forest.ofItem .nil item).hasError = false)
    (hw : startsTagLine w = true) : Read lineStart (cs ++ w) item (rest ++ w) := by
  by_cases hrest : rest = []
  · have htext := h.rest_ne_nil hlast herr
    cases h with
    | @text a _ hne hun hend ht =>
      subst hrest
      -- the run stopped at the end of the text and now takes the line end before the tag line
      rw [List.append_nil] at hlast ht ⊢
      obtain ⟨a', rfl⟩ := List.getLast?_eq_some_iff.1 hlast
      have htag := @startsTagLine_stable (a' ++ ['\n']) '\n' (by simp) (by decide) w
      have hun' := ((unstopped_append endsText a' ['\n'] []).1 hun).1
      have := @Read.line lineStart a' w (unstopped_extend hun' (.inl (by simp)) w) hw (by simpa [← htag] using ht)
      simpa using this
    | line hun hb ht =>
      subst hrest
      cases hb
    | _ => exact absurd hrest (htext (by simp))
  · exact h.extend herr hrest w

end Item

theorem items_of_read {lineStart : Bool} {cs rest : List Char} {item : Item} (hne : cs ≠ [])
    (h : Item.Read lineStart cs item rest) : items lineStart cs = item :: items item.endsLine rest := by
  rw [items, dif_neg hne]
  dsimp only
  rw [Item.next_of_read h]

theorem items_uncons {lineStart : Bool} {cs : List Char} {item : Item} {xs : List Item}
    (h : items lineStart cs = item :: xs) :
    ∃ rest, Item.Read lineStart cs item rest ∧ items item.endsLine rest = xs := by
  rw [items] at h
  by_cases hne : cs = []
  · rw [dif_pos hne] at h
    cases h
  · rw [dif_neg hne] at h
    obtain ⟨rfl, rfl⟩ := List.cons.inj h
    exact ⟨_, Item.next_read lineStart hne, rfl⟩

theorem Item.Read.endsLine_of_rest {lineStart : Bool} {cs rest : List Char} {item : Item}
    (h : Item.Read lineStart cs item rest) (hlast : cs.getLast? = some '\n')
    (herr : (Forest.ofItem .nil item).hasError = false) (hr : rest = []) : item.endsLine = true := by
  by_cases ht : ∃ l, item = .text l
  · obtain ⟨l, rfl⟩ := ht
    have happ := h.append
    rw [hr, List.append_nil] at happ
    rw [← happ] at hlast
    simpa [endsLine, lexeme] using hlast
  · exact absurd hr (h.rest_ne_nil hlast herr fun l hl => ht ⟨l, hl⟩)

/-- Items without errors up to the end of a line are followed by the items of the tag line. -/
theorem items_graft {lineStart : Bool} {cs w : List Char} (hw : startsTagLine w = true)
    (hstart : cs = [] → lineStart = true) (hlast : cs ≠ [] → cs.getLast? = some '\n')
    (herr : ∀ item ∈ items lineStart cs, (Forest.ofItem .nil item).hasError = false) :
    items lineStart (cs ++ w) = items lineStart cs ++ items true w := by
  fun_induction items lineStart cs with
  | case1 => rw [hstart rfl, List.nil_append, List.nil_append]
  | case2 ls cs hne _ first ih =>
    have hread := Item.next_read ls hne
    have hfirst := herr first.1 List.mem_cons_self
    have hext := hread.extend_line (hlast hne) hfirst hw
    have happ := hread.append
    rw [items_of_read (List.append_ne_nil_of_left_ne_nil hne w) hext, List.cons_append, ih]
    · exact hread.endsLine_of_rest (hlast hne) hfirst
    · intro hr
      have := hlast hne
      rw [← happ, List.getLast?_append_of_ne_nil _ hr] at this
      exact this
    · exact fun item hi => herr item (List.mem_cons_of_mem _ hi)

/-! ## Records -/

/-- The record in a longer document: `offset` characters and `nodes` nodes come before its own, after
the root, which stays the root. -/
def Record.shift (offset nodes : Nat) (r : Record) : Record :=
  { r with
    start := r.start + offset
    stop := r.stop + offset
    parent := r.parent.map fun i => if i = 0 then 0 else i + nodes
    children := r.children.map (· + (nodes : Int))
    subtreeEnd := r.subtreeEnd + nodes }

namespace Forest

theorem roots_shift (f : Forest) (index nodes : Nat) : f.roots (index + nodes) = (f.roots index).map (· + nodes) := by
  induction f generalizing index with
  | nil => rfl
  | node label children siblings _ ih =>
    have := ih (index + 1 + children.size)
    rw [roots, roots, List.map_cons, ← this]
    congr 2
    omega

theorem records_shift (f : Forest) (parent : Option Nat) (offset index o n : Nat) (hi : index ≠ 0) :
    f.records (parent.map fun i => if i = 0 then 0 else i + n) (offset + o) (index + n) =
      (f.records parent offset index).map (Record.shift o n) := by
  induction f generalizing parent offset index with
  | nil => rfl
  | node label children siblings ihc ihs =>
    have hc := ihc (some index) (offset + label.indent.length + label.lexeme.length) (index + 1) (by omega)
    have hs := ihs parent (offset + label.indent.length + label.lexeme.length + children.width)
      (index + 1 + children.size) (by omega)
    have hroots := children.roots_shift (index + 1) n
    have hstart : offset + o + label.indent.length = offset + label.indent.length + o := by omega
    have hinner : offset + label.indent.length + o + label.lexeme.length =
        offset + label.indent.length + label.lexeme.length + o := by omega
    have hstop : offset + label.indent.length + label.lexeme.length + o + children.width =
        offset + label.indent.length + label.lexeme.length + children.width + o := by omega
    have hindex : index + n + 1 = index + 1 + n := by omega
    have hnext : index + 1 + n + children.size = index + 1 + children.size + n := by omega
    rw [Option.map_some, if_neg hi] at hc
    simp only [records, List.map_cons, List.map_append, ← hc, ← hs, hstart, hinner, hstop, hindex, hnext, hroots,
      List.cons.injEq, and_true]
    simp [Record.shift]

end Forest

theorem width_items (text : List Char) : (Forest.ofItems (items true text)).width = text.length := by
  rw [← Forest.length_text, Forest.text_ofItems fun _ => items_mem_read, items_append]

theorem Forest.hasError_ofItems {xs : List Item} (h : (ofItems xs).hasError = false) :
    ∀ item ∈ xs, (ofItem nil item).hasError = false := by
  induction xs with
  | nil => exact fun item hi => absurd hi List.not_mem_nil
  | cons item xs ih =>
    rw [ofItems, ofItem_eq_append, hasError_append, Bool.or_eq_false_iff] at h
    exact List.forall_mem_cons.2 ⟨h.1, ih h.2⟩

theorem parse_records (text : List Char) :
    (SyntaxTree.parse text).records.toList =
      { kind := .document
        start := 0
        stop := text.length
        parent := none
        children := ((Forest.ofItems (items true text)).roots 1).map fun (i : Nat) => (i : Int)
        subtreeEnd := ((1 + (Forest.ofItems (items true text)).size : Nat) : Int)
        isError := false
        hasError := (Forest.ofItems (items true text)).hasError } ::
      (Forest.ofItems (items true text)).records (some 0) 0 1 := by
  simp [SyntaxTree.parse_eq, Forest.ofText, Forest.records, width_items]

/-- The root of `tree` spans both texts. Its nodes are those of `a` followed by those of `b`, moved by the
length of the one text and the number of nodes below the one root. -/
def SyntaxTree.IsGraft (tree a b : SyntaxTree) : Prop :=
  ∃ rootA rootB nodesA nodesB, a.records.toList = rootA :: nodesA ∧ b.records.toList = rootB :: nodesB ∧
    tree.text = a.text ++ b.text ∧
    tree.records.toList =
      { kind := .document
        start := 0
        stop := a.text.length + b.text.length
        parent := none
        children := rootA.children ++ rootB.children.map (· + (nodesA.length : Int))
        subtreeEnd := 1 + nodesA.length + nodesB.length
        isError := false
        hasError := rootA.hasError || rootB.hasError } ::
      (nodesA ++ nodesB.map (Record.shift a.text.length nodesA.length))

/-- A text without errors that ends its last line and one that begins with a tag line are parsed apart. -/
theorem parse_append {a b : List Char} (hline : atLineStart a = true)
    (herr : ∀ r ∈ (SyntaxTree.parse a).records, r.isError = false) (hb : startsTagLine b = true) :
    (SyntaxTree.parse (a ++ b)).IsGraft (SyntaxTree.parse a) (SyntaxTree.parse b) := by
  have hnone : (Forest.ofItems (items true a)).hasError = false := by
    rw [Forest.hasError_eq_any _ (some 0) 0 1, List.any_eq_false]
    intro r hr
    rw [herr r]
    · simp
    · rw [← Array.mem_toList_iff, parse_records]
      exact List.mem_cons_of_mem _ hr
  have hitems : items true (a ++ b) = items true a ++ items true b := by
    refine items_graft hb (fun _ => rfl) (fun hne => ?_) (Forest.hasError_ofItems hnone)
    rw [atLineStart, List.getLast?_eq_some_getLast hne] at hline
    rw [List.getLast?_eq_some_getLast hne, beq_iff_eq.1 hline]
  have hshift := (Forest.ofItems (items true b)).records_shift (some 0) 0 1 a.length (Forest.ofItems (items true a)).size
    (by simp)
  rw [Option.map_some, if_pos rfl, Nat.zero_add] at hshift
  have hrecords := parse_records (a ++ b)
  rw [hitems, Forest.ofItems_append, Forest.records_append, Forest.roots_append, Forest.hasError_append, width_items,
    Forest.roots_shift, Forest.size_append, Nat.zero_add, hshift] at hrecords
  refine ⟨_, _, _, _, parse_records a, parse_records b, rfl, ?_⟩
  rw [Forest.length_records, Forest.length_records, hrecords]
  simp [SyntaxTree.parse_eq, Int.add_assoc]

/-- The nodes from 8 on are those of the second text, 15 characters and 7 nodes further on. -/
example : (SyntaxTree.parse "@each(x in xs)\n@!end\n".toList).records.toList.map
      (fun r => (r.kind.name, r.start, r.stop, r.parent, r.children)) =
    [("document", 0, 21, none, [1, 7, 8, 10]), ("each_directive", 0, 14, some 0, [2, 3]),
      ("directive_name", 0, 5, some 1, []), ("arguments", 5, 14, some 1, [4, 5, 6]), ("(", 5, 6, some 3, []),
      ("argument_text", 6, 13, some 3, []), (")", 13, 14, some 3, []), ("text", 14, 15, some 0, []),
      ("inline_end_directive", 15, 20, some 0, [9]), ("directive_name", 15, 20, some 8, []),
      ("text", 20, 21, some 0, [])] := by
  decide +kernel

theorem parse_append_each :
    let a := "@each(item in items)\n  {{ item }}\n".toList
    let b := "\t@!end('x')\n".toList
    (atLineStart a = true ∧ (∀ r ∈ (SyntaxTree.parse a).records, r.isError = false) ∧ startsTagLine b = true) ∧
      (SyntaxTree.parse (a ++ b)).IsGraft (SyntaxTree.parse a) (SyntaxTree.parse b) :=
  ⟨⟨by decide, by decide +kernel, by decide⟩, parse_append (by decide) (by decide +kernel) (by decide)⟩

end EdgeTemplate
