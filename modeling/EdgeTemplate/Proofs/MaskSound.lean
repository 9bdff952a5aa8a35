import EdgeTemplate.Proofs.EndSound
import EdgeTemplate.Proofs.MustacheSound

/-!
# Comments and escaped mustaches

Whatever mustaches stand in a comment or behind the `@` of an escaped mustache, they interpolate nothing. A closed one
is a leaf of the tree and plain text throughout. An unclosed one is an error, and the text before the cursor is searched
for its last mustache (`OpenMustache`). The search knows the opening marks of both, but it looks no further back than to
the last pair of braces, so a mustache in the body hides the mark of the node that it is in (`classify_masked`).
-/

namespace EdgeTemplate

/-! ## The last mustache -/

/-- The last mustache of the text, with all the braces that it is written with, is open there. It follows no `@` and
opens no comment. -/
inductive OpenMustache : List Char → Prop
  | braces {pre y : List Char} {k : Nat} : pre.getLast? ≠ some '{' → pre.getLast? ≠ some '@' → Unpaired y →
      y.head? ≠ some '{' → (k = 0 → ['-', '-'].isPrefixOf y = false) →
      OpenMustache (pre ++ (List.replicate (k + 2) '{' ++ y))

theorem unpaired_reverse {cs : List Char} : Unpaired cs.reverse ↔ Unpaired cs := by
  have hpal : ∀ c : Char, [c, c] <:+: cs.reverse ↔ [c, c] <:+: cs := fun c => @List.reverse_infix _ [c, c] cs
  exact and_congr (not_congr (hpal '{')) (not_congr (hpal '}'))

theorem unpaired_of_unstopped {a b : List Char} (h : Unstopped startsPair a b) : Unpaired a := by
  have hno : ∀ c : Char, c = '}' ∨ c = '{' → ¬[c, c] <:+: a := by
    rintro c hc ⟨u, v, rfl⟩
    rw [List.append_assoc] at h
    have hstop := unstopped_at h (by simp)
    rw [List.append_assoc, List.cons_append, List.singleton_append] at hstop
    exact Bool.eq_false_iff.1 hstop ((startsPair_cons c c _).2 ⟨rfl, hc⟩)
  exact ⟨hno '{' (.inr rfl), hno '}' (.inl rfl)⟩

/-- The search stops at the first pair, which is a mustache then. -/
theorem endsInInterpolation_split {after cs : List Char} (h : endsInInterpolation after cs = true) :
    ∃ a b, cs = a ++ '{' :: '{' :: b ∧ Unstopped startsPair a ('{' :: '{' :: b) ∧
      (b.head? ≠ some '{' → ['-', '-'].isPrefixOf (a.reverse ++ after) = false) ∧
      (b.dropWhile (· == '{')).head? ≠ some '@' := by
  fun_induction endsInInterpolation after cs with
  | case1 => cases h
  | case2 after before comment =>
    rw [Bool.and_eq_true, Bool.not_eq_true', bne_iff_ne] at h
    refine ⟨[], before, rfl, trivial, fun hb => ?_, h.2⟩
    have hcomment : (before.head? != some '{' && ['-', '-'].isPrefixOf after) = false := h.1
    rwa [bne_iff_ne.2 hb, Bool.true_and] at hcomment
  | case3 after c before hclosing hopening ih =>
    obtain ⟨a, b, rfl, hrun, hcomment, hat⟩ := ih h
    refine ⟨c :: a, b, rfl, ⟨?_, hrun⟩, by simpa using hcomment, hat⟩
    rw [Bool.eq_false_iff]
    intro hpair
    cases hs : a ++ '{' :: '{' :: b with
    | nil => simp at hs
    | cons d tail =>
      rw [hs] at hpair hclosing hopening
      obtain ⟨rfl, rfl | rfl⟩ := (startsPair_cons c d tail).1 hpair
      · exact hclosing tail rfl rfl
      · exact hopening tail rfl rfl
  | case4 => cases h

theorem dropWhile_braces {rest : List Char} (h : rest.head? ≠ some '{') (k : Nat) :
    (List.replicate k '{' ++ rest).dropWhile (· == '{') = rest := by
  rw [List.dropWhile_append_of_pos (by simp +contextual [List.mem_replicate])]
  cases rest with
  | nil => rfl
  | cons c rest =>
    rw [List.dropWhile_cons_of_neg]
    simpa using h

theorem braces_split (b : List Char) : ∃ k rest, b = List.replicate k '{' ++ rest ∧ rest.head? ≠ some '{' := by
  induction b with
  | nil => exact ⟨0, [], rfl, by simp⟩
  | cons c b ih =>
    by_cases hc : c = '{'
    · obtain ⟨k, rest, rfl, hrest⟩ := ih
      exact ⟨k + 1, rest, by rw [hc, List.replicate_succ, List.cons_append], hrest⟩
    · exact ⟨0, c :: b, rfl, by simpa using hc⟩

theorem endsInInterpolation_iff {cs : List Char} : endsInInterpolation [] cs.reverse = true ↔ OpenMustache cs := by
  constructor
  · intro h
    obtain ⟨a, b, hcs, hrun, hcomment, hat⟩ := endsInInterpolation_split h
    obtain ⟨k, rest, rfl, hrest⟩ := braces_split b
    rw [dropWhile_braces hrest] at hat
    have hsplit : cs = rest.reverse ++ (List.replicate (k + 2) '{' ++ a.reverse) := by
      rw [← List.reverse_reverse cs, hcs]
      simp [List.replicate_succ']
    have hlast : a.getLast? ≠ some '{' := by
      intro hlast
      obtain ⟨init, rfl⟩ := List.getLast?_eq_some_iff.1 hlast
      exact absurd (unstopped_at hrun (by simp)) (by simp [startsPair, Mustache.opening])
    rw [hsplit]
    refine .braces ?_ ?_ (unpaired_reverse.2 (unpaired_of_unstopped hrun)) ?_ ?_
    · rwa [List.getLast?_reverse]
    · rwa [List.getLast?_reverse]
    · rwa [List.head?_reverse]
    · rintro rfl
      simpa using hcomment hrest
  · intro h
    cases h with
    | braces hbrace hat hy hhead hcomment => exact endsInInterpolation_braces hbrace hat hy hhead hcomment

theorem endsInInterpolation_pair {rest : List Char} (h : rest.head? ≠ some '{') (k : Nat) (after : List Char) :
    endsInInterpolation after ('{' :: '{' :: (List.replicate k '{' ++ rest)) =
      (!(k == 0 && ['-', '-'].isPrefixOf after) && rest.head? != some '@') := by
  rw [endsInInterpolation, dropWhile_braces h]
  cases k with
  | zero =>
    rw [List.replicate_zero, List.nil_append, bne_iff_ne.2 h]
    rfl
  | succ k => simp [List.replicate_succ]

theorem startsPair_singleton (c : Char) : startsPair [c] = false := by
  simp [startsPair, Mustache.opening, Mustache.closing, List.isPrefixOf]

theorem unpaired_nil : Unpaired [] := by
  constructor
  · simp [Mustache.opening]
  · simp [Mustache.closing]

theorem unpaired_cons {c : Char} {cs : List Char} :
    Unpaired (c :: cs) ↔ startsPair (c :: cs) = false ∧ Unpaired cs := by
  unfold Unpaired startsPair
  rw [List.infix_cons_iff, List.infix_cons_iff, Bool.or_eq_false_iff, ← Bool.not_eq_true, ← Bool.not_eq_true,
    List.isPrefixOf_iff_prefix, List.isPrefixOf_iff_prefix]
  tauto

/-- Once a pair has been found nothing but the braces next to it and the character before them is looked at. -/
theorem endsInInterpolation_extend {a b : List Char} (h : ¬Unpaired a)
    (hb : a.getLast? = some '{' → b.head? ≠ some '{' ∧ b.head? ≠ some '@') (after : List Char) :
    endsInInterpolation after (a ++ b) = endsInInterpolation after a := by
  induction a generalizing after with
  | nil => exact absurd unpaired_nil h
  | cons c a ih =>
    cases a with
    | nil => exact absurd (unpaired_cons.2 ⟨startsPair_singleton c, unpaired_nil⟩) h
    | cons d a =>
      rw [List.cons_append, List.cons_append]
      by_cases hpair : c = d ∧ (c = '}' ∨ c = '{')
      · obtain ⟨rfl, rfl | rfl⟩ := hpair
        · rfl
        · obtain ⟨k, rest, rfl, hrest⟩ := braces_split a
          rw [List.append_assoc, endsInInterpolation_pair hrest]
          cases rest with
          | nil =>
            have hlast : ('{' :: '{' :: (List.replicate k '{' ++ [])).getLast? = some '{' := by
              rw [List.append_nil, ← List.replicate_succ, ← List.replicate_succ, List.getLast?_replicate]
              simp
            rw [List.nil_append, endsInInterpolation_pair (hb hlast).1, bne_iff_ne.2 (hb hlast).2]
            simp
          | cons r rest => exact @endsInInterpolation_pair (r :: (rest ++ b)) hrest k after
      · have hgo : ∀ cs, startsPair (c :: d :: cs) = false := by
          intro cs
          rw [Bool.eq_false_iff, ne_eq, startsPair_cons]
          exact hpair
        rw [endsInInterpolation_cons (hgo _), endsInInterpolation_cons (hgo _), ← List.cons_append]
        exact ih (fun hun => h (unpaired_cons.2 ⟨hgo a, hun⟩)) (by simpa using hb) _

theorem OpenMustache.paired {cs : List Char} (h : OpenMustache cs) : ¬Unpaired cs := by
  cases h with
  | @braces pre y k =>
    intro hp
    exact hp.1 ⟨pre, List.replicate k '{' ++ y, by simp [Mustache.opening, List.replicate_succ]⟩

/-! ## Opening marks -/

/-- Nodes of these kinds show their text as it is. -/
def Kind.isMasked : Kind → Bool
  | comment | escapedInterpolation => true
  | _ => false

/-- The opening mark of a masked node, with all the braces that it is written with, and the text behind it. -/
inductive Masks : Kind → List Char → List Char → Prop
  | comment (body : List Char) : Masks .comment Item.commentOpening body
  | escaped (k : Nat) {body : List Char} : body.head? ≠ some '{' →
      Masks .escapedInterpolation ('@' :: List.replicate (k + 2) '{') body

/-- If the search would end at `mark` then a mustache is open behind it only if it stands there. -/
theorem openMustache_append {mark body : List Char} (hbrace : mark.getLast? ≠ some '}')
    (hseam : body.head? = some '{' → mark.getLast? ≠ some '{' ∧ mark.getLast? ≠ some '@')
    (hmark : endsInInterpolation body mark.reverse = false) : OpenMustache (mark ++ body) ↔ OpenMustache body := by
  rw [← endsInInterpolation_iff, List.reverse_append]
  rw [List.getLast?_eq_head?_reverse] at hbrace hseam
  by_cases hp : Unpaired body
  · have hrun : Unstopped startsPair body.reverse mark.reverse := by
      refine hp.reverse fun c hc => ?_
      cases hm : mark.reverse with
      | nil => exact startsPair_singleton c
      | cons d rest =>
        rw [hm] at hbrace hseam
        rw [Bool.eq_false_iff, ne_eq, startsPair_cons]
        rintro ⟨rfl, rfl | rfl⟩
        · exact hbrace rfl
        · exact (hseam hc).1 rfl
    rw [endsInInterpolation_append hrun, List.reverse_reverse, List.append_nil, hmark]
    exact iff_of_false Bool.false_ne_true fun h => h.paired hp
  · rw [endsInInterpolation_extend (mt unpaired_reverse.1 hp) (by rwa [List.getLast?_reverse]), endsInInterpolation_iff]

theorem Masks.openMustache {kind : Kind} {pre mark body : List Char} (h : Masks kind mark body)
    (hpre : kind = .comment → pre.getLast? ≠ some '{') : OpenMustache (pre ++ mark ++ body) ↔ OpenMustache body := by
  cases h with
  | comment =>
    refine openMustache_append (by simp [Item.commentOpening]) (by simp [Item.commentOpening]) ?_
    have hrev : (pre ++ Item.commentOpening).reverse =
        '-' :: '-' :: '{' :: '{' :: (List.replicate 0 '{' ++ pre.reverse) := by
      simp [Item.commentOpening]
    have hrest : pre.reverse.head? ≠ some '{' := by
      rw [List.head?_reverse]
      exact hpre rfl
    rw [hrev, endsInInterpolation_cons rfl, endsInInterpolation_cons rfl, endsInInterpolation_pair hrest]
    simp
  | escaped k hhead =>
    refine openMustache_append ?_ (fun h => absurd h hhead) ?_
    · simp [List.getLast?_append, List.getLast?_cons, List.getLast?_replicate]
    have hrev : (pre ++ '@' :: List.replicate (k + 2) '{').reverse =
        '{' :: '{' :: (List.replicate k '{' ++ '@' :: pre.reverse) := by
      rw [List.reverse_append, List.reverse_cons, List.reverse_replicate, List.append_assoc]
      rfl
    rw [hrev, endsInInterpolation_pair (by simp)]
    simp

/-! ## Answers of the text -/

theorem Context.ofQuote_ne_interpolation {c : Context} (h : c ≠ .interpolation) (quote : Option Quote) :
    ofQuote c quote ≠ .interpolation := by
  cases quote with
  | none => exact h
  | some q => simp [ofQuote]

theorem Context.ofMarker?_ne_interpolation (cs : List Char) : ofMarker? cs ≠ some .interpolation := by
  unfold ofMarker?
  split
  · simp
  · intro h
    obtain ⟨quote, -, hq⟩ := Option.map_eq_some_iff.1 h
    exact ofQuote_ne_interpolation (by simp) quote hq
  · simp

theorem Context.ofLine_ne_interpolation (line : List Char) : ofLine line ≠ .interpolation := by
  have hget : ∀ marked : Option Context, marked ≠ some .interpolation →
      marked.getD (ofQuote .plainText (openQuote line)) ≠ .interpolation := by
    intro marked hm
    cases marked with
    | none => exact ofQuote_ne_interpolation (by simp) _
    | some c => exact fun hc => hm (congrArg some hc)
  unfold ofLine
  apply hget
  split
  · split
    · exact ofMarker?_ne_interpolation _
    · simp
  · simp

theorem Context.ofText_eq_interpolation {cs : List Char} : ofText cs = .interpolation ↔ OpenMustache cs := by
  rw [← endsInInterpolation_iff, ofText]
  by_cases h : endsInInterpolation [] cs.reverse = true
  · rw [if_pos h]
    exact iff_of_true rfl h
  · rw [if_neg h]
    exact iff_of_false (ofLine_ne_interpolation _) h

section

variable {text : List Char} {position : Position} {i offset : Nat} {r : Record}

theorem atPosition_of_offset (ho : (SyntaxTree.parse text).lines.offsetAt position = some offset) :
    Context.atPosition text position = .ofText (text.take offset) := by
  have ho' : (LineIndex.ofText text).offsetAt position = some offset := ho
  rw [Context.atPosition, ho']

theorem not_inside_of_item {p : Kind → Bool} (hp : ∀ k, p k = true → k.isItem = true)
    (hr : r ∈ (SyntaxTree.parse text).records) (hitem : r.kind.isItem = true) (hc : r.Covers offset)
    (hk : p r.kind = false) : ¬(SyntaxTree.parse text).Inside p offset := by
  intro ⟨s, hs, hps, hsc⟩
  rw [item_unique hr hs hitem (hp _ hps) hc hsc, hps] at hk
  cases hk

theorem classify_plain (hr : r ∈ (SyntaxTree.parse text).records) (hitem : r.kind.isItem = true)
    (hd : r.kind.isDirective = false) (hn : r.kind.isInterpolation = false) (hh : r.hasError = false)
    (ho : (SyntaxTree.parse text).lines.offsetAt position = some offset) (hc : r.Covers offset) :
    (classify (some (SyntaxTree.parse text)) text position).context = .plainText := by
  obtain ⟨i, hi⟩ := Array.mem_iff_getElem?.1 hr
  have hlt : offset < text.length := by
    have := stop_le hi
    have := hc.2
    omega
  have hdirective := not_inside_of_item (fun _ => Kind.isItem_of_isDirective) hr hitem hc hd
  have hinterpolation := not_inside_of_item (fun _ => Kind.isItem_of_isInterpolation) hr hitem hc hn
  refine classify_eq ho hlt (no_error_of_item hi hitem hc hh) ?_
  exact .plainText hinterpolation (mt inside_directive_of_string hdirective) hdirective

/-- At the end of the text an error node that is open there leaves the answer to the text. -/
theorem classify_end (ho : (SyntaxTree.parse text).lines.offsetAt position = some text.length)
    (hopen : (SyntaxTree.parse text).endsClosed = false) (hi : (SyntaxTree.parse text).records[i]? = some r)
    (he : r.isError = true) (hstop : r.stop = text.length) :
    classify (some (SyntaxTree.parse text)) text position = ⟨.ofText text, none⟩ := by
  obtain ⟨n, s, hn, hs, hin⟩ := resolvesInto_of_open ho hopen hi hstop
  have hmem : r ∈ (SyntaxTree.parse text).path n := by
    rw [SyntaxTree.path_listed (parse_nodes text) hs, List.mem_cons, List.mem_filterMap]
    rcases hin with rfl | hin
    · rw [hi] at hs
      exact .inl (Option.some.inj hs)
    · exact .inr ⟨i, hin, hi⟩
  have hany : ((SyntaxTree.parse text).path n).any (·.isError) = true := List.any_eq_true.2 ⟨r, hmem, he⟩
  rw [classify, Option.bind_some, SyntaxTree.classify?_of_path hn hs, if_pos hany, atPosition_of_offset ho,
    List.take_length]
  rfl

end

/-! ## Masked nodes -/

namespace Kind

theorem isItem_of_isMasked {k : Kind} (h : k.isMasked = true) : k.isItem = true := by
  cases k <;> simp_all [isMasked, isItem]

theorem isLeaf_of_isMasked {k : Kind} (h : k.isMasked = true) : k.isLeaf = true ∧ k.isClosing = false := by
  cases k <;> simp_all [isMasked, isLeaf, isClosing]

theorem other_of_isMasked {k : Kind} (h : k.isMasked = true) :
    k.isDirective = false ∧ k.isInterpolation = false := by
  cases k <;> simp_all [isMasked, isDirective, isInterpolation]

end Kind

section

variable {text : List Char} {position : Position} {offset : Nat} {r : Record}
  (hr : r ∈ (SyntaxTree.parse text).records) (hk : r.kind.isMasked = true)
include hr hk

theorem masked_item : ∃ before item after, items true text = before ++ item :: after ∧ r.kind = item.kind ∧
    r.start = ((before.flatMap Item.lexeme).length : Int) ∧ r.hasError = r.isError := by
  have hitem := Kind.isItem_of_isMasked hk
  obtain ⟨before, item, after, hx, h⟩ := item_of_kind hr hitem
  have hkind := itemRecords_kind h hitem
  refine ⟨before, item, after, hx, hkind, ?_⟩
  cases item with
  | comment lexeme closed =>
    obtain rfl := Option.some.inj h
    exact ⟨by simp, by simp [Forest.hasError]⟩
  | escaped lexeme closed =>
    obtain rfl := Option.some.inj h
    exact ⟨by simp, by simp [Forest.hasError]⟩
  | directive indent tag arguments =>
    have hd := (Kind.other_of_isMasked hk).1
    rw [hkind, Item.kind, Kind.isDirective_ofTag] at hd
    cases hd
  | _ =>
    rw [hkind] at hk
    cases hk

theorem last_before_masked (hc : r.kind = .comment) : (text.take r.start.toNat).getLast? ≠ some '{' := by
  obtain ⟨before, item, after, hx, hkind, hstart, -⟩ := masked_item hr hk
  obtain ⟨ls, suf, rest, htext, hread, -⟩ := items_read (boundary_start text) hx
  have hopen : Mustache.plain.opening.isPrefixOf item.lexeme = true := by
    rw [hkind] at hc
    cases item with
    | comment lexeme closed =>
      cases hread
      rfl
    | directive indent tag arguments =>
      have hd := Kind.isDirective_ofTag tag
      rw [show Kind.ofTag tag = .comment from hc] at hd
      cases hd
    | _ => cases hc
  rw [hstart, Int.toNat_natCast, htext, List.take_left]
  exact (last_before_opening hx hopen).1

theorem classify_masked_unclosed (ho : (SyntaxTree.parse text).lines.offsetAt position = some offset)
    (hstart : r.start < offset) (hstop : offset ≤ r.stop) (he : r.isError = true) :
    classify (some (SyntaxTree.parse text)) text position = ⟨.ofText (text.take offset), none⟩ := by
  obtain ⟨i, hi⟩ := Array.mem_iff_getElem?.1 hr
  have hend : r.stop = text.length := by
    obtain ⟨stop, hs, rfl | ⟨-, hcomment, hescaped⟩⟩ := unclosed_stop hr he (by rintro h; rw [h] at hk; cases hk)
    · exact hs
    · cases hkind : r.kind <;> simp_all [Kind.isMasked]
  by_cases hlt : offset < text.length
  · rw [classify_error ho hlt ⟨r, hr, he, Int.le_of_lt hstart, by omega⟩, atPosition_of_offset ho]
  · obtain rfl : offset = text.length := by omega
    obtain ⟨hleaf, hclosing⟩ := Kind.isLeaf_of_isMasked hk
    have hopen := endsClosed_of_isLeaf hi hleaf hend
    rw [classify_end ho (hopen.trans hclosing) hi he hend, List.take_length]

end

/-- In a closed comment or escaped mustache all is plain text. In an unclosed one the answer is an interpolation exactly
if the text up to the cursor ends with an open mustache or, behind the opening mark, if the text since then does. -/
theorem classify_masked {text : List Char} {position : Position} {offset : Nat} {r : Record}
    (hr : r ∈ (SyntaxTree.parse text).records) (hk : r.kind.isMasked = true)
    (ho : (SyntaxTree.parse text).lines.offsetAt position = some offset) (hstart : r.start < offset)
    (hstop : offset < r.stop ∨ r.isError = true ∧ r.stop = offset) :
    (r.isError = false → (classify (some (SyntaxTree.parse text)) text position).context = .plainText) ∧
      (r.isError = true →
        ((classify (some (SyntaxTree.parse text)) text position).context = .interpolation ↔
          OpenMustache (text.take offset)) ∧
        ∀ mark body, Masks r.kind mark body → text.take offset = text.take r.start.toNat ++ mark ++ body →
          ((classify (some (SyntaxTree.parse text)) text position).context = .interpolation ↔ OpenMustache body)) := by
  refine ⟨fun he => ?_, fun he => ?_⟩
  · obtain ⟨_, _, _, -, -, -, hh⟩ := masked_item hr hk
    obtain ⟨hd, hn⟩ := Kind.other_of_isMasked hk
    refine classify_plain hr (Kind.isItem_of_isMasked hk) hd hn (hh.trans he) ho ⟨Int.le_of_lt hstart, ?_⟩
    exact hstop.resolve_right (by simp [he])
  · rw [classify_masked_unclosed hr hk ho hstart (by omega) he]
    refine ⟨Context.ofText_eq_interpolation, fun mark body hmark hsplit => ?_⟩
    rw [Context.ofText_eq_interpolation, hsplit]
    exact hmark.openMustache (last_before_masked hr hk)

/-- The comment is not closed, but the mustache in it is. -/
theorem classify_masked_comment :
    let text := "@{{ a }}\n\x7b\x7b-- {{ b }} c".toList
    let tree := SyntaxTree.parse text
    ∃ r ∈ tree.records, r.kind.isMasked = true ∧ tree.lines.offsetAt ⟨1, 14⟩ = some 23 ∧ r.start < (23 : Nat) ∧
      ((23 : Nat) < r.stop ∨ r.isError = true ∧ r.stop = (23 : Nat)) ∧ r.isError = true ∧
      Masks r.kind Item.commentOpening " {{ b }} c".toList ∧
      text.take 23 = text.take r.start.toNat ++ Item.commentOpening ++ " {{ b }} c".toList ∧
      ((classify (some tree) text ⟨1, 14⟩).context = .interpolation ↔ OpenMustache " {{ b }} c".toList) := by
  intro text tree
  have hfound : (tree.records[3]?).any
      (fun r => r.kind = .comment ∧ r.start = 9 ∧ r.stop = 23 ∧ r.isError = true) = true := by
    decide +kernel
  have ho : tree.lines.offsetAt ⟨1, 14⟩ = some 23 := by decide +kernel
  obtain ⟨r, h, hspan⟩ := (Option.any_eq_true _ _).1 hfound
  obtain ⟨hk, hstart, hstop, he⟩ := of_decide_eq_true hspan
  have hr := Array.mem_of_getElem? h
  have hmasked : r.kind.isMasked = true := by
    rw [hk]
    rfl
  have hmark : Masks r.kind Item.commentOpening " {{ b }} c".toList := by
    rw [hk]
    exact .comment _
  have hsplit : text.take 23 = text.take r.start.toNat ++ Item.commentOpening ++ " {{ b }} c".toList := by
    rw [hstart]
    decide +kernel
  exact ⟨r, hr, hmasked, ho, by omega, .inr ⟨he, hstop⟩, he, hmark, hsplit,
    ((classify_masked hr hmasked ho (by omega) (.inr ⟨he, hstop⟩)).2 he).2 _ _ hmark hsplit⟩

theorem classify_masked_mustache :
    let text := "\x7b\x7b-- \x7b\x7b x".toList
    let tree := SyntaxTree.parse text
    tree.lines.offsetAt ⟨0, 9⟩ = some 9 ∧
      (∃ r ∈ tree.records, r.kind = .comment ∧ r.start < (9 : Nat) ∧ r.isError = true ∧ r.stop = (9 : Nat)) ∧
      (classify (some tree) text ⟨0, 9⟩).context = .interpolation := by
  decide +kernel

end EdgeTemplate
