import EdgeTemplate.Proofs.CutSound

/-!
# Tags and the lines before them

Whether an `@` starts a tag depends on the text before it (`endsInIndent`: only blanks stand on the
last line) and on the text after it (`startsTag`). A tag line splits in one way into indentation,
tag and rest (`splitTag_eq`), and the line end before a tag line is where `startsTagBreak` holds.
-/

namespace EdgeTemplate

/-- A line starts at the end of the text. -/
def atLineStart (pre : List Char) : Bool := pre.getLast?.all (· == '\n')

/-- Only indentation stands on the last line of the text. -/
def endsInIndent (pre : List Char) : Bool := (pre.reverse.takeWhile (· != '\n')).all isIndent

theorem endsInIndent_concat (pre : List Char) (c : Char) :
    endsInIndent (pre ++ [c]) = (c == '\n' || isIndent c && endsInIndent pre) := by
  unfold endsInIndent
  rw [List.reverse_append, List.reverse_singleton, List.singleton_append, List.takeWhile_cons]
  by_cases hc : c = '\n'
  · simp [hc]
  · simp [hc]

theorem endsInIndent_append {a : List Char} (ha : '\n' ∉ a) (pre : List Char) :
    endsInIndent (pre ++ a) = (endsInIndent pre && a.all isIndent) := by
  induction a generalizing pre with
  | nil => simp
  | cons c a ih =>
    rw [List.mem_cons, not_or] at ha
    have hc : (c == '\n') = false := by simpa using Ne.symm ha.1
    rw [List.append_cons, ih ha.2, endsInIndent_concat, hc, Bool.false_or, List.all_cons,
      Bool.and_comm (isIndent c), Bool.and_assoc]

theorem endsInIndent_newline {y : List Char} (hy : '\n' ∉ y) (pre : List Char) :
    endsInIndent (pre ++ '\n' :: y) = y.all isIndent := by
  rw [List.append_cons, endsInIndent_append hy, endsInIndent_concat]
  simp

theorem endsInIndent_of_atLineStart {pre : List Char} (h : atLineStart pre = true) :
    endsInIndent pre = true := by
  rcases List.eq_nil_or_concat pre with rfl | ⟨pre, c, rfl⟩
  · rfl
  · rw [List.concat_eq_append] at h ⊢
    simp only [atLineStart, List.getLast?_concat, Option.all_some] at h
    rw [endsInIndent_concat, h, Bool.true_or]

theorem split_last_newline {a : List Char} (h : '\n' ∈ a) : ∃ x y, a = x ++ '\n' :: y ∧ '\n' ∉ y := by
  induction a with
  | nil => exact absurd h List.not_mem_nil
  | cons c a ih =>
    by_cases ha : '\n' ∈ a
    · obtain ⟨x, y, rfl, hy⟩ := ih ha
      exact ⟨c :: x, y, rfl, hy⟩
    · rcases List.mem_cons.1 h with rfl | h
      · exact ⟨[], a, rfl, ha⟩
      · exact absurd h ha

/-! ## Tag lines -/

theorem startsTagLine_indent {y : List Char} (hy : y.all isIndent = true) (cs : List Char) :
    startsTagLine (y ++ cs) = startsTagLine cs := by
  unfold startsTagLine
  rw [List.dropWhile_append_of_pos (List.all_eq_true.1 hy)]

theorem startsTag_head {cs : List Char} (h : startsTag cs = true) : ∃ r, cs = '@' :: r := by
  unfold startsTag at h
  split at h
  · exact ⟨_, rfl⟩
  · exact ⟨_, rfl⟩
  · cases h

theorem startsTag_plain {c : Char} (hc : c ≠ '!') (cs : List Char) :
    startsTag ('@' :: c :: cs) = isNameStart c := by
  simp [startsTag, hc]

theorem startsTagLine_of_startsTag {cs : List Char} (h : startsTag cs = true) : startsTagLine cs = true := by
  obtain ⟨r, rfl⟩ := startsTag_head h
  simpa [startsTagLine, isIndent] using h

theorem startsTagLine_cons {c : Char} (hc : isIndent c = false) (ha : c ≠ '@') (cs : List Char) :
    startsTagLine (c :: cs) = false := by
  unfold startsTagLine
  rw [List.dropWhile_cons_of_neg (by simp [hc])]
  by_cases h : startsTag (c :: cs) = true
  · obtain ⟨r, hr⟩ := startsTag_head h
    exact absurd (List.cons.inj hr).1 ha
  · exact Bool.eq_false_iff.2 h

theorem startsTagLine_nil : startsTagLine [] = false := rfl

theorem startsTagBreak_head {cs : List Char} (h : startsTagBreak cs = true) :
    ∃ r, cs = '\n' :: r ∧ startsTagLine r = true := by
  unfold startsTagBreak at h
  split at h
  · exact ⟨_, rfl, h⟩
  · cases h

theorem startsTagLine_of_break {cs : List Char} (h : startsTagBreak cs = true) : startsTagLine cs = false := by
  obtain ⟨r, rfl, -⟩ := startsTagBreak_head h
  exact startsTagLine_cons (by decide) (by decide) r

/-- A run without a line end before a tag line holds no tag, unless it follows indentation only. -/
theorem no_tag_in_run {pre a b : List Char}
    (hin : ∀ x y, a = x ++ '\n' :: y → startsTagLine (y ++ b) = false)
    (hline : endsInIndent pre = true → startsTagLine (a ++ b) = false)
    (hi : endsInIndent (pre ++ a) = true) : startsTag b = false := by
  by_cases hb : startsTag b = true
  · have hb' := startsTagLine_of_startsTag hb
    by_cases ha : '\n' ∈ a
    · obtain ⟨x, y, rfl, hy⟩ := split_last_newline ha
      rw [← List.append_assoc, endsInIndent_newline hy] at hi
      have := hin x y rfl
      rw [startsTagLine_indent hi, hb'] at this
      cases this
    · rw [endsInIndent_append ha, Bool.and_eq_true] at hi
      have := hline hi.1
      rw [startsTagLine_indent hi.2, hb'] at this
      cases this
  · exact Bool.eq_false_iff.2 hb

/-! ## Splitting a tag line -/

/-- `@name` or `@!name`. -/
inductive IsTag : List Char → Prop
  | plain (c : Char) (cs : List Char) : isNameStart c = true → cs.all isNameChar = true → IsTag ('@' :: c :: cs)
  | inline (c : Char) (cs : List Char) : isNameStart c = true → cs.all isNameChar = true →
      IsTag ('@' :: '!' :: c :: cs)

theorem isNameChar_of_isNameStart {c : Char} (h : isNameStart c = true) : isNameChar c = true := by
  unfold isNameStart at h
  unfold isNameChar Char.isAlphanum
  cases hc : c.isAlpha <;> simp_all

/-- Indentation, a tag and what follows it; the name goes on as long as it can. -/
structure TagSplit (indent tag rest : List Char) : Prop where
  indent : indent.all isIndent = true
  tag : IsTag tag
  rest : ∀ c, rest.head? = some c → isNameChar c = false

theorem IsTag.head {tag : List Char} (h : IsTag tag) : ∃ t, tag = '@' :: t := by
  cases h with
  | plain c cs _ _ => exact ⟨c :: cs, rfl⟩
  | inline c cs _ _ => exact ⟨'!' :: c :: cs, rfl⟩

theorem IsTag.startsTag {tag : List Char} (h : IsTag tag) (rest : List Char) :
    startsTag (tag ++ rest) = true := by
  cases h with
  | plain c cs hc _ =>
    have hb : c ≠ '!' := by rintro rfl; exact absurd hc (by decide)
    exact (startsTag_plain hb (cs ++ rest)).trans hc
  | inline c cs hc _ => exact hc

theorem IsTag.last {tag : List Char} (h : IsTag tag) : ∃ t c, tag = t ++ [c] ∧ isNameChar c = true := by
  have hlast : ∀ (c : Char) (cs : List Char), isNameStart c = true → cs.all isNameChar = true →
      ∃ t d, c :: cs = t ++ [d] ∧ isNameChar d = true := by
    intro c cs hc hcs
    rcases List.eq_nil_or_concat cs with rfl | ⟨ds, d, rfl⟩
    · exact ⟨[], c, rfl, isNameChar_of_isNameStart hc⟩
    · rw [List.concat_eq_append] at hcs ⊢
      exact ⟨c :: ds, d, rfl, List.all_eq_true.1 hcs d (by simp)⟩
  cases h with
  | plain c cs hc hcs =>
    obtain ⟨t, d, ht, hd⟩ := hlast c cs hc hcs
    exact ⟨'@' :: t, d, by rw [ht, List.cons_append], hd⟩
  | inline c cs hc hcs =>
    obtain ⟨t, d, ht, hd⟩ := hlast c cs hc hcs
    exact ⟨'@' :: '!' :: t, d, by rw [ht, List.cons_append, List.cons_append], hd⟩

theorem startsTagLine_of_split {indent tag rest : List Char} (h : TagSplit indent tag rest) :
    startsTagLine (indent ++ (tag ++ rest)) = true := by
  rw [startsTagLine_indent h.indent]
  exact startsTagLine_of_startsTag (h.tag.startsTag rest)

theorem head_dropWhile_isNameChar (cs : List Char) :
    ∀ c, (cs.dropWhile isNameChar).head? = some c → isNameChar c = false := by
  intro c hc
  have := List.head?_dropWhile_not isNameChar cs
  rw [hc] at this
  simpa using this

theorem splitTag_split {cs : List Char} (h : startsTagLine cs = true) :
    TagSplit (splitTag cs).1 (splitTag cs).2.1 (splitTag cs).2.2 := by
  have hindent : (cs.takeWhile isIndent).all isIndent = true := List.all_takeWhile
  have hall : ∀ ds : List Char, (ds.takeWhile isNameChar).all isNameChar = true := fun _ => List.all_takeWhile
  unfold startsTagLine at h
  unfold splitTag
  split
  · next rest hd =>
    rw [hd] at h
    cases rest with
    | nil => exact absurd h (by decide)
    | cons c rest =>
      have hc : isNameStart c = true := h
      rw [List.takeWhile_cons, List.dropWhile_cons, if_pos (isNameChar_of_isNameStart hc),
        if_pos (isNameChar_of_isNameStart hc)]
      exact ⟨hindent, .inline c _ hc (hall rest), head_dropWhile_isNameChar rest⟩
  · next c rest hbang hd =>
    rw [hd] at h
    obtain ⟨r, hr⟩ := startsTag_head h
    obtain ⟨rfl, -⟩ := List.cons.inj hr
    cases rest with
    | nil => exact absurd h (by decide)
    | cons c rest =>
      have hb : c ≠ '!' := by rintro rfl; exact hbang rest rfl rfl
      have hc : isNameStart c = true := (startsTag_plain hb rest) ▸ h
      rw [List.takeWhile_cons, List.dropWhile_cons, if_pos (isNameChar_of_isNameStart hc),
        if_pos (isNameChar_of_isNameStart hc)]
      exact ⟨hindent, .plain c _ hc (hall rest), head_dropWhile_isNameChar rest⟩
  · next hd => rw [hd] at h; exact absurd h (by decide)

theorem span_nameChars (name : List Char) {rest : List Char} (hn : name.all isNameChar = true)
    (hr : ∀ c, rest.head? = some c → isNameChar c = false) :
    (name ++ rest).takeWhile isNameChar = name ∧ (name ++ rest).dropWhile isNameChar = rest := by
  rw [List.takeWhile_append_of_pos (List.all_eq_true.1 hn), List.dropWhile_append_of_pos (List.all_eq_true.1 hn)]
  cases rest with
  | nil => simp
  | cons c rest => simp [hr c rfl]

theorem TagSplit.span {indent tag rest : List Char} (h : TagSplit indent tag rest) :
    (indent ++ (tag ++ rest)).takeWhile isIndent = indent ∧
      (indent ++ (tag ++ rest)).dropWhile isIndent = tag ++ rest := by
  have hi := List.all_eq_true.1 h.indent
  obtain ⟨t, rfl⟩ := h.tag.head
  rw [List.takeWhile_append_of_pos hi, List.dropWhile_append_of_pos hi, List.cons_append, List.takeWhile_cons,
    List.dropWhile_cons, if_neg (by decide), if_neg (by decide), List.append_nil]
  exact ⟨rfl, rfl⟩

theorem splitTag_eq {indent tag rest : List Char} (h : TagSplit indent tag rest) :
    splitTag (indent ++ (tag ++ rest)) = (indent, tag, rest) := by
  unfold splitTag
  rw [h.span.1, h.span.2]
  cases h.tag with
  | plain c cs hc hcs =>
    have hb : c ≠ '!' := by rintro rfl; exact absurd hc (by decide)
    have hs := span_nameChars (c :: cs) (by simp [hcs, isNameChar_of_isNameStart hc]) h.rest
    rw [List.cons_append] at hs
    simp [hb, hs.1, hs.2]
  | inline c cs hc hcs =>
    have hs := span_nameChars (c :: cs) (by simp [hcs, isNameChar_of_isNameStart hc]) h.rest
    simp only [List.cons_append] at hs ⊢
    rw [hs.1, hs.2]

end EdgeTemplate
