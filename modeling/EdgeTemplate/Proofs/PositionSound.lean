import EdgeTemplate.Position
import EdgeTemplate.Proofs.TagLineSound

/-!
# Offsets and positions

A text is cut at a whole line (`IsLine`), and there an offset and a position are read off: the offset is the length of
what comes before the line and a column, the position is the number of line ends before the line and the same column
(`IsLine.positionAt`, `IsLine.offsetAt`). Every offset lies in a line (`line_of_offset`) and every number of a line has
one (`line_of_number`), so the two conversions undo each other and keep the order (`offsets_positions`).
-/

namespace EdgeTemplate

def Position.down (lines : Nat) (p : Position) : Position := { p with line := p.line + lines }

def Position.Before (p q : Position) : Prop := p.line < q.line ∨ p.line = q.line ∧ p.column < q.column

/-! ## Line starts -/

namespace LineIndex

theorem startsFrom_cons (offset : Nat) (c : Char) (cs : List Char) : startsFrom offset (c :: cs) =
    if c = '\n' then (offset + 1) :: startsFrom (offset + 1) cs else startsFrom (offset + 1) cs := rfl

theorem startsFrom_append (offset : Nat) (a b : List Char) :
    startsFrom offset (a ++ b) = startsFrom offset a ++ startsFrom (offset + a.length) b := by
  induction a generalizing offset with
  | nil => rfl
  | cons c a ih =>
    have hlen : offset + 1 + a.length = offset + (c :: a).length := by
      rw [List.length_cons]
      omega
    rw [List.cons_append, startsFrom_cons, startsFrom_cons, ih, hlen]
    split
    · rfl
    · rfl

theorem startsFrom_add (offset k : Nat) (cs : List Char) :
    startsFrom (offset + k) cs = (startsFrom offset cs).map (· + k) := by
  induction cs generalizing offset with
  | nil => rfl
  | cons c cs ih =>
    rw [startsFrom_cons, startsFrom_cons, Nat.add_right_comm, ih]
    split
    · rfl
    · rfl

theorem length_startsFrom (offset : Nat) (cs : List Char) : (startsFrom offset cs).length = cs.count '\n' := by
  induction cs generalizing offset with
  | nil => rfl
  | cons c cs ih =>
    rw [startsFrom_cons, List.count_cons]
    split
    · next h => simp [ih, h]
    · next h => simp [ih, h]

theorem startsFrom_bounds {offset s : Nat} {cs : List Char} (h : s ∈ startsFrom offset cs) :
    offset < s ∧ s ≤ offset + cs.length := by
  induction cs generalizing offset with
  | nil => cases h
  | cons c cs ih =>
    have htail : s ∈ startsFrom (offset + 1) cs → offset < s ∧ s ≤ offset + (c :: cs).length := by
      intro hs
      have := ih hs
      rw [List.length_cons]
      omega
    rw [startsFrom_cons] at h
    split at h
    · rcases List.mem_cons.1 h with rfl | h
      · rw [List.length_cons]
        omega
      · exact htail h
    · exact htail h

/-- Behind complete lines, the lines start as they did, moved by what is in front. -/
theorem starts_append {a : List Char} (h : atLineStart a = true) (b : List Char) : ∃ front : List Nat,
    front.length = a.count '\n' ∧ (∀ s ∈ front, s ≤ a.length) ∧
      (ofText (a ++ b)).starts = front ++ (ofText b).starts.map (· + a.length) := by
  rcases List.eq_nil_or_concat a with rfl | ⟨a, c, rfl⟩
  · exact ⟨[], rfl, nofun, by simp⟩
  · rw [List.concat_eq_append] at h ⊢
    have hc : c = '\n' := by simpa [atLineStart] using h
    subst hc
    refine ⟨0 :: startsFrom 0 a, ?_, ?_, ?_⟩
    · simp [length_startsFrom]
    · intro s hs
      rcases List.mem_cons.1 hs with rfl | hs
      · exact Nat.zero_le _
      · have := (startsFrom_bounds hs).2
        rw [List.length_append]
        omega
    · have hline : startsFrom (0 + a.length) ['\n'] = [a.length + 1] := by simp [startsFrom]
      have htail := startsFrom_add 0 (a.length + 1) b
      rw [Nat.zero_add] at htail
      rw [ofText, ofText, startsFrom_append, startsFrom_append, hline]
      simp [htail]

theorem positionAt_append {a : List Char} (h : atLineStart a = true) (b : List Char) (offset : Nat) :
    (ofText (a ++ b)).positionAt ((offset : Int) + a.length) =
      ((ofText b).positionAt offset).down (a.count '\n') := by
  obtain ⟨front, hlen, hle, hstarts⟩ := starts_append h b
  have hoffset : min ((offset : Int) + a.length).toNat (ofText (a ++ b)).length =
      min offset (ofText b).length + a.length := by
    simp only [ofText, List.length_append]
    omega
  have hnat : ((offset : Int)).toNat = offset := Int.toNat_natCast offset
  unfold positionAt
  dsimp only
  rw [hoffset, hstarts, hnat]
  generalize min offset (ofText b).length = o
  -- the front counts as a whole, and the line that holds the offset is one of the others
  have hfront : front.countP (· ≤ o + a.length) = a.count '\n' := by
    rw [← hlen, List.countP_eq_length]
    intro s hs
    have := hle s hs
    exact decide_eq_true (by omega)
  have hback : ((ofText b).starts.map (· + a.length)).countP (· ≤ o + a.length) = (ofText b).starts.countP (· ≤ o) := by
    rw [List.countP_map]
    congr 1
    funext s
    simp
  have hpos : 0 < (ofText b).starts.countP (· ≤ o) :=
    List.countP_pos_iff.2 ⟨0, List.mem_cons_self, decide_eq_true (Nat.zero_le o)⟩
  have hline : (ofText b).starts.countP (· ≤ o) - 1 < (ofText b).starts.length := by
    have := List.countP_le_length (p := fun s => decide (s ≤ o)) (l := (ofText b).starts)
    omega
  rw [List.countP_append, hfront, hback]
  generalize (ofText b).starts.countP (· ≤ o) = k at hpos hline
  have hget : (front ++ (ofText b).starts.map (· + a.length)).getD (a.count '\n' + k - 1) 0 =
      (ofText b).starts.getD (k - 1) 0 + a.length := by
    have hindex : a.count '\n' + k - 1 - front.length = k - 1 := by omega
    rw [List.getD_eq_getElem?_getD, List.getElem?_append_right (by omega), hindex, List.getElem?_map,
      List.getElem?_eq_getElem hline, List.getD_eq_getElem?_getD, List.getElem?_eq_getElem hline]
    rfl
  rw [hget, Position.down, Position.mk.injEq]
  dsimp only
  constructor
  · omega
  · omega

theorem starts_first {line : List Char} (h : '\n' ∉ line) (back : List Char) :
    (ofText (line ++ back)).starts = 0 :: startsFrom line.length back := by
  have hnone : startsFrom 0 line = [] := by
    rw [← List.length_eq_zero_iff, length_startsFrom, List.count_eq_zero.2 h]
  rw [ofText, startsFrom_append, hnone, Nat.zero_add, List.nil_append]

/-- In the first line an offset is a column. -/
theorem positionAt_first {line : List Char} (h : '\n' ∉ line) (back : List Char) :
    (ofText (line ++ back)).positionAt line.length = ⟨0, line.length⟩ := by
  have hlater : (startsFrom line.length back).countP (· ≤ line.length) = 0 := by
    rw [List.countP_eq_zero]
    intro s hs
    have := (startsFrom_bounds hs).1
    simp only [decide_eq_true_eq]
    omega
  have hclamp : min (line.length : Int).toNat (ofText (line ++ back)).length = line.length := by simp [ofText]
  unfold positionAt
  dsimp only
  rw [hclamp, starts_first h, List.countP_cons, hlater]
  simp

theorem positionAt_zero (text : List Char) : (ofText text).positionAt 0 = ⟨0, 0⟩ :=
  positionAt_first List.not_mem_nil text

end LineIndex

/-! ## Whole lines -/

/-- `line` is a whole line of the text and `front` is all that comes before it. -/
structure IsLine (text front line : List Char) : Prop where
  start : atLineStart front = true
  unbroken : '\n' ∉ line
  split : ∃ back, text = front ++ (line ++ back) ∧ back.head?.all (· == '\n') = true

theorem isLine_first (text : List Char) : IsLine text [] (text.takeWhile (· != '\n')) := by
  refine ⟨rfl, ?_, text.dropWhile (· != '\n'), by simp, ?_⟩
  · intro h
    have := List.all_eq_true.1 (@List.all_takeWhile _ (· != '\n') text) _ h
    simp at this
  · have := List.head?_dropWhile_not (· != '\n') text
    cases hd : (text.dropWhile (· != '\n')).head? with
    | none => rfl
    | some c =>
      rw [hd] at this
      simpa using this

theorem IsLine.cons {text front line : List Char} (h : IsLine text front line) {c : Char}
    (hc : front = [] → c = '\n') : IsLine (c :: text) (c :: front) line := by
  obtain ⟨back, rfl, hb⟩ := h.split
  refine ⟨?_, h.unbroken, back, rfl, hb⟩
  cases front with
  | nil => simp [atLineStart, hc rfl]
  | cons d front => exact h.start

theorem line_of_number {text : List Char} {n : Nat} (h : n ≤ text.count '\n') :
    ∃ front line, IsLine text front line ∧ front.count '\n' = n := by
  induction text generalizing n with
  | nil =>
    obtain rfl : n = 0 := Nat.le_zero.1 h
    exact ⟨[], _, isLine_first [], rfl⟩
  | cons c text ih =>
    cases n with
    | zero => exact ⟨[], _, isLine_first _, rfl⟩
    | succ n =>
      by_cases hc : c = '\n'
      · subst hc
        rw [List.count_cons_self] at h
        obtain ⟨front, line, hl, hn⟩ := ih (Nat.le_of_succ_le_succ h)
        exact ⟨_, line, hl.cons fun _ => rfl, by rw [List.count_cons_self, hn]⟩
      · rw [List.count_cons_of_ne hc] at h
        obtain ⟨front, line, hl, hn⟩ := ih h
        refine ⟨_, line, hl.cons ?_, by rw [List.count_cons_of_ne hc, hn]⟩
        rintro rfl
        cases hn

theorem line_of_offset {text : List Char} {offset : Nat} (h : offset ≤ text.length) :
    ∃ front line column, IsLine text front line ∧ offset = front.length + column ∧ column ≤ line.length := by
  induction text generalizing offset with
  | nil =>
    obtain rfl : offset = 0 := Nat.le_zero.1 h
    exact ⟨[], _, 0, isLine_first [], rfl, Nat.zero_le _⟩
  | cons c text ih =>
    cases offset with
    | zero => exact ⟨[], _, 0, isLine_first _, rfl, Nat.zero_le _⟩
    | succ offset =>
      obtain ⟨front, line, column, hl, ho, hcol⟩ := ih (Nat.le_of_succ_le_succ h)
      by_cases hf : front = [] ∧ c ≠ '\n'
      · obtain ⟨rfl, hc⟩ := hf
        obtain ⟨back, rfl, hb⟩ := hl.split
        have hline : '\n' ∉ c :: line := by simp [hl.unbroken, hc.symm]
        refine ⟨[], c :: line, column + 1, ⟨rfl, hline, back, rfl, hb⟩, ?_, Nat.succ_le_succ hcol⟩
        rw [ho, Nat.add_assoc]
      · refine ⟨c :: front, line, column, hl.cons fun h0 => ?_, ?_, hcol⟩
        · simpa [h0] using hf
        · rw [ho, List.length_cons]
          omega

/-- The line of `offset` starts at `start`: there is no line feed from there on, and one just before unless it is the
first line. -/
structure StartsLine (text : List Char) (offset start : Nat) : Prop where
  le : start ≤ offset
  behind : ∀ i, start = i + 1 → text[i]? = some '\n'
  unbroken : ∀ i, start ≤ i → i < offset → text[i]? ≠ some '\n'

theorem LineIndex.offsetAt_of_drop {lines : LineIndex} {n start stop : Nat} {following : List Nat}
    (hdrop : lines.starts.drop n = start :: following) (hstop : following.head?.elim lines.length (· - 1) = stop)
    (column : Int) :
    lines.offsetAt ⟨n, column⟩ =
      if 0 ≤ column ∧ start + column.toNat ≤ stop then some (start + column.toNat) else none := by
  unfold offsetAt
  by_cases hcol : 0 ≤ column
  · rw [if_neg (by simp only [Bool.or_eq_true, decide_eq_true_eq]; omega), Int.toNat_natCast, hdrop]
    simp only [hcol, true_and]
    cases following with
    | nil => rw [← hstop]; rfl
    | cons next following => rw [← hstop]; rfl
  · rw [if_pos (by simp only [Bool.or_eq_true, decide_eq_true_eq]; omega), if_neg fun h => hcol h.1]

theorem length_splitOn (text : List Char) : (text.splitOn '\n').length = text.count '\n' + 1 := by
  rw [List.splitOn_eq_splitOnP]
  induction text with
  | nil => rfl
  | cons c text ih =>
    rw [List.splitOnP_cons_eq_if_modifyHead]
    by_cases hc : c = '\n'
    · simp [hc, ih]
    · simp [hc, ih]

namespace IsLine

variable {text front line : List Char} (h : IsLine text front line)
include h

theorem take_eq {column : Nat} (hc : column ≤ line.length) :
    text.take (front.length + column) = front ++ line.take column := by
  obtain ⟨back, rfl, -⟩ := h.split
  rw [List.take_length_add_append, List.take_append_of_le_length hc]

theorem count_take {column : Nat} (hc : column ≤ line.length) :
    (text.take (front.length + column)).count '\n' = front.count '\n' := by
  have hnone : (line.take column).count '\n' = 0 :=
    List.count_eq_zero.2 fun hm => h.unbroken (List.mem_of_mem_take hm)
  rw [h.take_eq hc, List.count_append, hnone, Nat.add_zero]

theorem positionAt {column : Nat} (hc : column ≤ line.length) :
    (LineIndex.ofText text).positionAt ((front.length + column : Nat) : Int) = ⟨front.count '\n', column⟩ := by
  obtain ⟨back, rfl, -⟩ := h.split
  have hnone : '\n' ∉ line.take column := fun hm => h.unbroken (List.mem_of_mem_take hm)
  have hfirst := LineIndex.positionAt_first hnone (line.drop column ++ back)
  rw [← List.append_assoc, List.take_append_drop, List.length_take, Nat.min_eq_left hc] at hfirst
  have hmoved := LineIndex.positionAt_append h.start (line ++ back) column
  rw [hfirst, ← Int.natCast_add, Nat.add_comm column] at hmoved
  rw [hmoved, Position.down]
  simp

theorem offsetAt (column : Int) :
    (LineIndex.ofText text).offsetAt ⟨front.count '\n', column⟩ =
      if 0 ≤ column ∧ column ≤ line.length then some (front.length + column.toNat) else none := by
  obtain ⟨back, rfl, hb⟩ := h.split
  obtain ⟨starts, hlen, -, hstarts⟩ := LineIndex.starts_append h.start (line ++ back)
  have hdrop : (LineIndex.ofText (front ++ (line ++ back))).starts.drop (front.count '\n') =
      front.length :: (LineIndex.startsFrom line.length back).map (· + front.length) := by
    rw [hstarts, ← hlen, List.drop_left, LineIndex.starts_first h.unbroken, List.map_cons, Nat.zero_add]
  -- the next line starts behind the line end, and the last line stops where the text does
  have hstop : ((LineIndex.startsFrom line.length back).map (· + front.length)).head?.elim
      (LineIndex.ofText (front ++ (line ++ back))).length (· - 1) = front.length + line.length := by
    cases back with
    | nil => simp [LineIndex.startsFrom, LineIndex.ofText]
    | cons c back =>
      have hc : c = '\n' := by simpa using hb
      simp [LineIndex.startsFrom, hc]
      omega
  rw [LineIndex.offsetAt_of_drop hdrop hstop]
  by_cases hcol : 0 ≤ column ∧ column ≤ line.length
  · rw [if_pos hcol, if_pos (by omega)]
  · rw [if_neg hcol, if_neg (by omega)]

theorem splitOn : (text.splitOn '\n')[front.count '\n']? = some line := by
  obtain ⟨back, rfl, hb⟩ := h.split
  have hfirst : ((line ++ back).splitOn '\n')[0]? = some line := by
    cases back with
    | nil => rw [List.append_nil, List.splitOn_eq_singleton h.unbroken]; rfl
    | cons c back =>
      obtain rfl : c = '\n' := by simpa using hb
      rw [List.splitOn_append_cons_self_of_not_mem h.unbroken]
      rfl
  rcases List.eq_nil_or_concat front with rfl | ⟨front, c, rfl⟩
  · exact hfirst
  · have hc : c = '\n' := by simpa [atLineStart] using h.start
    subst hc
    have hcount : (front.concat '\n').count '\n' = (front.splitOn '\n').length := by
      rw [length_splitOn, List.concat_eq_append, List.count_append, List.count_singleton_self]
    rw [hcount, List.concat_eq_append, List.append_assoc, List.singleton_append,
      List.splitOn_append_cons_self, List.getElem?_append_right (Nat.le_refl _), Nat.sub_self]
    exact hfirst

theorem startsLine {column : Nat} (hc : column ≤ line.length) :
    StartsLine text (front.length + column) front.length := by
  obtain ⟨back, rfl, -⟩ := h.split
  refine ⟨Nat.le_add_right _ _, fun i hi => ?_, fun i hfirst hlast hbreak => ?_⟩
  · have hlt : i < front.length := by omega
    rcases List.eq_nil_or_concat front with rfl | ⟨front, c, rfl⟩
    · cases hi
    · have hc : c = '\n' := by simpa [atLineStart] using h.start
      have hlen : i = front.length := by simpa using hi.symm
      rw [List.getElem?_append_left hlt, hlen, hc]
      simp
  · rw [List.getElem?_append_right hfirst, List.getElem?_append_left (by omega)] at hbreak
    exact h.unbroken (List.mem_of_getElem? hbreak)

theorem length_eq {front' line' : List Char} (h' : IsLine text front' line')
    (hn : front.count '\n' = front'.count '\n') : front.length = front'.length := by
  have hstart := h.offsetAt 0
  rw [hn, h'.offsetAt 0, if_pos (by omega), if_pos (by omega)] at hstart
  simpa using hstart.symm

end IsLine

/-! ## The conversions -/

section Conversions

variable {text : List Char}

theorem offsetAt_outside {p : Position} (h : p.line < 0 ∨ text.count '\n' + 1 ≤ p.line) :
    (LineIndex.ofText text).offsetAt p = none := by
  unfold LineIndex.offsetAt
  by_cases hneg : p.line < 0
  · rw [if_pos (by simp [hneg])]
  · have hdrop : (LineIndex.ofText text).starts.drop p.line.toNat = [] := by
      apply List.drop_eq_nil_of_le
      rw [LineIndex.ofText, List.length_cons, LineIndex.length_startsFrom]
      omega
    rw [hdrop]
    simp

theorem line_of_position {p : Position} (h : ¬ (p.line < 0 ∨ text.count '\n' + 1 ≤ p.line)) :
    ∃ front line, IsLine text front line ∧ p = ⟨front.count '\n', p.column⟩ := by
  have hle : p.line.toNat ≤ text.count '\n' := by omega
  obtain ⟨front, line, hl, hn⟩ := line_of_number hle
  have hline : (front.count '\n' : Int) = p.line := by omega
  exact ⟨front, line, hl, by rw [hline]⟩

theorem offsetAt_eq_some {p : Position} {offset : Nat} (h : (LineIndex.ofText text).offsetAt p = some offset) :
    offset ≤ text.length ∧ (LineIndex.ofText text).positionAt offset = p := by
  by_cases hout : p.line < 0 ∨ text.count '\n' + 1 ≤ p.line
  · rw [offsetAt_outside hout] at h
    cases h
  · obtain ⟨front, line, hl, hp⟩ := line_of_position hout
    rw [hp, hl.offsetAt] at h
    by_cases hcol : 0 ≤ p.column ∧ p.column ≤ line.length
    · rw [if_pos hcol] at h
      cases h
      obtain ⟨back, hsplit, -⟩ := hl.split
      have hpos := hl.positionAt (show p.column.toNat ≤ line.length by omega)
      rw [Int.toNat_of_nonneg hcol.1, ← hp] at hpos
      refine ⟨?_, hpos⟩
      rw [hsplit, List.length_append, List.length_append]
      omega
    · rw [if_neg hcol] at h
      cases h

theorem offsetAt_eq_none_iff (line column : Int) : (LineIndex.ofText text).offsetAt ⟨line, column⟩ = none ↔
    line < 0 ∨ text.count '\n' + 1 ≤ line ∨ column < 0 ∨
      ((text.splitOn '\n').getD line.toNat []).length < column := by
  by_cases hout : line < 0 ∨ text.count '\n' + 1 ≤ line
  · rw [offsetAt_outside (p := ⟨line, column⟩) hout]
    simp only [true_iff]
    exact hout.imp_right .inl
  · obtain ⟨front, content, hl, hp⟩ := line_of_position (p := ⟨line, column⟩) hout
    obtain rfl : line = front.count '\n' := congrArg Position.line hp
    rw [hl.offsetAt, List.getD_eq_getElem?_getD, Int.toNat_natCast, hl.splitOn, Option.getD_some]
    by_cases hcol : 0 ≤ column ∧ column ≤ content.length
    · rw [if_pos hcol]
      simp only [reduceCtorEq, false_iff]
      omega
    · rw [if_neg hcol]
      simp only [true_iff]
      omega

theorem positionAt_before {offset offset' : Nat} (hlt : offset < offset') (hle : offset' ≤ text.length) :
    ((LineIndex.ofText text).positionAt offset).Before ((LineIndex.ofText text).positionAt offset') := by
  obtain ⟨front, line, column, hl, rfl, hcol⟩ := line_of_offset (Nat.le_trans (Nat.le_of_lt hlt) hle)
  obtain ⟨front', line', column', hl', rfl, hcol'⟩ := line_of_offset hle
  rw [hl.positionAt hcol, hl'.positionAt hcol']
  have hcount := (List.take_sublist_take_left (l := text) (Nat.le_of_lt hlt)).count_le '\n'
  rw [hl.count_take hcol, hl'.count_take hcol'] at hcount
  by_cases hn : front.count '\n' = front'.count '\n'
  · have hlen := hl.length_eq hl' hn
    exact .inr ⟨by rw [hn], by show (column : Int) < column'; omega⟩
  · exact .inl (by show (front.count '\n' : Int) < front'.count '\n'; omega)

end Conversions

/-- What a line index has to do for a text: `positionAt` counts the line feeds before an offset and the characters since
the last of them, and takes an offset outside the text for the nearest end; `offsetAt` answers on the columns of the
lines of the text and nowhere else; the two undo each other, and `positionAt` keeps the order. -/
structure LineIndex.Converts (lines : LineIndex) (text : List Char) : Prop where
  position : ∀ offset : Nat, offset ≤ text.length → ∃ start, StartsLine text offset start ∧
    lines.positionAt offset = ⟨(text.take offset).count '\n', offset - start⟩
  clamped : ∀ offset : Int, lines.positionAt offset = lines.positionAt (max 0 (min offset text.length))
  offset_position : ∀ offset : Nat, offset ≤ text.length →
    lines.offsetAt (lines.positionAt offset) = some offset
  none_iff : ∀ line column : Int, lines.offsetAt ⟨line, column⟩ = none ↔
    line < 0 ∨ text.count '\n' + 1 ≤ line ∨ column < 0 ∨
      ((text.splitOn '\n').getD line.toNat []).length < column
  position_offset : ∀ (p : Position) (offset : Nat), lines.offsetAt p = some offset →
    offset ≤ text.length ∧ lines.positionAt offset = p
  ordered : ∀ offset offset' : Nat, offset < offset' → offset' ≤ text.length →
    (lines.positionAt offset).Before (lines.positionAt offset')

theorem offsets_positions (text : List Char) : (LineIndex.ofText text).Converts text where
  position offset h := by
    obtain ⟨front, line, column, hl, rfl, hcol⟩ := line_of_offset h
    refine ⟨front.length, hl.startsLine hcol, ?_⟩
    rw [hl.positionAt hcol, hl.count_take hcol, Int.natCast_add, Int.add_comm, Int.add_sub_cancel]
  clamped offset := by
    have hmin : min (max 0 (min offset text.length) : Int).toNat text.length = min offset.toNat text.length := by
      omega
    unfold LineIndex.positionAt
    rw [LineIndex.ofText, hmin]
  offset_position offset h := by
    obtain ⟨front, line, column, hl, rfl, hcol⟩ := line_of_offset h
    rw [hl.positionAt hcol, hl.offsetAt, if_pos (by omega), Int.toNat_natCast]
  none_iff := offsetAt_eq_none_iff
  position_offset _ _ := offsetAt_eq_some
  ordered _ _ := positionAt_before

end EdgeTemplate
