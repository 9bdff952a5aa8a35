import EdgeTemplate.Proofs.DiagnosticsMove

/-!
# Closing lines repair a template

A line `@end` behind a text without syntax errors takes the innermost block that the text leaves open, or is stray if
there is none (`Walked.endLine`). All that was reported before stays where it is, since nodes of the text and positions
in it do not see what follows. So as many such lines as blocks are left open take away the reports on these blocks and
nothing else, and one line more is the only stray one (`diagnostics_repaired`).
-/

namespace EdgeTemplate

/-! ## Positions in a front -/

namespace LineIndex

theorem positionAt_front {a : List Char} {offset : Nat} (h : offset ≤ a.length) (b : List Char) :
    (ofText (a ++ b)).positionAt offset = (ofText a).positionAt offset := by
  obtain ⟨front, line, column, hl, rfl, hcol⟩ := line_of_offset h
  rw [hl.positionAt hcol]
  obtain ⟨back, rfl, -⟩ := hl.split
  have hnone : '\n' ∉ line.take column := fun hm => hl.unbroken (List.mem_of_mem_take hm)
  have hfirst := positionAt_first hnone (line.drop column ++ (back ++ b))
  rw [← List.append_assoc, List.take_append_drop, List.length_take, Nat.min_eq_left hcol] at hfirst
  have hmoved := positionAt_append hl.start (line ++ (back ++ b)) column
  rw [hfirst, ← Int.natCast_add, Nat.add_comm column] at hmoved
  rw [List.append_assoc, List.append_assoc, hmoved, Position.down]
  simp

end LineIndex

/-! ## Walks over a front -/

namespace SyntaxTree

/-- The blocks that are open behind the nodes `l`, when `opened` are open before them. -/
def openedFrom (opened : List Frame) (l : List (Nat × Record)) : List Frame :=
  l.foldl (fun opened n => Frame.advance opened n.1 n.2 (Role.ofKind n.2.kind)) opened

def unclosed (opened : List Frame) : List Finding :=
  opened.reverse.map fun f => ⟨f.index, f.node, .missingEnd f.block⟩

variable {whole part : SyntaxTree}

theorem Embeds.findingsFrom_append (h : whole.Embeds part 0 0) (opened : List Frame) {l : List (Nat × Record)}
    (hl : ∀ n ∈ l, n.1 ≠ 0 ∧ part.records[n.1]? = some n.2) : ∃ reports : List Finding,
    part.findingsFrom opened l = reports ++ unclosed (openedFrom opened l) ∧
    ∀ rest, whole.findingsFrom opened (l ++ rest) = reports ++ whole.findingsFrom (openedFrom opened l) rest := by
  induction l generalizing opened with
  | nil => exact ⟨[], rfl, fun rest => rfl⟩
  | cons n l ih =>
    obtain ⟨hn, hl⟩ := List.forall_mem_cons.1 hl
    have hproblems := h.localProblems_shift hn.1 hn.2
    rw [Record.shift_zero] at hproblems
    obtain ⟨reports, hpart, hwhole⟩ := ih (Frame.advance opened n.1 n.2 (Role.ofKind n.2.kind)) hl
    refine ⟨(part.localProblems n.2 ++ (Frame.stray? opened (Role.ofKind n.2.kind)).toList).map (⟨n.1, n.2, ·⟩) ++
      reports, ?_, ?_⟩
    · rw [findingsFrom, hpart, List.append_assoc]
      rfl
    · intro rest
      rw [List.cons_append, findingsFrom, hwhole, hproblems, List.append_assoc]
      rfl

/-- Nodes without problems of their own that neither open nor close a block pass unnoticed. -/
theorem findingsFrom_neutral {tree : SyntaxTree} {n : Nat × Record} (hlocal : tree.localProblems n.2 = [])
    (hrole : Role.ofKind n.2.kind = .neutral) (opened : List Frame) (rest : List (Nat × Record)) :
    tree.findingsFrom opened (n :: rest) = tree.findingsFrom opened rest := by
  rw [findingsFrom, hlocal, hrole]
  rfl

end SyntaxTree

/-! ## One closing line -/

def endLine : List Char := "@end\n".toList

def endLines (count : Nat) : List Char := (List.replicate count endLine).flatten

def endRecord : Record where
  kind := .directive "end"
  start := 0
  stop := 4
  parent := some 0
  children := [2]
  subtreeEnd := 3
  isError := false
  hasError := false

/-- The nodes of a closing line: the directive, its name, and the line end as text. -/
def endNodes : List (Nat × Record) :=
  [(1, endRecord), (2, { endRecord with kind := .directiveName, parent := some 1, children := [] }),
    (3, { endRecord with kind := .text, start := 4, stop := 5, children := [], subtreeEnd := 4 })]

theorem nodes_endLine : (Forest.ofItems (items true endLine)).nodes (some 0) 0 1 = endNodes := by decide +kernel

theorem localProblems_endLine : ∀ n ∈ endNodes, (SyntaxTree.parse endLine).localProblems n.2 = [] := by
  decide +kernel

def strayEndLine (text : List Char) : Finding where
  index := 1 + (Forest.ofItems (items true text)).size
  node := endRecord.shift text.length (Forest.ofItems (items true text)).size
  problem := .strayEnd

/-- The text has no syntax error and ends its last line. The walk over its nodes has reported `reports` and left
`opened` open. -/
structure Walked (text : List Char) (reports : List Finding) (opened : List Frame) : Prop where
  line : atLineStart text = true
  clean : (Forest.ofItems (items true text)).hasError = false
  frames : SyntaxTree.openedFrom [] ((Forest.ofItems (items true text)).nodes (some 0) 0 1) = opened
  findings : (SyntaxTree.parse text).findings = reports ++ SyntaxTree.unclosed opened

section

variable {a : List Char} (hline : atLineStart a = true)
  (hclean : (Forest.ofItems (items true a)).hasError = false)
include hline hclean

theorem walked_clean : ∃ reports opened, Walked a reports opened := by
  have hembeds := embeds_left hline hclean (b := endLine) (by decide)
  obtain ⟨reports, hpart, -⟩ := hembeds.findingsFrom_append [] listed_below_root
  refine ⟨reports, _, hline, hclean, rfl, ?_⟩
  rw [parse_findings, hclean, ← hpart]
  rfl

theorem nodes_append_endLine : (Forest.ofItems (items true (a ++ endLine))).nodes (some 0) 0 1 =
    (Forest.ofItems (items true a)).nodes (some 0) 0 1 ++ endNodes.map fun n =>
      (n.1 + (Forest.ofItems (items true a)).size, n.2.shift a.length (Forest.ofItems (items true a)).size) := by
  have hnodes := nodes_append_clean hline hclean (b := endLine) (by decide)
  rw [parse_nodes, Forest.ofText, Forest.nodes_node, Forest.nodes_nil, List.append_nil, nodes_endLine] at hnodes
  exact (List.cons.inj hnodes).2

theorem findingsFrom_endLine (opened : List Frame) :
    (SyntaxTree.parse (a ++ endLine)).findingsFrom opened (endNodes.map fun n =>
        (n.1 + (Forest.ofItems (items true a)).size, n.2.shift a.length (Forest.ofItems (items true a)).size)) =
      (if opened.isEmpty then [strayEndLine a] else []) ++ SyntaxTree.unclosed opened.tail := by
  have hembeds := embeds_right hline hclean (b := endLine) (by decide)
  have hlocal : ∀ n ∈ endNodes, (SyntaxTree.parse (a ++ endLine)).localProblems
      (n.2.shift a.length (Forest.ofItems (items true a)).size) = [] := by
    intro n hn
    rw [← nodes_endLine] at hn
    obtain ⟨hne, hr⟩ := listed_below_root n hn
    rw [hembeds.localProblems_shift hne hr]
    exact localProblems_endLine n (nodes_endLine ▸ hn)
  simp only [endNodes, List.forall_mem_cons] at hlocal
  obtain ⟨hend, hname, htext, -⟩ := hlocal
  rw [endNodes, List.map_cons, SyntaxTree.findingsFrom, hend, List.map_cons, SyntaxTree.findingsFrom_neutral hname rfl,
    List.map_cons, SyntaxTree.findingsFrom_neutral htext rfl]
  cases opened with
  | nil => rfl
  | cons f opened => rfl

end

theorem openedFrom_endLine (offset nodes : Nat) (opened : List Frame) :
    SyntaxTree.openedFrom opened (endNodes.map fun n => (n.1 + nodes, n.2.shift offset nodes)) = opened.tail := rfl

theorem Walked.endLine {a : List Char} {reports : List Finding} {opened : List Frame} (h : Walked a reports opened) :
    Walked (a ++ endLine) (reports ++ if opened.isEmpty then [strayEndLine a] else []) opened.tail := by
  have hclean : (Forest.ofItems (items true (a ++ EdgeTemplate.endLine))).hasError = false := by
    have hend : (Forest.ofItems (items true EdgeTemplate.endLine)).hasError = false := by decide +kernel
    rw [items_append_clean h.line h.clean (by decide), Forest.ofItems_append, Forest.hasError_append, h.clean, hend]
    rfl
  have hembeds := embeds_left h.line h.clean (b := EdgeTemplate.endLine) (by decide)
  obtain ⟨front, hpart, hwhole⟩ := hembeds.findingsFrom_append [] listed_below_root
  rw [h.frames] at hpart hwhole
  have hfront : front = reports := by
    have hfindings := parse_findings a
    rw [h.findings, h.clean, hpart] at hfindings
    exact (List.append_cancel_right hfindings).symm
  -- the walk over the front is the same in both trees; the line then meets the innermost open block
  constructor
  · simp [atLineStart, EdgeTemplate.endLine]
  · exact hclean
  · have hframes := h.frames
    rw [SyntaxTree.openedFrom] at hframes
    rw [nodes_append_endLine h.line h.clean, SyntaxTree.openedFrom, List.foldl_append, hframes]
    exact openedFrom_endLine _ _ opened
  · rw [parse_findings, hclean, nodes_append_endLine h.line h.clean, hwhole, findingsFrom_endLine h.line h.clean,
      hfront, List.append_assoc]
    rfl

/-! ## As many lines as open blocks -/

theorem endLines_succ (count : Nat) : endLines (count + 1) = endLines count ++ endLine := by
  simp [endLines, List.replicate_succ']

theorem count_endLines (count : Nat) : (endLines count).count '\n' = count := by
  induction count with
  | zero => rfl
  | succ count ih =>
    have hone : endLine.count '\n' = 1 := by decide
    rw [endLines_succ, List.count_append, ih, hone]

theorem Walked.endLines {a : List Char} {reports : List Finding} {opened : List Frame} (h : Walked a reports opened)
    {count : Nat} (hle : count ≤ opened.length) : Walked (a ++ endLines count) reports (opened.drop count) := by
  induction count with
  | zero => simpa [EdgeTemplate.endLines] using h
  | succ count ih =>
    have hopen : (opened.drop count).isEmpty = false := by
      rw [List.isEmpty_eq_false_iff, ne_eq, List.drop_eq_nil_iff]
      omega
    have hnext := (ih (by omega)).endLine
    rwa [hopen, if_neg Bool.false_ne_true, List.append_nil, List.tail_drop, List.append_assoc, ← endLines_succ] at hnext

/-! ## What is reported -/

theorem clean_of_records {text : List Char} (h : ∀ r ∈ (SyntaxTree.parse text).records, r.isError = false) :
    (Forest.ofItems (items true text)).hasError = false := by
  rw [Forest.hasError_eq_any _ (some 0) 0 1, List.any_eq_false]
  intro r hr
  rw [h r]
  · exact Bool.false_ne_true
  · rw [← Array.mem_toList_iff, parse_records]
    exact List.mem_cons_of_mem _ hr

namespace Walked

variable {a : List Char} {reports : List Finding} {opened : List Frame} (h : Walked a reports opened)
include h

theorem diagnostics_eq : (SyntaxTree.parse a).diagnostics =
    reports.map (fun f => (SyntaxTree.parse a).diagnose f.node f.problem) ++
      opened.reverse.map fun f => (SyntaxTree.parse a).diagnose f.node (.missingEnd f.block) := by
  show (SyntaxTree.parse a).findings.map (fun f => (SyntaxTree.parse a).diagnose f.node f.problem) = _
  rw [h.findings, List.map_append, SyntaxTree.unclosed, List.map_map]
  rfl

/-- A report on the front is the same report whatever follows. -/
theorem diagnose_front {f : Finding} (hf : f ∈ reports) (b : List Char) :
    (SyntaxTree.parse (a ++ b)).diagnose f.node f.problem = (SyntaxTree.parse a).diagnose f.node f.problem := by
  have hfind := parse_findings a
  rw [h.clean, h.findings] at hfind
  have hm : f ∈ (SyntaxTree.parse a).findingsFrom [] ((Forest.ofItems (items true a)).nodes (some 0) 0 1) := by
    rw [← List.nil_append (SyntaxTree.findingsFrom _ _ _)]
    exact hfind ▸ List.mem_append_left _ hf
  rcases SyntaxTree.mem_findingsFrom hm with hnode | ⟨frame, hframe, -⟩
  · obtain ⟨hne, hr⟩ := listed_below_root _ hnode
    obtain ⟨start, stop, hstart, hstop, hlt, hle⟩ := (parse_rooted a).span _ _ hne hr
    have hle : stop ≤ a.length := hle
    dsimp only at hstart hstop
    rw [SyntaxTree.diagnose, SyntaxTree.diagnose, hstart, hstop]
    show (⟨_, (LineIndex.ofText (a ++ b)).range start stop, _⟩ : Diagnostic) =
      ⟨_, (LineIndex.ofText a).range start stop, _⟩
    rw [LineIndex.range, LineIndex.range, LineIndex.positionAt_front (by omega), LineIndex.positionAt_front hle]
  · cases hframe

theorem opened_eq : opened = (SyntaxTree.parse a).openedBefore (SyntaxTree.parse a).records.size := by
  rw [SyntaxTree.openedBefore, ← SyntaxTree.length_nodes, List.take_length, parse_nodes, Forest.ofText,
    Forest.nodes_node, Forest.nodes_nil, List.append_nil]
  exact h.frames.symm

theorem unclosed_said : ∀ d ∈ opened.reverse.map fun f => (SyntaxTree.parse a).diagnose f.node (.missingEnd f.block),
    d.saysUnclosed = true := by
  intro d hd
  rw [h.opened_eq, SyntaxTree.unclosed_eq] at hd
  exact (SyntaxTree.unclosed_texts hd).2

theorem count_unclosed : (SyntaxTree.parse a).diagnostics.countP (·.saysUnclosed) = opened.length := by
  have hall := h.unclosed_said
  have hdiag : (SyntaxTree.parse a).diagnostics = _ := SyntaxTree.diagnostics_eq
  rw [← h.opened_eq] at hdiag
  rw [hdiag, List.countP_append, List.countP_eq_length.2 hall, List.length_map, List.length_reverse,
    List.countP_eq_zero.2, Nat.zero_add]
  intro d hd
  rw [SyntaxTree.front_not_unclosed hd]
  exact Bool.false_ne_true

end Walked

theorem diagnose_strayEndLine {a : List Char} (hline : atLineStart a = true) :
    (SyntaxTree.parse (a ++ endLine)).diagnose (strayEndLine a).node (strayEndLine a).problem =
      ⟨.error, ⟨⟨a.count '\n', 0⟩, ⟨a.count '\n', 4⟩⟩, "@end without matching block directive"⟩ := by
  have hrange := LineIndex.range_append hline endLine 0 4
  have hfirst : (LineIndex.ofText endLine).range (0 : Nat) (4 : Nat) = ⟨⟨0, 0⟩, ⟨0, 4⟩⟩ := by decide
  rw [hfirst] at hrange
  have hdown : Range.down (a.count '\n') ⟨⟨0, 0⟩, ⟨0, 4⟩⟩ = ⟨⟨a.count '\n', 0⟩, ⟨a.count '\n', 4⟩⟩ := by
    simp [Range.down, Position.down]
  rw [← hdown, ← hrange]
  rfl

/-- The blocks that a text without syntax errors leaves open are reported last. As many closing lines behind it take
these reports away and change nothing else; one more is reported as stray. -/
theorem diagnostics_repaired {a : List Char} {k : Nat} (hline : atLineStart a = true)
    (herr : ∀ r ∈ (SyntaxTree.parse a).records, r.isError = false)
    (hk : (SyntaxTree.parse a).diagnostics.countP (·.saysUnclosed) = k) :
    ∃ kept unclosed, (SyntaxTree.parse a).diagnostics = kept ++ unclosed ∧ unclosed.length = k ∧
      (∀ d ∈ unclosed, d.saysUnclosed = true) ∧
      (SyntaxTree.parse (a ++ endLines k)).diagnostics = kept ∧
      (SyntaxTree.parse (a ++ endLines (k + 1))).diagnostics = kept ++
        [⟨.error, ⟨⟨a.count '\n' + k, 0⟩, ⟨a.count '\n' + k, 4⟩⟩, "@end without matching block directive"⟩] := by
  obtain ⟨reports, opened, h⟩ := walked_clean hline (clean_of_records herr)
  rw [h.count_unclosed] at hk
  subst hk
  have hall : Walked (a ++ endLines opened.length) reports [] := by
    have := h.endLines (Nat.le_refl _)
    rwa [List.drop_length] at this
  have hmore : Walked (a ++ endLines (opened.length + 1))
      (reports ++ [strayEndLine (a ++ endLines opened.length)]) [] := by
    have := hall.endLine
    rwa [List.append_assoc, ← endLines_succ] at this
  refine ⟨_, _, h.diagnostics_eq, by rw [List.length_map, List.length_reverse], h.unclosed_said, ?_, ?_⟩
  · rw [hall.diagnostics_eq, List.reverse_nil, List.map_nil, List.append_nil]
    exact List.map_congr_left fun f hf => h.diagnose_front hf _
  · have hstray := diagnose_strayEndLine hall.line
    rw [List.append_assoc, ← endLines_succ, List.count_append, count_endLines] at hstray
    rw [hmore.diagnostics_eq, List.reverse_nil, List.map_nil, List.append_nil, List.map_append, List.map_singleton,
      hstray]
    congr 1
    exact List.map_congr_left fun f hf => h.diagnose_front hf _

/-- Two blocks are left open, one of them a loop that names no list. -/
theorem diagnostics_repaired_loop :
    let a := "@if(user)\n  @each(user)\n    {{ name }}\n".toList
    (atLineStart a = true ∧ (∀ r ∈ (SyntaxTree.parse a).records, r.isError = false) ∧
      (SyntaxTree.parse a).diagnostics.countP (·.saysUnclosed) = 2) ∧
    ∃ kept unclosed, (SyntaxTree.parse a).diagnostics = kept ++ unclosed ∧ unclosed.length = 2 ∧
      (∀ d ∈ unclosed, d.saysUnclosed = true) ∧
      (SyntaxTree.parse (a ++ "@end\n@end\n".toList)).diagnostics = kept ∧
      (SyntaxTree.parse (a ++ "@end\n@end\n@end\n".toList)).diagnostics = kept ++
        [⟨.error, ⟨⟨5, 0⟩, ⟨5, 4⟩⟩, "@end without matching block directive"⟩] := by
  intro a
  have hline : atLineStart a = true := by decide
  have herr : ∀ r ∈ (SyntaxTree.parse a).records, r.isError = false := by decide +kernel
  have hk : (SyntaxTree.parse a).diagnostics.countP (·.saysUnclosed) = 2 := by decide +kernel
  exact ⟨⟨hline, herr, hk⟩, diagnostics_repaired hline herr hk⟩

end EdgeTemplate
