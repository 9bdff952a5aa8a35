import EdgeTemplate.Proofs.DiagnosticsMove
import EdgeTemplate.Proofs.EndSound

/-!
# Diagnostics in document order

Nodes are listed by where they start (`Forest.starts_ascend`), and top-level nodes do not start together
(`item_start_lt`). The walk over the nodes reports each on its own span, so its reports start in that order; the blocks
that stay open are kept in the order of their openers, whatever closers take from between them. Positions keep the order
of offsets, so this is the order of the ranges too (`diagnostics_ordered`).
-/

namespace EdgeTemplate

/-! ## Where nodes start -/

namespace Forest

variable {f : Forest} {parent : Option Nat} {offset index : Nat}

theorem start_le_stop {n : Nat × Record} (hn : n ∈ f.nodes parent offset index) : n.2.start ≤ n.2.stop := by
  obtain ⟨label, children, offset', hsub⟩ := subtree_node hn
  obtain ⟨parent', hrec⟩ := hsub.written
  rw [hrec]
  simp only [record]
  omega

theorem starts_ascend : (f.nodes parent offset index).Pairwise fun m n => m.2.start ≤ n.2.start := by
  induction f generalizing parent offset index with
  | nil => exact List.Pairwise.nil
  | node label children siblings ihc ihs =>
    rw [nodes_node, List.pairwise_cons, List.pairwise_append]
    refine ⟨?_, ihc, ihs, ?_⟩
    · intro n hn
      have hstart : (offset + label.indent.length + label.lexeme.length : Nat) ≤ n.2.start := by
        rcases List.mem_append.1 hn with hn | hn
        · exact (node_within hn).1
        · have := (node_within hn).1
          omega
      simp only [record]
      omega
    · intro m hm n hn
      have := start_le_stop hm
      have := (node_within hm).2
      have := (node_within hn).1
      omega

end Forest

section

variable {text : List Char} {i j : Nat} {r s : Record}

/-- A top-level node ends before the next one starts. -/
theorem item_start_lt (hi : (SyntaxTree.parse text).records[i]? = some r)
    (hj : (SyntaxTree.parse text).records[j]? = some s) (hki : r.kind.isItem = true) (hkj : s.kind.isItem = true)
    (hlt : i < j) : r.start < s.start := by
  have h := parse_nodes text
  have hparent := parent_of_isItem hi hki
  have hne : i ≠ 0 := by
    rintro rfl
    rw [(root_record hi).2.1] at hparent
    cases hparent
  -- a node below `r` has a parent at `r` or behind it, but the parent of `s` is the root
  have hpast : r.subtreeEnd ≤ j := by
    by_cases hin : (j : Int) < r.subtreeEnd
    · obtain ⟨-, p, hp, hle⟩ := SyntaxTree.below_listed h hi hj hlt hin
      rw [parent_of_isItem hj hkj] at hp
      cases hp
      omega
    · omega
  have hafter : r.stop ≤ s.start := by
    have hmi := SyntaxTree.mem_nodes.2 hi
    have hmj := SyntaxTree.mem_nodes.2 hj
    rw [h] at hmi hmj
    exact Forest.node_after hmi hmj hpast
  have := span_nonempty hi hne
  omega

theorem record_span (hi : (SyntaxTree.parse text).records[i]? = some r) :
    ∃ start stop : Nat, r.start = start ∧ r.stop = stop ∧ start ≤ stop ∧ stop ≤ text.length := by
  by_cases h0 : i = 0
  · subst h0
    obtain ⟨root, hroot, -, -, hstart, hstop⟩ := parse_root text
    rw [hi] at hroot
    cases hroot
    exact ⟨0, text.length, hstart, hstop, Nat.zero_le _, Nat.le_refl _⟩
  · obtain ⟨start, stop, hstart, hstop, hlt, hle⟩ := (parse_rooted text).span i r h0 hi
    exact ⟨start, stop, hstart, hstop, Nat.le_of_lt hlt, hle⟩

end

/-! ## Where ranges start -/

def Position.AtOrBefore (p q : Position) : Prop := p = q ∨ p.Before q

section

variable {text : List Char}

theorem offsetAt_positionAt {offset : Nat} (h : offset ≤ text.length) :
    (LineIndex.ofText text).offsetAt ((LineIndex.ofText text).positionAt offset) = some offset := by
  obtain ⟨front, line, column, hl, rfl, hcol⟩ := line_of_offset h
  rw [hl.positionAt hcol, hl.offsetAt, if_pos (by omega), Int.toNat_natCast]

theorem positionAt_atOrBefore {offset offset' : Nat} (hle : offset ≤ offset') (hlen : offset' ≤ text.length) :
    ((LineIndex.ofText text).positionAt offset).AtOrBefore ((LineIndex.ofText text).positionAt offset') := by
  by_cases heq : offset = offset'
  · exact .inl (by rw [heq])
  · exact .inr (positionAt_before (by omega) hlen)

variable {i j : Nat} {r s : Record} (hi : (SyntaxTree.parse text).records[i]? = some r)
  (hj : (SyntaxTree.parse text).records[j]? = some s) (p q : Problem)
include hi hj

theorem diagnose_atOrBefore (hle : r.start ≤ s.start) : ((SyntaxTree.parse text).diagnose r p).range.start.AtOrBefore
    ((SyntaxTree.parse text).diagnose s q).range.start := by
  obtain ⟨start, stop, hstart, -⟩ := record_span hi
  obtain ⟨start', stop', hstart', -, hle', hlen⟩ := record_span hj
  show ((LineIndex.ofText text).positionAt r.start).AtOrBefore ((LineIndex.ofText text).positionAt s.start)
  rw [hstart, hstart'] at hle ⊢
  exact positionAt_atOrBefore (by omega) (by omega)

theorem diagnose_before (hlt : r.start < s.start) : ((SyntaxTree.parse text).diagnose r p).range.start.Before
    ((SyntaxTree.parse text).diagnose s q).range.start := by
  obtain ⟨start, stop, hstart, -⟩ := record_span hi
  obtain ⟨start', stop', hstart', -, hle', hlen⟩ := record_span hj
  show ((LineIndex.ofText text).positionAt r.start).Before ((LineIndex.ofText text).positionAt s.start)
  rw [hstart, hstart'] at hlt ⊢
  exact positionAt_before (by omega) (by omega)

end

/-! ## The two runs of reports -/

theorem Kind.isDirective_of_closes {k : Kind} {rest : String} (h : k.closes? = some rest) : k.isDirective = true := by
  cases k with
  | directive name => rfl
  | _ => cases h

theorem Kind.isDirective_of_opens {k : Kind} {block : String} (h : k.opens? = some block) : k.isDirective = true := by
  cases k with
  | directive name => rfl
  | _ => cases h

section

variable (text : List Char)

theorem walk_ordered : ((SyntaxTree.parse text).nodes.flatMap fun n =>
      ((SyntaxTree.parse text).problemsAt n).map ((SyntaxTree.parse text).diagnose n.2)).Pairwise
    fun d e => d.range.start.AtOrBefore e.range.start := by
  rw [List.pairwise_flatMap]
  constructor
  · intro n hn
    rw [List.pairwise_map]
    exact List.pairwise_of_forall fun p q => .inl rfl
  · have hascend : (SyntaxTree.parse text).nodes.Pairwise fun m n => m.2.start ≤ n.2.start := by
      rw [parse_nodes]
      exact Forest.starts_ascend
    refine hascend.imp_of_mem fun {m n} hm hn hle d hd e he => ?_
    obtain ⟨p, -, rfl⟩ := List.mem_map.1 hd
    obtain ⟨q, -, rfl⟩ := List.mem_map.1 he
    exact diagnose_atOrBefore (SyntaxTree.mem_nodes.1 hm) (SyntaxTree.mem_nodes.1 hn) p q hle

theorem unclosed_ordered : (((SyntaxTree.parse text).openedBefore (SyntaxTree.parse text).records.size).reverse.map
      fun f => (SyntaxTree.parse text).diagnose f.node (.missingEnd f.block)).Pairwise
    fun d e => d.range.start.Before e.range.start := by
  rw [List.pairwise_map, List.pairwise_reverse]
  refine (SyntaxTree.openedBefore_descend _).imp_of_mem fun {f g} hf hg hlt => ?_
  obtain ⟨-, hr, ho, -⟩ := SyntaxTree.mem_openedBefore.1 hf
  obtain ⟨-, hs, ho', -⟩ := SyntaxTree.mem_openedBefore.1 hg
  refine diagnose_before hs hr _ _ (item_start_lt hs hr ?_ ?_ hlt)
  · exact Kind.isItem_of_isDirective (Kind.isDirective_of_opens ho')
  · exact Kind.isItem_of_isDirective (Kind.isDirective_of_opens ho)

end

/-! ## What is reported on which nodes -/

/-- The text of a report fits the node: a flagged node, an interpolation or a directive. -/
def Diagnostic.Fits (d : Diagnostic) (r : Record) : Prop :=
  if d.message = "Syntax error" then r.hasError = true
  else if d.message = "Empty interpolation" then r.kind.isInterpolation = true
  else r.kind.isDirective = true

def Problem.fits (p : Problem) (r : Record) : Bool :=
  match p with
  | .syntaxError => r.hasError
  | .emptyInterpolation => r.kind.isInterpolation
  | _ => r.kind.isDirective

theorem Problem.ofNode_general : ∀ p ∈ ofNode, (p.message = "Syntax error" → p = .syntaxError) ∧
    (p.message = "Empty interpolation" → p = .emptyInterpolation) := by
  decide +kernel

namespace SyntaxTree

variable {tree : SyntaxTree} {node : Record} {p : Problem}

theorem directive_problem {name : String}
    (h : some p ∈ [tree.conditionProblem? node name, tree.loopProblem? node name, tree.entityProblem? node name,
      tree.includeProblem? node name]) :
    p = .missingCondition name ∨ p = .missingIn name ∨ p = .entityName (entityOf name) ∨ p = .relativeInclude := by
  have hif : ∀ {c : Prop} [Decidable c] {q : Problem}, some p = (if c then some q else none) → p = q := by
    intro c _ q he
    split at he
    · exact Option.some.inj he
    · cases he
  simp only [List.mem_cons, List.not_mem_nil, or_false] at h
  rcases h with h | h | h | h
  · exact .inl (hif h)
  · exact .inr (.inl (hif h))
  · simp only [entityProblem?, Option.bind_eq_bind] at h
    obtain ⟨allowed, -, h⟩ := Option.bind_eq_some_iff.1 h.symm
    obtain ⟨value, -, h⟩ := Option.bind_eq_some_iff.1 h
    refine .inr (.inr (.inl ?_))
    split at h
    · cases h
    · exact (Option.some.inj h).symm
  · exact .inr (.inr (.inr (hif h)))

theorem fits_of_local (h : p ∈ tree.localProblems node) : p.fits node = true := by
  rw [localProblems, List.mem_append] at h
  rcases h with h | h
  · by_cases he : node.hasError = true
    · rw [if_pos he, List.mem_singleton] at h
      rw [h]
      exact he
    · rw [if_neg he] at h
      cases h
  · obtain ⟨x, hx, hp⟩ := List.mem_filterMap.1 h
    have hx' : x = some p := hp
    subst hx'
    split at hx
    · next name hk =>
      have hd : node.kind.isDirective = true := by rw [hk]; rfl
      rcases directive_problem hx with rfl | rfl | rfl | rfl <;> exact hd
    · next style hk =>
      have hi : node.kind.isInterpolation = true := by rw [hk]; rfl
      rw [List.mem_singleton, interpolationProblem?] at hx
      split at hx
      · cases hx
        exact hi
      · cases hx
    · cases hx

theorem fits_of_directive {d : Diagnostic} (hd : node.kind.isDirective = true)
    (htext : d.saysStray = true ∨ d.saysUnclosed = true) : d.Fits node := by
  have hflag : d.message ≠ "Syntax error" := by
    intro he
    rw [Diagnostic.saysStray, Diagnostic.saysUnclosed, he] at htext
    revert htext
    decide +kernel
  have hempty : d.message ≠ "Empty interpolation" := by
    intro he
    rw [Diagnostic.saysStray, Diagnostic.saysUnclosed, he] at htext
    revert htext
    decide +kernel
  rw [Diagnostic.Fits, if_neg hflag, if_neg hempty]
  exact hd

theorem diagnose_fits (h : p ∈ tree.localProblems node) : (tree.diagnose node p).Fits node := by
  have hfits := fits_of_local h
  obtain ⟨hflag, hempty⟩ := Problem.ofNode_general p (localProblems_mem h)
  show if p.message = "Syntax error" then _ else if p.message = "Empty interpolation" then _ else _
  by_cases hs : p.message = "Syntax error"
  · rw [hflag hs] at hfits
    rw [if_pos hs]
    exact hfits
  · by_cases he : p.message = "Empty interpolation"
    · rw [hempty he] at hfits
      rw [if_neg hs, if_pos he]
      exact hfits
    · rw [if_neg hs, if_neg he]
      cases p with
      | syntaxError => exact absurd rfl hs
      | emptyInterpolation => exact absurd rfl he
      | _ => exact hfits

theorem mem_diagnostics {d : Diagnostic} (hd : d ∈ tree.diagnostics) :
    ∃ (i : Nat) (r : Record) (p : Problem), tree.records[i]? = some r ∧ d = tree.diagnose r p ∧ d.Fits r := by
  rw [diagnostics_eq, List.mem_append] at hd
  rcases hd with hd | hd
  · obtain ⟨n, hn, hd⟩ := List.mem_flatMap.1 hd
    obtain ⟨p, hp, rfl⟩ := List.mem_map.1 hd
    refine ⟨n.1, n.2, p, mem_nodes.1 hn, rfl, ?_⟩
    rw [problemsAt, List.mem_append] at hp
    rcases hp with hp | hp
    · exact diagnose_fits hp
    · obtain ⟨rest, hc, rfl⟩ := Frame.mem_stray hp
      exact fits_of_directive (Kind.isDirective_of_closes hc) (.inl (Problem.stray_texts rest).1)
  · obtain ⟨f, hf, rfl⟩ := List.mem_map.1 hd
    obtain ⟨-, hr, ho, -⟩ := mem_openedBefore.1 (List.mem_reverse.1 hf)
    refine ⟨f.index, f.node, _, hr, rfl, fits_of_directive (Kind.isDirective_of_opens ho) (.inr ?_)⟩
    exact (Problem.missingEnd_texts (Kind.mem_blockNames ho)).2

/-- The diagnostic is on the span of the node at `i`, both ends of which are positions of the text, and its message
fits the node. -/
def Locates (tree : SyntaxTree) (d : Diagnostic) (i : Nat) : Prop :=
  ∃ (r : Record) (start stop : Nat), tree.records[i]? = some r ∧ r.start = start ∧ r.stop = stop ∧ start ≤ stop ∧
    stop ≤ tree.text.length ∧ tree.lines.offsetAt d.range.start = some start ∧
    tree.lines.offsetAt d.range.stop = some stop ∧ d.Fits r

end SyntaxTree

/-- The reports of the walk start in document order and the reports on blocks left open follow, each start after
the one before. Every report is on the span of a node that its message fits. -/
theorem diagnostics_ordered (text : List Char) : ∃ walk unclosed,
    (SyntaxTree.parse text).diagnostics = walk ++ unclosed ∧
    (∀ d ∈ walk, d.saysUnclosed = false) ∧ (∀ d ∈ unclosed, d.saysUnclosed = true) ∧
    walk.Pairwise (fun d e => d.range.start.AtOrBefore e.range.start) ∧
    unclosed.Pairwise (fun d e => d.range.start.Before e.range.start) ∧
    ∀ d ∈ (SyntaxTree.parse text).diagnostics, ∃ i, (SyntaxTree.parse text).Locates d i := by
  refine ⟨_, _, SyntaxTree.diagnostics_eq, ?_, ?_, walk_ordered text, unclosed_ordered text, ?_⟩
  · intro d hd
    exact SyntaxTree.front_not_unclosed hd
  · intro d hd
    rw [SyntaxTree.unclosed_eq] at hd
    exact (SyntaxTree.unclosed_texts hd).2
  · intro d hd
    obtain ⟨i, r, p, hr, rfl, hfits⟩ := SyntaxTree.mem_diagnostics hd
    obtain ⟨start, stop, hstart, hstop, hle, hlen⟩ := record_span hr
    refine ⟨i, r, start, stop, hr, hstart, hstop, hle, hlen, ?_, ?_, hfits⟩
    · show (LineIndex.ofText text).offsetAt ((LineIndex.ofText text).positionAt r.start) = some start
      rw [hstart, offsetAt_positionAt (by omega)]
    · show (LineIndex.ofText text).offsetAt ((LineIndex.ofText text).positionAt r.stop) = some stop
      rw [hstop, offsetAt_positionAt hlen]

example : (SyntaxTree.parse "@if\n\x7b\x7b \x7d\x7d\n@end\n@end\n@each(x in xs)\n".toList).diagnostics.map
      (fun d => (d.range.start, d.message)) =
    [(⟨0, 0⟩, "@if directive missing condition"), (⟨1, 0⟩, "Empty interpolation"),
      (⟨3, 0⟩, "@end without matching block directive"), (⟨4, 0⟩, "@each directive missing its matching @end")] := by
  decide +kernel

end EdgeTemplate
