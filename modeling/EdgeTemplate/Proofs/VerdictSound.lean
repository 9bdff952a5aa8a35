import EdgeTemplate.Proofs.DiagnosticsMove

/-!
# What is reported depends on the items only

The problems of a node are those of its item, read apart from the document (`Item.verdicts`), and the walk over the
blocks sees only kinds. So two documents whose items have the same verdicts get the same problems in the same order
(`problems_congr`).
-/

namespace EdgeTemplate

/-! ## Walks that see the same -/

theorem Frame.stray_congr {opened opened' : List Frame} (h : opened.map (·.block) = opened'.map (·.block))
    (role : Role) : stray? opened role = stray? opened' role := by
  cases role with
  | closer =>
    have hempty := congrArg List.isEmpty h
    rw [List.isEmpty_map, List.isEmpty_map] at hempty
    rw [stray?, stray?, hempty]
  | namedCloser block =>
    have hany := congrArg (List.any · (· == block)) h
    simp only [List.any_map] at hany
    rw [stray?, stray?]
    exact congrArg (fun found : Bool => if found then none else some (Problem.strayNamedEnd block)) hany
  | _ => rfl

theorem Frame.advance_congr {opened opened' : List Frame} (h : opened.map (·.block) = opened'.map (·.block))
    (i j : Nat) (m n : Record) (role : Role) :
    (advance opened i m role).map (·.block) = (advance opened' j n role).map (·.block) := by
  cases role with
  | opener block => exact congrArg (List.cons block) h
  | closer => rw [advance, advance, List.map_tail, List.map_tail, h]
  | namedCloser block =>
    have herase : ∀ l : List Frame, (l.eraseP (·.block == block)).map (·.block) =
        (l.map (·.block)).eraseP (· == block) := by
      intro l
      rw [List.eraseP_map]
      rfl
    rw [advance, advance, herase, herase, h]
  | neutral => exact h

namespace SyntaxTree

/-- All that a walk over the blocks sees of a node. -/
def verdict (tree : SyntaxTree) (n : Nat × Record) : Kind × List Problem := (n.2.kind, tree.localProblems n.2)

theorem problems_cons (tree : SyntaxTree) (opened : List Frame) (n : Nat × Record) (l : List (Nat × Record)) :
    (tree.findingsFrom opened (n :: l)).map (·.problem) =
      tree.localProblems n.2 ++ (Frame.stray? opened (Role.ofKind n.2.kind)).toList ++
        (tree.findingsFrom (Frame.advance opened n.1 n.2 (Role.ofKind n.2.kind)) l).map (·.problem) := by
  rw [findingsFrom, List.map_append]
  refine congrArg (· ++ _) ?_
  rw [List.map_map]
  exact List.map_id _

theorem findingsFrom_congr {tree tree' : SyntaxTree} {opened opened' : List Frame} {l l' : List (Nat × Record)}
    (ho : opened.map (·.block) = opened'.map (·.block)) (hl : l.map tree.verdict = l'.map tree'.verdict) :
    (tree.findingsFrom opened l).map (·.problem) = (tree'.findingsFrom opened' l').map (·.problem) := by
  induction l generalizing opened opened' l' with
  | nil =>
    obtain rfl := List.map_eq_nil_iff.1 hl.symm
    have hmap : ∀ o : List Frame, (o.reverse.map fun f => (⟨f.index, f.node, .missingEnd f.block⟩ : Finding)).map
        (·.problem) = ((o.map (·.block)).reverse).map .missingEnd := by
      intro o
      rw [← List.map_reverse, List.map_map, List.map_map]
      rfl
    rw [findingsFrom, findingsFrom, hmap, hmap, ho]
  | cons n l ih =>
    cases l' with
    | nil => cases hl
    | cons n' l' =>
      rw [List.map_cons, List.map_cons, List.cons.injEq, verdict, verdict, Prod.mk.injEq] at hl
      obtain ⟨⟨hkind, hproblems⟩, hl⟩ := hl
      have hrest := ih (Frame.advance_congr ho n.1 n'.1 n.2 n'.2 (Role.ofKind n'.2.kind)) hl
      rw [problems_cons, problems_cons, hkind, hproblems, Frame.stray_congr ho, hrest]

end SyntaxTree

/-! ## Items apart from their document -/

def Item.tree (item : Item) : SyntaxTree := .ofForest item.lexeme (.ofItem .nil item)

def Item.verdicts (item : Item) : List (Kind × List Problem) :=
  ((Forest.ofItem .nil item).nodes (some 0) 0 1).map item.tree.verdict

section

variable {text : List Char} {before after : List Item}

theorem nodes_item {item : Item} (h : items true text = before ++ item :: after) {n : Nat × Record}
    (hn : n ∈ (Forest.ofItem .nil item).nodes (some 0) 0 1) :
    (SyntaxTree.parse text).records[n.1 + (Forest.ofItems before).size]? =
      some (n.2.shift (before.flatMap Item.lexeme).length (Forest.ofItems before).size) := by
  have hshift := (Forest.ofItem .nil item).nodes_shift (before.flatMap Item.lexeme).length (Forest.ofItems before).size
  have hm : (n.1 + (Forest.ofItems before).size,
      n.2.shift (before.flatMap Item.lexeme).length (Forest.ofItems before).size) ∈
        (Forest.ofItems (items true text)).nodes (some 0) 0 1 := by
    rw [h, Forest.ofItems_append, Forest.nodes_append, Forest.ofItems, Forest.ofItem_eq_append, Forest.nodes_append,
      width_ofItems h, Nat.zero_add, hshift]
    exact List.mem_append_right _ (List.mem_append_left _ (List.mem_map.2 ⟨n, hn, rfl⟩))
  exact record_of_node hm

theorem embeds_item {item : Item} (h : items true text = before ++ item :: after) :
    (SyntaxTree.parse text).Embeds item.tree (before.flatMap Item.lexeme).length (Forest.ofItems before).size := by
  have htext : text = before.flatMap Item.lexeme ++ (item.lexeme ++ after.flatMap Item.lexeme) := by
    rw [← items_append true text, h]
    simp
  refine ⟨ofForest_rooted ?_ ?_, ⟨_, _, htext, rfl⟩, ?_⟩
  · obtain ⟨ls, suf, rest, -, hread, -⟩ := items_read (boundary_start text) h
    exact Forest.width_ofItem hread
  · intro n hn
    have hspan := span_nonempty (nodes_item h hn) (by have := (Forest.node_index hn).1; omega)
    exact Int.lt_of_add_lt_add_right hspan
  · intro i r hi hr
    exact nodes_item h (mem_ofForest hr hi)

theorem verdicts_item {item : Item} (h : items true text = before ++ item :: after) :
    ((Forest.ofItem .nil item).nodes (some 0) (before.flatMap Item.lexeme).length
      (1 + (Forest.ofItems before).size)).map (SyntaxTree.parse text).verdict = item.verdicts := by
  rw [Forest.nodes_shift, List.map_map, Item.verdicts]
  refine List.map_congr_left fun n hn => ?_
  have hindex : n.1 ≠ 0 := by
    have := (Forest.node_index hn).1
    omega
  have hlocal := (embeds_item h).localProblems_shift hindex (getElem?_ofForest hn)
  exact congrArg (Prod.mk n.2.kind) hlocal

theorem verdicts_items (h : items true text = before ++ after) :
    ((Forest.ofItems after).nodes (some 0) (before.flatMap Item.lexeme).length
      (1 + (Forest.ofItems before).size)).map (SyntaxTree.parse text).verdict = after.flatMap Item.verdicts := by
  induction after generalizing before with
  | nil => rfl
  | cons item after ih =>
    have hnext : items true text = (before ++ [item]) ++ after := by
      rw [h, List.append_assoc]
      rfl
    have hlast : Forest.ofItems (before ++ [item]) = (Forest.ofItems before).append (.ofItem .nil item) :=
      Forest.ofItems_append before [item]
    have hwidth := width_ofItems hnext
    have hsize := congrArg Forest.size hlast
    rw [hlast, Forest.width_append, width_ofItems h] at hwidth
    rw [Forest.size_append] at hsize
    have hrest := ih hnext
    rw [← hwidth, hsize, ← Nat.add_assoc] at hrest
    rw [Forest.ofItems, Forest.ofItem_eq_append, Forest.nodes_append, List.map_append, verdicts_item h, hrest,
      List.flatMap_cons]

end

/-- Documents get the same problems if their items have the same verdicts and both or none have errors. -/
theorem problems_congr {text text' : List Char}
    (hverdicts : (items true text).flatMap Item.verdicts = (items true text').flatMap Item.verdicts)
    (herror : (Forest.ofItems (items true text)).hasError = (Forest.ofItems (items true text')).hasError) :
    (SyntaxTree.parse text).findings.map (·.problem) = (SyntaxTree.parse text').findings.map (·.problem) := by
  have hwalk := @SyntaxTree.findingsFrom_congr (.parse text) (.parse text') [] []
    ((Forest.ofItems (items true text)).nodes (some 0) 0 1) ((Forest.ofItems (items true text')).nodes (some 0) 0 1) rfl
    ((@verdicts_items text [] _ rfl).trans (hverdicts.trans (@verdicts_items text' [] _ rfl).symm))
  rw [parse_findings, parse_findings, List.map_append, List.map_append, hwalk, herror]
  congr 1
  cases (Forest.ofItems (items true text')).hasError with
  | true => rfl
  | false => rfl

end EdgeTemplate
