import EdgeTemplate.Proofs.DiagnosticsOrder

/-!
# Names of entities

The first string of a component, slot, section or block names it. A name that is not a letter followed by the allowed
characters is reported once, on the directive; a line end behind the name is not seen (`entity_name_reported`). That a
report is made once on the whole text rests on the order of the reports: no two directives start together.
-/

namespace EdgeTemplate

/-! ## Well-formed names -/

def entityNames : List String := ["component", "slot", "section", "block"]

def IsLetter (c : Char) : Prop := 'A' ≤ c ∧ c ≤ 'Z' ∨ 'a' ≤ c ∧ c ≤ 'z'

/-- What may follow the first letter of a name; only components have dots. -/
def IsNamePart (entity : String) (c : Char) : Prop :=
  IsLetter c ∨ '0' ≤ c ∧ c ≤ '9' ∨ c = '_' ∨ c = '-' ∨ entity = "component" ∧ c = '.'

def WellNamed (entity : String) : List Char → Prop
  | [] => False
  | c :: cs => IsLetter c ∧ ∀ d ∈ cs, IsNamePart entity d

/-- The name is well-formed, or it is so up to one line end behind it. -/
def LetThrough (entity : String) (name : List Char) : Prop :=
  WellNamed entity name ∨ ∃ front, name = front ++ ['\n'] ∧ WellNamed entity front

theorem isAlpha_iff {c : Char} : c.isAlpha = true ↔ IsLetter c := by
  have hranges : c.isAlpha = (decide ('A' ≤ c ∧ c ≤ 'Z') || decide ('a' ≤ c) && decide (c ≤ 'z')) := rfl
  rw [hranges]
  simp only [Bool.or_eq_true, Bool.and_eq_true, decide_eq_true_eq, IsLetter]

theorem isDigit_iff {c : Char} : c.isDigit = true ↔ '0' ≤ c ∧ c ≤ '9' := by
  rw [Char.isDigit, Bool.and_eq_true, decide_eq_true_eq, decide_eq_true_eq]
  rfl

theorem isSlotNameChar_iff {c : Char} :
    isSlotNameChar c = true ↔ IsLetter c ∨ '0' ≤ c ∧ c ≤ '9' ∨ c = '_' ∨ c = '-' := by
  rw [isSlotNameChar, Char.isAlphanum]
  simp only [Bool.or_eq_true, isAlpha_iff, isDigit_iff, beq_iff_eq, or_assoc]

theorem entityNameChar_iff {entity : String} (h : entity ∈ entityNames) :
    ∃ allowed, entityNameChar? entity = some allowed ∧ ∀ c, allowed c = true ↔ IsNamePart entity c := by
  by_cases hc : entity = "component"
  · refine ⟨isComponentNameChar, if_pos hc, fun c => ?_⟩
    simp only [isComponentNameChar, IsNamePart, Bool.or_eq_true, isSlotNameChar_iff, beq_iff_eq, hc, true_and, or_assoc]
  · have hm : entity ∈ ["slot", "section", "block"] := (List.mem_cons.1 h).resolve_left hc
    refine ⟨isSlotNameChar, by rw [entityNameChar?, if_neg hc, if_pos hm], fun c => ?_⟩
    simp only [IsNamePart, isSlotNameChar_iff, hc, false_and, or_false]

theorem not_wellNamed_newline (entity : String) (front : List Char) : ¬WellNamed entity (front ++ ['\n']) := by
  have hletter : ¬IsLetter '\n' := by
    unfold IsLetter
    decide
  have hpart : ¬IsNamePart entity '\n' := by
    rintro (h | h | h | h | h)
    · exact hletter h
    · revert h
      decide
    · cases h
    · cases h
    · cases h.2
  intro h
  cases front with
  | nil => exact hletter h.1
  | cons c front => exact hpart (h.2 '\n' (List.mem_append_right _ List.mem_cons_self))

theorem isEntityName_iff {entity : String} {allowed : Char → Bool} (h : ∀ c, allowed c = true ↔ IsNamePart entity c)
    (name : List Char) : isEntityName allowed name = true ↔ LetThrough entity name := by
  have hform : isEntityName allowed name = true ↔
      WellNamed entity (if name.getLast? == some '\n' then name.dropLast else name) := by
    unfold isEntityName
    generalize (if name.getLast? == some '\n' then name.dropLast else name) = trimmed
    cases trimmed with
    | nil => simp [WellNamed]
    | cons c cs => simp only [WellNamed, Bool.and_eq_true, isAlpha_iff, List.all_eq_true, h]
  rw [hform, LetThrough]
  by_cases hlast : name.getLast? = some '\n'
  · obtain ⟨front, rfl⟩ := List.getLast?_eq_some_iff.1 hlast
    rw [hlast, if_pos (beq_self_eq_true _), List.dropLast_concat]
    constructor
    · intro hw
      exact .inr ⟨front, rfl, hw⟩
    · rintro (hw | ⟨front', he, hw⟩)
      · exact absurd hw (not_wellNamed_newline entity front)
      · rwa [(List.append_inj' he rfl).1]
  · rw [if_neg fun he => hlast (beq_iff_eq.1 he)]
    constructor
    · exact .inl
    · rintro (hw | ⟨front, rfl, -⟩)
      · exact hw
      · exact absurd List.getLast?_concat hlast

/-! ## One report for each name -/

theorem Position.not_before_self (p : Position) : ¬p.Before p := by
  unfold Before
  omega

theorem Problem.ofNode_entityName : ∀ entity ∈ entityNames, ∀ p ∈ ofNode,
    p.message = (entityName entity).message → p = .entityName entity := by
  decide +kernel

theorem Problem.entityName_mem : ∀ entity ∈ entityNames, entityName entity ∈ ofNode := by decide

theorem entityOf_eq : ∀ entity ∈ entityNames, entityOf entity = entity ∧ entityOf ("inline_" ++ entity) = entity := by
  decide +kernel

namespace SyntaxTree

variable {tree : SyntaxTree} {node : Record} {name entity : String}

theorem entityProblem_eq (he : entity ∈ entityNames) (hname : entityOf name = entity) {value : List Char}
    (hv : tree.firstString? node = some value) :
    LetThrough entity value ∧ tree.entityProblem? node name = none ∨
      ¬LetThrough entity value ∧ tree.entityProblem? node name = some (.entityName entity) := by
  obtain ⟨allowed, hallowed, hpart⟩ := entityNameChar_iff he
  have hcheck := isEntityName_iff hpart value
  simp only [entityProblem?, hname, hallowed, hv]
  by_cases hok : isEntityName allowed value = true
  · exact .inl ⟨hcheck.1 hok, by simp [hok]⟩
  · exact .inr ⟨fun h => hok (hcheck.2 h), by simp [hok]⟩

theorem saysUnclosed_diagnose (tree : SyntaxTree) (node : Record) {p : Problem} (hp : p ∈ Problem.ofNode) :
    (tree.diagnose node p).saysUnclosed = false := (Problem.ofNode_texts p hp).2

/-- Of the checks of a directive, only that of its name reports a name. -/
theorem count_entityName (hk : node.kind = .directive name) :
    (tree.localProblems node).count (.entityName entity) =
      (tree.entityProblem? node name).toList.count (.entityName entity) := by
  have hif : ∀ {c : Prop} [Decidable c] {q : Problem}, q ≠ .entityName entity →
      ((if c then some q else none) : Option Problem).toList.count (.entityName entity) = 0 := by
    intro c _ q hq
    split
    · exact List.count_eq_zero.2 fun hm => hq (List.mem_singleton.1 hm).symm
    · rfl
  have hcondition : (tree.conditionProblem? node name).toList.count (.entityName entity) = 0 := hif (by simp)
  have hloop : (tree.loopProblem? node name).toList.count (.entityName entity) = 0 := hif (by simp)
  have hinclude : (tree.includeProblem? node name).toList.count (.entityName entity) = 0 := hif (by simp)
  have herror : (if node.hasError then [Problem.syntaxError] else []).count (.entityName entity) = 0 := by
    split
    · rfl
    · rfl
  have hlist : ∀ a b c d : Option Problem,
      [a, b, c, d].filterMap id = a.toList ++ (b.toList ++ (c.toList ++ d.toList)) := by
    intro a b c d
    cases a <;> cases b <;> cases c <;> cases d <;> rfl
  rw [localProblems, hk]
  simp only [List.count_append, herror, hlist, hcondition, hloop, hinclude, Nat.zero_add, Nat.add_zero]

theorem entityName_of_message (he : entity ∈ entityNames) {n : Nat × Record} {p : Problem} (hp : p ∈ tree.problemsAt n)
    (hm : p.message = (Problem.entityName entity).message) : p ∈ tree.localProblems n.2 ∧ p = .entityName entity := by
  rw [problemsAt, List.mem_append] at hp
  rcases hp with hp | hp
  · exact ⟨hp, Problem.ofNode_entityName entity he p (localProblems_mem hp) hm⟩
  · obtain ⟨rest, -, rfl⟩ := Frame.mem_stray hp
    have hstray := (Problem.stray_texts rest).1
    rw [hm, (Problem.ofNode_texts _ (Problem.entityName_mem entity he)).1] at hstray
    cases hstray

theorem count_own (he : entity ∈ entityNames) (n : Nat × Record) :
    ((tree.problemsAt n).map (tree.diagnose n.2)).count (tree.diagnose n.2 (.entityName entity)) =
      (tree.localProblems n.2).count (.entityName entity) := by
  have hsame : ∀ p ∈ tree.problemsAt n,
      (tree.diagnose n.2 p == tree.diagnose n.2 (.entityName entity)) = true ↔ (p == .entityName entity) = true := by
    intro p hp
    rw [beq_iff_eq, beq_iff_eq]
    constructor
    · intro heq
      exact (entityName_of_message he hp (congrArg Diagnostic.message heq)).2
    · rintro rfl
      rfl
  have hstray : (Frame.stray? (tree.openedBefore n.1) (Role.ofKind n.2.kind)).toList.count
      (.entityName entity) = 0 := by
    rw [List.count_eq_zero]
    intro hm
    obtain ⟨rest, -, hs⟩ := Frame.mem_stray hm
    rw [Problem.stray] at hs
    split at hs
    · cases hs
    · cases hs
  rw [List.count, List.countP_map, Function.comp_def, List.countP_congr hsame, problemsAt]
  exact (List.count_append ..).trans (by rw [hstray, Nat.add_zero])

end SyntaxTree

section

variable {text : List Char} {i : Nat} {r : Record} {name entity : String}
  (hr : (SyntaxTree.parse text).records[i]? = some r) (hk : r.kind = .directive name) (he : entity ∈ entityNames)
include hr hk he

/-- The report on a name is found among the reports on its directive and nowhere else. -/
theorem entityName_elsewhere {n : Nat × Record} (hn : n ∈ (SyntaxTree.parse text).nodes) (hne : n.1 ≠ i) :
    (SyntaxTree.parse text).diagnose r (.entityName entity) ∉
      ((SyntaxTree.parse text).problemsAt n).map ((SyntaxTree.parse text).diagnose n.2) := by
  intro hm
  obtain ⟨p, hp, heq⟩ := List.mem_map.1 hm
  obtain ⟨hlocal, rfl⟩ := SyntaxTree.entityName_of_message he hp (congrArg Diagnostic.message heq)
  have hn := SyntaxTree.mem_nodes.1 hn
  have hitem : r.kind.isItem = true := by rw [hk]; rfl
  have hitem' : n.2.kind.isItem = true := Kind.isItem_of_isDirective (SyntaxTree.fits_of_local hlocal)
  have hstart := congrArg (fun d : Diagnostic => d.range.start) heq
  rcases Nat.lt_or_gt_of_ne hne with hlt | hlt
  · have hstarts := item_start_lt hn hr hitem' hitem hlt
    have hbefore := diagnose_before hn hr (.entityName entity) (.entityName entity) hstarts
    rw [hstart] at hbefore
    exact Position.not_before_self _ hbefore
  · have hstarts := item_start_lt hr hn hitem hitem' hlt
    have hbefore := diagnose_before hr hn (.entityName entity) (.entityName entity) hstarts
    rw [hstart] at hbefore
    exact Position.not_before_self _ hbefore

theorem count_diagnostics : (SyntaxTree.parse text).diagnostics.count
      ((SyntaxTree.parse text).diagnose r (.entityName entity)) =
    ((SyntaxTree.parse text).localProblems r).count (.entityName entity) := by
  have hunclosed : (SyntaxTree.parse text).diagnose r (.entityName entity) ∉
      (SyntaxTree.parse text).unclosedErrors (SyntaxTree.parse text).partner? := by
    intro hm
    have htext := (SyntaxTree.unclosed_texts hm).2
    rw [SyntaxTree.saysUnclosed_diagnose _ _ (Problem.entityName_mem entity he)] at htext
    cases htext
  -- the directive splits the nodes, and on neither side there is one with its index
  obtain ⟨before, after, hsplit⟩ := List.append_of_mem (SyntaxTree.mem_nodes.2 hr)
  have hascend := SyntaxTree.nodes_ascend (parse_nodes text)
  rw [hsplit, List.pairwise_append, List.pairwise_cons] at hascend
  obtain ⟨-, ⟨hafter, -⟩, hbefore⟩ := hascend
  have hnone : ∀ l : List (Nat × Record), (∀ n ∈ l, n ∈ (SyntaxTree.parse text).nodes ∧ n.1 ≠ i) →
      (l.flatMap fun n => ((SyntaxTree.parse text).problemsAt n).map ((SyntaxTree.parse text).diagnose n.2)).count
        ((SyntaxTree.parse text).diagnose r (.entityName entity)) = 0 := by
    intro l hl
    rw [List.count_eq_zero]
    intro hm
    obtain ⟨n, hn, hm⟩ := List.mem_flatMap.1 hm
    exact entityName_elsewhere hr hk he (hl n hn).1 (hl n hn).2 hm
  have hfirst := hnone before fun n hn => ⟨by simp [hsplit, hn], Nat.ne_of_lt (hbefore n hn _ List.mem_cons_self)⟩
  have hlast := hnone after fun n hn => ⟨by simp [hsplit, hn], Nat.ne_of_gt (hafter n hn)⟩
  rw [SyntaxTree.diagnostics_eq, SyntaxTree.unclosed_eq, List.count_append, List.count_eq_zero.2 hunclosed,
    Nat.add_zero, hsplit, List.flatMap_append, List.flatMap_cons, List.count_append, List.count_append, hfirst, hlast,
    Nat.zero_add, Nat.add_zero]
  exact SyntaxTree.count_own he (i, r)

end

/-- A directive that names an entity is reported once if the name is not well-formed, and is not reported if it is; but
a line end behind the name makes no difference. -/
theorem entity_name_reported {text value : List Char} {i : Nat} {r : Record} {name entity : String}
    (he : entity ∈ entityNames) (hname : name = entity ∨ name = "inline_" ++ entity)
    (hr : (SyntaxTree.parse text).records[i]? = some r) (hk : r.kind = .directive name)
    (hv : (SyntaxTree.parse text).firstString? r = some value) :
    ((SyntaxTree.parse text).diagnostics.count ((SyntaxTree.parse text).diagnose r (.entityName entity)) = 1 ↔
      ¬LetThrough entity value) ∧
    ((SyntaxTree.parse text).diagnostics.count ((SyntaxTree.parse text).diagnose r (.entityName entity)) = 0 ↔
      LetThrough entity value) := by
  have hof : entityOf name = entity := by
    rcases hname with rfl | rfl
    · exact (entityOf_eq _ he).1
    · exact (entityOf_eq _ he).2
  rw [count_diagnostics hr hk he, SyntaxTree.count_entityName hk]
  rcases SyntaxTree.entityProblem_eq he hof hv with ⟨hlet, hnone⟩ | ⟨hlet, hsome⟩
  · simp [hnone, hlet]
  · simp [hsome, hlet]

/-- A self-closing slot with a dot in its name. -/
theorem entity_name_reported_dot :
    let tree := SyntaxTree.parse "@!slot('main.body')".toList
    ∃ r, (tree.records[1]? = some r ∧ r.kind = .directive "inline_slot" ∧
        tree.firstString? r = some "main.body".toList) ∧
      (tree.diagnostics.count (tree.diagnose r (.entityName "slot")) = 1 ↔ ¬LetThrough "slot" "main.body".toList) ∧
      (tree.diagnostics.count (tree.diagnose r (.entityName "slot")) = 0 ↔ LetThrough "slot" "main.body".toList) := by
  intro tree
  have hnode : tree.records[1]?.any (fun r => r.kind == .directive "inline_slot" &&
      tree.firstString? r == some "main.body".toList) = true := by decide +kernel
  obtain ⟨r, hr, hcheck⟩ := (Option.any_eq_true _ _).1 hnode
  rw [Bool.and_eq_true, beq_iff_eq, beq_iff_eq] at hcheck
  exact ⟨r, ⟨hr, hcheck.1, hcheck.2⟩, entity_name_reported (by decide) (.inr rfl) hr hcheck.1 hcheck.2⟩

/-- The name of a component that ends its line is not well-formed, and nothing is reported. -/
theorem entity_name_line_end :
    let tree := SyntaxTree.parse "@component(`card\n`)\n@end".toList
    ∃ r, tree.records[1]? = some r ∧ r.kind = .directive "component" ∧ tree.firstString? r = some "card\n".toList ∧
      ¬WellNamed "component" "card\n".toList ∧ tree.diagnostics = [] := by
  intro tree
  have hnode : tree.records[1]?.any (fun r => r.kind == .directive "component" &&
      tree.firstString? r == some "card\n".toList) = true := by decide +kernel
  obtain ⟨r, hr, hcheck⟩ := (Option.any_eq_true _ _).1 hnode
  rw [Bool.and_eq_true, beq_iff_eq, beq_iff_eq] at hcheck
  exact ⟨r, hr, hcheck.1, hcheck.2, not_wellNamed_newline "component" "card".toList, by decide +kernel⟩

end EdgeTemplate
