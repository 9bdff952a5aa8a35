import EdgeTemplate.Cursor
import EdgeTemplate.Proofs.KindSound
import EdgeTemplate.Proofs.NodeAtSound

/-!
# Contexts from spans

The path from the deepest node at a place to the document holds the nodes over that place
(`SyntaxTree.Innermost.mem_path`). A string has nothing below it, so it comes first on the path, and only one top-level
node is over a place. So the first hit on the path is what the spans say (`classify_surrounds`), and no two contexts are
said at once (`surrounds_unique`).
-/

namespace EdgeTemplate

namespace SyntaxTree

/-- A node of such a kind is over the place. -/
def Inside (tree : SyntaxTree) (p : Kind → Bool) (offset : Nat) : Prop :=
  ∃ r ∈ tree.records, p r.kind = true ∧ r.Covers offset

/-- The context that the nodes over a place give to it. -/
inductive Surrounds (tree : SyntaxTree) (offset : Nat) : Context → Prop
  | interpolation : tree.Inside Kind.isInterpolation offset → Surrounds tree offset .interpolation
  | stringLiteral : tree.Inside (· == .string) offset → Surrounds tree offset .stringLiteral
  | directive : tree.Inside Kind.isDirective offset → ¬tree.Inside (· == .string) offset →
      Surrounds tree offset .directive
  | plainText : ¬tree.Inside Kind.isInterpolation offset → ¬tree.Inside (· == .string) offset →
      ¬tree.Inside Kind.isDirective offset → Surrounds tree offset .plainText

/-! ## The path -/

section

variable {tree : SyntaxTree} {f : Forest} (h : tree.nodes = f.nodes none 0 0) {n : Nat} {r s : Record} {offset : Nat}
include h

theorem path_listed (hn : tree.records[n]? = some r) :
    tree.path n = r :: (tree.ancestors r).filterMap (tree.records[·]?) := by
  have hlt := (Array.getElem?_eq_some_iff.1 hn).1
  obtain ⟨k, hk⟩ : ∃ k, tree.records.size = k + 1 := ⟨tree.records.size - 1, by omega⟩
  rw [path, ancestors, hk, chain, hn, Option.bind_some, List.filterMap_cons_some hn]
  congr 2
  cases hp : r.parent with
  | none => cases k <;> rfl
  | some p =>
    have hlt' := (parent_listed h hn hp).1
    rw [chain_listed h (show p < k by omega), chain_listed h (show p < k + 1 by omega)]

theorem Innermost.mem_path (hn : tree.Innermost offset n r)
    (hroot : ∀ j s, tree.records[j]? = some s → s.parent = none → j = 0) :
    s ∈ tree.path n ↔ s ∈ tree.records ∧ s.Covers offset := by
  rw [path_listed h hn.listed, List.mem_cons, List.mem_filterMap]
  constructor
  · rintro (rfl | ⟨i, hi, hs⟩)
    · exact ⟨Array.mem_of_getElem? hn.listed, hn.covers⟩
    · exact ⟨Array.mem_of_getElem? hs, (hn.covers_iff h hroot hs).2 (.inr hi)⟩
  · intro ⟨hs, hc⟩
    obtain ⟨i, hi⟩ := Array.mem_iff_getElem?.1 hs
    rcases hn.around h hroot hi hc with rfl | hmem
    · rw [hn.listed] at hi
      exact .inl (Option.some.inj hi).symm
    · exact .inr ⟨i, hmem, hi⟩

end

theorem classify?_of_path {tree : SyntaxTree} {position : Position} {n : Nat} {r : Record}
    (hn : tree.nodeAt? position = some n) (hr : tree.records[n]? = some r) :
    tree.classify? position =
      if (tree.path n).any (·.isError) then none
      else some ⟨((tree.path n).findSome? fun r => Context.ofKind? r.kind).getD .plainText, some (n, r.kind)⟩ := by
  rw [classify?, hn, Option.bind_eq_bind, Option.bind_some, hr, Option.bind_eq_bind, Option.bind_some]
  show (guard ((!(tree.path n).any (·.isError)) = true) >>= fun _ => some _) = _
  cases (tree.path n).any (·.isError) <;> rfl

end SyntaxTree

namespace Context

theorem ofKind?_eq_some {k : Kind} {c : Context} (h : ofKind? k = some c) :
    k.isInterpolation = true ∧ c = .interpolation ∨ k.isDirective = true ∧ c = .directive ∨
      k = .string ∧ c = .stringLiteral := by
  cases k <;> simp_all [ofKind?, Kind.isInterpolation, Kind.isDirective, eq_comm]

theorem ofKind?_eq_none {k : Kind} (h : ofKind? k = none) :
    k.isInterpolation = false ∧ k.isDirective = false ∧ k ≠ .string := by
  cases k <;> simp_all [ofKind?, Kind.isInterpolation, Kind.isDirective]

end Context

/-! ## Nodes over one place -/

section

variable {text : List Char} {offset : Nat}

/-- What belongs to an argument list lies in a directive. -/
theorem directive_over_argument {j : Nat} {s : Record} (hj : (SyntaxTree.parse text).records[j]? = some s)
    (hk : s.kind.isArgument = true ∨ s.kind = .arguments) (hc : s.Covers offset) :
    (SyntaxTree.parse text).Inside Kind.isDirective offset := by
  have h := parse_nodes text
  induction j, s, hj using SyntaxTree.parent_induction h with
  | root j s hj hp =>
    obtain rfl := root_of_parent hj hp
    rw [(root_record hj).1] at hk
    simp [Kind.isArgument] at hk
  | below j s p r hj hr hp ih =>
    have hholds := kind_of_child hj hp hr
    have hcr := SyntaxTree.covers_parent h hj hp hr hc
    rcases hk with hk | hk
    · have hlist := Kind.isList_of_holds hholds hk
      refine ih ?_ hcr
      cases hrk : r.kind <;> simp_all [Kind.isList, Kind.isArgument]
    · rw [hk] at hholds
      exact ⟨r, Array.mem_of_getElem? hr, Kind.isDirective_of_holds hholds, hcr⟩

theorem inside_directive_of_string (h : (SyntaxTree.parse text).Inside (· == .string) offset) :
    (SyntaxTree.parse text).Inside Kind.isDirective offset := by
  obtain ⟨s, hs, hk, hc⟩ := h
  obtain ⟨j, hj⟩ := Array.mem_iff_getElem?.1 hs
  refine directive_over_argument hj (.inl ?_) hc
  rw [beq_iff_eq.1 hk]
  rfl

/-- Only one top-level node is over a place. -/
theorem item_unique {a b : Record} (ha : a ∈ (SyntaxTree.parse text).records) (hb : b ∈ (SyntaxTree.parse text).records)
    (hka : a.kind.isItem = true) (hkb : b.kind.isItem = true) (hca : a.Covers offset) (hcb : b.Covers offset) :
    a = b := by
  obtain ⟨i, hi⟩ := Array.mem_iff_getElem?.1 ha
  obtain ⟨j, hj⟩ := Array.mem_iff_getElem?.1 hb
  have := SyntaxTree.sibling_unique (parse_nodes text) hi hj (parent_of_isItem hi hka) (parent_of_isItem hj hkb) hca hcb
  rw [this, hj] at hi
  exact (Option.some.inj hi).symm

/-- All that is over a place of a top-level node, the document apart, is the node or lies in it. -/
theorem no_error_of_item {i : Nat} {r : Record} (hr : (SyntaxTree.parse text).records[i]? = some r)
    (hk : r.kind.isItem = true) (hc : r.Covers offset) (he : r.hasError = false) :
    ¬∃ s ∈ (SyntaxTree.parse text).records, s.isError = true ∧ s.Covers offset := by
  intro ⟨s, hs, hse, hsc⟩
  have h := parse_nodes text
  obtain ⟨j, hj⟩ := Array.mem_iff_getElem?.1 hs
  have hroot := SyntaxTree.root_mem_ancestors h (fun _ _ => root_of_parent) hj (ne_zero_of_error hj hse)
  obtain ⟨c, t, ht, hp, hjc⟩ := SyntaxTree.ancestor_child h hj hroot
  have htc : t.Covers offset := by
    rcases hjc with rfl | hjc
    · rw [hj] at ht
      cases ht
      exact hsc
    · obtain ⟨t', ht', htc⟩ := SyntaxTree.covers_ancestor h hj hsc c hjc
      rw [ht] at ht'
      cases ht'
      exact htc
  obtain rfl := SyntaxTree.sibling_unique h ht hr hp (parent_of_isItem hr hk) htc hc
  have hbelow : c ≤ j ∧ (j : Int) < r.subtreeEnd := by
    rcases hjc with rfl | hjc
    · exact ⟨Nat.le_refl c, (SyntaxTree.range_listed h hr).1⟩
    · have hin := (SyntaxTree.mem_ancestors h hr hj).1 hjc
      exact ⟨Nat.le_of_lt hin.1, hin.2⟩
  have herr := (SyntaxTree.hasError_listed h hr).2 ⟨j, s, hj, hbelow.1, hbelow.2, hse⟩
  rw [he] at herr
  cases herr

theorem not_inside_directive (h : (SyntaxTree.parse text).Inside Kind.isInterpolation offset) :
    ¬(SyntaxTree.parse text).Inside Kind.isDirective offset := by
  intro ⟨d, hd, hkd, hcd⟩
  obtain ⟨r, hr, hkr, hcr⟩ := h
  obtain rfl := item_unique hr hd (Kind.isItem_of_isInterpolation hkr) (Kind.isItem_of_isDirective hkd) hcr hcd
  cases hk : r.kind <;> simp_all [Kind.isInterpolation, Kind.isDirective]

theorem not_inside_string (h : (SyntaxTree.parse text).Inside Kind.isInterpolation offset) :
    ¬(SyntaxTree.parse text).Inside (· == .string) offset :=
  fun hs => not_inside_directive h (inside_directive_of_string hs)

theorem surrounds_unique {c c' : Context} (h : (SyntaxTree.parse text).Surrounds offset c)
    (h' : (SyntaxTree.parse text).Surrounds offset c') : c = c' := by
  cases h with
  | interpolation hi =>
    cases h' with
    | interpolation => rfl
    | stringLiteral hs => exact absurd hs (not_inside_string hi)
    | directive hd _ => exact absurd hd (not_inside_directive hi)
    | plainText hi' _ _ => exact absurd hi hi'
  | stringLiteral hs =>
    cases h' with
    | interpolation hi => exact absurd hs (not_inside_string hi)
    | stringLiteral => rfl
    | directive _ hs' => exact absurd hs hs'
    | plainText _ hs' _ => exact absurd hs hs'
  | directive hd hs =>
    cases h' with
    | interpolation hi => exact absurd hd (not_inside_directive hi)
    | stringLiteral hs' => exact absurd hs' hs
    | directive => rfl
    | plainText _ _ hd' => exact absurd hd hd'
  | plainText hi hs hd =>
    cases h' with
    | interpolation hi' => exact absurd hi' hi
    | stringLiteral hs' => exact absurd hs' hs
    | directive hd' _ => exact absurd hd' hd
    | plainText => rfl

/-! ## What the path says -/

theorem nodeAt_innermost {position : Position} (ho : (SyntaxTree.parse text).lines.offsetAt position = some offset)
    (hlt : offset < text.length) : ∃ n r, (SyntaxTree.parse text).nodeAt? position = some n ∧
      (SyntaxTree.parse text).Innermost offset n r := by
  obtain ⟨root, hr, -, -, hstart, hstop⟩ := parse_root text
  have hc : root.Covers offset := ⟨by omega, by omega⟩
  obtain ⟨r, hn⟩ := SyntaxTree.descend_innermost (parse_nodes text) hlt (Nat.le_add_left _ 0) hr hc
  exact ⟨_, r, by rw [SyntaxTree.nodeAt?, ho, Option.map_some], hn⟩

variable {n : Nat} {r : Record} (hn : (SyntaxTree.parse text).Innermost offset n r)
include hn

theorem mem_path {s : Record} :
    s ∈ (SyntaxTree.parse text).path n ↔ s ∈ (SyntaxTree.parse text).records ∧ s.Covers offset :=
  hn.mem_path (parse_nodes text) fun _ _ => root_of_parent

/-- A leaf over the place is the deepest node. -/
theorem innermost_of_isLeaf {i : Nat} {s : Record} (hi : (SyntaxTree.parse text).records[i]? = some s)
    (hl : s.kind.isLeaf = true) (hc : s.Covers offset) : i = n := by
  rcases hn.around (parse_nodes text) (fun _ _ => root_of_parent) hi hc with rfl | hmem
  · rfl
  · obtain ⟨c, t, ht, hp, -⟩ := SyntaxTree.ancestor_child (parse_nodes text) hn.listed hmem
    exact absurd hp (no_child_of_isLeaf hi hl ht)

theorem surrounds_path : (SyntaxTree.parse text).Surrounds offset
    ((((SyntaxTree.parse text).path n).findSome? fun r => Context.ofKind? r.kind).getD .plainText) := by
  by_cases hs : (SyntaxTree.parse text).Inside (· == .string) offset
  · obtain ⟨s, hm, hk, hc⟩ := id hs
    obtain ⟨i, hi⟩ := Array.mem_iff_getElem?.1 hm
    have hk := beq_iff_eq.1 hk
    obtain rfl := innermost_of_isLeaf hn hi (by rw [hk]; rfl) hc
    rw [SyntaxTree.path_listed (parse_nodes text) hi, List.findSome?_cons, hk]
    exact .stringLiteral hs
  · cases hf : ((SyntaxTree.parse text).path n).findSome? fun r => Context.ofKind? r.kind with
    | some c =>
      obtain ⟨s, hm, hc⟩ := List.exists_of_findSome?_eq_some hf
      obtain ⟨hmem, hcov⟩ := (mem_path hn).1 hm
      rcases Context.ofKind?_eq_some hc with ⟨hk, rfl⟩ | ⟨hk, rfl⟩ | ⟨hk, rfl⟩
      · exact .interpolation ⟨s, hmem, hk, hcov⟩
      · exact .directive ⟨s, hmem, hk, hcov⟩ hs
      · exact absurd ⟨s, hmem, beq_iff_eq.2 hk, hcov⟩ hs
    | none =>
      have hnone : ∀ s ∈ (SyntaxTree.parse text).records, s.Covers offset → Context.ofKind? s.kind = none :=
        fun s hm hc => List.findSome?_eq_none_iff.1 hf s ((mem_path hn).2 ⟨hm, hc⟩)
      refine .plainText ?_ hs ?_
      · intro ⟨s, hm, hk, hc⟩
        rw [(Context.ofKind?_eq_none (hnone s hm hc)).1] at hk
        cases hk
      · intro ⟨s, hm, hk, hc⟩
        rw [(Context.ofKind?_eq_none (hnone s hm hc)).2.1] at hk
        cases hk

end

/-! ## Classification -/

section

variable {text : List Char} {offset : Nat} {position : Position}
  (ho : (SyntaxTree.parse text).lines.offsetAt position = some offset) (hlt : offset < text.length)
include ho hlt

theorem classify_error (he : ∃ r ∈ (SyntaxTree.parse text).records, r.isError = true ∧ r.Covers offset) :
    classify (some (SyntaxTree.parse text)) text position = ⟨.atPosition text position, none⟩ := by
  obtain ⟨n, r, hat, hn⟩ := nodeAt_innermost ho hlt
  obtain ⟨s, hm, herr, hc⟩ := he
  have hany : ((SyntaxTree.parse text).path n).any (·.isError) = true :=
    List.any_eq_true.2 ⟨s, (mem_path hn).2 ⟨hm, hc⟩, herr⟩
  rw [classify, Option.bind_some, SyntaxTree.classify?_of_path hat hn.listed, if_pos hany, Option.getD_none]

theorem classify_surrounds (he : ¬∃ r ∈ (SyntaxTree.parse text).records, r.isError = true ∧ r.Covers offset) :
    ∃ c node, classify (some (SyntaxTree.parse text)) text position = ⟨c, some node⟩ ∧
      (SyntaxTree.parse text).Surrounds offset c := by
  obtain ⟨n, r, hat, hn⟩ := nodeAt_innermost ho hlt
  have hany : ¬((SyntaxTree.parse text).path n).any (·.isError) = true := by
    intro hany
    obtain ⟨s, hm, herr⟩ := List.any_eq_true.1 hany
    obtain ⟨hmem, hc⟩ := (mem_path hn).1 hm
    exact he ⟨s, hmem, herr, hc⟩
  refine ⟨_, (n, r.kind), ?_, surrounds_path hn⟩
  rw [classify, Option.bind_some, SyntaxTree.classify?_of_path hat hn.listed, if_neg hany, Option.getD_some]

/-- Where no error is over the place, the classification is the context that the spans give. -/
theorem classify_eq (he : ¬∃ r ∈ (SyntaxTree.parse text).records, r.isError = true ∧ r.Covers offset) {c : Context}
    (hc : (SyntaxTree.parse text).Surrounds offset c) :
    (classify (some (SyntaxTree.parse text)) text position).context = c := by
  obtain ⟨c', node, heq, hc'⟩ := classify_surrounds ho hlt he
  rw [heq]
  exact surrounds_unique hc' hc

end

/-- How the answer at a place follows from the spans over it: the raw text is read exactly where an error is over the
place, elsewhere the kinds of the nodes decide, and they never give two answers. -/
structure SyntaxTree.DecidesBySpans (tree : SyntaxTree) (position : Position) (offset : Nat) (found : Classification) :
    Prop where
  fallback_iff : found.usedFallback = true ↔ ∃ r ∈ tree.records, r.isError = true ∧ r.Covers offset
  fallback : found.usedFallback = true → found = ⟨.atPosition tree.text position, none⟩
  interpolation : found.usedFallback = false →
    (found.context = .interpolation ↔ tree.Inside Kind.isInterpolation offset)
  stringLiteral : found.usedFallback = false → (found.context = .stringLiteral ↔ tree.Inside (· == .string) offset)
  directive : found.usedFallback = false →
    (found.context = .directive ↔ tree.Inside Kind.isDirective offset ∧ ¬tree.Inside (· == .string) offset)
  plainText : found.usedFallback = false →
    (found.context = .plainText ↔ ¬tree.Inside Kind.isInterpolation offset ∧ ¬tree.Inside (· == .string) offset ∧
      ¬tree.Inside Kind.isDirective offset)
  exclusive : tree.Inside Kind.isInterpolation offset →
    ¬tree.Inside (· == .string) offset ∧ ¬tree.Inside Kind.isDirective offset

theorem classify_spans {text : List Char} {offset : Nat} {position : Position}
    (ho : (SyntaxTree.parse text).lines.offsetAt position = some offset) (hlt : offset < text.length) :
    (SyntaxTree.parse text).DecidesBySpans position offset
      (classify (some (SyntaxTree.parse text)) text position) := by
  have hexclusive : (SyntaxTree.parse text).Inside Kind.isInterpolation offset →
      ¬(SyntaxTree.parse text).Inside (· == .string) offset ∧ ¬(SyntaxTree.parse text).Inside Kind.isDirective offset :=
    fun h => ⟨not_inside_string h, not_inside_directive h⟩
  by_cases he : ∃ r ∈ (SyntaxTree.parse text).records, r.isError = true ∧ r.Covers offset
  · rw [classify_error ho hlt he]
    constructor
    case fallback_iff => exact ⟨fun _ => he, fun _ => rfl⟩
    case fallback => exact fun _ => rfl
    case exclusive => exact hexclusive
    all_goals exact fun h => absurd h (by simp [Classification.usedFallback])
  · obtain ⟨c, node, heq, hs⟩ := classify_surrounds ho hlt he
    have hiff : ∀ c', c = c' ↔ (SyntaxTree.parse text).Surrounds offset c' :=
      fun c' => ⟨fun h => h ▸ hs, surrounds_unique hs⟩
    rw [heq]
    constructor
    case fallback_iff => simp [Classification.usedFallback, he]
    case fallback => exact fun h => absurd h (by simp [Classification.usedFallback])
    case exclusive => exact hexclusive
    case interpolation =>
      refine fun _ => (hiff _).trans ⟨fun h => ?_, .interpolation⟩
      cases h with
      | interpolation h => exact h
    case stringLiteral =>
      refine fun _ => (hiff _).trans ⟨fun h => ?_, .stringLiteral⟩
      cases h with
      | stringLiteral h => exact h
    case directive =>
      refine fun _ => (hiff _).trans ⟨fun h => ?_, fun h => .directive h.1 h.2⟩
      cases h with
      | directive hd hs => exact ⟨hd, hs⟩
    case plainText =>
      refine fun _ => (hiff _).trans ⟨fun h => ?_, fun h => .plainText h.1 h.2.1 h.2.2⟩
      cases h with
      | plainText hi hs hd => exact ⟨hi, hs, hd⟩

/-- In a literal, between an interpolation and an unclosed list. -/
theorem classify_spans_literal :
    let text := "{{ a }}\n@if('b')\n@each(c".toList
    let tree := SyntaxTree.parse text
    tree.lines.offsetAt ⟨1, 5⟩ = some 13 ∧ 13 < text.length ∧
      tree.DecidesBySpans ⟨1, 5⟩ 13 (classify (some tree) text ⟨1, 5⟩) := by
  have hsome : (SyntaxTree.parse "{{ a }}\n@if('b')\n@each(c".toList).lines.offsetAt ⟨1, 5⟩ = some 13 := by
    decide +kernel
  have hlt : 13 < "{{ a }}\n@if('b')\n@each(c".toList.length := by decide +kernel
  exact ⟨hsome, hlt, classify_spans hsome hlt⟩

end EdgeTemplate
