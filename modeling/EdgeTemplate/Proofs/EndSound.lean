import EdgeTemplate.Proofs.KindSound
import EdgeTemplate.Proofs.NodeAtSound

/-!
# The node at the end of the text

Nothing is over the end of the text, so the walk from the document goes on into the last child as long as that is open
at its end. A node that reaches the end has all later nodes below it (`subtreeEnd_of_stop`), so all such nodes have the
same last token, and they are open together: the walk ends at the deepest of them, or at the document. An unclosed list
may end with a closed one, whose parenthesis is then taken for its own (`nodeAt_end`).
-/

namespace EdgeTemplate

namespace Forest

variable {f : Forest} {parent : Option Nat} {offset index : Nat} {m n : Nat × Record}

theorem node_within (hn : n ∈ f.nodes parent offset index) :
    (offset : Int) ≤ n.2.start ∧ n.2.stop ≤ (offset + f.width : Nat) := by
  induction f generalizing parent offset index with
  | nil => cases hn
  | node label children siblings ihc ihs =>
    rw [nodes_node, List.mem_cons, List.mem_append] at hn
    rw [width]
    rcases hn with rfl | hn | hn
    · simp only [record]
      omega
    · have := ihc hn
      omega
    · have := ihs hn
      omega

/-- What comes after all that is below a node starts where the node has ended. -/
theorem node_after (hn : n ∈ f.nodes parent offset index) (hm : m ∈ f.nodes parent offset index)
    (hlt : n.2.subtreeEnd ≤ m.1) : n.2.stop ≤ m.2.start := by
  induction f generalizing parent offset index with
  | nil => cases hn
  | node label children siblings ihc ihs =>
    have hrange := node_range hn
    rw [nodes_node, List.mem_cons, List.mem_append] at hn hm
    rcases hn with rfl | hn | hn
    · rcases hm with rfl | hm | hm
      · omega
      · have := node_index hm
        simp only [record] at hlt
        omega
      · exact (node_within hm).1
    · rcases hm with rfl | hm | hm
      · have := node_index hn
        dsimp only at hlt
        omega
      · exact ihc hn hm
      · have := node_within hn
        have := node_within hm
        omega
    · have hi := node_index hn
      rcases hm with rfl | hm | hm
      · dsimp only at hlt
        omega
      · have := node_index hm
        omega
      · exact ihs hn hm

theorem rootNodes_last (h : (f.rootNodes parent offset index).getLast? = some n) :
    n.2.stop = (offset + f.width : Nat) := by
  induction f generalizing offset index with
  | nil => cases h
  | node label children siblings _ ih =>
    rw [rootNodes, List.getLast?_cons, Option.some.injEq] at h
    rw [width]
    by_cases hs : siblings = nil
    · subst hs
      subst h
      simp only [rootNodes, List.getLast?_nil, Option.getD_none, record, width]
      omega
    · cases hl : (siblings.rootNodes parent (offset + label.indent.length + label.lexeme.length + children.width)
          (index + 1 + children.size)).getLast? with
      | none =>
        cases siblings with
        | nil => exact absurd rfl hs
        | node => simp [rootNodes] at hl
      | some last =>
        rw [hl, Option.getD_some] at h
        subst h
        have := ih hl
        omega

end Forest

/-- The last child of an unclosed node is a group or a token that closes nothing. -/
theorem Kind.last_of_unclosed {outer k closer : Kind} (hc : outer.closer? = some closer) (hh : outer.holds k = true)
    (hne : k ≠ closer) : k = .parenthesized ∨ k.isLeaf = true ∧ k.isClosing = false := by
  cases outer <;> cases hc <;> cases k <;> simp_all [holds, isArgument, isLeaf, isClosing]

namespace SyntaxTree

/-- The last token of the tree closes something. -/
def endsClosed (tree : SyntaxTree) : Bool := (tree.kindAt? ((tree.records.size : Int) - 1)).any Kind.isClosing

/-- The child reaches the end of the text and is open there. -/
def entersAtEnd (tree : SyntaxTree) (c : Int) : Bool :=
  tree.stopsAt tree.text.length c && (tree.record? c).any tree.openAtEnd

/-- The node at the position is the one at `i` or lies below it. -/
def ResolvesInto (tree : SyntaxTree) (position : Position) (i : Nat) : Prop :=
  ∃ (n : Nat) (s : Record), tree.nodeAt? position = some n ∧ tree.records[n]? = some s ∧ (n = i ∨ i ∈ tree.ancestors s)

/-- In the node at `i` lies a closed list that ends with the text. -/
def EndsInGroup (tree : SyntaxTree) (i : Nat) : Prop :=
  ∃ (j : Nat) (s : Record), tree.records[j]? = some s ∧ i ∈ tree.ancestors s ∧ s.kind = .parenthesized ∧
    s.isError = false ∧ s.stop = tree.text.length

end SyntaxTree

/-! ## Nodes that reach the end -/

section

variable {text : List Char} {i j : Nat} {r s : Record}

theorem stop_le_parent {p : Nat} (hj : (SyntaxTree.parse text).records[j]? = some s) (hp : s.parent = some p)
    (hr : (SyntaxTree.parse text).records[p]? = some r) : s.stop ≤ r.stop := by
  obtain ⟨-, hin, -⟩ := SyntaxTree.spread_children (parse_nodes text) hr
  exact (hin s (List.mem_map_of_mem (SyntaxTree.mem_siblings hj hp))).2

theorem stop_le (hi : (SyntaxTree.parse text).records[i]? = some r) : r.stop ≤ text.length := by
  induction i, r, hi using SyntaxTree.parent_induction (parse_nodes text) with
  | root i r hi hp =>
    obtain rfl := root_of_parent hi hp
    exact Int.le_of_eq (root_record hi).2.2
  | below i r p q hi hq hp ih => exact Int.le_trans (stop_le_parent hi hp hq) ih

theorem stop_le_ancestor (hi : (SyntaxTree.parse text).records[i]? = some r)
    (hj : (SyntaxTree.parse text).records[j]? = some s) (hmem : i ∈ (SyntaxTree.parse text).ancestors s) :
    s.stop ≤ r.stop := by
  induction j, s, hj using SyntaxTree.parent_induction (parse_nodes text) with
  | root j s hj hp =>
    rw [SyntaxTree.ancestors_root hp] at hmem
    cases hmem
  | below j s p q hj hq hp ih =>
    have hle := stop_le_parent hj hp hq
    rw [SyntaxTree.ancestors_listed (parse_nodes text) hp hq] at hmem
    rcases List.mem_cons.1 hmem with rfl | hmem
    · rw [hi] at hq
      cases hq
      exact hle
    · exact Int.le_trans hle (ih hmem)

theorem subtreeEnd_of_stop (hi : (SyntaxTree.parse text).records[i]? = some r) (hstop : r.stop = text.length) :
    r.subtreeEnd = (SyntaxTree.parse text).records.size := by
  have hrange := SyntaxTree.range_listed (parse_nodes text) hi
  by_cases hlt : r.subtreeEnd < (SyntaxTree.parse text).records.size
  · obtain ⟨k, hk⟩ : ∃ k : Nat, r.subtreeEnd = k := ⟨r.subtreeEnd.toNat, by omega⟩
    have hks : k < (SyntaxTree.parse text).records.size := by omega
    have hs := Array.getElem?_eq_getElem hks
    have hafter := Forest.node_after (node_of_record hi) (node_of_record hs) (Int.le_of_eq hk)
    have hpos := span_nonempty hs (by omega)
    have hle := stop_le hs
    dsimp only at hafter
    omega
  · omega

theorem subtreeEnd_of_isLeaf (hi : (SyntaxTree.parse text).records[i]? = some r) (hl : r.kind.isLeaf = true) :
    r.subtreeEnd = ((i + 1 : Nat) : Int) := by
  have h := parse_nodes text
  have hrange := SyntaxTree.range_listed h hi
  by_cases hlt : ((i + 1 : Nat) : Int) < r.subtreeEnd
  · -- the next node would be a child
    have hnext : i + 1 < (SyntaxTree.parse text).records.size := by omega
    have hs := Array.getElem?_eq_getElem hnext
    obtain ⟨-, p, hp, hle⟩ := SyntaxTree.below_listed h hi hs (Nat.lt_succ_self i) hlt
    obtain ⟨hpi, -⟩ := SyntaxTree.parent_listed h hs hp
    rw [show p = i by omega] at hp
    exact absurd hp (no_child_of_isLeaf hi hl hs)
  · omega

theorem endsClosed_of_isLeaf (hi : (SyntaxTree.parse text).records[i]? = some r) (hl : r.kind.isLeaf = true)
    (hstop : r.stop = text.length) : (SyntaxTree.parse text).endsClosed = r.kind.isClosing := by
  have hlast : ((SyntaxTree.parse text).records.size : Int) - 1 = i := by
    have := subtreeEnd_of_isLeaf hi hl
    rw [subtreeEnd_of_stop hi hstop] at this
    omega
  rw [SyntaxTree.endsClosed, hlast, SyntaxTree.kindAt?, SyntaxTree.record?_natCast, hi, Option.map_some,
    Option.any_some]

theorem openAtEnd_of_stop (hi : (SyntaxTree.parse text).records[i]? = some r) (hstop : r.stop = text.length) :
    (SyntaxTree.parse text).openAtEnd r = !(SyntaxTree.parse text).endsClosed := by
  rw [SyntaxTree.openAtEnd, subtreeEnd_of_stop hi hstop, SyntaxTree.endsClosed]

theorem last_child_stop (hi : (SyntaxTree.parse text).records[i]? = some r)
    (hlast : r.children.getLast? = some (j : Int)) (hj : (SyntaxTree.parse text).records[j]? = some s) :
    s.parent = some i ∧ s.stop = r.stop := by
  have h := parse_nodes text
  obtain ⟨label, children, offset, parent, hr, hroots⟩ := SyntaxTree.filter_children h hi
  rw [SyntaxTree.children_listed h hi, List.getLast?_map, Option.map_eq_some_iff] at hlast
  obtain ⟨⟨j', s'⟩, hn, hj'⟩ := hlast
  obtain ⟨hmem, hp⟩ := List.mem_filter.1 (List.mem_of_getLast? hn)
  have hs := SyntaxTree.mem_nodes.1 hmem
  obtain rfl : j' = j := Int.ofNat.inj hj'
  rw [hj] at hs
  cases hs
  rw [hroots] at hn
  refine ⟨beq_iff_eq.1 hp, ?_⟩
  rw [Forest.rootNodes_last hn, hr, Forest.record]

/-- Two nodes that reach the end lie in one another. -/
theorem below_of_stop (hi : (SyntaxTree.parse text).records[i]? = some r) (hstop : r.stop = text.length)
    (hj : (SyntaxTree.parse text).records[j]? = some s) (hlt : i < j) : i ∈ (SyntaxTree.parse text).ancestors s := by
  rw [SyntaxTree.mem_ancestors (parse_nodes text) hi hj, subtreeEnd_of_stop hi hstop]
  have := (Array.getElem?_eq_some_iff.1 hj).1
  omega

/-! ## Closed lists at the end -/

theorem endsClosed_of_group (hi : (SyntaxTree.parse text).records[i]? = some r) (hk : r.kind = .parenthesized)
    (he : r.isError = false) (hstop : r.stop = text.length) : (SyntaxTree.parse text).endsClosed = true := by
  obtain ⟨j, last, hlast, hj, hiff⟩ := last_child hi (by rw [hk]; rfl)
  have hkind : last.kind = .rightParen := by
    by_cases hne : last.kind = .rightParen
    · exact hne
    · rw [hiff.2 hne] at he
      cases he
  have hend := (last_child_stop hi hlast hj).2
  rw [endsClosed_of_isLeaf hj (by rw [hkind]; rfl) (hend.trans hstop), hkind]
  rfl

/-- If the last token closes something then an unclosed node that reaches the end is a list with a closed list at its
end: follow the last children until one of them is closed. -/
theorem endsInGroup_of_endsClosed (hi : (SyntaxTree.parse text).records[i]? = some r) (he : r.isError = true)
    (hstop : r.stop = text.length) (hc : (SyntaxTree.parse text).endsClosed = true) :
    r.kind.isList = true ∧ (SyntaxTree.parse text).EndsInGroup i := by
  induction hm : (SyntaxTree.parse text).records.size - i using Nat.strongRecOn generalizing i r with
  | ind m ih =>
    have hleaf : r.kind.isLeaf = false := by
      refine Bool.eq_false_iff.2 fun hl => ?_
      have hfail := kind_of_error hi he
      rw [endsClosed_of_isLeaf hi hl hstop] at hc
      cases hk : r.kind <;> simp_all [Kind.mayFail, Kind.isClosing]
    obtain ⟨closer, hcloser⟩ : ∃ closer, r.kind.closer? = some closer := by
      have hfail := kind_of_error hi he
      cases hk : r.kind <;> simp_all [Kind.mayFail, Kind.isLeaf, Kind.closer?]
    obtain ⟨j, last, hlast, hj, hiff⟩ := last_child hi hcloser
    obtain ⟨hp, hend⟩ := last_child_stop hi hlast hj
    have hholds := kind_of_child hj hp hi
    obtain ⟨hij, -⟩ := SyntaxTree.parent_listed (parse_nodes text) hj hp
    have hbelow := below_of_stop hi hstop hj hij
    have hgroup : last.kind = .parenthesized := by
      rcases Kind.last_of_unclosed hcloser hholds (hiff.1 he) with hk | ⟨hl, hopen⟩
      · exact hk
      · rw [endsClosed_of_isLeaf hj hl (hend.trans hstop), hopen] at hc
        cases hc
    have hlist : r.kind.isList = true := Kind.isList_of_holds hholds (by rw [hgroup]; rfl)
    refine ⟨hlist, ?_⟩
    by_cases herr : last.isError = true
    · have hlt : j < (SyntaxTree.parse text).records.size := (Array.getElem?_eq_some_iff.1 hj).1
      obtain ⟨-, k, s, hs, hmem, hrest⟩ := ih _ (by omega) hj herr (hend.trans hstop) rfl
      have hjk := (SyntaxTree.mem_ancestors (parse_nodes text) hj hs).1 hmem
      exact ⟨k, s, hs, below_of_stop hi hstop hs (by omega), hrest⟩
    · exact ⟨j, last, hj, hbelow, hgroup, Bool.eq_false_iff.2 herr, hend.trans hstop⟩

/-! ## The walk -/

theorem enter_end (hi : (SyntaxTree.parse text).records[i]? = some r) :
    (SyntaxTree.parse text).enter? text.length r.children =
      (r.children.filter (SyntaxTree.parse text).entersAtEnd).getLast?.bind Int.toNat? := by
  have hnone : r.children.find? ((SyntaxTree.parse text).containsAt text.length) = none := by
    rw [List.find?_eq_none]
    intro c hc hcov
    obtain ⟨k, t, rfl, ht, -⟩ := (SyntaxTree.mem_children (parse_nodes text) hi).1 hc
    obtain ⟨t', ht', hcov⟩ := SyntaxTree.containsAt_iff.1 hcov
    have := stop_le ht'
    have := hcov.2
    omega
  unfold SyntaxTree.enter?
  rw [hnone]
  exact congrArg (Option.bind · Int.toNat?) (if_pos rfl)

theorem entersAtEnd_iff (hj : (SyntaxTree.parse text).records[j]? = some s) :
    (SyntaxTree.parse text).entersAtEnd j = true ↔
      s.stop = text.length ∧ (SyntaxTree.parse text).endsClosed = false := by
  simp only [SyntaxTree.entersAtEnd, SyntaxTree.stopsAt, SyntaxTree.record?_natCast, hj, Option.any_some,
    Bool.and_eq_true, beq_iff_eq]
  constructor
  · intro ⟨hstop, hopen⟩
    rw [openAtEnd_of_stop hj hstop] at hopen
    exact ⟨hstop, by simpa using hopen⟩
  · intro ⟨hstop, hopen⟩
    rw [openAtEnd_of_stop hj hstop, hopen]
    exact ⟨hstop, rfl⟩

theorem enter_end_some (hi : (SyntaxTree.parse text).records[i]? = some r)
    (he : (SyntaxTree.parse text).enter? text.length r.children = some j) :
    (SyntaxTree.parse text).endsClosed = false ∧ i < j ∧
      ∃ s, (SyntaxTree.parse text).records[j]? = some s ∧ s.stop = text.length := by
  rw [enter_end hi, Option.bind_eq_some_iff] at he
  obtain ⟨c, hlast, hc⟩ := he
  obtain ⟨hmem, hreach⟩ := List.mem_filter.1 (List.mem_of_getLast? hlast)
  obtain ⟨k, s, rfl, hs, hp⟩ := (SyntaxTree.mem_children (parse_nodes text) hi).1 hmem
  cases hc
  obtain ⟨hstop, hopen⟩ := (entersAtEnd_iff hs).1 hreach
  exact ⟨hopen, (SyntaxTree.parent_listed (parse_nodes text) hs hp).1, s, hs, hstop⟩

theorem enter_end_none (hi : (SyntaxTree.parse text).records[i]? = some r)
    (hopen : (SyntaxTree.parse text).endsClosed = false)
    (he : (SyntaxTree.parse text).enter? text.length r.children = none)
    (hj : (SyntaxTree.parse text).records[j]? = some s) (hp : s.parent = some i) : s.stop ≠ text.length := by
  intro hstop
  rw [enter_end hi, Option.bind_eq_none_iff] at he
  have hmem := (SyntaxTree.mem_children (parse_nodes text) hi).2 ⟨j, s, rfl, hj, hp⟩
  have hin := List.mem_filter.2 ⟨hmem, (entersAtEnd_iff hj).2 ⟨hstop, hopen⟩⟩
  have hlast := List.getLast?_eq_some_getLast (List.ne_nil_of_mem hin)
  obtain ⟨k, t, hk, -⟩ :=
    (SyntaxTree.mem_children (parse_nodes text) hi).1 (List.mem_filter.1 (List.mem_of_getLast? hlast)).1
  rw [hk] at hlast
  cases he _ hlast

theorem descend_closed (hclosed : (SyntaxTree.parse text).endsClosed = true)
    (hi : (SyntaxTree.parse text).records[i]? = some r) (fuel : Nat) :
    (SyntaxTree.parse text).descend text.length fuel i = i := by
  cases fuel with
  | zero => rfl
  | succ fuel =>
    rw [SyntaxTree.descend_succ hi]
    cases he : (SyntaxTree.parse text).enter? text.length r.children with
    | none => rfl
    | some j =>
      have := (enter_end_some hi he).1
      rw [hclosed] at this
      cases this

/-- The walk goes on to the deepest node that reaches the end. -/
theorem descend_end (hopen : (SyntaxTree.parse text).endsClosed = false) {fuel : Nat}
    (hfuel : (SyntaxTree.parse text).records.size ≤ i + fuel) (hi : (SyntaxTree.parse text).records[i]? = some r)
    (hstop : r.stop = text.length) : ∃ n s, (SyntaxTree.parse text).descend text.length fuel i = n ∧
      (SyntaxTree.parse text).records[n]? = some s ∧ s.stop = text.length ∧
      ∀ (c : Nat) (t : Record), (SyntaxTree.parse text).records[c]? = some t → t.parent = some n →
        t.stop ≠ text.length := by
  induction fuel generalizing i r with
  | zero =>
    have := (Array.getElem?_eq_some_iff.1 hi).1
    omega
  | succ fuel ih =>
    rw [SyntaxTree.descend_succ hi]
    cases he : (SyntaxTree.parse text).enter? text.length r.children with
    | none => exact ⟨i, r, rfl, hi, hstop, fun c t ht hp => enter_end_none hi hopen he ht hp⟩
    | some j =>
      obtain ⟨-, hij, s, hs, hsstop⟩ := enter_end_some hi he
      exact ih (by omega) hs hsstop

theorem not_resolvesInto {position : Position} (hat : (SyntaxTree.parse text).nodeAt? position = some 0) (hi : i ≠ 0) :
    ¬(SyntaxTree.parse text).ResolvesInto position i := by
  intro ⟨n, s, hn, hs, hin⟩
  rw [hat] at hn
  cases hn
  rcases hin with rfl | hin
  · exact hi rfl
  · rw [SyntaxTree.ancestors_root (root_record hs).2.1] at hin
    cases hin

variable {position : Position} (ho : (SyntaxTree.parse text).lines.offsetAt position = some text.length)
include ho

theorem nodeAt_closed (hclosed : (SyntaxTree.parse text).endsClosed = true) :
    (SyntaxTree.parse text).nodeAt? position = some 0 := by
  obtain ⟨root, hroot, -⟩ := parse_root text
  rw [SyntaxTree.nodeAt?, ho, Option.map_some, descend_closed hclosed hroot]

theorem resolvesInto_of_open (hopen : (SyntaxTree.parse text).endsClosed = false)
    (hi : (SyntaxTree.parse text).records[i]? = some r) (hstop : r.stop = text.length) :
    (SyntaxTree.parse text).ResolvesInto position i := by
  obtain ⟨root, hroot, -, -, -, hend⟩ := parse_root text
  obtain ⟨n, s, hn, hs, hsstop, hlast⟩ := descend_end hopen (Nat.le_add_left _ 0) hroot hend
  refine ⟨n, s, by rw [SyntaxTree.nodeAt?, ho, Option.map_some, hn], hs, ?_⟩
  rcases Nat.lt_trichotomy i n with hlt | heq | hlt
  · exact .inr (below_of_stop hi hstop hs hlt)
  · exact .inl heq.symm
  · -- the child of the deepest node on the way to this one would reach the end as well
    obtain ⟨c, t, ht, hp, hc⟩ := SyntaxTree.ancestor_child (parse_nodes text) hi (below_of_stop hs hsstop hi hlt)
    have htstop : t.stop = text.length := by
      rcases hc with rfl | hc
      · rw [hi] at ht
        cases ht
        exact hstop
      · exact Int.le_antisymm (stop_le ht) (hstop ▸ stop_le_ancestor ht hi hc)
    exact absurd htstop (hlast c t ht hp)

end

/-- At the end of the text the cursor is in an unclosed node that reaches it, unless the node ends with a closed list in
parentheses: then the cursor is in the document only. Nothing but an argument list or a group can end so. -/
theorem nodeAt_end {text : List Char} {position : Position}
    (ho : (SyntaxTree.parse text).lines.offsetAt position = some text.length) {i : Nat} {r : Record}
    (hi : (SyntaxTree.parse text).records[i]? = some r) (he : r.isError = true) (hstop : r.stop = text.length) :
    ((SyntaxTree.parse text).ResolvesInto position i ↔ ¬(SyntaxTree.parse text).EndsInGroup i) ∧
    ((SyntaxTree.parse text).EndsInGroup i → (SyntaxTree.parse text).nodeAt? position = some 0) ∧
    (r.kind.isList = false → (SyntaxTree.parse text).ResolvesInto position i) := by
  by_cases hclosed : (SyntaxTree.parse text).endsClosed = true
  · have hat := nodeAt_closed ho hclosed
    obtain ⟨hlist, hgroup⟩ := endsInGroup_of_endsClosed hi he hstop hclosed
    have hout := not_resolvesInto hat (ne_zero_of_error hi he)
    refine ⟨⟨fun h => absurd h hout, fun h => absurd hgroup h⟩, fun _ => hat, fun h => ?_⟩
    rw [hlist] at h
    cases h
  · have hopen := Bool.eq_false_iff.2 hclosed
    have hin := resolvesInto_of_open ho hopen hi hstop
    have hno : ¬(SyntaxTree.parse text).EndsInGroup i := by
      intro ⟨j, s, hs, _, hk, herr, hend⟩
      exact hclosed (endsClosed_of_group hs hk herr hend)
    exact ⟨⟨fun _ => hno, fun _ => hin⟩, fun h => absurd h hno, fun _ => hin⟩

/-- A literal that is being typed, behind a closed list. -/
theorem nodeAt_end_literal :
    let tree := SyntaxTree.parse "@if((a), 'b".toList
    tree.lines.offsetAt ⟨0, 11⟩ = some tree.text.length ∧ ∃ r : Record, tree.records[10]? = some r ∧
      r.isError = true ∧ r.stop = tree.text.length ∧ r.kind.isList = false ∧ tree.ResolvesInto ⟨0, 11⟩ 10 ∧
      ¬tree.EndsInGroup 10 := by
  have ho : (SyntaxTree.parse "@if((a), 'b".toList).lines.offsetAt ⟨0, 11⟩ = some "@if((a), 'b".toList.length := by
    decide +kernel
  have hfound : ((SyntaxTree.parse "@if((a), 'b".toList).records[10]?).any
      (fun r => r.isError = true ∧ r.stop = ("@if((a), 'b".toList.length : Int) ∧ r.kind.isList = false) = true := by
    decide +kernel
  obtain ⟨r, hr, hnode⟩ := (Option.any_eq_true _ _).1 hfound
  obtain ⟨he, hstop, hkind⟩ := of_decide_eq_true hnode
  have hin := (nodeAt_end ho hr he hstop).2.2 hkind
  exact ⟨ho, r, hr, he, hstop, hkind, hin, (nodeAt_end ho hr he hstop).1.1 hin⟩

/-- The inner list is closed, the outer one is not, and the cursor behind them is in neither. -/
theorem nodeAt_end_group :
    let tree := SyntaxTree.parse "@if((a)".toList
    tree.lines.offsetAt ⟨0, 7⟩ = some 7 ∧ tree.text.length = 7 ∧
      (∃ r : Record, tree.records[3]? = some r ∧ r.kind = .arguments ∧ r.isError = true ∧ r.stop = 7) ∧
      tree.nodeAt? ⟨0, 7⟩ = some 0 ∧ ¬tree.ResolvesInto ⟨0, 7⟩ 3 := by
  intro tree
  have ho : tree.lines.offsetAt ⟨0, 7⟩ = some 7 := by decide +kernel
  have hlength : tree.text.length = 7 := by decide +kernel
  have hfound : (tree.records[3]?).any (fun r => r.kind = .arguments ∧ r.isError = true ∧ r.stop = 7) = true := by
    decide +kernel
  have hat : tree.nodeAt? ⟨0, 7⟩ = some 0 := by decide +kernel
  obtain ⟨r, hr, hnode⟩ := (Option.any_eq_true _ _).1 hfound
  exact ⟨ho, hlength, ⟨r, hr, of_decide_eq_true hnode⟩, hat, not_resolvesInto hat (by decide)⟩

end EdgeTemplate
