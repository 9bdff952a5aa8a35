import EdgeTemplate.Proofs.ArenaSound

/-!
# The node at a place

Going down from the document, each step enters the child over the place, and the walk stops at a node none of whose
children is over it (`SyntaxTree.descend_innermost`). Since siblings follow one another, the path to that node holds all
the nodes over the place (`SyntaxTree.Innermost.around`), so it is the deepest of them (`nodeAt_deepest`).
-/

namespace EdgeTemplate

namespace SyntaxTree

section

variable {tree : SyntaxTree} {f : Forest} (h : tree.nodes = f.nodes none 0 0) {i j p : Nat} {r s : Record} {offset : Nat}
include h

theorem covers_parent (hj : tree.records[j]? = some s) (hp : s.parent = some p) (hr : tree.records[p]? = some r)
    (hc : s.Covers offset) : r.Covers offset := by
  obtain ⟨-, hin, -⟩ := spread_children h hr
  have := hin s (List.mem_map_of_mem (mem_siblings hj hp))
  unfold Record.Covers at *
  omega

theorem covers_ancestor (hj : tree.records[j]? = some s) (hc : s.Covers offset) :
    ∀ i ∈ tree.ancestors s, ∃ r, tree.records[i]? = some r ∧ r.Covers offset := by
  induction j, s, hj using parent_induction h with
  | root j s hj hp =>
    rw [ancestors_root hp]
    simp
  | below j s p r hj hr hp ih =>
    have hcr := covers_parent h hj hp hr hc
    rw [ancestors_listed h hp hr, List.forall_mem_cons]
    exact ⟨⟨r, hr, hcr⟩, ih hcr⟩

/-- The way from an ancestor down to a node starts with a child of that ancestor. -/
theorem ancestor_child (hj : tree.records[j]? = some s) (hi : i ∈ tree.ancestors s) :
    ∃ c t, tree.records[c]? = some t ∧ t.parent = some i ∧ (c = j ∨ c ∈ tree.ancestors s) := by
  induction j, s, hj using parent_induction h with
  | root j s hj hp =>
    rw [ancestors_root hp] at hi
    cases hi
  | below j s p r hj hr hp ih =>
    rw [ancestors_listed h hp hr] at hi ⊢
    rcases List.mem_cons.1 hi with rfl | hi
    · exact ⟨j, s, hj, hp, .inl rfl⟩
    · obtain ⟨c, t, ht, hpt, hc⟩ := ih hi
      exact ⟨c, t, ht, hpt, .inr (List.mem_cons.2 hc)⟩

theorem sibling_unique {a b : Nat} {s t : Record} (ha : tree.records[a]? = some s) (hb : tree.records[b]? = some t)
    (hs : s.parent = some p) (ht : t.parent = some p) (hsc : s.Covers offset) (htc : t.Covers offset) : a = b := by
  obtain ⟨-, r, hr, -⟩ := parent_listed h ha hs
  obtain ⟨-, -, hapart⟩ := spread_children h hr
  rw [List.pairwise_map] at hapart
  have := covers_unique hapart (mem_siblings ha hs) (mem_siblings hb ht) hsc htc
  exact congrArg Prod.fst this

theorem root_mem_ancestors (hroot : ∀ j s, tree.records[j]? = some s → s.parent = none → j = 0)
    (hj : tree.records[j]? = some s) (hne : j ≠ 0) : 0 ∈ tree.ancestors s := by
  induction j, s, hj using parent_induction h with
  | root j s hj hp => exact absurd (hroot j s hj hp) hne
  | below j s p r hj hr hp ih =>
    rw [ancestors_listed h hp hr, List.mem_cons]
    by_cases h0 : p = 0
    · exact .inl h0.symm
    · exact .inr (ih h0)

end

/-! ## The deepest node -/

/-- A node over a place none of whose children is over it. -/
structure Innermost (tree : SyntaxTree) (offset n : Nat) (r : Record) : Prop where
  listed : tree.records[n]? = some r
  covers : r.Covers offset
  last : ∀ (c : Nat) (s : Record), tree.records[c]? = some s → s.parent = some n → ¬s.Covers offset

section

variable {tree : SyntaxTree} {f : Forest} (h : tree.nodes = f.nodes none 0 0) {i n : Nat} {r s : Record} {offset : Nat}
include h

theorem Innermost.around (hn : tree.Innermost offset n r)
    (hroot : ∀ j s, tree.records[j]? = some s → s.parent = none → j = 0) (hi : tree.records[i]? = some s)
    (hc : s.Covers offset) : i = n ∨ i ∈ tree.ancestors r := by
  induction i, s, hi using parent_induction h with
  | root i s hi hp =>
    obtain rfl := hroot i s hi hp
    by_cases h0 : n = 0
    · exact .inl h0.symm
    · exact .inr (root_mem_ancestors h hroot hn.listed h0)
  | below i s p q hi hq hp ih =>
    rcases ih (covers_parent h hi hp hq hc) with rfl | hmem
    · exact absurd hc (hn.last i s hi hp)
    · -- the way down from the parent goes through one of its children, which is over the place as well
      obtain ⟨c, t, ht, hpt, hcn⟩ := ancestor_child h hn.listed hmem
      have htc : t.Covers offset := by
        rcases hcn with rfl | hcn
        · rw [hn.listed] at ht
          cases ht
          exact hn.covers
        · obtain ⟨t', ht', hc'⟩ := covers_ancestor h hn.listed hn.covers c hcn
          rw [ht'] at ht
          cases ht
          exact hc'
      rw [sibling_unique h hi ht hp hpt hc htc]
      exact hcn

theorem Innermost.covers_iff (hn : tree.Innermost offset n r)
    (hroot : ∀ j s, tree.records[j]? = some s → s.parent = none → j = 0) (hi : tree.records[i]? = some s) :
    s.Covers offset ↔ i = n ∨ i ∈ tree.ancestors r := by
  constructor
  · exact hn.around h hroot hi
  · rintro (rfl | hmem)
    · rw [hn.listed] at hi
      cases hi
      exact hn.covers
    · obtain ⟨s', hs', hc⟩ := covers_ancestor h hn.listed hn.covers i hmem
      rw [hs'] at hi
      cases hi
      exact hc

/-! ## Going down -/

omit h in
theorem containsAt_iff {c : Nat} :
    tree.containsAt offset (c : Int) = true ↔ ∃ s, tree.records[c]? = some s ∧ s.Covers offset := by
  simp [containsAt, Option.any_eq_true, Record.Covers]

omit h in
theorem enter_eq (hlt : offset < tree.text.length) (children : List Int) :
    tree.enter? offset children = (children.find? (tree.containsAt offset)).bind Int.toNat? := by
  unfold enter?
  cases children.find? (tree.containsAt offset) with
  | none => simp [Nat.ne_of_lt hlt]
  | some c => rfl

theorem enter_some {c : Nat} (hlt : offset < tree.text.length) (hi : tree.records[i]? = some r)
    (he : tree.enter? offset r.children = some c) :
    i < c ∧ ∃ s, tree.records[c]? = some s ∧ s.Covers offset := by
  rw [enter_eq hlt, Option.bind_eq_some_iff] at he
  obtain ⟨k, hk, hc⟩ := he
  obtain ⟨j, s, rfl, hj, hp⟩ := (mem_children h hi).1 (List.mem_of_find?_eq_some hk)
  cases hc
  exact ⟨(parent_listed h hj hp).1, containsAt_iff.1 (List.find?_some hk)⟩

theorem enter_none (hlt : offset < tree.text.length) (hi : tree.records[i]? = some r) (hc : r.Covers offset)
    (he : tree.enter? offset r.children = none) : tree.Innermost offset i r := by
  refine ⟨hi, hc, fun c s hs hp hsc => ?_⟩
  have hmem : (c : Int) ∈ r.children := (mem_children h hi).2 ⟨c, s, rfl, hs, hp⟩
  have hfound := (List.find?_isSome (p := tree.containsAt offset)).2 ⟨_, hmem, containsAt_iff.2 ⟨s, hs, hsc⟩⟩
  obtain ⟨k, hk⟩ := Option.isSome_iff_exists.1 hfound
  obtain ⟨j, -, rfl, -, -⟩ := (mem_children h hi).1 (List.mem_of_find?_eq_some hk)
  rw [enter_eq hlt, hk] at he
  cases he

omit h in
theorem descend_succ (hi : tree.records[i]? = some r) (fuel : Nat) :
    tree.descend offset (fuel + 1) i = (tree.enter? offset r.children).elim i (tree.descend offset fuel) := by
  unfold descend
  rw [hi, Option.bind_some]
  cases tree.enter? offset r.children with
  | none => rfl
  | some c => rfl

/-- The walk goes on to larger indices, so it does not run out of steps. -/
theorem descend_innermost (hlt : offset < tree.text.length) {fuel : Nat} (hfuel : tree.records.size ≤ i + fuel)
    (hi : tree.records[i]? = some r) (hc : r.Covers offset) :
    ∃ s, tree.Innermost offset (tree.descend offset fuel i) s := by
  induction fuel generalizing i r with
  | zero =>
    have := (Array.getElem?_eq_some_iff.1 hi).1
    omega
  | succ fuel ih =>
    rw [descend_succ hi]
    cases he : tree.enter? offset r.children with
    | none => exact ⟨r, enter_none h hlt hi hc he⟩
    | some c =>
      rw [Option.elim_some]
      obtain ⟨hic, s, hs, hsc⟩ := enter_some h hlt hi he
      exact ih (by omega) hs hsc

end

end SyntaxTree

theorem root_of_parent {text : List Char} {j : Nat} {s : Record} (hj : (SyntaxTree.parse text).records[j]? = some s)
    (hp : s.parent = none) : j = 0 := by
  by_cases hne : j = 0
  · exact hne
  · obtain ⟨p, hp', -⟩ := parse_parent hj hne
    rw [hp] at hp'
    cases hp'

/-- At a place of the text the answer is the deepest node over it: the nodes over the place are this one and its
ancestors. There is no answer where there is no place. -/
theorem nodeAt_deepest (text : List Char) (position : Position) :
    ((SyntaxTree.parse text).lines.offsetAt position = none →
      (SyntaxTree.parse text).nodeAt? position = none) ∧
    ∀ offset, (SyntaxTree.parse text).lines.offsetAt position = some offset → offset < text.length →
      ∃ n r, (SyntaxTree.parse text).nodeAt? position = some n ∧ (SyntaxTree.parse text).records[n]? = some r ∧
        r.Covers offset ∧ ∀ i s, (SyntaxTree.parse text).records[i]? = some s →
          (s.Covers offset ↔ i = n ∨ i ∈ (SyntaxTree.parse text).ancestors r) := by
  have h := parse_nodes text
  refine ⟨fun hnone => by rw [SyntaxTree.nodeAt?, hnone, Option.map_none], fun offset ho hlt => ?_⟩
  obtain ⟨root, hr, -, -, hstart, hstop⟩ := parse_root text
  have hc : root.Covers offset := ⟨by omega, by omega⟩
  obtain ⟨r, hn⟩ := SyntaxTree.descend_innermost h hlt (Nat.le_add_left _ 0) hr hc
  refine ⟨_, r, by rw [SyntaxTree.nodeAt?, ho, Option.map_some], hn.listed, hn.covers, fun i s hi => ?_⟩
  exact hn.covers_iff h (fun _ _ => root_of_parent) hi

/-- In an argument on the second line, and behind the end of the first. -/
theorem nodeAt_deepest_argument :
    let tree := SyntaxTree.parse "{{ a }}\n  @if(b)".toList
    tree.lines.offsetAt ⟨0, 8⟩ = none ∧ tree.nodeAt? ⟨0, 8⟩ = none ∧
    tree.lines.offsetAt ⟨1, 6⟩ = some 14 ∧ 14 < tree.text.length ∧
    ∃ n r, tree.nodeAt? ⟨1, 6⟩ = some n ∧ tree.records[n]? = some r ∧ r.Covers 14 ∧
      ∀ i s, tree.records[i]? = some s → (s.Covers 14 ↔ i = n ∨ i ∈ tree.ancestors r) := by
  have hnone : (SyntaxTree.parse "{{ a }}\n  @if(b)".toList).lines.offsetAt ⟨0, 8⟩ = none := by decide +kernel
  have hsome : (SyntaxTree.parse "{{ a }}\n  @if(b)".toList).lines.offsetAt ⟨1, 6⟩ = some 14 := by decide +kernel
  have hlt : 14 < "{{ a }}\n  @if(b)".toList.length := by decide +kernel
  exact ⟨hnone, (nodeAt_deepest _ _).1 hnone, hsome, hlt, (nodeAt_deepest _ _).2 14 hsome hlt⟩

end EdgeTemplate
