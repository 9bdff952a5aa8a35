import EdgeTemplate.Proofs.Lossless

/-!
# The records form a tree

A forest is written out node by node, each followed by all that is below it (`Forest.subtree_node`), and
the parent of a node has it in its range (`Forest.node_parent`). So a range of indices and a chain of
parents tell the same nodes (`SyntaxTree.mem_ancestors`), and the children of a node are those that name
it as their parent (`SyntaxTree.filter_children`). All that other questions rely on is gathered in
`SyntaxTree.WellFormed` (`parse_wellFormed`).
-/

namespace EdgeTemplate

namespace Forest

/-- The record of a node that is written at `index`. -/
def record (parent : Option Nat) (offset index : Nat) (label : Label) (children : Forest) : Record where
  kind := label.kind
  start := (offset + label.indent.length : Nat)
  stop := (offset + label.indent.length + label.lexeme.length + children.width : Nat)
  parent := parent
  children := (children.roots (index + 1)).map fun (i : Nat) => (i : Int)
  subtreeEnd := (index + 1 + children.size : Nat)
  isError := label.isError
  hasError := label.isError || children.hasError

/-- The records with the indices that they are written at. -/
def nodes (parent : Option Nat) (offset index : Nat) (f : Forest) : List (Nat × Record) :=
  ((f.records parent offset index).zipIdx index).map fun (r, i) => (i, r)

theorem nodes_nil (parent : Option Nat) (offset index : Nat) : nil.nodes parent offset index = [] := rfl

theorem nodes_node (parent : Option Nat) (offset index : Nat) (label : Label) (children siblings : Forest) :
    (node label children siblings).nodes parent offset index =
      (index, record parent offset index label children) ::
        (children.nodes (some index) (offset + label.indent.length + label.lexeme.length) (index + 1) ++
          siblings.nodes parent (offset + label.indent.length + label.lexeme.length + children.width)
            (index + 1 + children.size)) := by
  simp only [nodes, records, List.zipIdx_cons, List.zipIdx_append, length_records, List.map_cons, List.map_append]
  rfl

theorem map_fst_nodes (f : Forest) (parent : Option Nat) (offset index : Nat) :
    (f.nodes parent offset index).map Prod.fst = List.range' index f.size := by
  rw [nodes, List.map_map, ← length_records f parent offset index]
  exact List.zipIdx_map_snd index _

theorem map_snd_nodes (f : Forest) (parent : Option Nat) (offset index : Nat) :
    (f.nodes parent offset index).map Prod.snd = f.records parent offset index := by
  rw [nodes, List.map_map]
  exact List.zipIdx_map_fst index _

variable {f : Forest} {parent : Option Nat} {offset index : Nat} {n : Nat × Record}

theorem node_index (hn : n ∈ f.nodes parent offset index) : index ≤ n.1 ∧ n.1 < index + f.size := by
  have hm : n.1 ∈ (f.nodes parent offset index).map Prod.fst := List.mem_map_of_mem hn
  rw [map_fst_nodes, List.mem_range'_1] at hm
  exact hm

theorem node_range (hn : n ∈ f.nodes parent offset index) :
    (n.1 : Int) < n.2.subtreeEnd ∧ n.2.subtreeEnd ≤ (index + f.size : Nat) := by
  induction f generalizing parent offset index with
  | nil => cases hn
  | node label children siblings ihc ihs =>
    rw [nodes_node, List.mem_cons, List.mem_append] at hn
    rw [size]
    rcases hn with rfl | hn | hn
    · simp only [record]
      omega
    · have := ihc hn
      omega
    · have := ihs hn
      omega

/-- The parent of a node is the one given from outside, or stands before it and has it in its range. -/
theorem node_parent (hn : n ∈ f.nodes parent offset index) :
    n.2.parent = parent ∨ ∃ p ∈ f.nodes parent offset index, n.2.parent = some p.1 ∧ p.1 < n.1 ∧
      (n.1 : Int) < p.2.subtreeEnd := by
  induction f generalizing parent offset index with
  | nil => cases hn
  | node label children siblings ihc ihs =>
    rw [nodes_node, List.mem_cons, List.mem_append] at hn
    rw [nodes_node]
    rcases hn with rfl | hn | hn
    · exact .inl rfl
    · right
      rcases ihc hn with hp | ⟨p, hp, hrest⟩
      · have hi := node_index hn
        refine ⟨_, List.mem_cons_self, hp, ?_, ?_⟩
        · omega
        · simp only [record]
          omega
      · exact ⟨p, by simp [hp], hrest⟩
    · rcases ihs hn with hp | ⟨p, hp, hrest⟩
      · exact .inl hp
      · exact .inr ⟨p, by simp [hp], hrest⟩

/-- In the list `l`, the node `n` with this label and these children is followed by all that is below it. -/
structure Subtree (l : List (Nat × Record)) (n : Nat × Record) (label : Label) (children : Forest) (offset : Nat) :
    Prop where
  written : ∃ parent, n.2 = record parent offset n.1 label children
  place : ∃ before after, l = before ++ n ::
      (children.nodes (some n.1) (offset + label.indent.length + label.lexeme.length) (n.1 + 1) ++ after) ∧
    (∀ m ∈ before, m.1 < n.1) ∧ ∀ m ∈ after, n.1 + 1 + children.size ≤ m.1

section

variable {l : List (Nat × Record)} {label : Label} {children : Forest}

theorem Subtree.subtreeEnd (h : Subtree l n label children offset) :
    n.2.subtreeEnd = (n.1 + 1 + children.size : Nat) := by
  obtain ⟨p, hp⟩ := h.written
  rw [hp, record]

theorem Subtree.left (h : Subtree l n label children offset) {a : List (Nat × Record)} (ha : ∀ m ∈ a, m.1 < n.1) :
    Subtree (a ++ l) n label children offset := by
  obtain ⟨before, after, rfl, hb, hf⟩ := h.place
  exact ⟨h.written, a ++ before, after, by simp, List.forall_mem_append.2 ⟨ha, hb⟩, hf⟩

theorem Subtree.right (h : Subtree l n label children offset) {b : List (Nat × Record)}
    (hb' : ∀ m ∈ b, n.2.subtreeEnd ≤ m.1) : Subtree (l ++ b) n label children offset := by
  obtain ⟨before, after, rfl, hb, hf⟩ := h.place
  refine ⟨h.written, before, after ++ b, by simp, hb, List.forall_mem_append.2 ⟨hf, ?_⟩⟩
  intro m hm
  have := hb' m hm
  rw [h.subtreeEnd] at this
  omega

theorem Subtree.mem (h : Subtree l n label children offset) {m : Nat × Record}
    (hm : m ∈ children.nodes (some n.1) (offset + label.indent.length + label.lexeme.length) (n.1 + 1)) : m ∈ l := by
  obtain ⟨before, after, rfl, -, -⟩ := h.place
  simp [hm]

theorem Subtree.mem_iff (h : Subtree l n label children offset) {m : Nat × Record} (hm : m ∈ l) :
    n.1 < m.1 ∧ (m.1 : Int) < n.2.subtreeEnd ↔
      m ∈ children.nodes (some n.1) (offset + label.indent.length + label.lexeme.length) (n.1 + 1) := by
  have hend := h.subtreeEnd
  obtain ⟨before, after, rfl, hb, ha⟩ := h.place
  constructor
  · intro ⟨hlt, hr⟩
    rw [List.mem_append, List.mem_cons, List.mem_append] at hm
    rcases hm with hm | rfl | hm | hm
    · have := hb m hm
      omega
    · omega
    · exact hm
    · have := ha m hm
      omega
  · intro hm
    have := node_index hm
    omega

/-- What is only found below a node is found by looking there. -/
theorem Subtree.filter_eq (h : Subtree l n label children offset) {q : Nat × Record → Bool}
    (hq : ∀ m ∈ l, q m = true → n.1 < m.1 ∧ (m.1 : Int) < n.2.subtreeEnd) :
    l.filter q =
      (children.nodes (some n.1) (offset + label.indent.length + label.lexeme.length) (n.1 + 1)).filter q := by
  have hend := h.subtreeEnd
  obtain ⟨before, after, rfl, hb, ha⟩ := h.place
  have hbefore : before.filter q = [] := by
    rw [List.filter_eq_nil_iff]
    intro m hm hqm
    have := hq m (by simp [hm]) hqm
    have := hb m hm
    omega
  have hself : ¬q n = true := by
    intro hqn
    have := hq n (by simp) hqn
    omega
  have hafter : after.filter q = [] := by
    rw [List.filter_eq_nil_iff]
    intro m hm hqm
    have := hq m (by simp [hm]) hqm
    have := ha m hm
    omega
  rw [List.filter_append, hbefore, List.filter_cons, if_neg hself, List.filter_append, hafter, List.append_nil,
    List.nil_append]

end

theorem subtree_node (hn : n ∈ f.nodes parent offset index) :
    ∃ label children offset', Subtree (f.nodes parent offset index) n label children offset' := by
  induction f generalizing parent offset index with
  | nil => cases hn
  | node label children siblings ihc ihs =>
    rw [nodes_node, List.mem_cons, List.mem_append] at hn
    rw [nodes_node]
    rcases hn with rfl | hn | hn
    · refine ⟨label, children, offset, ⟨parent, rfl⟩, [], _, rfl, by simp, ?_⟩
      intro m hm
      exact (node_index hm).1
    · obtain ⟨label', children', offset', h⟩ := ihc hn
      have hi := node_index hn
      have hr := node_range hn
      refine ⟨label', children', offset', (h.right ?_).left (a := [_]) ?_⟩
      · intro m hm
        have := node_index hm
        omega
      · intro m hm
        rw [List.mem_singleton.1 hm]
        exact hi.1
    · obtain ⟨label', children', offset', h⟩ := ihs hn
      have hi := node_index hn
      refine ⟨label', children', offset', (h.left ?_).left (a := [_]) ?_⟩
      · intro m hm
        have := node_index hm
        omega
      · intro m hm
        rw [List.mem_singleton.1 hm]
        dsimp only
        omega

/-! ## Children -/

/-- The roots of a forest with their indices. -/
def rootNodes (parent : Option Nat) (offset index : Nat) : Forest → List (Nat × Record)
  | nil => []
  | node label children siblings =>
    (index, record parent offset index label children) ::
      siblings.rootNodes parent (offset + label.indent.length + label.lexeme.length + children.width)
        (index + 1 + children.size)

theorem map_rootNodes (f : Forest) (parent : Option Nat) (offset index : Nat) :
    (f.rootNodes parent offset index).map Prod.fst = f.roots index := by
  induction f generalizing offset index with
  | nil => rfl
  | node label children siblings _ ih => rw [rootNodes, roots, List.map_cons, ih]

theorem parent_ge (hn : n ∈ f.nodes parent offset index) :
    n.2.parent = parent ∨ ∃ p, n.2.parent = some p ∧ index ≤ p ∧ p < n.1 := by
  rcases node_parent hn with h | ⟨p, hp, h, hlt, -⟩
  · exact .inl h
  · exact .inr ⟨p.1, h, (node_index hp).1, hlt⟩

theorem filter_parent (h : ∀ q, parent = some q → q < index) :
    (f.nodes parent offset index).filter (·.2.parent == parent) = f.rootNodes parent offset index := by
  induction f generalizing offset index with
  | nil => rfl
  | node label children siblings _ ih =>
    have hc : (children.nodes (some index) (offset + label.indent.length + label.lexeme.length) (index + 1)).filter
        (·.2.parent == parent) = [] := by
      rw [List.filter_eq_nil_iff]
      intro n hn he
      rw [beq_iff_eq] at he
      rcases parent_ge hn with hp | ⟨p, hp, hge, -⟩
      · have := h index (by rw [← he, hp])
        omega
      · have := h p (by rw [← he, hp])
        omega
    rw [nodes_node, List.filter_cons_of_pos (by simp [record]), List.filter_append, hc, List.nil_append, rootNodes, ih]
    intro q hq
    have := h q hq
    omega

/-- Records that follow one another between two offsets. -/
structure Spread (start stop : Int) (rs : List Record) : Prop where
  inside : ∀ r ∈ rs, start ≤ r.start ∧ r.stop ≤ stop
  apart : rs.Pairwise fun a b => a.stop ≤ b.start

theorem spread_rootNodes (f : Forest) (parent : Option Nat) (offset index : Nat) :
    Spread offset (offset + f.width : Nat) ((f.rootNodes parent offset index).map Prod.snd) := by
  induction f generalizing offset index with
  | nil => exact ⟨by simp [rootNodes], by simp [rootNodes]⟩
  | node label children siblings _ ih =>
    obtain ⟨hin, hap⟩ := ih (offset + label.indent.length + label.lexeme.length + children.width)
      (index + 1 + children.size)
    rw [rootNodes, List.map_cons, width]
    constructor
    · intro r hr
      rcases List.mem_cons.1 hr with rfl | hr
      · simp only [record]
        omega
      · have := hin r hr
        omega
    · refine List.pairwise_cons.2 ⟨?_, hap⟩
      intro r hr
      exact (hin r hr).1

/-! ## Spans -/

/-- A node is not empty if no leaf in it is. -/
theorem body_pos {label : Label} {children siblings : Forest} {pending : List Char}
    (h : ∀ l ∈ (node label children siblings).leaves pending, l.lexeme ≠ []) :
    0 < label.lexeme.length + children.width := by
  induction children generalizing label siblings pending with
  | nil =>
    have := List.length_pos_iff.2 (h _ List.mem_cons_self)
    dsimp only at this
    omega
  | node first inner rest ih _ =>
    have := @ih first rest (pending ++ label.indent ++ label.lexeme) fun l hl => h l (List.mem_append_left _ hl)
    rw [width]
    omega

theorem node_span {pending : List Char} (h : ∀ l ∈ f.leaves pending, l.lexeme ≠ [])
    (hn : n ∈ f.nodes parent offset index) : n.2.start < n.2.stop := by
  induction f generalizing pending parent offset index with
  | nil => cases hn
  | node label children siblings ihc ihs =>
    have hpos := body_pos h
    rw [nodes_node, List.mem_cons, List.mem_append] at hn
    rcases hn with rfl | hn | hn
    · simp only [record]
      omega
    · have hc : children ≠ nil := by
        rintro rfl
        cases hn
      rw [leaves_node _ _ hc] at h
      exact ihc (fun l hl => h l (List.mem_append_left _ hl)) hn
    · have hs : ∀ l ∈ siblings.leaves [], l.lexeme ≠ [] := by
        intro l hl
        apply h
        by_cases hc : children = nil
        · subst hc
          exact List.mem_cons_of_mem _ hl
        · rw [leaves_node _ _ hc]
          exact List.mem_append_right _ hl
      exact ihs hs hn

end Forest

/-! ## The tree that lists a forest -/

theorem SyntaxTree.mem_nodes {tree : SyntaxTree} {i : Nat} {r : Record} :
    (i, r) ∈ tree.nodes ↔ tree.records[i]? = some r := by
  simp only [nodes, List.mem_map, Prod.exists, Prod.mk.injEq, List.mem_zipIdx_iff_getElem?, Array.getElem?_toList]
  constructor
  · rintro ⟨r', i', hr, rfl, rfl⟩
    exact hr
  · intro hr
    exact ⟨r, i, hr, rfl, rfl⟩

theorem parse_nodes (text : List Char) : (SyntaxTree.parse text).nodes = (Forest.ofText text).nodes none 0 0 := by
  rw [SyntaxTree.parse_eq]
  rfl

theorem node_of_record {text : List Char} {i : Nat} {r : Record} (h : (SyntaxTree.parse text).records[i]? = some r) :
    (i, r) ∈ (Forest.ofText text).nodes none 0 0 := by
  rw [← parse_nodes]
  exact SyntaxTree.mem_nodes.2 h

/-- The tree of a document that has the nodes of `f` below its root. -/
def SyntaxTree.ofForest (text : List Char) (f : Forest) : SyntaxTree :=
  ⟨text, ((Forest.node { kind := .document } f .nil).records none 0 0).toArray⟩

theorem SyntaxTree.parse_eq_ofForest (text : List Char) :
    parse text = ofForest text (Forest.ofItems (items true text)) :=
  parse_eq text

theorem SyntaxTree.nodes_ofForest (text : List Char) (f : Forest) :
    (ofForest text f).nodes = (Forest.node { kind := .document } f .nil).nodes none 0 0 := rfl

theorem mem_ofForest {text : List Char} {f : Forest} {i : Nat} {r : Record}
    (h : (SyntaxTree.ofForest text f).records[i]? = some r) (hi : i ≠ 0) : (i, r) ∈ f.nodes (some 0) 0 1 := by
  have hm := SyntaxTree.mem_nodes.2 h
  rw [SyntaxTree.nodes_ofForest, Forest.nodes_node, Forest.nodes_nil, List.append_nil, List.mem_cons] at hm
  rcases hm with hm | hm
  · cases hm
    exact absurd rfl hi
  · exact hm

theorem getElem?_ofForest {text : List Char} {f : Forest} {n : Nat × Record} (h : n ∈ f.nodes (some 0) 0 1) :
    (SyntaxTree.ofForest text f).records[n.1]? = some n.2 := by
  rw [← SyntaxTree.mem_nodes, SyntaxTree.nodes_ofForest, Forest.nodes_node]
  exact List.mem_cons_of_mem _ (List.mem_append_left _ h)

theorem node_below_root {text : List Char} {i : Nat} {r : Record}
    (h : (SyntaxTree.parse text).records[i]? = some r) (hi : i ≠ 0) :
    (i, r) ∈ (Forest.ofItems (items true text)).nodes (some 0) 0 1 := by
  rw [SyntaxTree.parse_eq_ofForest] at h
  exact mem_ofForest h hi

theorem record_of_node {text : List Char} {n : Nat × Record}
    (h : n ∈ (Forest.ofItems (items true text)).nodes (some 0) 0 1) :
    (SyntaxTree.parse text).records[n.1]? = some n.2 := by
  rw [SyntaxTree.parse_eq_ofForest]
  exact getElem?_ofForest h

namespace SyntaxTree

section

variable {tree : SyntaxTree} {f : Forest} (h : tree.nodes = f.nodes none 0 0) {i j p : Nat} {r s : Record}
include h

theorem parent_listed (hj : tree.records[j]? = some s) (hp : s.parent = some p) :
    p < j ∧ ∃ r, tree.records[p]? = some r ∧ (j : Int) < r.subtreeEnd := by
  have hm := mem_nodes.2 hj
  rw [h] at hm
  rcases Forest.node_parent hm with hn | ⟨⟨q, r⟩, hq, hs, hlt, hr⟩
  · rw [hp] at hn
    cases hn
  · rw [← h] at hq
    rw [hp] at hs
    cases hs
    exact ⟨hlt, r, mem_nodes.1 hq, hr⟩

theorem range_listed (hi : tree.records[i]? = some r) :
    (i : Int) < r.subtreeEnd ∧ r.subtreeEnd ≤ tree.records.size := by
  have hm := mem_nodes.2 hi
  have hsize := congrArg List.length h
  rw [h] at hm
  rw [SyntaxTree.nodes, Forest.nodes] at hsize
  simp only [List.length_map, List.length_zipIdx, Array.length_toList, Forest.length_records] at hsize
  have := Forest.node_range hm
  rw [hsize]
  simpa using this

theorem subtree_listed (hi : tree.records[i]? = some r) :
    ∃ label children offset, Forest.Subtree tree.nodes (i, r) label children offset := by
  have hm := mem_nodes.2 hi
  rw [h] at hm ⊢
  exact Forest.subtree_node hm

theorem below_listed (hi : tree.records[i]? = some r) (hj : tree.records[j]? = some s) (hlt : i < j)
    (hr : (j : Int) < r.subtreeEnd) : s.subtreeEnd ≤ r.subtreeEnd ∧ ∃ p, s.parent = some p ∧ i ≤ p := by
  obtain ⟨label, children, offset, hsub⟩ := subtree_listed h hi
  have hend := hsub.subtreeEnd
  have hn := (hsub.mem_iff (mem_nodes.2 hj)).1 ⟨hlt, hr⟩
  refine ⟨?_, ?_⟩
  · rw [hend]
    exact (Forest.node_range hn).2
  · rcases Forest.parent_ge hn with hp | ⟨p, hp, hge, -⟩
    · exact ⟨i, hp, Nat.le_refl i⟩
    · exact ⟨p, hp, by dsimp only at hge; omega⟩

/-! ## Ancestors -/

theorem chain_listed {fuel : Nat} (hi : i < fuel) : tree.chain fuel (some i) = tree.chain (i + 1) (some i) := by
  induction i using Nat.strongRecOn generalizing fuel with
  | ind i ih =>
    obtain ⟨fuel, rfl⟩ : ∃ k, fuel = k + 1 := ⟨fuel - 1, by omega⟩
    rw [chain, chain]
    congr 1
    cases hr : tree.records[i]? with
    | none => cases fuel <;> cases i <;> rfl
    | some r =>
      cases hp : r.parent with
      | none => simp only [Option.bind_some, hp]; cases fuel <;> cases i <;> rfl
      | some p =>
        have hlt := (parent_listed h hr hp).1
        simp only [Option.bind_some, hp]
        rw [ih p hlt (by omega), ih p hlt hlt]

theorem ancestors_listed (hp : s.parent = some p) (hr : tree.records[p]? = some r) :
    tree.ancestors s = p :: tree.ancestors r := by
  have hlt : p < tree.records.size := (Array.getElem?_eq_some_iff.1 hr).1
  obtain ⟨k, hk⟩ : ∃ k, tree.records.size = k + 1 := ⟨tree.records.size - 1, by omega⟩
  rw [ancestors, ancestors, hp, hk, chain, hr, Option.bind_some]
  congr 1
  cases hq : r.parent with
  | none => cases k <;> rfl
  | some q =>
    have hlt' := (parent_listed h hr hq).1
    have hk : q < k + 1 := by omega
    rw [chain_listed h hk, chain_listed h (show q < k by omega)]

omit h in
theorem ancestors_root (hp : s.parent = none) : tree.ancestors s = [] := by
  rw [ancestors, hp]
  cases tree.records.size <;> rfl

/-- What a node takes over from its parent holds of all that is below the roots. -/
theorem parent_induction {motive : ∀ j s, tree.records[j]? = some s → Prop}
    (root : ∀ j s hj, s.parent = none → motive j s hj)
    (below : ∀ j s p r hj hr, s.parent = some p → motive p r hr → motive j s hj)
    (j : Nat) (s : Record) (hj : tree.records[j]? = some s) : motive j s hj := by
  induction j using Nat.strongRecOn generalizing s with
  | ind j ih =>
    cases hp : s.parent with
    | none => exact root j s hj hp
    | some p =>
      obtain ⟨hlt, r, hr, -⟩ := parent_listed h hj hp
      exact below j s p r hj hr hp (ih p hlt r hr)

/-- The ancestors of a node are those that have it in their range. -/
theorem mem_ancestors (hi : tree.records[i]? = some r) (hj : tree.records[j]? = some s) :
    i ∈ tree.ancestors s ↔ i < j ∧ (j : Int) < r.subtreeEnd := by
  induction j, s, hj using parent_induction h with
  | root j s hj hp =>
    rw [ancestors_root hp]
    constructor
    · intro hm
      cases hm
    · intro ⟨hlt, hr⟩
      obtain ⟨-, q, hq, -⟩ := below_listed h hi hj hlt hr
      rw [hp] at hq
      cases hq
  | below j s p q hj hq hp ih =>
    obtain ⟨hlt, q', hq', hjq⟩ := parent_listed h hj hp
    rw [hq] at hq'
    cases hq'
    rw [ancestors_listed h hp hq, List.mem_cons, ih]
    constructor
    · rintro (rfl | ⟨hip, hpr⟩)
      · rw [hi] at hq
        cases hq
        exact ⟨hlt, hjq⟩
      · have := (below_listed h hi hq hip hpr).1
        omega
    · intro ⟨hij, hr⟩
      obtain ⟨-, p', hp', hle⟩ := below_listed h hi hj hij hr
      rw [hp] at hp'
      cases hp'
      by_cases he : i = p
      · exact .inl he
      · exact .inr ⟨by omega, by omega⟩

theorem descendants_listed (hi : tree.records[i]? = some r) (kind : Kind) :
    tree.descendantsOfKind i r kind =
      (tree.nodes.filter fun n => n.2.kind == kind && (tree.ancestors n.2).contains i).map fun n => (n.1 : Int) := by
  obtain ⟨label, children, offset, hsub⟩ := subtree_listed h hi
  have hend := hsub.subtreeEnd
  have hbelow : ∀ m ∈ tree.nodes, ((tree.ancestors m.2).contains i) = true ↔
      m ∈ children.nodes (some i) (offset + label.indent.length + label.lexeme.length) (i + 1) := by
    intro m hm
    rw [List.contains_iff_mem, mem_ancestors h hi (mem_nodes.1 hm)]
    exact hsub.mem_iff hm
  have hindices : (List.range (r.subtreeEnd - ((i : Int) + 1)).toNat).map (fun (k : Nat) => (i : Int) + 1 + k) =
      (children.nodes (some i) (offset + label.indent.length + label.lexeme.length) (i + 1)).map
        fun n => (n.1 : Int) := by
    have hlen : (r.subtreeEnd - ((i : Int) + 1)).toNat = children.size := by
      dsimp only at hend
      omega
    have hfst := Forest.map_fst_nodes children (some i) (offset + label.indent.length + label.lexeme.length) (i + 1)
    rw [hlen, ← Function.comp_def (fun (k : Nat) => (k : Int)) Prod.fst, ← List.map_map, hfst,
      List.range'_eq_map_range, List.map_map]
    refine List.map_congr_left fun k _ => ?_
    simp
  unfold descendantsOfKind
  dsimp only
  rw [hindices, hsub.filter_eq, List.filter_map]
  · congr 1
    refine List.filter_congr fun m hm => ?_
    have hr := mem_nodes.1 (hsub.mem hm)
    rw [(hbelow m (hsub.mem hm)).2 hm, Bool.and_true]
    simp [kindAt?, hr]
  · intro m hm hq
    rw [Bool.and_eq_true] at hq
    exact (hsub.mem_iff hm).2 ((hbelow m hm).1 hq.2)

/-! ## Children and errors -/

theorem filter_children (hi : tree.records[i]? = some r) : ∃ label children offset parent,
    r = Forest.record parent offset i label children ∧
    tree.nodes.filter (·.2.parent == some i) =
      children.rootNodes (some i) (offset + label.indent.length + label.lexeme.length) (i + 1) := by
  obtain ⟨label, children, offset, hsub⟩ := subtree_listed h hi
  obtain ⟨parent, hrec⟩ := hsub.written
  refine ⟨label, children, offset, parent, hrec, ?_⟩
  rw [hsub.filter_eq, Forest.filter_parent]
  · intro q hq
    cases hq
    exact Nat.lt_succ_self i
  · intro m hm hp
    obtain ⟨hlt, q, hq, hmq⟩ := parent_listed h (mem_nodes.1 hm) (beq_iff_eq.1 hp)
    rw [hi] at hq
    cases hq
    exact ⟨hlt, hmq⟩

/-- The children of a node are those that name it as their parent. -/
theorem children_listed (hi : tree.records[i]? = some r) :
    r.children = (tree.nodes.filter (·.2.parent == some i)).map fun n => (n.1 : Int) := by
  obtain ⟨label, children, offset, parent, rfl, hf⟩ := filter_children h hi
  rw [hf, Forest.record, ← Forest.map_rootNodes children (some i), List.map_map]
  rfl

omit h in
theorem mem_siblings (hj : tree.records[j]? = some s) (hp : s.parent = some p) :
    (j, s) ∈ tree.nodes.filter (·.2.parent == some p) :=
  List.mem_filter.2 ⟨mem_nodes.2 hj, beq_iff_eq.2 hp⟩

theorem mem_children (hi : tree.records[i]? = some r) {c : Int} :
    c ∈ r.children ↔ ∃ j s, c = (j : Nat) ∧ tree.records[j]? = some s ∧ s.parent = some i := by
  rw [children_listed h hi, List.mem_map]
  constructor
  · rintro ⟨⟨j, s⟩, hm, rfl⟩
    obtain ⟨hm, hp⟩ := List.mem_filter.1 hm
    exact ⟨j, s, rfl, mem_nodes.1 hm, beq_iff_eq.1 hp⟩
  · rintro ⟨j, s, rfl, hj, hp⟩
    exact ⟨(j, s), mem_siblings hj hp, rfl⟩

theorem nodes_ascend : tree.nodes.Pairwise fun m n => m.1 < n.1 := by
  rw [h, ← List.pairwise_map, Forest.map_fst_nodes]
  exact List.pairwise_lt_range' 1

theorem children_ascend (hi : tree.records[i]? = some r) : r.children.Pairwise (· < ·) := by
  rw [children_listed h hi, List.pairwise_map]
  exact ((nodes_ascend h).filter _).imp fun hlt => Int.ofNat_lt.2 hlt

theorem count_children (hi : tree.records[i]? = some r) (hj : tree.records[j]? = some s) :
    r.children.count (j : Int) = if s.parent = some i then 1 else 0 := by
  have hnodup : r.children.Nodup := (children_ascend h hi).imp fun hlt => Int.ne_of_lt hlt
  have hmem : (j : Int) ∈ r.children ↔ s.parent = some i := by
    rw [mem_children h hi]
    constructor
    · rintro ⟨k, t, hk, ht, hp⟩
      obtain rfl : j = k := Int.ofNat.inj hk
      rw [hj] at ht
      cases ht
      exact hp
    · intro hp
      exact ⟨j, s, rfl, hj, hp⟩
  rw [hnodup.count]
  simp only [hmem]

theorem spread_children (hi : tree.records[i]? = some r) :
    r.children.map tree.record? = ((tree.nodes.filter (·.2.parent == some i)).map Prod.snd).map some ∧
      Forest.Spread r.start r.stop ((tree.nodes.filter (·.2.parent == some i)).map Prod.snd) := by
  constructor
  · rw [children_listed h hi, List.map_map, List.map_map]
    refine List.map_congr_left fun m hm => ?_
    rw [Function.comp_apply, record?_natCast]
    exact mem_nodes.1 (List.mem_filter.1 hm).1
  · obtain ⟨label, children, offset, parent, rfl, hf⟩ := filter_children h hi
    obtain ⟨hin, hap⟩ := Forest.spread_rootNodes children (some i)
      (offset + label.indent.length + label.lexeme.length) (i + 1)
    rw [hf]
    refine ⟨?_, hap⟩
    intro k hk
    have := hin k hk
    simp only [Forest.record]
    omega

theorem hasError_listed (hi : tree.records[i]? = some r) :
    r.hasError = true ↔
      ∃ j s, tree.records[j]? = some s ∧ i ≤ j ∧ (j : Int) < r.subtreeEnd ∧ s.isError = true := by
  obtain ⟨label, children, offset, hsub⟩ := subtree_listed h hi
  obtain ⟨parent, hrec⟩ := hsub.written
  have hrange := range_listed h hi
  have herr : r.hasError = (r.isError ||
      (children.nodes (some i) (offset + label.indent.length + label.lexeme.length) (i + 1)).any (·.2.isError)) := by
    rw [show r = _ from hrec]
    simp only [Forest.record]
    rw [Forest.hasError_eq_any children (some i) (offset + label.indent.length + label.lexeme.length) (i + 1),
      ← Forest.map_snd_nodes, List.any_map]
    rfl
  rw [herr, Bool.or_eq_true, List.any_eq_true]
  constructor
  · rintro (he | ⟨m, hm, he⟩)
    · exact ⟨i, r, hi, Nat.le_refl i, hrange.1, he⟩
    · have hbelow := (hsub.mem_iff (hsub.mem hm)).2 hm
      exact ⟨m.1, m.2, mem_nodes.1 (hsub.mem hm), Nat.le_of_lt hbelow.1, hbelow.2, he⟩
  · intro ⟨j, s, hj, hle, hlt, he⟩
    by_cases hij : i = j
    · subst hij
      rw [hi] at hj
      cases hj
      exact .inl he
    · exact .inr ⟨(j, s), (hsub.mem_iff (mem_nodes.2 hj)).1 ⟨Nat.lt_of_le_of_ne hle hij, hlt⟩, he⟩

end

/-- The records form a tree in document order: the document comes first, a node comes after its parent,
which lists it once, and the index range of a node holds the node and all that is below it. -/
structure WellFormed (tree : SyntaxTree) : Prop where
  root : ∃ r, tree.records[0]? = some r ∧ r.kind = .document ∧ r.parent = none ∧ r.start = 0 ∧
    r.stop = (tree.text.length : Int)
  parent_lt : ∀ (i : Nat) (r : Record), tree.records[i]? = some r → i ≠ 0 → ∃ p, r.parent = some p ∧ p < i
  listed_once : ∀ (i p : Nat) (r q : Record), tree.records[i]? = some r → tree.records[p]? = some q →
    q.children.count (i : Int) = if r.parent = some p then 1 else 0
  ascending : ∀ r ∈ tree.records, r.children.Pairwise (· < ·)
  chain : ∀ (s : Record) (p : Nat) (r : Record), s.parent = some p → tree.records[p]? = some r →
    tree.ancestors s = p :: tree.ancestors r
  range_bound : ∀ (i : Nat) (r : Record), tree.records[i]? = some r →
    (i : Int) < r.subtreeEnd ∧ r.subtreeEnd ≤ tree.records.size
  range_iff : ∀ (i j : Nat) (r s : Record), tree.records[i]? = some r → tree.records[j]? = some s →
    (i ≤ j ∧ (j : Int) < r.subtreeEnd ↔ j = i ∨ i ∈ tree.ancestors s)
  descendants : ∀ (i : Nat) (r : Record) (kind : Kind), tree.records[i]? = some r → tree.descendantsOfKind i r kind =
    (tree.nodes.filter fun n => n.2.kind == kind && (tree.ancestors n.2).contains i).map fun n => (n.1 : Int)
  spans : ∀ r ∈ tree.records, ∃ children : List Record, r.children.map tree.record? = children.map some ∧
    (∀ c ∈ children, r.start ≤ c.start ∧ c.start < c.stop ∧ c.stop ≤ r.stop) ∧
    children.Pairwise fun a b => a.stop ≤ b.start
  hasError_iff : ∀ (i : Nat) (r : Record), tree.records[i]? = some r → (r.hasError = true ↔
    ∃ j s, tree.records[j]? = some s ∧ i ≤ j ∧ (j : Int) < r.subtreeEnd ∧ s.isError = true)

end SyntaxTree

theorem Throughout.of_mem {P : List Char → Label → List Char → Prop} {pre rest : List Char} {ls : List Label}
    (h : Throughout P pre ls rest) {l : Label} (hl : l ∈ ls) : ∃ before after, P before l after := by
  obtain ⟨xs, ys, rfl⟩ := List.append_of_mem hl
  exact ⟨_, _, ((throughout_append P pre xs (l :: ys) rest).1 h).2.1⟩

theorem span_nonempty {text : List Char} {i : Nat} {r : Record} (h : (SyntaxTree.parse text).records[i]? = some r)
    (hi : i ≠ 0) : r.start < r.stop := by
  have hleaf : ∀ l ∈ (Forest.ofItems (items true text)).leaves [], l.lexeme ≠ [] := by
    intro l hl
    rw [Forest.leaves_ofItems fun item => items_mem_read] at hl
    obtain ⟨before, after, hp⟩ := (placed_items text).of_mem hl
    exact hp.1
  exact Forest.node_span hleaf (node_below_root h hi)

theorem parse_root (text : List Char) : ∃ r, (SyntaxTree.parse text).records[0]? = some r ∧ r.kind = .document ∧
    r.parent = none ∧ r.start = 0 ∧ r.stop = (text.length : Int) := by
  have hm : (0, Forest.record none 0 0 { kind := .document } (Forest.ofItems (items true text))) ∈
      (SyntaxTree.parse text).nodes := by
    rw [parse_nodes, Forest.ofText, Forest.nodes_node]
    exact List.mem_cons_self
  have hw : (Forest.ofItems (items true text)).width = text.length := by
    rw [← Forest.length_text, Forest.text_ofItems fun item => items_mem_read, items_append]
  refine ⟨_, SyntaxTree.mem_nodes.1 hm, rfl, rfl, rfl, ?_⟩
  simp [Forest.record, hw]

theorem parse_parent {text : List Char} {i : Nat} {r : Record} (h : (SyntaxTree.parse text).records[i]? = some r)
    (hi : i ≠ 0) : ∃ p, r.parent = some p ∧ p < i := by
  rcases Forest.parent_ge (node_below_root h hi) with hp | ⟨p, hp, -, hlt⟩
  · exact ⟨0, hp, Nat.pos_of_ne_zero hi⟩
  · exact ⟨p, hp, hlt⟩

/-- Every parse gives a tree over the whole text. -/
theorem parse_wellFormed (text : List Char) :
    (SyntaxTree.parse text).text = text ∧ (SyntaxTree.parse text).WellFormed := by
  have h := parse_nodes text
  refine ⟨rfl, ?_⟩
  constructor
  · exact parse_root text
  · intro i r hr hi
    exact parse_parent hr hi
  · intro i p r q hr hq
    exact SyntaxTree.count_children h hq hr
  · intro r hr
    obtain ⟨i, hi⟩ := Array.mem_iff_getElem?.1 hr
    exact SyntaxTree.children_ascend h hi
  · intro s p r hp hr
    exact SyntaxTree.ancestors_listed h hp hr
  · intro i r hr
    exact SyntaxTree.range_listed h hr
  · intro i j r s hr hs
    rw [SyntaxTree.mem_ancestors h hr hs]
    have := (SyntaxTree.range_listed h hr).1
    constructor
    · intro ⟨hle, hlt⟩
      by_cases hij : j = i
      · exact .inl hij
      · exact .inr ⟨by omega, hlt⟩
    · rintro (rfl | ⟨hlt, hr⟩)
      · exact ⟨Nat.le_refl j, this⟩
      · exact ⟨Nat.le_of_lt hlt, hr⟩
  · intro i r kind hr
    exact SyntaxTree.descendants_listed h hr kind
  · intro r hr
    obtain ⟨i, hi⟩ := Array.mem_iff_getElem?.1 hr
    obtain ⟨hnames, hin, hap⟩ := SyntaxTree.spread_children h hi
    refine ⟨_, hnames, ?_, hap⟩
    intro c hc
    obtain ⟨⟨j, c⟩, hm, rfl⟩ := List.mem_map.1 hc
    obtain ⟨hm, hp⟩ := List.mem_filter.1 hm
    have hlt := (SyntaxTree.parent_listed h (SyntaxTree.mem_nodes.1 hm) (beq_iff_eq.1 hp)).1
    have hpos := span_nonempty (SyntaxTree.mem_nodes.1 hm) (Nat.ne_of_gt (Nat.zero_lt_of_lt hlt))
    exact ⟨(hin c hc).1, hpos, (hin c hc).2⟩
  · intro i r hr
    exact SyntaxTree.hasError_listed h hr

end EdgeTemplate
