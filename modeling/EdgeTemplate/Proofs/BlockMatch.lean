import Mathlib.Data.List.Basic
import EdgeTemplate.Proofs.ArenaSound
import EdgeTemplate.Validation

/-!
# Closers take blocks greedily

The open blocks before a node are those of the openers that no closer before it has taken
(`SyntaxTree.openedBefore_eq`), so a closer takes the latest block that it may take
(`SyntaxTree.partner_matching`). What is reported on blocks tells that matching: a closer without a block
where it stands, an opener without a closer at the end (`SyntaxTree.blocks_matched`).
-/

namespace EdgeTemplate

/-! ## What a directive opens and closes -/

namespace Kind

def opens? : Kind → Option String
  | directive name => if name ∈ blockNames then some name else none
  | _ => none

/-- What follows `end` in the name of a closer. -/
def closes? : Kind → Option String
  | directive name =>
    match name.toList with
    | 'e' :: 'n' :: 'd' :: rest => some (String.ofList rest)
    | _ => none
  | _ => none

/-- `@end` takes a block of any name, `@endname` one of that name. -/
def takes (k : Kind) (block : String) : Bool := k.closes?.any fun rest => rest == "" || rest == block

end Kind

theorem Kind.closes_of_opens {k : Kind} {block : String} (h : k.opens? = some block) : k.closes? = none := by
  cases k with
  | directive name =>
    by_cases hm : name ∈ blockNames
    · simp only [blockNames, List.mem_cons, List.not_mem_nil, or_false] at hm
      rcases hm with rfl | rfl | rfl | rfl | rfl | rfl | rfl <;> rfl
    · rw [opens?, if_neg hm] at h
      cases h
  | _ => cases h

/-- What is reported on a closer that takes no block; `rest` follows its `end`. -/
def Problem.stray (rest : String) : Problem := if rest = "" then .strayEnd else .strayNamedEnd rest

inductive Role.Of (k : Kind) : Role → Prop
  | opener {block : String} (ho : k.opens? = some block) (hc : k.closes? = none) : Role.Of k (.opener block)
  | closer (ho : k.opens? = none) (hc : k.closes? = some "") : Role.Of k .closer
  | namedCloser {block : String} (ho : k.opens? = none) (hc : k.closes? = some block) (hb : block ≠ "") :
    Role.Of k (.namedCloser block)
  | neutral (ho : k.opens? = none) (hc : k.closes? = none) : Role.Of k .neutral

theorem Role.of_kind (k : Kind) : Role.Of k (Role.ofKind k) := by
  cases k with
  | directive name =>
    show Role.Of _ (ofDirective name)
    unfold ofDirective
    by_cases hm : name ∈ blockNames
    · have ho : (Kind.directive name).opens? = some name := by rw [Kind.opens?, if_pos hm]
      rw [if_pos hm]
      exact .opener ho (Kind.closes_of_opens ho)
    · have ho : (Kind.directive name).opens? = none := by rw [Kind.opens?, if_neg hm]
      rw [if_neg hm]
      split
      · next he => exact .closer ho (by simp [Kind.closes?, he])
      · next rest hne he =>
        refine .namedCloser ho (by simp [Kind.closes?, he]) ?_
        intro h0
        have hnil : rest = [] := by simpa using congrArg String.toList h0
        exact hne (by rw [hnil])
      · exact .neutral ho (by simp only [Kind.closes?])
  | _ => exact .neutral rfl rfl

namespace Frame

variable (opened : List Frame) (index : Nat) (node : Record)

theorem advance_eq (k : Kind) : advance opened index node (Role.ofKind k) =
    match k.opens? with
    | some block => ⟨block, index, node⟩ :: opened
    | none => opened.eraseP (k.takes ·.block) := by
  have h := Role.of_kind k
  generalize Role.ofKind k = role at h ⊢
  cases h with
  | opener ho hc => rw [ho, advance]
  | closer ho hc =>
    rw [ho, advance]
    simp only [Kind.takes, hc]
    cases opened <;> rfl
  | @namedCloser block ho hc hb =>
    rw [ho, advance]
    simp only [Kind.takes, hc, Option.any_some, beq_false_of_ne hb, Bool.false_or]
    congr 1
    funext f
    exact Bool.beq_comm
  | neutral ho hc =>
    rw [ho, advance]
    simp [Kind.takes, hc, List.eraseP_of_forall_not]

theorem stray_eq (k : Kind) : stray? opened (Role.ofKind k) =
    if opened.any (k.takes ·.block) then none else k.closes?.map Problem.stray := by
  have h := Role.of_kind k
  generalize Role.ofKind k = role at h ⊢
  cases h with
  | opener ho hc => simp [stray?, hc]
  | closer ho hc =>
    simp only [stray?, Kind.takes, hc]
    cases opened <;> rfl
  | namedCloser ho hc hb =>
    simp only [stray?, Kind.takes, hc]
    simp [Problem.stray, hb, Bool.beq_comm]
  | neutral ho hc => simp [stray?, hc]

variable {opened} in
theorem mem_stray {k : Kind} {p : Problem} (h : p ∈ (stray? opened (Role.ofKind k)).toList) :
    ∃ rest, k.closes? = some rest ∧ Problem.stray rest = p := by
  rw [stray_eq] at h
  split at h
  · cases h
  · exact Option.map_eq_some_iff.1 (Option.mem_toList.1 h)

end Frame

/-! ## The open blocks -/

namespace SyntaxTree

variable (tree : SyntaxTree)

theorem length_nodes : tree.nodes.length = tree.records.size := by simp [nodes]

/-- The blocks that are open before the node at `i`, innermost first. -/
def openedBefore (i : Nat) : List Frame :=
  (tree.nodes.take i).foldl (fun opened n => Frame.advance opened n.1 n.2 (Role.ofKind n.2.kind)) []

/-- The opener of the block that the node at `c` takes. -/
def partner? (c : Nat) : Option Nat :=
  tree.records[c]?.bind fun r => ((tree.openedBefore c).find? (r.kind.takes ·.block)).map (·.index)

theorem getElem?_nodes (i : Nat) : tree.nodes[i]? = tree.records[i]?.map fun r => (i, r) := by
  rw [nodes, List.getElem?_map, List.getElem?_zipIdx, Array.getElem?_toList, Option.map_map]
  simp [Function.comp_def]

variable {tree}

theorem openedBefore_step {i : Nat} {n : Nat × Record} (h : tree.nodes[i]? = some n) :
    tree.openedBefore (i + 1) = Frame.advance (tree.openedBefore i) n.1 n.2 (Role.ofKind n.2.kind) := by
  rw [openedBefore, List.take_add_one, h, List.foldl_append]
  rfl

theorem openedBefore_induction {P : Nat → List Frame → Prop} (zero : P 0 [])
    (past : ∀ i, tree.records[i]? = none → P i (tree.openedBefore i) → P (i + 1) (tree.openedBefore i))
    (opener : ∀ i r block, tree.records[i]? = some r → r.kind.opens? = some block → P i (tree.openedBefore i) →
      P (i + 1) (⟨block, i, r⟩ :: tree.openedBefore i))
    (other : ∀ i r, tree.records[i]? = some r → r.kind.opens? = none → P i (tree.openedBefore i) →
      P (i + 1) ((tree.openedBefore i).eraseP (r.kind.takes ·.block)))
    (i : Nat) : P i (tree.openedBefore i) := by
  induction i with
  | zero => exact zero
  | succ i ih =>
    cases hr : tree.records[i]? with
    | none =>
      have hend : tree.openedBefore (i + 1) = tree.openedBefore i := by
        rw [openedBefore, List.take_add_one, getElem?_nodes, hr]
        simp [openedBefore]
      rw [hend]
      exact past i hr ih
    | some r =>
      have hn : tree.nodes[i]? = some (i, r) := by rw [getElem?_nodes, hr, Option.map_some]
      rw [openedBefore_step hn, Frame.advance_eq]
      cases ho : r.kind.opens? with
      | some block => exact opener i r block hr ho ih
      | none => exact other i r hr ho ih

theorem index_lt {i : Nat} {f : Frame} (h : f ∈ tree.openedBefore i) : f.index < i := by
  revert f
  apply openedBefore_induction (P := fun i opened => ∀ {f : Frame}, f ∈ opened → f.index < i)
  · intro f hf
    cases hf
  · intro i _ ih f hf
    exact Nat.lt_succ_of_lt (ih hf)
  · intro i r block _ _ ih f hf
    rcases List.mem_cons.1 hf with rfl | hf
    · exact Nat.lt_succ_self i
    · exact Nat.lt_succ_of_lt (ih hf)
  · intro i r _ _ ih f hf
    exact Nat.lt_succ_of_lt (ih (List.mem_of_mem_eraseP hf))

theorem openedBefore_descend (i : Nat) : (tree.openedBefore i).Pairwise fun a b => b.index < a.index := by
  apply openedBefore_induction (P := fun _ opened => opened.Pairwise fun a b => b.index < a.index)
  · exact List.Pairwise.nil
  · intro i _ ih
    exact ih
  · intro i r block _ _ ih
    exact List.pairwise_cons.2 ⟨fun f hf => index_lt hf, ih⟩
  · intro i r _ _ ih
    exact ih.sublist List.eraseP_sublist

theorem partner_eq {c : Nat} {r : Record} (h : tree.records[c]? = some r) :
    tree.partner? c = ((tree.openedBefore c).find? (r.kind.takes ·.block)).map (·.index) := by
  rw [partner?, h, Option.bind_some]

theorem partner_none {c : Nat} (h : tree.records[c]? = none) : tree.partner? c = none := by
  rw [partner?, h, Option.bind_none]

theorem partner_opener {c : Nat} {r : Record} {block : String} (h : tree.records[c]? = some r)
    (ho : r.kind.opens? = some block) : tree.partner? c = none := by
  have hc := Kind.closes_of_opens ho
  rw [partner_eq h, Option.map_eq_none_iff, List.find?_eq_none]
  intro f _
  simp [Kind.takes, hc]

theorem partner_lt {c o : Nat} (h : tree.partner? c = some o) : o < c := by
  cases hr : tree.records[c]? with
  | none =>
    rw [partner_none hr] at h
    cases h
  | some r =>
    rw [partner_eq hr, Option.map_eq_some_iff] at h
    obtain ⟨f, hf, rfl⟩ := h
    exact index_lt (List.mem_of_find?_eq_some hf)

variable (tree) in
def openersBefore (i : Nat) : List Frame :=
  (tree.nodes.take i).filterMap fun n => n.2.kind.opens?.map fun block => ⟨block, n.1, n.2⟩

/-- No closer before the node at `i` takes the block that the node at `o` opened. -/
def untaken (m : Nat → Option Nat) (i o : Nat) : Bool := (List.range i).all fun c => m c != some o

theorem untaken_succ (m : Nat → Option Nat) (i o : Nat) : untaken m (i + 1) o = (untaken m i o && m i != some o) := by
  simp [untaken, List.range_succ]

theorem untaken_iff {m : Nat → Option Nat} {i o : Nat} : untaken m i o = true ↔ ∀ c < i, m c ≠ some o := by
  simp [untaken]

theorem eraseP_eq_filter {l : List Frame} (h : l.Pairwise fun a b => b.index < a.index) {p : Frame → Bool} {f : Frame}
    (hf : l.find? p = some f) : l.eraseP p = l.filter (·.index != f.index) := by
  induction l with
  | nil => cases hf
  | cons g l ih =>
    obtain ⟨hg, hl⟩ := List.pairwise_cons.1 h
    by_cases hp : p g = true
    · rw [List.find?_cons_of_pos hp] at hf
      cases hf
      rw [List.eraseP_cons_of_pos hp, List.filter_cons_of_neg (by simp), List.filter_eq_self.2]
      intro f hf
      exact bne_iff_ne.2 (Nat.ne_of_lt (hg f hf))
    · rw [List.find?_cons_of_neg hp] at hf
      have hlt := hg f (List.mem_of_find?_eq_some hf)
      rw [List.eraseP_cons_of_neg hp, ih hl hf, List.filter_cons, if_pos (bne_iff_ne.2 (Nat.ne_of_gt hlt))]

/-- The open blocks are those of the openers that no closer has taken yet. -/
theorem openedBefore_eq (i : Nat) :
    (tree.openedBefore i).reverse = (tree.openersBefore i).filter fun f => untaken tree.partner? i f.index := by
  have hsame : ∀ i, tree.partner? i = none → ∀ o, untaken tree.partner? (i + 1) o = untaken tree.partner? i o := by
    intro i hi o
    rw [untaken_succ, hi]
    simp
  apply openedBefore_induction (P := fun i opened =>
    opened.reverse = (tree.openersBefore i).filter fun f => untaken tree.partner? i f.index)
  · rfl
  · intro i hr ih
    simp only [hsame i (partner_none hr)]
    rw [ih, openersBefore, openersBefore, List.take_add_one, getElem?_nodes, hr]
    simp
  · intro i r block hr ho ih
    have hself : untaken tree.partner? i i = true := by
      rw [untaken_iff]
      intro c hc hp
      have := partner_lt hp
      omega
    simp only [hsame i (partner_opener hr ho)]
    rw [List.reverse_cons, ih, openersBefore, openersBefore, List.take_add_one, getElem?_nodes, hr]
    simp [ho, hself]
  · intro i r hr ho ih
    have hopeners : tree.openersBefore (i + 1) = tree.openersBefore i := by
      rw [openersBefore, openersBefore, List.take_add_one, getElem?_nodes, hr]
      simp [ho]
    rw [hopeners]
    cases hf : (tree.openedBefore i).find? (r.kind.takes ·.block) with
    | none =>
      have hnone : tree.partner? i = none := by rw [partner_eq hr, hf, Option.map_none]
      simp only [hsame i hnone]
      rw [← ih, List.eraseP_of_forall_not]
      exact List.find?_eq_none.1 hf
    | some f =>
      -- the block leaves the open ones here, wherever it stands among them, and is taken from now on
      have hsome : tree.partner? i = some f.index := by rw [partner_eq hr, hf, Option.map_some]
      rw [eraseP_eq_filter (openedBefore_descend i) hf, ← List.filter_reverse, ih, List.filter_filter]
      refine List.filter_congr fun g _ => ?_
      have hne : (some f.index != some g.index) = (g.index != f.index) := by
        rw [Bool.eq_iff_iff, bne_iff_ne, bne_iff_ne, ne_eq, Option.some.injEq]
        exact ⟨Ne.symm, Ne.symm⟩
      rw [untaken_succ, hsome, hne, Bool.and_comm]

/-! ## The greedy matching -/

/-- Before the node at `c`, the block that the node at `o` opened is one that `c` may take, and no closer
before `c` has taken it. -/
structure Open (tree : SyntaxTree) (m : Nat → Option Nat) (c o : Nat) : Prop where
  before : o < c
  takes : ∃ r s block, tree.records[c]? = some r ∧ tree.records[o]? = some s ∧ s.kind.opens? = some block ∧
    r.kind.takes block = true
  free : ∀ c' < c, m c' ≠ some o

/-- Each closer takes the latest block that it may take, and takes none only if there is none. -/
structure Matching (tree : SyntaxTree) (m : Nat → Option Nat) : Prop where
  injective : ∀ c c' o, m c = some o → m c' = some o → c = c'
  latest : ∀ c o, m c = some o → tree.Open m c o ∧ ∀ o', tree.Open m c o' → o' ≤ o
  unmatched : ∀ c, m c = none → ∀ o, ¬tree.Open m c o

theorem mem_take_nodes {i : Nat} {n : Nat × Record} :
    n ∈ tree.nodes.take i ↔ n.1 < i ∧ tree.records[n.1]? = some n.2 := by
  rw [List.mem_iff_getElem?]
  constructor
  · intro ⟨k, hk⟩
    rw [List.getElem?_take] at hk
    split at hk
    · next hlt =>
      rw [getElem?_nodes, Option.map_eq_some_iff] at hk
      obtain ⟨r, hr, rfl⟩ := hk
      exact ⟨hlt, hr⟩
    · cases hk
  · intro ⟨hlt, hr⟩
    refine ⟨n.1, ?_⟩
    rw [List.getElem?_take, if_pos hlt, getElem?_nodes, hr, Option.map_some]

theorem mem_openersBefore {i : Nat} {f : Frame} : f ∈ tree.openersBefore i ↔
    f.index < i ∧ tree.records[f.index]? = some f.node ∧ f.node.kind.opens? = some f.block := by
  rw [openersBefore, List.mem_filterMap]
  constructor
  · intro ⟨n, hn, hf⟩
    obtain ⟨block, hb, rfl⟩ := Option.map_eq_some_iff.1 hf
    obtain ⟨hlt, hr⟩ := mem_take_nodes.1 hn
    exact ⟨hlt, hr, hb⟩
  · intro ⟨hlt, hr, ho⟩
    exact ⟨(f.index, f.node), mem_take_nodes.2 ⟨hlt, hr⟩, by rw [ho, Option.map_some]⟩

theorem mem_openedBefore {i : Nat} {f : Frame} : f ∈ tree.openedBefore i ↔
    f.index < i ∧ tree.records[f.index]? = some f.node ∧ f.node.kind.opens? = some f.block ∧
      ∀ c < i, tree.partner? c ≠ some f.index := by
  rw [← List.mem_reverse, openedBefore_eq, List.mem_filter, mem_openersBefore, untaken_iff]
  simp only [and_assoc]

theorem le_of_find {l : List Frame} (h : l.Pairwise fun a b => b.index < a.index) {p : Frame → Bool} {f g : Frame}
    (hf : l.find? p = some f) (hg : g ∈ l) (hp : p g = true) : g.index ≤ f.index := by
  obtain ⟨-, before, after, rfl, hb⟩ := List.find?_eq_some_iff_append.1 hf
  rw [List.mem_append, List.mem_cons] at hg
  rcases hg with hg | rfl | hg
  · have := hb g hg
    simp [hp] at this
  · exact Nat.le_refl _
  · have := (List.pairwise_cons.1 (List.pairwise_append.1 h).2.1).1 g hg
    exact Nat.le_of_lt this

theorem open_iff {c o : Nat} {r : Record} (hr : tree.records[c]? = some r) :
    tree.Open tree.partner? c o ↔ ∃ f ∈ tree.openedBefore c, r.kind.takes f.block = true ∧ f.index = o := by
  constructor
  · intro ⟨hlt, ⟨r', s, block, hr', hs, ho, ht⟩, hfree⟩
    rw [hr] at hr'
    cases hr'
    exact ⟨⟨block, o, s⟩, mem_openedBefore.2 ⟨hlt, hs, ho, hfree⟩, ht, rfl⟩
  · intro ⟨f, hf, ht, ho⟩
    subst ho
    obtain ⟨hlt, hs, ho, hfree⟩ := mem_openedBefore.1 hf
    exact ⟨hlt, ⟨r, f.node, f.block, hr, hs, ho, ht⟩, hfree⟩

theorem not_open {c o : Nat} (hr : tree.records[c]? = none) : ¬tree.Open tree.partner? c o := by
  intro ⟨_, ⟨r, _, _, hr', _⟩, _⟩
  rw [hr] at hr'
  cases hr'

theorem partner_latest {c o : Nat} (h : tree.partner? c = some o) :
    tree.Open tree.partner? c o ∧ ∀ o', tree.Open tree.partner? c o' → o' ≤ o := by
  cases hr : tree.records[c]? with
  | none =>
    rw [partner_none hr] at h
    cases h
  | some r =>
    rw [partner_eq hr, Option.map_eq_some_iff] at h
    obtain ⟨f, hf, rfl⟩ := h
    have ht := List.find?_some hf
    refine ⟨(open_iff hr).2 ⟨f, List.mem_of_find?_eq_some hf, ht, rfl⟩, ?_⟩
    intro o' ho'
    obtain ⟨g, hg, ht, rfl⟩ := (open_iff hr).1 ho'
    exact le_of_find (openedBefore_descend c) hf hg ht

theorem partner_matching : tree.Matching tree.partner? := by
  constructor
  · intro c c' o hc hc'
    have hfree := (partner_latest hc).1.free
    have hfree' := (partner_latest hc').1.free
    rcases Nat.lt_trichotomy c c' with hlt | heq | hlt
    · exact absurd hc (hfree' c hlt)
    · exact heq
    · exact absurd hc' (hfree c' hlt)
  · intro c o h
    exact partner_latest h
  · intro c h o ho
    cases hr : tree.records[c]? with
    | none => exact not_open hr ho
    | some r =>
      obtain ⟨f, hf, ht, -⟩ := (open_iff hr).1 ho
      rw [partner_eq hr, Option.map_eq_none_iff, List.find?_eq_none] at h
      exact h f hf ht

/-! ## What is reported -/

variable (tree) in
def diagnose (node : Record) (problem : Problem) : Diagnostic :=
  ⟨problem.severity, tree.lines.range node.start node.stop, problem.message⟩

variable (tree) in
def problemsAt (n : Nat × Record) : List Problem :=
  tree.localProblems n.2 ++ (Frame.stray? (tree.openedBefore n.1) (Role.ofKind n.2.kind)).toList

theorem findingsFrom_eq {i : Nat} {rest : List (Nat × Record)} (h : tree.nodes.drop i = rest) :
    tree.findingsFrom (tree.openedBefore i) rest =
      (rest.flatMap fun n => (tree.problemsAt n).map (⟨n.1, n.2, ·⟩)) ++
        (tree.openedBefore tree.records.size).reverse.map fun f => ⟨f.index, f.node, .missingEnd f.block⟩ := by
  induction rest generalizing i with
  | nil =>
    have hend : tree.openedBefore i = tree.openedBefore tree.records.size := by
      have := List.drop_eq_nil_iff.1 h
      rw [openedBefore, openedBefore, ← length_nodes, List.take_of_length_le this, List.take_length]
    rw [hend]
    rfl
  | cons n rest ih =>
    have hn : tree.nodes[i]? = some n := by
      rw [← List.head?_drop, h, List.head?_cons]
    have hi : n.1 = i := by
      rw [getElem?_nodes, Option.map_eq_some_iff] at hn
      obtain ⟨r, -, rfl⟩ := hn
      rfl
    have hrest : tree.nodes.drop (i + 1) = rest := by
      rw [← List.tail_drop, h, List.tail_cons]
    rw [findingsFrom, ← openedBefore_step hn, ih hrest, List.flatMap_cons, List.append_assoc, problemsAt, hi]

theorem diagnostics_eq : tree.diagnostics =
    (tree.nodes.flatMap fun n => (tree.problemsAt n).map (tree.diagnose n.2)) ++
      (tree.openedBefore tree.records.size).reverse.map fun f => tree.diagnose f.node (.missingEnd f.block) := by
  have hfind : tree.findings = _ := @findingsFrom_eq tree 0 _ rfl
  show tree.findings.map (fun finding => tree.diagnose finding.node finding.problem) = _
  rw [hfind, List.map_append, List.map_flatMap, List.map_map]
  congr 1
  simp [Function.comp_def]

end SyntaxTree

/-! ## Texts of the reports -/

def Diagnostic.saysStray (d : Diagnostic) : Bool := occursIn " without matching ".toList d.message.toList

def Diagnostic.saysUnclosed (d : Diagnostic) : Bool :=
  " directive missing its matching @end".toList.isSuffixOf d.message.toList

/-- The problems that a node may have on its own. -/
def Problem.ofNode : List Problem :=
  [.syntaxError, .relativeInclude, .emptyInterpolation] ++ conditionNames.map .missingCondition ++
    loopNames.map .missingIn ++ ["component", "slot", "section", "block"].map .entityName

namespace SyntaxTree

variable {tree : SyntaxTree}

theorem entityProblem_mem {node : Record} {name : String} {p : Problem} (h : tree.entityProblem? node name = some p) :
    p ∈ Problem.ofNode := by
  have hentity : ∀ {entity : String} {allowed : Char → Bool}, entityNameChar? entity = some allowed →
      Problem.entityName entity ∈ Problem.ofNode := by
    intro entity allowed he
    unfold entityNameChar? at he
    split at he
    · next hc =>
      rw [hc]
      decide
    · split at he
      · next hm =>
        simp only [List.mem_cons, List.not_mem_nil, or_false] at hm
        rcases hm with rfl | rfl | rfl <;> decide
      · cases he
  unfold entityProblem? at h
  simp only [Option.bind_eq_bind, Option.bind_eq_some_iff] at h
  obtain ⟨allowed, ha, value, -, hp⟩ := h
  split at hp
  · cases hp
  · cases hp
    exact hentity ha

theorem conditionProblem_mem {node : Record} {name : String} {p : Problem}
    (h : tree.conditionProblem? node name = some p) : p ∈ Problem.ofNode := by
  unfold conditionProblem? at h
  split at h
  · next hc =>
    cases h
    rw [Bool.and_eq_true, decide_eq_true_eq] at hc
    simp [Problem.ofNode, hc.1]
  · cases h

theorem loopProblem_mem {node : Record} {name : String} {p : Problem} (h : tree.loopProblem? node name = some p) :
    p ∈ Problem.ofNode := by
  unfold loopProblem? at h
  split at h
  · next hc =>
    cases h
    rw [Bool.and_eq_true, decide_eq_true_eq] at hc
    simp [Problem.ofNode, hc.1]
  · cases h

theorem localProblems_mem {node : Record} {p : Problem} (h : p ∈ tree.localProblems node) : p ∈ Problem.ofNode := by
  have hif : ∀ {c : Prop} [Decidable c] {q : Problem}, q ∈ Problem.ofNode → (if c then some q else none) = some p →
      p ∈ Problem.ofNode := by
    intro c _ q hq he
    split at he
    · cases he
      exact hq
    · cases he
  unfold localProblems at h
  rw [List.mem_append] at h
  rcases h with h | h
  · split at h
    · rw [List.mem_singleton.1 h]
      simp [Problem.ofNode]
    · cases h
  · obtain ⟨x, hx, hp⟩ := List.mem_filterMap.1 h
    have hx' : x = some p := hp
    subst hx'
    split at hx
    · simp only [List.mem_cons, List.not_mem_nil, or_false] at hx
      rcases hx with hx | hx | hx | hx
      · exact conditionProblem_mem hx.symm
      · exact loopProblem_mem hx.symm
      · exact entityProblem_mem hx.symm
      · exact hif (by simp [Problem.ofNode]) hx.symm
    · rw [List.mem_singleton] at hx
      exact hif (by simp [Problem.ofNode]) hx.symm
    · cases hx

end SyntaxTree

theorem Problem.ofNode_texts : ∀ p ∈ Problem.ofNode, occursIn " without matching ".toList p.message.toList = false ∧
    " directive missing its matching @end".toList.isSuffixOf p.message.toList = false := by
  decide +kernel

theorem Problem.stray_texts (rest : String) : occursIn " without matching ".toList (stray rest).message.toList = true ∧
    " directive missing its matching @end".toList.isSuffixOf (stray rest).message.toList = false := by
  by_cases h : rest = ""
  · subst h
    decide +kernel
  · rw [stray, if_neg h, message]
    simp only [toString, String.toList_append]
    constructor
    · rw [occursIn_iff]
      exact ⟨"@end".toList ++ rest.toList, '@' :: (rest.toList ++ " directive".toList), by simp⟩
    · rw [Bool.eq_false_iff]
      intro hs
      obtain ⟨front, hf⟩ := List.isSuffixOf_iff_suffix.1 hs
      -- the two texts end in different letters
      have hd : " directive missing its matching @end".toList.getLast? = some 'd' := by decide +kernel
      have he : " directive".toList.getLast? = some 'e' := by decide +kernel
      have hlast := congrArg List.getLast? hf
      rw [List.getLast?_append, List.getLast?_append, hd, he] at hlast
      simp at hlast

theorem Problem.missingEnd_texts {block : String} (h : block ∈ blockNames) :
    occursIn " without matching ".toList (missingEnd block).message.toList = false ∧
    " directive missing its matching @end".toList.isSuffixOf (missingEnd block).message.toList = true := by
  have hall : ∀ block ∈ blockNames, occursIn " without matching ".toList (missingEnd block).message.toList = false ∧
      " directive missing its matching @end".toList.isSuffixOf (missingEnd block).message.toList = true := by
    decide +kernel
  exact hall block h

theorem Kind.mem_blockNames {k : Kind} {block : String} (h : k.opens? = some block) : block ∈ blockNames := by
  cases k with
  | directive name =>
    by_cases hm : name ∈ blockNames
    · rw [opens?, if_pos hm] at h
      cases h
      exact hm
    · rw [opens?, if_neg hm] at h
      cases h
  | _ => cases h

/-! ## One report for each -/

namespace SyntaxTree

variable (tree : SyntaxTree)

/-- The errors for closers that take no block, in document order. -/
def strayErrors (m : Nat → Option Nat) : List Diagnostic :=
  tree.nodes.filterMap fun n =>
    if (m n.1).isNone then n.2.kind.closes?.map fun rest => tree.diagnose n.2 (.stray rest) else none

/-- The errors for openers whose block no closer takes, in document order. -/
def unclosedErrors (m : Nat → Option Nat) : List Diagnostic :=
  tree.nodes.filterMap fun n =>
    if untaken m tree.records.size n.1 then n.2.kind.opens?.map fun block => tree.diagnose n.2 (.missingEnd block)
    else none

variable {tree}

theorem stray_partner {n : Nat × Record} (hn : n ∈ tree.nodes) :
    Frame.stray? (tree.openedBefore n.1) (Role.ofKind n.2.kind) =
      if (tree.partner? n.1).isNone then n.2.kind.closes?.map Problem.stray else none := by
  have hany : (tree.openedBefore n.1).any (n.2.kind.takes ·.block) = (tree.partner? n.1).isSome := by
    rw [partner_eq (mem_nodes.1 hn), Option.isSome_map, Bool.eq_iff_iff, List.any_eq_true, List.find?_isSome]
  rw [Frame.stray_eq, hany]
  cases tree.partner? n.1 <;> rfl

theorem unclosed_eq :
    (tree.openedBefore tree.records.size).reverse.map (fun f => tree.diagnose f.node (.missingEnd f.block)) =
      tree.unclosedErrors tree.partner? := by
  have hall : tree.nodes.take tree.records.size = tree.nodes := by rw [← length_nodes, List.take_length]
  rw [openedBefore_eq, openersBefore, hall, List.filter_filterMap, List.map_filterMap, unclosedErrors]
  congr 1
  funext n
  cases n.2.kind.opens? with
  | none => cases untaken tree.partner? tree.records.size n.1 <;> rfl
  | some block => cases hfree : untaken tree.partner? tree.records.size n.1 <;> simp [Option.filter, hfree]

theorem unclosed_texts {m : Nat → Option Nat} {d : Diagnostic} (hd : d ∈ tree.unclosedErrors m) :
    d.saysStray = false ∧ d.saysUnclosed = true := by
  obtain ⟨n, -, hd⟩ := List.mem_filterMap.1 hd
  split at hd
  · obtain ⟨block, hb, rfl⟩ := Option.map_eq_some_iff.1 hd
    exact Problem.missingEnd_texts (Kind.mem_blockNames hb)
  · cases hd

theorem filter_stray : tree.diagnostics.filter (·.saysStray) = tree.strayErrors tree.partner? := by
  have hlocal : ∀ n : Nat × Record, ((tree.localProblems n.2).map (tree.diagnose n.2)).filter (·.saysStray) = [] := by
    intro n
    rw [List.filter_eq_nil_iff]
    intro d hd
    obtain ⟨p, hp, rfl⟩ := List.mem_map.1 hd
    rw [Bool.not_eq_true]
    exact (Problem.ofNode_texts p (localProblems_mem hp)).1
  have hunclosed : (tree.unclosedErrors tree.partner?).filter (·.saysStray) = [] := by
    rw [List.filter_eq_nil_iff]
    intro d hd
    rw [Bool.not_eq_true]
    exact (unclosed_texts hd).1
  have hstray : ∀ n ∈ tree.nodes, ((tree.problemsAt n).map (tree.diagnose n.2)).filter (·.saysStray) =
      (if (tree.partner? n.1).isNone then n.2.kind.closes?.map fun rest => tree.diagnose n.2 (.stray rest)
        else none).toList := by
    intro n hn
    rw [problemsAt, List.map_append, List.filter_append, hlocal, List.nil_append, stray_partner hn]
    cases (tree.partner? n.1).isNone with
    | false => rfl
    | true =>
      cases n.2.kind.closes? with
      | none => rfl
      | some rest =>
        have : (tree.diagnose n.2 (.stray rest)).saysStray = true := (Problem.stray_texts rest).1
        simp [this]
  rw [diagnostics_eq, unclosed_eq, List.filter_append, hunclosed, List.append_nil, List.filter_flatMap]
  exact (List.flatMap_congr hstray).trans (List.filterMap_eq_flatMap_toList _ _).symm

theorem front_not_unclosed {d : Diagnostic}
    (hd : d ∈ tree.nodes.flatMap fun n => (tree.problemsAt n).map (tree.diagnose n.2)) : d.saysUnclosed = false := by
  obtain ⟨n, hn, hd⟩ := List.mem_flatMap.1 hd
  obtain ⟨p, hp, rfl⟩ := List.mem_map.1 hd
  rw [problemsAt, List.mem_append, stray_partner hn] at hp
  rcases hp with hp | hp
  · exact (Problem.ofNode_texts p (localProblems_mem hp)).2
  · split at hp
    · rw [Option.mem_toList] at hp
      obtain ⟨rest, -, rfl⟩ := Option.map_eq_some_iff.1 hp
      exact (Problem.stray_texts rest).2
    · cases hp

theorem openers_balance (tree : SyntaxTree) (i : Nat) :
    (tree.nodes.take i).countP (fun n => n.2.kind.opens?.isSome) +
        (tree.nodes.take i).countP (fun n => n.2.kind.closes?.isSome && (tree.partner? n.1).isNone) =
      (tree.nodes.take i).countP (fun n => n.2.kind.closes?.isSome) + (tree.openedBefore i).length := by
  have htake : ∀ {i r}, tree.records[i]? = some r → tree.nodes.take (i + 1) = tree.nodes.take i ++ [(i, r)] := by
    intro i r hr
    rw [List.take_add_one, getElem?_nodes, hr, Option.map_some, Option.toList_some]
  apply openedBefore_induction (P := fun i opened =>
    (tree.nodes.take i).countP (fun n => n.2.kind.opens?.isSome) +
        (tree.nodes.take i).countP (fun n => n.2.kind.closes?.isSome && (tree.partner? n.1).isNone) =
      (tree.nodes.take i).countP (fun n => n.2.kind.closes?.isSome) + opened.length)
  · rfl
  · intro i hr ih
    rw [List.take_add_one, getElem?_nodes, hr]
    simpa using ih
  · intro i r block hr ho ih
    have hc := Kind.closes_of_opens ho
    rw [htake hr]
    simp only [List.countP_append, List.countP_singleton, ho, hc]
    simp
    omega
  · intro i r hr ho ih
    rw [htake hr]
    simp only [List.countP_append, List.countP_singleton, ho, partner_eq hr]
    cases hf : (tree.openedBefore i).find? (r.kind.takes ·.block) with
    | none =>
      rw [List.eraseP_of_forall_not (List.find?_eq_none.1 hf)]
      cases r.kind.closes? <;> simp <;> omega
    | some f =>
      have hmem := List.mem_of_find?_eq_some hf
      have htakes := List.find?_some hf
      have hpos := List.length_pos_of_mem hmem
      have hc : r.kind.closes?.isSome = true := by
        cases hc : r.kind.closes? with
        | none => simp [Kind.takes, hc] at htakes
        | some rest => rfl
      rw [List.length_eraseP_of_mem hmem htakes]
      simp [hc]
      omega

theorem length_strayErrors (m : Nat → Option Nat) : (tree.strayErrors m).length =
    tree.nodes.countP fun n => n.2.kind.closes?.isSome && (m n.1).isNone := by
  rw [strayErrors, List.length_filterMap_eq_countP]
  congr 1
  funext n
  cases m n.1 <;> simp

/-- Closers take blocks greedily, each the latest that is still open and that it may take. Every closer
without a block and, at the end, every opener without a closer is reported once, and nothing else is
reported so. -/
theorem blocks_matched (tree : SyntaxTree) : ∃ m : Nat → Option Nat, tree.Matching m ∧
    tree.diagnostics.filter (·.saysStray) = tree.strayErrors m ∧
    (∃ front, tree.diagnostics = front ++ tree.unclosedErrors m ∧ ∀ d ∈ front, d.saysUnclosed = false) ∧
    (∀ d ∈ tree.unclosedErrors m, d.saysUnclosed = true) ∧
    tree.nodes.countP (fun n => n.2.kind.opens?.isSome) + (tree.strayErrors m).length =
      tree.nodes.countP (fun n => n.2.kind.closes?.isSome) + (tree.unclosedErrors m).length := by
  refine ⟨tree.partner?, partner_matching, filter_stray, ?_, ?_, ?_⟩
  · refine ⟨tree.nodes.flatMap fun n => (tree.problemsAt n).map (tree.diagnose n.2), ?_, ?_⟩
    · rw [diagnostics_eq, unclosed_eq]
    · intro d hd
      exact front_not_unclosed hd
  · intro d hd
    exact (unclosed_texts hd).2
  · have hbalance := tree.openers_balance tree.records.size
    rw [← length_nodes, List.take_length, length_nodes] at hbalance
    rw [length_strayErrors, hbalance, ← unclosed_eq, List.length_map, List.length_reverse]

end SyntaxTree

end EdgeTemplate
