import Mathlib.Data.List.Find
import EdgeTemplate.Proofs.BlockMatch
import EdgeTemplate.Proofs.Graft
import EdgeTemplate.Proofs.PositionSound

/-!
# Diagnostics move with their text

A text without diagnostics in front of a tag line moves what is reported behind it and changes nothing else
(`diagnostics_append`). The nodes of both parts stand in the tree of the whole as they stood apart
(`SyntaxTree.Embeds`), so each is found to have the same problems. The first part leaves no block open, and
where it ends a line starts, so offsets in the second part move by whole lines (`LineIndex.positionAt_append`).
-/

namespace EdgeTemplate

/-! ## Positions -/

def Range.down (lines : Nat) (r : Range) : Range := ⟨r.start.down lines, r.stop.down lines⟩

def Diagnostic.down (lines : Nat) (d : Diagnostic) : Diagnostic := { d with range := d.range.down lines }

/-- The same diagnostic from the start of the document on. -/
def Diagnostic.fromTop (d : Diagnostic) : Diagnostic := { d with range := { d.range with start := ⟨0, 0⟩ } }

namespace LineIndex

theorem range_append {a : List Char} (h : atLineStart a = true) (b : List Char) (start stop : Nat) :
    (ofText (a ++ b)).range ((start : Int) + a.length) ((stop : Int) + a.length) =
      ((ofText b).range start stop).down (a.count '\n') := by
  rw [range, positionAt_append h, positionAt_append h]
  rfl

end LineIndex

/-! ## Nodes of a part -/

namespace SyntaxTree

/-- Below the root, children are nodes below the root and spans are parts of the text. -/
structure Rooted (tree : SyntaxTree) : Prop where
  children : ∀ (i : Nat) (r : Record), i ≠ 0 → tree.records[i]? = some r → ∀ c ∈ r.children,
    ∃ (j : Nat) (s : Record), c = j ∧ j ≠ 0 ∧ tree.records[j]? = some s
  span : ∀ (i : Nat) (r : Record), i ≠ 0 → tree.records[i]? = some r → ∃ start stop : Nat,
    r.start = start ∧ r.stop = stop ∧ start < stop ∧ stop ≤ tree.text.length
  range : ∀ (i : Nat) (r : Record), tree.records[i]? = some r → ∃ stop : Nat,
    r.subtreeEnd = stop ∧ i < stop ∧ stop ≤ tree.records.size

/-- The nodes of `part` below its root stand in `whole`, `offset` characters and `nodes` nodes further on. -/
structure Embeds (whole part : SyntaxTree) (offset nodes : Nat) : Prop where
  rooted : part.Rooted
  text : ∃ front back, whole.text = front ++ (part.text ++ back) ∧ front.length = offset
  record : ∀ (i : Nat) (r : Record), i ≠ 0 → part.records[i]? = some r →
    whole.records[i + nodes]? = some (r.shift offset nodes)

namespace Embeds

variable {whole part : SyntaxTree} {offset nodes : Nat} (h : whole.Embeds part offset nodes) {i : Nat} {r : Record}
  (hi : i ≠ 0) (hr : part.records[i]? = some r)
include h

theorem slice_shift (start : Nat) {stop : Nat} (hle : stop ≤ part.text.length) :
    slice whole.text ((start : Int) + offset) ((stop : Int) + offset) = slice part.text start stop := by
  obtain ⟨front, back, htext, rfl⟩ := h.text
  rw [htext, ← Int.natCast_add, ← Int.natCast_add, slice_natCast, slice_natCast, Nat.add_comm stop,
    Nat.add_comm start, List.take_length_add_append, List.drop_length_add_append, List.take_append_of_le_length hle]

theorem record?_shift (hi : i ≠ 0) (hr : part.records[i]? = some r) :
    whole.record? ((i : Int) + nodes) = some (r.shift offset nodes) := by
  rw [← Int.natCast_add, record?_natCast, h.record i r hi hr]

theorem kindAt_shift (hi : i ≠ 0) (hr : part.records[i]? = some r) :
    whole.kindAt? ((i : Int) + nodes) = part.kindAt? i := by
  rw [kindAt?, kindAt?, h.record?_shift hi hr, record?_natCast, hr]
  rfl

include hi hr

theorem kindAt_child {c : Int} (hc : c ∈ r.children) : whole.kindAt? (c + nodes) = part.kindAt? c := by
  obtain ⟨j, s, rfl, hj, hs⟩ := h.rooted.children i r hi hr c hc
  exact h.kindAt_shift hj hs

theorem childOfKind_shift (kind : Kind) :
    whole.childOfKind? (r.shift offset nodes) kind = (part.childOfKind? r kind).map (· + (nodes : Int)) := by
  show (r.children.map (· + (nodes : Int))).find? _ = _
  rw [List.find?_map, childOfKind?]
  congr 1
  refine List.find?_congr fun c hc => ?_
  rw [Function.comp_apply, h.kindAt_child hi hr hc]

theorem sourceOf_shift : whole.sourceOf (r.shift offset nodes) = part.sourceOf r := by
  obtain ⟨start, stop, hstart, hstop, -, hle⟩ := h.rooted.span i r hi hr
  show slice whole.text (r.start + offset) (r.stop + offset) = slice part.text r.start r.stop
  rw [hstart, hstop, h.slice_shift _ hle]

theorem child_shift (kind : Kind) : (whole.childOfKind? (r.shift offset nodes) kind = none ∧
      part.childOfKind? r kind = none) ∨
    ∃ (j : Nat) (s : Record), j ≠ 0 ∧ part.records[j]? = some s ∧ part.childOfKind? r kind = some (j : Int) ∧
      whole.childOfKind? (r.shift offset nodes) kind = some ((j : Int) + nodes) := by
  rw [h.childOfKind_shift hi hr]
  cases hc : part.childOfKind? r kind with
  | none => exact .inl ⟨rfl, rfl⟩
  | some c =>
    obtain ⟨j, s, rfl, hj, hs⟩ := h.rooted.children i r hi hr c (List.mem_of_find?_eq_some hc)
    exact .inr ⟨j, s, hj, hs, rfl, rfl⟩

theorem arguments_shift : (whole.arguments? (r.shift offset nodes) = none ∧ part.arguments? r = none) ∨
    ∃ (j : Nat) (s : Record), j ≠ 0 ∧ part.records[j]? = some s ∧ part.arguments? r = some ((j : Int), s) ∧
      whole.arguments? (r.shift offset nodes) = some ((j : Int) + nodes, s.shift offset nodes) := by
  unfold arguments?
  rcases h.child_shift hi hr .arguments with ⟨hw, hp⟩ | ⟨j, s, hj, hs, hp, hw⟩
  · rw [hw, hp]
    exact .inl ⟨rfl, rfl⟩
  · have hrec := h.record?_shift hj hs
    refine .inr ⟨j, s, hj, hs, ?_, ?_⟩
    · simp [hp, hs]
    · simp [hw, hrec]

theorem lastKind_shift : (r.shift offset nodes).children.getLast?.bind whole.kindAt? =
    r.children.getLast?.bind part.kindAt? := by
  show (r.children.map (· + (nodes : Int))).getLast?.bind _ = _
  rw [List.getLast?_map]
  cases hc : r.children.getLast? with
  | none => rfl
  | some c => exact h.kindAt_child hi hr (List.mem_of_getLast? hc)

theorem argumentSource_shift : whole.argumentSource? (r.shift offset nodes) = part.argumentSource? r := by
  unfold argumentSource?
  rcases h.arguments_shift hi hr with ⟨hw, hp⟩ | ⟨j, s, hj, hs, hp, hw⟩
  · rw [hw, hp]
    rfl
  · have hlast := h.lastKind_shift hj hs
    obtain ⟨start, stop, hstart, hstop, hlt, hle⟩ := h.rooted.span j s hj hs
    have hinner : (start : Int) + offset + 1 = ((start + 1 : Nat) : Int) + offset := by omega
    rw [hw, hp]
    show some (slice whole.text (s.start + offset + 1) (if _ then s.stop + offset - 1 else s.stop + offset)) =
      some (slice part.text (s.start + 1) (if _ then s.stop - 1 else s.stop))
    rw [hlast, hstart, hstop, hinner]
    congr 1
    split
    · have houter : (stop : Int) + offset - 1 = ((stop - 1 : Nat) : Int) + offset := by omega
      have hbefore : (stop : Int) - 1 = ((stop - 1 : Nat) : Int) := by omega
      rw [houter, hbefore, h.slice_shift _ (by omega)]
      rfl
    · rw [h.slice_shift _ hle]
      rfl

omit hi in
theorem descendant_listed {kind : Kind} {c : Int} (hc : c ∈ part.descendantsOfKind i r kind) :
    ∃ (j : Nat) (s : Record), c = j ∧ j ≠ 0 ∧ part.records[j]? = some s := by
  obtain ⟨stop, hstop, hlt, hle⟩ := h.rooted.range i r hr
  obtain ⟨k, hk, rfl⟩ := List.mem_map.1 (List.mem_filter.1 hc).1
  rw [List.mem_range, hstop] at hk
  have hlist : i + 1 + k < part.records.size := by omega
  exact ⟨i + 1 + k, part.records[i + 1 + k], by omega, by omega, Array.getElem?_eq_getElem hlist⟩

omit hi in
theorem descendants_shift (kind : Kind) : whole.descendantsOfKind ((i : Int) + nodes) (r.shift offset nodes) kind =
    (part.descendantsOfKind i r kind).map (· + (nodes : Int)) := by
  obtain ⟨stop, hstop, hlt, hle⟩ := h.rooted.range i r hr
  have hcount : ((r.subtreeEnd + nodes) - ((i : Int) + nodes + 1)).toNat = (r.subtreeEnd - ((i : Int) + 1)).toNat := by
    omega
  unfold descendantsOfKind
  show List.filter _ ((List.range ((r.subtreeEnd + nodes) - ((i : Int) + nodes + 1)).toNat).map _) = _
  rw [hcount, List.filter_map, List.filter_map, List.map_map]
  have hfilter : ∀ k ∈ List.range (r.subtreeEnd - ((i : Int) + 1)).toNat,
      whole.kindAt? ((i : Int) + nodes + 1 + k) = part.kindAt? ((i : Int) + 1 + k) := by
    intro k hk
    rw [List.mem_range] at hk
    have hlist : i + 1 + k < part.records.size := by omega
    have hplace : (i : Int) + nodes + 1 + k = ((i + 1 + k : Nat) : Int) + nodes := by omega
    have hbefore : (i : Int) + 1 + k = ((i + 1 + k : Nat) : Int) := by omega
    rw [hplace, hbefore]
    exact h.kindAt_shift (by omega) (Array.getElem?_eq_getElem hlist)
  rw [List.filter_congr fun k hk => ?_]
  · refine List.map_congr_left fun k _ => ?_
    rw [Function.comp_apply]
    omega
  · rw [Function.comp_apply, Function.comp_apply, hfilter k hk]

theorem firstString_shift : whole.firstString? (r.shift offset nodes) = part.firstString? r := by
  unfold firstString?
  rcases h.arguments_shift hi hr with ⟨hw, hp⟩ | ⟨j, s, hj, hs, hp, hw⟩
  · rw [hw, hp]
    rfl
  · have hstrings :
        (whole.descendantsOfKind ((j : Int) + nodes) (s.shift offset nodes) .string).filterMap whole.record? =
          ((part.descendantsOfKind j s .string).filterMap part.record?).map (Record.shift offset nodes) := by
      rw [h.descendants_shift hs, List.filterMap_map, List.map_filterMap]
      refine List.filterMap_congr fun c hc => ?_
      obtain ⟨k, t, rfl, hk, ht⟩ := h.descendant_listed hs hc
      rw [Function.comp_apply, h.record?_shift hk ht, record?_natCast, ht, Option.map_some]
    rw [hw, hp]
    show (List.find? _ (List.filterMap _ _)).bind _ = (List.find? _ (List.filterMap _ _)).bind _
    rw [hstrings, List.find?_map, Option.bind_map]
    show (List.find? (fun t : Record => !t.isError) _).bind _ = (List.find? (fun t : Record => !t.isError) _).bind _
    cases hf : ((part.descendantsOfKind j s .string).filterMap part.record?).find? (fun t : Record => !t.isError) with
    | none => rfl
    | some literal =>
      obtain ⟨c, hc, hrec⟩ := List.mem_filterMap.1 (List.mem_of_find?_eq_some hf)
      obtain ⟨k, t, rfl, hk, ht⟩ := h.descendant_listed hs hc
      rw [record?_natCast, ht] at hrec
      cases hrec
      show some ((whole.sourceOf (literal.shift offset nodes)).drop 1).dropLast = _
      rw [h.sourceOf_shift hk ht]
      rfl

theorem interpolationProblem_shift :
    whole.interpolationProblem? (r.shift offset nodes) = part.interpolationProblem? r := by
  unfold interpolationProblem?
  rcases h.child_shift hi hr .expression with ⟨hw, hp⟩ | ⟨j, s, hj, hs, hp, hw⟩
  · rw [hw, hp]
    rfl
  · have hsource := h.sourceOf_shift hj hs
    rw [hw, hp, Option.bind_some, Option.bind_some, h.record?_shift hj hs, record?_natCast, hs]
    simp only [Option.all_some, hsource]

theorem localProblems_shift : whole.localProblems (r.shift offset nodes) = part.localProblems r := by
  have hsource := h.argumentSource_shift hi hr
  have hstring := h.firstString_shift hi hr
  have hinter := h.interpolationProblem_shift hi hr
  unfold localProblems
  simp only [conditionProblem?, loopProblem?, entityProblem?, includeProblem?, hsource, hstring, hinter]
  rfl

end Embeds

/-! ## Walks over a part -/

end SyntaxTree

theorem Record.shift_zero (r : Record) : r.shift 0 0 = r := by
  have hparent : (fun i : Nat => if i = 0 then 0 else i + 0) = id := by
    funext i
    by_cases hi : i = 0
    · simp [hi]
    · simp [hi]
  simp only [shift, hparent]
  simp

def Frame.shift (offset nodes : Nat) (f : Frame) : Frame :=
  { f with index := f.index + nodes, node := f.node.shift offset nodes }

def Finding.shift (offset nodes : Nat) (f : Finding) : Finding :=
  { f with index := f.index + nodes, node := f.node.shift offset nodes }

theorem Frame.advance_shift (offset nodes : Nat) (opened : List Frame) (index : Nat) (node : Record) (role : Role) :
    Frame.advance (opened.map (Frame.shift offset nodes)) (index + nodes) (node.shift offset nodes) role =
      (Frame.advance opened index node role).map (Frame.shift offset nodes) := by
  cases role with
  | opener block => rfl
  | closer => exact List.map_tail.symm
  | namedCloser block => exact List.eraseP_map
  | neutral => rfl

theorem Frame.stray_shift (offset nodes : Nat) (opened : List Frame) (role : Role) :
    Frame.stray? (opened.map (Frame.shift offset nodes)) role = Frame.stray? opened role := by
  cases role with
  | closer => simp [stray?]
  | namedCloser block => simp [stray?, Function.comp_def, Frame.shift]
  | _ => rfl

namespace SyntaxTree

variable {whole part : SyntaxTree}

theorem Embeds.findingsFrom_shift {offset nodes : Nat} (h : whole.Embeds part offset nodes) (opened : List Frame)
    {l : List (Nat × Record)} (hl : ∀ n ∈ l, n.1 ≠ 0 ∧ part.records[n.1]? = some n.2) :
    whole.findingsFrom (opened.map (Frame.shift offset nodes))
        (l.map fun n => (n.1 + nodes, n.2.shift offset nodes)) =
      (part.findingsFrom opened l).map (Finding.shift offset nodes) := by
  induction l generalizing opened with
  | nil =>
    simp only [List.map_nil, findingsFrom, ← List.map_reverse, List.map_map]
    rfl
  | cons n l ih =>
    obtain ⟨hn, hl⟩ := List.forall_mem_cons.1 hl
    have hproblems := h.localProblems_shift hn.1 hn.2
    have hadvance := Frame.advance_shift offset nodes opened n.1 n.2 (Role.ofKind n.2.kind)
    have hstray := Frame.stray_shift offset nodes opened (Role.ofKind n.2.kind)
    have hkind : (n.2.shift offset nodes).kind = n.2.kind := rfl
    rw [List.map_cons, findingsFrom, findingsFrom, hkind, hproblems, hadvance, hstray, ih _ hl]
    simp only [List.map_append, List.map_map]
    rfl

/-- A part without findings leaves no block open. -/
theorem Embeds.findingsFrom_clean (h : whole.Embeds part 0 0) {opened : List Frame} {l : List (Nat × Record)}
    (hl : ∀ n ∈ l, n.1 ≠ 0 ∧ part.records[n.1]? = some n.2) (hclean : part.findingsFrom opened l = [])
    (rest : List (Nat × Record)) : whole.findingsFrom opened (l ++ rest) = whole.findingsFrom [] rest := by
  induction l generalizing opened with
  | nil =>
    rw [findingsFrom, List.map_eq_nil_iff, List.reverse_eq_nil_iff] at hclean
    rw [hclean, List.nil_append]
  | cons n l ih =>
    obtain ⟨hn, hl⟩ := List.forall_mem_cons.1 hl
    have hproblems := h.localProblems_shift hn.1 hn.2
    rw [Record.shift_zero] at hproblems
    rw [findingsFrom, List.append_eq_nil_iff, List.map_eq_nil_iff] at hclean
    rw [List.cons_append, findingsFrom, hproblems, hclean.1, ih hl hclean.2]
    rfl

theorem mem_findingsFrom {tree : SyntaxTree} {opened : List Frame} {l : List (Nat × Record)} {f : Finding}
    (hf : f ∈ tree.findingsFrom opened l) :
    (f.index, f.node) ∈ l ∨ ∃ frame ∈ opened, frame.index = f.index ∧ frame.node = f.node := by
  induction l generalizing opened with
  | nil =>
    obtain ⟨frame, hm, rfl⟩ := List.mem_map.1 hf
    exact .inr ⟨frame, List.mem_reverse.1 hm, rfl, rfl⟩
  | cons n l ih =>
    rw [findingsFrom, List.mem_append] at hf
    rcases hf with hf | hf
    · obtain ⟨p, -, rfl⟩ := List.mem_map.1 hf
      exact .inl List.mem_cons_self
    · rcases ih hf with hm | ⟨frame, hm, hindex, hnode⟩
      · exact .inl (List.mem_cons_of_mem n hm)
      · -- a block that is open behind a node was open before it, or the node has opened it
        have hopen : frame ∈ opened ∨ frame.index = n.1 ∧ frame.node = n.2 := by
          generalize Role.ofKind n.2.kind = role at hm
          cases role with
          | opener block =>
            rcases List.mem_cons.1 hm with rfl | hm
            · exact .inr ⟨rfl, rfl⟩
            · exact .inl hm
          | closer => exact .inl (List.mem_of_mem_tail hm)
          | namedCloser block => exact .inl (List.mem_of_mem_eraseP hm)
          | neutral => exact .inl hm
        rcases hopen with hm | ⟨hi, hn⟩
        · exact .inr ⟨frame, hm, hindex, hnode⟩
        · rw [← hindex, ← hnode, hi, hn]
          exact .inl List.mem_cons_self

theorem findings_document {tree : SyntaxTree} {root : Record} {rest : List (Nat × Record)}
    (h : tree.nodes = (0, root) :: rest) (hk : root.kind = .document) :
    tree.findings = (if root.hasError then [⟨0, root, .syntaxError⟩] else []) ++ tree.findingsFrom [] rest := by
  have hproblems : tree.localProblems root = if root.hasError then [.syntaxError] else [] := by
    rw [localProblems, hk]
    exact List.append_nil _
  rw [findings, h, findingsFrom, hproblems, hk]
  cases root.hasError with
  | true => rfl
  | false => rfl

end SyntaxTree

/-! ## Two parts of a text -/

namespace Forest

theorem nodes_append (f g : Forest) (parent : Option Nat) (offset index : Nat) :
    (f.append g).nodes parent offset index =
      f.nodes parent offset index ++ g.nodes parent (offset + f.width) (index + f.size) := by
  simp only [nodes, records_append, List.zipIdx_append, length_records, List.map_append]

theorem nodes_shift (f : Forest) (offset nodes : Nat) :
    f.nodes (some 0) offset (1 + nodes) =
      (f.nodes (some 0) 0 1).map fun n => (n.1 + nodes, n.2.shift offset nodes) := by
  have hrecords := f.records_shift (some 0) 0 1 offset nodes (by simp)
  rw [Option.map_some, if_pos rfl, Nat.zero_add] at hrecords
  rw [Forest.nodes, hrecords, Forest.nodes, ← List.map_zipIdx, List.zipIdx_eq_map_add, @List.zipIdx_eq_map_add _ _ 1]
  simp only [List.map_map]
  refine List.map_congr_left fun n _ => ?_
  simp only [Function.comp_apply, Prod.map_fst, Prod.map_snd, id_eq, Prod.mk.injEq, and_true]
  omega

theorem node_bounds {f : Forest} {parent : Option Nat} {offset index : Nat} {n : Nat × Record}
    (hn : n ∈ f.nodes parent offset index) : ∃ start stop : Nat, n.2.start = start ∧ n.2.stop = stop ∧
      stop ≤ offset + f.width := by
  induction f generalizing parent offset index with
  | nil => cases hn
  | node label children siblings ihc ihs =>
    rw [nodes_node, List.mem_cons, List.mem_append] at hn
    rw [width]
    rcases hn with rfl | hn | hn
    · exact ⟨_, _, rfl, rfl, by omega⟩
    · obtain ⟨start, stop, hstart, hstop, hle⟩ := ihc hn
      exact ⟨start, stop, hstart, hstop, by omega⟩
    · obtain ⟨start, stop, hstart, hstop, hle⟩ := ihs hn
      exact ⟨start, stop, hstart, hstop, by omega⟩

end Forest

theorem ofForest_rooted {text : List Char} {f : Forest} (hw : f.width = text.length)
    (hspan : ∀ n ∈ f.nodes (some 0) 0 1, n.2.start < n.2.stop) : (SyntaxTree.ofForest text f).Rooted := by
  have h : (SyntaxTree.ofForest text f).nodes = (Forest.node { kind := .document } f .nil).nodes none 0 0 := rfl
  constructor
  · intro i r hi hr c hc
    rw [SyntaxTree.children_listed h hr] at hc
    obtain ⟨n, hn, rfl⟩ := List.mem_map.1 hc
    obtain ⟨hm, hp⟩ := List.mem_filter.1 hn
    have hrec := SyntaxTree.mem_nodes.1 hm
    have hlt := (SyntaxTree.parent_listed h hrec (beq_iff_eq.1 hp)).1
    exact ⟨n.1, n.2, rfl, by omega, hrec⟩
  · intro i r hi hr
    have hm := mem_ofForest hr hi
    obtain ⟨start, stop, hstart, hstop, hle⟩ := Forest.node_bounds hm
    have hlt := hspan _ hm
    rw [hw, Nat.zero_add] at hle
    dsimp only at hstart hstop hlt
    exact ⟨start, stop, hstart, hstop, by omega, hle⟩
  · intro i r hr
    obtain ⟨hlt, hle⟩ := SyntaxTree.range_listed h hr
    exact ⟨r.subtreeEnd.toNat, by omega, by omega, by omega⟩

theorem parse_rooted (text : List Char) : (SyntaxTree.parse text).Rooted := by
  rw [SyntaxTree.parse_eq_ofForest]
  refine ofForest_rooted (width_items text) fun n hn => ?_
  have := (Forest.node_index hn).1
  exact span_nonempty (record_of_node hn) (by omega)

def rootRecord (text : List Char) : Record :=
  Forest.record none 0 0 { kind := .document } (Forest.ofItems (items true text))

section

variable {a b : List Char} (hline : atLineStart a = true)
  (hclean : (Forest.ofItems (items true a)).hasError = false) (hb : startsTagLine b = true)
include hline hclean hb

theorem items_append_clean : items true (a ++ b) = items true a ++ items true b := by
  refine items_graft hb (fun _ => rfl) (fun hne => ?_) (Forest.hasError_ofItems hclean)
  rw [atLineStart, List.getLast?_eq_some_getLast hne] at hline
  rw [List.getLast?_eq_some_getLast hne, beq_iff_eq.1 hline]

theorem nodes_append_clean : (SyntaxTree.parse (a ++ b)).nodes =
    (0, rootRecord (a ++ b)) ::
      ((Forest.ofItems (items true a)).nodes (some 0) 0 1 ++
        ((Forest.ofItems (items true b)).nodes (some 0) 0 1).map fun n =>
          (n.1 + (Forest.ofItems (items true a)).size,
            n.2.shift a.length (Forest.ofItems (items true a)).size)) := by
  rw [parse_nodes, Forest.ofText, Forest.nodes_node, Forest.nodes_nil, List.append_nil, ← Forest.nodes_shift]
  have hnodes := Forest.nodes_append (Forest.ofItems (items true a)) (Forest.ofItems (items true b)) (some 0) 0 1
  rw [← Forest.ofItems_append, ← items_append_clean hline hclean hb, width_items, Nat.zero_add] at hnodes
  exact congrArg _ hnodes

theorem embeds_left : (SyntaxTree.parse (a ++ b)).Embeds (SyntaxTree.parse a) 0 0 := by
  refine ⟨parse_rooted a, ⟨[], b, rfl, rfl⟩, ?_⟩
  intro i r hi hr
  rw [Record.shift_zero, Nat.add_zero, ← SyntaxTree.mem_nodes, nodes_append_clean hline hclean hb]
  exact List.mem_cons_of_mem _ (List.mem_append_left _ (node_below_root hr hi))

theorem embeds_right : (SyntaxTree.parse (a ++ b)).Embeds (SyntaxTree.parse b) a.length
    (Forest.ofItems (items true a)).size := by
  refine ⟨parse_rooted b, ⟨a, [], by simp [SyntaxTree.parse], rfl⟩, ?_⟩
  intro i r hi hr
  rw [← SyntaxTree.mem_nodes, nodes_append_clean hline hclean hb]
  exact List.mem_cons_of_mem _ (List.mem_append_right _ (List.mem_map.2 ⟨_, node_below_root hr hi, rfl⟩))

end

/-! ## What is reported -/

theorem listed_below_root {text : List Char} :
    ∀ n ∈ (Forest.ofItems (items true text)).nodes (some 0) 0 1,
      n.1 ≠ 0 ∧ (SyntaxTree.parse text).records[n.1]? = some n.2 := by
  intro n hn
  have := (Forest.node_index hn).1
  exact ⟨by omega, record_of_node hn⟩

theorem parse_findings (text : List Char) : (SyntaxTree.parse text).findings =
    (if (Forest.ofItems (items true text)).hasError then [⟨0, rootRecord text, .syntaxError⟩] else []) ++
    (SyntaxTree.parse text).findingsFrom [] ((Forest.ofItems (items true text)).nodes (some 0) 0 1) := by
  have hnodes := parse_nodes text
  rw [Forest.ofText, Forest.nodes_node, Forest.nodes_nil, List.append_nil] at hnodes
  exact SyntaxTree.findings_document hnodes rfl

theorem findings_clean {text : List Char} (h : (SyntaxTree.parse text).diagnostics = []) :
    (Forest.ofItems (items true text)).hasError = false ∧
      (SyntaxTree.parse text).findingsFrom [] ((Forest.ofItems (items true text)).nodes (some 0) 0 1) = [] := by
  have hnone : (SyntaxTree.parse text).findings = [] := List.map_eq_nil_iff.1 h
  rw [parse_findings, List.append_eq_nil_iff] at hnone
  refine ⟨?_, hnone.2⟩
  cases he : (Forest.ofItems (items true text)).hasError with
  | false => rfl
  | true =>
    rw [he] at hnone
    cases hnone.1

theorem findings_append {a b : List Char} (hclean : (SyntaxTree.parse a).diagnostics = [])
    (hline : atLineStart a = true) (hb : startsTagLine b = true) : (SyntaxTree.parse (a ++ b)).findings =
      (if (Forest.ofItems (items true b)).hasError then [⟨0, rootRecord (a ++ b), .syntaxError⟩] else []) ++
      ((SyntaxTree.parse b).findingsFrom [] ((Forest.ofItems (items true b)).nodes (some 0) 0 1)).map
        (Finding.shift a.length (Forest.ofItems (items true a)).size) := by
  obtain ⟨herr, hfind⟩ := findings_clean hclean
  have hroot : (Forest.ofItems (items true (a ++ b))).hasError = (Forest.ofItems (items true b)).hasError := by
    rw [items_append_clean hline herr hb, Forest.ofItems_append, Forest.hasError_append, herr, Bool.false_or]
  have hleft := (embeds_left hline herr hb).findingsFrom_clean listed_below_root hfind
  have hright := (embeds_right hline herr hb).findingsFrom_shift [] listed_below_root
  rw [List.map_nil] at hright
  rw [SyntaxTree.findings_document (nodes_append_clean hline herr hb) rfl, hleft, hright, ← hroot]
  rfl

/-- The document as a whole has a syntax error. -/
def Finding.ofDocument (f : Finding) : Bool := f.index == 0 && f.problem == .syntaxError

theorem diagnose_shift {a b : List Char} (hline : atLineStart a = true) (nodes : Nat) {f : Finding}
    (hf : (f.index, f.node) ∈ (Forest.ofItems (items true b)).nodes (some 0) 0 1) :
    (SyntaxTree.parse (a ++ b)).diagnose (f.shift a.length nodes).node (f.shift a.length nodes).problem =
      ((SyntaxTree.parse b).diagnose f.node f.problem).down (a.count '\n') := by
  obtain ⟨start, stop, hstart, hstop, -⟩ := Forest.node_bounds hf
  have hrange := LineIndex.range_append hline b start stop
  rw [← hstart, ← hstop] at hrange
  exact congrArg (Diagnostic.mk f.problem.severity · f.problem.message) hrange

theorem diagnose_root (text : List Char) (p : Problem) : (SyntaxTree.parse text).diagnose (rootRecord text) p =
    ⟨p.severity, ⟨⟨0, 0⟩, (LineIndex.ofText text).positionAt text.length⟩, p.message⟩ := by
  have hstart : (rootRecord text).start = 0 := rfl
  have hstop : (rootRecord text).stop = text.length := by simp [rootRecord, Forest.record, width_items]
  rw [SyntaxTree.diagnose, hstart, hstop, LineIndex.range, ← LineIndex.positionAt_zero text]
  rfl

theorem diagnose_root_append {a : List Char} (hline : atLineStart a = true) (b : List Char) (p : Problem) :
    (SyntaxTree.parse (a ++ b)).diagnose (rootRecord (a ++ b)) p =
      (((SyntaxTree.parse b).diagnose (rootRecord b) p).down (a.count '\n')).fromTop := by
  have hstop := LineIndex.positionAt_append hline b b.length
  have hlen : (b.length : Int) + a.length = ((a ++ b).length : Nat) := by
    rw [List.length_append]
    omega
  rw [diagnose_root, diagnose_root, ← hlen, hstop]
  rfl

/-- What is reported behind a text without diagnostics is what is reported without that text, as many lines
further down as it has. Only a syntax error of the whole document still starts at the top. -/
theorem diagnostics_append {a b : List Char} (hclean : (SyntaxTree.parse a).diagnostics = [])
    (hline : atLineStart a = true) (hb : startsTagLine b = true) :
    (SyntaxTree.parse b).diagnostics =
        (SyntaxTree.parse b).findings.map (fun f => (SyntaxTree.parse b).diagnose f.node f.problem) ∧
      (SyntaxTree.parse (a ++ b)).diagnostics = (SyntaxTree.parse b).findings.map fun f =>
        let moved := ((SyntaxTree.parse b).diagnose f.node f.problem).down (a.count '\n')
        if f.ofDocument then moved.fromTop else moved := by
  refine ⟨rfl, ?_⟩
  show (SyntaxTree.parse (a ++ b)).findings.map (fun f => (SyntaxTree.parse (a ++ b)).diagnose f.node f.problem) = _
  rw [findings_append hclean hline hb, parse_findings b, List.map_append, List.map_append, List.map_map]
  congr 1
  · cases (Forest.ofItems (items true b)).hasError with
    | false => rfl
    | true => exact congrArg (fun d => [d]) (diagnose_root_append hline b .syntaxError)
  · refine List.map_congr_left fun f hf => ?_
    rcases SyntaxTree.mem_findingsFrom hf with hm | ⟨frame, hm, -⟩
    · have hindex : f.index ≠ 0 := (listed_below_root _ hm).1
      have hown : f.ofDocument = false := by simp [Finding.ofDocument, hindex]
      rw [Function.comp_apply, diagnose_shift hline _ hm]
      dsimp only
      rw [hown, if_neg Bool.false_ne_true]
    · cases hm

/-- An unclosed loop over no list, behind a closed condition of three lines. -/
theorem diagnostics_append_condition :
    ((SyntaxTree.parse "@if(user)\n  {{ name }}\n@end\n".toList).diagnostics = [] ∧
      (SyntaxTree.parse " @each(user\n".toList).findings.map Finding.ofDocument =
        [true, false, false, false, false]) ∧
    (SyntaxTree.parse ("@if(user)\n  {{ name }}\n@end\n".toList ++ " @each(user\n".toList)).diagnostics =
      (SyntaxTree.parse " @each(user\n".toList).findings.map fun f =>
        let moved := ((SyntaxTree.parse " @each(user\n".toList).diagnose f.node f.problem).down 3
        if f.ofDocument then moved.fromTop else moved :=
  ⟨⟨by decide +kernel, by decide +kernel⟩,
    (diagnostics_append (by decide +kernel) (by decide +kernel) (by decide +kernel)).2⟩

end EdgeTemplate
