import EdgeTemplate.Directive
import EdgeTemplate.Proofs.EndSound
import EdgeTemplate.Proofs.ExtentSound
import EdgeTemplate.Proofs.LiteralSound

/-!
# What the arguments of a directive say

Between its parentheses a list has all its tokens but the one that closes it, so the text of a directive is its name
with that list around it (`argumentSource_item`). The literals below a directive are those of its list, and they are
searched in the order of the text: the one that is found starts before all others that are complete
(`firstLiteral_eq_some_iff`), and stands between two quotes of its own (`source_literal`).
-/

namespace EdgeTemplate

/-! ## The first literal -/

namespace SyntaxTree

/-- A complete literal below the node at `i`, at any depth. -/
structure LiteralBelow (tree : SyntaxTree) (i : Nat) (s : Record) : Prop where
  listed : s ∈ tree.records
  kind : s.kind = .string
  complete : s.isError = false
  below : i ∈ tree.ancestors s

/-- The one of them that starts first. -/
structure FirstLiteral (tree : SyntaxTree) (i : Nat) (s : Record) : Prop where
  literal : tree.LiteralBelow i s
  least : ∀ t, tree.LiteralBelow i t → s.start ≤ t.start

/-- What the search looks for. -/
def isLiteralBelow (tree : SyntaxTree) (i : Nat) (s : Record) : Bool :=
  s.kind == .string && (tree.ancestors s).contains i && !s.isError

/-- The literal that a search below the node at `i` finds. -/
def firstLiteral? (tree : SyntaxTree) (i : Nat) (r : Record) : Option Record :=
  ((tree.descendantsOfKind i r .string).filterMap tree.record?).find? (!·.isError)

end SyntaxTree

/-- What is found in a list comes before all else that could be. -/
theorem find?_pairwise {α : Type} {R : α → α → Prop} {p : α → Bool} {l : List α} {a b : α} (h : l.Pairwise R)
    (hf : l.find? p = some a) (hb : b ∈ l) (hp : p b = true) : a = b ∨ R a b := by
  obtain ⟨-, front, back, rfl, hfront⟩ := List.find?_eq_some_iff_append.1 hf
  rcases List.mem_append.1 hb with hb | hb
  · have := hfront b hb
    rw [hp] at this
    cases this
  · rcases List.mem_cons.1 hb with rfl | hb
    · exact .inl rfl
    · exact .inr (List.rel_of_pairwise_cons (List.pairwise_append.1 h).2.1 hb)

section

variable {text : List Char} {i j : Nat} {r s t : Record}

/-- What comes after a leaf in the tree starts after it in the text. -/
theorem start_lt_of_isLeaf (hi : (SyntaxTree.parse text).records[i]? = some r)
    (hj : (SyntaxTree.parse text).records[j]? = some s) (hl : r.kind.isLeaf = true) (hlt : i < j) :
    r.start < s.start := by
  have hspan := span_nonempty hi (ne_zero_of_kind hi fun hdoc => by rw [hdoc] at hl; cases hl)
  have hend := subtreeEnd_of_isLeaf hi hl
  have hafter := Forest.node_after (node_of_record hi) (node_of_record hj) (by dsimp only; omega)
  dsimp only at hafter
  omega

theorem index_ne_of_kind (hi : (SyntaxTree.parse text).records[i]? = some r)
    (hj : (SyntaxTree.parse text).records[j]? = some s) (hk : r.kind ≠ s.kind) : i ≠ j := by
  rintro rfl
  rw [hi] at hj
  exact hk (congrArg Record.kind (Option.some.inj hj))

theorem firstLiteral_eq_find (hi : (SyntaxTree.parse text).records[i]? = some r) :
    (SyntaxTree.parse text).firstLiteral? i r =
      ((SyntaxTree.parse text).nodes.find? fun n => (SyntaxTree.parse text).isLiteralBelow i n.2).map (·.2) := by
  have hrecords : ((SyntaxTree.parse text).descendantsOfKind i r .string).filterMap (SyntaxTree.parse text).record? =
      ((SyntaxTree.parse text).nodes.filter fun n =>
        n.2.kind == .string && ((SyntaxTree.parse text).ancestors n.2).contains i).map (·.2) := by
    rw [SyntaxTree.descendants_listed (parse_nodes text) hi, List.filterMap_map, ← List.filterMap_eq_map]
    refine List.filterMap_congr fun n hn => ?_
    have hn := SyntaxTree.mem_nodes.1 (List.mem_of_mem_filter hn)
    rw [Function.comp_apply, SyntaxTree.record?_natCast, hn]
    rfl
  rw [SyntaxTree.firstLiteral?, hrecords, List.find?_map, List.find?_filter]
  congr 2
  funext n
  rw [Bool.eq_iff_iff]
  simp [SyntaxTree.isLiteralBelow]

theorem literalBelow_iff : (SyntaxTree.parse text).LiteralBelow i s ↔ ∃ n ∈ (SyntaxTree.parse text).nodes,
    (SyntaxTree.parse text).isLiteralBelow i n.2 = true ∧ n.2 = s := by
  constructor
  · rintro ⟨hs, hk, he, hb⟩
    obtain ⟨j, hj⟩ := Array.mem_iff_getElem?.1 hs
    exact ⟨(j, s), SyntaxTree.mem_nodes.2 hj, by simp [SyntaxTree.isLiteralBelow, hk, he, hb], rfl⟩
  · rintro ⟨⟨j, s⟩, hn, hp, rfl⟩
    simp only [SyntaxTree.isLiteralBelow, Bool.and_eq_true, beq_iff_eq, List.contains_iff_mem,
      Bool.not_eq_true'] at hp
    exact ⟨Array.mem_of_getElem? (SyntaxTree.mem_nodes.1 hn), hp.1.1, hp.2, hp.1.2⟩

theorem SyntaxTree.FirstLiteral.unique (hs : (SyntaxTree.parse text).FirstLiteral i s)
    (ht : (SyntaxTree.parse text).FirstLiteral i t) : s = t := by
  obtain ⟨j, hj⟩ := Array.mem_iff_getElem?.1 hs.literal.listed
  obtain ⟨k, hk⟩ := Array.mem_iff_getElem?.1 ht.literal.listed
  have hst := hs.least t ht.literal
  have hts := ht.least s hs.literal
  rcases Nat.lt_trichotomy j k with hlt | rfl | hlt
  · have := start_lt_of_isLeaf hj hk (by rw [hs.literal.kind]; rfl) hlt
    omega
  · rw [hj] at hk
    exact Option.some.inj hk
  · have := start_lt_of_isLeaf hk hj (by rw [ht.literal.kind]; rfl) hlt
    omega

theorem firstLiteral_eq_none_iff (hi : (SyntaxTree.parse text).records[i]? = some r) :
    (SyntaxTree.parse text).firstLiteral? i r = none ↔ ∀ s, ¬(SyntaxTree.parse text).LiteralBelow i s := by
  rw [firstLiteral_eq_find hi, Option.map_eq_none_iff, List.find?_eq_none]
  constructor
  · intro h s hs
    obtain ⟨n, hn, hp, -⟩ := literalBelow_iff.1 hs
    exact h n hn hp
  · intro h n hn hp
    exact h n.2 (literalBelow_iff.2 ⟨n, hn, hp, rfl⟩)

theorem firstLiteral_eq_some_iff (hi : (SyntaxTree.parse text).records[i]? = some r) :
    (SyntaxTree.parse text).firstLiteral? i r = some s ↔ (SyntaxTree.parse text).FirstLiteral i s := by
  have hfound : ∀ s, (SyntaxTree.parse text).firstLiteral? i r = some s → (SyntaxTree.parse text).FirstLiteral i s := by
    intro s hs
    rw [firstLiteral_eq_find hi, Option.map_eq_some_iff] at hs
    obtain ⟨n, hf, rfl⟩ := hs
    have hn := List.mem_of_find?_eq_some hf
    have hp := List.find?_some hf
    have hliteral := literalBelow_iff.2 ⟨n, hn, hp, rfl⟩
    refine ⟨hliteral, fun t ht => ?_⟩
    obtain ⟨m, hm, hq, rfl⟩ := literalBelow_iff.1 ht
    rcases find?_pairwise (SyntaxTree.nodes_ascend (parse_nodes text)) hf hm hq with rfl | hlt
    · exact Int.le_refl _
    · exact Int.le_of_lt (start_lt_of_isLeaf (SyntaxTree.mem_nodes.1 hn) (SyntaxTree.mem_nodes.1 hm)
        (by rw [hliteral.kind]; rfl) hlt)
  refine ⟨hfound s, fun hs => ?_⟩
  cases hf : (SyntaxTree.parse text).firstLiteral? i r with
  | none => exact absurd hs.literal ((firstLiteral_eq_none_iff hi).1 hf s)
  | some t => rw [(hfound t hf).unique hs]

/-- A complete literal stands between two quotes of one sort. -/
theorem source_literal (hs : (SyntaxTree.parse text).LiteralBelow i s) :
    ∃ (q : Quote) (body : List Char), (SyntaxTree.parse text).sourceOf s = q.char :: (body ++ [q.char]) := by
  obtain ⟨before, token, after, htext, hread, hk, he, hstart, hstop⟩ := string_token hs.listed hs.kind
  have hsource : (SyntaxTree.parse text).sourceOf s = token.lexeme := by
    rw [SyntaxTree.sourceOf, hstart, hstop]
    show slice text _ _ = _
    rw [htext, slice_append]
  rw [hs.complete] at he
  rw [hsource]
  generalize token.lexeme ++ after = cs at hread
  cases hread with
  | @literal q cs lexeme rest hl =>
    obtain ⟨body, rfl⟩ := closeLiteral_last hl
    exact ⟨q, body, rfl⟩
  | unterminated => cases he
  | _ => cases hk

end

/-! ## The accessors -/

namespace SyntaxTree

variable {tree : SyntaxTree} {d a : Record} {j : Nat}

theorem argumentSource_eq_none (h : tree.arguments? d = none) : tree.argumentSource? d = none := by
  unfold argumentSource?
  rw [h]
  rfl

theorem firstString_eq_none (h : tree.arguments? d = none) : tree.firstString? d = none := by
  unfold firstString?
  rw [h]
  rfl

theorem argumentSource_eq_slice (h : tree.arguments? d = some ((j : Int), a)) :
    tree.argumentSource? d = some (slice tree.text (a.start + 1)
      (if (a.children.getLast?.bind tree.kindAt?) == some .rightParen then a.stop - 1 else a.stop)) := by
  unfold argumentSource?
  rw [h]
  rfl

theorem firstString_eq_map (h : tree.arguments? d = some ((j : Int), a)) :
    tree.firstString? d = (tree.firstLiteral? j a).map fun s => ((tree.sourceOf s).drop 1).dropLast := by
  unfold firstString?
  rw [h, Option.map_eq_bind]
  rfl

end SyntaxTree

/-! ## The list of a directive -/

/-- A list ends with the parenthesis that closes it. -/
theorem arguments_body (inner : List Char) : ∃ body,
    (ArgumentToken.scan 0 inner).1.flatMap ArgumentToken.lexeme =
      body ++ if (Forest.nest (ArgumentToken.scan 0 inner).1).2.isEmpty then [] else [')'] := by
  rcases Forest.nest_scan_zero inner with hn | ⟨hn, -⟩
  · have hclosed : ArgumentToken.Closes 0 (ArgumentToken.scan 0 inner).1 := by
      rw [ArgumentToken.Closes, hn]
      exact Nat.zero_lt_one
    obtain ⟨init, hinit⟩ := ArgumentToken.scan_last 0 hclosed
    refine ⟨init.flatMap ArgumentToken.lexeme, ?_⟩
    rw [hn, hinit, List.flatMap_append]
    rfl
  · rw [hn]
    exact ⟨_, (List.append_nil _).symm⟩

/-- The list is closed if its last child is a parenthesis that closes it. -/
theorem arguments_closed {text : List Char} {j : Nat} {a : Record}
    (ha : (SyntaxTree.parse text).records[j]? = some a) (hk : a.kind = .arguments) :
    ((a.children.getLast?.bind (SyntaxTree.parse text).kindAt?) == some .rightParen) = !a.isError := by
  have hcloser : a.kind.closer? = some .rightParen := by
    rw [hk]
    rfl
  obtain ⟨k, last, hlast, hrec, hiff⟩ := last_child ha hcloser
  rw [hlast, Option.bind_some, SyntaxTree.kindAt?, SyntaxTree.record?_natCast, hrec, Option.map_some, Bool.eq_iff_iff]
  simp [← Bool.not_eq_true, hiff]

section

variable {text : List Char} {before after : List Item} {indent tag : List Char} {d : Record}

/-- A tag without a list has nothing but its name below it. -/
theorem arguments_none (hx : items true text = before ++ .directive indent tag none :: after)
    (hd : (itemRecords before (.directive indent tag none))[0]? = some d) :
    (SyntaxTree.parse text).arguments? d = none ∧
      ∀ s, ¬(SyntaxTree.parse text).LiteralBelow (1 + (Forest.ofItems before).size) s := by
  constructor
  · have hchild : (SyntaxTree.parse text).childOfKind? d .arguments = none := by
      refine List.find?_eq_none.2 fun c hc hk => ?_
      have := (arguments_child hx hd).1 ⟨c, hc, beq_iff_eq.1 hk⟩
      cases this
    unfold SyntaxTree.arguments?
    rw [hchild]
    rfl
  · intro s hs
    obtain ⟨n, -, hn, hkind, -⟩ := name_childOfKind hx hd
    obtain ⟨j, hj⟩ := Array.mem_iff_getElem?.1 hs.listed
    obtain ⟨hlt, hend⟩ := (SyntaxTree.mem_ancestors (parse_nodes text) (getElem?_item hx hd) hj).1 hs.below
    rw [(itemRecords_first hd).2.2] at hend
    have hsize : (Forest.ofItem .nil (.directive indent tag none)).size = 2 := rfl
    have hname := index_ne_of_kind hn hj (by rw [hkind, hs.kind]; decide)
    omega

variable {tokens : List ArgumentToken}
  (hx : items true text = before ++ .directive indent tag (some tokens) :: after)
  (hd : (itemRecords before (.directive indent tag (some tokens)))[0]? = some d)
include hx hd

theorem arguments_some {a : Record}
    (ha : (SyntaxTree.parse text).records[1 + (Forest.ofItems before).size + 2]? = some a) :
    (SyntaxTree.parse text).arguments? d = some (((1 + (Forest.ofItems before).size + 2 : Nat) : Int), a) := by
  have hchild := arguments_childOfKind hx hd
  unfold SyntaxTree.arguments?
  rw [hchild]
  show ((SyntaxTree.parse text).record? _).bind _ = _
  rw [SyntaxTree.record?_natCast, ha]
  rfl

/-- The list is the last thing in its directive. -/
theorem arguments_end {a : Record}
    (ha : (SyntaxTree.parse text).records[1 + (Forest.ofItems before).size + 2]? = some a) :
    a.subtreeEnd = d.subtreeEnd := by
  obtain ⟨b, below, hdrop, -, -, -, -, hend, -⟩ := itemRecords_arguments before indent tag tokens
  have hb : (itemRecords before (.directive indent tag (some tokens)))[2]? = some b := by
    rw [← List.head?_drop, hdrop, List.head?_cons]
  rw [getElem?_item hx hb] at ha
  cases ha
  have hlen := congrArg List.length hdrop
  rw [List.length_drop, itemRecords, Forest.length_records, List.length_cons] at hlen
  rw [hend, (itemRecords_first hd).2.2]
  omega

/-- All literals of a directive are in its list. -/
theorem literalBelow_arguments (s : Record) :
    (SyntaxTree.parse text).LiteralBelow (1 + (Forest.ofItems before).size) s ↔
      (SyntaxTree.parse text).LiteralBelow (1 + (Forest.ofItems before).size + 2) s := by
  obtain ⟨n, -, hn, hnk, -⟩ := name_childOfKind hx hd
  obtain ⟨a, ha, hak, -⟩ := arguments_record hx
  have hdirective : (SyntaxTree.parse text).records[1 + (Forest.ofItems before).size]? = some d := getElem?_item hx hd
  have hend := arguments_end hx hd ha
  have hbelow : ∀ j : Nat, (SyntaxTree.parse text).records[j]? = some s → s.kind = .string →
      (1 + (Forest.ofItems before).size ∈ (SyntaxTree.parse text).ancestors s ↔
        1 + (Forest.ofItems before).size + 2 ∈ (SyntaxTree.parse text).ancestors s) := by
    intro j hj hk
    rw [SyntaxTree.mem_ancestors (parse_nodes text) hdirective hj,
      SyntaxTree.mem_ancestors (parse_nodes text) ha hj, hend]
    -- the two nodes between are the name and the list itself
    have hname := index_ne_of_kind hn hj (by rw [hnk, hk]; decide)
    have hlist := index_ne_of_kind ha hj (by rw [hak, hk]; decide)
    omega
  constructor
  · rintro ⟨hs, hk, he, hb⟩
    obtain ⟨j, hj⟩ := Array.mem_iff_getElem?.1 hs
    exact ⟨hs, hk, he, (hbelow j hj hk).1 hb⟩
  · rintro ⟨hs, hk, he, hb⟩
    obtain ⟨j, hj⟩ := Array.mem_iff_getElem?.1 hs
    exact ⟨hs, hk, he, (hbelow j hj hk).2 hb⟩

theorem firstLiteral_arguments (s : Record) :
    (SyntaxTree.parse text).FirstLiteral (1 + (Forest.ofItems before).size) s ↔
      (SyntaxTree.parse text).FirstLiteral (1 + (Forest.ofItems before).size + 2) s := by
  have hbelow := literalBelow_arguments hx hd
  constructor
  · rintro ⟨hs, hleast⟩
    exact ⟨(hbelow s).1 hs, fun t ht => hleast t ((hbelow t).2 ht)⟩
  · rintro ⟨hs, hleast⟩
    exact ⟨(hbelow s).2 hs, fun t ht => hleast t ((hbelow t).1 ht)⟩

/-- The text of a directive is its tag with what is read from its list between two parentheses, or behind the first one
if the list is not closed. -/
theorem argumentSource_item {a : Record}
    (ha : (SyntaxTree.parse text).records[1 + (Forest.ofItems before).size + 2]? = some a) :
    ∃ source, (SyntaxTree.parse text).argumentSource? d = some source ∧
      (SyntaxTree.parse text).sourceOf d = tag ++ '(' :: (source ++ if a.isError then [] else [')']) := by
  obtain ⟨b, hb, hkind, hstart, hstop, herror, -⟩ := arguments_record hx
  rw [ha] at hb
  cases hb
  obtain ⟨ls, suf, rest, htext, hread, -⟩ := items_read (boundary_start text) hx
  cases hread with
  | @arguments _ _ inner _ _ =>
    obtain ⟨body, hbody⟩ := arguments_body inner
    rw [← herror] at hbody
    refine ⟨body, ?_, ?_⟩
    · have hparts : text = before.flatMap Item.lexeme ++ indent ++ tag ++ ['('] ++
          (body ++ ((if a.isError then [] else [')']) ++ (ArgumentToken.scan 0 inner).2)) := by
        rw [htext, ← List.append_assoc body, ← hbody, ArgumentToken.scan_append]
        simp
      rw [← Forest.length_text, Forest.text_ofArguments, hbody] at hstop
      have hfrom : a.start + 1 = ((before.flatMap Item.lexeme ++ indent ++ tag ++ ['(']).length : Int) := by
        rw [hstart]
        simp only [List.length_append, List.length_singleton]
        omega
      have hto : (if !a.isError then a.stop - 1 else a.stop) =
          ((before.flatMap Item.lexeme ++ indent ++ tag ++ ['('] ++ body).length : Int) := by
        rw [List.length_append, Int.natCast_add, ← hfrom, hstop, List.length_cons, List.length_append]
        cases a.isError with
        | true =>
          simp
          omega
        | false =>
          simp
          omega
      rw [SyntaxTree.argumentSource_eq_slice (arguments_some hx hd ha), arguments_closed ha hkind, hfrom, hto]
      show some (slice text _ _) = _
      rw [hparts, slice_append]
    · rw [source_item hx hd, ← hbody]
      rfl

end

section

variable {text : List Char} {j : Nat} {d a : Record}

theorem firstString_eq_none_iff (ha : (SyntaxTree.parse text).records[j]? = some a)
    (hargs : (SyntaxTree.parse text).arguments? d = some ((j : Int), a)) :
    (SyntaxTree.parse text).firstString? d = none ↔ ∀ s, ¬(SyntaxTree.parse text).LiteralBelow j s := by
  rw [SyntaxTree.firstString_eq_map hargs, Option.map_eq_none_iff, firstLiteral_eq_none_iff ha]

theorem firstString_eq_some_iff (ha : (SyntaxTree.parse text).records[j]? = some a)
    (hargs : (SyntaxTree.parse text).arguments? d = some ((j : Int), a)) (v : List Char) :
    (SyntaxTree.parse text).firstString? d = some v ↔ ∃ (s : Record) (q : Quote),
      (SyntaxTree.parse text).FirstLiteral j s ∧ (SyntaxTree.parse text).sourceOf s = q.char :: (v ++ [q.char]) := by
  have hvalue : ∀ (s : Record) (q : Quote) (w : List Char),
      (SyntaxTree.parse text).sourceOf s = q.char :: (w ++ [q.char]) →
      (((SyntaxTree.parse text).sourceOf s).drop 1).dropLast = w := by
    intro s q w hs
    rw [hs, List.drop_one, List.tail_cons, List.dropLast_concat]
  rw [SyntaxTree.firstString_eq_map hargs, Option.map_eq_some_iff]
  constructor
  · rintro ⟨s, hs, rfl⟩
    have hfirst := (firstLiteral_eq_some_iff ha).1 hs
    obtain ⟨q, body, hbody⟩ := source_literal hfirst.literal
    rw [hvalue s q body hbody]
    exact ⟨s, q, hfirst, hbody⟩
  · rintro ⟨s, q, hfirst, hs⟩
    exact ⟨s, (firstLiteral_eq_some_iff ha).2 hfirst, hvalue s q v hs⟩

end

/-- What a directive's accessors say about its text. It has a list exactly if a parenthesis follows its name, and its
text is its name and that list; the string it gives is that of the first complete literal in it. -/
theorem argument_accessors {text : List Char} {i : Nat} {d : Record}
    (hd : (SyntaxTree.parse text).records[i]? = some d) (hk : d.kind.isDirective = true) :
    let tree := SyntaxTree.parse text
    ∃ (c : Nat) (n : Record), tree.childOfKind? d .directiveName = some (c : Int) ∧ tree.records[c]? = some n ∧
      (tree.argumentSource? d = none ↔ (text.drop n.stop.toNat).head? ≠ some '(') ∧
      (∀ source, tree.argumentSource? d = some source → ∃ (j : Nat) (a : Record),
        tree.childOfKind? d .arguments = some (j : Int) ∧ tree.records[j]? = some a ∧
        tree.sourceOf d = tree.sourceOf n ++ '(' :: (source ++ if a.isError then [] else [')'])) ∧
      (∀ value, tree.firstString? d = some value ↔ ∃ (s : Record) (q : Quote),
        tree.FirstLiteral i s ∧ tree.sourceOf s = q.char :: (value ++ [q.char])) ∧
      (tree.firstString? d = none ↔ ∀ s, ¬tree.LiteralBelow i s) := by
  obtain ⟨before, indent, tag, arguments, after, hx, rfl, hr⟩ := directive_record hd hk
  obtain ⟨n, hname, hn, -, hstop, hsource⟩ := name_childOfKind hx hr
  have hopen : (text.drop n.stop.toNat).head? = some '(' ↔ arguments.isSome = true := by
    obtain ⟨ls, suf, rest, htext, hread, -⟩ := items_read (boundary_start text) hx
    obtain ⟨-, behind, hsuf, -, hiff⟩ := hread.tagSplit
    rw [hstop, Int.toNat_natCast, hiff, htext, hsuf, ← List.append_assoc, ← List.append_assoc, List.drop_left]
  dsimp only
  refine ⟨_, n, hname, hn, ?_⟩
  cases arguments with
  | none =>
    obtain ⟨hargs, hnone⟩ := arguments_none hx hr
    have hargument := SyntaxTree.argumentSource_eq_none hargs
    have hstring := SyntaxTree.firstString_eq_none hargs
    refine ⟨iff_of_true hargument fun h => absurd (hopen.1 h) (by simp), ?_, ?_, iff_of_true hstring hnone⟩
    · intro source hs
      rw [hargument] at hs
      cases hs
    · intro value
      refine iff_of_false (fun h => ?_) ?_
      · rw [hstring] at h
        cases h
      · rintro ⟨s, q, hfirst, -⟩
        exact hnone s hfirst.literal
  | some tokens =>
    obtain ⟨a, ha, -⟩ := arguments_record hx
    have hargs := arguments_some hx hr ha
    obtain ⟨source, hargument, htext⟩ := argumentSource_item hx hr ha
    refine ⟨?_, ?_, ?_, ?_⟩
    · refine iff_of_false (fun h => ?_) fun h => h (hopen.2 rfl)
      rw [hargument] at h
      cases h
    · intro source' hs
      rw [hargument] at hs
      cases hs
      exact ⟨_, a, arguments_childOfKind hx hr, ha, by rw [htext, hsource]⟩
    · intro value
      rw [firstString_eq_some_iff ha hargs]
      simp only [firstLiteral_arguments hx hr]
    · rw [firstString_eq_none_iff ha hargs]
      simp only [literalBelow_arguments hx hr]

/-- The first quote of the list is never closed, so its string is the one in the inner parentheses. -/
theorem argument_accessors_nested :
    let tree := SyntaxTree.parse "\t@include((a'\n, 'b'), \"c\")".toList
    ∃ d n a : Record, tree.records[1]? = some d ∧ d.kind.isDirective = true ∧ tree.records[2]? = some n ∧
      tree.records[3]? = some a ∧ a.isError = false ∧
      tree.sourceOf d = tree.sourceOf n ++ '(' :: ("(a'\n, 'b'), \"c\"".toList ++ [')']) ∧
      ∃ (s : Record) (q : Quote), tree.FirstLiteral 1 s ∧ tree.sourceOf s = q.char :: ("b".toList ++ [q.char]) := by
  intro tree
  have hdirective : (tree.records[1]?).any (fun d => d.kind.isDirective = true ∧
      tree.childOfKind? d .directiveName = some ((2 : Nat) : Int) ∧
      tree.childOfKind? d .arguments = some ((3 : Nat) : Int) ∧
      tree.argumentSource? d = some "(a'\n, 'b'), \"c\"".toList ∧ tree.firstString? d = some "b".toList) = true := by
    decide +kernel
  have hlist : (tree.records[3]?).any (fun a => a.isError = false) = true := by decide +kernel
  obtain ⟨d, hd, hdp⟩ := (Option.any_eq_true _ _).1 hdirective
  obtain ⟨hk, hname, hlist', hargument, hstring⟩ := of_decide_eq_true hdp
  obtain ⟨a, ha, hap⟩ := (Option.any_eq_true _ _).1 hlist
  have hclosed : a.isError = false := of_decide_eq_true hap
  obtain ⟨c, n, hc, hn, -, hsource, hvalue, -⟩ := argument_accessors hd hk
  obtain ⟨j, b, hj, hb, hsource⟩ := hsource _ hargument
  obtain rfl : 2 = c := Int.ofNat.inj (Option.some.inj (hname.symm.trans hc))
  obtain rfl : 3 = j := Int.ofNat.inj (Option.some.inj (hlist'.symm.trans hj))
  obtain rfl : a = b := Option.some.inj (ha.symm.trans hb)
  rw [hclosed] at hsource
  exact ⟨d, n, a, hd, hk, hn, ha, hclosed, hsource, (hvalue _).1 hstring⟩

end EdgeTemplate
