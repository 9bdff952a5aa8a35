import EdgeTemplate.SyntaxTree

/-!
# Records by two passes

The nodes of a forest are put down from the first to the last, each among the children of its parent, and then told of
what is below them from the last to the first. The record that a node gets so is the one that its own subtree gives
(`Forest.records`). Both passes keep what they have done before and behind the nodes of a forest and change one more
node, the parent of its roots: it adopts the roots (`draft_eq`), and it is told where the last of them ends and whether
one of them has an error (`foldr_carry`).
-/

namespace EdgeTemplate

/-! ## One element of a list -/

section

variable {α : Type} {a b : List α} {index : Option Nat}

def modifyListAt (index : Option Nat) (f : α → α) (l : List α) : List α :=
  match index with
  | some i => l.modify i f
  | none => l

theorem toList_modifyAt (index : Option Nat) (f : α → α) (xs : Array α) :
    (modifyAt index f xs).toList = modifyListAt index f xs.toList := by
  cases index with
  | none => rfl
  | some i => exact Array.toList_modify

theorem length_modifyListAt (index : Option Nat) (f : α → α) (l : List α) :
    (modifyListAt index f l).length = l.length := by
  cases index with
  | none => rfl
  | some i => exact List.length_modify f l i

theorem modifyListAt_id {f : α → α} (h : ∀ x, f x = x) (index : Option Nat) (l : List α) :
    modifyListAt index f l = l := by
  obtain rfl : f = id := funext h
  cases index with
  | none => rfl
  | some i => exact List.modify_id i l

theorem modifyListAt_comp (index : Option Nat) (f g : α → α) (l : List α) :
    modifyListAt index g (modifyListAt index f l) = modifyListAt index (g ∘ f) l := by
  cases index with
  | none => rfl
  | some i => exact List.modify_modify_eq f g i l

theorem modifyListAt_append (h : ∀ i, index = some i → i < a.length) (f : α → α) :
    modifyListAt index f (a ++ b) = modifyListAt index f a ++ b := by
  cases index with
  | none => rfl
  | some i =>
    have hi := h i rfl
    simp only [modifyListAt, List.modify_eq_take_drop, List.take_append_of_le_length (Nat.le_of_lt hi),
      List.drop_append_of_le_length (Nat.le_of_lt hi), List.append_assoc]
    cases hd : a.drop i with
    | nil => exact absurd (List.drop_eq_nil_iff.1 hd) (by omega)
    | cons x l => rfl

theorem modifyListAt_length (a b : List α) (x : α) (f : α → α) :
    modifyListAt (some a.length) f (a ++ x :: b) = a ++ f x :: b := by
  simp [modifyListAt, List.modify_eq_take_drop]

end

namespace Forest

/-- The records of a forest that starts at `offset` and whose first node gets `index`. -/
def records (parent : Option Nat) (offset index : Nat) : Forest → List Record
  | .nil => []
  | .node label children siblings =>
    let start := offset + label.indent.length
    let inner := start + label.lexeme.length
    let stop := inner + children.width
    let next := index + 1 + children.size
    { kind := label.kind, start, stop, parent
      children := (children.roots (index + 1)).map fun (i : Nat) => (i : Int)
      subtreeEnd := next
      isError := label.isError
      hasError := label.isError || children.hasError } ::
    (children.records (some index) inner (index + 1) ++ siblings.records parent stop next)

/-! ## The nodes, put down -/

def drafts (parent : Option Nat) (offset index : Nat) : Forest → List Draft
  | .nil => []
  | .node label children siblings =>
    let start := offset + label.indent.length
    let inner := start + label.lexeme.length
    let stop := inner + children.width
    ⟨label.kind, start, stop, parent, (children.roots (index + 1)).toArray, label.isError⟩ ::
    (children.drafts (some index) inner (index + 1) ++ siblings.drafts parent stop (index + 1 + children.size))

theorem length_drafts (f : Forest) (parent : Option Nat) (offset index : Nat) :
    (f.drafts parent offset index).length = f.size := by
  induction f generalizing parent offset index with
  | nil => rfl
  | node label children siblings ihc ihs =>
    simp only [drafts, size, List.length_cons, List.length_append, ihc, ihs]
    omega

/-- All the roots at once. -/
def adopt (roots : List Nat) (d : Draft) : Draft := { d with children := d.children ++ roots.toArray }

theorem adopt_nil (d : Draft) : adopt [] d = d := by
  simp [adopt]

theorem adopt_cons (index : Nat) (roots : List Nat) : adopt (index :: roots) = adopt roots ∘ Draft.adopt index := by
  funext d
  simp [adopt, Draft.adopt]

theorem draft_eq (f : Forest) (parent : Option Nat) (offset : Nat) (before : Array Draft)
    (hp : ∀ i, parent = some i → i < before.size) :
    (f.draft parent offset before).toList =
      modifyListAt parent (adopt (f.roots before.size)) before.toList ++ f.drafts parent offset before.size := by
  induction f generalizing parent offset before with
  | nil => rw [draft, drafts, List.append_nil, roots, modifyListAt_id adopt_nil]
  | node label children siblings ihc ihs =>
    let index := before.size
    let start := offset + label.indent.length
    let inner := start + label.lexeme.length
    let stop := inner + children.width
    let first : Draft := ⟨label.kind, start, stop, parent, #[], label.isError⟩
    let entered := (modifyAt parent (Draft.adopt index) before).push first
    let adopted := modifyListAt parent (Draft.adopt index) before.toList
    have hadopted : adopted.length = index := length_modifyListAt ..
    have hentered : entered.toList = adopted ++ [first] := by
      rw [Array.toList_push, toList_modifyAt]
    have hsize : entered.size = index + 1 := by
      rw [← Array.length_toList, hentered, List.length_append, hadopted, List.length_singleton]
    -- The children of the node find it as the last one put down.
    have hchildren : (children.draft (some index) inner entered).toList =
        adopted ++ adopt (children.roots (index + 1)) first :: children.drafts (some index) inner (index + 1) := by
      rw [ihc (some index) inner entered (by rintro i ⟨⟩; omega), hentered, hsize, ← hadopted, modifyListAt_length,
        List.append_assoc, List.singleton_append]
    have hnext : (children.draft (some index) inner entered).size = index + 1 + children.size := by
      rw [← Array.length_toList, hchildren, List.length_append, List.length_cons, hadopted, length_drafts]
      omega
    calc (siblings.draft parent stop (children.draft (some index) inner entered)).toList
        = modifyListAt parent (adopt (siblings.roots (index + 1 + children.size)))
            (adopted ++ adopt (children.roots (index + 1)) first ::
              children.drafts (some index) inner (index + 1)) ++
            siblings.drafts parent stop (index + 1 + children.size) := by
          rw [ihs parent stop _ (fun i hi => by have := hp i hi; omega), hchildren, hnext]
      _ = modifyListAt parent (adopt (index :: siblings.roots (index + 1 + children.size))) before.toList ++
            (adopt (children.roots (index + 1)) first ::
              (children.drafts (some index) inner (index + 1) ++
                siblings.drafts parent stop (index + 1 + children.size))) := by
          rw [modifyListAt_append (fun i hi => by have := hp i hi; omega), modifyListAt_comp, adopt_cons,
            List.append_assoc, List.cons_append]
      _ = _ := by simp [drafts, roots, adopt, first, index, start, inner, stop]

/-! ## The nodes, told of what is below them -/

/-- What the nodes tell when only they have been looked at. -/
def fresh (index : Nat) (ds : List Draft) : List Summary := ds.mapIdx fun i d => ⟨index + i + 1, d.isError⟩

theorem fresh_cons (index : Nat) (d : Draft) (ds : List Draft) :
    fresh index (d :: ds) = ⟨index + 1, d.isError⟩ :: fresh (index + 1) ds := by
  simp [fresh, List.mapIdx_cons, Nat.add_left_comm, Nat.add_comm]

theorem fresh_append (index : Nat) (a b : List Draft) :
    fresh index (a ++ b) = fresh index a ++ fresh (index + a.length) b := by
  simp [fresh, List.mapIdx_append, Nat.add_left_comm, Nat.add_comm]

theorem length_fresh (index : Nat) (ds : List Draft) : (fresh index ds).length = ds.length := List.length_mapIdx

def summaries (index : Nat) : Forest → List Summary
  | .nil => []
  | .node label children siblings =>
    ⟨index + 1 + children.size, label.isError || children.hasError⟩ ::
    (children.summaries (index + 1) ++ siblings.summaries (index + 1 + children.size))

theorem length_summaries (f : Forest) (index : Nat) : (f.summaries index).length = f.size := by
  induction f generalizing index with
  | nil => rfl
  | node label children siblings ihc ihs =>
    simp only [summaries, size, List.length_cons, List.length_append, ihc, ihs]
    omega

/-- A node above a forest is told of its roots, the last one first. -/
def tell (index : Nat) (s : Summary) : Forest → Summary
  | .nil => s
  | .node label children siblings =>
    .join ⟨index + 1 + children.size, label.isError || children.hasError⟩
      (siblings.tell (index + 1 + children.size) s)

theorem tell_hasError (f : Forest) (index : Nat) (s : Summary) :
    (f.tell index s).hasError = (s.hasError || f.hasError) := by
  induction f generalizing index with
  | nil => simp [tell, hasError]
  | node label children siblings ihc ihs =>
    simp [tell, hasError, Summary.join, ihs, Bool.or_comm, Bool.or_left_comm]

theorem max_tell (f : Forest) (index : Nat) (s : Summary) (h : s.subtreeEnd ≤ index) :
    max (f.tell index s).subtreeEnd index = index + f.size := by
  induction f generalizing index with
  | nil => simp [tell, size, h]
  | node label children siblings ihc ihs =>
    have htold := ihs (index + 1 + children.size) (by omega)
    simp only [tell, size, Summary.join, htold]
    omega

/-- Told of its children, a node knows all of its subtree. -/
theorem tell_children (f : Forest) (index : Nat) (isError : Bool) :
    f.tell index ⟨index, isError⟩ = ⟨index + f.size, isError || f.hasError⟩ := by
  have hend : (f.tell index ⟨index, isError⟩).subtreeEnd = index + f.size := by
    cases f with
    | nil => rfl
    | node label children siblings =>
      have htold := siblings.max_tell (index + 1 + children.size) ⟨index, isError⟩ (by simp only; omega)
      simp only [tell, size, Summary.join, htold]
      omega
  exact Summary.ext hend (f.tell_hasError index _)

/-- The indices of a node, of those below it and of those behind it. -/
theorem range_node (label : Label) (children siblings : Forest) (index : Nat) :
    List.range' index (node label children siblings).size =
      index :: (List.range' (index + 1) children.size ++ List.range' (index + 1 + children.size) siblings.size) := by
  rw [List.range'_append_1, ← List.range'_succ, size]
  congr 1
  omega

section

variable {ds : Array Draft} {ss : Array Summary} {before after : List Draft} {front back : List Summary} {index : Nat}

theorem toList_carry {d : Draft} {s : Summary} (hds : ds.toList = before ++ d :: after)
    (hss : ss.toList = front ++ s :: back) (hbefore : before.length = index) (hfront : front.length = index)
    (hp : ∀ i, d.parent = some i → i < index) :
    (carry ds index ss).toList = modifyListAt d.parent (Summary.join s) front ++ s :: back := by
  have hd : ds[index]? = some d := by
    rw [← Array.getElem?_toList, hds, ← hbefore]
    simp
  have hs : ss[index]? = some s := by
    rw [← Array.getElem?_toList, hss, ← hfront]
    simp
  simp only [carry, hd, hs]
  rw [toList_modifyAt, hss, modifyListAt_append (hfront ▸ hp)]

/-- From the last node of a forest to its first, with the nodes `before` and `after` the forest. -/
theorem foldr_carry (f : Forest) {parent : Option Nat} {offset : Nat}
    (hds : ds.toList = before ++ (f.drafts parent offset index ++ after))
    (hss : ss.toList = front ++ (fresh index (f.drafts parent offset index) ++ back))
    (hbefore : before.length = index) (hfront : front.length = index) (hp : ∀ i, parent = some i → i < index) :
    ((List.range' index f.size).foldr (carry ds) ss).toList =
      modifyListAt parent (f.tell index) front ++ (f.summaries index ++ back) := by
  induction f generalizing parent offset ss before after front back index with
  | nil =>
    have htell : ∀ s, nil.tell index s = s := fun _ => rfl
    rw [modifyListAt_id htell]
    exact hss
  | node label children siblings ihc ihs =>
    let next := index + 1 + children.size
    let start := offset + label.indent.length
    let inner := start + label.lexeme.length
    let stop := inner + children.width
    let first : Draft := ⟨label.kind, start, stop, parent, (children.roots (index + 1)).toArray, label.isError⟩
    let inside := children.drafts (some index) inner (index + 1)
    let behind := siblings.drafts parent stop next
    have hinside : inside.length = children.size := length_drafts ..
    have hdrafts : ds.toList = before ++ first :: (inside ++ (behind ++ after)) := by
      rw [hds, drafts, List.cons_append, List.append_assoc]
    have hfresh : ss.toList = front ++ ⟨index + 1, label.isError⟩ ::
        (fresh (index + 1) inside ++ (fresh next behind ++ back)) := by
      rw [hss, drafts, fresh_cons, fresh_append, length_drafts, List.cons_append, List.append_assoc]
    rw [range_node, List.foldr_cons, List.foldr_append]
    -- The siblings are told to the parent, then the children to the node, and then the node to the parent.
    let told := modifyListAt parent (siblings.tell next) front
    have htold : told.length = index := (length_modifyListAt ..).trans hfront
    let ss₁ := (List.range' next siblings.size).foldr (carry ds) ss
    have hss₁ : ss₁.toList = told ++ ⟨index + 1, label.isError⟩ ::
        (fresh (index + 1) inside ++ (siblings.summaries next ++ back)) := by
      have hds' : ds.toList = (before ++ first :: inside) ++ (behind ++ after) := by
        rw [hdrafts, List.append_assoc, List.cons_append]
      have hss' : ss.toList = (front ++ ⟨index + 1, label.isError⟩ :: fresh (index + 1) inside) ++
          (fresh next behind ++ back) := by
        rw [hfresh, List.append_assoc, List.cons_append]
      have hbefore' : (before ++ first :: inside).length = next := by
        rw [List.length_append, List.length_cons, hbefore, hinside]
        omega
      have hfront' : (front ++ ⟨index + 1, label.isError⟩ :: fresh (index + 1) inside).length = next := by
        rw [List.length_append, List.length_cons, hfront, length_fresh, hinside]
        omega
      rw [ihs hds' hss' hbefore' hfront' fun i hi => by have := hp i hi; omega,
        modifyListAt_append (hfront ▸ hp), List.append_assoc, List.cons_append]
    let ss₂ := (List.range' (index + 1) children.size).foldr (carry ds) ss₁
    have hss₂ : ss₂.toList = told ++ ⟨next, label.isError || children.hasError⟩ ::
        (children.summaries (index + 1) ++ (siblings.summaries next ++ back)) := by
      have hds' : ds.toList = (before ++ [first]) ++ (inside ++ (behind ++ after)) := by
        rw [hdrafts, List.append_assoc, List.singleton_append]
      have hss' : ss₁.toList = (told ++ [⟨index + 1, label.isError⟩]) ++
          (fresh (index + 1) inside ++ (siblings.summaries next ++ back)) := by
        rw [hss₁, List.append_assoc, List.singleton_append]
      rw [ihc hds' hss' (by simp [hbefore]) (by simp [htold]) (by rintro i ⟨⟩; omega), ← htold,
        modifyListAt_length, htold, tell_children, List.append_assoc, List.singleton_append]
    calc (carry ds index ss₂).toList
        = modifyListAt parent (.join ⟨next, label.isError || children.hasError⟩) told ++
            ⟨next, label.isError || children.hasError⟩ ::
              (children.summaries (index + 1) ++ (siblings.summaries next ++ back)) :=
          toList_carry hdrafts hss₂ hbefore htold hp
      _ = modifyListAt parent ((node label children siblings).tell index) front ++
            ((node label children siblings).summaries index ++ back) := by
          rw [modifyListAt_comp, summaries, List.cons_append, List.append_assoc]
          rfl

end

/-! ## The records -/

theorem zipWith_ofDraft (f : Forest) (parent : Option Nat) (offset index : Nat) :
    List.zipWith Record.ofDraft (f.drafts parent offset index) (f.summaries index) = f.records parent offset index := by
  induction f generalizing parent offset index with
  | nil => rfl
  | node label children siblings ihc ihs =>
    have hlength : (children.drafts (some index) (offset + label.indent.length + label.lexeme.length)
        (index + 1)).length = (children.summaries (index + 1)).length := by
      rw [length_drafts, length_summaries]
    rw [drafts, summaries, records, List.zipWith_cons_cons, List.zipWith_append hlength, ihc, ihs]
    rfl

theorem toList_draft (f : Forest) : (f.draft none 0 #[]).toList = f.drafts none 0 0 := by
  rw [draft_eq f none 0 #[] nofun]
  rfl

theorem toList_summaries (f : Forest) : (EdgeTemplate.summaries (f.draft none 0 #[])).toList = f.summaries 0 := by
  have hsize : (f.draft none 0 #[]).size = f.size := by
    rw [← Array.length_toList, toList_draft, length_drafts]
  have hds : (f.draft none 0 #[]).toList = [] ++ (f.drafts none 0 0 ++ []) := by
    rw [toList_draft, List.nil_append, List.append_nil]
  have hss : ((f.draft none 0 #[]).mapIdx fun i d => (⟨i + 1, d.isError⟩ : Summary)).toList =
      [] ++ (fresh 0 (f.drafts none 0 0) ++ []) := by
    simp [fresh, toList_draft]
  rw [EdgeTemplate.summaries, hsize, List.range_eq_range', foldr_carry f hds hss rfl rfl nofun]
  exact List.append_nil _

/-- A node gets the children, the end and the error mark that its own subtree gives. -/
theorem toRecords_eq (f : Forest) : f.toRecords = (f.records none 0 0).toArray := by
  apply Array.toList_inj.1
  rw [toRecords, Array.toList_zipWith, toList_draft, toList_summaries, zipWith_ofDraft]

end Forest

theorem SyntaxTree.parse_eq (text : List Char) :
    parse text = ⟨text, ((Forest.ofText text).records none 0 0).toArray⟩ := by
  rw [parse, Forest.toRecords_eq]

end EdgeTemplate
