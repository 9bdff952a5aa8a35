import EdgeTemplate.Dangling
import EdgeTemplate.Proofs.ArenaSound

/-!
# No dangling indices

All that a question comes upon in the tree of a text is there: the children of a node, the last node in its range, and
the nodes around it. So every question about a parsed tree has an answer (`parse_not_dangling`).
-/

namespace EdgeTemplate

namespace SyntaxTree

theorem upTo_subset {α : Type} (p : α → Bool) (l : List α) : upTo p l ⊆ l := List.take_subset _ _

/-- The index names a node. -/
def Names (tree : SyntaxTree) (index : Int) : Prop := (tree.record? index).isSome = true

section

variable {tree : SyntaxTree} {f : Forest} (h : tree.nodes = f.nodes none 0 0) {i : Nat} {r : Record}
include h

omit h in
theorem names_of_record (hi : tree.records[i]? = some r) : tree.Names i := by
  rw [Names, record?_natCast, hi]
  rfl

omit h in
theorem names_of_lt {index : Int} (h0 : 0 ≤ index) (hlt : index < tree.records.size) : tree.Names index := by
  obtain ⟨k, rfl⟩ := Int.eq_ofNat_of_zero_le h0
  exact names_of_record (Array.getElem?_eq_getElem (by omega))

theorem names_child (hi : tree.records[i]? = some r) {c : Int} (hc : c ∈ r.children) : tree.Names c := by
  obtain ⟨j, s, rfl, hj, -⟩ := (mem_children h hi).1 hc
  exact names_of_record hj

theorem names_last (hi : tree.records[i]? = some r) : tree.Names (r.subtreeEnd - 1) := by
  obtain ⟨hlt, hle⟩ := range_listed h hi
  exact names_of_lt (by omega) (by omega)

/-! ## Checks -/

theorem childVisits_names (hi : tree.records[i]? = some r) (kind : Kind) :
    ∀ c ∈ tree.childVisits r kind, tree.Names c :=
  fun _ hc => names_child h hi (upTo_subset _ _ hc)

theorem arguments_listed (hi : tree.records[i]? = some r) {index : Int} {a : Record}
    (ha : tree.arguments? r = some (index, a)) : ∃ j : Nat, index = j ∧ tree.records[j]? = some a := by
  simp only [arguments?, Option.bind_eq_bind, Option.bind_eq_some_iff, Option.pure_def, Option.some.injEq,
    Prod.mk.injEq] at ha
  obtain ⟨c, hc, s, hs, rfl, rfl⟩ := ha
  obtain ⟨j, s', rfl, hj, -⟩ := (mem_children h hi).1 (List.mem_of_find?_eq_some hc)
  rw [record?_natCast] at hs
  exact ⟨j, rfl, hs⟩

theorem sourceVisits_names (hi : tree.records[i]? = some r) : ∀ c ∈ tree.sourceVisits r, tree.Names c := by
  intro c hc
  rw [sourceVisits] at hc
  rcases List.mem_append.1 hc with hc | hc
  · exact childVisits_names h hi .arguments c hc
  · cases ha : tree.arguments? r with
    | none => simp [ha] at hc
    | some found =>
      obtain ⟨index, a⟩ := found
      obtain ⟨j, rfl, hj⟩ := arguments_listed h hi ha
      simp only [ha, Option.mem_toList] at hc
      exact names_child h hj (List.mem_of_getLast? hc)

theorem stringVisits_names (hi : tree.records[i]? = some r) : ∀ c ∈ tree.stringVisits r, tree.Names c := by
  intro c hc
  rw [stringVisits] at hc
  rcases List.mem_append.1 hc with hc | hc
  · exact childVisits_names h hi .arguments c hc
  · cases ha : tree.arguments? r with
    | none => simp [ha] at hc
    | some found =>
      obtain ⟨index, a⟩ := found
      obtain ⟨j, rfl, hj⟩ := arguments_listed h hi ha
      simp only [ha] at hc
      split at hc
      · obtain ⟨-, hle⟩ := range_listed h hj
        have hlast : min (a.subtreeEnd - 1) (tree.records.size : Int) = a.subtreeEnd - 1 := by omega
        rw [List.mem_singleton.1 hc, hlast]
        exact names_last h hj
      · cases hc

theorem checkVisits_names (hi : tree.records[i]? = some r) : ∀ c ∈ tree.checkVisits r, tree.Names c := by
  intro c hc
  unfold checkVisits at hc
  split at hc
  · rcases List.mem_append.1 hc with hc | hc
    · split at hc
      · exact sourceVisits_names h hi c hc
      · cases hc
    · split at hc
      · exact stringVisits_names h hi c hc
      · cases hc
  · exact childVisits_names h hi .expression c hc
  · cases hc

/-! ## Cursors -/

theorem enterVisits_names (hi : tree.records[i]? = some r) (offset : Nat) :
    ∀ c ∈ tree.enterVisits offset r.children, tree.Names c := by
  intro c hc
  obtain ⟨child, hchild, hc⟩ := List.mem_flatMap.1 hc
  obtain ⟨j, s, rfl, hj, -⟩ := (mem_children h hi).1 (upTo_subset _ _ hchild)
  rcases List.mem_cons.1 hc with rfl | hc
  · exact names_of_record hj
  · split at hc
    · rw [record?_natCast, hj] at hc
      rw [List.mem_singleton.1 hc]
      exact names_last h hj
    · cases hc

theorem enter_listed (hi : tree.records[i]? = some r) {offset child : Nat}
    (hc : tree.enter? offset r.children = some child) : ∃ s, tree.records[child]? = some s := by
  obtain ⟨c, hfound, hchild⟩ := Option.bind_eq_some_iff.1 hc
  have hmem : c ∈ r.children := by
    split at hfound
    · next hfind =>
      cases hfound
      exact List.mem_of_find?_eq_some hfind
    · split at hfound
      · exact (List.mem_filter.1 (List.mem_of_getLast? hfound)).1
      · cases hfound
  obtain ⟨j, s, rfl, hj, -⟩ := (mem_children h hi).1 hmem
  cases hchild
  exact ⟨s, hj⟩

theorem descendVisits_names (hi : tree.records[i]? = some r) (offset fuel : Nat) :
    ∀ c ∈ tree.descendVisits offset fuel i, tree.Names c := by
  induction fuel generalizing i r with
  | zero =>
    intro c hc
    rw [List.mem_singleton.1 hc]
    exact names_of_record hi
  | succ fuel ih =>
    intro c hc
    rw [descendVisits, hi] at hc
    rcases List.mem_cons.1 hc with rfl | hc
    · exact names_of_record hi
    · rcases List.mem_append.1 hc with hc | hc
      · exact enterVisits_names h hi offset c hc
      · split at hc
        · next child hchild =>
          obtain ⟨s, hs⟩ := enter_listed h hi hchild
          exact ih hs c hc
        · cases hc

theorem descend_listed (hi : tree.records[i]? = some r) (offset fuel : Nat) :
    ∃ s, tree.records[tree.descend offset fuel i]? = some s := by
  induction fuel generalizing i r with
  | zero => exact ⟨r, hi⟩
  | succ fuel ih =>
    rw [descend, hi, Option.bind_some]
    split
    · next child hchild =>
      obtain ⟨s, hs⟩ := enter_listed h hi hchild
      exact ih hs
    · exact ⟨r, hi⟩

theorem chain_names (hi : tree.records[i]? = some r) (fuel : Nat) : ∀ j ∈ tree.chain fuel (some i), tree.Names j := by
  induction fuel generalizing i r with
  | zero =>
    intro j hj
    cases hj
  | succ fuel ih =>
    intro j hj
    rw [chain, hi, Option.bind_some] at hj
    rcases List.mem_cons.1 hj with rfl | hj
    · exact names_of_record hi
    · cases hp : r.parent with
      | none =>
        rw [hp] at hj
        cases fuel <;> cases hj
      | some p =>
        obtain ⟨-, q, hq, -⟩ := parent_listed h hi hp
        rw [hp] at hj
        exact ih hq j hj

theorem nodeVisits_names (hroot : tree.records[0]? = some r) (position : Position) :
    ∀ c ∈ tree.nodeVisits position, tree.Names c := by
  intro c hc
  rw [nodeVisits] at hc
  split at hc
  · exact descendVisits_names h hroot _ _ c hc
  · cases hc

theorem pathVisits_names (hroot : tree.records[0]? = some r) (position : Position) :
    ∀ c ∈ tree.pathVisits position, tree.Names c := by
  intro c hc
  rw [pathVisits] at hc
  split at hc
  · next index hat =>
    obtain ⟨offset, -, rfl⟩ := Option.map_eq_some_iff.1 hat
    obtain ⟨s, hs⟩ := descend_listed h hroot offset tree.records.size
    obtain ⟨j, hj, rfl⟩ := List.mem_map.1 hc
    exact chain_names h hs _ j (upTo_subset _ _ hj)
  · cases hc

theorem not_dangling (hroot : tree.records[0]? = some r) (cursors : List Position) :
    tree.withoutDangling cursors = .ok tree := by
  have hnames : ∀ c ∈ tree.records.toList.flatMap tree.checkVisits ++ cursors.flatMap tree.nodeVisits ++
      cursors.flatMap tree.pathVisits, tree.Names c := by
    intro c hc
    rcases List.mem_append.1 hc with hc | hc
    · rcases List.mem_append.1 hc with hc | hc
      · obtain ⟨s, hs, hc⟩ := List.mem_flatMap.1 hc
        obtain ⟨j, hj⟩ := Array.mem_iff_getElem?.1 (Array.mem_toList_iff.1 hs)
        exact checkVisits_names h hj c hc
      · obtain ⟨position, -, hc⟩ := List.mem_flatMap.1 hc
        exact nodeVisits_names h hroot position c hc
    · obtain ⟨position, -, hc⟩ := List.mem_flatMap.1 hc
      exact pathVisits_names h hroot position c hc
  rw [withoutDangling, List.find?_eq_none.2]
  intro c hc hnone
  have hsome := hnames c hc
  rw [Names, Option.isNone_iff_eq_none.1 hnone] at hsome
  cases hsome

end

end SyntaxTree

/-- Every question about the tree of a text has an answer. -/
theorem parse_not_dangling (text : List Char) (cursors : List Position) :
    (SyntaxTree.parse text).withoutDangling cursors = .ok (SyntaxTree.parse text) := by
  obtain ⟨root, hroot, -⟩ := parse_root text
  exact SyntaxTree.not_dangling (parse_nodes text) hroot cursors

end EdgeTemplate
