import Mathlib.Order.Bounds.Defs
import EdgeTemplate.Proofs.BlockMatch

/-!
# Closers count blocks

A counter goes up at an opener, down at a closer, and stays at zero where a closer finds it there. It is at zero that
often because the closers have run ahead of the openers, so the closers without a block are as many as the closers ever
are ahead (`Counter.tally_greatest`). The open blocks are one list with removals from the middle. If every closer names
its block, the number of open blocks of a name moves like a counter that sees nothing else; if no closer does, the
number of all open blocks does (`SyntaxTree.findingsFrom_tally`, `SyntaxTree.closers_count`).
-/

namespace EdgeTemplate

/-! ## Counters -/

/-- Which directives count up and down, and the texts of the reports on the closers and openers without a partner. -/
structure Counter where
  opens : String → Bool
  closes : String → Bool
  stray : String → Bool
  unclosed : String → Bool
  apart : ∀ name, opens name = true → closes name = false

/-- How many openers are left, and how many closers have come at zero. -/
structure Tally where
  unclosed : Nat
  stray : Nat

namespace Counter

def named (block : String) : Counter where
  opens name := name == block
  closes name := name == "end" ++ block
  stray text := text == (Problem.strayNamedEnd block).message
  unclosed text := text == (Problem.missingEnd block).message
  apart name ho := by
    rw [beq_iff_eq] at ho
    subst ho
    rw [beq_eq_false_iff_ne]
    intro he
    have := congrArg String.length he
    simp at this

def total : Counter where
  opens name := blockNames.contains name
  closes name := name == "end"
  stray text := text == Problem.strayEnd.message
  unclosed text := " directive missing its matching @end".toList.isSuffixOf text.toList
  apart name ho := by
    have hall : ∀ name ∈ blockNames, (name == "end") = false := by decide
    exact hall name (List.contains_iff_mem.1 ho)

variable (c : Counter)

def tally (opened : Nat) : List String → Tally
  | [] => ⟨opened, 0⟩
  | name :: names =>
    if c.opens name then tally (opened + 1) names
    else if c.closes name then
      if opened = 0 then { tally 0 names with stray := (tally 0 names).stray + 1 } else tally (opened - 1) names
    else tally opened names

/-- How far the closers are ahead, when `opened` blocks are open before. -/
def excess (opened : Nat) (names : List String) : Nat := names.countP c.closes - (opened + names.countP c.opens)

def excesses (opened : Nat) (names : List String) : Set Nat :=
  {d | ∃ front, front <+: names ∧ c.excess opened front = d}

variable {c}

theorem excess_nil (opened : Nat) : c.excess opened [] = 0 := Nat.zero_sub _

section

variable {name : String} {names : List String} {opened : Nat}

theorem tally_opener (ho : c.opens name = true) : c.tally opened (name :: names) = c.tally (opened + 1) names := by
  rw [tally, if_pos ho]

theorem tally_closer (ho : c.opens name = false) (hc : c.closes name = true) :
    c.tally (opened + 1) (name :: names) = c.tally opened names := by
  simp [tally, ho, hc]

theorem tally_stray (ho : c.opens name = false) (hc : c.closes name = true) :
    c.tally 0 (name :: names) = { c.tally 0 names with stray := (c.tally 0 names).stray + 1 } := by
  simp [tally, ho, hc]

theorem tally_other (ho : c.opens name = false) (hc : c.closes name = false) :
    c.tally opened (name :: names) = c.tally opened names := by
  simp [tally, ho, hc]

/-- A directive that meets no counter at zero only moves where the count starts. -/
theorem greatest_cons {next d : Nat} (hmove : ∀ front, c.excess opened (name :: front) = c.excess next front)
    (h : IsGreatest (c.excesses next names) d) : IsGreatest (c.excesses opened (name :: names)) d := by
  constructor
  · obtain ⟨front, hf, hd⟩ := h.1
    exact ⟨name :: front, List.cons_prefix_cons.2 ⟨rfl, hf⟩, by rw [hmove, hd]⟩
  · rintro _ ⟨front, hf, rfl⟩
    rcases List.prefix_cons_iff.1 hf with rfl | ⟨rest, rfl, hrest⟩
    · rw [excess_nil]
      exact Nat.zero_le d
    · rw [hmove]
      exact h.2 ⟨rest, hrest, rfl⟩

theorem greatest_stray {d : Nat} (ho : c.opens name = false) (hc : c.closes name = true)
    (h : IsGreatest (c.excesses 0 names) d) : IsGreatest (c.excesses 0 (name :: names)) (d + 1) := by
  have hone : ∀ front, c.excess 0 (name :: front) = front.countP c.closes + 1 - front.countP c.opens := by
    intro front
    simp [excess, ho, hc]
  constructor
  · obtain ⟨front, hf, hd⟩ := h.1
    by_cases h0 : d = 0
    · -- the closers are never ahead behind the stray one, so it alone is the front
      exact ⟨[name], List.cons_prefix_cons.2 ⟨rfl, List.nil_prefix⟩, by rw [hone, h0]; rfl⟩
    · refine ⟨name :: front, List.cons_prefix_cons.2 ⟨rfl, hf⟩, ?_⟩
      rw [hone]
      rw [excess] at hd
      omega
  · rintro _ ⟨front, hf, rfl⟩
    rcases List.prefix_cons_iff.1 hf with rfl | ⟨rest, rfl, hrest⟩
    · rw [excess_nil]
      exact Nat.zero_le _
    · have hle : c.excess 0 rest ≤ d := h.2 ⟨rest, hrest, rfl⟩
      rw [hone]
      rw [excess] at hle
      omega

end

theorem tally_greatest (opened : Nat) (names : List String) :
    IsGreatest (c.excesses opened names) (c.tally opened names).stray := by
  induction names generalizing opened with
  | nil =>
    constructor
    · exact ⟨[], List.nil_prefix, excess_nil opened⟩
    · rintro _ ⟨front, hf, rfl⟩
      rw [List.prefix_nil.1 hf, excess_nil]
      exact Nat.zero_le _
  | cons name names ih =>
    cases ho : c.opens name with
    | true =>
      have hc := c.apart name ho
      rw [tally_opener ho]
      refine greatest_cons (fun front => ?_) (ih (opened + 1))
      simp [excess, ho, hc, Nat.add_assoc, Nat.add_comm 1]
    | false =>
      cases hc : c.closes name with
      | false =>
        rw [tally_other ho hc]
        exact greatest_cons (fun front => by simp [excess, ho, hc]) (ih opened)
      | true =>
        cases opened with
        | zero =>
          rw [tally_stray ho hc]
          exact greatest_stray ho hc (ih 0)
        | succ opened =>
          rw [tally_closer ho hc]
          refine greatest_cons (fun front => ?_) (ih opened)
          simp [excess, ho, hc]
          omega

theorem tally_balance (opened : Nat) (names : List String) :
    (c.tally opened names).unclosed + names.countP c.closes =
      opened + names.countP c.opens + (c.tally opened names).stray := by
  induction names generalizing opened with
  | nil => rfl
  | cons name names ih =>
    cases ho : c.opens name with
    | true =>
      have hc := c.apart name ho
      have := ih (opened + 1)
      simp only [tally_opener ho, List.countP_cons, ho, hc]
      simp
      omega
    | false =>
      cases hc : c.closes name with
      | false =>
        simpa [tally_other ho hc, ho, hc] using ih opened
      | true =>
        cases opened with
        | zero =>
          have := ih 0
          simp only [tally_stray ho hc, List.countP_cons, ho, hc]
          simp
          omega
        | succ opened =>
          have := ih opened
          simp only [tally_closer ho hc, List.countP_cons, ho, hc]
          simp
          omega

end Counter

/-! ## The open blocks of a name -/

theorem countP_eq_zero_of_false {α : Type} {p : α → Bool} {l : List α} (h : ∀ a ∈ l, p a = false) : l.countP p = 0 := by
  rw [List.countP_eq_zero]
  intro a ha
  rw [h a ha]
  exact Bool.false_ne_true

theorem countP_eraseP_self {α : Type} (p : α → Bool) (l : List α) : (l.eraseP p).countP p = l.countP p - 1 := by
  induction l with
  | nil => rfl
  | cons a l ih =>
    by_cases ha : p a = true
    · rw [List.eraseP_cons_of_pos ha, List.countP_cons_of_pos ha, Nat.add_sub_cancel]
    · rw [List.eraseP_cons_of_neg ha, List.countP_cons_of_neg ha, List.countP_cons_of_neg ha, ih]

theorem countP_eraseP_of_apart {α : Type} {p q : α → Bool} (h : ∀ a, p a = true → q a = false) (l : List α) :
    (l.eraseP p).countP q = l.countP q := by
  induction l with
  | nil => rfl
  | cons a l ih =>
    by_cases ha : p a = true
    · rw [List.eraseP_cons_of_pos ha, List.countP_cons_of_neg (by simp [h a ha])]
    · rw [List.eraseP_cons_of_neg ha, List.countP_cons, List.countP_cons, ih]

def Kind.directive? : Kind → Option String
  | directive name => some name
  | _ => none

theorem Kind.directive_eq_some {k : Kind} {name : String} (h : k.directive? = some name) : k = .directive name := by
  cases k with
  | directive _ => exact congrArg directive (Option.some.inj h)
  | _ => cases h

theorem Role.ofKind_other {k : Kind} (h : k.directive? = none) : Role.ofKind k = .neutral := by
  cases k with
  | directive name => cases h
  | _ => rfl

theorem Frame.advance_blocks {opened : List Frame} (h : ∀ f ∈ opened, f.block ∈ blockNames) (index : Nat)
    (node : Record) (k : Kind) : ∀ f ∈ advance opened index node (Role.ofKind k), f.block ∈ blockNames := by
  intro f hf
  rw [advance_eq] at hf
  split at hf
  · next block ho =>
    rcases List.mem_cons.1 hf with rfl | hf
    · exact Kind.mem_blockNames ho
    · exact h f hf
  · exact h f (List.mem_of_mem_eraseP hf)

theorem Kind.closes_iff {name rest : String} : (Kind.directive name).closes? = some rest ↔ name = "end" ++ rest := by
  rw [closes?, String.ext_iff, String.toList_append]
  constructor
  · intro h
    split at h
    · next cs hcs =>
      cases h
      simp [hcs]
    · cases h
  · intro h
    rw [h]
    exact congrArg some String.ofList_toList

namespace Counter

/-- How a directive moves the number of open blocks that are kept in view. -/
inductive Moves (c : Counter) (keep : String → Bool) (name : String) : Prop
  | up {block : String} (ho : (Kind.directive name).opens? = some block) (hk : keep block = true)
      (hup : c.opens name = true)
  | down {rest : String} (hc : (Kind.directive name).closes? = some rest)
      (ht : ∀ block, (Kind.directive name).takes block = keep block) (hdown : c.closes name = true)
      (hs : c.stray (Problem.stray rest).message = true)
  | still (ho : ∀ block, (Kind.directive name).opens? = some block → keep block = false)
      (ht : ∀ block, (Kind.directive name).takes block = true → keep block = false)
      (hs : ∀ rest, (Kind.directive name).closes? = some rest → c.stray (Problem.stray rest).message = false)
      (hup : c.opens name = false) (hdown : c.closes name = false)

/-- The texts of a counter are those of the reports on the blocks in view. -/
structure Texts (c : Counter) (keep : String → Bool) : Prop where
  node : ∀ p ∈ Problem.ofNode, c.stray p.message = false ∧ c.unclosed p.message = false
  closer : ∀ rest, c.unclosed (Problem.stray rest).message = false
  opener : ∀ block ∈ blockNames, c.stray (Problem.missingEnd block).message = false ∧
    c.unclosed (Problem.missingEnd block).message = keep block

variable {c : Counter} {keep : String → Bool} {name : String}

/-- One directive moves the open blocks in view as it moves the counter, and a stray closer is one that meets
no such block. -/
theorem Moves.tally_cons (h : c.Moves keep name) (opened : List Frame) (index : Nat) (node : Record)
    (names : List String) :
    c.tally (opened.countP (keep ·.block)) (name :: names) =
      let role := Role.ofKind (.directive name)
      let after := c.tally ((Frame.advance opened index node role).countP (keep ·.block)) names
      ⟨after.unclosed, (Frame.stray? opened role).toList.countP (c.stray ·.message) + after.stray⟩ := by
  dsimp only
  rw [Frame.advance_eq]
  cases h with
  | @up block ho hk hup =>
    simp [Frame.stray_eq, ho, Kind.closes_of_opens ho, tally_opener hup, hk]
  | @down rest hc ht hdown hs =>
    have ho : (Kind.directive name).opens? = none := by
      cases ho : (Kind.directive name).opens? with
      | none => rfl
      | some block =>
        rw [Kind.closes_of_opens ho] at hc
        cases hc
    have hup : c.opens name = false := by
      cases hup : c.opens name with
      | false => rfl
      | true =>
        rw [c.apart name hup] at hdown
        cases hdown
    simp only [Frame.stray_eq, ho, ht, hc, countP_eraseP_self]
    cases hcount : opened.countP (keep ·.block) with
    | zero =>
      have hany : opened.any (keep ·.block) = false := by
        rw [List.any_eq_false]
        exact List.countP_eq_zero.1 hcount
      rw [tally_stray hup hdown, hany]
      simp [hs, Nat.add_comm]
    | succ n =>
      have hany : opened.any (keep ·.block) = true := by
        rw [List.any_eq_true, ← List.countP_pos_iff]
        omega
      rw [tally_closer hup hdown, hany]
      simp
  | still ho ht hs hup hdown =>
    have hstray : (Frame.stray? opened (Role.ofKind (.directive name))).toList.countP (c.stray ·.message) = 0 := by
      -- a closer of other blocks may be stray, but its report is not one of this counter
      refine countP_eq_zero_of_false fun p hp => ?_
      obtain ⟨rest, hc, rfl⟩ := Frame.mem_stray hp
      exact hs rest hc
    rw [hstray, tally_other hup hdown, Nat.zero_add]
    cases hopens : (Kind.directive name).opens? with
    | some block => simp [ho block hopens]
    | none =>
      have hcount := countP_eraseP_of_apart (fun f : Frame => ht f.block) opened
      simp only [hcount]

end Counter

namespace SyntaxTree

def directiveNames (tree : SyntaxTree) : List String := tree.nodes.filterMap (·.2.kind.directive?)

variable {tree : SyntaxTree} {c : Counter} {keep : String → Bool}

variable (tree) in
theorem localProblems_untold (ht : c.Texts keep) (node : Record) :
    (tree.localProblems node).countP (c.stray ·.message) = 0 ∧
      (tree.localProblems node).countP (c.unclosed ·.message) = 0 := by
  constructor
  · exact countP_eq_zero_of_false fun p hp => (ht.node p (localProblems_mem hp)).1
  · exact countP_eq_zero_of_false fun p hp => (ht.node p (localProblems_mem hp)).2

theorem stray_untold (ht : c.Texts keep) (opened : List Frame) (k : Kind) :
    (Frame.stray? opened (Role.ofKind k)).toList.countP (c.unclosed ·.message) = 0 := by
  refine countP_eq_zero_of_false fun p hp => ?_
  obtain ⟨rest, -, rfl⟩ := Frame.mem_stray hp
  exact ht.closer rest

theorem findingsFrom_tally (ht : c.Texts keep) {l : List (Nat × Record)}
    (hl : ∀ name ∈ l.filterMap (·.2.kind.directive?), c.Moves keep name) {opened : List Frame}
    (hopened : ∀ f ∈ opened, f.block ∈ blockNames) :
    c.tally (opened.countP (keep ·.block)) (l.filterMap (·.2.kind.directive?)) =
      ⟨(tree.findingsFrom opened l).countP (c.unclosed ·.problem.message),
        (tree.findingsFrom opened l).countP (c.stray ·.problem.message)⟩ := by
  -- on the nodes to come; the counter stands at the number of open blocks in view
  induction l generalizing opened with
  | nil =>
    have hstray : opened.reverse.countP (fun f => c.stray (Problem.missingEnd f.block).message) = 0 :=
      countP_eq_zero_of_false fun f hf => (ht.opener f.block (hopened f (List.mem_reverse.1 hf))).1
    have hunclosed : opened.reverse.countP (fun f => c.unclosed (Problem.missingEnd f.block).message) =
        opened.countP (keep ·.block) := by
      rw [List.countP_reverse]
      refine List.countP_congr fun f hf => ?_
      rw [(ht.opener f.block (hopened f hf)).2]
    simp only [findingsFrom, List.countP_map, Function.comp_def, hstray, hunclosed]
    rfl
  | cons n l ih =>
    obtain ⟨index, node⟩ := n
    have hafter := Frame.advance_blocks hopened index node node.kind
    obtain ⟨hlocal, hlocal'⟩ := localProblems_untold tree ht node
    have hstray := stray_untold ht opened node.kind
    simp only [findingsFrom, List.countP_append, List.countP_map, List.map_append, Function.comp_def, hlocal, hlocal',
      hstray, Nat.zero_add]
    cases hk : node.kind.directive? with
    | none =>
      have hnames : ((index, node) :: l).filterMap (·.2.kind.directive?) = l.filterMap (·.2.kind.directive?) :=
        List.filterMap_cons_none hk
      rw [Role.ofKind_other hk] at hafter ⊢
      rw [hnames] at hl ⊢
      rw [ih hl hopened]
      simp [Frame.stray?, Frame.advance]
    | some name =>
      have hnames : ((index, node) :: l).filterMap (·.2.kind.directive?) =
          name :: l.filterMap (·.2.kind.directive?) := List.filterMap_cons_some hk
      rw [Kind.directive_eq_some hk] at hafter ⊢
      rw [hnames] at hl ⊢
      obtain ⟨hname, hl⟩ := List.forall_mem_cons.1 hl
      rw [hname.tally_cons opened index node]
      dsimp only
      rw [ih hl hafter]

end SyntaxTree

/-! ## The two ways to count -/

theorem Kind.opens_iff {name block : String} :
    (Kind.directive name).opens? = some block ↔ name = block ∧ block ∈ blockNames := by
  rw [opens?]
  constructor
  · intro h
    split at h
    · next hm =>
      cases h
      exact ⟨rfl, hm⟩
    · cases h
  · rintro ⟨rfl, hm⟩
    rw [if_pos hm]

theorem Problem.strayNamedEnd_inj {block block' : String}
    (h : (strayNamedEnd block).message = (strayNamedEnd block').message) : block = block' := by
  have hlist := congrArg String.toList h
  simp only [message, toString, String.toList_append, List.append_assoc] at hlist
  have htail := List.append_cancel_left hlist
  have hlen := congrArg List.length htail
  simp only [List.length_append] at hlen
  exact String.toList_inj.1 (List.append_inj_left htail (by omega))

/-- Texts of which only one has some property are different. -/
theorem beq_false_of_text {p : String → Bool} {text text' : String} (h : p text = false) (h' : p text' = true) :
    (text == text') = false := by
  rw [beq_eq_false_iff_ne]
  rintro rfl
  rw [h] at h'
  cases h'

theorem blockNames_ne_empty : ∀ block ∈ blockNames, block ≠ "" := by decide

namespace Counter

theorem named_texts {block : String} (hb : block ∈ blockNames) : (named block).Texts (· == block) := by
  have hsame : ∀ b ∈ blockNames, ∀ b' ∈ blockNames,
      ((Problem.missingEnd b).message == (Problem.missingEnd b').message) = (b == b') := by decide +kernel
  have hstray := (Problem.stray_texts block).1
  rw [Problem.stray, if_neg (blockNames_ne_empty block hb)] at hstray
  have hunclosed := (Problem.missingEnd_texts hb).2
  constructor
  · intro p hp
    obtain ⟨hs, hu⟩ := Problem.ofNode_texts p hp
    exact ⟨beq_false_of_text (p := fun text => occursIn _ text.toList) hs hstray,
      beq_false_of_text (p := fun text => List.isSuffixOf _ text.toList) hu hunclosed⟩
  · intro rest
    exact beq_false_of_text (p := fun text => List.isSuffixOf _ text.toList) (Problem.stray_texts rest).2 hunclosed
  · intro b hb'
    exact ⟨beq_false_of_text (p := fun text => occursIn _ text.toList) (Problem.missingEnd_texts hb').1 hstray,
      hsame b hb' block hb⟩

theorem Moves.of_no_closer {c : Counter} {keep : String → Bool} {name : String}
    (hc : (Kind.directive name).closes? = none)
    (ho : ∀ block, (Kind.directive name).opens? = some block → keep block = false)
    (hup : c.opens name = false) (hdown : c.closes name = false) : c.Moves keep name := by
  refine .still ho ?_ ?_ hup hdown
  · intro block ht
    simp [Kind.takes, hc] at ht
  · intro rest hrest
    rw [hc] at hrest
    cases hrest

theorem named_moves {block name : String} (hb : block ∈ blockNames) (hname : name ≠ "end") :
    (named block).Moves (· == block) name := by
  have hdown : (named block).closes name = true ↔ (Kind.directive name).closes? = some block := by
    rw [Kind.closes_iff]
    exact beq_iff_eq
  have hdown_false : (Kind.directive name).closes? ≠ some block → (named block).closes name = false := by
    intro hne
    rwa [Bool.eq_false_iff, ne_eq, hdown]
  have hup_false : (Kind.directive name).opens? = none → (named block).opens name = false := by
    intro ho
    refine beq_false_of_ne fun he => ?_
    rw [Kind.opens_iff.2 ⟨he, hb⟩] at ho
    cases ho
  have hrole := Role.of_kind (.directive name)
  generalize Role.ofKind (.directive name) = role at hrole
  cases hrole with
  | opener ho hc =>
    obtain ⟨rfl, hm⟩ := Kind.opens_iff.1 ho
    by_cases he : name = block
    · exact .up ho (beq_iff_eq.2 he) (beq_iff_eq.2 he)
    · refine .of_no_closer hc ?_ (beq_false_of_ne he) (hdown_false (by simp [hc]))
      intro b hb
      rw [← (Kind.opens_iff.1 hb).1]
      exact beq_false_of_ne he
  | closer ho hc => exact absurd (Kind.closes_iff.1 hc) hname
  | @namedCloser rest ho hc hrest =>
    have htakes : ∀ b, (Kind.directive name).takes b = (rest == b) := by
      intro b
      rw [Kind.takes, hc, Option.any_some, beq_false_of_ne hrest, Bool.false_or]
    have hstray : Problem.stray rest = .strayNamedEnd rest := if_neg hrest
    by_cases he : rest = block
    · subst he
      refine .down hc ?_ (hdown.2 hc) ?_
      · intro b
        rw [htakes, Bool.beq_comm]
      · rw [hstray]
        exact beq_self_eq_true _
    · refine .still ?_ ?_ ?_ (hup_false ho) (hdown_false (by simp [hc, he]))
      · intro b hb
        rw [ho] at hb
        cases hb
      · intro b hb
        rw [htakes, beq_iff_eq] at hb
        rw [← hb]
        exact beq_false_of_ne he
      · intro rest' hrest'
        rw [hc] at hrest'
        cases hrest'
        rw [hstray]
        exact beq_false_of_ne fun h => he (Problem.strayNamedEnd_inj h)
  | neutral ho hc =>
    refine .of_no_closer hc ?_ (hup_false ho) (hdown_false (by simp [hc]))
    intro b hb
    rw [ho] at hb
    cases hb

theorem total_texts : total.Texts fun _ => true := by
  have hstray := (Problem.stray_texts "").1
  constructor
  · intro p hp
    obtain ⟨hs, hu⟩ := Problem.ofNode_texts p hp
    exact ⟨beq_false_of_text (p := fun text => occursIn _ text.toList) hs hstray, hu⟩
  · intro rest
    exact (Problem.stray_texts rest).2
  · intro block hb
    obtain ⟨hs, hu⟩ := Problem.missingEnd_texts hb
    exact ⟨beq_false_of_text (p := fun text => occursIn _ text.toList) hs hstray, hu⟩

theorem total_moves {name : String} (hname : ∀ rest, name = "end" ++ rest → rest = "") :
    total.Moves (fun _ => true) name := by
  have hrole := Role.of_kind (.directive name)
  generalize Role.ofKind (.directive name) = role at hrole
  cases hrole with
  | opener ho hc =>
    obtain ⟨rfl, hm⟩ := Kind.opens_iff.1 ho
    exact .up ho rfl (List.contains_iff_mem.2 hm)
  | closer ho hc =>
    obtain rfl : name = "end" := Kind.closes_iff.1 hc
    exact .down hc (fun _ => rfl) rfl (beq_self_eq_true _)
  | namedCloser ho hc hrest => exact absurd (hname _ (Kind.closes_iff.1 hc)) hrest
  | neutral ho hc =>
    refine .of_no_closer hc ?_ ?_ ?_
    · intro b hb
      rw [ho] at hb
      cases hb
    · rw [Bool.eq_false_iff]
      intro hm
      rw [Kind.opens_iff.2 ⟨rfl, List.contains_iff_mem.1 hm⟩] at ho
      cases ho
    · refine beq_false_of_ne fun he => ?_
      have : (Kind.directive name).closes? = some "" := Kind.closes_iff.2 he
      rw [this] at hc
      cases hc

/-- The reports on `tree` are those of the counter: as many stray closers as the closers are ahead at most, and as
many unclosed openers as the openers and the stray closers are more than the closers. -/
structure Agrees (c : Counter) (tree : SyntaxTree) : Prop where
  stray : IsGreatest (c.excesses 0 tree.directiveNames) (tree.diagnostics.countP (c.stray ·.message))
  unclosed : tree.diagnostics.countP (c.unclosed ·.message) + tree.directiveNames.countP c.closes =
    tree.directiveNames.countP c.opens + tree.diagnostics.countP (c.stray ·.message)

theorem Texts.agrees {c : Counter} {keep : String → Bool} {tree : SyntaxTree} (ht : c.Texts keep)
    (hm : ∀ name ∈ tree.directiveNames, c.Moves keep name) : c.Agrees tree := by
  have htally : c.tally 0 tree.directiveNames = ⟨tree.diagnostics.countP (c.unclosed ·.message),
      tree.diagnostics.countP (c.stray ·.message)⟩ := by
    rw [SyntaxTree.diagnostics, List.countP_map, List.countP_map]
    exact SyntaxTree.findingsFrom_tally ht hm fun f hf => absurd hf List.not_mem_nil
  have hgreatest := c.tally_greatest 0 tree.directiveNames
  have hbalance := c.tally_balance 0 tree.directiveNames
  rw [htally] at hgreatest hbalance
  exact ⟨hgreatest, by rw [hbalance, Nat.zero_add]⟩

end Counter

/-- If every closer names its block, the blocks of each name are counted on their own, whatever stands between them. If
no closer does, all blocks are counted together. -/
theorem SyntaxTree.closers_count (tree : SyntaxTree) :
    ("end" ∉ tree.directiveNames → ∀ block ∈ blockNames, (Counter.named block).Agrees tree) ∧
    ((∀ name ∈ tree.directiveNames, ∀ rest, name = "end" ++ rest → rest = "") → Counter.total.Agrees tree) := by
  constructor
  · intro hnamed block hb
    refine (Counter.named_texts hb).agrees fun name hname => Counter.named_moves hb ?_
    rintro rfl
    exact hnamed hname
  · intro hplain
    exact Counter.total_texts.agrees fun name hname => Counter.total_moves (hplain name hname)

/-- A closer too many, then a block that is never closed, with another block across both; and two blocks of different
names closed from the inside, behind a closer too many. -/
theorem SyntaxTree.closers_count_crossed :
    let crossed := SyntaxTree.parse "@if(a)\n@each(x in y)\n@endif\n@endif\n@if(b)\n@endeach\n".toList
    let nested := SyntaxTree.parse "@end\n@if(a)\n@slot('x')\n@end\n".toList
    ("end" ∉ crossed.directiveNames ∧ (Counter.named "if").Agrees crossed ∧
      crossed.diagnostics.map (·.message) =
        ["@endif without matching @if directive", "@if directive missing its matching @end"]) ∧
    ((∀ name ∈ nested.directiveNames, ∀ rest, name = "end" ++ rest → rest = "") ∧ Counter.total.Agrees nested ∧
      nested.diagnostics.map (·.message) =
        ["@end without matching block directive", "@if directive missing its matching @end"]) := by
  intro crossed nested
  have hcrossed : "end" ∉ crossed.directiveNames := by decide +kernel
  have hnested : ∀ name ∈ nested.directiveNames, ∀ rest, name = "end" ++ rest → rest = "" := by
    have hall : ∀ name ∈ nested.directiveNames, name = "end" ∨ (Kind.directive name).closes? = none := by
      decide +kernel
    intro name hname rest he
    rcases hall name hname with h | h
    · have hclose : (Kind.directive name).closes? = some "" := Kind.closes_iff.2 h
      rw [Kind.closes_iff.2 he] at hclose
      exact Option.some.inj hclose
    · rw [Kind.closes_iff.2 he] at h
      cases h
  exact ⟨⟨hcrossed, (closers_count crossed).1 hcrossed "if" (by decide), by decide +kernel⟩,
    ⟨hnested, (closers_count nested).2 hnested, by decide +kernel⟩⟩

end EdgeTemplate
