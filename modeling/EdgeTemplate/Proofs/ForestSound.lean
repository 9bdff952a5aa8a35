import EdgeTemplate.Proofs.DraftSound
import EdgeTemplate.Proofs.ReadSound

/-!
# Forests side by side

The forest of a document is the forests of its items one after another (`append`), and every view of
a forest (its text, its records, its error nodes) splits along with it. The tokens of an argument list
nest without loss: a list that its scan closed leaves nothing over, and one that its scan left open
has no closing parenthesis without a partner.
-/

namespace EdgeTemplate

namespace Forest

def append : Forest → Forest → Forest
  | nil, g => g
  | node label children siblings, g => node label children (siblings.append g)

@[simp] theorem nil_append (g : Forest) : nil.append g = g := rfl

@[simp] theorem append_nil (f : Forest) : f.append nil = f := by
  induction f with
  | nil => rfl
  | node label children siblings _ ih => rw [append, ih]

theorem append_assoc (f g h : Forest) : (f.append g).append h = f.append (g.append h) := by
  induction f with
  | nil => rfl
  | node label children siblings _ ih => rw [append, append, append, ih]

theorem text_append (f g : Forest) : (f.append g).text = f.text ++ g.text := by
  induction f with
  | nil => rfl
  | node label children siblings _ ih => simp [append, text, ih]

theorem width_append (f g : Forest) : (f.append g).width = f.width + g.width := by
  rw [← length_text, ← length_text, ← length_text, text_append, List.length_append]

theorem size_append (f g : Forest) : (f.append g).size = f.size + g.size := by
  induction f with
  | nil => simp [size]
  | node label children siblings _ ih =>
    rw [append, size, size, ih]
    omega

theorem hasError_append (f g : Forest) : (f.append g).hasError = (f.hasError || g.hasError) := by
  induction f with
  | nil => simp [hasError]
  | node label children siblings _ ih => simp [append, hasError, ih, Bool.or_assoc]

theorem roots_append (f g : Forest) (index : Nat) :
    (f.append g).roots index = f.roots index ++ g.roots (index + f.size) := by
  induction f generalizing index with
  | nil => simp [roots, size]
  | node label children siblings _ ih =>
    rw [append, roots, roots, ih, size, List.cons_append]
    simp only [Nat.add_assoc]

theorem records_append (f g : Forest) (parent : Option Nat) (offset index : Nat) :
    (f.append g).records parent offset index =
      f.records parent offset index ++ g.records parent (offset + f.width) (index + f.size) := by
  induction f generalizing offset index with
  | nil => simp [records, width, size]
  | node label children siblings _ ih =>
    simp only [append, records, ih, width, size, List.cons_append, List.append_assoc, Nat.add_assoc]

theorem length_records (f : Forest) (parent : Option Nat) (offset index : Nat) :
    (f.records parent offset index).length = f.size := by
  induction f generalizing parent offset index with
  | nil => rfl
  | node label children siblings ihc ihs =>
    simp only [records, size, List.length_cons, List.length_append, ihc, ihs]
    omega

theorem hasError_eq_any (f : Forest) (parent : Option Nat) (offset index : Nat) :
    f.hasError = (f.records parent offset index).any (·.isError) := by
  induction f generalizing parent offset index with
  | nil => rfl
  | node label children siblings ihc ihs =>
    simp only [hasError, records, List.any_cons, List.any_append, ← ihc, ← ihs, Bool.or_assoc]

/-! ## Items -/

theorem ofItem_eq_append (siblings : Forest) (item : Item) :
    ofItem siblings item = (ofItem nil item).append siblings := by
  cases item <;> rfl

theorem ofItems_append (xs ys : List Item) : ofItems (xs ++ ys) = (ofItems xs).append (ofItems ys) := by
  induction xs with
  | nil => rfl
  | cons item xs ih =>
    rw [List.cons_append, ofItems, ofItems, ih, ofItem_eq_append, ofItem_eq_append (ofItems xs), append_assoc]

end Forest

/-! ## Nested arguments -/

namespace ArgumentToken

def label : ArgumentToken → Label
  | opening => { kind := .leftParen, lexeme := ['('] }
  | closing => { kind := .rightParen, lexeme := [')'] }
  | text lexeme => { kind := .argumentText, lexeme }
  | literal lexeme => { kind := .string, lexeme }
  | unterminated lexeme => { kind := .string, isError := true, lexeme }

theorem lexeme_label (token : ArgumentToken) : token.label.lexeme = token.lexeme := by
  cases token <;> rfl

theorem indent_label (token : ArgumentToken) : token.label.indent = [] := by
  cases token <;> rfl

theorem label_append (token : ArgumentToken) : token.label.indent ++ token.label.lexeme = token.lexeme := by
  rw [indent_label, lexeme_label, List.nil_append]

theorem kind_label_plain {token : ArgumentToken} (ho : token ≠ .opening) (hc : token ≠ .closing) :
    token.label.kind = .string ∨ token.label.kind = .argumentText ∧ token.label.isError = false := by
  cases token with
  | opening => exact absurd rfl ho
  | closing => exact absurd rfl hc
  | text lexeme => exact .inr ⟨rfl, rfl⟩
  | _ => exact .inl rfl

end ArgumentToken

namespace Forest

theorem nest_plain {token : ArgumentToken} (ho : token ≠ .opening) (hc : token ≠ .closing)
    (tokens : List ArgumentToken) :
    nest (token :: tokens) = (node token.label nil (nest tokens).1, (nest tokens).2) := by
  cases token with
  | opening => exact absurd rfl ho
  | closing => exact absurd rfl hc
  | _ => rfl

/-- How tokens nest, one case for each that may come in front. -/
inductive Nested : List ArgumentToken → Forest → List Forest → Prop
  | nil : Nested [] nil []
  | plain {token : ArgumentToken} {tokens : List ArgumentToken} {inside : Forest} {outer : List Forest} :
    token ≠ .opening → token ≠ .closing → Nested tokens inside outer →
      Nested (token :: tokens) (node token.label nil inside) outer
  | closing {tokens : List ArgumentToken} {inside : Forest} {outer : List Forest} :
    Nested tokens inside outer → Nested (.closing :: tokens) (leaf .rightParen [')'] nil) (inside :: outer)
  | unclosed {tokens : List ArgumentToken} {inside : Forest} :
    Nested tokens inside [] → Nested (.opening :: tokens) (group .parenthesized true inside nil) []
  | closed {tokens : List ArgumentToken} {inside siblings : Forest} {outer : List Forest} :
    Nested tokens inside (siblings :: outer) →
      Nested (.opening :: tokens) (group .parenthesized false inside siblings) outer

theorem nested (tokens : List ArgumentToken) : Nested tokens (nest tokens).1 (nest tokens).2 := by
  induction tokens with
  | nil => exact .nil
  | cons token tokens ih =>
    cases token with
    | closing => exact .closing ih
    | opening =>
      generalize hn : nest tokens = n at ih
      obtain ⟨inside, outer⟩ := n
      simp only [nest, hn]
      cases outer with
      | nil => exact .unclosed ih
      | cons siblings outer => exact .closed ih
    | _ =>
      rw [nest_plain (by simp) (by simp)]
      exact .plain (by simp) (by simp) ih

theorem Nested.text_eq {tokens : List ArgumentToken} {inside : Forest} {outer : List Forest}
    (h : Nested tokens inside outer) : inside.text ++ outer.flatMap text = tokens.flatMap ArgumentToken.lexeme := by
  induction h with
  | nil => rfl
  | plain _ _ _ ih => simp [text, ← ih, ← ArgumentToken.label_append]
  | closing _ ih => simp [leaf, text, ArgumentToken.lexeme, ← ih]
  | unclosed _ ih => simpa [group, leaf, text, ArgumentToken.lexeme] using ih
  | closed _ ih => simpa [group, leaf, text, ArgumentToken.lexeme] using ih

/-- What a token does to the number of lists that are closed and not opened behind it. -/
theorem nest_cons_snd (token : ArgumentToken) (tokens : List ArgumentToken) :
    (nest (token :: tokens)).2 =
      match token with
      | .closing => (nest tokens).1 :: (nest tokens).2
      | .opening => (nest tokens).2.tail
      | _ => (nest tokens).2 := by
  generalize hn : nest tokens = n
  obtain ⟨inside, outer⟩ := n
  cases token with
  | opening => cases outer <;> simp [nest, hn]
  | _ => simp [nest, hn]

/-- A scan that its list closed leaves the `depth` lists around it and nothing behind them; one that
stopped before finds no closing parenthesis for the list itself. -/
theorem nest_scan (depth : Nat) (cs : List Char) :
    (∃ outer, (nest (ArgumentToken.scan depth cs).1).2 = outer ++ [nil] ∧ outer.length = depth) ∨
      ((nest (ArgumentToken.scan depth cs).1).2.length ≤ depth ∧
        ArgumentToken.next? (ArgumentToken.scan depth cs).2 = none) := by
  fun_induction ArgumentToken.scan depth cs with
  | case1 depth cs h => exact .inr ⟨Nat.zero_le depth, h⟩
  | case2 depth cs token rest h _ hc =>
    obtain ⟨rfl, rfl⟩ := hc
    exact .inl ⟨[], rfl, rfl⟩
  | case3 depth cs token rest h _ hc tail ih =>
    rw [nest_cons_snd]
    cases token with
    | opening =>
      rcases ih with ⟨outer, ho, hl⟩ | ⟨hl, hn⟩
      · cases outer with
        | nil => cases hl
        | cons f outer => exact .inl ⟨outer, by simp [tail, ho], Nat.succ.inj hl⟩
      · refine .inr ⟨?_, hn⟩
        have : (nest tail.1).2.length ≤ depth + 1 := hl
        simp only [List.length_tail]
        omega
    | closing =>
      have hd : depth ≠ 0 := fun h0 => hc ⟨rfl, h0⟩
      rcases ih with ⟨outer, ho, hl⟩ | ⟨hl, hn⟩
      · refine .inl ⟨(nest tail.1).1 :: outer, by simp [tail, ho], ?_⟩
        have : outer.length = depth - 1 := hl
        simp only [List.length_cons]
        omega
      · refine .inr ⟨?_, hn⟩
        have : (nest tail.1).2.length ≤ depth - 1 := hl
        simp only [List.length_cons]
        omega
    | text lexeme => exact ih
    | literal lexeme => exact ih
    | unterminated lexeme => exact ih

theorem nest_scan_zero (cs : List Char) :
    (nest (ArgumentToken.scan 0 cs).1).2 = [nil] ∨
      ((nest (ArgumentToken.scan 0 cs).1).2 = [] ∧ ArgumentToken.next? (ArgumentToken.scan 0 cs).2 = none) := by
  rcases nest_scan 0 cs with ⟨outer, ho, hl⟩ | ⟨hl, hn⟩
  · rw [List.length_eq_zero_iff.1 hl] at ho
    exact .inl ho
  · exact .inr ⟨List.length_eq_zero_iff.1 (Nat.le_zero.1 hl), hn⟩

theorem text_ofArguments (cs : List Char) :
    (ofArguments (ArgumentToken.scan 0 cs).1).text =
      '(' :: (ArgumentToken.scan 0 cs).1.flatMap ArgumentToken.lexeme := by
  rw [← (nested _).text_eq]
  rcases nest_scan_zero cs with h | ⟨h, -⟩ <;> simp [ofArguments, group, leaf, text, h]

theorem text_ofItem {lineStart : Bool} {cs rest : List Char} {item : Item} (h : Item.Read lineStart cs item rest) :
    (ofItem nil item).text = item.lexeme := by
  cases h with
  | interpolation style e _ _ =>
    cases hb : e.body.isEmpty with
    | true =>
      have : e.body = [] := List.isEmpty_iff.1 hb
      cases e.closed <;> simp [ofItem, ofInterpolation, leaf, text, Item.lexeme, this]
    | false => cases e.closed <;> simp [ofItem, ofInterpolation, leaf, text, Item.lexeme, hb]
  | arguments _ _ => simp [ofItem, leaf, text, Item.lexeme, text_ofArguments]
  | _ => simp [ofItem, leaf, text, Item.lexeme]

theorem width_ofItem {lineStart : Bool} {cs rest : List Char} {item : Item} (h : Item.Read lineStart cs item rest) :
    (ofItem nil item).width = item.lexeme.length := by
  rw [← length_text, text_ofItem h]

end Forest

theorem items_mem_read {lineStart : Bool} {cs : List Char} {item : Item} (h : item ∈ items lineStart cs) :
    ∃ ls suf rest, Item.Read ls suf item rest := by
  fun_induction items lineStart cs with
  | case1 => cases h
  | case2 ls cs hne _ first ih =>
    rcases List.mem_cons.1 h with rfl | h
    · exact ⟨ls, cs, first.2, Item.next_read ls hne⟩
    · exact ih h

theorem Forest.text_ofItems {xs : List Item} (h : ∀ item ∈ xs, ∃ ls suf rest, Item.Read ls suf item rest) :
    (ofItems xs).text = xs.flatMap Item.lexeme := by
  induction xs with
  | nil => rfl
  | cons item xs ih =>
    obtain ⟨ls, suf, rest, hr⟩ := h item (by simp)
    rw [ofItems, ofItem_eq_append, text_append, text_ofItem hr, ih fun i hi => h i (by simp [hi]),
      List.flatMap_cons]

end EdgeTemplate
