import EdgeTemplate.Proofs.LexSound

/-!
# The grammar

The productions of the template language, and the trees that they give. The states of the lexer stand for what a
sentence may go on with: a terminal is allowed behind some tokens if and only if there is a sentence that starts with
them and it (`allowed_iff`). What is left open may end anywhere, so wherever the tokens of a sentence are cut off, those
before the cut are a sentence too (`sentence_take`), and a text may end in every state.

The tree of a text is a parse tree of its tokens (`parses_text`). There may be others: where lists are left open, a
closing parenthesis and the arguments behind it can belong to any of them. Here they belong to the innermost.
-/

namespace EdgeTemplate

/-! ## Tokens and leaves -/

namespace Terminal

def kind : Terminal → Kind
  | string | unterminatedString => .string
  | leftParen => .leftParen
  | rightParen => .rightParen
  | argumentText => .argumentText
  | closing style => .closing style
  | expression _ => .expression
  | comment | unclosedComment => .comment
  | escaped | unclosedEscaped => .escapedInterpolation
  | opening style => .opening style
  | tagName => .directiveName
  | text => .text

def isError : Terminal → Bool
  | unterminatedString | unclosedComment | unclosedEscaped => true
  | _ => false

end Terminal

/-- The leaf of a token. The blanks in front of a tag belong to no node. -/
def Token.label (t : Token) : Label where
  kind := t.terminal.kind
  isError := t.terminal.isError
  indent := if t.terminal = .tagName then t.lexeme.takeWhile isIndent else []
  lexeme := if t.terminal = .tagName then t.lexeme.dropWhile isIndent else t.lexeme

theorem Token.label_append (t : Token) : t.label.indent ++ t.label.lexeme = t.lexeme := by
  by_cases h : t.terminal = .tagName
  · simp [label, h, List.takeWhile_append_dropWhile]
  · simp [label, h]

theorem label_tagName {indent tag rest : List Char} (h : TagSplit indent tag rest) :
    Token.label ⟨.tagName, indent ++ tag⟩ = { kind := .directiveName, indent, lexeme := tag } := by
  have hi := List.all_eq_true.1 h.indent
  obtain ⟨t, rfl⟩ := h.tag.head
  have ht : List.takeWhile isIndent ('@' :: t) = [] := by rw [List.takeWhile_cons, if_neg (by decide)]
  have hd : List.dropWhile isIndent ('@' :: t) = '@' :: t := by rw [List.dropWhile_cons, if_neg (by decide)]
  simp [Token.label, Terminal.kind, Terminal.isError, List.takeWhile_append_of_pos hi,
    List.dropWhile_append_of_pos hi, ht, hd]

/-! ## Productions -/

inductive Rule where
  | start
  | item
  | text
  | comment
  | escapedInterpolation
  | interpolation (style : Mustache)
  | expression (style : Mustache)
  | tag
  | arguments
  | parenthesized
  | argument
  | string
  | unterminatedString
  deriving DecidableEq

inductive Phrase where
  | terminal (t : Terminal)
  | rule (r : Rule)
  | seq (a b : Phrase)
  | opt (a : Phrase)
  | star (a : Phrase)
  deriving DecidableEq

structure Production where
  phrase : Phrase
  /-- The construct is left open. -/
  isError : Bool := false
  deriving DecidableEq

namespace Rule

open Phrase

def productions : Rule → List Production
  | start => [{ phrase := star (rule item) }]
  | item =>
    [{ phrase := rule text }, { phrase := rule comment }, { phrase := rule escapedInterpolation },
      { phrase := rule (interpolation .plain) }, { phrase := rule (interpolation .safe) }, { phrase := rule tag }]
  | text => [{ phrase := terminal .text }]
  | comment => [{ phrase := terminal .comment }, { phrase := terminal .unclosedComment, isError := true }]
  | escapedInterpolation =>
    [{ phrase := terminal .escaped }, { phrase := terminal .unclosedEscaped, isError := true }]
  | interpolation style =>
    let opened := seq (terminal (.opening style)) (opt (rule (expression style)))
    [{ phrase := seq opened (terminal (.closing style)) }, { phrase := opened, isError := true }]
  | expression style => [{ phrase := terminal (.expression style) }]
  | tag => [{ phrase := seq (terminal .tagName) (opt (rule arguments)) }]
  | arguments | parenthesized =>
    let opened := seq (terminal .leftParen) (star (rule argument))
    [{ phrase := seq opened (terminal .rightParen) }, { phrase := opened, isError := true }]
  | argument =>
    [{ phrase := terminal .argumentText }, { phrase := rule string }, { phrase := rule unterminatedString },
      { phrase := rule parenthesized }]
  | string => [{ phrase := terminal .string }]
  | unterminatedString => [{ phrase := terminal .unterminatedString, isError := true }]

/-- The node of a rule. Items and arguments are nodes themselves; a rule of a single token has no node below it. -/
def build (r : Rule) (isError : Bool) (tokens : List Token) (inside : Forest) : Forest :=
  let lexeme := tokens.flatMap (·.lexeme)
  match r with
  | start => .node { kind := .document } inside .nil
  | item | argument => inside
  | text => .leaf .text lexeme .nil
  | comment => .node { kind := .comment, isError, lexeme } .nil .nil
  | escapedInterpolation => .node { kind := .escapedInterpolation, isError, lexeme } .nil .nil
  | interpolation style => .node { kind := .interpolation style, isError } inside .nil
  | expression _ => .leaf .expression lexeme .nil
  | tag =>
    let name := (tokens.headD ⟨.tagName, []⟩).label
    .node { kind := .ofTag name.lexeme, indent := name.indent } inside .nil
  | arguments => .node { kind := .arguments, isError } inside .nil
  | parenthesized => .node { kind := .parenthesized, isError } inside .nil
  | string | unterminatedString => .node { kind := .string, isError, lexeme } .nil .nil

end Rule

def Token.leaf (t : Token) : Forest := .node { t.label with indent := [] } .nil .nil

/-- The tokens are of the phrase, and the forest is one of its parse trees. -/
inductive Parses : Phrase → List Token → Forest → Prop
  | token (t : Token) : Parses (.terminal t.terminal) [t] t.leaf
  | rule {r : Rule} {p : Production} {ts : List Token} {f : Forest} : p ∈ r.productions → Parses p.phrase ts f →
    Parses (.rule r) ts (r.build p.isError ts f)
  | seq {a b : Phrase} {ts us : List Token} {f g : Forest} : Parses a ts f → Parses b us g →
    Parses (.seq a b) (ts ++ us) (f.append g)
  | skip {a : Phrase} : Parses (.opt a) [] .nil
  | opt {a : Phrase} {ts : List Token} {f : Forest} : Parses a ts f → Parses (.opt a) ts f
  | stop {a : Phrase} : Parses (.star a) [] .nil
  | more {a : Phrase} {ts us : List Token} {f g : Forest} : Parses a ts f → Parses (.star a) us g →
    Parses (.star a) (ts ++ us) (f.append g)

/-! ## From a parse tree to the states of the lexer -/

namespace LexState

def run? : LexState → List Token → Option LexState
  | s, [] => some s
  | s, t :: ts => (s.next? t.terminal).bind fun s' => s'.run? ts

theorem run?_append (s : LexState) (ts us : List Token) :
    s.run? (ts ++ us) = (s.run? ts).bind fun s' => s'.run? us := by
  induction ts generalizing s with
  | nil => rfl
  | cons t ts ih =>
    rw [List.cons_append, run?, run?, Option.bind_assoc]
    exact congrArg _ (funext ih)

/-- In a list at least as deep as before. -/
def Deepens (s s' : LexState) : Prop := ∃ d d', s = arguments d ∧ s' = arguments d' ∧ d ≤ d'

end LexState

open LexState

/-- Where a rule can be read. -/
def Rule.Pre (s : LexState) : Rule → Prop
  | .expression style => s = afterOpening style
  | .arguments => s = afterTag
  | .parenthesized | .argument | .string | .unterminatedString => Deepens s s
  | _ => True

/-- What is known of the state behind a rule. A parenthesis closes the innermost list, also where the parse tree
leaves that one open and closes another. -/
def Rule.Post (s s' : LexState) : Rule → Prop
  | .expression style => s' = afterExpression style
  | .parenthesized | .argument | .string | .unterminatedString => Deepens s s'
  | _ => True

/-- Whatever is read of the phrase from `s` on, `Q` holds behind it. -/
def Phrase.Ensures (Q : LexState → Prop) (s : LexState) : Phrase → Prop
  | .terminal t => ∃ s', s.next? t = some s' ∧ Q s'
  | .rule r => r.Pre s ∧ ∀ s', r.Post s s' → Q s'
  | .seq a b => a.Ensures (fun s' => b.Ensures Q s') s
  | .opt a => Q s ∧ a.Ensures Q s
  | .star a => ∃ I : LexState → Prop, I s ∧ ∀ s', I s' → Q s' ∧ a.Ensures I s'

theorem ensures_arguments {Q : LexState → Prop} {d : Nat} (hQ : ∀ d', d ≤ d' → Q (arguments d')) :
    (Phrase.star (.rule .argument)).Ensures Q (arguments d) := by
  refine ⟨fun s => ∃ d', s = arguments d' ∧ d ≤ d', ⟨d, rfl, Nat.le_refl d⟩, ?_⟩
  rintro _ ⟨d', rfl, hle⟩
  refine ⟨hQ d' hle, ⟨d', d', rfl, rfl, Nat.le_refl d'⟩, ?_⟩
  rintro _ ⟨_, d'', ⟨⟩, rfl, hle'⟩
  exact ⟨d'', rfl, Nat.le_trans hle hle'⟩

/-- Every production keeps what is known of its rule. -/
theorem Rule.ensures (r : Rule) {s : LexState} (hs : r.Pre s) :
    ∀ p ∈ r.productions, p.phrase.Ensures (fun s' => r.Post s s') s := by
  cases r with
  | start =>
    exact List.forall_mem_singleton.2 ⟨fun _ => True, trivial, fun _ _ => ⟨trivial, trivial, fun _ _ => trivial⟩⟩
  | item | text | comment | escapedInterpolation => simp [productions, Phrase.Ensures, Pre, Post, next?]
  | interpolation style => simp [productions, Phrase.Ensures, Pre, Post, next?]
  | expression style =>
    obtain rfl : s = afterOpening style := hs
    simp [productions, Phrase.Ensures, Post, next?]
  | tag => simp [productions, Phrase.Ensures, Pre, Post, next?]
  | arguments =>
    obtain rfl : s = afterTag := hs
    refine List.forall_mem_cons.2 ⟨⟨.arguments 0, rfl, ensures_arguments fun d _ => ?_⟩,
      List.forall_mem_singleton.2 ⟨.arguments 0, rfl, ensures_arguments fun _ _ => trivial⟩⟩
    cases d with
    | zero => exact ⟨document, rfl, trivial⟩
    | succ d => exact ⟨.arguments d, rfl, trivial⟩
  | parenthesized =>
    obtain ⟨d, -, rfl, -⟩ : Deepens s s := hs
    refine List.forall_mem_cons.2 ⟨⟨.arguments (d + 1), rfl, ensures_arguments fun d' hle => ?_⟩,
      List.forall_mem_singleton.2 ⟨.arguments (d + 1), rfl, ensures_arguments fun d' hle => ?_⟩⟩
    · obtain ⟨d', rfl⟩ := Nat.exists_eq_add_of_le' hle
      exact ⟨.arguments (d' + d), rfl, d, _, rfl, rfl, by omega⟩
    · exact ⟨d, d', rfl, rfl, by omega⟩
  | argument =>
    obtain ⟨d, -, rfl, -⟩ : Deepens s s := hs
    simp [productions, Phrase.Ensures, Pre, Post, next?, Deepens]
  | string | unterminatedString =>
    obtain ⟨d, -, rfl, -⟩ : Deepens s s := hs
    simp [productions, Phrase.Ensures, Post, next?, Deepens]

theorem Parses.run {p : Phrase} {ts : List Token} {f : Forest} (h : Parses p ts f) {Q : LexState → Prop} {s : LexState}
    (hs : p.Ensures Q s) : ∃ s', s.run? ts = some s' ∧ Q s' := by
  induction h generalizing Q s with
  | token t =>
    obtain ⟨s', hnext, hQ⟩ := hs
    exact ⟨s', by simp [run?, hnext], hQ⟩
  | rule hp _ ih =>
    obtain ⟨hpre, hpost⟩ := hs
    obtain ⟨s', hrun, hs'⟩ := ih (Rule.ensures _ hpre _ hp)
    exact ⟨s', hrun, hpost s' hs'⟩
  | seq _ _ iha ihb =>
    obtain ⟨s', hrun, hs'⟩ := iha hs
    obtain ⟨s'', hrun', hQ⟩ := ihb hs'
    exact ⟨s'', by rw [run?_append, hrun, Option.bind_some, hrun'], hQ⟩
  | skip => exact ⟨s, rfl, hs.1⟩
  | opt _ ih => exact ih hs.2
  | stop =>
    obtain ⟨I, hI, hstep⟩ := hs
    exact ⟨s, rfl, (hstep s hI).1⟩
  | more _ _ iha ihs =>
    obtain ⟨I, hI, hstep⟩ := hs
    obtain ⟨s', hrun, hI'⟩ := iha (hstep s hI).2
    obtain ⟨s'', hrun', hQ⟩ := ihs ⟨I, hI', hstep⟩
    exact ⟨s'', by rw [run?_append, hrun, Option.bind_some, hrun'], hQ⟩

/-! ## From the states of the lexer to a parse tree -/

namespace Phrase

def items : Phrase := star (rule .item)

/-- The end of a list in `depth` others, and what may come of those behind it. -/
def ending : Nat → Phrase
  | 0 => terminal .rightParen
  | depth + 1 => seq (terminal .rightParen) (seq (star (rule .argument)) (opt (ending depth)))

end Phrase

open Phrase in
/-- What may come in a state. -/
def LexState.coming : LexState → Phrase
  | document => .items
  | afterTag => seq (opt (rule .arguments)) .items
  | arguments depth => seq (seq (star (rule .argument)) (opt (ending depth))) .items
  | afterOpening style => seq (seq (opt (rule (.expression style))) (opt (terminal (.closing style)))) .items
  | afterExpression style => seq (opt (terminal (.closing style))) .items

section

variable {s s' : LexState} {r : Rule} {t : Token} {ts us : List Token} {f g : Forest}

/-- Whatever is open may be left open. -/
theorem LexState.coming_of_items (s : LexState) (h : Parses .items ts f) : Parses s.coming ts f := by
  cases s with
  | document => exact h
  | afterTag => exact .seq .skip h
  | arguments depth => exact .seq (.seq .stop .skip) h
  | afterOpening style => exact .seq (.seq .skip .skip) h
  | afterExpression style => exact .seq .skip h

theorem Parses.terminal {x : Terminal} (ht : t.terminal = x) : Parses (.terminal x) [t] t.leaf := ht ▸ .token t

/-- A construct is closed by what ends it, if that comes. -/
theorem parses_enclosed {opened closing : Phrase}
    (hr : r.productions = [{ phrase := .seq opened closing }, { phrase := opened, isError := true }])
    (ho : Parses opened ts f) (hc : Parses (.opt closing) us g) : ∃ h, Parses (.rule r) (ts ++ us) h := by
  cases hc with
  | skip =>
    rw [List.append_nil]
    exact ⟨_, .rule (by rw [hr]; exact List.mem_cons_of_mem _ List.mem_cons_self) ho⟩
  | opt hc => exact ⟨_, .rule (by rw [hr]; exact List.mem_cons_self) (.seq ho hc)⟩

theorem Parses.item (hr : { phrase := .rule r } ∈ Rule.item.productions) (h : Parses (.rule r) ts f) :
    Parses (.rule .item) ts f :=
  .rule hr h

theorem Rule.interpolation_mem (style : Mustache) :
    { phrase := .rule (.interpolation style) } ∈ Rule.item.productions := by
  cases style <;> decide

theorem parses_item (hr : { phrase := .rule r } ∈ Rule.item.productions) (h : Parses (.rule r) ts f)
    (hs : Parses .items us g) : ∃ k, Parses .items (ts ++ us) k :=
  ⟨_, .more (.item hr h) hs⟩

theorem parses_single (hr : { phrase := .rule r } ∈ Rule.item.productions) {x : Terminal} {e : Bool}
    (hp : ⟨.terminal x, e⟩ ∈ r.productions) (ht : t.terminal = x) (h : Parses .items ts f) :
    ∃ g, Parses .items (t :: ts) g :=
  parses_item hr (.rule hp (.terminal ht)) h

theorem parses_opening {style : Mustache} (ht : t.terminal = .opening style)
    (h : Parses (afterOpening style).coming ts f) : ∃ g, Parses .items (t :: ts) g := by
  cases h with
  | seq hbody hitems =>
    cases hbody with
    | seq hexpression hclosing =>
      obtain ⟨g, hg⟩ := parses_enclosed (r := .interpolation style) rfl (.seq (.terminal ht) hexpression) hclosing
      exact parses_item (Rule.interpolation_mem style) hg hitems

theorem parses_tag (ht : t.terminal = .tagName) (h : Parses afterTag.coming ts f) :
    ∃ g, Parses .items (t :: ts) g := by
  cases h with
  | seq harguments hitems =>
    have htag := Parses.rule (r := .tag) List.mem_cons_self (.seq (.terminal ht) harguments)
    exact parses_item (by decide) htag hitems

/-- A terminal that is allowed everywhere starts an item. -/
theorem parses_outer (ht : t.terminal ∈ outer) (hnext : document.next? t.terminal = some s')
    (h : Parses s'.coming ts f) : ∃ g, Parses .items (t :: ts) g := by
  simp only [outer, List.mem_cons, List.not_mem_nil, or_false] at ht
  rcases ht with ht | ht | ht | ht | ht | ht | ht | ht <;> rw [ht] at hnext <;> cases hnext
  · exact parses_single (r := .comment) (by decide) List.mem_cons_self ht h
  · exact parses_single (r := .comment) (by decide) (.tail _ (.head _)) ht h
  · exact parses_single (r := .escapedInterpolation) (by decide) List.mem_cons_self ht h
  · exact parses_single (r := .escapedInterpolation) (by decide) (.tail _ (.head _)) ht h
  · exact parses_opening ht h
  · exact parses_opening ht h
  · exact parses_tag ht h
  · exact parses_single (r := .text) (by decide) List.mem_cons_self ht h

theorem parses_argument {depth : Nat} {p : Production} (hp : p ∈ Rule.argument.productions)
    (h : Parses p.phrase ts f) (hs : Parses (arguments depth).coming us g) :
    ∃ k, Parses (arguments depth).coming (ts ++ us) k := by
  cases hs with
  | seq hlist hitems =>
    cases hlist with
    | seq harguments hend =>
      rw [← List.append_assoc, ← List.append_assoc]
      exact ⟨_, .seq (.seq (.more (.rule hp h) harguments) hend) hitems⟩

theorem parses_paren {depth : Nat} (ht : t.terminal = .leftParen) (h : Parses (arguments (depth + 1)).coming ts f) :
    ∃ g, Parses (arguments depth).coming (t :: ts) g := by
  cases h with
  | seq hlist hitems =>
    cases hlist with
    | seq harguments hend =>
      have hopened := Parses.seq (.terminal ht) harguments
      cases hend with
      | skip =>
        have hp := Parses.rule (r := .parenthesized) (.tail _ (.head _)) hopened
        rw [List.append_nil]
        exact parses_argument (.tail _ (.tail _ (.tail _ (.head _)))) hp ((arguments depth).coming_of_items hitems)
      | opt hend =>
        cases hend with
        | seq hclosing houter =>
          have hp := Parses.rule (r := .parenthesized) List.mem_cons_self (.seq hopened hclosing)
          have := parses_argument (.tail _ (.tail _ (.tail _ (.head _)))) hp (.seq houter hitems)
          simpa using this

/-- The terminals of a construct go on with it. -/
theorem parses_inner (ht : t.terminal ∈ s.inner) (hnext : s.next? t.terminal = some s') (h : Parses s'.coming ts f) :
    ∃ g, Parses s.coming (t :: ts) g := by
  cases s with
  | document => cases ht
  | afterTag =>
    have ht := List.mem_singleton.1 ht
    rw [ht] at hnext
    cases hnext
    cases h with
    | seq hlist hitems =>
      cases hlist with
      | seq harguments hend =>
        obtain ⟨g, hg⟩ := parses_enclosed (r := .arguments) rfl (.seq (.terminal ht) harguments) hend
        exact ⟨_, .seq (.opt hg) hitems⟩
  | arguments depth =>
    simp only [LexState.inner, List.mem_cons, List.not_mem_nil, or_false] at ht
    rcases ht with ht | ht | ht | ht | ht
    · rw [ht] at hnext
      cases hnext
      exact parses_argument (.tail _ (.head _)) (.rule (r := .string) List.mem_cons_self (.terminal ht)) h
    · rw [ht] at hnext
      cases hnext
      exact parses_argument (.tail _ (.tail _ (.head _)))
        (.rule (r := .unterminatedString) List.mem_cons_self (.terminal ht)) h
    · rw [ht] at hnext
      cases hnext
      exact parses_paren ht h
    · rw [ht] at hnext
      cases depth with
      | zero =>
        cases hnext
        exact ⟨_, .seq (.seq .stop (.opt (.terminal ht))) h⟩
      | succ depth =>
        cases hnext
        cases h with
        | seq hlist hitems => exact ⟨_, .seq (.seq .stop (.opt (.seq (.terminal ht) hlist))) hitems⟩
    · rw [ht] at hnext
      cases hnext
      exact parses_argument List.mem_cons_self (.terminal ht) h
  | afterOpening style =>
    simp only [LexState.inner, List.mem_cons, List.not_mem_nil, or_false] at ht
    rcases ht with ht | ht
    · rw [ht, next?, if_pos rfl] at hnext
      cases hnext
      exact ⟨_, .seq (.seq .skip (.opt (.terminal ht))) h⟩
    · rw [ht, next?, if_pos rfl] at hnext
      cases hnext
      cases h with
      | seq hclosing hitems =>
        have hexpression := Parses.rule (r := .expression style) List.mem_cons_self (.terminal ht)
        exact ⟨_, .seq (.seq (.opt hexpression) hclosing) hitems⟩
  | afterExpression style =>
    have ht := List.mem_singleton.1 ht
    rw [ht, next?, if_pos rfl] at hnext
    cases hnext
    exact ⟨_, .seq (.opt (.terminal ht)) h⟩

end

theorem LexState.mem_allowed {s : LexState} {t : Terminal} : t ∈ s.allowed ↔ (s.next? t).isSome = true := by
  simp [allowed, Terminal.mem_byPriority]

theorem parses_of_run {s : LexState} {ts : List Token} (h : (s.run? ts).isSome = true) :
    ∃ f, Parses s.coming ts f := by
  induction ts generalizing s with
  | nil => exact ⟨_, s.coming_of_items .stop⟩
  | cons t ts ih =>
    cases hnext : s.next? t.terminal with
    | none =>
      rw [run?, hnext] at h
      cases h
    | some s' =>
      rw [run?, hnext, Option.bind_some] at h
      obtain ⟨f, hf⟩ := ih h
      have ht : t.terminal ∈ s.allowed := LexState.mem_allowed.2 (by rw [hnext]; rfl)
      rw [allowed_eq] at ht
      rcases List.mem_append.1 ht with ht | ht
      · exact parses_inner ht hnext hf
      · obtain ⟨g, hg⟩ := parses_outer ht (s.next_outer ht ▸ hnext) hf
        exact ⟨g, s.coming_of_items hg⟩

/-- The sentences are what the lexer can take. -/
theorem sentence_iff (ts : List Token) :
    (∃ f, Parses (.rule .start) ts f) ↔ (document.run? ts).isSome = true := by
  constructor
  · rintro ⟨f, hf⟩
    obtain ⟨s, hs, -⟩ := hf.run (Q := fun _ => True) (s := document) ⟨trivial, fun _ _ => trivial⟩
    rw [hs]
    rfl
  · intro h
    obtain ⟨f, hf⟩ := parses_of_run h
    exact ⟨_, .rule (r := .start) List.mem_cons_self hf⟩

/-- Cut off anywhere, a sentence is a sentence. -/
theorem sentence_take {before after : List Token} {f : Forest} (h : Parses (.rule .start) (before ++ after) f) :
    ∃ g, Parses (.rule .start) before g := by
  have hrun := (sentence_iff _).1 ⟨f, h⟩
  rw [run?_append] at hrun
  rw [sentence_iff]
  cases hb : document.run? before with
  | some s => rfl
  | none =>
    rw [hb] at hrun
    cases hrun

/-- A terminal is allowed if and only if a sentence goes on with it. -/
theorem allowed_iff {before : List Token} {s : LexState} (hs : document.run? before = some s) (t : Token) :
    t.terminal ∈ s.allowed ↔ ∃ after f, Parses (.rule .start) (before ++ t :: after) f := by
  rw [LexState.mem_allowed]
  constructor
  · intro h
    refine ⟨[], (sentence_iff _).2 ?_⟩
    rw [run?_append, hs, Option.bind_some, run?]
    simpa [run?] using h
  · rintro ⟨after, hf⟩
    have hrun := (sentence_iff _).1 hf
    rw [run?_append, hs, Option.bind_some, run?] at hrun
    cases hnext : s.next? t.terminal with
    | some s' => rfl
    | none =>
      rw [hnext] at hrun
      cases hrun

/-! ## The tree of a text -/

/-- The arguments of the innermost list, up to its closing parenthesis, and then those of the lists around it. -/
inductive Layers : List ArgumentToken → Forest → List Forest → Prop
  | last {tokens : List ArgumentToken} {f : Forest} :
    Parses (.star (.rule .argument)) (tokens.map ArgumentToken.token) f → Layers tokens f []
  | closed {tokens rest : List ArgumentToken} {f g : Forest} {outer : List Forest} :
    Parses (.star (.rule .argument)) (tokens.map ArgumentToken.token) f → Forest.Nested rest g outer →
    Layers rest g outer → Layers (tokens ++ .closing :: rest) (f.append (.leaf .rightParen [')'] .nil)) (g :: outer)

theorem Layers.prepend (first : List ArgumentToken) {tokens : List ArgumentToken} {f g : Forest} {outer : List Forest}
    (hf : Parses (.rule .argument) (first.map ArgumentToken.token) f) (h : Layers tokens g outer) :
    Layers (first ++ tokens) (f.append g) outer := by
  cases h with
  | last h =>
    refine .last ?_
    rw [List.map_append]
    exact .more hf h
  | closed h hn hl =>
    rw [← List.append_assoc, ← Forest.append_assoc]
    refine .closed ?_ hn hl
    rw [List.map_append]
    exact .more hf h

theorem parses_plain {token : ArgumentToken} (ho : token ≠ .opening) (hc : token ≠ .closing) :
    Parses (.rule .argument) [token.token] (.node token.label .nil .nil) := by
  cases token with
  | opening => exact absurd rfl ho
  | closing => exact absurd rfl hc
  | text lexeme => exact .rule (r := .argument) (.head _) (.token ⟨.argumentText, lexeme⟩)
  | literal lexeme =>
    have h := Parses.rule (r := .string) (.head _) (.token ⟨.string, lexeme⟩)
    have h := Parses.rule (r := .argument) (.tail _ (.head _)) h
    simpa [Rule.build, ArgumentToken.token, ArgumentToken.label] using h
  | unterminated lexeme =>
    have h := Parses.rule (r := .unterminatedString) (.head _) (.token ⟨.unterminatedString, lexeme⟩)
    have h := Parses.rule (r := .argument) (.tail _ (.tail _ (.head _))) h
    simpa [Rule.build, ArgumentToken.token, ArgumentToken.label] using h

/-- A list that is left open, and one that is closed. -/
theorem parses_group {r : Rule} {kind : Kind} (hr : r.productions = Rule.arguments.productions)
    (hbuild : ∀ isError ts inside, r.build isError ts inside = .node { kind, isError } inside .nil)
    {tokens : List ArgumentToken} {f : Forest}
    (h : Parses (.star (.rule .argument)) (tokens.map ArgumentToken.token) f) :
    Parses (.rule r) ((.opening :: tokens).map ArgumentToken.token) (.group kind true f .nil) ∧
      Parses (.rule r) ((.opening :: (tokens ++ [.closing])).map ArgumentToken.token)
        (.group kind false (f.append (.leaf .rightParen [')'] .nil)) .nil) := by
  have hopened := Parses.seq (.token ArgumentToken.opening.token) h
  constructor
  · have h := Parses.rule (r := r) (p := ⟨_, true⟩) (by rw [hr]; exact .tail _ (.head _)) hopened
    rwa [hbuild] at h
  · have h := Parses.rule (r := r) (p := ⟨_, false⟩) (by rw [hr]; exact .head _)
      (.seq hopened (.token ArgumentToken.closing.token))
    rw [hbuild] at h
    rwa [List.map_cons, List.map_append]

theorem Forest.Nested.layers {tokens : List ArgumentToken} {inside : Forest} {outer : List Forest}
    (h : Nested tokens inside outer) : Layers tokens inside outer := by
  induction h with
  | nil => exact .last .stop
  | @plain token _ _ _ ho hc _ ih => exact .prepend [token] (parses_plain ho hc) ih
  | closing hn ih => exact @Layers.closed [] _ .nil _ _ .stop hn ih
  | @unclosed tokens _ _ ih =>
    cases ih with
    | last h =>
      have hp := (parses_group (r := .parenthesized) rfl (fun _ _ _ => rfl) h).1
      have hl := Layers.prepend _ (.rule (.tail _ (.tail _ (.tail _ (.head _)))) hp) (@Layers.last [] _ .stop)
      rwa [List.append_nil, append_nil] at hl
  | closed _ ih =>
    cases ih with
    | closed h hn hl =>
      have hp := (parses_group (r := .parenthesized) rfl (fun _ _ _ => rfl) h).2
      have hl := Layers.prepend _ (.rule (.tail _ (.tail _ (.tail _ (.head _)))) hp) hl
      rwa [List.cons_append, List.append_assoc] at hl

theorem parses_arguments (cs : List Char) :
    Parses (.rule .arguments) ((ArgumentToken.opening :: (ArgumentToken.scan 0 cs).1).map ArgumentToken.token)
      (Forest.ofArguments (ArgumentToken.scan 0 cs).1) := by
  have hlayers := (Forest.nested (ArgumentToken.scan 0 cs).1).layers
  have hscan := Forest.nest_scan_zero cs
  rw [Forest.ofArguments]
  generalize (ArgumentToken.scan 0 cs).1 = tokens at hlayers hscan
  generalize Forest.nest tokens = nest at hlayers hscan
  obtain ⟨inside, outer⟩ := nest
  cases hlayers with
  | last h => exact (parses_group (r := .arguments) rfl (fun _ _ _ => rfl) h).1
  | @closed _ _ _ g outer h hn hl =>
    -- Behind its closing parenthesis the scan reads nothing.
    obtain ⟨rfl, rfl⟩ : g = .nil ∧ outer = [] := by simpa using hscan
    cases hn
    exact (parses_group (r := .arguments) rfl (fun _ _ _ => rfl) h).2

theorem parses_interpolation (style : Mustache) (body : List Char) (closed : Bool) :
    Parses (.rule (.interpolation style)) (Item.interpolation style body closed).tokens
      (Forest.ofItem .nil (.interpolation style body closed)) := by
  have hopening := Parses.token ⟨.opening style, style.opening⟩
  have hclosing := Parses.token ⟨.closing style, style.closing⟩
  have hbody : Parses (.opt (.rule (.expression style))) [⟨.expression style, body⟩] (.leaf .expression body .nil) := by
    have h := Parses.rule (r := .expression style) (.head _) (.token ⟨.expression style, body⟩)
    simpa [Rule.build] using Parses.opt h
  rw [Item.tokens, Forest.ofItem, Forest.ofInterpolation]
  cases hb : body.isEmpty with
  | true =>
    cases closed with
    | true =>
      have h := Parses.rule (r := .interpolation style) (.head _) (.seq (.seq hopening .skip) hclosing)
      exact h
    | false =>
      have h := Parses.rule (r := .interpolation style) (.tail _ (.head _)) (.seq hopening .skip)
      exact h
  | false =>
    cases closed with
    | true =>
      have h := Parses.rule (r := .interpolation style) (.head _) (.seq (.seq hopening hbody) hclosing)
      exact h
    | false =>
      have h := Parses.rule (r := .interpolation style) (.tail _ (.head _)) (.seq hopening hbody)
      exact h

theorem parses_tagLine {indent tag rest : List Char} (h : TagSplit indent tag rest) {ts : List Token} {f : Forest}
    (hf : Parses (.opt (.rule .arguments)) ts f) :
    Parses (.rule .tag) (⟨.tagName, indent ++ tag⟩ :: ts)
      (.node { kind := .ofTag tag, indent } (.leaf .directiveName tag f) .nil) := by
  have hp := Parses.rule (r := .tag) (.head _) (.seq (.token ⟨.tagName, indent ++ tag⟩) hf)
  simpa [Rule.build, Token.leaf, label_tagName h, Forest.append, Forest.leaf] using hp

/-- An item of a single token. -/
theorem parses_lexeme {r : Rule} {x : Terminal} {kind : Kind} {isError : Bool}
    (hr : { phrase := .rule r } ∈ Rule.item.productions) (hp : ⟨.terminal x, isError⟩ ∈ r.productions)
    (hbuild : ∀ ts f, r.build isError ts f = .node { kind, isError, lexeme := ts.flatMap (·.lexeme) } .nil .nil)
    (lexeme : List Char) : Parses (.rule .item) [⟨x, lexeme⟩] (.node { kind, isError, lexeme } .nil .nil) := by
  have h := Parses.rule hp (.token ⟨x, lexeme⟩)
  rw [hbuild, List.flatMap_singleton] at h
  exact h.item hr

theorem parses_read {lineStart : Bool} {cs rest : List Char} {item : Item} (h : Item.Read lineStart cs item rest) :
    Parses (.rule .item) item.tokens (Forest.ofItem .nil item) := by
  have htext := parses_lexeme (r := .text) (by decide) (.head _) fun _ _ => rfl
  have hescaped : ∀ lexeme closed,
      Parses (.rule .item) (Item.escaped lexeme closed).tokens (Forest.ofItem .nil (.escaped lexeme closed)) := by
    intro lexeme closed
    cases closed with
    | true => exact parses_lexeme (r := .escapedInterpolation) (by decide) (.head _) (fun _ _ => rfl) lexeme
    | false => exact parses_lexeme (r := .escapedInterpolation) (by decide) (.tail _ (.head _)) (fun _ _ => rfl) lexeme
  cases h with
  | comment e he =>
    rw [Item.tokens, Forest.ofItem]
    cases e.closed with
    | true => exact parses_lexeme (r := .comment) (by decide) (.head _) (fun _ _ => rfl) _
    | false => exact parses_lexeme (r := .comment) (by decide) (.tail _ (.head _)) (fun _ _ => rfl) _
  | escaped e he hr => exact hescaped _ e.closed
  | escapedSafe body rest he => exact hescaped _ true
  | interpolation style e he hp =>
    exact (parses_interpolation style e.body e.closed).item (Rule.interpolation_mem style)
  | directive hl hsplit hr => exact (parses_tagLine hsplit .skip).item (by decide)
  | arguments hl hsplit => exact (parses_tagLine hsplit (.opt (parses_arguments _))).item (by decide)
  | text hne hun hend ht => exact htext _
  | line hun hline ht => exact htext _

theorem parses_items {xs : List Item} (h : ∀ item ∈ xs, ∃ ls suf rest, Item.Read ls suf item rest) :
    Parses .items (xs.flatMap Item.tokens) (Forest.ofItems xs) := by
  induction xs with
  | nil => exact .stop
  | cons item xs ih =>
    obtain ⟨ls, suf, rest, hr⟩ := h item (by simp)
    rw [List.flatMap_cons, Forest.ofItems, Forest.ofItem_eq_append]
    exact .more (parses_read hr) (ih fun i hi => h i (by simp [hi]))

theorem parses_text (text : List Char) :
    Parses (.rule .start) ((items true text).flatMap Item.tokens) (Forest.ofText text) :=
  .rule (r := .start) (.head _) (parses_items fun _ => items_mem_read)

end EdgeTemplate
