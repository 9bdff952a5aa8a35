import EdgeTemplate.Session

/-!
# The cache does not show

Whatever commands a cache has seen, and whatever its clock said, an answer about a document depends
on the text alone (`history_transparent`). The reason is one invariant: the tree of every entry is what
the parser makes of the entry's text (`Cache.Sound`). Every operation but one only drops entries
(`Cache.Within`), and that one writes what it has just parsed.
-/

namespace EdgeTemplate

variable {τ : Type}

namespace Cache

def Sound (parser : Parser) (c : Cache τ) : Prop := ∀ e ∈ c.entries, parser e.text = .ok e.tree

/-- Nothing has been written. -/
def Within (c c' : Cache τ) : Prop := ∀ e ∈ c'.entries, e ∈ c.entries

theorem Within.refl (c : Cache τ) : c.Within c := fun _ he => he

theorem Within.trans {c c' c'' : Cache τ} (h : c.Within c') (h' : c'.Within c'') : c.Within c'' :=
  fun e he => h e (h' e he)

theorem Sound.within {parser : Parser} {c c' : Cache τ} (h : c.Sound parser) (hw : c.Within c') : c'.Sound parser :=
  fun e he => h e (hw e he)

theorem Within.andThen {α β : Type} {c : Cache τ} {e : Effect (Cache τ) α} {f : α → Cache τ → Effect (Cache τ) β}
    (h : c.Within e.state) (hf : ∀ a (c' : Cache τ), c'.Within (f a c').state) : c.Within (e.andThen f).state :=
  h.trans (hf e.value e.state)

theorem Sound.andThen {parser : Parser} {α β : Type} {e : Effect (Cache τ) α} {f : α → Cache τ → Effect (Cache τ) β}
    (h : e.state.Sound parser) (hf : ∀ a (c : Cache τ), c.Sound parser → (f a c).state.Sound parser) :
    (e.andThen f).state.Sound parser :=
  hf e.value e.state h

theorem within_erase (c : Cache τ) (uri : String) : c.Within (c.erase uri) :=
  fun _ he => (List.mem_filter.1 he).1

theorem within_invalidate (c : Cache τ) (uri : String) : c.Within (c.invalidate uri).state := by
  unfold invalidate
  split
  · exact within_erase c uri
  · exact .refl c

theorem within_invalidateAll (c : Cache τ) : c.Within c.invalidateAll.state :=
  fun _ he => absurd he List.not_mem_nil

theorem within_setTtl (c : Cache τ) (value : Int) : c.Within (c.setTtl value).state := by
  unfold setTtl
  split
  · exact .refl c
  · exact fun _ he => he

theorem Sound.write {parser : Parser} {c : Cache τ} (h : c.Sound parser) {e : Entry τ}
    (he : parser e.text = .ok e.tree) : (c.write e).Sound parser := by
  intro e' he'
  rcases List.mem_append.1 he' with he' | he'
  · exact h e' (within_erase c e.key e' he')
  · rw [List.mem_singleton.1 he']
    exact he

section

variable [Clock τ]

theorem within_evict (c : Cache τ) : c.Within c.evict.state := by
  unfold evict
  dsimp only
  split
  · exact .refl c
  · exact fun _ he => (List.mem_filter.1 he).1

theorem within_lookup (c : Cache τ) (now : τ) (uri : String) : c.Within (c.lookup now uri).state := by
  unfold lookup
  split
  · exact .refl c
  · split
    · exact within_erase c uri
    · exact .refl c

theorem within_setMaxSize (c : Cache τ) (value : Int) : c.Within (c.setMaxSize value).state := by
  unfold setMaxSize
  split
  · exact .refl c
  · next maxSize _ => exact within_evict { c with maxSize }

theorem within_configure (c : Cache τ) (maxSize ttl : Option Int) : c.Within (c.configure maxSize ttl).state := by
  apply Within.andThen
  · cases ttl with
    | none => exact .refl c
    | some value => exact within_setTtl c value
  · intro result c'
    split
    · exact within_setMaxSize c' _
    · exact .refl c'

theorem within_reconfigure (c : Cache τ) (maxSize ttl : Option Int) :
    c.Within (c.reconfigure maxSize ttl).state := by
  apply Within.andThen (within_configure c maxSize ttl)
  intro result c'
  cases result with
  | ok _ => exact within_invalidateAll c'
  | error e => exact .refl c'

theorem within_classify (c : Cache τ) (parser : Parser) (now : τ) (uri : String) (text : List Char)
    (position : Position) : c.Within (c.classify parser now uri text position).state := by
  apply Within.andThen (within_lookup c now uri)
  intro found c'
  split
  · exact .refl c'
  · split
    · exact .refl c'
    · exact .refl c'

/-- The only operation that writes. -/
theorem Sound.getOrParse {parser : Parser} {c : Cache τ} (h : c.Sound parser) (asked written : τ) (uri : String)
    (version : Int) (text : List Char) : (c.getOrParse parser asked written uri version text).state.Sound parser := by
  apply Sound.andThen (h.within (within_lookup c asked uri))
  intro found c' hc
  split
  · exact hc
  · split
    · exact hc
    · next tree ht => exact (hc.write (e := ⟨uri, uri, version, text, tree, written⟩) ht).within (within_evict _)

theorem Sound.analyze {parser : Parser} {c : Cache τ} (h : c.Sound parser) (asked written : τ) (uri : String)
    (version : Int) (text : List Char) : (c.analyze parser asked written uri version text).state.Sound parser := by
  apply Sound.andThen (h.getOrParse asked written uri version text)
  intro result c' hc
  cases result with
  | ok tree => exact hc
  | error e => exact hc

theorem Sound.reportProblems {parser : Parser} {c : Cache τ} (h : c.Sound parser) (asked written : τ) (uri : String)
    (version : Int) (text : List Char) :
    (c.reportProblems parser asked written uri version text).state.Sound parser := by
  apply Sound.andThen (h.analyze asked written uri version text)
  intro result c' hc
  cases result with
  | ok diagnostics => exact hc
  | error e => exact hc

end

end Cache

/-! ## Histories -/

section

variable [Clock τ]

theorem Command.run_sound {parser : Parser} {c : Cache τ} (h : c.Sound parser) (asked written : τ)
    (command : Command) : (command.run parser asked written c).state.Sound parser := by
  cases command with
  | analyze uri version text => exact h.analyze asked written uri version text
  | classify uri text position => exact h.within (c.within_classify parser asked uri text position)
  | invalidate uri => exact h.within (c.within_invalidate uri)
  | invalidateAll => exact h.within c.within_invalidateAll
  | reconfigure maxSize ttl => exact h.within (c.within_reconfigure maxSize ttl)
  | get uri version text => exact h.getOrParse asked written uri version text
  | peek uri => exact h.within (c.within_lookup asked uri)
  | contains uri => exact h
  | setMaxSize value => exact h.within (c.within_setMaxSize value)
  | setTtl value => exact h.within (c.within_setTtl value)
  | configure maxSize ttl => exact h.within (c.within_configure maxSize ttl)
  | reportProblems uri version text => exact h.reportProblems asked written uri version text
  | reportContext uri text position => exact h.within (c.within_classify parser asked uri text position)
  | reportClose uri => exact h.within (c.within_invalidate uri)
  | reportReconfigure maxSize ttl =>
    apply Cache.Sound.andThen (h.within (c.within_reconfigure maxSize ttl))
    intro result c' hc
    cases result with
    | ok _ => exact hc
    | error e => exact hc
  | reportStatus => exact h
  | shutDown => exact h.within c.within_invalidateAll
  | terminate => exact h.within c.within_invalidateAll

/-- The cache after a history of commands, each with the two readings of the clock that it may take. -/
def Cache.replay (parser : Parser) (c : Cache τ) (history : List (Command × τ × τ)) : Cache τ :=
  history.foldl (fun c step => (step.1.run parser step.2.1 step.2.2 c).state) c

theorem Cache.Sound.replay {parser : Parser} {c : Cache τ} (h : c.Sound parser) (history : List (Command × τ × τ)) :
    (c.replay parser history).Sound parser := by
  induction history generalizing c with
  | nil => exact h
  | cons step history ih => exact ih (step.1.run_sound h step.2.1 step.2.2)

end

/-! ## Calls of the parser -/

def Effect.calls {σ α : Type} (e : Effect σ α) : List Event := e.events.filter Event.isParse

theorem Effect.calls_andThen {σ α β : Type} (e : Effect σ α) (f : α → σ → Effect σ β) :
    (e.andThen f).calls = e.calls ++ (f e.value e.state).calls :=
  List.filter_append _ _

namespace Cache

variable [Clock τ]

theorem calls_lookup (c : Cache τ) (now : τ) (uri : String) : (c.lookup now uri).calls = [] := by
  unfold lookup
  split
  · rfl
  · split
    · rfl
    · rfl

theorem calls_evict (c : Cache τ) : c.evict.calls = [] := by
  unfold evict
  dsimp only
  split
  · rfl
  · rfl

theorem calls_getOrParse (c : Cache τ) (parser : Parser) (asked written : τ) (uri : String) (version : Int)
    (text : List Char) :
    (c.getOrParse parser asked written uri version text).calls =
      match (c.lookup asked uri).value.filter fun e => e.version == version && e.text == text with
      | some _ => []
      | none => [.parsed text] := by
  unfold getOrParse
  rw [Effect.calls_andThen, calls_lookup, List.nil_append]
  generalize (c.lookup asked uri).value.filter _ = found
  cases found with
  | some e => rfl
  | none =>
    cases parser text with
    | error e => rfl
    | ok tree =>
      have hevict : List.filter _ _ = [] :=
        calls_evict ((c.lookup asked uri).state.write ⟨uri, uri, version, text, tree, written⟩)
      show List.filter Event.isParse ([.miss uri version, .parsed text] ++ _) = _
      rw [List.filter_append, hevict]
      rfl

theorem calls_classify (c : Cache τ) (parser : Parser) (now : τ) (uri : String) (text : List Char)
    (position : Position) :
    (c.classify parser now uri text position).calls =
      match (c.lookup now uri).value.filter (·.text == text) with
      | some _ => []
      | none => [.parsed text] := by
  unfold classify
  rw [Effect.calls_andThen, calls_lookup, List.nil_append]
  generalize (c.lookup now uri).value.filter _ = found
  cases found with
  | some e => rfl
  | none =>
    cases parser text with
    | error e => rfl
    | ok tree => rfl

theorem calls_analyze (c : Cache τ) (parser : Parser) (asked written : τ) (uri : String) (version : Int)
    (text : List Char) :
    (c.analyze parser asked written uri version text).calls =
      (c.getOrParse parser asked written uri version text).calls := by
  unfold analyze
  rw [Effect.calls_andThen]
  split
  · exact List.append_nil _
  · exact List.append_nil _

theorem calls_reportProblems (c : Cache τ) (parser : Parser) (asked written : τ) (uri : String) (version : Int)
    (text : List Char) :
    (c.reportProblems parser asked written uri version text).calls =
      (c.analyze parser asked written uri version text).calls := by
  unfold reportProblems
  rw [Effect.calls_andThen]
  split
  · exact List.append_nil _
  · exact List.append_nil _

/-! ## Answers -/

theorem lookup_eq_some {c : Cache τ} {now : τ} {uri : String} {e : Entry τ} (h : (c.lookup now uri).value = some e) :
    c.find? uri = some e ∧ Clock.aged now e.stamp c.ttl = false := by
  unfold lookup at h
  cases hf : c.find? uri with
  | none =>
    rw [hf] at h
    cases h
  | some e' =>
    rw [hf] at h
    dsimp only at h
    by_cases ha : Clock.aged now e'.stamp c.ttl = true
    · rw [if_pos ha] at h
      cases h
    · rw [if_neg ha] at h
      cases h
      exact ⟨rfl, Bool.eq_false_iff.2 ha⟩

theorem mem_of_lookup {c : Cache τ} {now : τ} {uri : String} {e : Entry τ} (h : (c.lookup now uri).value = some e) :
    e ∈ c.entries :=
  List.mem_of_find?_eq_some (lookup_eq_some h).1

theorem Sound.getOrParse_value {parser : Parser} {c : Cache τ} (h : c.Sound parser) (asked written : τ) (uri : String)
    (version : Int) (text : List Char) :
    (c.getOrParse parser asked written uri version text).value = parser text := by
  unfold Cache.getOrParse Effect.andThen
  dsimp only
  split
  · next e he =>
    obtain ⟨hv, hp⟩ := Option.filter_eq_some_iff.1 he
    rw [Bool.and_eq_true, beq_iff_eq, beq_iff_eq] at hp
    rw [← hp.2]
    exact (h e (mem_of_lookup hv)).symm
  · cases parser text with
    | error e => rfl
    | ok tree => rfl

theorem Sound.classify_value {parser : Parser} {c : Cache τ} (h : c.Sound parser) (now : τ) (uri : String)
    (text : List Char) (position : Position) :
    (c.classify parser now uri text position).value =
      EdgeTemplate.classify (parser text).toOption text position := by
  unfold Cache.classify Effect.andThen
  dsimp only
  split
  · next e he =>
    obtain ⟨hv, hp⟩ := Option.filter_eq_some_iff.1 he
    have ht := h e (mem_of_lookup hv)
    rw [beq_iff_eq.1 hp] at ht
    rw [ht]
    rfl
  · cases parser text with
    | error e => rfl
    | ok tree => rfl

theorem Sound.analyze_value {parser : Parser} {c : Cache τ} (h : c.Sound parser) (asked written : τ) (uri : String)
    (version : Int) (text : List Char) :
    (c.analyze parser asked written uri version text).value = (parser text).map SyntaxTree.diagnostics := by
  unfold Cache.analyze Effect.andThen
  dsimp only
  rw [h.getOrParse_value]
  cases parser text with
  | error e => rfl
  | ok tree => rfl

end Cache

/-- What can be asked about a document, in values or as a report. -/
inductive Question where
  | analyze (uri : String) (version : Int) (text : List Char)
  | get (uri : String) (version : Int) (text : List Char)
  | classify (uri : String) (text : List Char) (position : Position)
  | problems (uri : String) (version : Int) (text : List Char)
  | context (uri : String) (text : List Char) (position : Position)

namespace Question

def command : Question → Command
  | analyze uri version text => .analyze uri version text
  | get uri version text => .get uri version text
  | classify uri text position => .classify uri text position
  | problems uri version text => .reportProblems uri version text
  | context uri text position => .reportContext uri text position

def text : Question → List Char
  | analyze _ _ text | get _ _ text | classify _ text _ | problems _ _ text | context _ text _ => text

/-- The answer that follows from parsing the text anew. -/
def answer (parser : Parser) : Question → Reply τ
  | analyze _ _ text => .ofParse .diagnostics ((parser text).map SyntaxTree.diagnostics)
  | get _ _ text => .ofParse .tree (parser text)
  | classify _ text position => .classification (EdgeTemplate.classify (parser text).toOption text position)
  | problems uri _ text =>
    match parser text with
    | .ok tree => .report (Report.problems uri tree.diagnostics)
    | .error e => .report (Report.problems uri [e.diagnostic])
  | context _ text position =>
    .report (Report.context (EdgeTemplate.classify (parser text).toOption text position))

variable [Clock τ] {parser : Parser} {c : Cache τ}

theorem run_value (h : c.Sound parser) (asked written : τ) (q : Question) :
    (q.command.run parser asked written c).value = q.answer parser := by
  cases q with
  | analyze uri version text =>
    show Reply.ofParse .diagnostics (c.analyze parser asked written uri version text).value = _
    rw [h.analyze_value]
    rfl
  | get uri version text =>
    show Reply.ofParse .tree (c.getOrParse parser asked written uri version text).value = _
    rw [h.getOrParse_value]
    rfl
  | classify uri text position =>
    show Reply.classification (c.classify parser asked uri text position).value = _
    rw [h.classify_value]
    rfl
  | problems uri version text =>
    show Reply.report (c.reportProblems parser asked written uri version text).value = _
    unfold Cache.reportProblems Effect.andThen answer
    dsimp only
    rw [h.analyze_value]
    cases parser text with
    | error e => rfl
    | ok tree => rfl
  | context uri text position =>
    show Reply.report (Report.context (c.classify parser asked uri text position).value) = _
    rw [h.classify_value]
    rfl

theorem run_calls (asked written : τ) (q : Question) :
    (q.command.run parser asked written c).calls = [] ∧ c.entries ≠ [] ∨
      (q.command.run parser asked written c).calls = [.parsed q.text] := by
  have hserved : ∀ (uri : String) (p : Entry τ → Bool) (calls : List Event) (text : List Char),
      (calls = match (c.lookup asked uri).value.filter p with | some _ => [] | none => [.parsed text]) →
      calls = [] ∧ c.entries ≠ [] ∨ calls = [.parsed text] := by
    intro uri p calls text hcalls
    cases hf : (c.lookup asked uri).value.filter p with
    | none =>
      rw [hf] at hcalls
      exact .inr hcalls
    | some e =>
      rw [hf] at hcalls
      have hmem := Cache.mem_of_lookup (Option.filter_eq_some_iff.1 hf).1
      exact .inl ⟨hcalls, List.ne_nil_of_mem hmem⟩
  cases q with
  | analyze uri version text =>
    have hcalls := c.calls_analyze parser asked written uri version text
    rw [c.calls_getOrParse] at hcalls
    exact hserved uri _ _ text hcalls
  | get uri version text => exact hserved uri _ _ text (c.calls_getOrParse parser asked written uri version text)
  | classify uri text position => exact hserved uri _ _ text (c.calls_classify parser asked uri text position)
  | problems uri version text =>
    have hcalls := c.calls_reportProblems parser asked written uri version text
    rw [c.calls_analyze, c.calls_getOrParse] at hcalls
    exact hserved uri _ _ text hcalls
  | context uri text position => exact hserved uri _ _ text (c.calls_classify parser asked uri text position)

end Question

/-- A question is answered as if the text were parsed anew, whatever came before it; the history shows
only in whether the parser is called. -/
theorem history_transparent [Clock τ] (parser : Parser) (maxSize ttl : Nat) :
    ∃ fresh : Cache τ, Cache.create maxSize ttl = .ok fresh ∧ ∀ (asked written : τ) (q : Question),
      (q.command.run parser asked written fresh).value = q.answer parser ∧
      (q.command.run parser asked written fresh).calls = [.parsed q.text] ∧
      ∀ history : List (Command × τ × τ),
        (q.command.run parser asked written (fresh.replay parser history)).value = q.answer parser ∧
        ((q.command.run parser asked written (fresh.replay parser history)).calls = [] ∨
          (q.command.run parser asked written (fresh.replay parser history)).calls = [.parsed q.text]) := by
  have hcheck : ∀ (limit : Limit) (n : Nat), limit.check n = .ok n := by
    intro limit n
    rw [Limit.check, if_neg (by omega), Int.toNat_natCast]
  have hsound : Cache.Sound parser (⟨[], maxSize, ttl⟩ : Cache τ) := fun e he => absurd he List.not_mem_nil
  refine ⟨⟨[], maxSize, ttl⟩, ?_, ?_⟩
  · rw [Cache.create, hcheck, hcheck]
    rfl
  · intro asked written q
    refine ⟨q.run_value hsound asked written, ?_, ?_⟩
    · rcases q.run_calls (c := ⟨[], maxSize, ttl⟩) asked written with ⟨-, hne⟩ | hcalls
      · exact absurd rfl hne
      · exact hcalls
    · intro history
      refine ⟨q.run_value (hsound.replay history) asked written, ?_⟩
      exact (q.run_calls asked written).imp_left And.left

end EdgeTemplate
