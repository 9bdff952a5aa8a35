import EdgeTemplate.Proofs.CacheInvariant

/-!
# Questions write nothing

A question about a cursor reads the cache, and a document that cannot be parsed is not cached. To the cache each of
these is a look at the entry of its document, which drops the entry if it is too old and leaves all else as it is
(`queries_only_peek`).
-/

namespace EdgeTemplate

variable {τ : Type} [Clock τ]

/-! ## Looking at an entry -/

namespace Cache

theorem lookup_state_eq (c : Cache τ) (now : τ) (uri : String) : (c.lookup now uri).state =
    if (c.find? uri).any fun e => Clock.aged now e.stamp c.ttl then c.erase uri else c := by
  rw [lookup_state, expiry]
  split
  · rfl
  · rfl

omit [Clock τ] in
theorem find_erase (c : Cache τ) (uri : String) : (c.erase uri).find? uri = none := by
  rw [find?, List.find?_eq_none]
  intro e he
  have hne := (List.mem_filter.1 he).2
  simpa using hne

theorem lookup_limit (c : Cache τ) (now : τ) (uri : String) (l : Limit) :
    (c.lookup now uri).state.limit l = c.limit l := by
  rw [lookup_state_eq]
  split
  · cases l <;> rfl
  · rfl

theorem lookup_others (c : Cache τ) (now : τ) (uri : String) :
    (c.lookup now uri).state.entries.filter (·.key != uri) = c.entries.filter (·.key != uri) := by
  rw [lookup_state_eq]
  split
  · rw [erase, List.filter_filter]
    simp
  · rfl

theorem lookup_own (c : Cache τ) (now : τ) (uri : String) :
    (c.lookup now uri).state.find? uri = (c.find? uri).filter fun e => !Clock.aged now e.stamp c.ttl := by
  rw [lookup_state_eq]
  cases hf : c.find? uri with
  | none => exact hf
  | some e =>
    rw [Option.any_some]
    by_cases ha : Clock.aged now e.stamp c.ttl = true
    · rw [if_pos ha, find_erase, Option.filter_some, ha]
      rfl
    · rw [if_neg ha, hf, Option.filter_some, Bool.eq_false_iff.2 ha]
      rfl

end Cache

/-! ## Questions -/

namespace Command

/-- The document that a command only asks about: what stands at a cursor, or what is in a text that the
parser refuses. -/
def query? (parser : Parser) : Command → Option String
  | classify uri _ _ | reportContext uri _ _ => some uri
  | analyze uri _ text | get uri _ text | reportProblems uri _ text => if (parser text).isOk then none else some uri
  | _ => none

def peeked (parser : Parser) (command : Command) : Command := (command.query? parser).elim command peek

end Command

theorem Cache.getOrParse_refused {parser : Parser} {text : List Char} (h : ¬(parser text).isOk = true) (c : Cache τ)
    (asked written : τ) (uri : String) (version : Int) :
    (c.getOrParse parser asked written uri version text).state = (c.lookup asked uri).state := by
  apply Effect.state_andThen
  intro found c'
  split
  · rfl
  · cases hp : parser text with
    | error e => rfl
    | ok tree =>
      rw [hp] at h
      exact absurd rfl h

theorem Command.run_query {parser : Parser} {command : Command} {uri : String} (h : command.query? parser = some uri)
    (asked written : τ) (c : Cache τ) :
    (command.run parser asked written c).state = (c.lookup asked uri).state := by
  cases command with
  | classify | reportContext =>
    cases h
    exact c.classify_state ..
  | analyze =>
    obtain ⟨hp, ⟨⟩⟩ := Option.ite_none_left_eq_some.1 h
    exact (c.analyze_state ..).trans (c.getOrParse_refused hp ..)
  | get =>
    obtain ⟨hp, ⟨⟩⟩ := Option.ite_none_left_eq_some.1 h
    exact c.getOrParse_refused hp ..
  | reportProblems =>
    obtain ⟨hp, ⟨⟩⟩ := Option.ite_none_left_eq_some.1 h
    exact (c.reportProblems_state ..).trans ((c.analyze_state ..).trans (c.getOrParse_refused hp ..))
  | _ => cases h

theorem Command.run_peeked (parser : Parser) (command : Command) (asked written : τ) (c : Cache τ) :
    ((command.peeked parser).run parser asked written c).state = (command.run parser asked written c).state := by
  rw [peeked]
  cases h : command.query? parser with
  | none => rfl
  | some uri => exact (run_query h asked written c).symm

theorem Cache.replay_peeked (parser : Parser) (history : List (Command × τ × τ)) (c : Cache τ) :
    c.replay parser (history.map fun step => (step.1.peeked parser, step.2)) = c.replay parser history := by
  induction history generalizing c with
  | nil => rfl
  | cons step history ih =>
    show Cache.replay parser ((step.1.peeked parser).run parser step.2.1 step.2.2 c).state _ =
      Cache.replay parser (step.1.run parser step.2.1 step.2.2 c).state history
    rw [Command.run_peeked]
    exact ih _

/-- A command that only asks about a document leaves the cache as a look at the entry of that document does: the
limits and all other entries stay, and its own entry stays if it is not too old and goes otherwise. In a history,
all such commands may be taken for looks. -/
theorem queries_only_peek (parser : Parser) (c : Cache τ) :
    (∀ (asked written : τ) (command : Command) (uri : String), command.query? parser = some uri →
      let after := (command.run parser asked written c).state
      after = ((Command.peek uri).run parser asked written c).state ∧
      after.maxSize = c.maxSize ∧ after.ttl = c.ttl ∧
      after.entries.filter (·.key != uri) = c.entries.filter (·.key != uri) ∧
      after.find? uri = (c.find? uri).filter (fun e => !Clock.aged asked e.stamp c.ttl) ∧
      (∀ e, c.find? uri = some e → Clock.aged asked e.stamp c.ttl = false → after = c)) ∧
    ∀ history, c.replay parser (history.map fun step => (step.1.peeked parser, step.2)) = c.replay parser history := by
  refine ⟨?_, fun history => c.replay_peeked parser history⟩
  intro asked written command uri h after
  have hafter : after = (c.lookup asked uri).state := Command.run_query h asked written c
  rw [hafter]
  refine ⟨rfl, c.lookup_limit asked uri .maxSize, c.lookup_limit asked uri .ttl, c.lookup_others asked uri,
    c.lookup_own asked uri, ?_⟩
  intro e he hyoung
  rw [Cache.lookup_state_eq, he, Option.any_some, hyoung]
  rfl

/-- A new version that is refused leaves the live entry of the old one; a question about a cursor drops an entry
that is too old. -/
theorem queries_only_peek_refused :
    let parser : Parser := fun text => if text = ['!'] then .error ⟨"unexpected", none, none⟩ else .ok (.parse text)
    let old : Entry Micros := ⟨"b", "b", 1, [], .parse [], ⟨0⟩⟩
    let live : Entry Micros := ⟨"a", "a", 1, [], .parse [], ⟨6000⟩⟩
    let c : Cache Micros := ⟨[old, live], 2, 10⟩
    let refused := Command.analyze "a" 2 ['!']
    let question := Command.classify "b" [] ⟨0, 0⟩
    refused.query? parser = some "a" ∧ (refused.run parser ⟨15000⟩ ⟨15000⟩ c).state = c ∧
      question.query? parser = some "b" ∧ (question.run parser ⟨15000⟩ ⟨15000⟩ c).state.find? "b" = none ∧
      (question.run parser ⟨15000⟩ ⟨15000⟩ c).state.entries.filter (·.key != "b") = [live] := by
  intro parser old live c refused question
  obtain ⟨hall, -⟩ := queries_only_peek parser c
  obtain ⟨-, -, -, -, -, hkept⟩ := hall ⟨15000⟩ ⟨15000⟩ refused "a" rfl
  obtain ⟨-, -, -, hothers, hown, -⟩ := hall ⟨15000⟩ ⟨15000⟩ question "b" rfl
  have hlive : Clock.aged (⟨15000⟩ : Micros) live.stamp c.ttl = false := by decide
  have hold : (c.find? "b").filter (fun e => !Clock.aged (⟨15000⟩ : Micros) e.stamp c.ttl) = none := by decide +kernel
  exact ⟨rfl, hkept live rfl hlive, rfl, hown.trans hold, hothers⟩

end EdgeTemplate
