import EdgeTemplate.Proofs.CacheInvariant

/-!
# What is served is current

What the cache holds of a document is what was written last, and nothing has dropped the document since
(`Cache.mem_replay`). One command keeps an entry only if it neither drops nor writes its document
(`Command.mem_run`), so an entry in the end either was there from the start and was left alone, or was written
on the way and was left alone from then on. A hit looks at such an entry, at its version, its text and the time
since its one write, and at nothing else (`hit_current`).
-/

namespace EdgeTemplate

variable {τ : Type} [Clock τ]

/-! ## What a command leaves -/

theorem Command.change_of_drops {command : Command} {uri : String} (h : command.drops uri = true) (asked : τ)
    (c : Cache τ) : .drop uri ∈ command.changes asked c ∨ .clear ∈ command.changes asked c := by
  cases command with
  | invalidate other | reportClose other =>
    obtain rfl : other = uri := beq_iff_eq.1 h
    exact .inl List.mem_cons_self
  | invalidateAll | shutDown | terminate => exact .inr List.mem_cons_self
  | reconfigure maxSize ttl | reportReconfigure maxSize ttl =>
    have hn : anyNegative maxSize ttl = false := by simpa [drops] using h
    right
    rw [changes, hn]
    exact List.mem_append_right _ List.mem_cons_self
  | _ => cases h

namespace Cache

variable {c : Cache τ} {e : Entry τ}

theorem mem_apply {change : Change} (h : e ∈ (c.apply change).entries) :
    e ∈ c.entries ∧ change ≠ .drop e.key ∧ change ≠ .clear := by
  cases change with
  | drop uri =>
    obtain ⟨hm, hne⟩ := List.mem_filter.1 h
    refine ⟨hm, ?_, by simp⟩
    rintro ⟨⟩
    exact bne_iff_ne.1 hne rfl
  | clear => cases h
  | limit l value =>
    refine ⟨?_, by simp, by simp⟩
    cases l with
    | maxSize => exact (evict_sublist _).mem h
    | ttl => exact h

theorem mem_foldl {changes : List Change} (h : e ∈ (changes.foldl apply c).entries) :
    e ∈ c.entries ∧ .drop e.key ∉ changes ∧ .clear ∉ changes := by
  induction changes generalizing c with
  | nil => exact ⟨h, by simp, by simp⟩
  | cons change changes ih =>
    obtain ⟨hm, hdrop, hclear⟩ := ih h
    obtain ⟨hm, hd, hc⟩ := mem_apply hm
    exact ⟨hm, by simp [hdrop, hd.symm], by simp [hclear, hc.symm]⟩

theorem mem_insert {w : Entry τ} (h : e ∈ (c.insert w).entries) : e = w ∨ e ∈ c.entries ∧ w.key ≠ e.key := by
  rcases List.mem_append.1 ((evict_sublist _).mem h) with h | h
  · obtain ⟨hm, hne⟩ := List.mem_filter.1 h
    exact .inr ⟨hm, (bne_iff_ne.1 hne).symm⟩
  · exact .inl (List.mem_singleton.1 h)

end Cache

/-- An entry is there after a command if it was written, or was there before and was left alone. -/
theorem Command.mem_run {parser : Parser} {asked written : τ} {c : Cache τ} {command : Command} {e : Entry τ}
    (h : e ∈ (command.run parser asked written c).state.entries) :
    command.written? parser asked written c = some e ∨
      e ∈ c.entries ∧ command.drops e.key = false ∧
        ∀ w, command.written? parser asked written c = some w → w.key ≠ e.key := by
  have hkept : e ∈ ((command.changes asked c).foldl Cache.apply c).entries →
      e ∈ c.entries ∧ command.drops e.key = false := by
    intro h
    obtain ⟨hm, hdrop, hclear⟩ := Cache.mem_foldl h
    refine ⟨hm, Bool.eq_false_iff.2 fun hd => ?_⟩
    rcases change_of_drops hd asked c with hd | hd
    · exact hdrop hd
    · exact hclear hd
  rw [run_state] at h
  cases hw : command.written? parser asked written c with
  | none =>
    rw [hw] at h
    exact .inr ⟨(hkept h).1, (hkept h).2, nofun⟩
  | some w =>
    rw [hw] at h
    rcases Cache.mem_insert h with rfl | ⟨h, hne⟩
    · exact .inl rfl
    · refine .inr ⟨(hkept h).1, (hkept h).2, ?_⟩
      rintro _ ⟨⟩
      exact hne

/-! ## Along a history -/

namespace Cache

/-- The history neither writes nor drops the document. -/
structure Untouched (parser : Parser) (c : Cache τ) (uri : String) (history : List (Command × τ × τ)) : Prop where
  writes : ∀ w ∈ c.writes parser history, w.uri ≠ uri
  drops : ∀ step ∈ history, step.1.drops uri = false

/-- The history writes the entry, stamped with the reading of that write, and then leaves its document untouched. -/
def LastWrote (parser : Parser) (c : Cache τ) (history : List (Command × τ × τ)) (e : Entry τ) : Prop :=
  ∃ before command asked written after, history = before ++ (command, asked, written) :: after ∧
    command.written? parser asked written (c.replay parser before) = some e ∧ e.stamp = written ∧
    (command.run parser asked written (c.replay parser before)).state.Untouched parser e.uri after

theorem LastWrote.own {parser : Parser} {c : Cache τ} {history : List (Command × τ × τ)} {e : Entry τ}
    (h : c.LastWrote parser history e) : e.uri = e.key := by
  obtain ⟨before, command, asked, written, after, -, hw, -, -⟩ := h
  exact (Command.entry_of_written hw).1

theorem mem_replay {parser : Parser} {c : Cache τ} {history : List (Command × τ × τ)} {e : Entry τ}
    (h : e ∈ (c.replay parser history).entries) :
    e ∈ c.entries ∧ c.Untouched parser e.key history ∨ c.LastWrote parser history e := by
  induction history generalizing c with
  | nil => exact .inl ⟨h, nofun, nofun⟩
  | cons step history ih =>
    obtain ⟨command, asked, written⟩ := step
    rcases ih h with ⟨hm, hrest⟩ | ⟨before, later, a, w, after, rfl, hw, hs, hrest⟩
    · rcases Command.mem_run hm with hw | ⟨hm, hdrops, hwrites⟩
      · obtain ⟨hown, hstamp⟩ := Command.entry_of_written hw
        exact .inr ⟨[], command, asked, written, history, rfl, hw, hstamp, hown ▸ hrest⟩
      · refine .inl ⟨hm, ?_, ?_⟩
        · intro w hw
          rcases List.mem_append.1 hw with hw | hw
          · rw [(Command.entry_of_written (Option.mem_toList.1 hw)).1]
            exact hwrites w (Option.mem_toList.1 hw)
          · exact hrest.writes w hw
        · exact List.forall_mem_cons.2 ⟨hdrops, hrest.drops⟩
    · exact .inr ⟨(command, asked, written) :: before, later, a, w, after, rfl, hw, hs, hrest⟩

omit [Clock τ] in
theorem entries_create {maxSize ttl : Int} {c : Cache τ} (h : create maxSize ttl = .ok c) : c.entries = [] := by
  unfold create at h
  by_cases hm : maxSize < 0
  · rw [Limit.check_negative .maxSize hm] at h
    cases h
  · by_cases ht : ttl < 0
    · rw [Limit.check_natural .maxSize hm, Limit.check_negative .ttl ht] at h
      cases h
    · rw [Limit.check_natural .maxSize hm, Limit.check_natural .ttl ht] at h
      cases h
      rfl

/-! ## Hits -/

/-- Without a call of the parser, the answer is the tree of the entry that was found. -/
theorem getOrParse_hit {c : Cache τ} {parser : Parser} {asked written : τ} {uri : String} {version : Int}
    {text : List Char} (h : (c.getOrParse parser asked written uri version text).calls = []) :
    ∃ e, (c.lookup asked uri).value = some e ∧ e.version = version ∧ e.text = text ∧
      (c.getOrParse parser asked written uri version text).value = .ok e.tree := by
  rw [calls_getOrParse] at h
  cases hf : (c.lookup asked uri).value.filter fun e => e.version == version && e.text == text with
  | none =>
    rw [hf] at h
    cases h
  | some e =>
    obtain ⟨hv, hp⟩ := Option.filter_eq_some_iff.1 hf
    rw [Bool.and_eq_true, beq_iff_eq, beq_iff_eq] at hp
    refine ⟨e, hv, hp.1, hp.2, ?_⟩
    unfold getOrParse Effect.andThen
    dsimp only
    rw [hf]

end Cache

/-- What is served without a call of the parser was made by the last write of the document, for the same version
and text. The document has not been dropped since, and the write is younger than the time to live allows by now. -/
theorem hit_current {maxSize ttl : Int} {fresh : Cache τ} (hfresh : Cache.create maxSize ttl = .ok fresh)
    (parser : Parser) (history : List (Command × τ × τ)) {asked written : τ} {uri : String} {version : Int}
    {text : List Char}
    (hhit : ((fresh.replay parser history).getOrParse parser asked written uri version text).calls = []) :
    ∃ e, fresh.LastWrote parser history e ∧ e.uri = uri ∧ e.version = version ∧ e.text = text ∧
      ((fresh.replay parser history).getOrParse parser asked written uri version text).value = .ok e.tree ∧
      Clock.aged asked e.stamp (fresh.replay parser history).ttl = false := by
  obtain ⟨e, hlookup, hversion, htext, hvalue⟩ := Cache.getOrParse_hit hhit
  obtain ⟨hfind, hyoung⟩ := Cache.lookup_eq_some hlookup
  have hkey := List.find?_some hfind
  rcases Cache.mem_replay (List.mem_of_find?_eq_some hfind) with ⟨hm, -⟩ | hlast
  · rw [Cache.entries_create hfresh] at hm
    cases hm
  · exact ⟨e, hlast, hlast.own.trans (beq_iff_eq.1 hkey), hversion, htext, hvalue, hyoung⟩

namespace Revisit

def parser : Parser := fun text => if text = ['!'] then .error { message := "!" } else .ok ⟨text, #[]⟩

/-- A version that goes back, a text that cannot be read, a shorter time to live and a clock that is set back. -/
def history : List (Command × Micros × Micros) :=
  [(.get "a" 2 [], ⟨0⟩, ⟨1000⟩), (.analyze "a" 1 [], ⟨2000⟩, ⟨3000⟩), (.get "a" 3 ['!'], ⟨4000⟩, ⟨4000⟩),
    (.reconfigure (some (-1)) (some 7), ⟨5000⟩, ⟨5000⟩), (.get "b" 1 [], ⟨500⟩, ⟨600⟩), (.peek "a", ⟨9000⟩, ⟨9000⟩)]

end Revisit

theorem hit_current_revisit :
    ((Cache.replay Revisit.parser ⟨[], 2, 10⟩ Revisit.history).getOrParse Revisit.parser ⟨9999⟩ ⟨9999⟩ "a" 1 []).calls =
      [] ∧
    ∃ e : Entry Micros, Cache.LastWrote Revisit.parser ⟨[], 2, 10⟩ Revisit.history e ∧ e.uri = "a" ∧ e.version = 1 ∧
      e.text = [] ∧ ((Cache.replay Revisit.parser ⟨[], 2, 10⟩ Revisit.history).getOrParse Revisit.parser ⟨9999⟩ ⟨9999⟩
        "a" 1 []).value = .ok e.tree ∧
      Clock.aged ⟨9999⟩ e.stamp (Cache.replay Revisit.parser ⟨[], 2, 10⟩ Revisit.history).ttl = false := by
  have hfresh : Cache.create 2 10 = .ok (⟨[], 2, 10⟩ : Cache Micros) := rfl
  have hhit : ((Cache.replay Revisit.parser ⟨[], 2, 10⟩ Revisit.history).getOrParse Revisit.parser (Micros.mk 9999)
      ⟨9999⟩ "a" 1 []).calls = [] := rfl
  exact ⟨hhit, hit_current hfresh Revisit.parser Revisit.history hhit⟩

end EdgeTemplate
