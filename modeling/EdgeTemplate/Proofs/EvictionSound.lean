import EdgeTemplate.Proofs.Retention

/-!
# Which entries go

Of too many entries those go that come first by stamp and, where stamps agree, by write position (`Cache.rank`); the
others keep their order (`Cache.evict_entries`). While the clock is not set back these are the entries in front, so
what was written last stays (`oldest_evicted`).
-/

namespace EdgeTemplate

variable {τ : Type} [Clock τ]

/-- Of two readings one is not earlier than the other, and this is a transitive relation. -/
class Clock.Total (τ : Type) [Clock τ] : Prop where
  not_earlier_trans {a b c : τ} : Clock.earlier b a = false → Clock.earlier c b = false → Clock.earlier c a = false
  not_earlier_total (a b : τ) : Clock.earlier a b = false ∨ Clock.earlier b a = false

instance : Clock.Total Micros where
  not_earlier_trans := by
    intro a b c hab hbc
    simp only [Clock.earlier, decide_eq_false_iff_not] at *
    omega
  not_earlier_total := by
    intro a b
    simp only [Clock.earlier, decide_eq_false_iff_not]
    omega

namespace Cache

/-! ## The order in which entries go -/

/-- By stamp first, and by write position where stamps agree. -/
def goesBefore (a b : Entry τ × Nat) : Bool :=
  Clock.earlier a.1.stamp b.1.stamp || (!Clock.earlier b.1.stamp a.1.stamp && decide (a.2 < b.2))

/-- How many entries go before the one at a position. -/
def rank (entries : List (Entry τ)) (p : Entry τ × Nat) : Nat := entries.zipIdx.countP (goesBefore · p)

theorem goesBefore_of_le {a b : Entry τ × Nat}
    (h : List.zipIdxLE (fun a b : Entry τ => !Clock.earlier b.stamp a.stamp) a b = true) (hne : a.2 ≠ b.2) :
    goesBefore a b = true ∧ goesBefore b a = false := by
  have hba : Clock.earlier b.1.stamp a.1.stamp = false := by
    by_contra hba
    simp [List.zipIdxLE, hba] at h
  cases hab : Clock.earlier a.1.stamp b.1.stamp with
  | true => simp [goesBefore, hab, hba]
  | false =>
    have hle : a.2 ≤ b.2 := by simpa [List.zipIdxLE, hab, hba] using h
    have hlt : a.2 < b.2 := by omega
    simp [goesBefore, hab, hba, hlt, hle]

/-- The entries with their positions, in the order in which they go. -/
def queue (entries : List (Entry τ)) : List (Entry τ × Nat) :=
  entries.zipIdx.mergeSort (List.zipIdxLE fun a b => !Clock.earlier b.stamp a.stamp)

theorem map_queue (entries : List (Entry τ)) : (queue entries).map (·.1) = byAge entries := List.mergeSort_zipIdx

theorem queue_perm (entries : List (Entry τ)) : (queue entries).Perm entries.zipIdx := List.mergeSort_perm _ _

theorem queue_pairwise [Clock.Total τ] (entries : List (Entry τ)) :
    (queue entries).Pairwise fun a b => goesBefore a b = true ∧ goesBefore b a = false := by
  have htrans : ∀ a b c : Entry τ, (!Clock.earlier b.stamp a.stamp) = true → (!Clock.earlier c.stamp b.stamp) = true →
      (!Clock.earlier c.stamp a.stamp) = true := by
    intro a b c hab hbc
    rw [Bool.not_eq_true'] at *
    exact Clock.Total.not_earlier_trans hab hbc
  have htotal : ∀ a b : Entry τ, (!Clock.earlier b.stamp a.stamp || !Clock.earlier a.stamp b.stamp) = true := by
    intro a b
    rcases Clock.Total.not_earlier_total a.stamp b.stamp with h | h
    · simp [h]
    · simp [h]
  have hsorted := List.pairwise_mergeSort (List.zipIdxLE_trans htrans) (List.zipIdxLE_total htotal) entries.zipIdx
  have hpositions : ((queue entries).map (·.2)).Nodup := by
    rw [((queue_perm entries).map _).nodup_iff, List.zipIdx_map_snd]
    exact List.nodup_range'
  refine hsorted.imp₂ ?_ (List.pairwise_map.1 hpositions)
  intro a b hab hne
  exact goesBefore_of_le hab hne

theorem goesBefore_self [Clock.Total τ] (p : Entry τ × Nat) : goesBefore p p = false := by
  have hself : Clock.earlier p.1.stamp p.1.stamp = false := (Clock.Total.not_earlier_total _ _).elim id id
  simp [goesBefore, hself]

/-- In the queue an entry stands behind as many others as its rank says. -/
theorem rank_queue [Clock.Total τ] {entries : List (Entry τ)} {m : Nat} (hm : m < (queue entries).length) :
    rank entries (queue entries)[m] = m := by
  have hsplit : queue entries = (queue entries).take m ++ (queue entries)[m] :: (queue entries).drop (m + 1) := by
    rw [List.getElem_cons_drop, List.take_append_drop]
  have hsorted := queue_pairwise entries
  rw [hsplit, List.pairwise_append, List.pairwise_cons] at hsorted
  obtain ⟨-, ⟨hafter, -⟩, hbefore⟩ := hsorted
  have hlen : ((queue entries).take m).length = m := by
    rw [List.length_take]
    omega
  have hone : ((queue entries).take m).countP (goesBefore · (queue entries)[m]) = m := by
    rw [List.countP_eq_length.2, hlen]
    exact fun a ha => (hbefore a ha _ List.mem_cons_self).1
  have hzero : ((queue entries).drop (m + 1)).countP (goesBefore · (queue entries)[m]) = 0 := by
    rw [List.countP_eq_zero]
    intro a ha
    rw [(hafter a ha).2]
    exact Bool.false_ne_true
  have hcount := congrArg (List.countP (goesBefore · (queue entries)[m])) hsplit
  rw [List.countP_append, List.countP_cons_of_neg (by rw [goesBefore_self]; exact Bool.false_ne_true), hone,
    hzero] at hcount
  rw [rank, ← (queue_perm entries).countP_eq, hcount, Nat.add_zero]

theorem mem_take_queue [Clock.Total τ] {entries : List (Entry τ)} {p : Entry τ × Nat} (hp : p ∈ entries.zipIdx)
    (k : Nat) : p ∈ (queue entries).take k ↔ rank entries p < k := by
  obtain ⟨m, hm, rfl⟩ := List.getElem_of_mem ((queue_perm entries).mem_iff.2 hp)
  rw [rank_queue hm, List.mem_take_iff_getElem]
  constructor
  · rintro ⟨i, hi, h⟩
    have hrank := @rank_queue _ _ _ entries i (by omega)
    rw [h, rank_queue hm] at hrank
    omega
  · intro hk
    exact ⟨m, by omega, rfl⟩

/-- The entries that are too many are those of the lowest ranks, and the others keep their order. -/
theorem evict_entries [Clock.Total τ] {c : Cache τ} (h : Keyed c.entries) :
    c.evict.state.entries =
      (c.entries.zipIdx.filter fun p => decide (c.size - c.maxSize ≤ rank c.entries p)).map (·.1) := by
  have hfilter : ∀ keep : Entry τ → Bool,
      c.entries.filter keep = (c.entries.zipIdx.filter fun p => keep p.1).map (·.1) := by
    intro keep
    conv_lhs => rw [← List.zipIdx_map_fst 0 c.entries]
    exact List.filter_map
  have hkeys : (c.entries.zipIdx.map (·.1.key)).Nodup := by
    have := h.distinct
    rwa [← List.zipIdx_map_fst 0 c.entries, List.map_map] at this
  unfold evict
  dsimp only
  split
  · next h0 =>
    rw [h0]
    simp [Effect.pure]
  · show c.entries.filter _ = _
    rw [hfilter]
    refine congrArg _ (List.filter_congr fun p hp => ?_)
    -- no key occurs twice, so the key of an entry is among those that go only if the entry is
    have hmem : p.1.key ∈ ((queue c.entries).take (c.size - c.maxSize)).map (·.1.key) ↔
        p ∈ (queue c.entries).take (c.size - c.maxSize) := by
      constructor
      · intro hm
        obtain ⟨q, hq, heq⟩ := List.mem_map.1 hm
        have hqz := (queue_perm c.entries).mem_iff.1 (List.mem_of_mem_take hq)
        rwa [← List.inj_on_of_nodup_map hkeys hqz hp heq]
      · exact List.mem_map_of_mem
    have hdropped : ((byAge c.entries).take (c.size - c.maxSize)).map (·.uri) =
        ((queue c.entries).take (c.size - c.maxSize)).map (·.1.key) := by
      have hold : Keyed (byAge c.entries) := h.perm (List.mergeSort_perm _ _)
      rw [(hold.sublist (List.take_sublist _ _)).map_uri, ← map_queue, ← List.map_take, List.map_map]
      rfl
    rw [hdropped, Bool.eq_iff_iff, Bool.not_eq_true', ← Bool.not_eq_true, List.contains_iff_mem, hmem,
      mem_take_queue hp, decide_eq_true_iff, Nat.not_lt]

end Cache

/-! ## Evictions of a command -/

def Event.isEviction : Event → Bool
  | evicted _ _ => true
  | _ => false

def Effect.evicted {σ α : Type} (e : Effect σ α) : List Event := e.events.filter Event.isEviction

theorem Effect.evicted_andThen {σ α β : Type} (e : Effect σ α) (f : α → σ → Effect σ β) :
    (e.andThen f).evicted = e.evicted ++ (f e.value e.state).evicted :=
  List.filter_append _ _

namespace Cache

/-- The cache with a new size limit and the entries that it still has. -/
def resized (c : Cache τ) : Change → List (Cache τ)
  | .limit .maxSize value => [{ c with maxSize := value }]
  | _ => []

/-- The caches from which entries are evicted while changes are made. -/
def evictions : Cache τ → List Change → List (Cache τ)
  | _, [] => []
  | c, change :: changes => c.resized change ++ evictions (c.apply change) changes

theorem evictions_cons (c : Cache τ) (change : Change) (changes : List Change) :
    c.evictions (change :: changes) = c.resized change ++ (c.apply change).evictions changes := rfl

theorem evictions_append (c : Cache τ) (a b : List Change) :
    c.evictions (a ++ b) = c.evictions a ++ (a.foldl apply c).evictions b := by
  induction a generalizing c with
  | nil => rfl
  | cons change a ih => rw [List.cons_append, evictions_cons, evictions_cons, ih, List.append_assoc, List.foldl_cons]

end Cache

/-- The caches from which a command evicts entries: those with a new size limit, and the one that it has written to. -/
def Command.evictions (parser : Parser) (asked written : τ) (c : Cache τ) (command : Command) : List (Cache τ) :=
  c.evictions (command.changes asked c) ++
    (command.written? parser asked written c).toList.map ((command.changes asked c).foldl Cache.apply c).write

namespace Cache

variable (c : Cache τ)

theorem evicted_evict : c.evict.evicted = c.evict.events := by
  unfold evict
  dsimp only
  split
  · rfl
  · rfl

theorem evicted_lookup (now : τ) (uri : String) : (c.lookup now uri).evicted = [] := by
  unfold lookup
  split
  · rfl
  · split
    · rfl
    · rfl

theorem evictions_expiry (now : τ) (uri : String) : c.evictions (c.expiry now uri) = [] := by
  unfold expiry
  split
  · rfl
  · rfl

theorem evicted_classify (parser : Parser) (now : τ) (uri : String) (text : List Char) (position : Position) :
    (c.classify parser now uri text position).evicted = [] := by
  unfold classify
  rw [Effect.evicted_andThen, evicted_lookup, List.nil_append]
  split
  · rfl
  · split
    · rfl
    · rfl

theorem evicted_analyze (parser : Parser) (asked written : τ) (uri : String) (version : Int) (text : List Char) :
    (c.analyze parser asked written uri version text).evicted =
      (c.getOrParse parser asked written uri version text).evicted := by
  unfold analyze
  rw [Effect.evicted_andThen]
  split
  · exact List.append_nil _
  · exact List.append_nil _

theorem evicted_reportProblems (parser : Parser) (asked written : τ) (uri : String) (version : Int) (text : List Char) :
    (c.reportProblems parser asked written uri version text).evicted =
      (c.analyze parser asked written uri version text).evicted := by
  unfold reportProblems
  rw [Effect.evicted_andThen]
  split
  · exact List.append_nil _
  · exact List.append_nil _

omit [Clock τ] in
theorem evicted_invalidate (uri : String) : (c.invalidate uri).evicted = [] := by
  unfold invalidate
  split
  · rfl
  · rfl

omit [Clock τ] in
theorem evicted_setTtl (value : Int) : (c.setTtl value).evicted = [] := by
  unfold setTtl
  split
  · rfl
  · rfl

theorem evicted_setMaxSize (value : Int) :
    (c.setMaxSize value).evicted =
      (c.evictions (Change.ofLimit .maxSize (some value))).flatMap (·.evict.events) := by
  by_cases h : value < 0
  · rw [setMaxSize, Limit.check_negative .maxSize h, Change.ofLimit, if_pos h]
    rfl
  · rw [setMaxSize, Limit.check_natural .maxSize h, Change.ofLimit, if_neg h]
    exact (evicted_evict _).trans (List.append_nil _).symm

theorem evictions_ttl (ttl : Option Int) : c.evictions (Change.ofLimit .ttl ttl) = [] := by
  unfold Change.ofLimit
  split
  · split
    · rfl
    · rfl
  · rfl

theorem evicted_configure (maxSize ttl : Option Int) :
    (c.configure maxSize ttl).evicted = (c.evictions (Change.ofLimits maxSize ttl)).flatMap (·.evict.events) := by
  unfold Change.ofLimits
  cases ht : ttl.any (· < 0) with
  | true =>
    obtain ⟨value, rfl, hv⟩ := (Option.any_eq_true _ _).1 ht
    rw [configure_negative c (of_decide_eq_true hv)]
    rfl
  | false =>
    rw [configure_natural c ht, keptTtl_state, if_neg (by simp), evictions_append, evictions_ttl, List.nil_append]
    cases maxSize with
    | none => rfl
    | some value => exact evicted_setMaxSize _ value

theorem evicted_reconfigure (maxSize ttl : Option Int) :
    (c.reconfigure maxSize ttl).evicted = (c.evictions (Change.ofLimits maxSize ttl ++
      if anyNegative maxSize ttl then [] else [.clear])).flatMap (·.evict.events) := by
  have hclear : ∀ (d : Cache τ) (refused : Bool), d.evictions (if refused then [] else [.clear]) = [] := by
    intro d refused
    cases refused with
    | true => rfl
    | false => rfl
  rw [evictions_append, hclear, List.append_nil, ← evicted_configure]
  unfold reconfigure
  rw [Effect.evicted_andThen]
  split
  · exact List.append_nil _
  · exact List.append_nil _

end Cache

namespace Command

variable (parser : Parser) (asked written : τ) (c : Cache τ) (command : Command)

theorem evicted_document {uri : String} {version : Int} {text : List Char}
    (h : command.document? = some (uri, version, text)) :
    (command.run parser asked written c).evicted = (c.getOrParse parser asked written uri version text).evicted := by
  cases command with
  | analyze =>
    cases h
    exact c.evicted_analyze ..
  | get =>
    cases h
    rfl
  | reportProblems =>
    cases h
    exact (c.evicted_reportProblems ..).trans (c.evicted_analyze ..)
  | _ => cases h

theorem evicted_changes (h : command.document? = none) : (command.run parser asked written c).evicted =
    (c.evictions (command.changes asked c)).flatMap (·.evict.events) := by
  cases command with
  | analyze | get | reportProblems => cases h
  | classify uri | reportContext uri =>
    rw [changes, c.evictions_expiry]
    exact c.evicted_classify ..
  | peek uri =>
    rw [changes, c.evictions_expiry]
    exact c.evicted_lookup asked uri
  | invalidate uri | reportClose uri => exact c.evicted_invalidate uri
  | invalidateAll | shutDown | terminate => rfl
  | setMaxSize value => exact c.evicted_setMaxSize value
  | setTtl value =>
    rw [changes, c.evictions_ttl]
    exact c.evicted_setTtl value
  | configure maxSize ttl => exact c.evicted_configure maxSize ttl
  | reconfigure maxSize ttl => exact c.evicted_reconfigure maxSize ttl
  | reportReconfigure maxSize ttl =>
    rw [changes, ← c.evicted_reconfigure]
    refine (Effect.evicted_andThen _ _).trans ?_
    split
    · exact List.append_nil _
    · exact List.append_nil _
  | contains | reportStatus => rfl

/-- The notices of a command are those of its evictions. -/
theorem evicted_run : (command.run parser asked written c).evicted =
    (command.evictions parser asked written c).flatMap (·.evict.events) := by
  cases hd : command.document? with
  | none =>
    rw [evictions, written?, hd]
    exact (command.evicted_changes parser asked written c hd).trans (by simp)
  | some document =>
    obtain ⟨uri, version, text⟩ := document
    obtain ⟨-, hcalls, hchanges⟩ := command.run_document parser asked written c hd
    rw [Cache.calls_getOrParse] at hcalls
    rw [evicted_document parser asked written c command hd, evictions, hchanges, c.evictions_expiry, List.nil_append,
      ← Cache.lookup_state, written?, hd, Option.bind_some, hcalls]
    unfold Cache.getOrParse
    rw [Effect.evicted_andThen, c.evicted_lookup, List.nil_append]
    dsimp only
    cases (c.lookup asked uri).value.filter fun e => e.version == version && e.text == text with
    | some e => rfl
    | none =>
      cases parser text with
      | error e => rfl
      | ok tree =>
        show List.filter Event.isEviction ([.miss uri version, .parsed text] ++ _) = _ ++ []
        rw [List.filter_append, List.append_nil]
        exact Cache.evicted_evict _

end Command

/-! ## While the clock is not set back -/

theorem Cache.Timely.inOrder_of_mem {later : List τ} {c d : Cache τ} (h : c.Timely later) {changes : List Change}
    (hd : d ∈ c.evictions changes) : Cache.InOrder d.entries := by
  induction changes generalizing c with
  | nil => cases hd
  | cons change changes ih =>
    rw [evictions_cons, List.mem_append] at hd
    rcases hd with hd | hd
    · cases change with
      | limit l value =>
        cases l with
        | maxSize =>
          rw [List.mem_singleton.1 hd]
          exact h.inOrder
        | ttl => cases hd
      | drop => cases hd
      | clear => cases hd
    · exact ih (h.apply change) hd

theorem Command.inOrder_of_mem {parser : Parser} {asked written : τ} {c d : Cache τ} {command : Command}
    (h : c.Timely [written]) (hd : d ∈ command.evictions parser asked written c) : Cache.InOrder d.entries := by
  rw [evictions, List.mem_append, List.mem_map] at hd
  rcases hd with hd | ⟨e, he, rfl⟩
  · exact h.inOrder_of_mem hd
  · exact (h.write_written (Option.mem_toList.1 he)).inOrder

/-- Of too many entries those go that are oldest, by write position where stamps agree, and the others keep their
order. Along a history in which the clock is not set back, the entries stand in the order of their stamps, every
eviction cuts them off from the front, and what has just been written stays if there is room for one entry. -/
theorem oldest_evicted [Clock.Total τ] :
    (∀ c : Cache τ, Cache.Keyed c.entries →
      (∀ l, c.evict.state.limit l = c.limit l) ∧ c.evict.state.size = min c.size c.maxSize ∧
      c.evict.state.entries =
        (c.entries.zipIdx.filter fun p => decide (c.size - c.maxSize ≤ Cache.rank c.entries p)).map (·.1)) ∧
    ∀ (parser : Parser) (maxSize ttl : Nat) (before : List (Command × τ × τ)) (command : Command) (asked written : τ),
      (readings (before ++ [(command, asked, written)])).Pairwise (fun a b => Clock.earlier b a = false) →
      let c := Cache.replay parser ⟨[], maxSize, ttl⟩ before
      let after := (command.run parser asked written c).state
      after.entries.Pairwise (fun a b => Clock.earlier b.stamp a.stamp = false) ∧
      (command.run parser asked written c).events.filter Event.isEviction =
        (command.evictions parser asked written c).flatMap (·.evict.events) ∧
      (∀ d ∈ command.evictions parser asked written c,
        d.evict.state = { d with entries := d.entries.drop (d.size - d.maxSize) }) ∧
      ∀ e, command.written? parser asked written c = some e → 1 ≤ after.maxSize → after.find? e.uri = some e := by
  refine ⟨fun c h => ⟨c.limit_evict, Cache.size_evict h, Cache.evict_entries h⟩, ?_⟩
  intro parser maxSize ttl before command asked written hclock c after
  have hreadings : readings (before ++ [(command, asked, written)]) = readings before ++ [asked, written] := by
    simp [readings]
  rw [hreadings] at hclock
  have hfresh : Cache.Timely (readings before ++ [asked, written]) (⟨[], maxSize, ttl⟩ : Cache τ) :=
    .of_lags (.fresh maxSize ttl)
  have hc : c.Timely [asked, written] := hfresh.replay parser hclock
  have hwritten : c.Timely [written] := hc.mono fun now hn => List.mem_cons_of_mem _ hn
  have hafter : after.Timely [] := hc.run (fun _ hn => absurd hn List.not_mem_nil) parser command
  refine ⟨hafter.inOrder.stamps, command.evicted_run parser asked written c, ?_, ?_⟩
  · intro d hd
    exact Cache.evict_state (Command.inOrder_of_mem hwritten hd)
  · intro e he hroom
    have hholds : after.Holds [] e := Cache.holds_written hwritten he hroom
    rw [(Command.entry_of_written he).1]
    exact (Cache.find_iff hafter.inOrder.toKeyed e.key e).2 ⟨hholds.mem, rfl⟩

/-- Entries that were stamped by a clock that was set back, and two writes with one stamp where there is room for
one entry. -/
theorem oldest_evicted_unordered :
    let entry (uri : String) (stamp : Int) : Entry Micros := ⟨uri, uri, 1, [], .parse [], ⟨stamp⟩⟩
    let c : Cache Micros := ⟨[entry "a" 2, entry "b" 1, entry "c" 3, entry "d" 1, entry "e" 2], 2, 10⟩
    let parser : Parser := .ok ∘ SyntaxTree.parse
    let before : List (Command × Micros × Micros) := [(.get "a" 1 [], ⟨0⟩, ⟨1⟩)]
    let d := Cache.replay parser ⟨[], 1, 10⟩ before
    c.evict.state.entries.map (·.uri) = ["c", "e"] ∧
      ((Command.get "b" 1 []).run parser ⟨1⟩ ⟨1⟩ d).state.find? "b" = some (entry "b" 1) := by
  intro entry c parser before d
  obtain ⟨hevict, hrun⟩ := oldest_evicted (τ := Micros)
  obtain ⟨-, -, hentries⟩ := hevict c ⟨by simp [c, entry], by decide⟩
  obtain ⟨-, -, -, hstays⟩ := hrun parser 1 10 before (.get "b" 1 []) ⟨1⟩ ⟨1⟩ (by decide)
  refine ⟨?_, hstays (entry "b" 1) rfl ?_⟩
  · rw [hentries]
    decide +kernel
  · exact Nat.le_of_eq (Cache.limit_evict (Cache.write d (entry "b" 1)) .maxSize).symm

end EdgeTemplate
