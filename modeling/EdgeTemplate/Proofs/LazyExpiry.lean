import EdgeTemplate.Proofs.CacheTransparent

/-!
# Expired entries do not show

An expired entry stays in the cache until it is asked for or is too many, and takes a place meanwhile.
Nobody can tell, as long as the clock is not set back: a cache that drops every expired entry before
each command gives the same answers and calls the parser for the same texts (`lazy_expiry`). In that one there is
nothing to expire when an entry is asked for: what is found is served (`Cache.lookup_purge`). The reason is
that the expired entries are the oldest (`Cache.Lags`), so they are the first that must go.
-/

namespace EdgeTemplate

variable {τ : Type}

/-- What has aged stays aged, and so has all that was stamped before it. -/
class Clock.Ageing (τ : Type) [Clock τ] : Prop where
  aged_later {now later stamp : τ} {ttl : Nat} : Clock.earlier later now = false →
    Clock.aged now stamp ttl = true → Clock.aged later stamp ttl = true
  aged_older {now older stamp : τ} {ttl : Nat} : Clock.earlier stamp older = false →
    Clock.aged now stamp ttl = true → Clock.aged now older ttl = true

theorem Clock.young_before [Clock τ] [Clock.Ageing τ] {now later stamp : τ} {ttl : Nat}
    (hle : Clock.earlier later now = false) (h : Clock.aged later stamp ttl = false) :
    Clock.aged now stamp ttl = false := by
  refine Bool.eq_false_iff.2 fun haged => ?_
  rw [Clock.Ageing.aged_later hle haged] at h
  cases h

/-- An exact reading. -/
structure Micros where
  count : Int

instance : Clock Micros where
  earlier a b := a.count < b.count
  aged now stamp ttl := ttl * 1000 ≤ now.count - stamp.count
  ageText now stamp := toString (roundDiv (now.count - stamp.count).toNat 1000)

instance : Clock.Ageing Micros where
  aged_later := by
    intro now later stamp ttl hle haged
    simp only [Clock.earlier, Clock.aged, decide_eq_true_eq, decide_eq_false_iff_not] at *
    omega
  aged_older := by
    intro now older stamp ttl hle haged
    simp only [Clock.earlier, Clock.aged, decide_eq_true_eq, decide_eq_false_iff_not] at *
    omega

/-! ## Entries under their keys -/

namespace Cache

/-- Every entry stands under its own uri, and no two under one. -/
structure Keyed (entries : List (Entry τ)) : Prop where
  own : ∀ e ∈ entries, e.uri = e.key
  distinct : (entries.map (·.key)).Nodup

theorem Keyed.sublist {entries entries' : List (Entry τ)} (h : Keyed entries) (hs : entries'.Sublist entries) :
    Keyed entries' :=
  ⟨fun e he => h.own e (hs.subset he), h.distinct.sublist (hs.map _)⟩

theorem Keyed.perm {entries entries' : List (Entry τ)} (h : Keyed entries) (hp : entries'.Perm entries) :
    Keyed entries' :=
  ⟨fun e he => h.own e (hp.mem_iff.1 he), (hp.map _).nodup_iff.2 h.distinct⟩

theorem Keyed.map_uri {entries : List (Entry τ)} (h : Keyed entries) : entries.map (·.uri) = entries.map (·.key) :=
  List.map_congr_left h.own

theorem Keyed.ne {front back : List (Entry τ)} (h : Keyed (front ++ back)) {a b : Entry τ} (ha : a ∈ front)
    (hb : b ∈ back) : a.key ≠ b.key :=
  (List.pairwise_append.1 (List.pairwise_map.1 h.distinct)).2.2 a ha b hb

theorem filter_dropped {dropped kept : List (Entry τ)} (h : Keyed (dropped ++ kept)) :
    (dropped ++ kept).filter (fun e => !(dropped.map (·.uri)).contains e.key) = kept := by
  rw [(h.sublist (List.sublist_append_left _ _)).map_uri]
  have hgone : dropped.filter (fun e => !(dropped.map (·.key)).contains e.key) = [] := by
    rw [List.filter_eq_nil_iff]
    intro e he
    have := List.mem_map_of_mem (f := (·.key)) he
    simpa using this
  have hkept : kept.filter (fun e => !(dropped.map (·.key)).contains e.key) = kept := by
    rw [List.filter_eq_self]
    intro e he
    have : ∀ e' ∈ dropped, e'.key ≠ e.key := fun e' he' => h.ne he' he
    simpa using this
  rw [List.filter_append, hgone, hkept, List.nil_append]

theorem erase_of_find {c : Cache τ} {uri : String} (h : c.find? uri = none) : c.erase uri = c := by
  have hself : c.entries.filter (·.key != uri) = c.entries := by
    rw [List.filter_eq_self]
    intro e he
    have := List.find?_eq_none.1 h e he
    simpa using this
  rw [erase, hself]

theorem invalidate_state (c : Cache τ) (uri : String) : (c.invalidate uri).state = c.erase uri := by
  unfold invalidate
  split
  · rfl
  · next h =>
    rw [contains, Bool.not_eq_true, Option.isSome_eq_false_iff, Option.isNone_iff_eq_none] at h
    exact (erase_of_find h).symm

theorem calls_invalidate (c : Cache τ) (uri : String) : (c.invalidate uri).calls = [] := by
  unfold invalidate
  split
  · rfl
  · rfl

end Cache

/-! ## Entries in order -/

variable [Clock τ]

namespace Cache

def purge (now : τ) (c : Cache τ) : Cache τ :=
  { c with entries := c.entries.filter fun e => !Clock.aged now e.stamp c.ttl }

/-- Right after a purge to look an entry up is just to find it. -/
theorem lookup_purge (c : Cache τ) (now : τ) (uri : String) :
    (c.purge now).lookup now uri = .pure ((c.purge now).find? uri) (c.purge now) := by
  rw [lookup]
  cases hfind : (c.purge now).find? uri with
  | none => rfl
  | some e =>
    have hyoung : Clock.aged now e.stamp c.ttl = false := by
      simpa using (List.mem_filter.1 (List.mem_of_find?_eq_some hfind)).2
    exact if_neg (Bool.eq_false_iff.1 hyoung)

/-- Entries in the order in which they were written. -/
structure InOrder (entries : List (Entry τ)) : Prop extends Keyed entries where
  stamps : entries.Pairwise fun a b => Clock.earlier b.stamp a.stamp = false

theorem InOrder.sublist {entries entries' : List (Entry τ)} (h : InOrder entries) (hs : entries'.Sublist entries) :
    InOrder entries' :=
  ⟨h.toKeyed.sublist hs, h.stamps.sublist hs⟩

theorem InOrder.nil : InOrder ([] : List (Entry τ)) := ⟨⟨nofun, .nil⟩, .nil⟩

theorem InOrder.concat {entries : List (Entry τ)} {e : Entry τ} (h : InOrder entries) (hown : e.uri = e.key)
    (he : ∀ a ∈ entries, a.key ≠ e.key ∧ Clock.earlier e.stamp a.stamp = false) : InOrder (entries ++ [e]) := by
  refine ⟨⟨List.forall_mem_append.2 ⟨h.own, List.forall_mem_singleton.2 hown⟩, ?_⟩, ?_⟩
  · rw [List.Nodup, List.pairwise_map, List.pairwise_append]
    refine ⟨List.pairwise_map.1 h.distinct, List.pairwise_singleton _ _, ?_⟩
    intro a ha b hb
    rw [List.mem_singleton.1 hb]
    exact (he a ha).1
  · refine List.pairwise_append.2 ⟨h.stamps, List.pairwise_singleton _ _, ?_⟩
    intro a ha b hb
    rw [List.mem_singleton.1 hb]
    exact (he a ha).2

theorem byAge_eq {entries : List (Entry τ)} (h : InOrder entries) : byAge entries = entries := by
  apply List.mergeSort_of_pairwise
  refine h.stamps.imp ?_
  intro a b hab
  rw [hab]
  rfl

/-- In order, the entries that are too many are the first ones. -/
theorem evict_state {c : Cache τ} (h : InOrder c.entries) :
    c.evict.state = { c with entries := c.entries.drop (c.size - c.maxSize) } := by
  unfold evict
  dsimp only
  split
  · next h0 =>
    rw [h0, List.drop_zero]
    rfl
  · have hcut := List.take_append_drop (c.size - c.maxSize) c.entries
    have hdrop := filter_dropped (hcut.symm ▸ h.toKeyed)
    rw [hcut] at hdrop
    rw [byAge_eq h, hdrop]

theorem filter_split {α : Type} {l : List α} {p : α → Bool} (h : l.Pairwise fun a b => p b = true → p a = true) :
    l = l.filter p ++ l.filter (!p ·) := by
  induction l with
  | nil => rfl
  | cons a l ih =>
    obtain ⟨ha, hl⟩ := List.pairwise_cons.1 h
    by_cases hp : p a = true
    · rw [List.filter_cons, if_pos hp, List.filter_cons, if_neg (by simp [hp]), List.cons_append, ← ih hl]
    · have hnone : ∀ b ∈ a :: l, ¬p b = true := by
        intro b hb hpb
        rcases List.mem_cons.1 hb with rfl | hb
        · exact hp hpb
        · exact hp (ha b hb hpb)
      rw [List.filter_eq_nil_iff.2 hnone, List.nil_append, List.filter_eq_self.2]
      intro b hb
      simp [hnone b hb]

/-! ## A cache that lags behind -/

/-- A cache that may hold expired entries in front, against one without them. What is to come happens at
the readings `later`. -/
structure Lags (later : List τ) (c d : Cache τ) : Prop where
  maxSize : d.maxSize = c.maxSize
  ttl : d.ttl = c.ttl
  stale : ∃ stale, c.entries = stale ++ d.entries ∧ ∀ e ∈ stale, ∀ now ∈ later, Clock.aged now e.stamp c.ttl = true
  inOrder : InOrder c.entries
  past : ∀ e ∈ c.entries, ∀ now ∈ later, Clock.earlier now e.stamp = false

namespace Lags

variable {later : List τ} {c d : Cache τ}

theorem mono {later' : List τ} (h : c.Lags later d) (hl : ∀ now ∈ later', now ∈ later) : c.Lags later' d := by
  obtain ⟨stale, hs, haged⟩ := h.stale
  refine ⟨h.maxSize, h.ttl, ⟨stale, hs, ?_⟩, h.inOrder, ?_⟩
  · intro e he now hn
    exact haged e he now (hl now hn)
  · intro e he now hn
    exact h.past e he now (hl now hn)

theorem inOrder_right (h : c.Lags later d) : InOrder d.entries := by
  obtain ⟨stale, hs, -⟩ := h.stale
  exact h.inOrder.sublist (hs ▸ List.sublist_append_right _ _)

theorem configured (h : c.Lags later d) : Report.configured d = Report.configured c := by
  unfold Report.configured
  rw [h.maxSize, h.ttl]

theorem fresh (maxSize ttl : Nat) : Lags later ⟨[], maxSize, ttl⟩ ⟨[], maxSize, ttl⟩ :=
  ⟨rfl, rfl, ⟨[], rfl, by simp⟩, .nil, by simp⟩

theorem erase (h : c.Lags later d) (uri : String) : (c.erase uri).Lags later (d.erase uri) := by
  obtain ⟨stale, hs, haged⟩ := h.stale
  refine ⟨h.maxSize, h.ttl, ⟨stale.filter (·.key != uri), ?_, ?_⟩, h.inOrder.sublist List.filter_sublist, ?_⟩
  · show c.entries.filter _ = _
    rw [hs, List.filter_append]
    rfl
  · intro e he
    exact haged e (List.mem_filter.1 he).1
  · intro e he
    exact h.past e (List.mem_filter.1 he).1

theorem write {e : Entry τ} (h : c.Lags (e.stamp :: later) d) (hown : e.uri = e.key)
    (hl : ∀ now ∈ later, Clock.earlier now e.stamp = false) : (c.write e).Lags later (d.write e) := by
  have hold := (h.erase e.key).mono fun now hn => List.mem_cons_of_mem _ hn
  obtain ⟨stale, hs, haged⟩ := hold.stale
  refine ⟨h.maxSize, h.ttl, ⟨stale, ?_, haged⟩, ?_, ?_⟩
  · show (c.erase e.key).entries ++ [e] = stale ++ ((d.erase e.key).entries ++ [e])
    rw [hs, List.append_assoc]
  · apply hold.inOrder.concat hown
    intro a ha
    obtain ⟨hmem, hne⟩ := List.mem_filter.1 ha
    exact ⟨bne_iff_ne.1 hne, h.past a hmem e.stamp List.mem_cons_self⟩
  · intro a ha
    rcases List.mem_append.1 ha with ha | ha
    · exact hold.past a ha
    · rw [List.mem_singleton.1 ha]
      exact hl

theorem evict (h : c.Lags later d) : c.evict.state.Lags later d.evict.state := by
  obtain ⟨stale, hs, haged⟩ := h.stale
  -- the stale entries come first, so as many of the others must go as without them
  have hsize : c.size - c.maxSize - stale.length = d.size - d.maxSize := by
    rw [size, size, hs, List.length_append, h.maxSize]
    omega
  rw [evict_state h.inOrder, evict_state h.inOrder_right]
  refine ⟨h.maxSize, h.ttl, ⟨stale.drop (c.size - c.maxSize), ?_, ?_⟩, h.inOrder.sublist (List.drop_sublist _ _), ?_⟩
  · show c.entries.drop (c.size - c.maxSize) = _ ++ d.entries.drop (d.size - d.maxSize)
    rw [← hsize]
    conv => lhs; rw [hs, List.drop_append]
  · intro e he
    exact haged e (List.mem_of_mem_drop he)
  · intro e he
    exact h.past e (List.mem_of_mem_drop he)

theorem find (h : c.Lags later d) (uri : String) :
    c.find? uri = d.find? uri ∨
      d.find? uri = none ∧ ∃ e, c.find? uri = some e ∧ ∀ now ∈ later, Clock.aged now e.stamp c.ttl = true := by
  obtain ⟨stale, hs, haged⟩ := h.stale
  have hfind : c.find? uri = (stale.find? (·.key == uri)).or (d.find? uri) := by
    rw [find?, hs, List.find?_append]
    rfl
  cases hf : stale.find? (·.key == uri) with
  | none =>
    rw [hf, Option.none_or] at hfind
    exact .inl hfind
  | some e =>
    have hmem := List.mem_of_find?_eq_some hf
    have hkey := List.find?_some hf
    rw [hf, Option.some_or] at hfind
    refine .inr ⟨?_, e, hfind, haged e hmem⟩
    -- no second entry for the same document
    rw [Cache.find?, List.find?_eq_none]
    intro e' he'
    have hkeyed := h.inOrder.toKeyed
    rw [hs] at hkeyed
    rw [beq_iff_eq] at hkey ⊢
    exact fun heq => hkeyed.ne hmem he' (hkey.trans heq.symm)

theorem purge [Clock.Ageing τ] {now : τ} (h : c.Lags (now :: later) d)
    (hl : ∀ t ∈ later, Clock.earlier t now = false) : c.Lags (now :: later) (d.purge now) := by
  obtain ⟨stale, hs, haged⟩ := h.stale
  have hsplit := filter_split (p := fun e : Entry τ => Clock.aged now e.stamp d.ttl)
    (h.inOrder_right.stamps.imp fun hab => Clock.Ageing.aged_older hab)
  refine ⟨h.maxSize, h.ttl, ?_, h.inOrder, h.past⟩
  refine ⟨stale ++ d.entries.filter fun e => Clock.aged now e.stamp d.ttl, ?_, ?_⟩
  · rw [hs, List.append_assoc]
    exact congrArg (stale ++ ·) hsplit
  · intro e he t ht
    rcases List.mem_append.1 he with he | he
    · exact haged e he t ht
    · have hnow : Clock.aged now e.stamp c.ttl = true := by
        rw [← h.ttl]
        exact (List.mem_filter.1 he).2
      rcases List.mem_cons.1 ht with rfl | ht
      · exact hnow
      · exact Clock.Ageing.aged_later (hl t ht) hnow

theorem purge_eq {now : τ} (h : c.Lags [now] d) : c.purge now = d.purge now := by
  obtain ⟨stale, hs, haged⟩ := h.stale
  have hstale : stale.filter (fun e => !Clock.aged now e.stamp c.ttl) = [] := by
    rw [List.filter_eq_nil_iff]
    intro e he
    simp [haged e he now List.mem_cons_self]
  unfold Cache.purge
  rw [hs, List.filter_append, hstale, List.nil_append, h.maxSize, h.ttl]

end Lags

end Cache

/-! ## Operations -/

structure Effect.Lags {α : Type} (later : List τ) (e e' : Effect (Cache τ) α) : Prop where
  value : e.value = e'.value
  calls : e.calls = e'.calls
  state : e.state.Lags later e'.state

namespace Effect.Lags

variable {α β : Type} {later : List τ}

theorem pure {c d : Cache τ} (h : c.Lags later d) (a : α) : (Effect.pure a c).Lags later (.pure a d) := ⟨rfl, rfl, h⟩

theorem mono {later' : List τ} {e e' : Effect (Cache τ) α} (h : e.Lags later e') (hl : ∀ now ∈ later', now ∈ later) :
    e.Lags later' e' :=
  ⟨h.value, h.calls, h.state.mono hl⟩

theorem map {e e' : Effect (Cache τ) α} (h : e.Lags later e') (f : α → β) : (e.map f).Lags later (e'.map f) :=
  ⟨congrArg f h.value, h.calls, h.state⟩

theorem andThen {later' : List τ} {e e' : Effect (Cache τ) α} {f : α → Cache τ → Effect (Cache τ) β}
    (h : e.Lags later e') (hf : ∀ a (c d : Cache τ), c.Lags later d → (f a c).Lags later' (f a d)) :
    (e.andThen f).Lags later' (e'.andThen f) := by
  have hnext := hf e.value e.state e'.state h.state
  refine ⟨?_, ?_, ?_⟩
  · show (f e.value e.state).value = (f e'.value e'.state).value
    rw [← h.value]
    exact hnext.value
  · rw [calls_andThen, calls_andThen, h.calls, ← h.value, hnext.calls]
  · show (f e.value e.state).state.Lags later' (f e'.value e'.state).state
    rw [← h.value]
    exact hnext.state

end Effect.Lags

namespace Cache

namespace Lags

variable {later : List τ} {c d : Cache τ}

theorem lookup {now : τ} (h : c.Lags later d) (hnow : now ∈ later) (uri : String) :
    (c.lookup now uri).Lags later (d.lookup now uri) := by
  unfold Cache.lookup
  rcases h.find uri with heq | ⟨hnone, e, hsome, haged⟩
  · rw [heq, h.ttl]
    cases d.find? uri with
    | none => exact .pure h none
    | some e =>
      dsimp only
      split
      · exact ⟨rfl, rfl, h.erase uri⟩
      · exact .pure h (some e)
  · rw [hnone, hsome]
    dsimp only
    rw [if_pos (haged now hnow)]
    refine ⟨rfl, rfl, ?_⟩
    have := h.erase uri
    rwa [erase_of_find hnone] at this

theorem invalidate (h : c.Lags later d) (uri : String) : (c.invalidate uri).Lags later (d.invalidate uri) := by
  refine ⟨rfl, by rw [calls_invalidate, calls_invalidate], ?_⟩
  rw [invalidate_state, invalidate_state]
  exact h.erase uri

theorem invalidateAll (h : c.Lags later d) : c.invalidateAll.Lags later d.invalidateAll := by
  refine ⟨rfl, rfl, ?_⟩
  show Lags later { c with entries := [] } { d with entries := [] }
  rw [h.maxSize, h.ttl]
  exact .fresh c.maxSize c.ttl

theorem setMaxSize (h : c.Lags later d) (value : Int) : (c.setMaxSize value).Lags later (d.setMaxSize value) := by
  unfold Cache.setMaxSize
  cases Limit.maxSize.check value with
  | error e => exact .pure h (Except.error e)
  | ok maxSize =>
    have hlimit : Lags later { c with maxSize } { d with maxSize } := ⟨rfl, h.ttl, h.stale, h.inOrder, h.past⟩
    exact ⟨rfl, (calls_evict { c with maxSize }).trans (calls_evict { d with maxSize }).symm, hlimit.evict⟩

theorem configure (h : c.Lags later d) (maxSize : Option Int) :
    (c.configure maxSize none).Lags later (d.configure maxSize none) := by
  unfold Cache.configure
  rw [Option.elim_none, Option.elim_none]
  apply Effect.Lags.andThen (.pure h (Except.ok ()))
  intro result c' d' h'
  split
  · exact h'.setMaxSize _
  · exact .pure h' _

theorem reconfigure (h : c.Lags later d) (maxSize : Option Int) :
    (c.reconfigure maxSize none).Lags later (d.reconfigure maxSize none) := by
  apply Effect.Lags.andThen (h.configure maxSize)
  intro result c' d' h'
  cases result with
  | error e => exact .pure h' (Except.error e)
  | ok _ =>
    apply Effect.Lags.andThen h'.invalidateAll
    intro _ c'' d'' h''
    exact ⟨rfl, rfl, h''⟩

theorem classify {now : τ} (h : c.Lags later d) (hnow : now ∈ later) (parser : Parser) (uri : String)
    (text : List Char) (position : Position) :
    (c.classify parser now uri text position).Lags later (d.classify parser now uri text position) := by
  apply Effect.Lags.andThen (h.lookup hnow uri)
  intro found c' d' h'
  split
  · exact .pure h' _
  · split
    · exact ⟨rfl, rfl, h'⟩
    · exact ⟨rfl, rfl, h'⟩

theorem getOrParse {asked written : τ} (h : c.Lags (asked :: written :: later) d)
    (hl : ∀ now ∈ later, Clock.earlier now written = false) (parser : Parser) (uri : String) (version : Int)
    (text : List Char) :
    (c.getOrParse parser asked written uri version text).Lags later
      (d.getOrParse parser asked written uri version text) := by
  apply Effect.Lags.andThen (h.lookup List.mem_cons_self uri)
  intro found c' d' h'
  have hlater : c'.Lags later d' := h'.mono fun now hn => List.mem_cons_of_mem _ (List.mem_cons_of_mem _ hn)
  split
  · exact ⟨rfl, rfl, hlater⟩
  · split
    · exact ⟨rfl, rfl, hlater⟩
    · next tree _ =>
      have hwrite : (c'.write ⟨uri, uri, version, text, tree, written⟩).Lags later _ :=
        (h'.mono fun now hn => List.mem_cons_of_mem _ hn).write rfl hl
      refine ⟨rfl, ?_, hwrite.evict⟩
      show List.filter Event.isParse ([.miss uri version, .parsed text] ++ _) =
        List.filter Event.isParse ([.miss uri version, .parsed text] ++ _)
      rw [List.filter_append, List.filter_append]
      exact congrArg _ ((calls_evict _).trans (calls_evict _).symm)

theorem analyze {asked written : τ} (h : c.Lags (asked :: written :: later) d)
    (hl : ∀ now ∈ later, Clock.earlier now written = false) (parser : Parser) (uri : String) (version : Int)
    (text : List Char) :
    (c.analyze parser asked written uri version text).Lags later
      (d.analyze parser asked written uri version text) := by
  apply Effect.Lags.andThen (h.getOrParse hl parser uri version text)
  intro result c' d' h'
  cases result with
  | ok tree => exact ⟨rfl, rfl, h'⟩
  | error e => exact .pure h' _

theorem reportProblems {asked written : τ} (h : c.Lags (asked :: written :: later) d)
    (hl : ∀ now ∈ later, Clock.earlier now written = false) (parser : Parser) (uri : String) (version : Int)
    (text : List Char) :
    (c.reportProblems parser asked written uri version text).Lags later
      (d.reportProblems parser asked written uri version text) := by
  apply Effect.Lags.andThen (h.analyze hl parser uri version text)
  intro result c' d' h'
  cases result with
  | ok diagnostics => exact .pure h' _
  | error e => exact ⟨rfl, rfl, h'⟩

end Lags

end Cache

/-! ## Histories -/

/-- The command keeps the time to live, and neither counts the entries nor tells whether one is held. -/
def Command.hidesExpired : Command → Bool
  | contains _ | setTtl _ | reportStatus => false
  | reconfigure _ ttl | configure _ ttl | reportReconfigure _ ttl => ttl.isNone
  | _ => true

theorem Command.run_lags {c d : Cache τ} {asked written : τ} {later : List τ}
    (h : c.Lags (asked :: written :: later) d) (hl : ∀ now ∈ later, Clock.earlier now written = false)
    (parser : Parser) {command : Command} (hc : command.hidesExpired = true) :
    (command.run parser asked written c).Lags later (command.run parser asked written d) := by
  have hsub : ∀ now ∈ later, now ∈ asked :: written :: later := by
    intro now hn
    exact List.mem_cons_of_mem _ (List.mem_cons_of_mem _ hn)
  have hlater := h.mono hsub
  cases command with
  | analyze uri version text => exact (h.analyze hl parser uri version text).map _
  | classify uri text position => exact ((h.classify List.mem_cons_self parser uri text position).mono hsub).map _
  | invalidate uri => exact (hlater.invalidate uri).map fun _ => Reply.done
  | invalidateAll => exact hlater.invalidateAll.map fun _ => Reply.done
  | reconfigure maxSize ttl =>
    rw [Option.isNone_iff_eq_none.1 hc]
    exact (hlater.reconfigure maxSize).map _
  | get uri version text => exact (h.getOrParse hl parser uri version text).map _
  | peek uri => exact ((h.lookup List.mem_cons_self uri).mono hsub).map _
  | contains uri => cases hc
  | setMaxSize value => exact (hlater.setMaxSize value).map _
  | setTtl value => cases hc
  | configure maxSize ttl =>
    rw [Option.isNone_iff_eq_none.1 hc]
    exact (hlater.configure maxSize).map _
  | reportProblems uri version text => exact (h.reportProblems hl parser uri version text).map _
  | reportContext uri text position =>
    exact ((h.classify List.mem_cons_self parser uri text position).mono hsub).map fun result =>
      Reply.report (Report.context result)
  | reportClose uri => exact (hlater.invalidate uri).map fun _ => Reply.report (Report.closed uri)
  | reportReconfigure maxSize ttl =>
    rw [Option.isNone_iff_eq_none.1 hc]
    unfold run
    apply Effect.Lags.andThen (hlater.reconfigure maxSize)
    intro result c' d' h'
    cases result with
    | ok _ =>
      dsimp only
      rw [h'.configured]
      exact .pure h' _
    | error e => exact .pure h' _
  | reportStatus => cases hc
  | shutDown => exact hlater.invalidateAll.map fun _ => Reply.done
  | terminate => exact hlater.invalidateAll.map fun _ => Reply.exit 0

/-- The answers of a history of commands, each with the calls of the parser that it took, and the cache in
the end; `prepare` is done to the cache before each command. -/
def Cache.observe (parser : Parser) (prepare : τ → Cache τ → Cache τ) :
    Cache τ → List (Command × τ × τ) → List (Reply τ × List Event) × Cache τ
  | c, [] => ([], c)
  | c, (command, asked, written) :: history =>
    let effect := command.run parser asked written (prepare asked c)
    let rest := observe parser prepare effect.state history
    ((effect.value, effect.calls) :: rest.1, rest.2)

def readings (history : List (Command × τ × τ)) : List τ := history.flatMap fun step => [step.2.1, step.2.2]

theorem Cache.Lags.observe [Clock.Ageing τ] (parser : Parser) {history : List (Command × τ × τ)} {later : List τ}
    (hc : ∀ step ∈ history, step.1.hidesExpired = true)
    (hl : (readings history ++ later).Pairwise fun a b => Clock.earlier b a = false) {c d : Cache τ}
    (h : c.Lags (readings history ++ later) d) :
    (c.observe parser (fun _ c => c) history).1 = (d.observe parser Cache.purge history).1 ∧
      (c.observe parser (fun _ c => c) history).2.Lags later (d.observe parser Cache.purge history).2 := by
  induction history generalizing c d with
  | nil => exact ⟨rfl, h⟩
  | cons step history ih =>
    obtain ⟨command, asked, written⟩ := step
    have hreadings : readings ((command, asked, written) :: history) ++ later =
        asked :: written :: (readings history ++ later) := rfl
    rw [hreadings] at hl h
    obtain ⟨hasked, hl⟩ := List.pairwise_cons.1 hl
    obtain ⟨hwritten, hl⟩ := List.pairwise_cons.1 hl
    have hrun := Command.run_lags (h.purge hasked) hwritten parser (hc _ List.mem_cons_self)
    obtain ⟨htrace, hend⟩ := ih (fun step hs => hc step (List.mem_cons_of_mem _ hs)) hl hrun.state
    refine ⟨?_, hend⟩
    show (_, _) :: _ = (_, _) :: _
    rw [hrun.value, hrun.calls, htrace]

/-- While the clock is not set back and the time to live stays, it does not show when expired entries are
dropped: not in the answers, not in the calls of the parser, and not in which entries live. -/
theorem lazy_expiry [Clock.Ageing τ] (parser : Parser) (maxSize ttl : Nat) (history : List (Command × τ × τ))
    (hc : ∀ step ∈ history, step.1.hidesExpired = true)
    (hl : (readings history).Pairwise fun a b => Clock.earlier b a = false) :
    (Cache.observe parser (fun _ c => c) ⟨[], maxSize, ttl⟩ history).1 =
        (Cache.observe parser Cache.purge ⟨[], maxSize, ttl⟩ history).1 ∧
      ∀ now, (∀ reading ∈ readings history, Clock.earlier now reading = false) →
        (Cache.observe parser (fun _ c => c) ⟨[], maxSize, ttl⟩ history).2.purge now =
          (Cache.observe parser Cache.purge ⟨[], maxSize, ttl⟩ history).2.purge now := by
  constructor
  · have hl' : (readings history ++ []).Pairwise fun a b => Clock.earlier b a = false := by rwa [List.append_nil]
    exact (Cache.Lags.observe parser hc hl' (.fresh maxSize ttl)).1
  · intro now hnow
    have hl' : (readings history ++ [now]).Pairwise fun a b => Clock.earlier b a = false := by
      refine List.pairwise_append.2 ⟨hl, List.pairwise_singleton _ _, ?_⟩
      intro reading hr t ht
      rw [List.mem_singleton.1 ht]
      exact hnow reading hr
    exact (Cache.Lags.observe parser hc hl' (.fresh maxSize ttl)).2.purge_eq

/-- The first document expires while the second is still asked for. -/
def overlap : List (Command × Micros × Micros) :=
  [(.get "a" 1 [], ⟨0⟩, ⟨0⟩), (.get "b" 1 [], ⟨8000⟩, ⟨9000⟩), (.peek "b", ⟨12000⟩, ⟨12000⟩)]

theorem lazy_expiry_overlap :
    (Cache.observe (.ok ∘ SyntaxTree.parse) (fun _ c => c) ⟨[], 2, 10⟩ overlap).1 =
      (Cache.observe (.ok ∘ SyntaxTree.parse) Cache.purge ⟨[], 2, 10⟩ overlap).1 ∧
    (Cache.observe (.ok ∘ SyntaxTree.parse) (fun _ c => c) ⟨[], 2, 10⟩ overlap).2.size = 2 ∧
    (Cache.observe (.ok ∘ SyntaxTree.parse) Cache.purge ⟨[], 2, 10⟩ overlap).2.size = 1 := by
  refine ⟨(lazy_expiry _ 2 10 overlap ?_ ?_).1, ?_, ?_⟩
  · decide
  · decide
  · rfl
  · rfl

end EdgeTemplate
