import Mathlib.Data.List.Dedup
import Mathlib.Data.List.Perm.Subperm
import EdgeTemplate.Proofs.CacheInvariant

/-!
# What was written stays

An entry is served until it is too old, as long as its document is left alone, the limits stay, and fewer other
documents are written than the cache may hold (`retention`). While the clock is not set back the entries stand
in the order of their stamps (`Cache.Timely`), so those that are too many go from the front, and behind the
entry there are only documents written since (`Cache.Holds`).
-/

namespace EdgeTemplate

variable {τ : Type} [Clock τ]

/-! ## Entries in the order of their stamps -/

namespace Cache

/-- The entries are in order, and none is stamped after a reading that is still to come. -/
structure Timely (later : List τ) (c : Cache τ) : Prop where
  inOrder : InOrder c.entries
  past : ∀ e ∈ c.entries, ∀ now ∈ later, Clock.earlier now e.stamp = false

namespace Timely

variable {later : List τ} {c d : Cache τ}

theorem of_lags (h : c.Lags later d) : c.Timely later := ⟨h.inOrder, h.past⟩

theorem lags (h : c.Timely later) : c.Lags later c := ⟨rfl, rfl, ⟨[], rfl, by simp⟩, h.inOrder, h.past⟩

theorem mono {later' : List τ} (h : c.Timely later) (hl : ∀ now ∈ later', now ∈ later) : c.Timely later' :=
  of_lags (h.lags.mono hl)

theorem apply (h : c.Timely later) (change : Change) : (c.apply change).Timely later := by
  cases change with
  | drop uri => exact of_lags (h.lags.erase uri)
  | clear => exact of_lags (.fresh c.maxSize c.ttl)
  | limit l value =>
    cases l with
    | ttl => exact ⟨h.inOrder, h.past⟩
    | maxSize =>
      have hset : Timely later { c with maxSize := value } := ⟨h.inOrder, h.past⟩
      exact of_lags hset.lags.evict

theorem foldl (h : c.Timely later) (changes : List Change) : (changes.foldl Cache.apply c).Timely later :=
  List.foldlRecOn changes Cache.apply h fun _ hc change _ => hc.apply change

theorem write {e : Entry τ} (h : c.Timely (e.stamp :: later)) (hown : e.uri = e.key)
    (hl : ∀ now ∈ later, Clock.earlier now e.stamp = false) : (c.write e).Timely later :=
  of_lags (h.lags.write hown hl)

/-- What a command is about to evict from when it has written is in order too. -/
theorem write_written {asked written : τ} {parser : Parser} {command : Command} {e : Entry τ} (h : c.Timely [written])
    (hw : command.written? parser asked written c = some e) :
    (Cache.write ((command.changes asked c).foldl Cache.apply c) e).Timely [] := by
  have hchanges := h.foldl (command.changes asked c)
  obtain ⟨hown, hstamp⟩ := Command.entry_of_written hw
  rw [← hstamp] at hchanges
  exact hchanges.write hown nofun

theorem run {asked written : τ} (h : c.Timely (asked :: written :: later))
    (hl : ∀ now ∈ later, Clock.earlier now written = false) (parser : Parser) (command : Command) :
    (command.run parser asked written c).state.Timely later := by
  have hchanges := h.foldl (command.changes asked c)
  rw [Command.run_state]
  cases hw : command.written? parser asked written c with
  | none => exact hchanges.mono fun now hn => List.mem_cons_of_mem _ (List.mem_cons_of_mem _ hn)
  | some e =>
    -- the reading that stamps the entry is not among those to come
    obtain ⟨hown, hstamp⟩ := Command.entry_of_written hw
    rw [← hstamp] at hchanges hl
    have hwrite := (hchanges.mono fun now hn => List.mem_cons_of_mem _ hn).write hown hl
    exact of_lags hwrite.lags.evict

theorem replay (parser : Parser) {history : List (Command × τ × τ)}
    (hl : (readings history ++ later).Pairwise fun a b => Clock.earlier b a = false)
    (h : c.Timely (readings history ++ later)) : (c.replay parser history).Timely later := by
  induction history generalizing c with
  | nil => exact h
  | cons step history ih =>
    have hreadings : readings (step :: history) ++ later = step.2.1 :: step.2.2 :: (readings history ++ later) := rfl
    rw [hreadings] at hl h
    obtain ⟨hwritten, hl⟩ := List.pairwise_cons.1 (List.pairwise_cons.1 hl).2
    exact ih hl (h.run hwritten parser step.1)

end Timely

/-! ## An entry that stays -/

/-- The entry is held, behind it stand only documents among `others`, and there is room for it and all of those. -/
structure Holds (others : List String) (e : Entry τ) (c : Cache τ) : Prop where
  size : c.size ≤ c.maxSize
  room : others.length < c.maxSize
  cut : ∃ older newer, c.entries = older ++ e :: newer ∧ ∀ a ∈ newer, a.key ∈ others

/-- The change leaves the entry of a document and the limits as they are. -/
def Spares (c : Cache τ) (uri : String) : Change → Prop
  | .drop other => other ≠ uri
  | .clear => False
  | .limit l value => c.limit l = value

omit [Clock τ] in
theorem Spares.congr {c d : Cache τ} {uri : String} {change : Change} (h : c.Spares uri change)
    (hd : ∀ l, d.limit l = c.limit l) : d.Spares uri change := by
  cases change with
  | drop other => exact h
  | clear => exact h
  | limit l value => exact (hd l).trans h

theorem apply_limit {c : Cache τ} (h : c.size ≤ c.maxSize) (l : Limit) : c.apply (.limit l (c.limit l)) = c := by
  cases l with
  | ttl => rfl
  | maxSize =>
    show (Cache.evict c).state = c
    have hnone : c.size - c.maxSize = 0 := by omega
    unfold evict
    rw [if_pos hnone]
    rfl

/-- No more entries go than stand in front. -/
theorem holds_evict {others : List String} {e : Entry τ} {c : Cache τ} (horder : InOrder c.entries)
    {older newer : List (Entry τ)} (hcut : c.entries = older ++ e :: newer) (hothers : ∀ a ∈ newer, a.key ∈ others)
    (hroom : others.length < c.maxSize) : c.evict.state.Holds others e := by
  have hfew : newer.length ≤ others.length := by
    have hnodup := horder.distinct
    rw [hcut, List.map_append, List.map_cons] at hnodup
    have hbehind := (List.nodup_cons.1 (List.nodup_append.1 hnodup).2.1).2
    rw [← List.length_map (·.key)]
    refine (hbehind.subperm ?_).length_le
    intro key hkey
    obtain ⟨a, ha, rfl⟩ := List.mem_map.1 hkey
    exact hothers a ha
  have hsize : c.size = older.length + newer.length + 1 := by
    rw [Cache.size, hcut, List.length_append, List.length_cons]
    omega
  rw [evict_state horder]
  refine ⟨?_, hroom, older.drop (c.size - c.maxSize), newer, ?_, hothers⟩
  · show (c.entries.drop _).length ≤ _
    rw [List.length_drop]
    show c.size - _ ≤ c.maxSize
    omega
  · show c.entries.drop _ = _
    rw [hcut, List.drop_append_of_le_length (by omega)]

namespace Holds

variable {others : List String} {e : Entry τ} {c : Cache τ}

omit [Clock τ] in
theorem mem (h : c.Holds others e) : e ∈ c.entries := by
  obtain ⟨older, newer, hcut, -⟩ := h.cut
  rw [hcut]
  exact List.mem_append_right _ List.mem_cons_self

omit [Clock τ] in
theorem erase (h : c.Holds others e) {uri : String} (hne : uri ≠ e.key) : (c.erase uri).Holds others e := by
  obtain ⟨older, newer, hcut, hnewer⟩ := h.cut
  refine ⟨Nat.le_trans (List.length_filter_le _ _) h.size, h.room, ?_⟩
  refine ⟨older.filter (·.key != uri), newer.filter (·.key != uri), ?_, fun a ha => hnewer a (List.mem_filter.1 ha).1⟩
  have hself : (e.key != uri) = true := bne_iff_ne.2 hne.symm
  show c.entries.filter _ = _
  rw [hcut, List.filter_append, List.filter_cons, if_pos hself]

theorem apply (h : c.Holds others e) {change : Change} (hc : c.Spares e.key change) :
    (c.apply change).Holds others e ∧ ∀ l, (c.apply change).limit l = c.limit l := by
  cases change with
  | drop uri => exact ⟨h.erase hc, fun _ => rfl⟩
  | clear => cases hc
  | limit l value =>
    have hsame : c.limit l = value := hc
    subst hsame
    rw [apply_limit h.size]
    exact ⟨h, fun _ => rfl⟩

theorem foldl (h : c.Holds others e) {changes : List Change} (hc : ∀ change ∈ changes, c.Spares e.key change) :
    (changes.foldl Cache.apply c).Holds others e := by
  suffices hall : (changes.foldl Cache.apply c).Holds others e ∧
      ∀ l, (changes.foldl Cache.apply c).limit l = c.limit l from hall.1
  apply List.foldlRecOn (motive := fun d => d.Holds others e ∧ ∀ l, d.limit l = c.limit l) changes Cache.apply
  · exact ⟨h, fun _ => rfl⟩
  · rintro d ⟨hd, hlimits⟩ change hm
    obtain ⟨hnext, hsame⟩ := hd.apply ((hc change hm).congr hlimits)
    exact ⟨hnext, fun l => (hsame l).trans (hlimits l)⟩

theorem insert (h : c.Holds others e) {w : Entry τ} (hne : w.key ≠ e.key) (hw : w.key ∈ others)
    (horder : InOrder (c.write w).entries) : (c.insert w).Holds others e := by
  obtain ⟨older, newer, hcut, hnewer⟩ := (h.erase hne).cut
  have hwrite : (c.write w).entries = older ++ e :: (newer ++ [w]) := by
    show (c.erase w.key).entries ++ [w] = _
    rw [hcut, List.append_assoc, List.cons_append]
  refine holds_evict horder hwrite ?_ h.room
  intro a ha
  rcases List.mem_append.1 ha with ha | ha
  · exact hnewer a ha
  · rw [List.mem_singleton.1 ha]
    exact hw

end Holds

end Cache

theorem Command.spares_changes {parser : Parser} {asked written : τ} {c : Cache τ} {command : Command} {e : Entry τ}
    (hdrops : command.drops e.key = false)
    (hlimits : ∀ l, (command.run parser asked written c).state.limit l = c.limit l) (hfind : c.find? e.key = some e)
    (hyoung : Clock.aged asked e.stamp c.ttl = false) : ∀ change ∈ command.changes asked c, c.Spares e.key change := by
  intro change hm
  have hcause := causes_of_mem hm
  cases change with
  | drop uri =>
    rintro rfl
    rcases hcause with hdropped | haged
    · rw [hdrops] at hdropped
      cases hdropped
    · rw [hfind, Option.any_some, hyoung] at haged
      cases haged
  | clear =>
    have hdropped := hcause e.key
    rw [hdrops] at hdropped
    cases hdropped
  | limit l value =>
    have haccepted : command.accepted? l = some (value : Int) := hcause
    have hset := command.limit_accepted parser asked written c l
    rw [haccepted, hlimits] at hset
    exact Int.ofNat_inj.1 hset

namespace Cache

theorem Holds.run {others : List String} {e : Entry τ} {c : Cache τ} {parser : Parser} {asked written : τ}
    {command : Command} (h : c.Holds others e) (ht : c.Timely [written]) (hdrops : command.drops e.key = false)
    (hlimits : ∀ l, (command.run parser asked written c).state.limit l = c.limit l)
    (hyoung : Clock.aged asked e.stamp c.ttl = false)
    (hwrites : ∀ w, command.written? parser asked written c = some w → w.key ≠ e.key ∧ w.key ∈ others) :
    (command.run parser asked written c).state.Holds others e := by
  have hfind : c.find? e.key = some e := (find_iff ht.inOrder.toKeyed e.key e).2 ⟨h.mem, rfl⟩
  have hchanges := h.foldl (Command.spares_changes hdrops hlimits hfind hyoung)
  rw [Command.run_state]
  cases hw : command.written? parser asked written c with
  | none => exact hchanges
  | some w =>
    obtain ⟨hne, hother⟩ := hwrites w hw
    exact hchanges.insert hne hother (ht.write_written hw).inOrder

theorem holds_written {others : List String} {e : Entry τ} {c : Cache τ} {parser : Parser} {asked written : τ}
    {command : Command} (ht : c.Timely [written]) (hw : command.written? parser asked written c = some e)
    (hroom : others.length < (command.run parser asked written c).state.maxSize) :
    (command.run parser asked written c).state.Holds others e := by
  rw [Command.run_state, hw] at hroom ⊢
  have hlimit : (Cache.insert ((command.changes asked c).foldl apply c) e).maxSize =
      ((command.changes asked c).foldl apply c).maxSize := limit_insert _ e .maxSize
  have hcut : (Cache.write ((command.changes asked c).foldl apply c) e).entries =
      (Cache.erase ((command.changes asked c).foldl apply c) e.key).entries ++ e :: [] := rfl
  exact holds_evict (ht.write_written hw).inOrder hcut nofun (Nat.lt_of_lt_of_eq hroom hlimit)

/-- The commands neither drop a document nor write it, and no limit changes on the way. -/
structure LeavesAlone (parser : Parser) (c : Cache τ) (uri : String) (history : List (Command × τ × τ)) : Prop where
  drops : ∀ step ∈ history, step.1.drops uri = false
  writes : ∀ w ∈ c.writes parser history, w.uri ≠ uri
  limits : ∀ (k : Nat) (l : Limit), (c.replay parser (history.take k)).limit l = c.limit l

theorem LeavesAlone.rest {parser : Parser} {c : Cache τ} {uri : String} {step : Command × τ × τ}
    {history : List (Command × τ × τ)} (h : c.LeavesAlone parser uri (step :: history)) :
    (step.1.run parser step.2.1 step.2.2 c).state.LeavesAlone parser uri history := by
  refine ⟨?_, ?_, ?_⟩
  · intro later hm
    exact h.drops later (List.mem_cons_of_mem _ hm)
  · intro w hw
    exact h.writes w (List.mem_append_right _ hw)
  · intro k l
    exact (h.limits (k + 1) l).trans (h.limits 1 l).symm

theorem Holds.replay {others : List String} {e : Entry τ} {c : Cache τ} {parser : Parser}
    {history : List (Command × τ × τ)} {later : List τ}
    (hclock : (readings history ++ later).Pairwise fun a b => Clock.earlier b a = false)
    (ht : c.Timely (readings history ++ later)) (h : c.Holds others e) (hq : c.LeavesAlone parser e.key history)
    (hothers : ∀ w ∈ c.writes parser history, w.uri ∈ others)
    (hyoung : ∀ now ∈ readings history, Clock.aged now e.stamp c.ttl = false) :
    (c.replay parser history).Holds others e := by
  induction history generalizing c with
  | nil => exact h
  | cons step history ih =>
    obtain ⟨command, asked, written⟩ := step
    have hreadings : readings ((command, asked, written) :: history) = asked :: written :: readings history := rfl
    rw [hreadings] at hclock ht hyoung
    have hlimits : ∀ l, (command.run parser asked written c).state.limit l = c.limit l := hq.limits 1
    have hwrites : ∀ w, command.written? parser asked written c = some w → w.key ≠ e.key ∧ w.key ∈ others := by
      intro w hw
      have hm : w ∈ c.writes parser ((command, asked, written) :: history) :=
        List.mem_append_left _ (Option.mem_toList.2 hw)
      rw [← (Command.entry_of_written hw).1]
      exact ⟨hq.writes w hm, hothers w hm⟩
    have hrun : (command.run parser asked written c).state.Holds others e :=
      h.run (ht.mono (by simp)) (hq.drops _ List.mem_cons_self) hlimits (hyoung asked List.mem_cons_self) hwrites
    obtain ⟨hwritten, hclock⟩ := List.pairwise_cons.1 (List.pairwise_cons.1 hclock).2
    refine ih hclock (ht.run hwritten parser command) hrun hq.rest ?_ ?_
    · intro w hw
      exact hothers w (List.mem_append_right _ hw)
    · intro now hn
      have httl : (command.run parser asked written c).state.ttl = c.ttl := hlimits .ttl
      rw [httl]
      exact hyoung now (List.mem_cons_of_mem _ (List.mem_cons_of_mem _ hn))

theorem Holds.getOrParse {others : List String} {e : Entry τ} {c : Cache τ} (h : c.Holds others e)
    (hkeyed : Keyed c.entries) {now : τ} (hyoung : Clock.aged now e.stamp c.ttl = false) (parser : Parser)
    (written : τ) :
    c.getOrParse parser now written e.key e.version e.text = ⟨.ok e.tree, c, [.hit e.key e.version]⟩ := by
  have hfind : c.find? e.key = some e := (find_iff hkeyed e.key e).2 ⟨h.mem, rfl⟩
  have hlookup : c.lookup now e.key = .pure (some e) c := by
    rw [lookup, hfind]
    dsimp only
    rw [hyoung]
    rfl
  have hsame : (some e).filter (fun e' => e'.version == e.version && e'.text == e.text) = some e :=
    Option.filter_eq_some_iff.2 ⟨rfl, by simp⟩
  unfold Cache.getOrParse Effect.andThen
  rw [hlookup]
  dsimp only [Effect.pure]
  rw [hsame]
  rfl

end Cache

/-- What a command has written is served without a call of the parser as long as it is not too old, if the clock
is never set back, the commands that follow leave it alone, and they write fewer other documents than the cache
may hold. What is not too old now was never too old before, unless things can get younger by the clock: then it must
not have been. -/
theorem retention (parser : Parser) (maxSize ttl : Nat) {before following : List (Command × τ × τ)}
    {command : Command} {asked written now unread : τ} {e : Entry τ} {c d : Cache τ}
    (hc : c = Cache.replay parser ⟨[], maxSize, ttl⟩ before)
    (hwrite : command.written? parser asked written c = some e)
    (hd : d = (command.run parser asked written c).state)
    (hclock : (readings (before ++ (command, asked, written) :: following) ++ [now]).Pairwise
      fun a b => Clock.earlier b a = false)
    (halone : d.LeavesAlone parser e.uri following)
    (hfew : ((d.writes parser following).map (·.uri)).dedup.length < d.maxSize)
    (hyoung : Clock.aged now e.stamp d.ttl = false)
    (hage : Clock.Ageing τ ∨ ∀ t ∈ readings following, Clock.aged t e.stamp d.ttl = false) :
    (d.replay parser following).getOrParse parser now unread e.uri e.version e.text =
      ⟨.ok e.tree, d.replay parser following, [.hit e.uri e.version]⟩ := by
  rw [(Command.entry_of_written hwrite).1] at halone ⊢
  have hreadings : readings (before ++ (command, asked, written) :: following) ++ [now] =
      readings before ++ (asked :: written :: (readings following ++ [now])) := by
    simp [readings]
  rw [hreadings] at hclock
  have hfresh : Cache.Timely (readings before ++ (asked :: written :: (readings following ++ [now])))
      (⟨[], maxSize, ttl⟩ : Cache τ) := ⟨.nil, nofun⟩
  have hbefore := hfresh.replay parser hclock
  rw [← hc] at hbefore
  obtain ⟨-, hlater, -⟩ := List.pairwise_append.1 hclock
  obtain ⟨hwritten, hlater⟩ := List.pairwise_cons.1 (List.pairwise_cons.1 hlater).2
  have htimely := hbefore.run hwritten parser command
  have hholds := Cache.holds_written (hbefore.mono (by simp)) hwrite (hd ▸ hfew)
  rw [← hd] at htimely hholds
  have hothers : ∀ w ∈ d.writes parser following, w.uri ∈ ((d.writes parser following).map (·.uri)).dedup := by
    intro w hw
    exact List.mem_dedup.2 (List.mem_map_of_mem hw)
  have hearlier : ∀ t ∈ readings following, Clock.aged t e.stamp d.ttl = false := by
    rcases hage with hage | hage
    · intro t ht
      have hle := (List.pairwise_append.1 hlater).2.2 t ht now List.mem_cons_self
      exact Clock.young_before hle hyoung
    · exact hage
  have hkept := Cache.Holds.replay hlater htimely hholds halone hothers hearlier
  have hend := htimely.replay parser hlater
  have httl : (d.replay parser following).ttl = d.ttl := by
    have := halone.limits following.length .ttl
    rwa [List.take_length] at this
  exact hkept.getOrParse hend.inOrder.toKeyed (httl ▸ hyoung) parser unread

namespace Traffic

def before : List (Command × Micros × Micros) :=
  [(.get "x" 1 [], ⟨0⟩, ⟨1000⟩), (.get "y" 1 [], ⟨1000⟩, ⟨2000⟩)]

/-- Two writes for one document, the first with the stamp of the entry itself, and a limit that is refused. -/
def following : List (Command × Micros × Micros) :=
  [(.get "b" 1 [], ⟨2000⟩, ⟨2000⟩), (.setMaxSize (-1), ⟨3000⟩, ⟨3000⟩), (.get "b" 2 [], ⟨4000⟩, ⟨5000⟩),
    (.peek "a", ⟨6000⟩, ⟨6000⟩)]

def parser : Parser := .ok ∘ SyntaxTree.parse

def entry (uri : String) (version : Int) (stamp : Int) : Entry Micros :=
  ⟨uri, uri, version, [], SyntaxTree.parse [], ⟨stamp⟩⟩

def cache : Cache Micros :=
  ((Command.get "a" 1 []).run parser ⟨2000⟩ ⟨2000⟩ (Cache.replay parser ⟨[], 2, 10⟩ before)).state

theorem cache_eq : cache = ⟨[entry "y" 1 2000, entry "a" 1 2000], 2, 10⟩ := by
  show (Cache.evict ⟨[entry "x" 1 1000, entry "y" 1 2000, entry "a" 1 2000], 2, 10⟩).state = _
  rw [Cache.evict_state]
  · rfl
  · exact ⟨⟨by simp [entry], by decide⟩, by decide⟩

theorem run_first :
    ((Command.get "b" 1 []).run parser ⟨2000⟩ ⟨2000⟩ ⟨[entry "y" 1 2000, entry "a" 1 2000], 2, 10⟩).state =
      ⟨[entry "a" 1 2000, entry "b" 1 2000], 2, 10⟩ := by
  show (Cache.evict ⟨[entry "y" 1 2000, entry "a" 1 2000, entry "b" 1 2000], 2, 10⟩).state = _
  rw [Cache.evict_state]
  · rfl
  · exact ⟨⟨by simp [entry], by decide⟩, by decide⟩

theorem uris_written : (cache.writes parser following).map (·.uri) = ["b", "b"] := by
  rw [cache_eq, following, Cache.writes, run_first]
  rfl

theorem leavesAlone : cache.LeavesAlone parser "a" following := by
  refine ⟨by decide, ?_, ?_⟩
  · intro w hw
    have huri := List.mem_map_of_mem (f := (·.uri)) hw
    rw [uris_written] at huri
    intro he
    rw [he] at huri
    exact absurd huri (by decide)
  · intro k l
    rw [cache_eq]
    cases k with
    | zero => rfl
    | succ k =>
      show (Cache.replay parser
        ((Command.get "b" 1 []).run parser (Micros.mk 2000) (Micros.mk 2000) _).state _).limit l = _
      rw [run_first]
      rcases k with _ | _ | _ | k
      · cases l <;> rfl
      · cases l <;> rfl
      · cases l <;> rfl
      · rw [List.take_of_length_le (by simp)]
        cases l <;> rfl

end Traffic

theorem retention_traffic :
    ((Traffic.cache.writes Traffic.parser Traffic.following).map (·.uri)).dedup.length < Traffic.cache.maxSize ∧
      (Traffic.cache.replay Traffic.parser Traffic.following).getOrParse Traffic.parser ⟨11999⟩ ⟨11999⟩ "a" 1 [] =
        ⟨.ok (SyntaxTree.parse []), Traffic.cache.replay Traffic.parser Traffic.following, [.hit "a" 1]⟩ := by
  have hwrite : (Command.get "a" 1 []).written? Traffic.parser ⟨2000⟩ ⟨2000⟩
      (Cache.replay Traffic.parser ⟨[], 2, 10⟩ Traffic.before) = some (Traffic.entry "a" 1 2000) := rfl
  have hclock : (readings (Traffic.before ++ (Command.get "a" 1 [], Micros.mk 2000, Micros.mk 2000) ::
      Traffic.following) ++ [Micros.mk 11999]).Pairwise fun a b => Clock.earlier b a = false := by decide
  have hfew : ((Traffic.cache.writes Traffic.parser Traffic.following).map (·.uri)).dedup.length <
      Traffic.cache.maxSize := by
    rw [Traffic.uris_written, Traffic.cache_eq]
    decide
  have hyoung : Clock.aged (Micros.mk 11999) ⟨2000⟩ Traffic.cache.ttl = false := by
    rw [Traffic.cache_eq]
    decide
  have hage : Clock.Ageing Micros := inferInstance
  exact ⟨hfew, retention Traffic.parser 2 10 rfl hwrite rfl hclock Traffic.leavesAlone hfew hyoung (.inl hage)⟩

end EdgeTemplate
