import Mathlib.Data.List.Nodup
import EdgeTemplate.Proofs.LazyExpiry
import EdgeTemplate.Proofs.RefusedLimits

/-!
# What a cache always is

A command drops documents and sets limits, and then writes what it has parsed (`Command.run_state`). Nothing of
that loses what holds of a cache at all times (`cache_consistent`): no more entries than the size limit allows,
one for each document and under its own uri, in the order in which the documents were last written. Nothing is
asked of the clock, so the entries that go need not be the first ones; but as many go as are too many, since they go
by what they say their uri is and that is where they stand (`Cache.size_evict`). The limits are those that were
accepted last, whatever was refused since (`Cache.limit_replay`).
-/

namespace EdgeTemplate

variable {τ : Type}

/-! ## Changes -/

inductive Change where
  | drop (uri : String)
  | clear
  | limit (limit : Limit) (value : Nat)

namespace Change

def ofLimit (limit : Limit) : Option Int → List Change
  | some value => if value < 0 then [] else [.limit limit value.toNat]
  | none => []

/-- The size limit is not looked at if the time to live is refused. -/
def ofLimits (maxSize ttl : Option Int) : List Change :=
  if ttl.any (· < 0) then [] else ofLimit .ttl ttl ++ ofLimit .maxSize maxSize

theorem limit_of_mem {l : Limit} {value : Option Int} {change : Change} (h : change ∈ ofLimit l value) :
    ∃ l n, change = .limit l n := by
  unfold ofLimit at h
  split at h
  · split at h
    · cases h
    · exact ⟨l, _, List.mem_singleton.1 h⟩
  · cases h

theorem limit_of_mem_ofLimits {maxSize ttl : Option Int} {change : Change} (h : change ∈ ofLimits maxSize ttl) :
    ∃ l n, change = .limit l n := by
  unfold ofLimits at h
  split at h
  · cases h
  · rcases List.mem_append.1 h with h | h
    · exact limit_of_mem h
    · exact limit_of_mem h

end Change

variable [Clock τ]

namespace Cache

def apply (c : Cache τ) : Change → Cache τ
  | .drop uri => c.erase uri
  | .clear => { c with entries := [] }
  | .limit .maxSize value => { c with maxSize := value }.evict.state
  | .limit .ttl value => { c with ttl := value }

def insert (c : Cache τ) (e : Entry τ) : Cache τ := (c.write e).evict.state

def expiry (c : Cache τ) (now : τ) (uri : String) : List Change :=
  if (c.find? uri).any fun e => Clock.aged now e.stamp c.ttl then [.drop uri] else []

end Cache

namespace Command

/-- What a command changes before it writes. -/
def changes (asked : τ) (c : Cache τ) : Command → List Change
  | analyze uri _ _ | get uri _ _ | reportProblems uri _ _ | classify uri _ _ | reportContext uri _ _ | peek uri =>
    c.expiry asked uri
  | invalidate uri | reportClose uri => [.drop uri]
  | invalidateAll | shutDown | terminate => [.clear]
  | setMaxSize value => Change.ofLimit .maxSize (some value)
  | setTtl value => Change.ofLimit .ttl (some value)
  | configure maxSize ttl => Change.ofLimits maxSize ttl
  | reconfigure maxSize ttl | reportReconfigure maxSize ttl =>
    Change.ofLimits maxSize ttl ++ if anyNegative maxSize ttl then [] else [.clear]
  | contains _ | reportStatus => []

/-- The document that a command has parsed unless it is cached. -/
def document? : Command → Option (String × Int × List Char)
  | analyze uri version text | get uri version text | reportProblems uri version text => some (uri, version, text)
  | _ => none

/-- The entry that a command writes: it has called the parser on its document, and it succeeded. -/
def written? (parser : Parser) (asked written : τ) (c : Cache τ) (command : Command) : Option (Entry τ) :=
  command.document?.bind fun (uri, version, text) =>
    match (command.run parser asked written c).calls, parser text with
    | _ :: _, .ok tree => some ⟨uri, uri, version, text, tree, written⟩
    | _, _ => none

end Command

/-! ## What a command changes -/

omit [Clock τ] in
theorem Effect.state_andThen {α β : Type} {e : Effect (Cache τ) α} {f : α → Cache τ → Effect (Cache τ) β}
    (h : ∀ a c, (f a c).state = c) : (e.andThen f).state = e.state :=
  h e.value e.state

namespace Cache

variable (c : Cache τ)

theorem lookup_state (now : τ) (uri : String) :
    (c.lookup now uri).state = (c.expiry now uri).foldl apply c := by
  unfold lookup expiry
  cases c.find? uri with
  | none => rfl
  | some e =>
    dsimp only
    rw [Option.any_some]
    split
    · rfl
    · rfl

theorem classify_state (parser : Parser) (now : τ) (uri : String) (text : List Char) (position : Position) :
    (c.classify parser now uri text position).state = (c.lookup now uri).state := by
  apply Effect.state_andThen
  intro found c'
  split
  · rfl
  · split
    · rfl
    · rfl

theorem analyze_state (parser : Parser) (asked written : τ) (uri : String) (version : Int) (text : List Char) :
    (c.analyze parser asked written uri version text).state =
      (c.getOrParse parser asked written uri version text).state := by
  apply Effect.state_andThen
  intro result c'
  cases result with
  | ok tree => rfl
  | error e => rfl

theorem reportProblems_state (parser : Parser) (asked written : τ) (uri : String) (version : Int) (text : List Char) :
    (c.reportProblems parser asked written uri version text).state =
      (c.analyze parser asked written uri version text).state := by
  apply Effect.state_andThen
  intro result c'
  cases result with
  | ok diagnostics => rfl
  | error e => rfl

theorem setMaxSize_state (value : Int) :
    (c.setMaxSize value).state = (Change.ofLimit .maxSize (some value)).foldl apply c := by
  by_cases h : value < 0
  · rw [setMaxSize, Limit.check_negative .maxSize h, Change.ofLimit, if_pos h]
    rfl
  · rw [setMaxSize, Limit.check_natural .maxSize h, Change.ofLimit, if_neg h]
    rfl

theorem setTtl_state (value : Int) :
    (c.setTtl value).state = (Change.ofLimit .ttl (some value)).foldl apply c := by
  by_cases h : value < 0
  · rw [setTtl, Limit.check_negative .ttl h, Change.ofLimit, if_pos h]
    rfl
  · rw [setTtl, Limit.check_natural .ttl h, Change.ofLimit, if_neg h]
    rfl

theorem keptTtl_state (ttl : Option Int) :
    { c with ttl := c.keptTtl ttl } = (Change.ofLimit .ttl ttl).foldl apply c := by
  cases ttl with
  | none => rfl
  | some value =>
    unfold keptTtl Change.ofLimit
    dsimp only
    split
    · rfl
    · rfl

theorem configure_state (maxSize ttl : Option Int) :
    (c.configure maxSize ttl).state = (Change.ofLimits maxSize ttl).foldl apply c := by
  unfold Change.ofLimits
  cases ht : ttl.any (· < 0) with
  | true =>
    obtain ⟨value, rfl, hv⟩ := (Option.any_eq_true _ _).1 ht
    rw [configure_negative c (of_decide_eq_true hv)]
    rfl
  | false =>
    rw [configure_natural c ht, keptTtl_state, if_neg (by simp), List.foldl_append]
    cases maxSize with
    | none => rfl
    | some value => exact setMaxSize_state _ value

theorem reconfigure_state (maxSize ttl : Option Int) : (c.reconfigure maxSize ttl).state =
    (Change.ofLimits maxSize ttl ++ if anyNegative maxSize ttl then [] else [Change.clear]).foldl apply c := by
  rw [List.foldl_append, ← configure_state]
  cases h : anyNegative maxSize ttl with
  | true =>
    obtain ⟨e, he⟩ := c.configure_refused h
    rw [reconfigure, he]
    rfl
  | false =>
    unfold reconfigure Effect.andThen
    rw [c.configure_accepted h]
    rfl

end Cache

namespace Command

variable (parser : Parser) (asked written : τ) (c : Cache τ) (command : Command)

theorem run_document {uri : String} {version : Int} {text : List Char}
    (h : command.document? = some (uri, version, text)) :
    (command.run parser asked written c).state = (c.getOrParse parser asked written uri version text).state ∧
      (command.run parser asked written c).calls = (c.getOrParse parser asked written uri version text).calls ∧
      command.changes asked c = c.expiry asked uri := by
  cases command with
  | analyze =>
    cases h
    exact ⟨c.analyze_state .., c.calls_analyze .., rfl⟩
  | get =>
    cases h
    exact ⟨rfl, rfl, rfl⟩
  | reportProblems =>
    cases h
    exact ⟨(c.reportProblems_state ..).trans (c.analyze_state ..),
      (c.calls_reportProblems ..).trans (c.calls_analyze ..), rfl⟩
  | _ => cases h

theorem run_changes (h : command.document? = none) :
    (command.run parser asked written c).state = (command.changes asked c).foldl Cache.apply c := by
  cases command with
  | analyze | get | reportProblems => cases h
  | classify uri | reportContext uri => exact (c.classify_state ..).trans (c.lookup_state asked uri)
  | peek uri => exact c.lookup_state asked uri
  | invalidate uri | reportClose uri => exact c.invalidate_state uri
  | invalidateAll | shutDown | terminate => rfl
  | setMaxSize value => exact c.setMaxSize_state value
  | setTtl value => exact c.setTtl_state value
  | configure maxSize ttl => exact c.configure_state maxSize ttl
  | reconfigure maxSize ttl => exact c.reconfigure_state maxSize ttl
  | reportReconfigure maxSize ttl =>
    rw [changes, ← c.reconfigure_state]
    apply Effect.state_andThen
    intro result c'
    cases result with
    | ok _ => rfl
    | error e => rfl
  | contains | reportStatus => rfl

/-- A command makes its changes and then writes what it has parsed. -/
theorem run_state : (command.run parser asked written c).state =
    (command.written? parser asked written c).elim ((command.changes asked c).foldl Cache.apply c)
      ((command.changes asked c).foldl Cache.apply c).insert := by
  cases hd : command.document? with
  | none =>
    rw [written?, hd]
    exact command.run_changes parser asked written c hd
  | some document =>
    obtain ⟨uri, version, text⟩ := document
    obtain ⟨hstate, hcalls, hchanges⟩ := command.run_document parser asked written c hd
    rw [Cache.calls_getOrParse] at hcalls
    rw [hstate, hchanges, ← Cache.lookup_state, written?, hd, Option.bind_some, hcalls]
    unfold Cache.getOrParse Effect.andThen
    dsimp only
    cases (c.lookup asked uri).value.filter fun e => e.version == version && e.text == text with
    | some e => rfl
    | none =>
      cases parser text with
      | error e => rfl
      | ok tree => rfl

end Command

theorem Command.entry_of_written {parser : Parser} {asked written : τ} {c : Cache τ} {command : Command} {e : Entry τ}
    (h : command.written? parser asked written c = some e) : e.uri = e.key ∧ e.stamp = written := by
  obtain ⟨document, -, he⟩ := Option.bind_eq_some_iff.1 h
  dsimp only at he
  split at he
  · cases he
    exact ⟨rfl, rfl⟩
  · cases he

/-! ## The last writes -/

/-- The writes that no later one for the same document has replaced. -/
def lastWritten : List (Entry τ) → List (Entry τ)
  | [] => []
  | e :: writes => if writes.any (·.key == e.key) then lastWritten writes else e :: lastWritten writes

omit [Clock τ] in
theorem lastWritten_cons (e : Entry τ) (writes : List (Entry τ)) : lastWritten (e :: writes) =
    if writes.any (·.key == e.key) then lastWritten writes else e :: lastWritten writes := rfl

omit [Clock τ] in
theorem lastWritten_sublist (writes : List (Entry τ)) : (lastWritten writes).Sublist writes := by
  induction writes with
  | nil => exact .slnil
  | cons e writes ih =>
    rw [lastWritten_cons]
    split
    · exact ih.cons e
    · exact ih.cons_cons e

omit [Clock τ] in
theorem lastWritten_nodup (writes : List (Entry τ)) : ((lastWritten writes).map (·.key)).Nodup := by
  induction writes with
  | nil => exact .nil
  | cons e writes ih =>
    rw [lastWritten_cons]
    split
    · exact ih
    · next hlast =>
      rw [List.map_cons, List.nodup_cons]
      refine ⟨?_, ih⟩
      intro hm
      obtain ⟨e', he', hkey⟩ := List.mem_map.1 hm
      exact hlast (List.any_eq_true.2 ⟨e', (lastWritten_sublist writes).mem he', beq_iff_eq.2 hkey⟩)

omit [Clock τ] in
theorem lastWritten_concat (writes : List (Entry τ)) (e : Entry τ) :
    lastWritten (writes ++ [e]) = (lastWritten writes).filter (·.key != e.key) ++ [e] := by
  induction writes with
  | nil => rfl
  | cons w writes ih =>
    rw [List.cons_append, lastWritten_cons, lastWritten_cons, List.any_append, ih]
    by_cases hw : writes.any (·.key == w.key) = true
    · rw [hw, Bool.true_or, if_pos rfl, if_pos rfl]
    · by_cases he : e.key = w.key
      · simp [hw, he]
      · simp [hw, he, Ne.symm he]

namespace Cache

def writes (parser : Parser) : Cache τ → List (Command × τ × τ) → List (Entry τ)
  | _, [] => []
  | c, (command, asked, written) :: history =>
    (command.written? parser asked written c).toList ++
      writes parser (command.run parser asked written c).state history

theorem evict_sublist (c : Cache τ) : c.evict.state.entries.Sublist c.entries := by
  unfold evict
  dsimp only
  split
  · exact List.Sublist.refl _
  · exact List.filter_sublist

theorem size_evict {c : Cache τ} (h : Keyed c.entries) : c.evict.state.size = min c.size c.maxSize := by
  unfold evict
  dsimp only
  split
  · show c.size = _
    omega
  · -- by age the entries stand in another order, but no key occurs twice, so the ones that are cut off are all that go
    have hperm : (byAge c.entries).Perm c.entries := List.mergeSort_perm _ _
    have hcut := List.take_append_drop (c.size - c.maxSize) (byAge c.entries)
    have hkept := filter_dropped (hcut.symm ▸ h.perm hperm)
    rw [hcut] at hkept
    have hlen := (hperm.filter _).length_eq.symm.trans (congrArg List.length hkept)
    show (c.entries.filter _).length = _
    rw [hlen, List.length_drop, hperm.length_eq]
    show c.size - (c.size - c.maxSize) = _
    omega

/-! ## Along a history -/

def limit (c : Cache τ) : Limit → Nat
  | .maxSize => c.maxSize
  | .ttl => c.ttl

theorem limit_evict (c : Cache τ) (limit : Limit) : c.evict.state.limit limit = c.limit limit := by
  unfold evict
  dsimp only
  split
  · rfl
  · cases limit <;> rfl

/-- The entries are last writes, in order, and not too many. -/
structure Tracks (writes : List (Entry τ)) (c : Cache τ) : Prop where
  own : ∀ e ∈ writes, e.uri = e.key
  order : c.entries.Sublist (lastWritten writes)
  size : c.size ≤ c.maxSize

omit [Clock τ] in
theorem keyed_lastWritten {writes : List (Entry τ)} (h : ∀ e ∈ writes, e.uri = e.key) : Keyed (lastWritten writes) :=
  ⟨fun e he => h e ((lastWritten_sublist writes).mem he), lastWritten_nodup writes⟩

theorem tracks_evict {writes : List (Entry τ)} {c : Cache τ} (hown : ∀ e ∈ writes, e.uri = e.key)
    (h : c.entries.Sublist (lastWritten writes)) : c.evict.state.Tracks writes := by
  refine ⟨hown, c.evict_sublist.trans h, ?_⟩
  have hlimit : c.evict.state.maxSize = c.maxSize := c.limit_evict .maxSize
  rw [size_evict ((keyed_lastWritten hown).sublist h), hlimit]
  exact Nat.min_le_right _ _

namespace Tracks

variable {writes : List (Entry τ)} {c : Cache τ} (h : c.Tracks writes)
include h

omit [Clock τ] in
theorem keyed : Keyed c.entries := (keyed_lastWritten h.own).sublist h.order

theorem apply (change : Change) : (c.apply change).Tracks writes := by
  cases change with
  | drop uri => exact ⟨h.own, List.filter_sublist.trans h.order, Nat.le_trans (List.length_filter_le _ _) h.size⟩
  | clear => exact ⟨h.own, List.nil_sublist _, Nat.zero_le _⟩
  | limit l value =>
    cases l with
    | maxSize => exact tracks_evict h.own h.order
    | ttl => exact ⟨h.own, h.order, h.size⟩

theorem foldl (changes : List Change) : (changes.foldl Cache.apply c).Tracks writes :=
  List.foldlRecOn changes Cache.apply h fun _ hc change _ => hc.apply change

theorem insert {e : Entry τ} (he : e.uri = e.key) : (c.insert e).Tracks (writes ++ [e]) := by
  refine tracks_evict (List.forall_mem_append.2 ⟨h.own, List.forall_mem_singleton.2 he⟩) ?_
  show (_ ++ [e]).Sublist _
  rw [lastWritten_concat]
  exact (h.order.filter _).append (List.Sublist.refl _)

theorem run (parser : Parser) (asked written : τ) (command : Command) :
    (command.run parser asked written c).state.Tracks
      (writes ++ (command.written? parser asked written c).toList) := by
  have hchanges := h.foldl (command.changes asked c)
  rw [Command.run_state]
  cases hw : command.written? parser asked written c with
  | none =>
    rw [Option.toList_none, List.append_nil]
    exact hchanges
  | some e => exact hchanges.insert (Command.entry_of_written hw).1

theorem replay (parser : Parser) (history : List (Command × τ × τ)) :
    (c.replay parser history).Tracks (writes ++ c.writes parser history) := by
  induction history generalizing writes c with
  | nil => rwa [Cache.writes, List.append_nil]
  | cons step history ih =>
    rw [Cache.writes, ← List.append_assoc]
    exact ih (h.run parser step.2.1 step.2.2 step.1)

end Tracks

/-! ## Limits -/

theorem limit_apply (c : Cache τ) (change : Change) (l : Limit) :
    (c.apply change).limit l = c.limit l ∨ change = .limit l ((c.apply change).limit l) := by
  cases change with
  | drop uri => exact .inl rfl
  | clear => exact .inl rfl
  | limit l' value =>
    cases l' with
    | maxSize =>
      have hlimit := limit_evict { c with maxSize := value } l
      cases l with
      | maxSize => exact .inr (congrArg _ hlimit.symm)
      | ttl => exact .inl hlimit
    | ttl =>
      cases l with
      | maxSize => exact .inl rfl
      | ttl => exact .inr rfl

theorem limit_foldl (changes : List Change) (c : Cache τ) (l : Limit) :
    (changes.foldl apply c).limit l = c.limit l ∨ .limit l ((changes.foldl apply c).limit l) ∈ changes := by
  induction changes generalizing c with
  | nil => exact .inl rfl
  | cons change changes ih =>
    rcases ih (c.apply change) with hrest | hset
    · rcases c.limit_apply change l with hkept | hset
      · exact .inl (hrest.trans hkept)
      · rw [List.foldl_cons, hrest]
        exact .inr (hset ▸ List.mem_cons_self)
    · exact .inr (List.mem_cons_of_mem _ hset)

theorem limit_set (c : Cache τ) (l : Limit) (value : Nat) : (c.apply (.limit l value)).limit l = value := by
  cases l with
  | maxSize => exact limit_evict { c with maxSize := value } .maxSize
  | ttl => rfl

theorem limit_foldl_of_mem {changes : List Change} {l : Limit} {value : Nat} (h : .limit l value ∈ changes)
    (honce : ∀ other, .limit l other ∈ changes → other = value) (c : Cache τ) :
    (changes.foldl apply c).limit l = value := by
  obtain ⟨front, back, rfl⟩ := List.append_of_mem h
  rw [List.foldl_append, List.foldl_cons]
  rcases limit_foldl back (Cache.apply (front.foldl apply c) (.limit l value)) l with hkept | hset
  · rw [hkept, limit_set]
  · exact honce _ (List.mem_append_right _ (List.mem_cons_of_mem _ hset))

theorem limit_insert (c : Cache τ) (e : Entry τ) (l : Limit) : (c.insert e).limit l = c.limit l :=
  limit_evict (c.write e) l

end Cache

namespace Command

def given? : Command → Limit → Option Int
  | setMaxSize value, .maxSize => some value
  | setTtl value, .ttl => some value
  | configure maxSize _, .maxSize | reconfigure maxSize _, .maxSize | reportReconfigure maxSize _, .maxSize => maxSize
  | configure _ ttl, .ttl | reconfigure _ ttl, .ttl | reportReconfigure _ ttl, .ttl => ttl
  | _, _ => none

/-- A limit that a command sets. It refuses a negative one, and with a negative time to live it sets neither. -/
def accepted? (command : Command) (l : Limit) : Option Int :=
  if (command.given? .ttl).any (· < 0) then none else (command.given? l).filter (0 ≤ ·)

/-- The command drops the entry of a document whatever its age. -/
def drops (uri : String) : Command → Bool
  | invalidate other | reportClose other => other == uri
  | invalidateAll | shutDown | terminate => true
  | reconfigure maxSize ttl | reportReconfigure maxSize ttl => !anyNegative maxSize ttl
  | _ => false

theorem accepted_iff {command : Command} {l : Limit} {value : Int} : command.accepted? l = some value ↔
    (command.given? .ttl).any (· < 0) = false ∧ command.given? l = some value ∧ 0 ≤ value := by
  simp [accepted?, Option.filter_eq_some_iff]

theorem mem_ofLimit {l l' : Limit} {given : Option Int} {n : Nat} :
    .limit l n ∈ Change.ofLimit l' given ↔ l = l' ∧ given = some (n : Int) := by
  cases given with
  | none => simp [Change.ofLimit]
  | some value =>
    by_cases h : value < 0
    · simp only [Change.ofLimit, if_pos h, List.not_mem_nil, Option.some.injEq, false_iff]
      rintro ⟨-, rfl⟩
      omega
    · simp only [Change.ofLimit, if_neg h, List.mem_singleton, Change.limit.injEq, Option.some.injEq]
      refine and_congr_right fun _ => ?_
      omega

theorem mem_ofLimits {l : Limit} {maxSize ttl : Option Int} {n : Nat} :
    .limit l n ∈ Change.ofLimits maxSize ttl ↔ ttl.any (· < 0) = false ∧
      (l = .ttl ∧ ttl = some (n : Int) ∨ l = .maxSize ∧ maxSize = some (n : Int)) := by
  unfold Change.ofLimits
  split
  · next h => simp [h]
  · next h => simp [h, mem_ofLimit]

theorem limit_mem_changes {asked : τ} {c : Cache τ} {command : Command} {l : Limit} {n : Nat} :
    .limit l n ∈ command.changes asked c ↔ command.accepted? l = some (n : Int) := by
  have hexpiry : ∀ uri, .limit l n ∉ c.expiry asked uri := by
    intro uri h
    unfold Cache.expiry at h
    split at h
    · cases List.mem_singleton.1 h
    · cases h
  have hclear : ∀ refused : Bool, .limit l n ∉ if refused then [] else [Change.clear] := by
    intro refused
    cases refused <;> simp
  rw [accepted_iff]
  cases command with
  | analyze | get | reportProblems | classify | reportContext | peek => simp [changes, given?, hexpiry]
  | invalidate | reportClose | invalidateAll | shutDown | terminate | contains | reportStatus => simp [changes, given?]
  | setMaxSize => cases l <;> simp [changes, given?, mem_ofLimit]
  | setTtl =>
    cases l with
    | maxSize => simp [changes, given?, mem_ofLimit]
    | ttl =>
      simp only [changes, given?, mem_ofLimit, Option.any_some, Option.some.injEq, decide_eq_false_iff_not, true_and]
      omega
  | configure => cases l <;> simp [changes, given?, mem_ofLimits]
  | reconfigure | reportReconfigure => cases l <;> simp [changes, given?, mem_ofLimits, hclear]

/-- Why a command makes a change. -/
def Causes (asked : τ) (c : Cache τ) (command : Command) : Change → Prop
  | .drop uri => command.drops uri = true ∨ (c.find? uri).any (fun e => Clock.aged asked e.stamp c.ttl) = true
  | .clear => ∀ uri, command.drops uri = true
  | .limit l n => command.accepted? l = some (n : Int)

section

variable {asked : τ} {c : Cache τ} {command : Command} {change : Change}

theorem causes_expiry {uri : String} (h : change ∈ c.expiry asked uri) : command.Causes asked c change := by
  unfold Cache.expiry at h
  split at h
  · next haged =>
    rw [List.mem_singleton.1 h]
    exact .inr haged
  · cases h

theorem causes_limit (hl : ∃ l n, change = .limit l n) (h : change ∈ command.changes asked c) :
    command.Causes asked c change := by
  obtain ⟨l, n, rfl⟩ := hl
  exact limit_mem_changes.1 h

theorem causes_of_mem (h : change ∈ command.changes asked c) : command.Causes asked c change := by
  cases command with
  | analyze | get | reportProblems | classify | reportContext | peek => exact causes_expiry h
  | invalidate | reportClose =>
    rw [List.mem_singleton.1 h]
    exact .inl (beq_self_eq_true _)
  | invalidateAll | shutDown | terminate =>
    rw [List.mem_singleton.1 h]
    exact fun _ => rfl
  | setMaxSize value =>
    have hl : change ∈ Change.ofLimit .maxSize (some value) := h
    exact causes_limit (Change.limit_of_mem hl) h
  | setTtl value =>
    have hl : change ∈ Change.ofLimit .ttl (some value) := h
    exact causes_limit (Change.limit_of_mem hl) h
  | configure => exact causes_limit (Change.limit_of_mem_ofLimits h) h
  | reconfigure | reportReconfigure =>
    rcases List.mem_append.1 h with hl | hc
    · exact causes_limit (Change.limit_of_mem_ofLimits hl) h
    · split at hc
      · cases hc
      · next hn =>
        rw [List.mem_singleton.1 hc]
        intro uri
        simp [drops, hn]
  | contains | reportStatus => cases h

end

theorem limit_run (parser : Parser) (asked written : τ) (c : Cache τ) (command : Command) (l : Limit) :
    (command.run parser asked written c).state.limit l = ((command.changes asked c).foldl Cache.apply c).limit l := by
  rw [run_state]
  cases command.written? parser asked written c with
  | none => rfl
  | some e => exact Cache.limit_insert _ e l

/-- Behind a command a limit is what the command has set it to, if it has. -/
theorem limit_accepted (parser : Parser) (asked written : τ) (c : Cache τ) (command : Command) (l : Limit) :
    ((command.run parser asked written c).state.limit l : Int) = (command.accepted? l).getD (c.limit l) := by
  rw [limit_run]
  cases ha : command.accepted? l with
  | none =>
    rcases Cache.limit_foldl (command.changes asked c) c l with hkept | hset
    · rw [hkept]
      rfl
    · rw [limit_mem_changes, ha] at hset
      cases hset
  | some value =>
    obtain ⟨n, rfl⟩ := Int.eq_ofNat_of_zero_le (accepted_iff.1 ha).2.2
    rw [Cache.limit_foldl_of_mem (limit_mem_changes.2 ha)]
    · rfl
    · intro other ho
      rw [limit_mem_changes, ha] at ho
      exact (Int.ofNat_inj.1 (Option.some.inj ho)).symm

end Command

namespace Cache

/-- The limit in force is the last one that was accepted. -/
theorem limit_replay (parser : Parser) (c : Cache τ) (history : List (Command × τ × τ)) (l : Limit) :
    ((c.limit l : Int) :: history.filterMap (·.1.accepted? l)).getLast? =
      some ((c.replay parser history).limit l : Int) := by
  induction history generalizing c with
  | nil => rfl
  | cons step history ih =>
    have hstep := step.1.limit_accepted parser step.2.1 step.2.2 c l
    have hrest := ih (step.1.run parser step.2.1 step.2.2 c).state
    rw [hstep] at hrest
    cases ha : step.1.accepted? l with
    | none =>
      rw [ha, Option.getD_none] at hrest
      rw [List.filterMap_cons_none (f := fun step : Command × τ × τ => step.1.accepted? l) ha]
      exact hrest
    | some value =>
      rw [ha, Option.getD_some] at hrest
      rw [List.filterMap_cons_some (f := fun step : Command × τ × τ => step.1.accepted? l) ha, List.getLast?_cons_cons]
      exact hrest

omit [Clock τ] in
theorem find_iff {c : Cache τ} (h : Keyed c.entries) (uri : String) (e : Entry τ) :
    c.find? uri = some e ↔ e ∈ c.entries ∧ e.key = uri := by
  constructor
  · intro hf
    have hkey := List.find?_some hf
    exact ⟨List.mem_of_find?_eq_some hf, beq_iff_eq.1 hkey⟩
  · rintro ⟨he, rfl⟩
    cases hf : c.find? e.key with
    | none => exact absurd (beq_self_eq_true e.key) (List.find?_eq_none.1 hf e he)
    | some e' =>
      have hkey := List.find?_some hf
      rw [List.inj_on_of_nodup_map h.distinct (List.mem_of_find?_eq_some hf) he (beq_iff_eq.1 hkey)]

/-- What holds of a cache at all times, if the limits in `accepted` were set and the entries in `writes` were
written. That a limit is not negative is in its type, because nothing else passes the check; so it is also said which
of the integers that were given it is. -/
structure Consistent (accepted : Limit → List Int) (writes : List (Entry τ)) (c : Cache τ) : Prop where
  limits : ∀ l, 0 ≤ (c.limit l : Int) ∧ (accepted l).getLast? = some (c.limit l : Int)
  size : c.size ≤ c.maxSize
  distinct : (c.entries.map (·.key)).Nodup
  own : ∀ e ∈ c.entries, e.uri = e.key
  found : ∀ uri e, c.find? uri = some e ↔ e ∈ c.entries ∧ e.uri = uri
  order : c.entries.Sublist (lastWritten writes)

end Cache

theorem cache_consistent (parser : Parser) (maxSize ttl : Nat) :
    ∃ fresh : Cache τ, Cache.create maxSize ttl = .ok fresh ∧ fresh.maxSize = maxSize ∧ fresh.ttl = ttl ∧
      ∀ history : List (Command × τ × τ), (fresh.replay parser history).Consistent
        (fun l => (fresh.limit l : Int) :: history.filterMap (·.1.accepted? l)) (fresh.writes parser history) := by
  refine ⟨⟨[], maxSize, ttl⟩, ?_, rfl, rfl, ?_⟩
  · rw [Cache.create, Limit.check_natural .maxSize (by omega), Limit.check_natural .ttl (by omega)]
    rfl
  · intro history
    have hfresh : Cache.Tracks [] (⟨[], maxSize, ttl⟩ : Cache τ) :=
      ⟨List.forall_mem_nil _, List.nil_sublist _, Nat.zero_le _⟩
    have htracks := hfresh.replay parser history
    refine ⟨?_, htracks.size, htracks.keyed.distinct, htracks.keyed.own, ?_, htracks.order⟩
    · intro l
      exact ⟨Int.natCast_nonneg _, Cache.limit_replay parser _ history l⟩
    · intro uri e
      rw [Cache.find_iff htracks.keyed]
      exact and_congr_right fun he => by rw [htracks.keyed.own e he]

end EdgeTemplate
