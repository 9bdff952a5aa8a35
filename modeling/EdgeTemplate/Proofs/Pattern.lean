import EdgeTemplate.Proofs.CutSound

/-!
# Patterns

Regular expressions with lookaround, matched by backtracking. `Pattern.ends` lists the places where a
match may end in the order in which they are tried, so the match is the first of them. A repetition
whose body reads one character at a time is a cut, and what follows a repetition decides where it
gives characters back.
-/

namespace EdgeTemplate

/-- A place in a text: what has been read, last character first, and what is left. -/
structure Place where
  done : List Char
  rest : List Char
  deriving DecidableEq

/-- The place after `lexeme`, when `rest` follows it. -/
def Place.after (p : Place) (lexeme rest : List Char) : Place := ⟨lexeme.reverse ++ p.done, rest⟩

inductive Pattern where
  | empty
  | char (accepts : Char → Bool)
  | seq (first second : Pattern)
  | alt (first second : Pattern)
  | star (body : Pattern)
  | lazyStar (body : Pattern)
  | ahead (body : Pattern)
  | notAhead (body : Pattern)
  | notBehind (refused : Char → Bool)

/-- The ends of a repetition of `step`; a step that reads nothing is not repeated. -/
def repeats (greedy : Bool) (step : Place → List Place) (p : Place) : List Place :=
  let further := ((step p).filter fun q => q.rest.length < p.rest.length).attach.flatMap fun q =>
    repeats greedy step q.1
  if greedy then further ++ [p] else p :: further
termination_by p.rest.length
decreasing_by
  have := (List.mem_filter.1 q.2).2
  simpa using this

namespace Pattern

def ends : Pattern → Place → List Place
  | empty, p => [p]
  | char accepts, p =>
    match p.rest with
    | [] => []
    | c :: cs => if accepts c then [⟨c :: p.done, cs⟩] else []
  | seq first second, p => (first.ends p).flatMap second.ends
  | alt first second, p => first.ends p ++ second.ends p
  | star body, p => repeats true body.ends p
  | lazyStar body, p => repeats false body.ends p
  | ahead body, p => if (body.ends p).isEmpty then [] else [p]
  | notAhead body, p => if (body.ends p).isEmpty then [p] else []
  | notBehind refused, p => if p.done.head?.any refused then [] else [p]

theorem ends_seq (a b : Pattern) (p : Place) : (seq a b).ends p = (a.ends p).flatMap b.ends := rfl

theorem ends_alt (a b : Pattern) (p : Place) : (alt a b).ends p = a.ends p ++ b.ends p := rfl

theorem ends_char (accepts : Char → Bool) (d : List Char) (c : Char) (r : List Char) :
    (char accepts).ends ⟨d, c :: r⟩ = if accepts c then [⟨c :: d, r⟩] else [] := rfl

theorem ends_star (a : Pattern) (p : Place) : (star a).ends p = repeats true a.ends p := rfl

theorem ends_lazyStar (a : Pattern) (p : Place) : (lazyStar a).ends p = repeats false a.ends p := rfl

theorem ends_notAhead (a : Pattern) (p : Place) :
    (notAhead a).ends p = if (a.ends p).isEmpty then [p] else [] := rfl

def any : Pattern := char fun _ => true

def one (c : Char) : Pattern := char (· == c)

def lit : List Char → Pattern
  | [] => empty
  | c :: cs => seq (one c) (lit cs)

def opt (body : Pattern) : Pattern := alt body empty

theorem ends_opt (b : Pattern) (p : Place) : (opt b).ends p = b.ends p ++ [p] := rfl

def plus (body : Pattern) : Pattern := seq body (star body)

end Pattern

/-! ## Repetitions with at most one way to go on -/

theorem repeats_of_none {greedy : Bool} {step : Place → List Place} {p : Place} (h : step p = []) :
    repeats greedy step p = [p] := by
  rw [repeats, h]
  cases greedy <;> rfl

theorem repeats_of_one (greedy : Bool) {step : Place → List Place} {p q : Place} (h : step p = [q])
    (hq : q.rest.length < p.rest.length) :
    repeats greedy step p = if greedy then repeats greedy step q ++ [p] else p :: repeats greedy step q := by
  rw [repeats, h]
  simp [hq]

namespace Pattern

/-- The pattern reads one character wherever `stop` does not hold. -/
def Steps (a : Pattern) (stop : List Char → Bool) : Prop :=
  ∀ d cs, a.ends ⟨d, cs⟩ =
    match cs with
    | [] => []
    | c :: r => if stop (c :: r) then [] else [⟨c :: d, r⟩]

theorem steps_char (accepts : Char → Bool) :
    (char accepts).Steps fun cs => !cs.head?.any accepts := by
  intro d cs
  cases cs with
  | nil => rfl
  | cons c r => cases h : accepts c <;> simp [ends, h]

theorem Steps.intro {a : Pattern} {stop : List Char → Bool} (hnil : ∀ d, a.ends ⟨d, []⟩ = [])
    (hcons : ∀ d c r, a.ends ⟨d, c :: r⟩ = if stop (c :: r) then [] else [⟨c :: d, r⟩]) : a.Steps stop := by
  intro d cs
  cases cs with
  | nil => exact hnil d
  | cons c r => exact hcons d c r

theorem steps_notAhead_any {p : Pattern} {stop : List Char → Bool}
    (h : ∀ d c r, p.ends ⟨d, c :: r⟩ = [] ↔ stop (c :: r) = false) : (seq (notAhead p) any).Steps stop := by
  refine .intro (fun d => ?_) fun d c r => ?_
  · rw [ends_seq, ends_notAhead]
    split <;> rfl
  · rw [ends_seq, ends_notAhead]
    cases hs : stop (c :: r) with
    | true =>
      have : (p.ends ⟨d, c :: r⟩).isEmpty = false := by
        rw [← Bool.not_eq_true, List.isEmpty_iff, h, hs]
        simp
      rw [this]
      rfl
    | false =>
      rw [(h d c r).2 hs]
      rfl

section
variable {a k : Pattern} {stop : List Char → Bool} (ha : a.Steps stop)
include ha

theorem ends_star_stop {d cs : List Char} (h : cs = [] ∨ stop cs = true) : (star a).ends ⟨d, cs⟩ = [⟨d, cs⟩] := by
  refine repeats_of_none ?_
  rw [ha d cs]
  cases cs with
  | nil => rfl
  | cons c r =>
    rcases h with h | h
    · cases h
    · simp [h]

theorem ends_star_go {d r : List Char} {c : Char} (h : stop (c :: r) = false) :
    (star a).ends ⟨d, c :: r⟩ = (star a).ends ⟨c :: d, r⟩ ++ [⟨d, c :: r⟩] := by
  have hstep : a.ends ⟨d, c :: r⟩ = [⟨c :: d, r⟩] := by rw [ha]; simp [h]
  have := repeats_of_one true hstep (by simp)
  simpa [ends_star] using this

/-- A greedy repetition first tries to read as far as it can. -/
theorem head_star (d cs : List Char) :
    ((star a).ends ⟨d, cs⟩).head? = some (Place.after ⟨d, cs⟩ (cut stop cs).1 (cut stop cs).2) := by
  induction cs generalizing d with
  | nil => rw [ends_star_stop ha (.inl rfl)]; rfl
  | cons c r ih =>
    by_cases h : stop (c :: r) = true
    · rw [ends_star_stop ha (.inr h)]
      simp [cut, h, Place.after]
    · have hgo := Bool.eq_false_iff.2 h
      rw [ends_star_go ha hgo, List.head?_append, ih]
      simp [cut, hgo, Place.after]

/-- It gives nothing back to a continuation that cannot start with what the repetition reads. -/
theorem ends_star_seq (hk : ∀ d c r, stop (c :: r) = false → k.ends ⟨d, c :: r⟩ = []) (d cs : List Char) :
    (seq (star a) k).ends ⟨d, cs⟩ = k.ends (Place.after ⟨d, cs⟩ (cut stop cs).1 (cut stop cs).2) := by
  induction cs generalizing d with
  | nil =>
    rw [ends_seq, ends_star_stop ha (.inl rfl)]
    simp [cut, Place.after]
  | cons c r ih =>
    by_cases h : stop (c :: r) = true
    · rw [ends_seq, ends_star_stop ha (.inr h)]
      simp [cut, h, Place.after]
    · have hgo := Bool.eq_false_iff.2 h
      have := ih (c :: d)
      rw [ends_seq] at this ⊢
      rw [ends_star_go ha hgo, List.flatMap_append, this]
      simp [cut, hgo, Place.after, hk d c r hgo]

theorem head_plus {cs x y : List Char} (hcut : cut stop cs = (x, y)) (hx : x ≠ []) (d : List Char) :
    ((plus a).ends ⟨d, cs⟩).head? = some ⟨x.reverse ++ d, y⟩ := by
  cases cs with
  | nil => cases hcut; exact absurd rfl hx
  | cons c r =>
    by_cases h : stop (c :: r) = true
    · simp only [cut, h, ite_true, Prod.mk.injEq] at hcut
      exact absurd hcut.1.symm hx
    · have hgo := Bool.eq_false_iff.2 h
      have hstep : a.ends ⟨d, c :: r⟩ = [⟨c :: d, r⟩] := by rw [ha]; simp [hgo]
      simp only [cut, hgo, Bool.false_eq_true, ite_false, Prod.mk.injEq] at hcut
      obtain ⟨rfl, rfl⟩ := hcut
      rw [plus, ends_seq, hstep, List.flatMap_singleton, head_star ha]
      simp [Place.after]

theorem ends_plus_stop {d cs : List Char} (h : cs = [] ∨ stop cs = true) : (plus a).ends ⟨d, cs⟩ = [] := by
  rw [plus, ends_seq, ha]
  cases cs with
  | nil => rfl
  | cons c r =>
    rcases h with h | h
    · cases h
    · simp [h]

end

/-! ## Marks, options and lazy repetitions -/

theorem ends_one (c : Char) (d r : List Char) : (one c).ends ⟨d, c :: r⟩ = [⟨c :: d, r⟩] := by
  simp [one, ends_char]

theorem ends_one_ne {c e : Char} (h : e ≠ c) (d r : List Char) : (one c).ends ⟨d, e :: r⟩ = [] := by
  simp [one, ends_char, h]

theorem ends_lit (mark d r : List Char) : (lit mark).ends ⟨d, mark ++ r⟩ = [⟨mark.reverse ++ d, r⟩] := by
  induction mark generalizing d with
  | nil => rfl
  | cons c mark ih =>
    rw [lit, ends_seq, List.cons_append, ends_one, List.flatMap_singleton, ih]
    simp

theorem ends_lit_none {mark cs : List Char} (h : mark.isPrefixOf cs = false) (d : List Char) :
    (lit mark).ends ⟨d, cs⟩ = [] := by
  induction mark generalizing d cs with
  | nil => simp at h
  | cons c mark ih =>
    cases cs with
    | nil => rfl
    | cons e cs =>
      by_cases hc : e = c
      · subst hc
        have : mark.isPrefixOf cs = false := by simpa [List.isPrefixOf] using h
        rw [lit, ends_seq, ends_one, List.flatMap_singleton, ih this]
      · rw [lit, ends_seq, ends_one_ne hc, List.flatMap_nil]

theorem ends_lit_eq_nil {mark cs : List Char} {d : List Char} :
    (lit mark).ends ⟨d, cs⟩ = [] ↔ mark.isPrefixOf cs = false := by
  constructor
  · intro h
    by_cases hp : mark.isPrefixOf cs = true
    · obtain ⟨r, rfl⟩ := List.isPrefixOf_iff_prefix.1 hp
      rw [ends_lit] at h
      cases h
    · exact Bool.eq_false_iff.2 hp
  · intro h
    exact ends_lit_none h d

theorem head_flatMap {α β : Type} {l : List α} {x : α} {f : α → List β} (hl : l.head? = some x)
    (hf : f x ≠ []) : (l.flatMap f).head? = (f x).head? := by
  obtain ⟨t, rfl⟩ := List.head?_eq_some_iff.1 hl
  rw [List.flatMap_cons, List.head?_append]
  cases h : f x with
  | nil => exact absurd h hf
  | cons b bs => rfl

theorem head_opt (b : Pattern) (p : Place) : ((opt b).ends p).head? = (b.ends p).head?.or (some p) := by
  rw [ends_opt, List.head?_append]
  rfl

/-- An option never makes a match fail, so it is tried at the first place only. -/
theorem head_seq_opt {a : Pattern} (b : Pattern) {p q : Place} (h : (a.ends p).head? = some q) :
    ((seq a (opt b)).ends p).head? = (b.ends q).head?.or (some q) := by
  rw [ends_seq, head_flatMap h (by simp [ends_opt]), head_opt]

/-- A lazy repetition ends at the first place where its continuation matches. -/
theorem head_lazy {k : Pattern} {found : List Char → Bool} (hk : ∀ d r, k.ends ⟨d, r⟩ = [] ↔ found r = false)
    (d cs : List Char) :
    ((seq (lazyStar any) k).ends ⟨d, cs⟩).head? =
      (k.ends (Place.after ⟨d, cs⟩ (cut found cs).1 (cut found cs).2)).head? := by
  induction cs generalizing d with
  | nil =>
    have : (lazyStar any).ends ⟨d, []⟩ = [⟨d, []⟩] := repeats_of_none rfl
    rw [ends_seq, this, List.flatMap_singleton]
    rfl
  | cons c r ih =>
    have hgo : (lazyStar any).ends ⟨d, c :: r⟩ = ⟨d, c :: r⟩ :: (lazyStar any).ends ⟨c :: d, r⟩ := by
      have := @repeats_of_one false any.ends ⟨d, c :: r⟩ ⟨c :: d, r⟩ rfl (by simp)
      simpa [ends_lazyStar] using this
    have hr := ih (c :: d)
    rw [ends_seq] at hr ⊢
    rw [hgo, List.flatMap_cons]
    cases hf : found (c :: r) with
    | true =>
      have hne : k.ends ⟨d, c :: r⟩ ≠ [] := fun h => by rw [(hk _ _).1 h] at hf; cases hf
      have hcut : cut found (c :: r) = ([], c :: r) := by simp [cut, hf]
      rw [hcut, List.head?_append]
      cases h : k.ends ⟨d, c :: r⟩ with
      | nil => exact absurd h hne
      | cons q qs => simp [Place.after, h]
    | false =>
      rw [(hk _ _).2 hf, List.nil_append, hr]
      simp [cut, hf, Place.after]

end Pattern

end EdgeTemplate
