import EdgeTemplate.Item

/-!
# Where a cut stops

`Unstopped stop a b` says that `stop` holds nowhere in `a` when `b` follows it. A cut is the one split
of a text whose first half is unstopped and whose second half is empty or stopped, and an enclosed
body is described the same way. Both descriptions survive a change of what follows, so they say what
a scanner does on a longer text.
-/

namespace EdgeTemplate

def Unstopped (stop : List Char → Bool) : List Char → List Char → Prop
  | [], _ => True
  | c :: a, b => stop (c :: (a ++ b)) = false ∧ Unstopped stop a b

theorem unstopped_append (stop : List Char → Bool) (x y b : List Char) :
    Unstopped stop (x ++ y) b ↔ Unstopped stop x (y ++ b) ∧ Unstopped stop y b := by
  induction x with
  | nil => simp [Unstopped]
  | cons c x ih => simp only [List.cons_append, Unstopped, List.append_assoc, ih, and_assoc]

theorem unstopped_at {stop : List Char → Bool} {x y b : List Char} (h : Unstopped stop (x ++ y) b)
    (hy : y ≠ []) : stop (y ++ b) = false := by
  have h2 := ((unstopped_append stop x y b).1 h).2
  cases y with
  | nil => exact absurd rfl hy
  | cons c y => exact h2.1

theorem unstopped_of_drop {stop : List Char → Bool} {a b : List Char}
    (h : ∀ k < a.length, stop ((a ++ b).drop k) = false) : Unstopped stop a b := by
  induction a with
  | nil => trivial
  | cons c a ih => exact ⟨h 0 (by simp), ih fun k hk => h (k + 1) (by simpa using hk)⟩

theorem unstopped_mono {stop stop' : List Char → Bool} (hs : ∀ s, stop' s = true → stop s = true)
    {a b : List Char} (h : Unstopped stop a b) : Unstopped stop' a b := by
  induction a with
  | nil => trivial
  | cons c a ih =>
    refine ⟨?_, ih h.2⟩
    by_cases hc : stop' (c :: (a ++ b)) = true
    · exact absurd (hs _ hc) (by rw [h.1]; simp)
    · exact Bool.eq_false_iff.2 hc

/-- What follows may be exchanged if no place of the first half sees the difference. -/
theorem unstopped_congr {stop : List Char → Bool} {a b b' : List Char}
    (hs : ∀ y, y ≠ [] → y <:+ a → stop (y ++ b) = false → stop (y ++ b') = false)
    (h : Unstopped stop a b) : Unstopped stop a b' := by
  induction a with
  | nil => trivial
  | cons c a ih =>
    refine ⟨hs (c :: a) (by simp) (List.suffix_refl _) h.1, ih (fun y hy hya => ?_) h.2⟩
    exact hs y hy (hya.trans (List.suffix_cons c a))

theorem cut_unstopped (stop : List Char → Bool) (cs : List Char) :
    Unstopped stop (cut stop cs).1 (cut stop cs).2 := by
  induction cs with
  | nil => trivial
  | cons c cs ih =>
    unfold cut
    split
    · trivial
    · next hc => exact ⟨by simpa [cut_append] using hc, ih⟩

theorem cut_eq {stop : List Char → Bool} {a b : List Char} (ha : Unstopped stop a b)
    (hb : b = [] ∨ stop b = true) : cut stop (a ++ b) = (a, b) := by
  induction a with
  | nil =>
    rcases hb with rfl | hb
    · rfl
    · cases b with
      | nil => rfl
      | cons c b => simp [cut, hb]
  | cons c a ih => simp [cut, ha.1, ih ha.2]

theorem cut_eq_iff {stop : List Char → Bool} {cs a b : List Char} :
    cut stop cs = (a, b) ↔ cs = a ++ b ∧ Unstopped stop a b ∧ (b = [] ∨ stop b = true) := by
  constructor
  · intro h
    have happ := cut_append stop cs
    have hun := cut_unstopped stop cs
    have hend := cut_snd stop cs
    rw [h] at happ hun hend
    exact ⟨happ.symm, hun, hend⟩
  · rintro ⟨rfl, ha, hb⟩
    exact cut_eq ha hb

/-! ## Enclosed bodies -/

/-- The body runs to the first closing mark or, if it is not closed, to the first place to give up. -/
def Enclosed.Ends (closing : List Char) (giveUp : List Char → Bool) (e : Enclosed) : Prop :=
  Unstopped (fun rest => closing.isPrefixOf rest || giveUp rest) e.body
      ((if e.closed then closing else []) ++ e.rest) ∧
    (e.closed = false → closing.isPrefixOf e.rest = false ∧ (e.rest = [] ∨ giveUp e.rest = true))

theorem enclose_ends (closing : List Char) (giveUp : List Char → Bool) (cs : List Char) :
    (enclose closing giveUp cs).Ends closing giveUp := by
  have hun := cut_unstopped (fun rest => closing.isPrefixOf rest || giveUp rest) cs
  have hend := cut_snd (fun rest => closing.isPrefixOf rest || giveUp rest) cs
  unfold enclose
  dsimp only
  split
  · next h =>
    obtain ⟨rest, hrest⟩ := List.isPrefixOf_iff_prefix.1 h
    refine ⟨?_, by simp⟩
    rw [← hrest] at hun ⊢
    simpa using hun
  · next h =>
    refine ⟨by simpa using hun, fun _ => ⟨Bool.eq_false_iff.2 h, ?_⟩⟩
    rcases hend with hend | hend
    · exact .inl hend
    · exact .inr (by simpa [h] using hend)

theorem Enclosed.Ends.cut_eq {closing : List Char} {giveUp : List Char → Bool} {e : Enclosed}
    (h : e.Ends closing giveUp) :
    cut (fun rest => closing.isPrefixOf rest || giveUp rest) (e.lexeme closing ++ e.rest) =
      (e.body, (if e.closed then closing else []) ++ e.rest) := by
  obtain ⟨body, closed, rest⟩ := e
  obtain ⟨hun, hopen⟩ := h
  rw [lexeme, List.append_assoc]
  refine EdgeTemplate.cut_eq hun ?_
  cases closed with
  | true =>
    have hp : closing.isPrefixOf (closing ++ rest) = true := by
      rw [List.isPrefixOf_iff_prefix]; exact List.prefix_append _ _
    exact .inr (by simp [hp])
  | false => exact (hopen rfl).2.imp_right fun hg => by simp [hg]

theorem enclose_eq {closing : List Char} {giveUp : List Char → Bool} {e : Enclosed}
    (h : e.Ends closing giveUp) : enclose closing giveUp (e.lexeme closing ++ e.rest) = e := by
  rw [enclose, h.cut_eq]
  obtain ⟨body, closed, rest⟩ := e
  cases closed with
  | true =>
    have hp : closing.isPrefixOf (closing ++ rest) = true := by
      rw [List.isPrefixOf_iff_prefix]; exact List.prefix_append _ _
    simp only [ite_true, hp, List.drop_left]
  | false => simp [(h.2 rfl).1]

end EdgeTemplate
