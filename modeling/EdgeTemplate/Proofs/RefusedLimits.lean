import EdgeTemplate.Session

/-!
# Refused limits

Limits are refused if and only if one that is given is negative. The documents and the size limit are then
as before, but the time to live is set first, and it stays set when the size limit is refused
(`refused_limits`).
-/

namespace EdgeTemplate

variable {τ : Type}

theorem Limit.check_negative (limit : Limit) {value : Int} (h : value < 0) :
    limit.check value = .error ⟨limit, value⟩ := by
  rw [check, if_pos h]

theorem Limit.check_natural (limit : Limit) {value : Int} (h : ¬value < 0) : limit.check value = .ok value.toNat := by
  rw [check, if_neg h]

/-- One of the limits that are given is negative. -/
def anyNegative (maxSize ttl : Option Int) : Bool := maxSize.any (· < 0) || ttl.any (· < 0)

namespace Cache

/-- The time to live when other limits than itself may be refused. -/
def keptTtl (c : Cache τ) : Option Int → Nat
  | some value => if value < 0 then c.ttl else value.toNat
  | none => c.ttl

theorem keptTtl_eq (c : Cache τ) (ttl : Option Int) :
    c.keptTtl ttl = c.ttl ↔ ∀ value, ttl = some value → value < 0 ∨ value = c.ttl := by
  cases ttl with
  | none => simp [keptTtl]
  | some value =>
    by_cases h : value < 0
    · simp [keptTtl, h]
    · simp only [keptTtl, if_neg h, Option.some.injEq, forall_eq']
      omega

variable [Clock τ] (c : Cache τ)

theorem configure_negative {value : Int} (h : value < 0) (maxSize : Option Int) :
    c.configure maxSize (some value) = .pure (.error ⟨.ttl, value⟩) c := by
  unfold configure
  rw [Option.elim_some, setTtl, Limit.check_negative .ttl h]
  rfl

theorem configure_natural {ttl : Option Int} (h : ttl.any (· < 0) = false) (maxSize : Option Int) :
    c.configure maxSize ttl =
      maxSize.elim (.pure (.ok ()) { c with ttl := c.keptTtl ttl }) { c with ttl := c.keptTtl ttl }.setMaxSize := by
  unfold configure
  cases ttl with
  | none => cases maxSize <;> rfl
  | some value =>
    have hv : ¬value < 0 := of_decide_eq_false h
    rw [Option.elim_some, setTtl, Limit.check_natural .ttl hv, keptTtl, if_neg hv]
    cases maxSize <;> rfl

theorem configure_refused {maxSize ttl : Option Int} (h : anyNegative maxSize ttl = true) :
    ∃ e, c.configure maxSize ttl = .pure (.error e) { c with ttl := c.keptTtl ttl } := by
  cases ht : ttl.any (· < 0) with
  | true =>
    obtain ⟨value, rfl, hv⟩ := (Option.any_eq_true _ _).1 ht
    have hv := of_decide_eq_true hv
    exact ⟨⟨.ttl, value⟩, by rw [configure_negative c hv, keptTtl, if_pos hv]⟩
  | false =>
    rw [anyNegative, ht, Bool.or_false] at h
    obtain ⟨value, rfl, hv⟩ := (Option.any_eq_true _ _).1 h
    have hv := of_decide_eq_true hv
    refine ⟨⟨.maxSize, value⟩, ?_⟩
    rw [configure_natural c ht, Option.elim_some, setMaxSize, Limit.check_negative .maxSize hv]

theorem configure_accepted {maxSize ttl : Option Int} (h : anyNegative maxSize ttl = false) :
    (c.configure maxSize ttl).value = .ok () := by
  obtain ⟨hm, ht⟩ := Bool.or_eq_false_iff.1 h
  rw [configure_natural c ht]
  cases maxSize with
  | none => rfl
  | some value =>
    have hv : ¬value < 0 := of_decide_eq_false hm
    rw [Option.elim_some, setMaxSize, Limit.check_natural .maxSize hv]
    rfl

theorem reconfigure_refused {maxSize ttl : Option Int} (h : anyNegative maxSize ttl = true) :
    ∃ e, c.reconfigure maxSize ttl = .pure (.error e) { c with ttl := c.keptTtl ttl } := by
  obtain ⟨e, he⟩ := c.configure_refused h
  refine ⟨e, ?_⟩
  rw [reconfigure, he]
  rfl

theorem reconfigure_accepted {maxSize ttl : Option Int} (h : anyNegative maxSize ttl = false) :
    (c.reconfigure maxSize ttl).value = .ok () := by
  unfold reconfigure Effect.andThen
  rw [c.configure_accepted h]

end Cache

/-! ## Every way to set limits -/

/-- Limits are set on the cache alone, or with all documents dropped, which may be answered in words. -/
inductive Setter where
  | cache
  | documents
  | report

def Setter.command (maxSize ttl : Option Int) : Setter → Command
  | cache => .configure maxSize ttl
  | documents => .reconfigure maxSize ttl
  | report => .reportReconfigure maxSize ttl

def Reply.isRefusal : Reply τ → Bool
  | refused _ => true
  | report text => "Invalid cache configuration".toList.isPrefixOf text.toList
  | _ => false

theorem Reply.isRefusal_report (text : String) : (Reply.report text : Reply τ).isRefusal =
    "Invalid cache configuration".toList.isPrefixOf text.toList := rfl

theorem Report.refused_text (e : LimitError) : (Reply.report (Report.refused e) : Reply τ).isRefusal = true := by
  have hhead : "Invalid cache configuration: ".toList = "Invalid cache configuration".toList ++ ": ".toList := by
    decide +kernel
  rw [Reply.isRefusal_report, List.isPrefixOf_iff_prefix]
  unfold Report.refused
  rw [String.toList_append, hhead, List.append_assoc]
  exact List.prefix_append _ _

theorem Report.head_configured (c : Cache τ) : (Report.configured c).toList.head? = some 'C' := by
  have hc : "Cache configured: max_size=".toList.head? = some 'C' := by decide +kernel
  unfold Report.configured
  simp only [toString, String.toList_append, List.append_assoc]
  rw [List.head?_append, hc, Option.some_or]

theorem Report.configured_text (c : Cache τ) : (Reply.report (Report.configured c) : Reply τ).isRefusal = false := by
  have hi : "Invalid cache configuration".toList.head? = some 'I' := by decide +kernel
  rw [Reply.isRefusal_report, Bool.eq_false_iff, ne_eq, List.isPrefixOf_iff_prefix]
  intro ⟨rest, hrest⟩
  have hhead := congrArg List.head? hrest
  rw [Report.head_configured, List.head?_append, hi] at hhead
  simp at hhead

section

variable [Clock τ] (parser : Parser) (asked written : τ) (c : Cache τ) {maxSize ttl : Option Int}

theorem Setter.run_refused (h : anyNegative maxSize ttl = true) (setter : Setter) :
    ((setter.command maxSize ttl).run parser asked written c).value.isRefusal = true ∧
      ((setter.command maxSize ttl).run parser asked written c).state = { c with ttl := c.keptTtl ttl } := by
  obtain ⟨e, hc⟩ := c.configure_refused h
  obtain ⟨e', hr⟩ := c.reconfigure_refused h
  cases setter with
  | cache =>
    rw [command, Command.run, hc]
    exact ⟨rfl, rfl⟩
  | documents =>
    rw [command, Command.run, hr]
    exact ⟨rfl, rfl⟩
  | report =>
    rw [command, Command.run, hr]
    exact ⟨Report.refused_text e', rfl⟩

theorem Setter.run_accepted (h : anyNegative maxSize ttl = false) (setter : Setter) :
    ((setter.command maxSize ttl).run parser asked written c).value.isRefusal = false := by
  cases setter with
  | cache =>
    show (Reply.ofLimits (c.configure maxSize ttl).value : Reply τ).isRefusal = false
    rw [c.configure_accepted h]
    rfl
  | documents =>
    show (Reply.ofLimits (c.reconfigure maxSize ttl).value : Reply τ).isRefusal = false
    rw [c.reconfigure_accepted h]
    rfl
  | report =>
    rw [command, Command.run, Effect.andThen]
    dsimp only
    rw [c.reconfigure_accepted h]
    exact Report.configured_text _

end

/-- Limits are refused exactly if one that is given is negative. A refusal leaves all as it was exactly if it
comes with no new time to live. -/
theorem refused_limits [Clock τ] (parser : Parser) (asked written : τ) (c : Cache τ) (maxSize ttl : Option Int)
    (setter : Setter) :
    ((setter.command maxSize ttl).run parser asked written c).value.isRefusal = anyNegative maxSize ttl ∧
      (anyNegative maxSize ttl = true →
        ((setter.command maxSize ttl).run parser asked written c).state = { c with ttl := c.keptTtl ttl } ∧
        (((setter.command maxSize ttl).run parser asked written c).state = c ↔
          ∀ value, ttl = some value → value < 0 ∨ value = c.ttl)) := by
  cases h : anyNegative maxSize ttl with
  | false => exact ⟨Setter.run_accepted parser asked written c h setter, nofun⟩
  | true =>
    obtain ⟨hvalue, hstate⟩ := Setter.run_refused parser asked written c h setter
    refine ⟨hvalue, fun _ => ⟨hstate, ?_⟩⟩
    rw [hstate, ← c.keptTtl_eq]
    constructor
    · intro heq
      exact congrArg Cache.ttl heq
    · intro heq
      rw [heq]

/-- The time to live stays set. -/
theorem refused_limits_kept :
    ((⟨[], 3, 1000⟩ : Cache Seconds).configure (some (-1)) (some 7)).value = .error ⟨.maxSize, -1⟩ ∧
      ((⟨[], 3, 1000⟩ : Cache Seconds).configure (some (-1)) (some 7)).state = ⟨[], 3, 7⟩ :=
  ⟨rfl, rfl⟩

end EdgeTemplate
