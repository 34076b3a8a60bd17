import Pergrep.Lib.Double
import Pergrep.Unicode
/-!
# Rollout — the state of a rollout and its rollback

The controller counts the queries and their fallbacks, and is asked from time to time whether they are still safe.  A
rollback is final: no call leaves it, and the features stay off.  `run_enforced_iff` says after which calls it is in force,
in numbers of calls alone, although the ratio is a double.
-/
namespace Pergrep.Rollout

open PlainText (ascii)
open Double (roundDouble ltRat printFixed)

inductive RolloutState where | defaultBaseline | canaryExperimental | rolloutActive | rollbackEnforced
  deriving DecidableEq, Repr

structure RolloutFeatureFlags where
  enableSimdBitmaps : Bool := true
  enablePositionalEncoding : Bool := true
  enableSparsePostings : Bool := true
  enableAhoCorasickPrefilter : Bool := true
  enableAutotunedLayout : Bool := true
  enableParallelBuild : Bool := true
  enableLazyDfa : Bool := true
  deriving DecidableEq, Repr

def RolloutFeatureFlags.disabled : RolloutFeatureFlags where
  enableSimdBitmaps := false
  enablePositionalEncoding := false
  enableSparsePostings := false
  enableAhoCorasickPrefilter := false
  enableAutotunedLayout := false
  enableParallelBuild := false
  enableLazyDfa := false

structure FallbackEvent where
  operatorName : Bytes
  fallbackReason : Bytes
  queryPattern : Bytes
  timestampMs : Double

/-! ## Telemetry -/

structure RolloutTelemetry where
  maxAllowedFallbacks : Nat := 10
  /-- `0.05`, as it is rounded. -/
  maxFallbackRatio : Double := .finite false (roundDouble (1 / 20))
  totalQueries : Nat := 0
  totalFallbacks : Nat := 0
  events : List FallbackEvent := []

def RolloutTelemetry.recordQuery (t : RolloutTelemetry) (usedFallback : Bool) (opName reason : Bytes) : RolloutTelemetry :=
  let t := { t with totalQueries := t.totalQueries + 1 }
  if usedFallback then
    { t with
      totalFallbacks := t.totalFallbacks + 1
      events := t.events ++ [{ operatorName := opName, fallbackReason := reason, queryPattern := [], timestampMs := .finite false 0 }] }
  else t

def RolloutTelemetry.fallbackRatio (t : RolloutTelemetry) : ℚ :=
  if 0 < t.totalQueries then roundDouble (roundDouble t.totalFallbacks / roundDouble t.totalQueries) else 0

def RolloutTelemetry.shouldTriggerRollback (t : RolloutTelemetry) : Bool :=
  (decide (20 ≤ t.totalQueries) && ltRat t.maxFallbackRatio t.fallbackRatio) ||
    decide (t.maxAllowedFallbacks < t.totalFallbacks)

/-! ## The controller -/

structure RolloutPolicyController where
  profileId : Bytes := ascii "pergrep-production-v1"
  state : RolloutState := .defaultBaseline
  flags : RolloutFeatureFlags := {}
  telemetry : RolloutTelemetry := {}
  rollbackReason : Bytes := []

def guardReason (t : RolloutTelemetry) : Bytes :=
  ascii "Automated safety rollback: fallback ratio (" ++ printFixed 6 (.finite false (roundDouble (t.fallbackRatio * 100))) ++
    ascii "%) exceeded safety threshold."

def RolloutPolicyController.evaluateSafetyGuard (c : RolloutPolicyController) : RolloutPolicyController × Bool :=
  if c.state = .rolloutActive ∨ c.state = .canaryExperimental then
    if c.telemetry.shouldTriggerRollback then
      ({ c with state := .rollbackEnforced, rollbackReason := guardReason c.telemetry, flags := .disabled }, true)
    else (c, false)
  else (c, false)

def RolloutPolicyController.enforceRollback (c : RolloutPolicyController) (reason : Bytes) : RolloutPolicyController :=
  { c with state := .rollbackEnforced, rollbackReason := reason, flags := .disabled }

def RolloutPolicyController.promoteToRollout (c : RolloutPolicyController) : RolloutPolicyController :=
  if c.state ≠ .rollbackEnforced then { c with state := .rolloutActive } else c

/-! ## Runs -/

inductive Call where
  | recordQuery (usedFallback : Bool) (opName reason : Bytes)
  | evaluateSafetyGuard
  | enforceRollback (reason : Bytes)
  | promoteToRollout
  deriving DecidableEq

def step (c : RolloutPolicyController) : Call → RolloutPolicyController
  | .recordQuery usedFallback opName reason => { c with telemetry := c.telemetry.recordQuery usedFallback opName reason }
  | .evaluateSafetyGuard => c.evaluateSafetyGuard.1
  | .enforceRollback reason => c.enforceRollback reason
  | .promoteToRollout => c.promoteToRollout

def run (c : RolloutPolicyController) (calls : List Call) : RolloutPolicyController := calls.foldl step c

def Call.query : Call → Option Bool
  | .recordQuery usedFallback _ _ => some usedFallback
  | _ => none

def queries (calls : List Call) : Nat := calls.countP (fun call => call.query.isSome)

def fallbacks (calls : List Call) : Nat := calls.countP (fun call => call.query = some true)

/-- There are too many fallbacks, or they are too large a part of the queries: more than a twentieth. -/
def Breached (calls : List Call) : Prop :=
  10 < fallbacks calls ∨ (20 ≤ queries calls ∧ queries calls < 20 * fallbacks calls)

/-- The call that enforces a rollback, after others from a state. -/
def Enforces (s : RolloutState) (pre : List Call) : Call → Prop
  | .enforceRollback _ => True
  | .evaluateSafetyGuard =>
    (s = .rolloutActive ∨ s = .canaryExperimental ∨ .promoteToRollout ∈ pre) ∧ Breached pre
  | _ => False

def Enforced (s : RolloutState) (calls : List Call) : Prop :=
  ∃ pre call post, calls = pre ++ call :: post ∧ Enforces s pre call

theorem enforced_append {s : RolloutState} {calls : List Call} {call : Call} :
    Enforced s (calls ++ [call]) ↔ Enforced s calls ∨ Enforces s calls call := by
  constructor
  · rintro ⟨pre, call', post, heq, h⟩
    rcases List.eq_nil_or_concat post with rfl | ⟨post, last, rfl⟩
    · obtain ⟨rfl, hcall⟩ := List.append_inj' heq rfl
      cases hcall
      exact Or.inr h
    · rw [List.concat_eq_append, ← List.cons_append, ← List.append_assoc] at heq
      obtain ⟨rfl, -⟩ := List.append_inj' heq rfl
      exact Or.inl ⟨pre, call', post, rfl, h⟩
  · rintro (⟨pre, call', post, rfl, h⟩ | h)
    · exact ⟨pre, call', post ++ [call], by rw [List.append_assoc, List.cons_append], h⟩
    · exact ⟨calls, call, [], rfl, h⟩

/-! ## The ratio -/

theorem roundDouble_of_lt {n : ℕ} (h : n < 2 ^ 53) : roundDouble n = n :=
  (Double.roundDouble_natCast_iff n).2 ⟨n, 0, h, (Nat.mul_one n).symm⟩

/-- **The rounded ratio exceeds the rounded twentieth exactly where the ratio exceeds the twentieth.** -/
theorem lt_ratio_iff {f q : ℕ} (hf : f < 2 ^ 53) (hpos : 0 < q) (hq : q < 2 ^ 50) :
    roundDouble (1 / 20) < roundDouble (roundDouble f / roundDouble q) ↔ q < 20 * f := by
  have hq0 : (0 : ℚ) < q := Nat.cast_pos.2 hpos
  rw [roundDouble_of_lt hf, roundDouble_of_lt (hq.trans (by norm_num))]
  constructor
  · intro hlt
    by_contra hle
    have hcast : (20 * f : ℚ) ≤ q := by exact_mod_cast not_lt.1 hle
    have hratio : (f / q : ℚ) ≤ 1 / 20 := by
      rw [div_le_div_iff₀ hq0 (by norm_num)]
      linarith
    exact absurd hlt (not_lt.2 (Double.roundDouble_mono (div_nonneg (Nat.cast_nonneg f) hq0.le) hratio))
  · intro hlt
    -- a fallback too many is a larger step than the roundings take
    have hcast : (q + 1 : ℚ) ≤ 20 * f := by exact_mod_cast hlt
    have hsmall : (q : ℚ) < 2 ^ 50 := by exact_mod_cast hq
    refine Double.roundDouble_lt (by norm_num) ?_
    have hratio : (1 / 20 + 1 / (20 * 2 ^ 50) : ℚ) ≤ f / q := by
      rw [le_div_iff₀ hq0]
      linarith
    calc (1 / 20 * (1 + 1 / 2 ^ 53) : ℚ) < (1 / 20 + 1 / (20 * 2 ^ 50)) * (1 - 1 / 2 ^ 53) := by norm_num
      _ ≤ f / q * (1 - 1 / 2 ^ 53) := mul_le_mul_of_nonneg_right hratio (by norm_num)

theorem fallbacks_le (calls : List Call) : fallbacks calls ≤ queries calls := by
  refine List.countP_mono_left (fun call _ h => ?_)
  rw [decide_eq_true_iff] at h
  rw [h]
  rfl

theorem queries_le (calls : List Call) : queries calls ≤ calls.length := List.countP_le_length

/-- What the telemetry counts after some calls. -/
structure Counts (t : RolloutTelemetry) (calls : List Call) : Prop where
  maxAllowed : t.maxAllowedFallbacks = 10
  maxRatio : t.maxFallbackRatio = .finite false (roundDouble (1 / 20))
  queries : t.totalQueries = queries calls
  fallbacks : t.totalFallbacks = fallbacks calls

/-- **The guard's test, in numbers of calls.** -/
theorem shouldTriggerRollback_iff {t : RolloutTelemetry} {calls : List Call} (ht : Counts t calls)
    (hlen : calls.length < 2 ^ 50) : t.shouldTriggerRollback = true ↔ Breached calls := by
  have hq := (queries_le calls).trans_lt hlen
  have hf := ((fallbacks_le calls).trans_lt hq).trans (show 2 ^ 50 < 2 ^ 53 by norm_num)
  unfold RolloutTelemetry.shouldTriggerRollback RolloutTelemetry.fallbackRatio Breached
  rw [ht.maxAllowed, ht.maxRatio, ht.queries, ht.fallbacks, Bool.or_eq_true_iff, Bool.and_eq_true_iff, decide_eq_true_iff,
    decide_eq_true_iff, or_comm]
  refine or_congr_right (and_congr_right (fun h20 => ?_))
  have hpos : 0 < queries calls := by omega
  rw [if_pos hpos, ltRat, decide_eq_true_iff]
  exact lt_ratio_iff hf hpos hq

/-! ## What a call does -/

theorem Counts.recordQuery {t : RolloutTelemetry} {calls : List Call} (ht : Counts t calls) (usedFallback : Bool)
    (opName reason : Bytes) :
    Counts (t.recordQuery usedFallback opName reason) (calls ++ [.recordQuery usedFallback opName reason]) := by
  unfold RolloutTelemetry.recordQuery
  cases usedFallback with
  | false =>
    exact
      { maxAllowed := ht.maxAllowed, maxRatio := ht.maxRatio
        queries := by rw [Rollout.queries, List.countP_append, ← Rollout.queries, ← ht.queries]; rfl
        fallbacks := by rw [Rollout.fallbacks, List.countP_append, ← Rollout.fallbacks, ← ht.fallbacks]; rfl }
  | true =>
    exact
      { maxAllowed := ht.maxAllowed, maxRatio := ht.maxRatio
        queries := by rw [Rollout.queries, List.countP_append, ← Rollout.queries, ← ht.queries]; rfl
        fallbacks := by rw [Rollout.fallbacks, List.countP_append, ← Rollout.fallbacks, ← ht.fallbacks]; rfl }

/-- The state, in terms of the calls before. -/
structure Stands (s : RolloutState) (flags : RolloutFeatureFlags) (c : RolloutPolicyController) (calls : List Call) : Prop where
  counts : Counts c.telemetry calls
  enforced : Enforced s calls → c.state = .rollbackEnforced ∧ c.flags = .disabled
  free : ¬ Enforced s calls → c.flags = flags ∧ c.state = if .promoteToRollout ∈ calls then .rolloutActive else s

theorem Counts.other {t : RolloutTelemetry} {calls : List Call} (ht : Counts t calls) {call : Call} (h : call.query = none) :
    Counts t (calls ++ [call]) where
  maxAllowed := ht.maxAllowed
  maxRatio := ht.maxRatio
  queries := by
    rw [ht.queries, Rollout.queries, Rollout.queries, List.countP_append, List.countP_singleton, h]
    rfl
  fallbacks := by
    rw [ht.fallbacks, Rollout.fallbacks, Rollout.fallbacks, List.countP_append, List.countP_singleton, h]
    rfl

/-- A controller that is not rolled back asks whether it is safe exactly when it was promoted or began in use. -/
theorem guarded_iff {s : RolloutState} {calls : List Call} :
    ((if .promoteToRollout ∈ calls then .rolloutActive else s : RolloutState) = .rolloutActive ∨
      (if .promoteToRollout ∈ calls then .rolloutActive else s : RolloutState) = .canaryExperimental) ↔
      (s = .rolloutActive ∨ s = .canaryExperimental ∨ .promoteToRollout ∈ calls) := by
  by_cases hmem : Call.promoteToRollout ∈ calls
  · rw [if_pos hmem]
    exact iff_of_true (Or.inl rfl) (Or.inr (Or.inr hmem))
  · rw [if_neg hmem, or_iff_left hmem]

variable {s : RolloutState} {flags : RolloutFeatureFlags} {c : RolloutPolicyController} {calls : List Call}

theorem Stands.still (h : Stands s flags c calls) {t : RolloutTelemetry} {call : Call} (ht : Counts t (calls ++ [call]))
    (hcall : ¬ Enforces s calls call) (hpromote : call ≠ .promoteToRollout) :
    Stands s flags { c with telemetry := t } (calls ++ [call]) where
  counts := ht
  enforced henf := h.enforced ((enforced_append.1 henf).resolve_right hcall)
  free hfree := by
    have hno : ¬ Enforced s calls := fun henf => hfree (enforced_append.2 (Or.inl henf))
    have hmem : .promoteToRollout ∈ calls ++ [call] ↔ .promoteToRollout ∈ calls := by
      rw [List.mem_append, List.mem_singleton, or_iff_left (Ne.symm hpromote)]
    refine ⟨(h.free hno).1, (h.free hno).2.trans ?_⟩
    exact if_congr hmem.symm rfl rfl

theorem stands_enforced {call : Call} (ht : Counts c.telemetry (calls ++ [call])) (hcall : Enforces s calls call)
    (hstate : c.state = .rollbackEnforced) (hflags : c.flags = .disabled) : Stands s flags c (calls ++ [call]) where
  counts := ht
  enforced _ := ⟨hstate, hflags⟩
  free hfree := absurd (enforced_append.2 (Or.inr hcall)) hfree

/-- **What one call does.** -/
theorem stands_step (hs : s ≠ .rollbackEnforced) (hlen : calls.length < 2 ^ 50) (h : Stands s flags c calls) (call : Call) :
    Stands s flags (step c call) (calls ++ [call]) := by
  cases call with
  | recordQuery usedFallback opName reason => exact h.still (h.counts.recordQuery usedFallback opName reason) id nofun
  | enforceRollback reason => exact @stands_enforced s flags _ calls (.enforceRollback reason) (h.counts.other rfl) trivial rfl rfl
  | evaluateSafetyGuard =>
    have ht : Counts c.telemetry (calls ++ [.evaluateSafetyGuard]) := h.counts.other rfl
    show Stands s flags c.evaluateSafetyGuard.1 _
    unfold RolloutPolicyController.evaluateSafetyGuard
    by_cases henf : Enforced s calls
    · -- no state is left that would be asked
      rw [if_neg (by rw [(h.enforced henf).1]; exact fun h => by rcases h with h | h <;> cases h)]
      exact
        { counts := ht, enforced := fun _ => h.enforced henf
          free := fun hfree => absurd (enforced_append.2 (Or.inl henf)) hfree }
    · have hstate := (h.free henf).2
      by_cases hguard : s = .rolloutActive ∨ s = .canaryExperimental ∨ .promoteToRollout ∈ calls
      · rw [if_pos (by rw [hstate]; exact guarded_iff.2 hguard)]
        by_cases hbreach : Breached calls
        · rw [if_pos ((shouldTriggerRollback_iff h.counts hlen).2 hbreach)]
          exact @stands_enforced s flags _ calls .evaluateSafetyGuard ht ⟨hguard, hbreach⟩ rfl rfl
        · rw [if_neg (fun ht => hbreach ((shouldTriggerRollback_iff h.counts hlen).1 ht))]
          exact h.still ht (fun hcall => hbreach hcall.2) nofun
      · rw [if_neg (by rw [hstate]; exact fun h => hguard (guarded_iff.1 h))]
        exact h.still ht (fun hcall => hguard hcall.1) nofun
  | promoteToRollout =>
    have ht : Counts c.telemetry (calls ++ [.promoteToRollout]) := h.counts.other rfl
    show Stands s flags c.promoteToRollout _
    unfold RolloutPolicyController.promoteToRollout
    by_cases henf : Enforced s calls
    · rw [if_neg (not_not.2 (h.enforced henf).1)]
      exact
        { counts := ht, enforced := fun _ => h.enforced henf
          free := fun hfree => absurd (enforced_append.2 (Or.inl henf)) hfree }
    · obtain ⟨hflags, hstate⟩ := h.free henf
      have hno : c.state ≠ .rollbackEnforced := by
        rw [hstate]
        split
        · exact nofun
        · exact hs
      rw [if_pos hno]
      exact
        { counts := ht
          enforced := fun henf' => absurd ((enforced_append.1 henf').resolve_right id) henf
          free := fun _ => ⟨hflags, (if_pos (List.mem_append_right calls List.mem_cons_self)).symm⟩ }

def start (s : RolloutState) (flags : RolloutFeatureFlags) : RolloutPolicyController := { state := s, flags := flags }

theorem stands_run (hs : s ≠ .rollbackEnforced) : ∀ calls : List Call, calls.length < 2 ^ 50 →
    Stands s flags (run (start s flags) calls) calls := by
  intro calls
  induction calls using List.reverseRecOn with
  | nil =>
    intro _
    have hno : ¬ Enforced s [] := by
      rintro ⟨pre, call, post, heq, -⟩
      exact absurd heq.symm (List.append_ne_nil_of_right_ne_nil pre (List.cons_ne_nil call post))
    exact
      { counts := ⟨rfl, rfl, rfl, rfl⟩, enforced := fun henf => absurd henf hno
        free := fun _ => ⟨rfl, (if_neg List.not_mem_nil).symm⟩ }
  | append_singleton calls call ih =>
    intro hlen
    rw [List.length_append, List.length_singleton] at hlen
    have hlt : calls.length < 2 ^ 50 := by omega
    have h := stands_step hs hlt (ih hlt) call
    rw [run, List.foldl_append]
    exact h

/-- **After which calls a rollback is in force**: after one that demands it, or a question for safety after the promotion
at which the fallbacks were more than ten, or more than a twentieth of twenty queries or more.  Then each feature is off for
good; otherwise the features are those of the start. -/
theorem run_enforced_iff (hs : s ≠ .rollbackEnforced) (hlen : calls.length < 2 ^ 50) :
    ((run (start s flags) calls).state = .rollbackEnforced ↔ Enforced s calls) ∧
      ((run (start s flags) calls).state = .rollbackEnforced → (run (start s flags) calls).flags = .disabled) ∧
      ((run (start s flags) calls).state ≠ .rollbackEnforced → (run (start s flags) calls).flags = flags) := by
  have h : Stands s flags (run (start s flags) calls) calls := stands_run hs calls hlen
  have hiff : (run (start s flags) calls).state = .rollbackEnforced ↔ Enforced s calls := by
    refine ⟨fun hstate => ?_, fun henf => (h.enforced henf).1⟩
    by_contra henf
    rw [(h.free henf).2] at hstate
    split at hstate
    · cases hstate
    · exact hs hstate
  exact ⟨hiff, fun hstate => (h.enforced (hiff.1 hstate)).2, fun hstate => (h.free (fun henf => hstate (hiff.2 henf))).1⟩

def fewQueries : List Call :=
  .promoteToRollout :: (List.replicate 2 (.recordQuery true [] []) ++ List.replicate 18 (.recordQuery false [] []))

theorem run_enforced_iff_few :
    (run (start .defaultBaseline {}) (fewQueries ++ [.evaluateSafetyGuard])).state = .rollbackEnforced :=
  (@run_enforced_iff .defaultBaseline {} _ (by decide) (by decide)).1.2
    ⟨fewQueries, .evaluateSafetyGuard, [], rfl, Or.inr (Or.inr List.mem_cons_self), Or.inr (by decide)⟩

end Pergrep.Rollout
