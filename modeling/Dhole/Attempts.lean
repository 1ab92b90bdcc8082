import Dhole.Outbox

/-! How often a step is tried. Nothing stores the bound: an attempt is the next one after
those of some part of the log, and in a log where no step was let go on after a wait a part
makes it ready only for a step that was never tried, or whose last attempt failed while its
retry policy still allowed another. -/

namespace Dhole.System

open Interleave Prog Plane Lease Scheduler Effects List

def NoneResumed (log : Log) : Prop := ∀ e ∈ log, e.payload ≠ .stepResumed

instance (log : Log) : Decidable (NoneResumed log) := inferInstanceAs (Decidable (∀ e ∈ log, _))

variable {D : Definitions} {As : ℕ → Actor} {tr : History} {log l : Log} {c : StepKey}
  {step : Step} {att : ℕ} {id tid rid : String}

theorem NoneResumed.of_prefix (h : NoneResumed log) (hl : l <+: log) : NoneResumed l :=
  fun e he => h e (hl.subset he)

theorem fold_resumed {s : RunState} {e : Dhole.Event} (he : e.payload ≠ .stepResumed)
    (h : (s.fold e).resumed id = true) : s.resumed id = true := by
  obtain ⟨st, att, pa, at_⟩ := e
  cases pa with
  | stepResumed => exact absurd rfl he
  | stepDispatched d =>
    by_cases hid : id = st
    · subst hid
      simp [RunState.fold, RunState.foldDispatched] at h
    · simpa [RunState.fold, RunState.foldDispatched, Function.update_of_ne hid] using h
  | stepAttemptLost fe =>
    simp only [RunState.fold] at h
    split at h <;> exact h
  | _ => exact h

theorem NoneResumed.resumed_eq_false (h : NoneResumed log) (id : String) :
    (RunState.ofLog log).resumed id = false := by
  induction log using reverseRecOn with
  | nil => rfl
  | append_singleton log e ih =>
    have hl := ih (h.of_prefix (prefix_append _ _))
    rw [RunState.ofLog_snoc, Bool.eq_false_iff]
    intro hr
    rw [fold_resumed (h e (by simp)) hr] at hl
    cases hl

theorem Ready.le_maxAttempts (hr : Ready D log c step att) (h : NoneResumed log) :
    att ≤ (retryPolicy step).maxAttempts := by
  obtain ⟨-, p, g, -, -, -, hs, rfl, -⟩ := hr
  rcases hs with ⟨-, ha⟩ | ⟨-, hre⟩ | ⟨-, hz, -⟩
  · simp only [Policy.allowsRetry, Bool.and_eq_true, decide_eq_true_eq] at ha
    exact ha.2
  · rw [h.resumed_eq_false] at hre
    cases hre
  · rw [hz]
    exact retryPolicy_maxAttempts_pos step

theorem ChosenFrom.le_maxAttempts (hc : ChosenFrom D log c step att)
    (hlo : CreatedOnce log) (h : NoneResumed log) : att ≤ (retryPolicy step).maxAttempts := by
  have hs := hc.stepOf
  cases hc with
  | ready hr =>
    obtain ⟨l, hl, hr⟩ := hr
    exact hr.le_maxAttempts (h.of_prefix hl)
  | queued hl ho hr hli ha hg hf =>
    obtain rfl := hs.unique hlo hr.stepOf
    obtain ⟨l', hl', hr⟩ := hr
    have hle := hr.le_maxAttempts (h.of_prefix hl')
    omega

theorem dispatched_mem_Icc (htr : PlaneTrace D As tr) (hr : NoneResumed (logOf tr tid rid))
    (hs : StepOf D (logOf tr tid rid) tid id step)
    (h : att ∈ dispatchedAttempts (logOf tr tid rid) id) :
    att ∈ Finset.Icc 1 (retryPolicy step).maxAttempts := by
  have h' : att ∈ dispatchedAttempts (logOf (tr.take tr.length) tid rid) id := by
    rwa [take_length]
  obtain ⟨m, -, i, st', fe, hd, -⟩ := first_dispatched htr tr.length h'
  obtain ⟨k, l, v, hm⟩ := hd.moments
  have hc := (hm.chosenFrom htr).mono (prefix_logOf_take htr m)
  have ho := createdOnce_logOf htr tid rid
  obtain rfl := hs.unique ho hc.stepOf
  obtain ⟨l₀, -, ha⟩ := hc.attempt_eq
  exact Finset.mem_Icc.mpr ⟨by omega, hc.le_maxAttempts ho hr⟩

/-- The attempts of a step are within its policy, and a step that may not be repeated is
dispatched at most once. -/
structure BoundedAttempts (defs : Definitions) (tr : History) (tenantID runID : String) : Prop where
  bounded : ∀ id step, StepOf defs (logOf tr tenantID runID) tenantID id step →
    (dispatchedAttempts (logOf tr tenantID runID) id).toFinset.card ≤
      (retryPolicy step).maxAttempts
  once : ∀ id step, StepOf defs (logOf tr tenantID runID) tenantID id step →
    step.effectClass ≠ .pure → step.effectClass ≠ .idempotent →
    (dispatchedAttempts (logOf tr tenantID runID) id).length ≤ 1

/-- In a run where no step was resumed the attempts of every step are bounded. -/
theorem bounded_attempts (defs : Definitions) (actors : ℕ → Actor) (tr : History)
    (tenantID runID : String) (hruns : Runs defs actors tr) (hund : CommitsUndisturbed tr)
    (hresumed : NoneResumed (logOf tr tenantID runID)) :
    BoundedAttempts defs tr tenantID runID := by
  have htr := hruns.planeTrace
  have hb : ∀ id step, StepOf defs (logOf tr tenantID runID) tenantID id step →
      (dispatchedAttempts (logOf tr tenantID runID) id).toFinset.card ≤
        (retryPolicy step).maxAttempts := by
    intro id step hs
    have hsu : (dispatchedAttempts (logOf tr tenantID runID) id).toFinset ⊆
        Finset.Icc 1 (retryPolicy step).maxAttempts := fun a ha =>
      dispatched_mem_Icc htr hresumed hs (mem_toFinset.mp ha)
    simpa using Finset.card_le_card hsu
  refine ⟨hb, fun id step hs hp hi => ?_⟩
  have hn := dispatched_nodup htr hund tr.length tenantID runID id
  rw [take_length] at hn
  rw [← toFinset_card_of_nodup hn]
  have hm : (retryPolicy step).maxAttempts = 1 := by
    rw [retryPolicy, if_neg hp, if_neg hi]
    rfl
  exact hm ▸ hb id step hs

/-! ### One task at a time -/

/-- Each task runs from its first call to its last without another in between. -/
def OneAtATime (tr : History) : Prop :=
  ∀ (x y z i : ℕ) (e e' : PlaneEvent) (a : Act planeSig), x < y → y < z →
    tr[x]? = some ⟨i, e⟩ → tr[z]? = some ⟨i, e'⟩ → tr[y]? = some a → a.actor = i

theorem OneAtATime.commitsUndisturbed {tr : History} (h : OneAtATime tr) :
    CommitsUndisturbed tr := by
  rintro v n i c r fe t res - hv hn hl k hvk hkn ⟨j, res', hk, -⟩
  obtain rfl : j = i := h v k n i _ _ _ hvk hkn hv hn hk
  exact hl k _ hvk hkn hk

theorem oneAtATime_of_sorted {tr : History} (h : (tr.map Act.actor).Pairwise (· ≤ ·)) :
    OneAtATime tr := by
  intro x y z i e e' a hxy hyz hx hz hy
  have hg : ∀ {n : ℕ} {b : Act planeSig}, tr[n]? = some b →
      (tr.map Act.actor)[n]? = some b.actor := fun hn => by simp [hn]
  have hle : ∀ {n m : ℕ} {b b' : Act planeSig}, n < m → tr[n]? = some b → tr[m]? = some b' →
      b.actor ≤ b'.actor := by
    intro n m b b' hnm hn hm
    obtain ⟨hn', hb⟩ := List.getElem?_eq_some_iff.mp (hg hn)
    obtain ⟨hm', hb'⟩ := List.getElem?_eq_some_iff.mp (hg hm)
    rw [← hb, ← hb']
    exact List.pairwise_iff_getElem.mp h n m hn' hm' hnm
  exact le_antisymm (hle hyz hy hz) (hle hxy hx hy)

/-- A step that says nothing of its effects. -/
def deployOnce : Definitions := fun _ _ _ =>
  some { id := "p", steps := [{ id := "deploy", pluginRef := "oci://deploy" }] }

/-- A run is started, its engine reports a failure, and a plane advances it again. -/
def failedDeploy : ℕ → Actor
  | 0 => doing (.startRun "acme" "run" "p" "r1")
  | 1 => doing (.onStatus (some
      { runID := "run", stepID := "deploy", attempt := 1, phase := .failed
        fence := .token "acme" ⟨⟨"acme", "run", "deploy"⟩, 1⟩ }))
  | _ => doing (.advance "acme" "run")

def deployFailed : History :=
  run deployOnce failedDeploy { engines := [readyEngine] }
    (replicate 20 0 ++ replicate 20 1 ++ replicate 20 2)

theorem deployFailed_bounded : BoundedAttempts deployOnce deployFailed "acme" "run" ∧
      (RunState.ofLog (logOf deployFailed "acme" "run")).terminal "deploy" = some .failed ∧
      dispatchedAttempts (logOf deployFailed "acme" "run") "deploy" = [1] :=
  ⟨bounded_attempts deployOnce failedDeploy deployFailed "acme" "run" (run_runs _ _ _ _)
    (oneAtATime_of_sorted (by decide)).commitsUndisturbed (by decide), rfl, rfl⟩

end Dhole.System
