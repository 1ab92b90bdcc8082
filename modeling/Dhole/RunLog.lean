import Dhole.Dynamic

/-! The log of a run and what the scheduler reads out of it. A run is nothing but its
events: the fold of the log says which attempt of a step was dispatched last, what its
verdict is and which fragments grew the graph, and the plan of a pass is computed from
that fold alone. An append that would break one of the log's unique indices is silently
no append. -/

namespace Dhole

open Dag List FirstMatch
open Function (update)

/-! ### Events -/

inductive Phase where
  | unspecified
  | accepted
  | running
  | succeeded
  | failed
  | cancelled
deriving DecidableEq

structure OutputRef where
  port : String
  digest : Option Digest := none
  key : String := ""
  sizeBytes : UInt64 := 0
deriving DecidableEq

structure Dispatched where
  fence : ℕ
  cacheHit : Bool := false
deriving DecidableEq

/-- The type of an event with the part of its payload that is read back. -/
inductive Payload where
  | runCreated (pipelineID revisionID : String)
  | stepDispatched (d : Dispatched)
  | stepSucceeded (outputs : List OutputRef)
  | stepFailed
  | stepAttemptLost (fence : ℕ)
  | stepAwaitingReplay
  | stepAwaitingTimer (dueAt : ℤ)
  | stepAwaitingApproval (parks : Bool)
  | stepApprovalDecided (approved : Bool)
  | stepTimerFired
  | stepResumed
  | stepPolicyDenied
  | stepSecretUnavailable
  | stepUnschedulable (reason : String)
  | stepWaiting (cause : String)
  | fragmentRealised (fragment : Pipeline)
  | fragmentRefused
  | loopRecord
  | runFailed (steps : List String)
  | runCompleted
  | runCancelled
deriving DecidableEq

structure Event where
  stepID : String := ""
  attempt : ℕ := 0
  payload : Payload
  at_ : ℤ
deriving DecidableEq

abbrev Log := List Event

def Payload.closesRun : Payload → Bool
  | .runCompleted | .runFailed _ | .runCancelled => true
  | _ => false

/-- Nothing of a step's attempts, verdict or gate and nothing of the graph depends on it. -/
def Payload.inert : Payload → Bool
  | .stepAwaitingReplay | .stepPolicyDenied | .stepSecretUnavailable | .stepUnschedulable _
  | .stepWaiting _ | .fragmentRefused | .loopRecord | .runFailed _ | .runCompleted
  | .runCancelled => true
  | _ => false

inductive OnceType where
  | awaitingReplay
  | policyDenied
  | awaitingTimer
  | secretUnavailable
deriving DecidableEq

def Payload.onceType? : Payload → Option OnceType
  | .stepAwaitingReplay => some .awaitingReplay
  | .stepPolicyDenied => some .policyDenied
  | .stepAwaitingTimer _ => some .awaitingTimer
  | .stepSecretUnavailable => some .secretUnavailable
  | _ => none

/-- The event meets one of the partial unique indices of the log. -/
def Event.conflicts (log : Log) (e : Event) : Bool :=
  (e.payload.closesRun && log.any fun d => d.payload.closesRun) ||
    (e.payload.onceType?.isSome &&
      log.any fun d => d.stepID = e.stepID && d.payload.onceType? = e.payload.onceType?)

def Log.append (log : Log) (e : Event) : Log := if e.conflicts log then log else log ++ [e]

def Log.appendAll (log : Log) (events : List Event) : Log := events.foldl Log.append log

variable {log : Log} {es : List Event}

theorem Log.appendAll_nil (log : Log) : log.appendAll [] = log := rfl

theorem Log.appendAll_cons (log : Log) (e : Event) (es : List Event) :
    log.appendAll (e :: es) = (log.append e).appendAll es := rfl

theorem Log.append_cases (log : Log) (e : Event) : log.append e = log ∨ log.append e = log ++ [e] := by
  unfold Log.append
  split
  · exact .inl rfl
  · exact .inr rfl

theorem Log.appendAll_induction {I : Log → Prop} (hlo : I log)
    (hs : ∀ l e, e ∈ es → log <+: l → I l → I (l ++ [e])) : I (log.appendAll es) := by
  suffices ∀ l, log <+: l → I l → ∀ rest ⊆ es, I (rest.foldl Log.append l) from
    this log prefix_rfl hlo es (Subset.refl _)
  intro l hl hI rest hr
  induction rest generalizing l with
  | nil => exact hI
  | cons e rest ih =>
    obtain ⟨he, hr⟩ := cons_subset.mp hr
    rw [foldl_cons]
    rcases Log.append_cases l e with heq | heq
    · rw [heq]
      exact ih l hl hI hr
    · rw [heq]
      exact ih _ (hl.trans (prefix_append _ _)) (hs l e he hl hI) hr

theorem Log.prefix_appendAll (log : Log) (es : List Event) : log <+: log.appendAll es :=
  Log.appendAll_induction prefix_rfl
    fun _ _ _ hl _ => hl.trans (prefix_append _ _)

theorem Log.mem_appendAll {e : Event} (h : e ∈ log.appendAll es) : e ∈ log ∨ e ∈ es :=
  Log.appendAll_induction (I := fun l => e ∈ l → e ∈ log ∨ e ∈ es) .inl
    (fun l d hd _ ih he => (mem_append.mp he).elim ih fun he => by
      obtain rfl : e = d := by simpa using he
      exact .inr hd) h

theorem Log.append_of_unindexed {e : Event} (hc : e.payload.closesRun = false)
    (ho : e.payload.onceType? = none) (log : Log) : log.append e = log ++ [e] := by
  simp [Log.append, Event.conflicts, hc, ho]

theorem Log.filterMap_appendAll {β : Type} {f : Event → Option β}
    (hf : ∀ e, f e ≠ none → e.payload.closesRun = false ∧ e.payload.onceType? = none)
    (log : Log) (es : List Event) :
    (log.appendAll es).filterMap f = log.filterMap f ++ es.filterMap f := by
  induction es generalizing log with
  | nil => simp [Log.appendAll]
  | cons e es ih =>
    rw [Log.appendAll_cons, ih]
    by_cases he : f e = none
    · rcases Log.append_cases log e with heq | heq <;> simp [heq, he]
    · rw [Log.append_of_unindexed (hf e he).1 (hf e he).2]
      obtain ⟨b, hb⟩ := Option.ne_none_iff_exists'.mp he
      simp [hb]

def Log.Along (P : Log → Event → Prop) (log : Log) : Prop := ∀ l e, l ++ [e] <+: log → P l e

variable {P : Log → Event → Prop} {e : Event}

theorem Log.along_nil : Log.Along P [] := fun l e hl => absurd (prefix_nil.mp hl) (by simp)

theorem Log.Along.snoc (h : log.Along P) (he : P log e) : Log.Along P (log ++ [e]) := by
  intro l d hl
  rcases prefix_concat_iff.mp hl with heq | hl
  · obtain ⟨rfl, hd⟩ := append_inj' heq rfl
    obtain rfl : d = e := by simpa using hd
    exact he
  · exact h l d hl

theorem Log.Along.append (h : log.Along P) (he : P log e) : (log.append e).Along P := by
  rcases Log.append_cases log e with heq | heq
  · rwa [heq]
  · rw [heq]
    exact h.snoc he

theorem Log.Along.appendAll (h : log.Along P) (hev : ∀ l, ∀ e ∈ es, P l e) :
    (log.appendAll es).Along P :=
  Log.appendAll_induction h fun l e he _ hl => hl.snoc (hev l e he)

theorem Log.Along.of_prefix {l : Log} (h : log.Along P) (hl : l <+: log) : l.Along P :=
  fun l' e hle => h l' e (hle.trans hl)

/-! ### The fold -/

inductive Verdict where
  | succeeded
  | failed
deriving DecidableEq

structure Realised where
  generator : String
  fragment : Pipeline
deriving DecidableEq

/-- What a pass knows of a run. A step that a map does not hold reads as the zero value. -/
structure RunState where
  created : Bool := false
  pipelineID : String := ""
  revisionID : String := ""
  completed : Bool := false
  attempts : String → ℕ := fun _ => 0
  fences : String → ℕ := fun _ => 0
  terminal : String → Option Verdict := fun _ => none
  outputs : String → List OutputRef := fun _ => []
  unschedulable : String → String := fun _ => ""
  waiting : String → String := fun _ => ""
  failedAt : String → Option ℤ := fun _ => none
  awaiting : String → Bool := fun _ => false
  cacheHit : String → Bool := fun _ => false
  gated : String → Bool := fun _ => false
  resumed : String → Bool := fun _ => false
  fragments : List Realised := []

namespace RunState

def foldDispatched (s : RunState) (id : String) (attempt : ℕ) (d : Dispatched) : RunState :=
  let attempts := update s.attempts id (max (s.attempts id) attempt)
  { s with
    attempts
    fences := if attempt = attempts id then update s.fences id d.fence else s.fences
    cacheHit := update s.cacheHit id d.cacheHit
    terminal := update s.terminal id none
    resumed := update s.resumed id false
    unschedulable := update s.unschedulable id ""
    waiting := update s.waiting id "" }

def fold (s : RunState) (e : Event) : RunState :=
  match e.payload with
  | .runCreated pipelineID revisionID => { s with created := true, pipelineID, revisionID }
  | .stepDispatched d => s.foldDispatched e.stepID e.attempt d
  | .stepSucceeded outputs =>
    { s with
      terminal := update s.terminal e.stepID (some .succeeded)
      outputs := update s.outputs e.stepID outputs }
  | .stepFailed =>
    { s with
      terminal := update s.terminal e.stepID (some .failed)
      failedAt := update s.failedAt e.stepID (some e.at_) }
  | .stepAttemptLost _ =>
    if e.attempt ≥ s.attempts e.stepID then
      { s with terminal := update s.terminal e.stepID (some .failed) }
    else s
  | .stepAwaitingReplay => { s with awaiting := update s.awaiting e.stepID true }
  | .stepAwaitingTimer _ | .stepAwaitingApproval _ =>
    { s with gated := update s.gated e.stepID true }
  | .stepResumed =>
    { s with
      gated := update s.gated e.stepID false
      resumed := update s.resumed e.stepID true }
  | .runFailed _ | .runCompleted | .runCancelled => { s with completed := true }
  | .fragmentRealised fragment => { s with fragments := s.fragments ++ [⟨e.stepID, fragment⟩] }
  | .stepUnschedulable reason =>
    { s with unschedulable := update s.unschedulable e.stepID reason }
  | .stepWaiting cause => { s with waiting := update s.waiting e.stepID cause }
  | .stepApprovalDecided _ | .stepTimerFired | .stepPolicyDenied | .stepSecretUnavailable
  | .fragmentRefused | .loopRecord => s

def ofLog (log : Log) : RunState := log.foldl fold {}

@[simp] theorem ofLog_nil : ofLog [] = {} := rfl

theorem ofLog_append (log es : Log) : ofLog (log ++ es) = es.foldl fold (ofLog log) :=
  foldl_append

@[simp] theorem ofLog_snoc (log : Log) (e : Event) : ofLog (log ++ [e]) = (ofLog log).fold e := by
  rw [ofLog_append]
  rfl

end RunState

def Event.dispatchedAttempt? (stepID : String) (e : Event) : Option ℕ :=
  match e.payload with
  | .stepDispatched _ => if e.stepID = stepID then some e.attempt else none
  | _ => none

def dispatchedAttempts (log : Log) (stepID : String) : List ℕ :=
  log.filterMap (Event.dispatchedAttempt? stepID)

theorem dispatchedAttempts_append (log es : Log) (sid : String) :
    dispatchedAttempts (log ++ es) sid = dispatchedAttempts log sid ++ dispatchedAttempts es sid :=
  filterMap_append

theorem dispatchedAttempts_appendAll (log es : Log) (sid : String) :
    dispatchedAttempts (log.appendAll es) sid =
      dispatchedAttempts log sid ++ dispatchedAttempts es sid := by
  refine Log.filterMap_appendAll (fun e he => ?_) log es
  obtain ⟨id, attempt, pa, at_⟩ := e
  cases pa <;> first | exact ⟨rfl, rfl⟩ | exact absurd rfl he

theorem RunState.fold_attempts (s : RunState) (e : Event) (sid : String) : (s.fold e).attempts sid =
      (e.dispatchedAttempt? sid).elim (s.attempts sid) (max (s.attempts sid)) := by
  obtain ⟨id, attempt, pa, at_⟩ := e
  cases pa with
  | stepDispatched d =>
    by_cases hid : id = sid
    · subst hid
      simp [fold, foldDispatched, Event.dispatchedAttempt?]
    · simp [fold, foldDispatched, Event.dispatchedAttempt?, hid, Function.update_of_ne (Ne.symm hid)]
  | stepAttemptLost fe =>
    simp only [fold]
    split <;> rfl
  | _ => rfl

theorem attempts_ofLog (log : Log) (sid : String) :
    (RunState.ofLog log).attempts sid = (dispatchedAttempts log sid).foldl max 0 := by
  induction log using reverseRecOn with
  | nil => rfl
  | append_singleton log e ih =>
    rw [RunState.ofLog_snoc, RunState.fold_attempts, dispatchedAttempts_append, foldl_append, ← ih]
    cases h : e.dispatchedAttempt? sid <;> simp [dispatchedAttempts, h]

theorem le_attempts_of_mem {log : Log} {sid : String} {n : ℕ}
    (h : n ∈ dispatchedAttempts log sid) : n ≤ (RunState.ofLog log).attempts sid := by
  rw [attempts_ofLog]
  generalize dispatchedAttempts log sid = ns at h
  have hf : ∀ m, m ≤ ns.foldl max m ∧ ∀ n ∈ ns, n ≤ ns.foldl max m := by
    clear h
    induction ns with
    | nil => simp
    | cons k ns ih =>
      intro m
      obtain ⟨hle, hm⟩ := ih (max m k)
      refine ⟨(le_max_left m k).trans hle, fun n hn => ?_⟩
      rcases mem_cons.mp hn with rfl | hn
      · exact (le_max_right m n).trans hle
      · exact hm n hn
  exact (hf 0).2 n h

theorem attempts_mem {log : Log} {sid : String} (h : (RunState.ofLog log).attempts sid ≠ 0) :
    (RunState.ofLog log).attempts sid ∈ dispatchedAttempts log sid := by
  rw [attempts_ofLog] at h ⊢
  generalize dispatchedAttempts log sid = ns at h ⊢
  have hf : ∀ m, ns.foldl max m = m ∨ ns.foldl max m ∈ ns := by
    clear h
    induction ns with
    | nil => simp
    | cons k ns ih =>
      intro m
      rw [foldl_cons]
      rcases ih (max m k) with heq | hme
      · rw [heq]
        rcases max_choice m k with hm | hk
        · exact .inl hm
        · rw [hk]
          exact .inr mem_cons_self
      · exact .inr (mem_cons_of_mem _ hme)
  rcases hf 0 with heq | hme
  · exact absurd heq h
  · exact hme

/-! ### The last word on a step -/

/-- The event says how the step stands: that it is dispatched, or that it is over. The loss of an
attempt behind one that was dispatched says nothing. -/
def Speaks (id : String) (log : Log) (e : Event) : Prop :=
  e.stepID = id ∧ match e.payload with
    | .stepDispatched _ | .stepSucceeded _ | .stepFailed => True
    | .stepAttemptLost _ => ∀ n ∈ dispatchedAttempts log id, n ≤ e.attempt
    | _ => False

def Payload.verdict? : Payload → Option Verdict
  | .stepSucceeded _ => some .succeeded
  | .stepFailed | .stepAttemptLost _ => some .failed
  | _ => none

def LastWord (log : Log) (id : String) (e : Event) : Prop := LastPick (Speaks id) log e

section LastWord

variable {log : Log} {id : String} {e : Event}

theorem attempts_le_iff {n : ℕ} :
    (RunState.ofLog log).attempts id ≤ n ↔ ∀ m ∈ dispatchedAttempts log id, m ≤ n := by
  refine ⟨fun h m hm => (le_attempts_of_mem hm).trans h, fun h => ?_⟩
  by_cases hz : (RunState.ofLog log).attempts id = 0
  · omega
  · exact h _ (attempts_mem hz)

theorem fold_of_speaks (h : Speaks id log e) :
    ((RunState.ofLog log).fold e).terminal id = e.payload.verdict? ∧
      ∀ o, e.payload = .stepSucceeded o → ((RunState.ofLog log).fold e).outputs id = o := by
  obtain ⟨sid, att, pa, at_⟩ := e
  obtain ⟨rfl, h⟩ := h
  cases pa with
  | stepAttemptLost fe => simp [RunState.fold, Payload.verdict?, attempts_le_iff.mpr h]
  | stepDispatched | stepSucceeded | stepFailed =>
    simp [RunState.fold, RunState.foldDispatched, Payload.verdict?]
  | _ => exact h.elim

theorem fold_of_not_speaks (h : ¬ Speaks id log e) :
    ((RunState.ofLog log).fold e).terminal id = (RunState.ofLog log).terminal id ∧
      ((RunState.ofLog log).fold e).outputs id = (RunState.ofLog log).outputs id := by
  obtain ⟨sid, att, pa, at_⟩ := e
  cases pa with
  | stepAttemptLost fe =>
    simp only [RunState.fold]
    split
    · rename_i hle
      have hid : id ≠ sid := fun heq => h ⟨heq.symm, attempts_le_iff.mp (heq ▸ hle)⟩
      exact ⟨Function.update_of_ne hid _ _, rfl⟩
    · exact ⟨rfl, rfl⟩
  | stepDispatched | stepSucceeded | stepFailed =>
    have hid : id ≠ sid := fun heq => h ⟨heq.symm, trivial⟩
    simp [RunState.fold, RunState.foldDispatched, Function.update_of_ne hid]
  | _ => exact ⟨rfl, rfl⟩

theorem terminal_iff_lastWord {v : Verdict} : (RunState.ofLog log).terminal id = some v ↔
    ∃ d, LastWord log id d ∧ d.payload.verdict? = some v := by
  induction log using reverseRecOn with
  | nil => simp [LastWord, not_lastPick_nil]
  | append_singleton log e ih =>
    simp only [LastWord, lastPick_concat]
    by_cases h : Speaks id log e
    · simp [h, (fold_of_speaks h).1]
    · simp [h, (fold_of_not_speaks h).1, ih, LastWord]

theorem outputs_of_lastWord {o : List OutputRef} (h : LastWord log id e)
    (he : e.payload = .stepSucceeded o) : (RunState.ofLog log).outputs id = o := by
  induction log using reverseRecOn with
  | nil => exact absurd h not_lastPick_nil
  | append_singleton log d ih =>
    rw [RunState.ofLog_snoc]
    obtain ⟨hs, rfl⟩ | ⟨hs, h⟩ := lastPick_concat.mp h
    · exact (fold_of_speaks hs).2 o he
    · rw [(fold_of_not_speaks hs).2, ih h]

end LastWord

/-- The state of a run that was created; a log without its first event is an error. -/
def load (log : Log) : Option RunState :=
  if (RunState.ofLog log).created then some (RunState.ofLog log) else none

theorem load_eq_some {log : Log} {st : RunState} (h : load log = some st) :
    st = RunState.ofLog log ∧ (RunState.ofLog log).created = true := by
  unfold load at h
  split at h
  · rename_i hc
    exact ⟨(Option.some.inj h).symm, hc⟩
  · cases h

def spliceRealised : Pipeline → List Realised → Option Pipeline
  | p, [] => some p
  | p, r :: fragments =>
    match Dynamic.splice (some p) r.generator (some r.fragment) with
    | .ok next => spliceRealised next fragments
    | .error _ => none

theorem spliceRealised_cons {p q : Pipeline} {r : Realised} {fs : List Realised}
    (h : spliceRealised p (r :: fs) = some q) :
    ∃ next, Dynamic.splice (some p) r.generator (some r.fragment) = .ok next ∧
      spliceRealised next fs = some q := by
  rw [spliceRealised] at h
  split at h
  · exact ⟨_, ‹_›, h⟩
  · cases h

/-! ### Retries -/

namespace Effects

structure Policy where
  maxAttempts : ℕ
  backoff : ℤ
  requiresIdempotencyKey : Bool := false
  requiresExclusiveLease : Bool := false
deriving DecidableEq

def second : ℤ := 1000000000

def atMostOnce : Policy where
  maxAttempts := 1
  backoff := 0
  requiresIdempotencyKey := true
  requiresExclusiveLease := true

def retryPolicy (step : Step) : Policy :=
  if step.effectClass = .pure then { maxAttempts := 3, backoff := 5 * second }
  else if step.effectClass = .idempotent then
    { maxAttempts := 3, backoff := 15 * second, requiresIdempotencyKey := true }
  else atMostOnce

def Policy.allowsRetry (p : Policy) (attempts : ℕ) : Bool :=
  decide (p.maxAttempts > 1) && decide (attempts < p.maxAttempts)

def maxBackoff : ℤ := 5 * 60 * second

/-- The doublings of the wait, cut off at the ceiling. -/
def doubled : ℕ → ℤ → ℤ
  | 0, wait => if wait > maxBackoff then maxBackoff else wait
  | n + 1, wait => if wait * 2 ≥ maxBackoff then maxBackoff else doubled n (wait * 2)

/-- The count of doublings is a `uint32` difference, so no attempt at all wraps round. -/
def backoff (p : Policy) (attempt : ℕ) : ℤ :=
  if p.backoff ≤ 0 then 0 else doubled ((attempt + (2 ^ 32 - 1)) % 2 ^ 32) p.backoff

theorem retryPolicy_maxAttempts_pos (step : Step) : 1 ≤ (retryPolicy step).maxAttempts := by
  unfold retryPolicy atMostOnce
  split_ifs <;> decide

end Effects

/-! ### The plan of a pass -/

open Effects

structure Planned where
  ready : List Step := []
  inFlight : ℕ := 0
  waiting : ℕ := 0
  blocked : List Step := []
  exhausted : List String := []

namespace Planned

/-- What becomes of a step whose last attempt failed. -/
def classify (out : Planned) (step : Step) (state : RunState) (now : ℤ) : Planned :=
  let retry := retryPolicy step
  let attempts := state.attempts step.id
  if !retry.allowsRetry attempts then
    if retry.maxAttempts ≤ 1 then { out with blocked := out.blocked ++ [step] }
    else { out with exhausted := out.exhausted ++ [step.id] }
  else
    match state.failedAt step.id with
    | some failedAt =>
      if now < failedAt + backoff retry attempts then { out with waiting := out.waiting + 1 }
      else { out with ready := out.ready ++ [step] }
    | none => { out with ready := out.ready ++ [step] }

/-- Only a step that was never tried looks at its predecessors. -/
def step (predecessors : String → List String) (state : RunState) (now : ℤ) (out : Planned)
    (step : Step) : Planned :=
  match state.terminal step.id with
  | some .succeeded => out
  | some .failed => out.classify step state now
  | none =>
    if state.gated step.id then { out with waiting := out.waiting + 1 }
    else if state.resumed step.id then { out with ready := out.ready ++ [step] }
    else if state.attempts step.id > 0 then { out with inFlight := out.inFlight + 1 }
    else if (predecessors step.id).all fun pred => state.terminal pred = some .succeeded then
      { out with ready := out.ready ++ [step] }
    else out

end Planned

def predecessorsOf (p : Pipeline) (g : Graph) (id : String) : List String :=
  (p.steps.map Step.id).filter fun pred => (g.dependents pred).contains id

def plan (p : Pipeline) (g : Graph) (state : RunState) (now : ℤ) : Planned :=
  let out := p.steps.foldl (Planned.step (predecessorsOf p g) state now) {}
  { out with ready := out.ready.insertionSort fun a b => a.id ≤ b.id }

/-- Why a step is ready: it failed and may be tried again, it was let go on, or it was
never tried and its predecessors have succeeded. -/
def Startable (predecessors : List String) (state : RunState) (step : Step) : Prop :=
  (state.terminal step.id = some .failed ∧
      (retryPolicy step).allowsRetry (state.attempts step.id) = true) ∨
    (state.terminal step.id = none ∧ state.resumed step.id = true) ∨
    (state.terminal step.id = none ∧ state.attempts step.id = 0 ∧
      ∀ pred ∈ predecessors, state.terminal pred = some .succeeded)

variable {p : Pipeline} {g : Graph} {st : RunState} {now : ℤ} {s : Step}

theorem Planned.mem_ready_classify {out : Planned} {step : Step}
    (h : s ∈ (out.classify step st now).ready) : s ∈ out.ready ∨ (s = step ∧
      (retryPolicy step).allowsRetry (st.attempts step.id) = true) := by
  unfold classify at h
  dsimp only at h
  split at h
  · split at h <;> exact .inl h
  · rename_i hr
    have hal : (retryPolicy step).allowsRetry (st.attempts step.id) = true := by
      simpa using hr
    have ha : s ∈ out.ready ++ [step] → s ∈ out.ready ∨ (s = step ∧
        (retryPolicy step).allowsRetry (st.attempts step.id) = true) := fun hs =>
      (mem_append.mp hs).imp_right fun hs => ⟨by simpa using hs, hal⟩
    split at h
    · split at h
      · exact .inl h
      · exact ha h
    · exact ha h

theorem Planned.mem_ready_step {predecessors : String → List String} {out : Planned} {step : Step}
    (h : s ∈ (Planned.step predecessors st now out step).ready) :
    s ∈ out.ready ∨ (s = step ∧ Startable (predecessors step.id) st step) := by
  unfold Planned.step at h
  split at h
  · exact .inl h
  · rename_i hf
    exact (mem_ready_classify h).imp_right fun ⟨hs, ha⟩ => ⟨hs, .inl ⟨hf, ha⟩⟩
  · rename_i hn
    split at h
    · exact .inl h
    split at h
    · rename_i hr
      exact (mem_append.mp h).imp_right fun hs =>
        ⟨by simpa using hs, .inr (.inl ⟨hn, hr⟩)⟩
    split at h
    · exact .inl h
    split at h
    · rename_i hd
      refine (mem_append.mp h).imp_right fun hs =>
        ⟨by simpa using hs, .inr (.inr ⟨hn, by omega, fun pred hp => ?_⟩)⟩
      simpa using all_eq_true.mp hd pred hp
    · exact .inl h

theorem mem_ready (h : s ∈ (plan p g st now).ready) :
    s ∈ p.steps ∧ Startable (predecessorsOf p g s.id) st s := by
  have hr : ∀ (steps : List Step) (out : Planned),
      s ∈ (steps.foldl (Planned.step (predecessorsOf p g) st now) out).ready →
      s ∈ out.ready ∨ (s ∈ steps ∧ Startable (predecessorsOf p g s.id) st s) := by
    intro steps
    induction steps with
    | nil => exact fun out hs => .inl hs
    | cons step steps ih =>
      intro out hs
      rcases ih _ hs with hs | ⟨hs, hst⟩
      · rcases Planned.mem_ready_step hs with hs | ⟨rfl, hst⟩
        · exact .inl hs
        · exact .inr ⟨mem_cons_self, hst⟩
      · exact .inr ⟨mem_cons_of_mem _ hs, hst⟩
  rcases hr p.steps {} ((mem_insertionSort _).mp h) with hs | hs
  · cases hs
  · exact hs

theorem mem_predecessorsOf (h : build (some p) = .ok g) {pred id : String} :
    pred ∈ predecessorsOf p g id ↔ ∃ e ∈ p.edges, e.fromStep = pred ∧ e.toStep = id := by
  obtain ⟨-, hen, hd⟩ := build_ok h
  simp only [predecessorsOf, mem_filter, contains_iff_mem, hd]
  constructor
  · exact fun h => h.2
  · rintro ⟨e, he, rfl, rfl⟩
    exact ⟨(hen e he).1, e, he, rfl, rfl⟩

end Dhole
