import Dhole.Verdicts

/-! Steps start after their predecessors. A pass looks at the predecessors of a step only when
the step was never tried; a retry and a resume follow from an event of the step itself. So a
step must not have such an event before its predecessors have succeeded: every lease, job and
queue entry goes back to a log that made the step ready, and so does every failure, loss and
gate, except the failure that a status reports for a step its fence is not for. What grows the
graph afterwards adds no edge into a step that was there. -/

namespace Dhole.System

open Interleave Prog Plane Lease Scheduler Effects List
open RunState (ofLog ofLog_snoc)

def Payload.isSuccess : Payload → Bool
  | .stepSucceeded _ => true
  | _ => false

def Payload.touches : Payload → Bool
  | .stepDispatched _ | .stepFailed | .stepAttemptLost _ | .stepAwaitingApproval _
  | .stepResumed => true
  | _ => false

def Cleared (log : Log) (p : Pipeline) (id : String) : Prop :=
  ∀ edge ∈ p.edges, edge.toStep = id →
    ∃ d ∈ log, d.stepID = edge.fromStep ∧ Payload.isSuccess d.payload = true

/-- A dispatch finds a success of every predecessor of its step, in the graph as the log has it
then. -/
def InOrder (defs : Definitions) (tenantID : String) (log : Log) (e : Dhole.Event) : Prop :=
  Event.isDispatch e = true →
    ∀ p, graphOf defs tenantID (ofLog log) = some p → Cleared log p e.stepID

/-- In the log of every run each dispatch comes after the successes of its step's
predecessors. -/
def DispatchedInOrder (defs : Definitions) (tr : History) : Prop :=
  ∀ tenantID runID, (logOf tr tenantID runID).Along (InOrder defs tenantID)

/-- A status that reports a failure names the step its fence is for. -/
def FailuresNamed (actors : ℕ → Actor) : Prop :=
  ∀ i st, (actors i).task = .onStatus (some st) → terminalEvent st = some .stepFailed →
    ∀ tenantID token, decodeFence st.fence = some (tenantID, token) →
      token.value = ⟨tenantID, st.runID, st.stepID⟩

/-! ### What a fold says of its log -/

/-- What makes a pass go on with a step: its verdict, that it was let go on, and its fence. -/
def footing (s : RunState) (id : String) : Option Verdict × Bool × ℕ :=
  (s.terminal id, s.resumed id, s.fences id)

variable {log l : Log} {id : String}

theorem footing_fold_of_ne {e : Dhole.Event} (hid : id ≠ e.stepID) (s : RunState) :
    footing (s.fold e) id = footing s id := by
  obtain ⟨sid, att, pd, at_⟩ := e
  cases pd with
  | stepDispatched d =>
    simp only [footing, RunState.fold, RunState.foldDispatched]
    split <;> simp [Function.update_of_ne hid]
  | stepAttemptLost fc =>
    simp only [footing, RunState.fold]
    split <;> simp [Function.update_of_ne hid]
  | _ => simp [footing, RunState.fold, Function.update_of_ne hid]

theorem exists_event_of_footing {P : Option Verdict × Bool × ℕ → Prop}
    (hem : ¬ P (none, false, 0)) (h : P (footing (ofLog log) id)) :
    ∃ e ∈ log, e.stepID = id ∧ ∃ s : RunState, ¬ P (footing s id) ∧ P (footing (s.fold e) id) := by
  induction log using reverseRecOn with
  | nil => exact absurd h hem
  | append_singleton log e ih =>
    by_cases hold : P (footing (ofLog log) id)
    · obtain ⟨d, hd, hs⟩ := ih hold
      exact ⟨d, mem_append_left _ hd, hs⟩
    rw [ofLog_snoc] at h
    refine ⟨e, by simp, ?_, _, hold, h⟩
    by_contra hid
    rw [footing_fold_of_ne (Ne.symm hid)] at h
    exact hold h

theorem mem_of_succeeded (h : (ofLog log).terminal id = some .succeeded) :
    ∃ d ∈ log, d.stepID = id ∧ Payload.isSuccess d.payload = true := by
  obtain ⟨d, hd, rfl, s, hno, hn⟩ :=
    exists_event_of_footing (P := fun f => f.1 = some .succeeded) (by simp) h
  refine ⟨d, hd, rfl, ?_⟩
  obtain ⟨st, att, pd, at_⟩ := d
  cases pd with
  | stepSucceeded o => rfl
  | stepAttemptLost fc =>
    simp only [footing, RunState.fold] at hn
    split at hn
    · simp at hn
    · exact absurd hn hno
  | stepDispatched d => simp [footing, RunState.fold, RunState.foldDispatched] at hn
  | stepFailed => simp [footing, RunState.fold] at hn
  | _ => exact absurd hn hno

theorem mem_of_touched (h : (ofLog log).terminal id = some .failed ∨
    (ofLog log).resumed id = true ∨ (ofLog log).fences id ≠ 0) :
    ∃ d ∈ log, d.stepID = id ∧ Payload.touches d.payload = true := by
  obtain ⟨d, hd, rfl, s, hn, hno⟩ := exists_event_of_footing
    (P := fun f => f.1 = some .failed ∨ f.2.1 = true ∨ f.2.2 ≠ 0) (by simp) h
  refine ⟨d, hd, rfl, ?_⟩
  obtain ⟨st, att, pd, at_⟩ := d
  cases pd with
  | stepDispatched d => rfl
  | stepFailed => rfl
  | stepAttemptLost fc => rfl
  | stepResumed => rfl
  | stepSucceeded o =>
    refine absurd (.inr ?_) hn
    simpa [footing, RunState.fold] using hno
  | _ => exact absurd hno hn

theorem mem_of_awaiting (h : (GateState.read log id).awaiting = true) :
    ∃ d ∈ log, d.stepID = id ∧ Payload.touches d.payload = true := by
  induction log using reverseRecOn with
  | nil => cases h
  | append_singleton log e ih =>
    by_cases hold : (GateState.read log id).awaiting = true
    · obtain ⟨d, hd, hs⟩ := ih hold
      exact ⟨d, mem_append_left _ hd, hs⟩
    refine ⟨e, by simp, ?_⟩
    rw [GateState.read, foldl_append] at h
    change (GateState.fold id (GateState.read log id) e).awaiting = true at h
    unfold GateState.fold at h
    split_ifs at h with hid
    · exact absurd h hold
    refine ⟨not_not.mp hid, ?_⟩
    split at h
    · rename_i hpayload
      rw [hpayload]
      rfl
    · exact absurd h hold
    · exact absurd h hold

/-! ### Growing the graph -/

section Growing

variable {p q : Pipeline} {fs : List Realised} {D : Definitions} {A : Actor} {h : List PlaneEvent}
  {tid rid : String} {t : Tx} {es : List Dhole.Event}

def Inside (fragment : Pipeline) : Prop :=
  ∀ e ∈ fragment.edges, e.toStep ∈ fragment.steps.map Step.id

theorem edges_into_spliceRealised (h : spliceRealised p fs = some q)
    (hi : ∀ r ∈ fs, Inside r.fragment) {edge : Edge} (hed : edge ∈ q.edges)
    (hto : edge.toStep ∈ p.steps.map Step.id) : edge ∈ p.edges := by
  induction fs generalizing p with
  | nil =>
    cases h
    exact hed
  | cons r fs ih =>
    obtain ⟨next, hs, h⟩ := spliceRealised_cons h
    have hn : edge.toStep ∈ next.steps.map Step.id := by
      rw [Dynamic.splice_steps hs, map_append]
      exact mem_append_left _ hto
    have hm := ih h (fun r hr => hi r (mem_cons_of_mem _ hr)) hn
    exact Dynamic.edges_into_splice hs (hi r mem_cons_self) hm hto

theorem mem_of_fragment {r : Realised} (hr : r ∈ (ofLog log).fragments) :
    ∃ e ∈ log, e.payload = .fragmentRealised r.fragment := by
  induction log using reverseRecOn with
  | nil => cases hr
  | append_singleton log e ih =>
    by_cases hold : r ∈ (ofLog log).fragments
    · obtain ⟨d, hd, hpayload⟩ := ih hold
      exact ⟨d, mem_append_left _ hd, hpayload⟩
    refine ⟨e, by simp, ?_⟩
    rw [ofLog_snoc] at hr
    obtain ⟨st, att, pd, at_⟩ := e
    cases pd with
    | fragmentRealised fr =>
      rcases mem_append.mp hr with hr | hr
      · exact absurd hr hold
      · rw [mem_singleton.mp hr]
    | stepAttemptLost fc =>
      simp only [RunState.fold] at hr
      split at hr <;> exact absurd hr hold
    | _ => exact absurd hr hold

variable {e : Dhole.Event}

theorem mem_decision {sid : String} {ok parks : Bool} {at_ : ℤ}
    (he : e ∈ Store.decision sid ok parks at_) : e.payload = .stepApprovalDecided ok ∨
      (e.stepID = sid ∧ (e.payload = .stepResumed ∨ e.payload = .stepSucceeded [] ∨
        e.payload = .stepFailed)) ∨ e.payload = .runFailed [sid] := by
  unfold Store.decision at he
  split_ifs at he <;> simp only [mem_cons, not_mem_nil, or_false] at he
  · rcases he with rfl | rfl <;> simp
  · rcases he with rfl | rfl <;> simp
  · rcases he with rfl | rfl | rfl <;> simp

variable {fr : Pipeline} (hw : Wrote D A h log tid rid t es) (he : e ∈ es)
  (hpayload : e.payload = .fragmentRealised fr)

include hw he hpayload

/-- A fragment is recorded by a job of the step it is recorded for, and is that of the
configuration the job read. -/
theorem Wrote.realised :
    ∃ pl job spec, gotJob pl job ∈ h ∧ asked (.loopSpec job.step) (some spec) ∈ h ∧
      spec.fragment = some fr ∧ job.key = ⟨tid, rid, e.stepID⟩ := by
  cases hw with
  | commit hg hfr =>
    cases hg with
    | realised hta hj hs hf =>
      obtain rfl := mem_singleton.mp he
      cases hpayload
      exact ⟨_, _, _, hj, hs, hf, rfl⟩
    | note hi =>
      obtain rfl := mem_singleton.mp he
      rw [hpayload] at hi
      cases hi
    | status _ _ _ ht =>
      obtain rfl := mem_singleton.mp he
      obtain rfl := hpayload
      cases decides_of_terminalEvent ht
    | verdict hta hj hv =>
      obtain rfl := mem_singleton.mp he
      obtain rfl := hpayload
      cases hv
    | served =>
      rcases mem_pair.mp he with rfl | rfl <;> cases hpayload
    | _ =>
      obtain rfl := mem_singleton.mp he
      cases hpayload
  | decided =>
    rcases mem_decision he with hno | ⟨-, hno | hno | hno⟩ | hno <;>
      · rw [hno] at hpayload
        cases hpayload
  | fired => rcases mem_pair.mp he with rfl | rfl <;> cases hpayload
  | _ =>
    obtain rfl := mem_singleton.mp he
    cases hpayload

theorem Wrote.inside : Inside fr := by
  obtain ⟨-, -, spec, -, -, hf, -⟩ := hw.realised he hpayload
  exact Loop.Spec.fragment_edges_inside _ hf

end Growing

/-! ### Steps that were given out -/

section Given

variable {D : Definitions} {As : ℕ → Actor} {tr : History} {i n : ℕ} {c : StepKey} {step : Step}
  {att fc : ℕ} {tid rid : String} {t : Tx} {es : List Dhole.Event} {e : Dhole.Event}

/-- In a part of the log the step is there and its predecessors have succeeded. -/
def Given (defs : Definitions) (log : Log) (tenantID id : String) : Prop :=
  ∃ l p, l <+: log ∧ (ofLog l).created = true ∧
    graphOf defs tenantID (ofLog l) = some p ∧ id ∈ p.steps.map Step.id ∧ Cleared l p id

theorem Given.mono (hg : Given D l tid id) (hl : l <+: log) : Given D log tid id := by
  obtain ⟨l', p, hp, hr⟩ := hg
  exact ⟨l', p, hp.trans hl, hr⟩

/-- The events of a log that touch a step are of steps that were given out. -/
def AllGiven (defs : Definitions) (log : Log) (tenantID : String) : Prop :=
  ∀ e ∈ log, Payload.touches e.payload = true → Given defs log tenantID e.stepID

theorem WasReady.given (hr : WasReady D log c step att)
    (ha : AllGiven D log c.tenant) : Given D log c.tenant c.step := by
  obtain ⟨l, hl, ho, p, g, hg, hb, hm, hs, -, hid, -⟩ := hr
  rw [hid] at hs
  have ht : (∃ d ∈ l, d.stepID = c.step ∧ Payload.touches d.payload = true) →
      Given D log c.tenant c.step := by
    rintro ⟨d, hd, hst, htu⟩
    exact hst ▸ ha d (hl.subset hd) htu
  rcases hs with ⟨hf, -⟩ | ⟨-, hre⟩ | ⟨-, -, hdo⟩
  · exact ht (mem_of_touched (.inl (hid ▸ hf)))
  · exact ht (mem_of_touched (.inr (.inl (hid ▸ hre))))
  · refine ⟨l, p, hl, ho.1, hg, mem_map.mpr ⟨step, hm, hid⟩, ?_⟩
    intro edge hed hto
    have hp : edge.fromStep ∈ predecessorsOf p g c.step :=
      (mem_predecessorsOf hb).mpr ⟨edge, hed, rfl, hto⟩
    exact mem_of_succeeded (hdo _ hp)

theorem ChosenFrom.given (hc : ChosenFrom D log c step att)
    (ha : AllGiven D log c.tenant) : Given D log c.tenant c.step := by
  cases hc with
  | ready hr | queued _ _ hr => exact hr.given ha

variable (htr : PlaneTrace D As tr)

include htr

theorem taken_of_saw {r : ClaimRecord} (hs : (sawClaim c (.found r fc)).inl ∈ own i (tr.take n)) :
    c = ⟨r.tenantID, r.runID, r.stepID⟩ ∧
      ∃ step att, ChosenFrom D (logOf (tr.take n) c.tenant c.run) c step att := by
  obtain ⟨m, hmn, hm⟩ := get_of_mem_own_take hs
  obtain ⟨k, hkm, j, ht⟩ := took_of_entry htr (entry_of_saw htr hm)
  obtain ⟨step, hc⟩ := ht.chosenFrom htr
  exact ⟨ht.names htr, step, _, hc.mono (logOf_take_mono htr (hkm.trans hmn).le)⟩

theorem given_of_holding (hh : Holding D (own i (tr.take n)) c step att fc)
    (ha : AllGiven D (logOf (tr.take n) c.tenant c.run) c.tenant) :
    Given D (logOf (tr.take n) c.tenant c.run) c.tenant c.step :=
  (hh.chosenFrom htr).given ha

theorem given_of_job {pl : ℕ} {job : BuiltinJob} (hj : gotJob pl job ∈ own i (tr.take n))
    (ha : AllGiven D (logOf (tr.take n) job.tenantID job.runID) job.tenantID) :
    Given D (logOf (tr.take n) job.tenantID job.runID) job.tenantID job.step.id :=
  (wasReady_of_gotJob (htr.take n) hj).2.given ha

omit htr

variable {pd : Payload}

theorem touches_of_inert (h : pd.inert = true) : Payload.touches pd = false := by
  cases pd <;> first | rfl | cases h

theorem failed_of_touches {st : JobStatus} (h : terminalEvent st = some pd)
    (ht : Payload.touches pd = true) : pd = .stepFailed := by
  unfold terminalEvent at h
  split at h <;> cases h
  · cases ht
  · rfl
  · rfl

/-- What an act appends touches only steps that were given out. -/
theorem Wrote.given (htr : PlaneTrace D As tr) (hn : FailuresNamed As)
    (hw : Wrote D (As i) (own i (tr.take n)) (logOf (tr.take n) tid rid)
      tid rid t es) (hal : AllGiven D (logOf (tr.take n) tid rid) tid)
    (he : e ∈ es) (ht : Payload.touches e.payload = true) :
    Given D (logOf (tr.take n) tid rid) tid e.stepID := by
  cases hw with
  | commit hg hfr =>
    cases hg with
    | dispatched hta hh =>
      obtain rfl := mem_singleton.mp he
      exact given_of_holding htr hh hal
    | served hta hh =>
      rcases mem_pair.mp he with rfl | rfl
      · exact given_of_holding htr hh hal
      · cases ht
    | jobDispatched hta hj | verdict hta hj =>
      obtain rfl := mem_singleton.mp he
      exact given_of_job htr hj hal
    | @lost orphan log at_ hl hlo =>
      obtain rfl := mem_singleton.mp he
      rcases hl with ⟨c, r, rev, hsa, rfl⟩ | ⟨log', hsa, hf⟩
      · obtain ⟨rfl, step, att, hc⟩ := taken_of_saw htr (mem_lefts.mp hsa)
        exact hc.given hal
      · obtain ⟨d, hd, hid, hd'⟩ := mem_of_touched (.inr (.inr hf))
        have hp := prefix_of_sawLog (htr.take n) hsa
        exact hid ▸ hal d (hp.subset hd) hd'
    | @status _ st tok r pd log at_ hta hf hs hpayload =>
      obtain rfl := mem_singleton.mp he
      obtain rfl := failed_of_touches hpayload ht
      have hsa := hs.subset mem_cons_self
      rw [hn i st hta hpayload tid tok hf] at hsa
      obtain ⟨-, step, att, hc⟩ := taken_of_saw htr hsa
      exact hc.given hal
    | note hi =>
      obtain rfl := mem_singleton.mp he
      rw [touches_of_inert hi] at ht
      cases ht
    | _ =>
      obtain rfl := mem_singleton.mp he
      cases ht
  | awaitingApproval hta hj hte hr =>
    obtain rfl := mem_singleton.mp he
    subst hte hr
    exact given_of_job htr hj hal
  | decided hta ha =>
    obtain ⟨d, hd, hid, hd'⟩ := mem_of_awaiting ha
    have hgi := hid ▸ hal d hd hd'
    rcases mem_decision he with hno | ⟨hst, -⟩ | hno
    · rw [hno] at ht
      cases ht
    · rwa [hst]
    · rw [hno] at ht
      cases ht
  | fired => rcases mem_pair.mp he with rfl | rfl <;> cases ht
  | awaitingTimer =>
    obtain rfl := mem_singleton.mp he
    cases ht

theorem allGiven_logOf (htr : PlaneTrace D As tr) (hn : FailuresNamed As) (n : ℕ)
    (tid rid : String) : AllGiven D (logOf (tr.take n) tid rid) tid := by
  induction n generalizing tid rid with
  | zero => exact fun e he => (nomatch he)
  | succ n ih =>
    intro e he ht
    have hg : logOf (tr.take n) tid rid <+: logOf (tr.take (n + 1)) tid rid :=
      logOf_take_mono htr n.le_succ
    refine Given.mono ?_ hg
    rcases logOf_step htr n tid rid with hs | ⟨i, t, res, es, -, -, hgr, hwr⟩
    · rw [hs] at he
      exact ih tid rid e he ht
    · rw [hgr] at he
      rcases Log.mem_appendAll he with he | he
      · exact ih tid rid e he ht
      · exact hwr.given htr hn (ih tid rid) he ht

theorem Given.cleared (hg : Given D (logOf tr tid rid) tid id)
    (htr : PlaneTrace D As tr) {q : Pipeline}
    (hq : graphOf D tid (ofLog (logOf tr tid rid)) = some q) : Cleared (logOf tr tid rid) q id := by
  obtain ⟨l, p, hl, hc, hgr, hid, hcl⟩ := hg
  obtain ⟨p', fs, hp, hsp, hfs⟩ :=
    graphOf_of_prefix (createdOnce_logOf htr tid rid) hl hc hq
  obtain rfl : p = p' := Option.some.inj (hgr.symm.trans hp)
  have hi : ∀ r ∈ fs, Inside r.fragment := by
    intro r hr
    obtain ⟨e, he, hpayload⟩ := mem_of_fragment (hfs hr)
    obtain ⟨n, i, t, res, es, -, -, hm, hwr⟩ := appended_at htr he
    exact hwr.inside hm hpayload
  intro edge hed hto
  obtain ⟨d, hd, hs⟩ :=
    hcl edge (edges_into_spliceRealised hsp hi hed (hto ▸ hid)) hto
  exact ⟨d, hl.subset hd, hs⟩

/-- Every step is dispatched after its predecessors have succeeded, where a status that
reports a failure names the step its fence is for. -/
theorem dispatched_in_order (defs : Definitions) (actors : ℕ → Actor) (tr : History)
    (hruns : Runs defs actors tr) (hnamed : FailuresNamed actors) : DispatchedInOrder defs tr := by
  have htr := hruns.planeTrace
  intro tenantID runID
  suffices ∀ n, (logOf (tr.take n) tenantID runID).Along (InOrder defs tenantID) by
    simpa using this tr.length
  intro n
  induction n with
  | zero => exact Log.along_nil
  | succ n ih =>
    rcases logOf_step htr n tenantID runID with hs | ⟨i, t, res, events, hn, -, hg, hwr⟩
    · rwa [hs]
    rw [hg]
    rcases dispatched_of_wrote hwr with hno | ⟨step, attempt, fence, hh, -, hho⟩
    · refine ih.appendAll fun l e he hd => ?_
      rw [isDispatch_of_attempts hno e he] at hd
      cases hd
    have hgi := given_of_holding htr hh (allGiven_logOf htr hnamed n tenantID runID)
    have hne : ∀ e : Dhole.Event, e.stepID = step.id →
        InOrder defs tenantID (logOf (tr.take n) tenantID runID) e :=
      fun e hid _ p hp => hid ▸ hgi.cleared (htr.take n) hp
    cases hho with
    | engine | job =>
      rw [Log.appendAll_cons, Log.appendAll_nil]
      exact ih.append (hne _ rfl)
    | cached =>
      rw [Log.appendAll_cons, Log.appendAll_cons, Log.appendAll_nil]
      exact (ih.append (hne _ rfl)).append fun hd => by cases hd

end Given

/-! ### A failure reported for another step -/

def chainOfTwo : Definitions := fun _ _ _ => some
  { id := "p"
    steps := [{ id := "a", pluginRef := "oci://a", effectClass := .pure },
      { id := "b", pluginRef := "oci://b", effectClass := .pure }]
    edges := [{ fromStep := "a", fromPort := "", toStep := "b", toPort := "" }] }

/-- A run is started, a failure is reported for `b` under a fence, and the run is advanced. -/
def failureOfB (fenced : String) : ℕ → Actor
  | 0 => doing (.startRun "acme" "run" "p" "r1")
  | 1 => doing (.onStatus (some
      { runID := "run", stepID := "b", attempt := 1, phase := .failed
        fence := .token "acme" ⟨⟨"acme", "run", fenced⟩, 1⟩ }))
  | _ => doing (.advance "acme" "run")

def muchLater : Surroundings where
  engines := [readyEngine]
  clock n := if n < 24 then n else 1000000000000

/-- The failure of `b`, which was never tried, comes under the fence of `a`. -/
def failedByA : History :=
  run chainOfTwo (failureOfB "a") muchLater
    (List.replicate 30 0 ++ List.replicate 7 1 ++ List.replicate 30 2)

/-- `b` is dispatched while `a` is in flight. -/
theorem failedByA_not_in_order :
    Runs chainOfTwo (failureOfB "a") failedByA ∧ OneAtATime failedByA ∧
      (logOf failedByA "acme" "run").map (fun e => (e.stepID, e.payload)) =
        [("", .runCreated "p" "r1"), ("a", .stepDispatched { fence := 1 }), ("b", .stepFailed),
          ("b", .stepDispatched { fence := 1 })] ∧
      ¬ DispatchedInOrder chainOfTwo failedByA := by
  refine ⟨run_runs _ _ _ _, oneAtATime_of_sorted (by decide), rfl, fun h => ?_⟩
  have hc := h "acme" "run" ((logOf failedByA "acme" "run").take 3)
    { stepID := "b", attempt := 1, payload := .stepDispatched { fence := 1 }
      at_ := 1000000000000 } ⟨[], rfl⟩ rfl _ rfl
    { fromStep := "a", fromPort := "", toStep := "b", toPort := "" } (by decide) rfl
  revert hc
  decide

/-- A run is started, `a` succeeds, `b` fails under its own fence, and the run is advanced. -/
def chainInTurn : ℕ → Actor
  | 0 => doing (.startRun "acme" "run" "p" "r1")
  | 1 => doing (.onStatus (some
      { runID := "run", stepID := "a", attempt := 1, phase := .succeeded
        fence := .token "acme" ⟨⟨"acme", "run", "a"⟩, 1⟩ }))
  | 2 => doing (.onStatus (some
      { runID := "run", stepID := "b", attempt := 1, phase := .failed
        fence := .token "acme" ⟨⟨"acme", "run", "b"⟩, 1⟩ }))
  | _ => doing (.advance "acme" "run")

theorem chainInTurn_named : FailuresNamed chainInTurn
  | 0 | 1 | _ + 3 => by
    intro st ht hf
    cases ht <;> cases hf
  | 2 => by
    intro st ht hf tid tok hfe
    cases ht
    cases hfe
    rfl

def retriedInTurn : History :=
  run chainOfTwo chainInTurn
    { engines := [readyEngine], clock := fun n => if n < 43 then n else 1000000000000 }
    (List.replicate 30 0 ++ List.replicate 40 1 ++ List.replicate 20 2 ++ List.replicate 30 3)

theorem retriedInTurn_in_order : DispatchedInOrder chainOfTwo retriedInTurn ∧
      (logOf retriedInTurn "acme" "run").map (fun e => (e.stepID, e.attempt)) =
        [("", 0), ("a", 1), ("a", 1), ("b", 1), ("b", 1), ("b", 2)] :=
  ⟨dispatched_in_order chainOfTwo chainInTurn retriedInTurn (run_runs _ _ _ _) chainInTurn_named,
    by decide⟩

end Dhole.System
