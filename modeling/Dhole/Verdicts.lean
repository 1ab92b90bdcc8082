import Dhole.Ends

/-! When a success is final. A verdict is overwritten by whatever the log says next of its
step: another verdict, a loss, or a dispatch. In an orderly log a verdict is given only to a
step that has none, and a step is dispatched again only once it has failed, so a success
stands. Whether the logs of a history are orderly is a matter of what their writers know: a
pass, a status and a sweep decide from a log they read, and the log stays orderly where what
they read of the step still holds when they write. -/

namespace Dhole.System

open Interleave Prog Plane Lease Scheduler Effects List
open RunState (ofLog ofLog_snoc)

def Payload.decides : Payload → Bool
  | .stepSucceeded _ | .stepFailed | .stepAttemptLost _ => true
  | _ => false

/-! ### Orderly logs -/

/-- What may come next in a log: a verdict for a step that has none, and a dispatch that is the
first of its step or follows a failure. -/
structure Follows (log : Log) (e : Dhole.Event) : Prop where
  verdict : Payload.decides e.payload = true → (ofLog log).terminal e.stepID = none
  dispatch : Event.isDispatch e = true → (ofLog log).attempts e.stepID < e.attempt ∧
    ((ofLog log).attempts e.stepID = 0 ∨
      (ofLog log).terminal e.stepID = some .failed)

abbrev Orderly (log : Log) : Prop := log.Along Follows

def standing (log : Log) (id : String) : Option Verdict × ℕ × List OutputRef :=
  ((ofLog log).terminal id, (ofLog log).attempts id,
    (ofLog log).outputs id)

variable {log l : Log} {e : Dhole.Event} {es : List Dhole.Event} {id : String}

theorem follows_of_idle (hde : Payload.decides e.payload = false)
    (hd : Event.isDispatch e = false) : Follows log e :=
  ⟨fun h => by simp [hde] at h, fun h => by simp [hd] at h⟩

theorem attempts_mono (hl : l <+: log) : (ofLog l).attempts id ≤ (ofLog log).attempts id := by
  by_cases hz : (ofLog l).attempts id = 0
  · rw [hz]
    exact Nat.zero_le _
  · exact le_attempts_of_mem (mem_dispatched_mono hl (attempts_mem hz))

theorem standing_snoc_of_ne (hid : id ≠ e.stepID) : standing (log ++ [e]) id = standing log id := by
  obtain ⟨sid, att, pa, at_⟩ := e
  cases pa with
  | stepAttemptLost fc =>
    simp only [standing, ofLog_snoc, RunState.fold]
    split <;> simp [Function.update_of_ne hid]
  | _ =>
    simp [standing, RunState.fold, RunState.foldDispatched, Function.update_of_ne hid]

theorem standing_snoc_of_idle (hde : Payload.decides e.payload = false)
    (hd : Event.isDispatch e = false) : standing (log ++ [e]) id = standing log id := by
  obtain ⟨st, att, pa, at_⟩ := e
  cases pa with
  | stepDispatched d => cases hd
  | stepSucceeded outs | stepFailed | stepAttemptLost fc => cases hde
  | _ => simp [standing, RunState.fold]

/-- What the next event does to a step: nothing, a verdict where there was none, or a new
attempt, the first one or one after a failure. -/
theorem Follows.standing_cases (h : Follows log e) (id : String) :
    standing (log ++ [e]) id = standing log id ∨ (ofLog log).terminal id = none ∨
      ((ofLog log).attempts id < (ofLog (log ++ [e])).attempts id ∧ ((ofLog log).attempts id = 0 ∨
          (ofLog log).terminal id = some .failed)) := by
  by_cases hid : id = e.stepID
  · subst hid
    by_cases hde : Payload.decides e.payload = true
    · exact .inr (.inl (h.verdict hde))
    by_cases hd : Event.isDispatch e = true
    · obtain ⟨hlt, hwh⟩ := h.dispatch hd
      refine .inr (.inr ⟨?_, hwh⟩)
      obtain ⟨st, att, pa, at_⟩ := e
      cases pa <;> cases hd
      rw [ofLog_snoc, RunState.fold_attempts]
      simpa [Event.dispatchedAttempt?] using hlt
    · exact .inl (standing_snoc_of_idle (by simpa using hde) (by simpa using hd))
  · exact .inl (standing_snoc_of_ne hid)

theorem Orderly.failed_until_dispatch (h : Orderly log) (hl : l <+: log)
    (hf : (ofLog l).terminal id = some .failed)
    (hsa : (ofLog log).attempts id = (ofLog l).attempts id) :
    (ofLog log).terminal id = some .failed := by
  induction log using reverseRecOn with
  | nil => rwa [prefix_nil.mp hl] at hf
  | append_singleton log e ih =>
    rcases prefix_concat_iff.mp hl with rfl | hl
    · exact hf
    have hlo : (ofLog l).attempts id ≤ (ofLog log).attempts id :=
      attempts_mono hl
    have hh : (ofLog log).attempts id ≤ (ofLog (log ++ [e])).attempts id :=
      attempts_mono (prefix_append _ _)
    have hs := ih (Log.Along.of_prefix h (prefix_append _ _)) hl (by omega)
    rcases (h log e prefix_rfl).standing_cases id with hst | hn | ⟨hlt, -⟩
    · exact (congrArg Prod.fst hst).trans hs
    · rw [hn] at hs
      cases hs
    · omega

theorem Orderly.success_stands (h : Orderly log) (hl : l <+: log)
    (hsu : (ofLog l).terminal id = some .succeeded)
    (hd : (ofLog l).attempts id ≠ 0) : standing log id = standing l id := by
  induction log using reverseRecOn with
  | nil => rw [prefix_nil.mp hl]
  | append_singleton log e ih =>
    rcases prefix_concat_iff.mp hl with rfl | hl
    · rfl
    have hs := ih (Log.Along.of_prefix h (prefix_append _ _)) hl
    have ht : (ofLog log).terminal id = some .succeeded :=
      (congrArg Prod.fst hs).trans hsu
    have ha : (ofLog log).attempts id = (ofLog l).attempts id :=
      congrArg (fun st => st.2.1) hs
    rcases (h log e prefix_rfl).standing_cases id with hst | hn | ⟨-, hz | hf⟩
    · exact hst.trans hs
    · rw [ht] at hn
      cases hn
    · exact absurd (ha.symm.trans hz) hd
    · rw [ht] at hf
      cases hf

/-! ### What the writers of a log know -/

/-- The task neither runs a builtin nor lets a step go on after a wait. -/
def Task.ungated : Task → Bool
  | .job | .decideGate .. | .fireTimer .. => false
  | _ => true

/-- A transaction that lands and begins with a verdict or a dispatch finds the verdict, or the
attempt, of the step as its actor last read it. -/
def AsRead (tr : History) : Act planeSig → Prop
  | ⟨i, ⟨.inr (.tx (.commit tenantID runID (e :: _) _)), res⟩⟩ =>
    TxRes.landed res = true → ∀ log ∈ lastLog (own i tr) tenantID runID,
      (Payload.decides e.payload = true →
        (ofLog (logOf tr tenantID runID)).terminal e.stepID =
          (ofLog log).terminal e.stepID) ∧
      (Event.isDispatch e = true →
        (ofLog (logOf tr tenantID runID)).attempts e.stepID =
          (ofLog log).attempts e.stepID)
  | _ => True

/-- Once a step that was dispatched has succeeded, its verdict and its outputs stay. -/
def SuccessFinal (tr : History) : Prop :=
  ∀ (tenantID runID id : String) (m n : ℕ), m ≤ n →
    (ofLog (logOf (tr.take m) tenantID runID)).attempts id ≠ 0 →
    (ofLog (logOf (tr.take m) tenantID runID)).terminal id = some .succeeded →
    (ofLog (logOf (tr.take n) tenantID runID)).terminal id = some .succeeded ∧
      (ofLog (logOf (tr.take n) tenantID runID)).outputs id =
        (ofLog (logOf (tr.take m) tenantID runID)).outputs id

section Writers

variable {D : Definitions} {A : Actor} {h : List PlaneEvent} {tid rid : String}
  {t : Tx} {c : StepKey} {step : Step} {att fc : ℕ}

theorem Holding.lastLog (hh : Holding D h c step att fc) :
    ∃ log, System.lastLog h c.tenant c.run = some log ∧ (ofLog log).attempts c.step < att := by
  obtain ⟨h₀, e, h₁, log, rfl, -, -, hlo, hlt⟩ := hh
  refine ⟨log, ?_, hlt⟩
  have hl : ((e.inl :: h₁).filterMap (seenLog? c.tenant c.run)).getLast? = some log := hlo
  rw [System.lastLog, filterMap_append, getLast?_append, hl]
  rfl

theorem lastLog_of_status {tok : Token} {r : ClaimRecord} {at_ : ℤ}
    (hse : [(sawClaim tok.value (.found r tok.fence)).inl, sawLog tid rid log,
      asked .now at_] <:+ h) : lastLog h tid rid = some log := by
  obtain ⟨g, rfl⟩ := hse
  have hs : g ++ [(sawClaim tok.value (.found r tok.fence)).inl, sawLog tid rid log,
      asked .now at_] = (g ++ [(sawClaim tok.value (.found r tok.fence)).inl] ++
        [sawLog tid rid log]) ++ [asked .now at_] := by simp
  rw [hs, lastLog_append_unread rfl, lastLog_snoc_sawLog]

/-- What a task without gates appends: nothing that moves a step, one verdict of a step that
had none in the log read last, or a dispatch. -/
inductive Moves (defs : Definitions) (actor : Actor) (h : List PlaneEvent) (tenantID runID : String)
    (t : Tx) : List Dhole.Event → Prop
  | idle {events : List Dhole.Event} (hidle : ∀ e ∈ events, Payload.decides e.payload = false ∧
      Event.isDispatch e = false) : Moves defs actor h tenantID runID t events
  | verdict {e : Dhole.Event} {log : Log} (ht : t = .commit tenantID runID [e] [])
      (hdecides : Payload.decides e.payload = true) (hlog : lastLog h tenantID runID = some log)
      (hnone : (ofLog log).terminal e.stepID = none) :
      Moves defs actor h tenantID runID t [e]
  | dispatch {events : List Dhole.Event} {step : Step} {attempt fence : ℕ}
      (hholding : Holding defs h ⟨tenantID, runID, step.id⟩ step attempt fence)
      (hhow : WroteDispatch actor h tenantID runID step attempt fence t events) :
      Moves defs actor h tenantID runID t events

theorem idle_of_inert {e : Dhole.Event} (h : e.payload.inert = true) :
    Payload.decides e.payload = false ∧ Event.isDispatch e = false := by
  obtain ⟨st, att, pa, at_⟩ := e
  cases pa <;> first | exact ⟨rfl, rfl⟩ | cases h

theorem decides_of_terminalEvent {st : JobStatus} {pd : Payload}
    (h : terminalEvent st = some pd) : Payload.decides pd = true := by
  unfold terminalEvent at h
  split at h <;> cases h <;> rfl

variable (hw : Wrote D A h log tid rid t es) (htask : Task.ungated A.task = true)

include hw htask

theorem Wrote.moves : Moves D A h tid rid t es := by
  cases hw with
  | commit hg hf =>
    cases hg with
    | note hi => exact .idle (by simpa using idle_of_inert hi)
    | dispatched htask' hh hc => exact .dispatch hh (.engine htask')
    | served htask' hh hc => exact .dispatch hh (.cached htask')
    | lost hl hlo ht ha => exact .verdict rfl rfl hlo ht
    | status htask' hfe hs hp ht =>
      exact .verdict rfl (decides_of_terminalEvent hp) (lastLog_of_status hs) ht
    | jobDispatched htask' | verdict htask' | realised htask' =>
      simp [htask', Task.ungated] at htask
    | _ => exact .idle (by simp [Payload.decides, Event.isDispatch])
  | awaitingTimer => exact .idle (by simp [Payload.decides, Event.isDispatch])
  | awaitingApproval htask' | decided htask' | fired htask' => simp [htask', Task.ungated] at htask

theorem Wrote.not_resumed : NoneResumed es := by
  cases hw with
  | commit hg hf =>
    cases hg with
    | @note _ _ e hi hc =>
      rintro d hd hr
      obtain rfl := mem_singleton.mp hd
      rw [hr] at hi
      cases hi
    | status htask' hfe hs hp ht =>
      rintro d hd hr
      obtain rfl := mem_singleton.mp hd
      obtain rfl := hr
      cases decides_of_terminalEvent hp
    | verdict htask' => simp [htask', Task.ungated] at htask
    | _ => simp [NoneResumed]
  | decided htask' => simp [htask', Task.ungated] at htask
  | _ => simp [NoneResumed]

omit hw htask

/-- An attempt that an orderly log has not reached is the first, or its step has failed. -/
theorem Orderly.failed_before (hlo : Orderly log) (hre : NoneResumed log)
    (hc : ChosenFrom D log c step att) (hlt : (ofLog log).attempts c.step < att) :
    (ofLog log).attempts c.step = 0 ∨ (ofLog log).terminal c.step = some .failed := by
  obtain ⟨step₀, l, hl, hr⟩ : ∃ step₀, WasReady D log c step₀ att := by
    cases hc with
    | ready hr => exact ⟨step, hr⟩
    | @queued l step₀ limit p hl ho hr hli hat hg hfi =>
      obtain ⟨l', hl', hr'⟩ := hr
      obtain ⟨-, p', g, -, -, -, -, heq, hid, -⟩ := id hr'
      have ha' : (ofLog l').attempts c.step ≤
          (ofLog log).attempts c.step := attempts_mono hl'
      rw [hid] at heq
      obtain rfl : att = limit := by omega
      exact ⟨step₀, l', hl', hr'⟩
  obtain ⟨-, p, g, -, -, -, hs, rfl, hid, -⟩ := hr
  rw [hid] at hs hlt
  have hsa : (ofLog log).attempts c.step = (ofLog l).attempts c.step :=
    le_antisymm (Nat.lt_succ_iff.mp hlt) (attempts_mono hl)
  rcases hs with ⟨hf, -⟩ | ⟨-, hgo⟩ | ⟨-, hz, -⟩
  · exact .inr (hlo.failed_until_dispatch hl (hid ▸ hf) hsa)
  · rw [(hre.of_prefix hl).resumed_eq_false] at hgo
    cases hgo
  · exact .inl (hsa.trans (hid ▸ hz))

end Writers

/-! ### Success is final -/

section Histories

variable {D : Definitions} {As : ℕ → Actor} {tr : History} {i n : ℕ}
  {tid rid : String} {t : Tx} {res : TxRes} {step : Step} {att fc : ℕ}

theorem noneResumed_logOf (htr : PlaneTrace D As tr)
    (htasks : ∀ i, Task.ungated (As i).task = true) (tid rid : String) :
    NoneResumed (logOf tr tid rid) := by
  intro e he
  obtain ⟨n, i, t, res, es, -, -, hm, hwr⟩ := appended_at htr he
  exact hwr.not_resumed (htasks i) e hm

theorem asRead_at (hr : Throughout AsRead tr) {a : Act planeSig} (hn : tr[n]? = some a) :
    AsRead (tr.take n) a := hr _ a _ (eq_take_append hn)

variable (htr : PlaneTrace D As tr) (htasks : ∀ i, Task.ungated (As i).task = true)

include htr htasks

theorem follows_dispatch
    (ho : Orderly (logOf (tr.take n) tid rid))
    (hh : Holding D (own i (tr.take n)) ⟨tid, rid, step.id⟩ step att fc)
    (ha : ∀ log ∈ lastLog (own i (tr.take n)) tid rid,
      (ofLog (logOf (tr.take n) tid rid)).attempts step.id =
        (ofLog log).attempts step.id) (d : Dispatched) (at_ : ℤ) :
    Follows (logOf (tr.take n) tid rid)
      { stepID := step.id, attempt := att, at_, payload := .stepDispatched d } := by
  obtain ⟨log, hl, hlt⟩ := hh.lastLog
  have hu : (ofLog (logOf (tr.take n) tid rid)).attempts step.id <
      att := (ha log hl).trans_lt hlt
  obtain ⟨h₀, e, h₁, -, how, ⟨-, hc⟩, -⟩ := hh
  obtain ⟨k, hkn, -, hp, -⟩ := own_take_split how
  rw [← hp] at hc
  have hf := (hc.from (htr.take k)).mono (logOf_take_mono htr hkn.le)
  have hr := noneResumed_logOf (htr.take n) htasks tid rid
  exact ⟨nofun, fun _ => ⟨hu, ho.failed_before hr hf hu⟩⟩

/-- A transaction that finds what its actor read keeps the log orderly. -/
theorem orderly_appendAll (ho : Orderly (logOf (tr.take n) tid rid))
    (hr : AsRead (tr.take n) ⟨i, did t res⟩) (hl : res.landed = true)
    (hm : Moves D (As i) (own i (tr.take n)) tid rid t es) :
    Orderly ((logOf (tr.take n) tid rid).appendAll es) := by
  cases hm with
  | idle hi =>
    exact ho.appendAll fun l e he => follows_of_idle (hi e he).1 (hi e he).2
  | verdict ht hd hlo hn =>
    subst ht
    rename_i e log
    have hte := ((hr hl log hlo).1 hd).trans hn
    refine ho.append ⟨fun _ => hte, fun hdi => ?_⟩
    obtain ⟨st, att, pa, at_⟩ := e
    cases pa with
    | stepDispatched d => cases hd
    | _ => cases hdi
  | dispatch hh hho =>
    cases hho with
    | engine htask =>
      exact ho.append (follows_dispatch htr htasks ho hh (fun log hlo => (hr hl log hlo).2 rfl) _ _)
    | @cached at_ o htask =>
      rename_i step att fc
      have hf := follows_dispatch htr htasks ho hh
        (fun log hlo => (hr hl log hlo).2 rfl) { fence := fc, cacheHit := true } at_
      -- the success of a cache hit follows its own dispatch, which takes the verdict away
      refine Log.Along.append (ho.append hf)
        (e := ⟨step.id, att, .stepSucceeded o, at_⟩) ⟨fun _ => ?_, nofun⟩
      rw [Log.append_of_unindexed rfl rfl]
      simp [RunState.fold, RunState.foldDispatched]
    | job htask =>
      have hu := htasks i
      simp [htask, Task.ungated] at hu

theorem orderly_logOf (hr : Throughout AsRead tr) (n : ℕ)
    (tid rid : String) : Orderly (logOf (tr.take n) tid rid) := by
  induction n with
  | zero => exact Log.along_nil
  | succ n ih =>
    rcases logOf_step htr n tid rid with
      hs | ⟨i, t, res, es, hn, hl, hg, hwr⟩
    · rwa [hs]
    · rw [hg]
      exact orderly_appendAll htr htasks ih (asRead_at hr hn) hl (hwr.moves (htasks i))

omit htr htasks

/-- Success is final where every verdict and every dispatch finds its step as it was read. -/
theorem success_final (defs : Definitions) (actors : ℕ → Actor) (tr : History)
    (hruns : Runs defs actors tr) (htasks : ∀ i, Task.ungated (actors i).task = true)
    (hread : Throughout AsRead tr) : SuccessFinal tr := by
  have htr := hruns.planeTrace
  intro tenantID runID id m n hmn hd hs
  have ho := orderly_logOf htr htasks hread n tenantID runID
  have hst := ho.success_stands (logOf_take_mono htr hmn) hs hd
  exact ⟨(congrArg Prod.fst hst).trans hs, congrArg (fun st => st.2.2) hst⟩

end Histories

/-! ### A loss decided before the success -/

instance (tr : History) (a : Act planeSig) : Decidable (AsRead tr a) := by
  unfold AsRead
  split <;> infer_instance

/-- A run is started, an engine takes its step and reports a success, and a plane sweeps. -/
def reportAndSweep : ℕ → Actor
  | 0 => { cfg := { ttl := 30, confirm := true }, fuel := 1
           task := .startRun "acme" "run" "p" "r1" }
  | 1 => doing .engine
  | 2 => doing (.onStatus (some
      { runID := "run", stepID := "build", attempt := 1, phase := .succeeded
        fence := .token "acme" ⟨⟨"acme", "run", "build"⟩, 1⟩ }))
  | _ => doing .sweep

theorem reportAndSweep_ungated : ∀ i, Task.ungated (reportAndSweep i).task = true
  | 0 | 1 | 2 | _ + 3 => rfl

/-- Nobody hears of the engine for longer than its lease lasts. -/
def lateReport : Surroundings where
  engines := [readyEngine]
  keys := [.claim ⟨"acme", "run", "build"⟩]
  clock n := if n < 27 then n else 1000

/-- The status has passed its fence check when the lease is swept, and the sweep has read the
log when the success lands. -/
def sweptMeanwhile : History :=
  run oneStep reportAndSweep lateReport
    (replicate 17 0 ++ replicate 9 1 ++ [2] ++ replicate 9 3 ++ [2, 2, 2, 3])

theorem sweptMeanwhile_not_final :
    Runs oneStep reportAndSweep sweptMeanwhile ∧
      (∀ i, Task.ungated (reportAndSweep i).task = true) ∧
      (logOf sweptMeanwhile "acme" "run").map Event.payload = [.runCreated "p" "r1",
        .stepDispatched { fence := 1 }, .stepSucceeded [], .stepAttemptLost 1] ∧
      ¬ SuccessFinal sweptMeanwhile := by
  refine ⟨run_runs _ _ _ _, reportAndSweep_ungated, rfl, fun h => ?_⟩
  have hl := (h "acme" "run" "build" 39 40 (by decide) (by decide) (by decide)).1
  revert hl
  decide

/-- The sweep comes after the success. -/
def sweptLater : History :=
  run oneStep reportAndSweep lateReport
    (replicate 17 0 ++ replicate 9 1 ++ replicate 10 2 ++ replicate 20 3)

theorem sweptLater_final : SuccessFinal sweptLater ∧
      (ofLog (logOf sweptLater "acme" "run")).terminal "build" = some .succeeded :=
  ⟨success_final oneStep reportAndSweep sweptLater (run_runs _ _ _ _) reportAndSweep_ungated
    (by decide), rfl⟩

/-! ### Late verdicts -/

/-- A success or a failure of an attempt below one that the log says was dispatched. -/
structure Stale (log : Log) (e : Dhole.Event) : Prop where
  verdict : e.payload = .stepFailed ∨ ∃ outputs, e.payload = .stepSucceeded outputs
  superseded : ∃ n ∈ dispatchedAttempts log e.stepID, e.attempt < n

/-- The last word on the step said the same: a failure or a loss where the event is a failure, and
the same success where it is one. -/
def Repeats (log : Log) (e : Dhole.Event) : Prop :=
  ∃ d, LastWord log e.stepID d ∧ (e.payload = .stepFailed ∧ d.payload.verdict? = some .failed ∨
    ∃ outputs, e.payload = .stepSucceeded outputs ∧ d.payload = .stepSucceeded outputs)

/-- No verdict of the log that comes late changes what the run knows of its step. -/
def StaleInert (log : Log) : Prop :=
  log.Along fun l e => Stale l e → standing (l ++ [e]) e.stepID = standing l e.stepID

theorem Stale.inert_iff {log : Log} {e : Dhole.Event} (h : Stale log e) :
    standing (log ++ [e]) e.stepID = standing log e.stepID ↔ Repeats log e := by
  obtain ⟨st, att, pa, at_⟩ := e
  obtain ⟨rfl | ⟨o, rfl⟩, -⟩ := h
  · simp [standing, Repeats, RunState.fold, eq_comm (a := some Verdict.failed),
      terminal_iff_lastWord]
  have hs : standing (log ++ [⟨st, att, .stepSucceeded o, at_⟩]) st = standing log st ↔
      (ofLog log).terminal st = some .succeeded ∧ (ofLog log).outputs st = o := by
    simp [standing, RunState.fold, eq_comm]
  rw [hs, terminal_iff_lastWord]
  constructor
  · rintro ⟨⟨d, hd, hv⟩, rfl⟩
    obtain ⟨o, ho⟩ : ∃ o, d.payload = .stepSucceeded o := by
      cases hp : d.payload <;> simp [hp, Payload.verdict?] at hv ⊢
    exact ⟨d, hd, .inr ⟨o, by rw [outputs_of_lastWord hd ho], ho⟩⟩
  · rintro ⟨d, hd, ⟨he, -⟩ | ⟨o, he, ho⟩⟩
    · cases he
    · cases he
      exact ⟨⟨d, hd, by rw [ho]; rfl⟩, outputs_of_lastWord hd ho⟩

/-- A late verdict is taken like any other: it is harmless only where it says what is known. -/
theorem staleInert_iff (log : Log) :
    StaleInert log ↔ log.Along fun l e => Stale l e → Repeats l e :=
  forall_congr' fun _ => forall_congr' fun _ => imp_congr_right fun _ =>
    forall_congr' Stale.inert_iff

/-- The first attempt is lost, a second one is given out, and the success of the first comes. -/
def lateSuccess : Log :=
  [⟨"build", 1, .stepDispatched { fence := 1 }, 0⟩, ⟨"build", 1, .stepAttemptLost 1, 30⟩,
    ⟨"build", 2, .stepDispatched { fence := 2 }, 31⟩, ⟨"build", 1, .stepSucceeded [], 32⟩]

theorem lateSuccess_counts : ¬ StaleInert lateSuccess := by
  intro h
  have hk := h (lateSuccess.take 3) ⟨"build", 1, .stepSucceeded [], 32⟩
    (prefix_refl lateSuccess) ⟨.inr ⟨[], rfl⟩, 2, by decide, by decide⟩
  revert hk
  decide

end Dhole.System
