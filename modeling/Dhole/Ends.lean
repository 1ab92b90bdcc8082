import Dhole.Attempts

/-! What is dispatched after a run has ended. A pass looks at whether the run is over when
it plans, and not again when it commits: a run that ends in between, by a cancellation or a
pass of another plane, is still given the dispatch. Where no run ends between a task's
reading of its log and the dispatch the task commits, nothing starts after the end. -/

namespace Dhole.System

open Interleave Prog Plane Lease Scheduler List
open RunState (ofLog ofLog_snoc)

/-! ### The end of a run -/

variable {log : Log} {e : Dhole.Event}

theorem fold_completed (s : RunState) (e : Dhole.Event) :
    (s.fold e).completed = (s.completed || e.payload.closesRun) := by
  obtain ⟨id, att, pa, at_⟩ := e
  cases pa with
  | stepAttemptLost fe =>
    simp only [RunState.fold, Payload.closesRun, Bool.or_false]
    split <;> rfl
  | runCompleted | runFailed steps | runCancelled => simp [RunState.fold, Payload.closesRun]
  | _ => exact (Bool.or_false _).symm

theorem completed_ofLog (log : Log) :
    (ofLog log).completed = log.any fun e => e.payload.closesRun := by
  induction log using reverseRecOn with
  | nil => rfl
  | append_singleton log e ih =>
    rw [ofLog_snoc, fold_completed, ih]
    simp

theorem completed_mono {l : Log} (hl : l <+: log) (h : (ofLog log).completed = false) :
    (ofLog l).completed = false := by
  obtain ⟨rest, rfl⟩ := hl
  rw [completed_ofLog, any_append, Bool.or_eq_false_iff] at h
  rw [completed_ofLog]
  exact h.1

def Event.isDispatch (e : Dhole.Event) : Bool :=
  match e.payload with
  | .stepDispatched _ => true
  | _ => false

/-- No dispatch, from a cache or to an engine, stands behind the end of its run. -/
def NothingAfterEnd (tr : History) : Prop :=
  ∀ tenantID runID, (logOf tr tenantID runID).Pairwise fun e d =>
    e.payload.closesRun = true → Event.isDispatch d = false

def EndedAt (tr : History) (n : ℕ) (tenantID runID : String) : Prop :=
  (ofLog (logOf (tr.take n) tenantID runID)).completed = false ∧
    (ofLog (logOf (tr.take (n + 1)) tenantID runID)).completed = true

/-- No run ends between a task's reading of its log and a dispatch the task commits. -/
def EndsUndisturbed (tr : History) : Prop :=
  ∀ (m n i : ℕ) (tenantID runID : String) (log : Log) (events : List Dhole.Event)
    (rows : List JobDispatch) (res : TxRes), m < n →
    tr[m]? = some ⟨i, sawLog tenantID runID log⟩ →
    tr[n]? = some ⟨i, did (.commit tenantID runID events rows) res⟩ →
    (∃ e ∈ events, Event.isDispatch e = true) →
    ∀ k, m ≤ k → k < n → ¬ EndedAt tr k tenantID runID

variable {D : Definitions} {As : ℕ → Actor} {tr : History} {i n m : ℕ} {c : StepKey}
  {step : Step} {att : ℕ} {tid rid : String}

theorem not_gotJob (htr : PlaneTrace D As tr) (ht : (As i).task ≠ .job) {plane : ℕ}
    {job : BuiltinJob} : gotJob plane job ∉ own i tr := by
  intro hj
  obtain ⟨n, hn⟩ := get_of_mem_own hj
  exact ht (htr.at_get hn).2

theorem Chosen.read_open (htr : PlaneTrace D As tr) (ht : (As i).task ≠ .job)
    (hc : Chosen D (own i tr) c step att) :
    ∃ log, sawLog c.tenant c.run log ∈ own i tr ∧ (ofLog log).completed = false := by
  cases hc with
  | ready hr =>
    obtain ⟨log, hs, ho, -⟩ := hr
    exact ⟨log, hs, ho.2⟩
  | queued hq =>
    obtain ⟨pl, slots, items, item, log, p, -, -, -, hs, ho, -⟩ := hq
    exact ⟨log, hs, ho.2⟩
  | job pl job hj => exact absurd hj (not_gotJob htr ht)

theorem not_completed_of_not_ended (hmn : m ≤ n)
    (hm : (ofLog (logOf (tr.take m) tid rid)).completed = false)
    (hno : ∀ k, m ≤ k → k < n → ¬ EndedAt tr k tid rid) :
    (ofLog (logOf (tr.take n) tid rid)).completed = false := by
  induction n, hmn using Nat.le_induction with
  | base => exact hm
  | succ n hmn ih =>
    have hn := ih fun k hmk hkn => hno k hmk (by omega)
    by_contra he
    exact hno n hmn (Nat.lt_succ_self n) ⟨hn, by simpa using he⟩

variable {es : List Dhole.Event}

theorem isDispatch_of_attempts (h : ∀ s, dispatchedAttempts es s = []) :
    ∀ e ∈ es, Event.isDispatch e = false := by
  intro e he
  have hn := filterMap_eq_nil_iff.mp (h e.stepID) e he
  obtain ⟨id, att, pa, at_⟩ := e
  cases pa <;> first | rfl | simp [Event.dispatchedAttempt?] at hn

theorem WroteDispatch.not_closes {A : Actor} {h : List PlaneEvent} {fc : ℕ} {t : Tx}
    (hw : WroteDispatch A h tid rid step att fc t es) : ∀ e ∈ es, e.payload.closesRun = false := by
  cases hw <;> simp [Payload.closesRun]

theorem open_at_dispatch (htr : PlaneTrace D As tr) (ht : (As i).task ≠ .job)
    (he : EndsUndisturbed tr) {fc : ℕ} {t : Tx} {res : TxRes} (hn : tr[n]? = some ⟨i, did t res⟩)
    (hh : Holding D (own i (tr.take n)) ⟨tid, rid, step.id⟩ step att fc)
    (hho : WroteDispatch (As i) (own i (tr.take n)) tid rid step att fc t es) :
    (ofLog (logOf (tr.take n) tid rid)).completed = false := by
  obtain ⟨h₀, e, h₁, -, how, ⟨-, hc⟩, -⟩ := hh
  obtain ⟨k, hkn, -, hp, -⟩ := own_take_split how
  rw [← hp] at hc
  obtain ⟨log, hs, ho⟩ := hc.read_open (htr.take k) ht
  obtain ⟨m, hmk, hm⟩ := get_of_mem_own_take hs
  rw [log_of_sawLog htr hm] at ho
  refine not_completed_of_not_ended (hmk.trans hkn).le ho ?_
  cases hho with
  | engine | cached | job =>
    exact he m n i _ _ log _ _ res (hmk.trans hkn) hm hn ⟨_, mem_cons_self, rfl⟩

/-- Nothing starts after the end of a run, where no run ends between a task's reading of
its log and the dispatch it commits. -/
theorem nothing_after_end (defs : Definitions) (actors : ℕ → Actor) (tr : History)
    (hruns : Runs defs actors tr) (htasks : ∀ i, (actors i).task ≠ .job)
    (hends : EndsUndisturbed tr) : NothingAfterEnd tr := by
  have htr := hruns.planeTrace
  intro tenantID runID
  suffices ∀ n, (logOf (tr.take n) tenantID runID).Pairwise fun e d =>
      e.payload.closesRun = true → Event.isDispatch d = false by
    simpa using this tr.length
  intro n
  induction n with
  | zero => exact List.Pairwise.nil
  | succ n ih =>
    rcases logOf_step htr n tenantID runID with hs | ⟨i, t, res, events, hn, -, hg, hw⟩
    · rwa [hs]
    obtain ⟨new, hne, hsu⟩ := appendAll_eq (logOf (tr.take n) tenantID runID) events
    rw [hg, hne, pairwise_append]
    rcases dispatched_of_wrote hw with hno | ⟨step, attempt, fence, hh, -, hho⟩
    · have hi : ∀ d ∈ new, Event.isDispatch d = false := fun d hd =>
        isDispatch_of_attempts hno d (hsu.subset hd)
      refine ⟨ih, ?_, fun e _ d hd _ => hi d hd⟩
      exact pairwise_of_forall_mem_list fun e _ d hd _ => hi d hd
    · have ho := open_at_dispatch htr (htasks i) hends hn hh hho
      rw [completed_ofLog, any_eq_false] at ho
      refine ⟨ih, ?_, fun e he d _ hc => absurd hc (ho e he)⟩
      refine pairwise_of_forall_mem_list fun e he d _ hc => ?_
      rw [hho.not_closes e (hsu.subset he)] at hc
      cases hc

/-! ### A run cancelled in the middle of a pass -/

def startAndCancel : ℕ → Actor
  | 0 => doing (.startRun "acme" "run" "p" "r1")
  | _ => doing (.cancelRun "acme" "run")

/-- The pass has read the log when the run is cancelled. -/
def cancelledMidPass : History :=
  run oneStep startAndCancel { engines := [readyEngine] }
    ([0, 0, 0] ++ replicate 3 1 ++ replicate 20 0)

/-- The pass dispatches a step of the cancelled run. -/
theorem cancelledMidPass_starts_after_end :
    Runs oneStep startAndCancel cancelledMidPass ∧
      (∀ i, (startAndCancel i).task ≠ .job) ∧
      (logOf cancelledMidPass "acme" "run").map Event.payload =
        [.runCreated "p" "r1", .runCancelled, .stepDispatched { fence := 1 }] ∧
      ¬ NothingAfterEnd cancelledMidPass := by
  refine ⟨run_runs _ _ _ _, ?_, rfl, fun h => ?_⟩
  · rintro (_ | i) h <;> cases h
  · have hl := h "acme" "run"
    revert hl
    decide

/-- The act is no dispatch to a run that is over. -/
def opensAt (tr : History) (n : ℕ) : Bool :=
  match tr[n]? with
  | some ⟨_, ⟨.inr (.tx (.commit tenantID runID events _)), _⟩⟩ =>
    !events.any Event.isDispatch ||
      !(ofLog (logOf (tr.take n) tenantID runID)).completed
  | _ => true

theorem endsUndisturbed_of_opensAt {tr : History} {D : Definitions} {As : ℕ → Actor}
    (htr : PlaneTrace D As tr) (h : ∀ n < tr.length, opensAt tr n = true) : EndsUndisturbed tr := by
  rintro m n i tid rid log es rows res - - hn ⟨e, he, hd⟩ k - hkn ⟨-, hen⟩
  have ho := h n (List.getElem?_eq_some_iff.mp hn).1
  have ha : es.any Event.isDispatch = true := List.any_eq_true.mpr ⟨e, he, hd⟩
  have hop : (ofLog (logOf (tr.take n) tid rid)).completed = false := by
    rw [opensAt, hn] at ho
    simpa [did, ha] using ho
  have hm : logOf (tr.take (k + 1)) tid rid <+: logOf (tr.take n) tid rid :=
    logOf_take_mono htr (Nat.succ_le_of_lt hkn)
  rw [completed_mono hm hop] at hen
  cases hen

def cancelledLater : History :=
  run oneStep startAndCancel { engines := [readyEngine] }
    (replicate 20 0 ++ replicate 3 1)

theorem cancelledLater_nothing_after_end :
    NothingAfterEnd cancelledLater ∧
      (logOf cancelledLater "acme" "run").map Event.payload =
        [.runCreated "p" "r1", .stepDispatched { fence := 1 }, .runCancelled] := by
  have hr : Runs oneStep startAndCancel cancelledLater := run_runs _ _ _ _
  refine ⟨nothing_after_end oneStep startAndCancel cancelledLater hr ?_ ?_, rfl⟩
  · rintro (_ | i) h <;> cases h
  · exact endsUndisturbed_of_opensAt hr.planeTrace (by decide)

end Dhole.System
