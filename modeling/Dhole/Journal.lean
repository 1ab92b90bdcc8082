import Dhole.Jobs
import Dhole.Moments

/-! The log of a run over a history. It only grows, so what an actor read of it is a part of
it from then on; `Wrote` says what one act can append and why. What comes out of a queue or
a plane's jobs was ready in a part of the log, and so was every attempt a lease was taken
for. -/

namespace Dhole.System

open Interleave Prog Plane Lease Scheduler List

def storeOf (tr : History) : Store := (planeWorld.state tr).2.store

def logOf (tr : History) (tenantID runID : String) : Log := (storeOf tr).log tenantID runID

/-- What a transaction that took effect appends to the log of a run. -/
inductive Wrote (defs : Definitions) (actor : Actor) (h : List PlaneEvent) (log : Log)
    (tenantID runID : String) : Tx → List Dhole.Event → Prop
  | commit {events : List Dhole.Event} {rows : List JobDispatch}
      (hgrounds : Grounds defs actor h (.commit tenantID runID events rows))
      (hfresh : (∀ e ∈ events, createsRun e = false) ∨ log = []) :
      Wrote defs actor h log tenantID runID (.commit tenantID runID events rows) events
  | awaitingTimer {stepID : String} {dueAt at_ : ℤ} :
      Wrote defs actor h log tenantID runID (.armTimer tenantID runID stepID dueAt at_)
        [{ stepID, payload := .stepAwaitingTimer dueAt, at_ }]
  | awaitingApproval {plane : ℕ} {job : BuiltinJob} {parks : Bool} {at_ : ℤ}
      (htask : actor.task = .job) (hjob : gotJob plane job ∈ h) (htenant : job.tenantID = tenantID)
      (hrun : job.runID = runID) :
      Wrote defs actor h log tenantID runID
        (.requestApproval tenantID runID job.step.id parks at_)
        [{ stepID := job.step.id, payload := .stepAwaitingApproval parks, at_ }]
  | decided {stepID : String} {approved : Bool} {at_ : ℤ}
      (htask : actor.task = .decideGate tenantID runID stepID approved)
      (hawaiting : (GateState.read log stepID).awaiting = true) :
      Wrote defs actor h log tenantID runID (.decideGate tenantID runID stepID approved at_)
        (Store.decision stepID approved (GateState.read log stepID).parks at_)
  | fired {stepID : String} {at_ : ℤ} (htask : actor.task = .fireTimer tenantID runID stepID) :
      Wrote defs actor h log tenantID runID (.fireTimer tenantID runID stepID at_)
        [{ stepID, payload := .stepTimerFired, at_ }, { stepID, payload := .stepSucceeded [], at_ }]

variable {s s' : Store} {tid rid : String} {D : Definitions} {A : Actor}
  {h : List PlaneEvent}

theorem write_log {t : Tx} {t' r' : String} {es : List Dhole.Event}
    (hw : Wrote D A h (s.log t' r') t' r' t es) : (s.write t' r' es).log tid rid = s.log tid rid ∨
      ∃ new, (s.write t' r' es).log tid rid = (s.log tid rid).appendAll new ∧
        Wrote D A h (s.log tid rid) tid rid t new := by
  by_cases hr : tid = t' ∧ rid = r'
  · obtain ⟨rfl, rfl⟩ := hr
    exact .inr ⟨es, if_pos ⟨rfl, rfl⟩, hw⟩
  · exact .inl (if_neg hr)

/-- What a transaction that took effect did to the log of a run. -/
theorem apply_log {t : Tx} (hg : Grounds D A h t) (hf : t.Fresh s)
    (ha : t.apply s = some s') : s'.log tid rid = s.log tid rid ∨
      ∃ es, s'.log tid rid = (s.log tid rid).appendAll es ∧
        Wrote D A h (s.log tid rid) tid rid t es := by
  cases t with
  | commit t r es rows =>
    simp only [Tx.apply] at ha
    split at ha
    · cases ha
    cases ha
    exact write_log (.commit hg hf)
  | armTimer t r st du at_ =>
    simp only [Tx.apply] at ha
    split at ha <;> cases ha
    · exact .inl rfl
    · exact write_log .awaitingTimer
  | requestApproval t r st pa at_ =>
    simp only [Tx.apply] at ha
    split at ha
    · cases ha
    split at ha <;> cases ha
    · exact .inl rfl
    · cases hg with
      | requestApproval ht hj => exact write_log (.awaitingApproval ht hj rfl rfl)
  | decideGate t r st approved at_ =>
    simp only [Tx.apply] at ha
    split at ha
    · cases ha
    have hga : (GateState.read (s.log t r) st).awaiting = true := by simp_all
    cases ha
    cases hg with
    | decideGate ht => exact write_log (.decided ht hga)
  | fireTimer t r st at_ =>
    simp only [Tx.apply] at ha
    split at ha
    · cases ha
    split at ha
    · cases ha
    split at ha <;> cases ha
    · exact .inl rfl
    · cases hg with
      | fireTimer ht => exact write_log (.fired ht)

/-! ### The log over a history -/

section Histories

variable {As : ℕ → Actor} {tr : History} {i n m : ℕ} {e : PlaneEvent}

def Grew (defs : Definitions) (actor : Actor) (h : List PlaneEvent) (e : PlaneEvent)
    (tenantID runID : String) (log log' : Log) : Prop :=
  log' = log ∨ ∃ t res events, e = did t res ∧ res.landed = true ∧ log' = log.appendAll events ∧
    Wrote defs actor h log tenantID runID t events

variable {log : Log}

theorem Grew.isPrefix {log' : Log} (hg : Grew D A h e tid rid log log') : log <+: log' := by
  rcases hg with rfl | ⟨t, res, es, -, -, rfl, -⟩
  · exact prefix_rfl
  · exact Log.prefix_appendAll _ _

theorem storeNext_grew {s : StoreState} {op : Plane.Op} {r : storeSig.Res op}
    (han : storeWorld.Answers s ⟨op, r⟩) (hp : Permitted D A h ⟨.inr op, r⟩) :
    Grew D A h ⟨.inr op, r⟩ tid rid (s.store.log tid rid)
      ((storeWorld.next s ⟨op, r⟩ : StoreState).store.log tid rid) := by
  obtain hs | ⟨t, res, heq, hl, hf, ha⟩ := storeNext_cases han
  · exact .inl (congrArg (fun s : Store => s.log tid rid) hs)
  · cases heq
    rcases apply_log hp hf ha with hlo | ⟨es, hlo, hw⟩
    · exact .inl hlo
    · exact .inr ⟨t, res, es, rfl, hl, hlo, hw⟩

theorem next_grew {s : planeWorld.State} (ha : planeWorld.Answers s e) (hp : Permitted D A h e) :
    Grew D A h e tid rid (s.2.store.log tid rid) ((planeWorld.next s e).2.store.log tid rid) := by
  obtain ⟨op | op, r⟩ := e
  · exact .inl rfl
  · exact storeNext_grew ha hp

variable (htr : PlaneTrace D As tr)

include htr

theorem logOf_step (n : ℕ) (tid rid : String) :
    logOf (tr.take (n + 1)) tid rid = logOf (tr.take n) tid rid ∨
      ∃ i t res es, tr[n]? = some ⟨i, did t res⟩ ∧ res.landed = true ∧
        logOf (tr.take (n + 1)) tid rid = (logOf (tr.take n) tid rid).appendAll es ∧
        Wrote D (As i) (own i (tr.take n)) (logOf (tr.take n) tid rid) tid rid t es := by
  cases hn : tr[n]? with
  | none =>
    have hle := getElem?_eq_none_iff.mp hn
    rw [take_of_length_le hle, take_of_length_le (hle.trans n.le_succ)]
    exact .inl rfl
  | some a =>
    obtain ⟨i, e⟩ := a
    obtain ⟨ha, hp⟩ := htr.at_get hn
    have hlo : logOf (tr.take (n + 1)) tid rid =
        (planeWorld.next (planeWorld.state (tr.take n)) e).2.store.log tid rid := by
      rw [logOf, storeOf, state_take_succ hn]
    rw [hlo]
    rcases next_grew ha hp with hs | ⟨t, res, es, rfl, hl, hg, hw⟩
    · exact .inl hs
    · exact .inr ⟨i, t, res, es, rfl, hl, hg, hw⟩

theorem logOf_take_mono (hnm : n ≤ m) : logOf (tr.take n) tid rid <+: logOf (tr.take m) tid rid :=
  htr.ordered (R := fun (s s' : planeWorld.State) =>
      s.2.store.log tid rid <+: s'.2.store.log tid rid)
    (fun _ => prefix_rfl) (fun _ _ _ => List.IsPrefix.trans)
    (fun _ _ _ _ ha hp => (next_grew ha hp).isPrefix) hnm

theorem prefix_logOf_take (n : ℕ) : logOf (tr.take n) tid rid <+: logOf tr tid rid := by
  have hm : logOf (tr.take n) tid rid <+: logOf (tr.take (n + tr.length)) tid rid :=
    logOf_take_mono htr (Nat.le_add_right _ _)
  rwa [take_of_length_le (Nat.le_add_left _ _)] at hm

theorem log_of_sawLog (hn : tr[n]? = some ⟨i, sawLog tid rid log⟩) :
    log = logOf (tr.take n) tid rid :=
  (htr.at_get hn).1 log rfl

theorem prefix_of_sawLog (hs : sawLog tid rid log ∈ own i tr) : log <+: logOf tr tid rid := by
  obtain ⟨n, hn⟩ := get_of_mem_own hs
  rw [log_of_sawLog htr hn]
  exact prefix_logOf_take htr n

end Histories

/-! ### Where an attempt comes from -/

def WasReady (defs : Definitions) (log : Log) (c : StepKey) (step : Step) (attempt : ℕ) : Prop :=
  ∃ l, l <+: log ∧ Ready defs l c step attempt

theorem WasReady.mono {D : Definitions} {log log' : Log} {c : StepKey} {step : Step}
    {att : ℕ} (h : WasReady D log c step att) (hl : log <+: log') : WasReady D log' c step att := by
  obtain ⟨l, hp, hr⟩ := h
  exact ⟨l, hp.trans hl, hr⟩

section Origins

variable {As : ℕ → Actor} {tr : History} {i : ℕ} {c : StepKey} {step : Step} {att : ℕ}

theorem FoundReady.wasReady (htr : PlaneTrace D As tr) (hf : FoundReady D (own i tr) c step att) :
    WasReady D (logOf tr c.tenant c.run) c step att := by
  obtain ⟨log, hs, hr⟩ := hf
  exact ⟨log, prefix_of_sawLog htr hs, hr⟩

variable {plane : ℕ}

theorem mem_of_mem_update {β : Type} {q : ℕ → List β} {plane' : ℕ} {l : List β} {x : β}
    (h : x ∈ Function.update q plane' l plane) : x ∈ q plane ∨ plane = plane' ∧ x ∈ l := by
  by_cases hp : plane = plane'
  · subst hp
    rw [Function.update_self] at h
    exact .inr ⟨rfl, h⟩
  · rw [Function.update_of_ne hp] at h
    exact .inl h

theorem mem_of_mem_push {β : Type} {q : ℕ → List β} {plane' : ℕ} {x y : β}
    (h : x ∈ Function.update q plane' (q plane' ++ [y]) plane) :
    x ∈ q plane ∨ plane = plane' ∧ x = y := by
  rcases mem_of_mem_update h with h | ⟨rfl, h⟩
  · exact .inl h
  · exact (mem_append.mp h).imp_right fun h => ⟨rfl, mem_singleton.mp h⟩

variable {s : StoreState} {e : Interleave.Event storeSig} {item : QueueItem}

theorem mem_queue_next (h : item ∈ (storeWorld.next s e : StoreState).queue plane) :
    item ∈ s.queue plane ∨ e = ⟨.enqueue plane item, PutRes.queued⟩ := by
  obtain ⟨op, r⟩ := e
  cases op with
  | tx t => exact .inl (congrArg StoreState.queue (storeNext_tx s t r) ▸ h)
  | enqueue pl' it' =>
    cases r with
    | queued =>
      rcases mem_of_mem_push h with h | ⟨rfl, rfl⟩
      · exact .inl h
      · exact .inr rfl
    | skipped | failed => exact .inl h
  | nextItems pl' slots =>
    cases r with
    | none => exact .inl h
    | some its =>
      rcases mem_of_mem_update h with h | ⟨rfl, h⟩
      · exact .inl h
      · exact .inl (diff_subset _ _ h)
  | takeJob pl' job | nextJob pl' => cases r <;> exact .inl h
  | replay t r' | deliver | start body | ask q => exact .inl h

variable {job : BuiltinJob}

theorem mem_jobs_next (h : job ∈ (storeWorld.next s e : StoreState).jobs plane) :
    job ∈ s.jobs plane ∨ e = ⟨.takeJob plane job, PutRes.queued⟩ := by
  obtain ⟨op, r⟩ := e
  cases op with
  | tx t => exact .inl (congrArg StoreState.jobs (storeNext_tx s t r) ▸ h)
  | takeJob pl' job' =>
    cases r with
    | queued =>
      rcases mem_of_mem_push h with h | ⟨rfl, rfl⟩
      · exact .inl h
      · exact .inr rfl
    | skipped | failed => exact .inl h
  | nextJob pl' =>
    cases r with
    | none => exact .inl h
    | some job' =>
      rcases mem_of_mem_update h with h | ⟨rfl, h⟩
      · exact .inl h
      · exact .inl (mem_of_mem_erase h)
  | enqueue pl' item | nextItems pl' slots => cases r <;> exact .inl h
  | replay t r' | deliver | start body | ask q => exact .inl h

/-- What waits in a queue or among the jobs of a plane was ready. -/
structure WaitsReady (defs : Definitions) (tr : History) : Prop where
  queue : ∀ plane, ∀ item ∈ (planeWorld.state tr).2.queue plane, ∃ step,
    WasReady defs (logOf tr item.tenantID item.runID) ⟨item.tenantID, item.runID, item.stepID⟩
      step item.attempt
  jobs : ∀ plane, ∀ job ∈ (planeWorld.state tr).2.jobs plane, isBuiltin job.step = true ∧
    WasReady defs (logOf tr job.tenantID job.runID) job.key job.step job.attempt

variable (htr : PlaneTrace D As tr)

include htr

theorem waitsReady : WaitsReady D tr := by
  induction htr with
  | nil => exact ⟨fun _ _ hi => (nomatch hi), fun _ _ hj => (nomatch hj)⟩
  | @snoc tr i e htr ha hp ih =>
    have hm : ∀ t r, logOf tr t r <+: logOf (tr ++ [⟨i, e⟩]) t r := fun t r => by
      rw [logOf, logOf, storeOf, storeOf, World.state_snoc]
      exact (next_grew ha hp).isPrefix
    constructor
    · intro plane item hi
      rw [World.state_snoc] at hi
      obtain ⟨op | op, r⟩ := e
      · obtain ⟨step, hr⟩ := ih.queue plane item hi
        exact ⟨step, hr.mono (hm _ _)⟩
      rcases mem_queue_next hi with hi | heq
      · obtain ⟨step, hr⟩ := ih.queue plane item hi
        exact ⟨step, hr.mono (hm _ _)⟩
      · cases heq
        obtain ⟨step, hr⟩ := hp
        exact ⟨step, (hr.wasReady htr).mono (hm _ _)⟩
    · intro plane job hj
      rw [World.state_snoc] at hj
      obtain ⟨op | op, r⟩ := e
      · obtain ⟨hb, hr⟩ := ih.jobs plane job hj
        exact ⟨hb, hr.mono (hm _ _)⟩
      rcases mem_jobs_next hj with hj | heq
      · obtain ⟨hb, hr⟩ := ih.jobs plane job hj
        exact ⟨hb, hr.mono (hm _ _)⟩
      · cases heq
        obtain ⟨hr, hb⟩ := hp
        exact ⟨hb, (hr.wasReady htr).mono (hm _ _)⟩

theorem wasReady_of_gotJob (hj : gotJob plane job ∈ own i tr) : isBuiltin job.step = true ∧
      WasReady D (logOf tr job.tenantID job.runID) job.key job.step job.attempt := by
  obtain ⟨n, hn⟩ := get_of_mem_own hj
  obtain ⟨hb, hr⟩ := (waitsReady (htr.take n)).jobs plane job ((htr.at_get hn).1 job rfl)
  exact ⟨hb, hr.mono (prefix_logOf_take htr n)⟩

theorem wasReady_of_gotItems {slots : ℕ} {its : List QueueItem}
    (hi : gotItems plane slots its ∈ own i tr) (hie : item ∈ its) :
    ∃ step, WasReady D (logOf tr item.tenantID item.runID)
      ⟨item.tenantID, item.runID, item.stepID⟩ step item.attempt := by
  obtain ⟨n, hn⟩ := get_of_mem_own hi
  have hq := ((htr.at_get hn).1 its rfl).2.subset hie
  obtain ⟨step, hr⟩ := (waitsReady (htr.take n)).queue plane item hq
  exact ⟨step, hr.mono (prefix_logOf_take htr n)⟩

omit htr

/-- The grounds of a take, as parts of the log. -/
inductive ChosenFrom (defs : Definitions) (log : Log) (c : StepKey) (step : Step) (attempt : ℕ) :
    Prop
  | ready (hready : WasReady defs log c step attempt)
  | queued {l : Log} {step₀ : Step} {limit : ℕ} {p : Pipeline} (hl : l <+: log) (hopen : Open l)
      (hready : WasReady defs log c step₀ limit)
      (hlimit : (RunState.ofLog l).attempts c.step < limit)
      (hattempt : attempt = (RunState.ofLog l).attempts c.step + 1)
      (hgraph : graphOf defs c.tenant (RunState.ofLog l) = some p)
      (hstep : findStep p c.step = some step)

theorem Chosen.from (htr : PlaneTrace D As tr) (hc : Chosen D (own i tr) c step att) :
    ChosenFrom D (logOf tr c.tenant c.run) c step att := by
  cases hc with
  | ready hr => exact .ready (hr.wasReady htr)
  | queued hq =>
    obtain ⟨plane, slots, its, item, log, p, hi, hie, rfl, hsa, ho, hlt, ha,
      hg, hf⟩ := hq
    obtain ⟨step₀, hr⟩ := wasReady_of_gotItems htr hi hie
    exact .queued (prefix_of_sawLog htr hsa) ho hr hlt ha hg hf
  | job plane job hj hk hs ha =>
    subst hk hs ha
    exact .ready (wasReady_of_gotJob htr hj).2

theorem ChosenFrom.mono {log log' : Log} (hc : ChosenFrom D log c step att)
    (hl : log <+: log') : ChosenFrom D log' c step att := by
  cases hc with
  | ready hr => exact .ready (hr.mono hl)
  | queued hl' ho hr hli ha hg hs =>
    exact .queued (hl'.trans hl) ho (hr.mono hl) hli ha hg hs

theorem Holding.chosenFrom {n fc : ℕ} (htr : PlaneTrace D As tr)
    (hh : Holding D (own i (tr.take n)) c step att fc) :
    ChosenFrom D (logOf (tr.take n) c.tenant c.run) c step att := by
  obtain ⟨h₀, e, h₁, -, ho, ⟨-, hc⟩, -⟩ := hh
  obtain ⟨k, hkn, -, hp, -⟩ := own_take_split ho
  rw [← hp] at hc
  exact (hc.from (htr.take k)).mono (logOf_take_mono htr hkn.le)

theorem ChosenFrom.attempt_eq {log : Log} (hc : ChosenFrom D log c step att) :
    ∃ l, l <+: log ∧ att = (RunState.ofLog l).attempts c.step + 1 := by
  cases hc with
  | ready hr =>
    obtain ⟨l, hl, -, p, g, -, -, -, -, ha, hid, -⟩ := hr
    exact ⟨l, hl, hid ▸ ha⟩
  | queued hl _ _ _ ha _ _ => exact ⟨_, hl, ha⟩

end Origins

end Dhole.System
