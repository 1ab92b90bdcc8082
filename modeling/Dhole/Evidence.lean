import Dhole.LeaseSafety
import Dhole.System

/-! What an actor of the system can show for each call it makes, from its own calls alone.
A lease is taken for an attempt that a log made ready, or that came out of the queue or a
job; a transaction is committed on the grounds listed in `Grounds`; a body starts after a
dispatch or a delivery. `Permitted` collects this, call by call, and it is all that the
results about many planes use of the programs. -/

namespace Dhole.System

open Interleave Prog Plane Lease Scheduler List
open RunState (ofLog)

abbrev PlaneEvent := Interleave.Event planeSig

def sawLog (tenantID runID : String) (log : Log) : PlaneEvent :=
  ⟨.inr (.replay tenantID runID), some log⟩

def did (t : Tx) (r : TxRes) : PlaneEvent := ⟨.inr (.tx t), r⟩

def gotItems (plane slots : ℕ) (items : List QueueItem) : PlaneEvent :=
  ⟨.inr (.nextItems plane slots), some items⟩

def gotJob (plane : ℕ) (job : BuiltinJob) : PlaneEvent := ⟨.inr (.nextJob plane), some job⟩

def delivered (d : JobDispatch) : PlaneEvent := ⟨.inr .deliver, some d⟩

def started (body : Body) : PlaneEvent := ⟨.inr (.start body), ()⟩

def asked (q : Query) (answer : q.Answer) : PlaneEvent := ⟨.inr (.ask q), answer⟩

def isTx : PlaneEvent → Bool
  | ⟨.inr (.tx _), _⟩ => true
  | _ => false

def isStart : PlaneEvent → Bool
  | ⟨.inr (.start _), _⟩ => true
  | _ => false

/-- The event neither writes to the store nor reads a log. -/
def quiet : PlaneEvent → Bool
  | ⟨.inr (.tx _), _⟩ | ⟨.inr (.replay ..), _⟩ => false
  | _ => true

theorem isTx_of_quiet {e : PlaneEvent} (h : quiet e = true) : isTx e = false := by
  obtain ⟨op | op, r⟩ := e
  · rfl
  · cases op <;> first | rfl | cases h

/-- The call did not come to what was asked for. -/
def CallFailed : PlaneEvent → Prop
  | ⟨.inl op, r⟩ => Lease.Failed ⟨op, r⟩
  | ⟨.inr (.replay ..), r⟩ => r = none
  | ⟨.inr (.tx _), r⟩ => r ≠ TxRes.ok
  | _ => False

/-! ### The last log an actor read -/

def seenLog? (tenantID runID : String) : PlaneEvent → Option Log
  | ⟨.inr (.replay t r), log⟩ => if t = tenantID ∧ r = runID then log else none
  | _ => none

def lastLog (h : List PlaneEvent) (tenantID runID : String) : Option Log :=
  (h.filterMap (seenLog? tenantID runID)).getLast?

variable {h g : List PlaneEvent} {tid rid : String} {log : Log}

@[simp] theorem lastLog_snoc_sawLog : lastLog (h ++ [sawLog tid rid log]) tid rid = some log := by
  have hs : seenLog? tid rid (sawLog tid rid log) = some log := if_pos ⟨rfl, rfl⟩
  simp [lastLog, hs]

theorem seenLog?_of_quiet {e : PlaneEvent} (he : quiet e = true) : seenLog? tid rid e = none := by
  obtain ⟨op | op, r⟩ := e
  · rfl
  · cases op <;> first | rfl | cases he

theorem lastLog_append_quiet (hg : ∀ e ∈ g, quiet e = true) :
    lastLog (h ++ g) tid rid = lastLog h tid rid := by
  have hn : g.filterMap (seenLog? tid rid) = [] :=
    filterMap_eq_nil_iff.mpr fun e he => seenLog?_of_quiet (hg e he)
  rw [lastLog, filterMap_append, hn, append_nil, lastLog]

theorem lastLog_append_unread {e : PlaneEvent} (he : seenLog? tid rid e = none) :
    lastLog (h ++ [e]) tid rid = lastLog h tid rid := by
  simp [lastLog, he]

theorem mem_of_lastLog (hl : lastLog h tid rid = some log) : sawLog tid rid log ∈ h := by
  obtain ⟨⟨op, r⟩, hm, hs⟩ := mem_filterMap.mp (mem_of_getLast? hl)
  rcases op with op | op
  · cases hs
  cases op with
  | replay t r' =>
    by_cases hru : t = tid ∧ r' = rid
    · obtain ⟨rfl, rfl⟩ := hru
      have hr : r = some log := (if_pos ⟨rfl, rfl⟩).symm.trans hs
      rwa [hr] at hm
    · exact absurd ((if_neg hru).symm.trans hs) nofun
  | _ => cases hs

/-! ### Why an attempt is made -/

def Open (log : Log) : Prop :=
  (ofLog log).created = true ∧ (ofLog log).completed = false

def Ready (defs : Definitions) (log : Log) (c : StepKey) (step : Step) (attempt : ℕ) : Prop :=
  Open log ∧ ∃ p g, graphOf defs c.tenant (ofLog log) = some p ∧ Dag.build (some p) = .ok g ∧
    step ∈ p.steps ∧ Startable (predecessorsOf p g step.id) (ofLog log) step ∧
    attempt = (ofLog log).attempts step.id + 1 ∧
    step.id = c.step ∧ c.tenant ≠ "" ∧ c.run ≠ ""

def FoundReady (defs : Definitions) (h : List PlaneEvent) (c : StepKey) (step : Step)
    (attempt : ℕ) : Prop :=
  ∃ log, sawLog c.tenant c.run log ∈ h ∧ Ready defs log c step attempt

/-- The actor took the step from the queue and read a log that has not reached the attempt
the queue names. -/
def Queued (defs : Definitions) (h : List PlaneEvent) (c : StepKey) (step : Step)
    (attempt : ℕ) : Prop :=
  ∃ plane slots items item log p, gotItems plane slots items ∈ h ∧ item ∈ items ∧
    c = ⟨item.tenantID, item.runID, item.stepID⟩ ∧ sawLog c.tenant c.run log ∈ h ∧ Open log ∧
    (ofLog log).attempts c.step < item.attempt ∧
    attempt = (ofLog log).attempts c.step + 1 ∧
    graphOf defs c.tenant (ofLog log) = some p ∧ findStep p c.step = some step

inductive Chosen (defs : Definitions) (h : List PlaneEvent) (c : StepKey) (step : Step)
    (attempt : ℕ) : Prop
  | ready (hready : FoundReady defs h c step attempt)
  | queued (hqueued : Queued defs h c step attempt)
  | job (plane : ℕ) (job : BuiltinJob) (hjob : gotJob plane job ∈ h) (hkey : c = job.key)
      (hstep : step = job.step) (hattempt : attempt = job.attempt)

variable {D : Definitions} {c : StepKey} {step : Step} {att : ℕ}

theorem FoundReady.mono (hf : FoundReady D h c step att) (hs : h ⊆ g) :
    FoundReady D g c step att := by
  obtain ⟨log, hl, hr⟩ := hf
  exact ⟨log, hs hl, hr⟩

theorem Chosen.mono (hc : Chosen D h c step att) (hsu : h ⊆ g) : Chosen D g c step att := by
  cases hc with
  | ready hr => exact .ready (hr.mono hsu)
  | queued hq =>
    obtain ⟨pl, slots, its, item, log, p, hi, hie, hk, hl, hre⟩ := hq
    exact .queued ⟨pl, slots, its, item, log, p, hsu hi, hie, hk, hsu hl, hre⟩
  | job pl job hj hk hs ha =>
    exact .job pl job (hsu hj) hk hs ha

/-! ### Holding a lease -/

/-- The event took the lease of the attempt, on grounds the actor had then. -/
def TookFor (defs : Definitions) (h : List PlaneEvent) (e : LeaseEvent) (c : StepKey) (step : Step)
    (attempt fence : ℕ) : Prop :=
  (∃ data, Took e c data fence ∧ data.attempt = attempt) ∧ Chosen defs h c step attempt

def TookLease (defs : Definitions) (h : List PlaneEvent) (c : StepKey) (step : Step)
    (attempt fence : ℕ) : Prop :=
  ∃ h₀ e h₁, h = h₀ ++ e.inl :: h₁ ∧ TookFor defs h₀ e c step attempt fence

/-- After its take the actor read a log without the attempt, and has written nothing. -/
def Holding (defs : Definitions) (h : List PlaneEvent) (c : StepKey) (step : Step)
    (attempt fence : ℕ) : Prop :=
  ∃ h₀ e h₁ log, h = h₀ ++ e.inl :: h₁ ∧ TookFor defs h₀ e c step attempt fence ∧
    (∀ d ∈ h₁, isTx d = false) ∧ lastLog h₁ c.tenant c.run = some log ∧
    (ofLog log).attempts c.step < attempt

def Checked (h : List PlaneEvent) (c : StepKey) (fence : ℕ) : Prop :=
  ∃ r, [(sawClaim c (.found r fence)).inl] <:+ h

variable {fc : ℕ}

theorem TookLease.append (ht : TookLease D h c step att fc) :
    TookLease D (h ++ g) c step att fc := by
  obtain ⟨h₀, e, h₁, rfl, hto⟩ := ht
  exact ⟨h₀, e, h₁ ++ g, by simp, hto⟩

theorem Holding.tookLease (hh : Holding D h c step att fc) : TookLease D h c step att fc := by
  obtain ⟨h₀, e, h₁, log, heq, ht, -⟩ := hh
  exact ⟨h₀, e, h₁, heq, ht⟩

theorem Holding.append (hh : Holding D h c step att fc)
    (hg : ∀ e ∈ g, quiet e = true) : Holding D (h ++ g) c step att fc := by
  obtain ⟨h₀, e, h₁, log, rfl, ht, htx, hl, hlt⟩ := hh
  refine ⟨h₀, e, h₁ ++ g, log, by simp, ht, fun d hd => ?_, ?_, hlt⟩
  · rcases mem_append.mp hd with hd | hd
    · exact htx d hd
    · exact isTx_of_quiet (hg d hd)
  · rwa [lastLog_append_quiet hg]

/-! ### Jobs -/

def jobDispatched (job : BuiltinJob) (fence : ℕ) (at_ : ℤ) : Tx :=
  .commit job.tenantID job.runID
    [{ stepID := job.step.id, attempt := job.attempt, at_, payload := .stepDispatched { fence } }] []

/-- The actor recorded its job's dispatch, and these are its calls since. -/
def Recorded (h : List PlaneEvent) (job : BuiltinJob) (fence : ℕ) (since : List PlaneEvent) :
    Prop :=
  ∃ h₀ at_, h = h₀ ++ did (jobDispatched job fence at_) .ok :: since

def NotStarted (h : List PlaneEvent) : Prop := ∀ e ∈ h, isStart e = false

def FailedEarly (h : List PlaneEvent) : Prop :=
  ∃ h₀ e h₁, h = h₀ ++ e :: h₁ ∧ CallFailed e ∧ NotStarted h₀

theorem FailedEarly.append {h : List PlaneEvent} (hf : FailedEarly h) (g : List PlaneEvent) :
    FailedEarly (h ++ g) := by
  obtain ⟨h₀, e, h₁, rfl, hfa, hn⟩ := hf
  exact ⟨h₀, e, h₁ ++ g, by simp, hfa, hn⟩

def isReplay : PlaneEvent → Bool
  | ⟨.inr (.replay ..), _⟩ => true
  | _ => false

/-- The claim of a job failed: a call of it, before the first log was read. -/
def ClaimFailed (h : List PlaneEvent) : Prop :=
  ∃ h₀ e h₁, h = h₀ ++ e :: h₁ ∧ CallFailed e ∧ isReplay e = false ∧ ∀ d ∈ h₀, isReplay d = false

theorem ClaimFailed.append {h : List PlaneEvent} (hf : ClaimFailed h) (g : List PlaneEvent) :
    ClaimFailed (h ++ g) := by
  obtain ⟨h₀, e, h₁, rfl, hfa, hn⟩ := hf
  exact ⟨h₀, e, h₁ ++ g, by simp, hfa, hn⟩

/-- Why a job fails without a lease. -/
inductive Impeded (h : List PlaneEvent) (job : BuiltinJob) : Prop
  | failed (hfailed : ClaimFailed h)
  | races (hraces : maxOfferRaces ≤ (lefts h).countP lostRace)
  | unnamed (hunnamed : job.attempt = 0 ∨ ∃ e, claimKey job.tenantID job.runID job.step.id = .error e)
  | unknown (hunknown : job.step.pluginRef ≠ "builtin:llm" ∧ job.step.pluginRef ≠ "builtin:loop" ∧
      job.step.pluginRef ≠ "builtin:agent")

theorem Impeded.append {h : List PlaneEvent} {job : BuiltinJob} (hi : Impeded h job)
    (g : List PlaneEvent) : Impeded (h ++ g) job := by
  cases hi with
  | failed hf => exact .failed (hf.append g)
  | races hr =>
    refine .races (hr.trans ?_)
    rw [lefts_append, countP_append]
    exact Nat.le_add_right _ _
  | unnamed hu => exact .unnamed hu
  | unknown hun => exact .unknown hun

/-- The verdicts a job records, by attempt and event, and what it has seen then. -/
inductive JobVerdict (defs : Definitions) (h : List PlaneEvent) (job : BuiltinJob) :
    ℕ → Payload → Prop
  | succeeded {outputs : List OutputRef} {fence : ℕ}
      (htook : TookLease defs h job.key job.step job.attempt fence)
      (hchecked : Checked h job.key fence) : JobVerdict defs h job job.attempt (.stepSucceeded outputs)
  | failed {fence : ℕ} {log : Log} (htook : TookLease defs h job.key job.step job.attempt fence)
      (hchecked : Checked h job.key fence)
      (hwhy : FailedEarly h ∧ lastLog h job.tenantID job.runID = some log ∨
        ∃ since, Recorded h job fence since ∧ lastLog since job.tenantID job.runID = some log) :
      JobVerdict defs h job (max 1 ((ofLog log).attempts job.step.id)) .stepFailed
  | unheld {attempt : ℕ} (himpeded : Impeded h job) : JobVerdict defs h job attempt .stepFailed
  | gaveUp (hasked : asked (.body job) .gaveUp ∈ h) (hllm : job.step.pluginRef = "builtin:llm") :
      JobVerdict defs h job 0 .stepFailed

/-! ### Grounds for a transaction -/

/-- The attempt is lost with a lease the actor swept, or by a newer fence than the log's. -/
def Lost (h : List PlaneEvent) (orphan : Orphan) : Prop :=
  Swept (lefts h) orphan ∨
    ∃ log, sawLog orphan.tenantID orphan.runID log ∈ h ∧
      (ofLog log).fences orphan.stepID ≠ 0

theorem Lost.mono {h g : List PlaneEvent} {orphan : Orphan} (hl : Lost h orphan) (hsu : h ⊆ g) :
    Lost g orphan := by
  rcases hl with hs | ⟨log, hlo, hf⟩
  · exact .inl (hs.mono fun e he => mem_lefts.mpr (hsu (mem_lefts.mp he)))
  · exact .inr ⟨log, hsu hlo, hf⟩

/-- The last log the actor read leaves nothing to start and nothing to wait for. -/
structure Idle (defs : Definitions) (h : List PlaneEvent) (tenantID runID : String) (log : Log)
    (p : Pipeline) (g : Dag.Graph) (now : ℤ) : Prop where
  read : lastLog h tenantID runID = some log
  isOpen : Open log
  graph : graphOf defs tenantID (ofLog log) = some p
  build : Dag.build (some p) = .ok g
  ready : (plan p g (ofLog log) now).ready = []
  inFlight : (plan p g (ofLog log) now).inFlight = 0
  waiting : (plan p g (ofLog log) now).waiting = 0

theorem Idle.later {D : Definitions} {h h' : List PlaneEvent} {tid rid : String}
    {log : Log} {p : Pipeline} {g : Dag.Graph} {now : ℤ} (hi : Idle D h tid rid log p g now)
    (hl : lastLog h' tid rid = lastLog h tid rid) : Idle D h' tid rid log p g now :=
  { hi with read := hl.trans hi.read }

/-- What an actor can show for a transaction when it makes it. -/
inductive Grounds (defs : Definitions) (actor : Actor) (h : List PlaneEvent) : Tx → Prop
  | created {tenantID runID pipelineID revisionID : String} {at_ : ℤ} :
      Grounds defs actor h
        (.commit tenantID runID [{ payload := .runCreated pipelineID revisionID, at_ }] [])
  | note {tenantID runID : String} {e : Dhole.Event} (hinert : e.payload.inert = true)
      (hcloses : e.payload.closesRun = false) : Grounds defs actor h (.commit tenantID runID [e] [])
  | cancelled {tenantID runID : String} {at_ : ℤ} (htask : actor.task = .cancelRun tenantID runID) :
      Grounds defs actor h (.commit tenantID runID [{ payload := .runCancelled, at_ }] [])
  | refused {tenantID runID : String} {step : Step} {payload : Payload} {at_ at' : ℤ}
      (hrefusal : payload = .stepPolicyDenied ∨ payload = .stepSecretUnavailable)
      (hrecorded : [did (.commit tenantID runID [{ stepID := step.id, payload, at_ }] []) .ok,
        asked .now at'] <:+ h) :
      Grounds defs actor h (.commit tenantID runID
        [{ payload := .runFailed [step.id], at_ := at' }] [])
  | exhausted {tenantID runID : String} {log : Log} {p : Pipeline} {g : Dag.Graph} {now at_ : ℤ}
      (hidle : Idle defs h tenantID runID log p g now)
      (hsteps : (plan p g (ofLog log) now).exhausted ≠ []) :
      Grounds defs actor h (.commit tenantID runID
        [{ payload := .runFailed (plan p g (ofLog log) now).exhausted, at_ }] [])
  | completed {tenantID runID : String} {log : Log} {p : Pipeline} {g : Dag.Graph} {now at_ : ℤ}
      (hidle : Idle defs h tenantID runID log p g now)
      (hexhausted : (plan p g (ofLog log) now).exhausted = [])
      (hblocked : (plan p g (ofLog log) now).blocked = []) :
      Grounds defs actor h (.commit tenantID runID [{ payload := .runCompleted, at_ }] [])
  | dispatched {tenantID runID : String} {step : Step} {attempt fence : ℕ} {at_ : ℤ}
      (htask : actor.task ≠ .job)
      (hholding : Holding defs h ⟨tenantID, runID, step.id⟩ step attempt fence)
      (hchecked : Checked h ⟨tenantID, runID, step.id⟩ fence) :
      Grounds defs actor h (.commit tenantID runID
        [{ stepID := step.id, attempt, at_, payload := .stepDispatched { fence } }]
        [jobDispatch actor.cfg tenantID runID step attempt ⟨⟨tenantID, runID, step.id⟩, fence⟩])
  | served {tenantID runID : String} {step : Step} {attempt fence : ℕ} {at_ : ℤ}
      {outputs : List OutputRef} (htask : actor.task ≠ .job)
      (hholding : Holding defs h ⟨tenantID, runID, step.id⟩ step attempt fence)
      (hchecked : Checked h ⟨tenantID, runID, step.id⟩ fence) :
      Grounds defs actor h (.commit tenantID runID
        [{ stepID := step.id, attempt, at_, payload := .stepDispatched { fence, cacheHit := true } },
         { stepID := step.id, attempt, at_, payload := .stepSucceeded outputs }] [])
  | jobDispatched {plane : ℕ} {job : BuiltinJob} {fence : ℕ} {at_ : ℤ} (htask : actor.task = .job)
      (hjob : gotJob plane job ∈ h)
      (hholding : Holding defs h job.key job.step job.attempt fence)
      (hchecked : Checked h job.key fence) :
      Grounds defs actor h (System.jobDispatched job fence at_)
  | lost {orphan : Orphan} {log : Log} {at_ : ℤ} (hlost : Lost h orphan)
      (hlog : lastLog h orphan.tenantID orphan.runID = some log)
      (hterminal : (ofLog log).terminal orphan.stepID = none)
      (hattempts : (ofLog log).attempts orphan.stepID = orphan.attempt) :
      Grounds defs actor h (.commit orphan.tenantID orphan.runID
        [{ stepID := orphan.stepID, attempt := orphan.attempt, at_,
           payload := .stepAttemptLost orphan.fence }] [])
  | status {tenantID : String} {st : JobStatus} {token : Token} {r : ClaimRecord}
      {payload : Payload} {log : Log} {at_ : ℤ} (htask : actor.task = .onStatus (some st))
      (hfence : decodeFence st.fence = some (tenantID, token))
      (hseen : [(sawClaim token.value (.found r token.fence)).inl, sawLog tenantID st.runID log,
        asked .now at_] <:+ h)
      (hpayload : terminalEvent st = some payload)
      (hterminal : (ofLog log).terminal st.stepID = none) :
      Grounds defs actor h (.commit tenantID st.runID
        [{ stepID := st.stepID, attempt := st.attempt, payload, at_ }] [])
  | verdict {plane : ℕ} {job : BuiltinJob} {attempt : ℕ} {payload : Payload} {at_ : ℤ}
      (htask : actor.task = .job) (hjob : gotJob plane job ∈ h)
      (hverdict : JobVerdict defs h job attempt payload) :
      Grounds defs actor h (.commit job.tenantID job.runID
        [{ stepID := job.step.id, attempt, payload, at_ }] [])
  | realised {plane : ℕ} {job : BuiltinJob} {spec : Loop.Spec} {fragment : Pipeline} {at_ : ℤ}
      (htask : actor.task = .job) (hjob : gotJob plane job ∈ h)
      (hspec : asked (.loopSpec job.step) (some spec) ∈ h)
      (hfragment : spec.fragment = some fragment) :
      Grounds defs actor h (.commit job.tenantID job.runID
        [{ stepID := job.step.id, payload := .fragmentRealised fragment, at_ }] [])
  | armTimer {tenantID runID stepID : String} {dueAt at_ : ℤ} :
      Grounds defs actor h (.armTimer tenantID runID stepID dueAt at_)
  | requestApproval {plane : ℕ} {job : BuiltinJob} {parks : Bool} {at_ : ℤ}
      (htask : actor.task = .job) (hjob : gotJob plane job ∈ h) :
      Grounds defs actor h (.requestApproval job.tenantID job.runID job.step.id parks at_)
  | decideGate {tenantID runID stepID : String} {approved : Bool} {at_ : ℤ}
      (htask : actor.task = .decideGate tenantID runID stepID approved) :
      Grounds defs actor h (.decideGate tenantID runID stepID approved at_)
  | fireTimer {tenantID runID stepID : String} {at_ : ℤ}
      (htask : actor.task = .fireTimer tenantID runID stepID) :
      Grounds defs actor h (.fireTimer tenantID runID stepID at_)

/-! ### Bodies and calls -/

def Accepted (h : List PlaneEvent) (d : JobDispatch) : Prop :=
  ∃ tenantID token expiresAt rev, d.fence = .token tenantID token ∧
    (wroteRenewal token.value ⟨token.fence, expiresAt⟩ (.ok rev)).inl ∈ h

/-- What an actor has done when it starts a body, the only one it starts. -/
inductive Starts (actor : Actor) (h : List PlaneEvent) : Body → Prop
  | engine {d : JobDispatch} (htask : actor.task = .engine) (hdelivered : delivered d ∈ h)
      (hnot : NotStarted h) (hconfirmed : d.confirmAcceptance = false ∨ Accepted h d ∨
        d.step.effectClass ≠ .atMostOnce) : Starts actor h (.engine d)
  | builtin {plane : ℕ} {job : BuiltinJob} {fence : ℕ} {since : List PlaneEvent}
      (htask : actor.task = .job) (hjob : gotJob plane job ∈ h)
      (hrecorded : Recorded h job fence since) (hnot : NotStarted h) :
      Starts actor h (.builtin job)

def Permitted (defs : Definitions) (actor : Actor) (h : List PlaneEvent) : PlaneEvent → Prop
  | ⟨.inl op, r⟩ => ∃ call : Call, (∀ at_ c data, call.takes at_ = some (c, data) →
      ∃ step, Chosen defs h c step data.attempt) ∧ Justified call (lefts h) ⟨op, r⟩
  | ⟨.inr (.tx t), _⟩ => Grounds defs actor h t
  | ⟨.inr (.enqueue _ item), _⟩ =>
    ∃ step, FoundReady defs h ⟨item.tenantID, item.runID, item.stepID⟩ step item.attempt
  | ⟨.inr (.takeJob _ job), _⟩ =>
    FoundReady defs h job.key job.step job.attempt ∧ isBuiltin job.step = true
  | ⟨.inr (.nextJob _), _⟩ => actor.task = .job
  | ⟨.inr (.start body), _⟩ => Starts actor h body
  | _ => True

end Dhole.System
