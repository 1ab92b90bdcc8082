import Dhole.Compose
import Dhole.Lease
import Dhole.Loop
import Dhole.RunLog

/-! The world a control plane works on: the lease bucket beside a transactional store
that holds the logs of all runs, the outbox and the timers. A transaction is one atomic
step, and one that failed may have committed all the same. What a plane asks other
components is a question any answer is possible to; the jobs and the queue of a plane
give back only what was put in. -/

namespace Dhole.Plane

open Interleave Prog

/-! ### Messages -/

inductive Fence where
  | malformed
  | token (tenantID : String) (t : Lease.Token)
deriving DecidableEq

def encodeFence (tenantID : String) (t : Lease.Token) : Fence := .token tenantID t

def decodeFence : Fence → Option (String × Lease.Token)
  | .malformed => none
  | .token tenantID t => some (tenantID, t)

/-- What an engine is sent, as far as it decides whether the step's body starts. -/
structure JobDispatch where
  tenantID : String
  runID : String
  stepID : String
  attempt : ℕ
  fence : Fence
  step : Step
  confirmAcceptance : Bool
deriving DecidableEq

/-- What an engine reports; to a plane the fence comes decoded. -/
structure JobStatus (F : Type := Fence) where
  runID : String
  stepID : String
  attempt : ℕ
  fence : F
  phase : Phase
  outputs : List OutputRef := []
deriving DecidableEq

structure QueueItem where
  tenantID : String
  runID : String
  stepID : String
  pipelineID : String
  attempt : ℕ
deriving DecidableEq

structure BuiltinJob where
  tenantID : String
  runID : String
  step : Step
  attempt : ℕ
deriving DecidableEq

def BuiltinJob.key (job : BuiltinJob) : Lease.StepKey := ⟨job.tenantID, job.runID, job.step.id⟩

inductive EngineState where
  | registering
  | ready
  | draining
  | gone
deriving DecidableEq

structure Instance where
  state : EngineState
  slots : ℤ
  os : String
  arch : String
  engineTypes : List String
  capabilities : List Capability
  inFlight : ℕ := 0
deriving DecidableEq

/-! ### The store -/

structure Timer where
  tenantID : String
  runID : String
  stepID : String
  dueAt : ℤ
  fired : Bool := false
deriving DecidableEq

structure Store where
  log : String → String → Log := fun _ _ => []
  outbox : List JobDispatch := []
  timers : List Timer := []

structure GateState where
  awaiting : Bool := false
  decided : Bool := false
  parks : Bool := false
deriving DecidableEq

def GateState.fold (stepID : String) (g : GateState) (e : Event) : GateState :=
  if e.stepID ≠ stepID then g
  else
    match e.payload with
    | .stepAwaitingApproval parks => { g with awaiting := true, parks }
    | .stepApprovalDecided _ => { g with decided := true }
    | _ => g

def GateState.read (log : Log) (stepID : String) : GateState := log.foldl (GateState.fold stepID) {}

inductive Tx where
  | commit (tenantID runID : String) (events : List Event) (dispatches : List JobDispatch)
  | armTimer (tenantID runID stepID : String) (dueAt at_ : ℤ)
  | requestApproval (tenantID runID stepID : String) (parks : Bool) (at_ : ℤ)
  | decideGate (tenantID runID stepID : String) (approved : Bool) (at_ : ℤ)
  | fireTimer (tenantID runID stepID : String) (at_ : ℤ)

inductive TxRes where
  | ok
  | refused
  | failed (landed : Bool)
deriving DecidableEq

def TxRes.landed : TxRes → Bool
  | .ok => true
  | .refused => false
  | .failed landed => landed

namespace Store

def write (s : Store) (tenantID runID : String) (events : List Event) : Store :=
  { s with
    log := fun t r => if t = tenantID ∧ r = runID then (s.log t r).appendAll events else s.log t r }

def hasTimer (s : Store) (tenantID runID stepID : String) : Bool :=
  s.timers.any fun t => t.tenantID = tenantID && t.runID = runID && t.stepID = stepID

/-- The run is over or the step has its verdict: a timer that comes due finds nothing to
resume. A cancelled run does not count. -/
def retired (log : Log) (stepID : String) : Bool :=
  log.any fun e =>
    match e.payload with
    | .runCompleted | .runFailed _ => true
    | .stepSucceeded _ | .stepFailed => e.stepID = stepID
    | _ => false

/-- The events of a decision, where the gate is a step of its own or a step parked at it. -/
def decision (stepID : String) (approved parks : Bool) (at_ : ℤ) : List Event :=
  let decided : Event := { stepID, payload := .stepApprovalDecided approved, at_ }
  if approved && parks then [decided, { stepID, payload := .stepResumed, at_ }]
  else if approved then [decided, { stepID, payload := .stepSucceeded [], at_ }]
  else
    [decided, { stepID, payload := .stepFailed, at_ }, { payload := .runFailed [stepID], at_ }]

end Store

/-- What a transaction leaves behind; nothing where it is refused. -/
def Tx.apply (s : Store) : Tx → Option Store
  | .commit tenantID runID events dispatches =>
    if tenantID = "" then none
    else some { s.write tenantID runID events with outbox := s.outbox ++ dispatches }
  | .armTimer tenantID runID stepID dueAt at_ =>
    if s.hasTimer tenantID runID stepID then some s
    else
      some { s.write tenantID runID [{ stepID, payload := .stepAwaitingTimer dueAt, at_ }] with
        timers := s.timers ++ [{ tenantID, runID, stepID, dueAt }] }
  | .requestApproval tenantID runID stepID parks at_ =>
    let gate := GateState.read (s.log tenantID runID) stepID
    if gate.decided then none
    else if gate.awaiting then some s
    else some (s.write tenantID runID [{ stepID, payload := .stepAwaitingApproval parks, at_ }])
  | .decideGate tenantID runID stepID approved at_ =>
    let gate := GateState.read (s.log tenantID runID) stepID
    if gate.decided || !gate.awaiting then none
    else some (s.write tenantID runID (Store.decision stepID approved gate.parks at_))
  | .fireTimer tenantID runID stepID at_ =>
    match s.timers.find? fun t => t.tenantID = tenantID && t.runID = runID && t.stepID = stepID with
    | none => none
    | some timer =>
      if timer.fired || decide (at_ < timer.dueAt) then none
      else
        let fired : Store := { s with timers := s.timers.map fun t =>
          if t = timer then { t with fired := true } else t }
        if Store.retired (s.log tenantID runID) stepID then some fired
        else some (fired.write tenantID runID
          [{ stepID, payload := .stepTimerFired, at_ }, { stepID, payload := .stepSucceeded [], at_ }])

/-! ### The calls of a plane -/

inductive PolicyAnswer where
  | allowed
  | denied
  | failed

inductive CacheAnswer where
  | miss
  | hit (outputs : List OutputRef)
  | failed

inductive AdmitAnswer where
  | admitted
  | refused (reason : String)
  | failed

/-- What the body of a builtin step came to: its outputs, an error, a model that gave no
usable answer, a gate the step has to wait at, or a loop's next iteration. -/
inductive BodyAnswer where
  | succeeded (outputs : List OutputRef)
  | failed
  | gaveUp
  | parked
  | iterate
deriving DecidableEq

inductive Query where
  | now
  | definitions
  | cancelled
  | instances (tenantID : String)
  | policy (tenantID runID : String) (step : Step)
  | cached (tenantID runID : String) (step : Step)
  | recordCache (tenantID runID stepID : String)
  | secretsUsable (tenantID : String) (step : Step)
  | gateDuration (step : Step)
  | admission (tenantID pipelineID : String)
  | prepare (tenantID runID : String) (step : Step) (attempt : ℕ)
  | loopSpec (step : Step)
  | body (job : BuiltinJob)
  | leaseLost
  | runnable (d : JobDispatch)
  | sent
  | answered
  | published

def Query.Answer : Query → Type
  | .now => ℤ
  | .definitions | .cancelled | .recordCache .. | .secretsUsable .. | .prepare .. | .leaseLost
  | .runnable _ | .sent | .answered | .published => Bool
  | .instances _ => Option (List Instance)
  | .policy .. => PolicyAnswer
  | .cached .. => CacheAnswer
  | .gateDuration _ => Option ℤ
  | .admission .. => AdmitAnswer
  | .loopSpec _ => Option Loop.Spec
  | .body _ => BodyAnswer

inductive PutRes where
  | queued
  | skipped
  | failed

/-- A body that starts to run: on an engine, or on a plane for a builtin step. -/
inductive Body where
  | engine (d : JobDispatch)
  | builtin (job : BuiltinJob)

inductive Op where
  | replay (tenantID runID : String)
  | tx (t : Tx)
  | enqueue (plane : ℕ) (item : QueueItem)
  | nextItems (plane slots : ℕ)
  | takeJob (plane : ℕ) (job : BuiltinJob)
  | nextJob (plane : ℕ)
  | deliver
  | start (body : Body)
  | ask (q : Query)

def storeSig : Sig where
  Op := Op
  Res
    | .replay .. => Option Log
    | .tx _ => TxRes
    | .enqueue .. | .takeJob .. => PutRes
    | .nextItems .. => Option (List QueueItem)
    | .nextJob _ => Option BuiltinJob
    | .deliver => Option JobDispatch
    | .start _ => Unit
    | .ask q => q.Answer

structure StoreState where
  store : Store := {}
  queue : ℕ → List QueueItem := fun _ => []
  jobs : ℕ → List BuiltinJob := fun _ => []

def createsRun (e : Event) : Bool :=
  match e.payload with
  | .runCreated .. => true
  | _ => false

def Tx.Fresh (s : Store) : Tx → Prop
  | .commit tenantID runID events _ =>
    (∀ e ∈ events, createsRun e = false) ∨ s.log tenantID runID = []
  | _ => True

instance (s : Store) (t : Tx) : Decidable (t.Fresh s) := by
  cases t <;> unfold Tx.Fresh <;> infer_instance

/-- The store answers with its contents, a dispatch is delivered any number of times once
it is in the outbox, and a question may be answered in any way. -/
def storeWorld : World storeSig where
  State := StoreState
  init := {}
  Answers s
    | ⟨.replay tenantID runID, r⟩ => ∀ log, r = some log → log = s.store.log tenantID runID
    | ⟨.tx t, r⟩ => (TxRes.landed r = true → (t.apply s.store).isSome ∧ t.Fresh s.store) ∧
        (r = TxRes.refused → t.apply s.store = none)
    | ⟨.nextItems plane slots, r⟩ => ∀ items, r = some items →
        items.length ≤ slots ∧ items.Subperm (s.queue plane)
    | ⟨.nextJob plane, r⟩ => ∀ job, r = some job → job ∈ s.jobs plane
    | ⟨.deliver, r⟩ => ∀ d, r = some d → d ∈ s.store.outbox
    | _ => True
  next s
    | ⟨.tx t, r⟩ =>
      if TxRes.landed r then { s with store := (t.apply s.store).getD s.store } else s
    | ⟨.enqueue plane item, .queued⟩ =>
      { s with queue := Function.update s.queue plane (s.queue plane ++ [item]) }
    | ⟨.nextItems plane _, some items⟩ =>
      { s with queue := Function.update s.queue plane ((s.queue plane).diff items) }
    | ⟨.takeJob plane job, .queued⟩ =>
      { s with jobs := Function.update s.jobs plane (s.jobs plane ++ [job]) }
    | ⟨.nextJob plane, some job⟩ =>
      { s with jobs := Function.update s.jobs plane ((s.jobs plane).erase job) }
    | _ => s

theorem storeNext_tx (s : StoreState) (t : Tx) (r : TxRes) :
    storeWorld.next s ⟨.tx t, r⟩ =
      { s with store := if r.landed then (t.apply s.store).getD s.store else s.store } := by
  change (if r.landed then { s with store := (t.apply s.store).getD s.store } else s) = _
  split <;> rfl

theorem storeNext_cases {s : StoreState} {e : Interleave.Event storeSig}
    (ha : storeWorld.Answers s e) : (storeWorld.next s e : StoreState).store = s.store ∨
      ∃ t r, e = ⟨.tx t, r⟩ ∧ TxRes.landed r = true ∧ t.Fresh s.store ∧
        t.apply s.store = some (storeWorld.next s e : StoreState).store := by
  obtain ⟨op, r⟩ := e
  cases op with
  | tx t =>
    have hn := congrArg StoreState.store (storeNext_tx s t r)
    by_cases hl : TxRes.landed r = true
    · obtain ⟨hso, hf⟩ := ha.1 hl
      obtain ⟨s', hs'⟩ := Option.isSome_iff_exists.mp hso
      refine .inr ⟨t, r, rfl, hl, hf, hs'.trans (congrArg some ?_)⟩
      exact (hn.trans (by rw [if_pos hl, hs', Option.getD_some])).symm
    · exact .inl (hn.trans (if_neg hl))
  | enqueue plane item | takeJob plane job | nextItems plane slots | nextJob plane =>
    cases r <;> exact .inl rfl
  | replay t r' | deliver | start body | ask q => exact .inl rfl

abbrev planeSig : Sig := Lease.leaseSig.sum storeSig

def planeWorld : World planeSig := Lease.leaseWorld.sum storeWorld

end Dhole.Plane
