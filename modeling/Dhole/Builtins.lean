import Dhole.Handlers

/-! The steps a control plane runs itself. A job claims the lease of its attempt, reads the
log again, records the dispatch under the lease and runs the body; its verdict is recorded
under the same lease. Where a job stops with an error it hands back a token for the failure
to be recorded under: the one it holds, or none, and then the failure is appended without
any check. The attempt a failure names is read from the log. -/

namespace Dhole.Builtins

open Interleave Prog Plane Lease Scheduler

inductive JobErr where
  | failed
  | parked

abbrev JobM := ExceptT (Token × JobErr) PlaneProg

def getJob (plane : ℕ) : PlaneProg (Option BuiltinJob) := call (.nextJob plane)

def askBody (job : BuiltinJob) : PlaneProg BodyAnswer := call (.ask (.body job))

def askLoopSpec (step : Step) : PlaneProg (Option Loop.Spec) := call (.ask (.loopSpec step))

def leaseLost : PlaneProg Bool := call (.ask .leaseLost)

def contextEnded : PlaneProg Bool := call (.ask .cancelled)

def startBody (body : Body) : PlaneProg Unit := call (.start body)

def under {α : Type} (token : Token) (x : PlaneM α) : JobM α := do
  match ← (ExceptT.lift x.run : JobM (Except PlaneErr α)) with
  | .ok a => pure a
  | .error _ => throw (token, .failed)

/-! ### Attempts and verdicts -/

def highestDispatched (log : Log) (stepID : String) : ℕ :=
  log.foldl (fun highest e =>
    match e.payload with
    | .stepDispatched _ => if e.stepID = stepID ∧ e.attempt > highest then e.attempt else highest
    | _ => highest) 0

def attemptOf (job : BuiltinJob) : PlaneM ℕ := do
  pure (highestDispatched (← replay job.tenantID job.runID) job.step.id)

/-- A verdict without a token is appended as it is, one with a token under its lease. -/
def terminal (job : BuiltinJob) (attempt : ℕ) (token : Token) (payload : Payload) :
    PlaneM Unit := do
  let at_ ← now
  let verdict : Tx := .commit job.tenantID job.runID
    [{ stepID := job.step.id, attempt, payload, at_ }] []
  if token.value = {} then commit verdict
  else
    let _ ← commitUnder token verdict
    pure ()

def succeed (job : BuiltinJob) (token : Token) (outputs : List OutputRef) : PlaneM Unit :=
  terminal job job.attempt token (.stepSucceeded outputs)

def fail (job : BuiltinJob) (token : Token) : PlaneM Unit := do
  let attempt ← attemptOf job
  terminal job (if attempt = 0 then 1 else attempt) token .stepFailed

/-! ### Bodies -/

variable (defs : Definitions)

/-- An llm body whose model gave no usable answer fails its step itself: with no attempt
and under no lease. -/
def giveUp (job : BuiltinJob) : PlaneM Unit := do
  let at_ ← now
  commit (.commit job.tenantID job.runID
    [{ stepID := job.step.id, payload := .stepFailed, at_ }] [])

def callModel (job : BuiltinJob) : PlaneM (List OutputRef) := do
  match ← askBody job with
  | .succeeded outputs => pure outputs
  | .gaveUp =>
    giveUp job
    throw .step
  | .failed | .parked | .iterate => throw .step

def maxRunFragments : ℕ := 256

def realisedFragment? (e : Event) : Option Pipeline :=
  match e.payload with
  | .fragmentRealised fragment => some fragment
  | _ => none

/-- A fragment already recorded for the step is spliced again; otherwise the new one is
recorded once it splices. -/
def realiseInto (job : BuiltinJob) (parent fragment : Pipeline) : PlaneM Unit := do
  let events ← replay job.tenantID job.runID
  let realised := events.filter fun e => (realisedFragment? e).isSome
  match (realised.filter fun e => e.stepID = job.step.id).getLast? with
  | some e =>
    match Dynamic.splice (some parent) job.step.id (realisedFragment? e) with
    | .ok _ => pure ()
    | .error _ => throw .step
  | none =>
    if realised.length ≥ maxRunFragments then
      append job.tenantID job.runID job.step.id 0 .fragmentRefused
      throw .step
    else
      match Dynamic.splice (some parent) job.step.id (some fragment) with
      | .error _ =>
        append job.tenantID job.runID job.step.id 0 .fragmentRefused
        throw .step
      | .ok _ => append job.tenantID job.runID job.step.id 0 (.fragmentRealised fragment)

def realise (job : BuiltinJob) (spec : Loop.Spec) : PlaneM Unit := do
  match spec.fragment with
  | none => throw .step
  | some fragment =>
    let state ← Scheduler.load job.tenantID job.runID
    let parent ← readGraph defs job.tenantID state
    realiseInto job parent fragment

/-- The loop's records name the loop, not the controller that writes them. -/
def recordLoop (job : BuiltinJob) (spec : Loop.Spec) : PlaneM Unit := do
  let at_ ← now
  commit (.commit job.tenantID job.runID [{ stepID := spec.loop, payload := .loopRecord, at_ }] [])

def iterate (job : BuiltinJob) : PlaneM (List OutputRef) := do
  match ← askLoopSpec job.step with
  | none => throw .step
  | some spec =>
    match ← askBody job with
    | .succeeded _ =>
      recordLoop job spec
      pure []
    | .iterate =>
      match ← outcome (realise defs job spec) with
      | .error e =>
        recordLoop job spec
        throw e
      | .ok () =>
        recordLoop job spec
        pure []
    | .failed | .gaveUp | .parked =>
      recordLoop job spec
      throw .step

/-- How an agent's body ended, where it did not fail. -/
inductive AgentOutcome where
  | finished (outputs : List OutputRef)
  | parked

def runAgent (job : BuiltinJob) : PlaneM AgentOutcome := do
  match ← askBody job with
  | .succeeded outputs => pure (.finished outputs)
  | .parked =>
    let at_ ← now
    commit (.requestApproval job.tenantID job.runID job.step.id true at_)
    pure .parked
  | .failed | .gaveUp | .iterate => throw .step

/-! ### A job -/

variable (cfg : Config)

def claimJob (job : BuiltinJob) : JobM (Except LeaseErr Token) :=
  ExceptT.lift
    ((claim job.tenantID job.runID job.step.id job.attempt cfg.ttl).inl :
      PlaneProg (Except LeaseErr Token))

/-- The body, once its dispatch is recorded; a lost lease leaves the verdict to others. -/
def runBody (job : BuiltinJob) (token : Token) (body : PlaneM AgentOutcome) : JobM Unit := do
  startBody (.builtin job)
  let result ← (ExceptT.lift body.run : JobM (Except PlaneErr AgentOutcome))
  if ← leaseLost then pure ()
  else
    match result with
    | .error _ => throw (token, .failed)
    | .ok .parked => throw (token, .parked)
    | .ok (.finished outputs) => under token (succeed job token outputs)

def attempt (job : BuiltinJob) (body : PlaneM AgentOutcome) : JobM Unit := do
  if job.attempt = 0 then throw ({}, .failed)
  else
    match ← claimJob cfg job with
    | .error .alreadyOffered => pure ()
    | .error _ => throw ({}, .failed)
    | .ok token =>
      let dispatched ← under token (attemptOf job)
      if dispatched ≥ job.attempt then pure ()
      else
        let at_ ← now
        let recorded ← under token (commitUnder token (.commit job.tenantID job.runID
          [{ stepID := job.step.id, attempt := job.attempt, at_,
             payload := .stepDispatched { fence := token.fence } }] []))
        if !recorded then pure () else runBody job token body

def requestGate (job : BuiltinJob) : PlaneM Unit := do
  let at_ ← now
  commit (.requestApproval job.tenantID job.runID job.step.id false at_)

def finished (x : PlaneM (List OutputRef)) : PlaneM AgentOutcome := AgentOutcome.finished <$> x

def execute (job : BuiltinJob) : JobM Unit :=
  if job.step.pluginRef = "builtin:approval" then under {} (requestGate job)
  else if job.step.pluginRef = "builtin:llm" then attempt cfg job (finished (callModel job))
  else if job.step.pluginRef = "builtin:loop" then attempt cfg job (finished (iterate defs job))
  else if job.step.pluginRef = "builtin:agent" then attempt cfg job (runAgent job)
  else throw ({}, .failed)

def run (job : BuiltinJob) : PlaneProg Unit := do
  match ← (execute defs cfg job).run with
  | .ok () => pure ()
  | .error (token, err) =>
    if ← contextEnded then pure ()
    else
      match err with
      | .parked => pure ()
      | .failed =>
        let _ ← (fail job token).run
        pure ()

def work : PlaneProg Unit := do
  match ← getJob cfg.plane with
  | none => pure ()
  | some job => run defs cfg job

end Dhole.Builtins
