import Dhole.Scheduler

/-! What makes a plane act: a run is started or cancelled, an engine asks whether its
lease is current or reports a status, and a sweep ends the leases nobody renewed and looks
for dispatches nobody took. The fence of a status is checked once, before the log is
loaded and the event appended, and it is not compared with the step the status names. -/

namespace Dhole.Scheduler

open Interleave Prog Plane Lease Effects

/-! ### Status -/

inductive Acceptance where
  | unspecified
  | current
  | fenced

def accept (fence : Fence) : PlaneM Acceptance := do
  match decodeFence fence with
  | none => throw .fenceMalformed
  | some (tenantID, token) =>
    if tenantID = "" then throw .tenantRequired
    else
      match ← leases (renew token) with
      | .error .fenced => pure .fenced
      | .error e => throw (.lease e)
      | .ok () => pure .current

def acceptsLease (p : Phase) : Bool := p = .accepted || p = .running

def terminalEvent {F : Type} (st : JobStatus F) : Option Payload :=
  match st.phase with
  | .succeeded => some (.stepSucceeded st.outputs)
  | .failed | .cancelled => some .stepFailed
  | .unspecified | .accepted | .running => none

variable (defs : Definitions) (cfg : Config) (fuel : ℕ)

def recordCacheEntry (tenantID : String) (st : JobStatus) (state : RunState) : PlaneM Unit := do
  if !cfg.cache || state.cacheHit st.stepID then pure ()
  else if ← askRecordCache tenantID st.runID st.stepID then pure ()
  else throw .cache

/-- A terminal status of a step without a verdict becomes its verdict. -/
def settleStatus (tenantID : String) (st : JobStatus) (payload : Payload) : PlaneM Unit := do
  let state ← load tenantID st.runID
  if (state.terminal st.stepID).isSome then advance defs cfg fuel tenantID st.runID
  else
    append tenantID st.runID st.stepID st.attempt payload
    if st.phase = .succeeded then recordCacheEntry cfg tenantID st state
    advance defs cfg fuel tenantID st.runID

def onStatus (st : Option JobStatus) : PlaneM Unit := do
  match st with
  | none => throw .statusNil
  | some st =>
    match decodeFence st.fence with
    | none => throw .fenceMalformed
    | some (tenantID, token) =>
      if tenantID = "" then throw .tenantRequired
      else
        match ← leases (validate token) with
        | .error .fenced => pure ()
        | .error e => throw (.lease e)
        | .ok () =>
          match terminalEvent st with
          | some payload => settleStatus defs cfg fuel tenantID st payload
          | none =>
            if !acceptsLease st.phase then pure ()
            else
              match ← leases (renew token) with
              | .error .fenced => pure ()
              | .error e => throw (.lease e)
              | .ok () => pure ()

/-! ### Sweeps -/

def recordOrphans : List Orphan → PlaneM Unit
  | [] => pure ()
  | orphan :: orphans => do
    if ← recordOrphan orphan then advance defs cfg fuel orphan.tenantID orphan.runID
    recordOrphans orphans

def withdrawAbandoned (w : Waiting) : PlaneM Unit := do
  match ← leases (withdraw w.token) with
  | .error .fenced => pure ()
  | .error e => throw (.lease e)
  | .ok () => advance defs cfg fuel w.tenantID w.runID

def waitingForCapacity : String := "capacity"

def waitingUnconsumed : String := "unconsumed"

/-- Whether the engines that match have a slot free between them. -/
def waitingCause (matched : List Instance) : String :=
  let slots := (matched.map fun e => max e.slots 1).sum
  let busy := (matched.map fun e => min (e.inFlight : ℤ) (max e.slots 1)).sum
  if busy < slots then waitingUnconsumed else waitingForCapacity

def recordWaiting (tenantID runID : String) (step : Step) (matched : List Instance)
    (state : RunState) : PlaneM Unit :=
  if state.waiting step.id = waitingCause matched then pure ()
  else append tenantID runID step.id (state.attempts step.id) (.stepWaiting (waitingCause matched))

/-- A dispatch nobody took, once its log says it is the one in flight. -/
def surfaceInFlight (w : Waiting) (engines : List Instance) (aged : Bool) (state : RunState) :
    PlaneM Unit := do
  let pipeline ← readGraph defs w.tenantID state
  match findStep pipeline w.stepID with
  | none => pure ()
  | some step =>
    let req := requirements cfg step
    let matched := matching req engines
    if matched = [] then
      recordUnschedulable w.tenantID w.runID w.stepID (explain req engines) state
    else if !aged then pure ()
    else recordWaiting w.tenantID w.runID step matched state

/-- The age is read before the log: an offer that only just aged is left alone. -/
def surfaceOne (w : Waiting) (engines : List Instance) : PlaneM Unit := do
  let at_ ← now
  let aged := decide (at_ - w.offeredAt > offerGrace cfg)
  let state ← load w.tenantID w.runID
  if state.attempts w.stepID < w.attempt then
    if !aged then pure () else withdrawAbandoned defs cfg fuel w
  else if state.completed || state.attempts w.stepID ≠ w.attempt then pure ()
  else if (state.terminal w.stepID).isSome then pure ()
  else if state.gated w.stepID || state.resumed w.stepID then pure ()
  else if state.fences w.stepID ≠ 0 ∧ state.fences w.stepID < w.fence then
    recordFencedOut w.tenantID w.runID w.stepID w.fence state
    advance defs cfg fuel w.tenantID w.runID
  else surfaceInFlight defs cfg w engines aged state

/-- The error of one dispatch does not keep the others from being looked at. -/
def surfaceAll (fleets : List (String × List Instance)) : List Waiting → PlaneM Unit
  | [] => pure ()
  | w :: waiting => do
    let engines ←
      match fleets.lookup w.tenantID with
      | some engines => pure engines
      | none => instances w.tenantID
    let result ← outcome (surfaceOne defs cfg fuel w engines)
    surfaceAll ((w.tenantID, engines) :: fleets) waiting
    match result with
    | .ok () => pure ()
    | .error e => throw e

def surfaceStranded : PlaneM Unit := do
  match ← leases unaccepted with
  | (_, some e) => throw (.lease e)
  | (waiting, none) => surfaceAll defs cfg fuel [] waiting

def sweepOrphans : PlaneM Unit := do
  match ← leases expire with
  | (_, some e) => throw (.lease e)
  | (orphans, none) =>
    recordOrphans defs cfg fuel orphans
    surfaceStranded defs cfg fuel

/-! ### Runs -/

/-- A run is its first event; the pass that follows is any other pass. -/
def startRun (tenantID runID pipelineID revisionID : String) : PlaneM Unit := do
  append tenantID runID "" 0 (.runCreated pipelineID revisionID)
  advance defs cfg fuel tenantID runID

def cancelRun (tenantID runID : String) : PlaneM Unit := do
  let events ← replay tenantID runID
  if events = [] then throw .store
  else append tenantID runID "" 0 .runCancelled

end Dhole.Scheduler
