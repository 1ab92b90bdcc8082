import Dhole.System

/-! The budget slots of a plane. A dispatch is admitted by taking a slot, and gives it back
unless it commits; one that committed leaves the slot in the memory of its plane, under the
step, for the handler of the step's end to give back. The handlers are those of the scheduler
with the calls on that memory between their other calls. The pass that follows a handler is
left to the handlers of its own dispatches. -/

namespace Dhole.Holds

open Interleave Prog Plane Lease Scheduler

/-! ### Slots -/

structure Slot where
  plane : ℕ
  key : StepKey
  attempt : ℕ
  serial : ℕ
deriving DecidableEq

inductive SlotOp where
  | acquire (plane : ℕ) (pipelineID : String) (key : StepKey) (attempt : ℕ)
  | release (slot : Slot)
  | hold (plane : ℕ) (key : StepKey) (slot : Slot)
  | releaseHold (plane : ℕ) (key : StepKey)

def slotSig : Sig where
  Op := SlotOp
  Res
    | .acquire .. => ℕ
    | .release _ | .hold .. | .releaseHold .. => Unit

/-- The slots that are renewed, and the slot each plane remembers for a step. -/
structure SlotState where
  serials : ℕ := 0
  live : List Slot := []
  held : ℕ → StepKey → Option Slot := fun _ _ => none

namespace SlotState

def giveBack (s : SlotState) (slot : Option Slot) : List Slot :=
  s.live.filter fun x => slot ≠ some x

def remember (s : SlotState) (plane : ℕ) (key : StepKey) (slot : Option Slot) :
    ℕ → StepKey → Option Slot :=
  fun p k => if p = plane ∧ k = key then slot else s.held p k

def next (s : SlotState) : Interleave.Event slotSig → SlotState
  | ⟨.acquire plane _ key attempt, _⟩ =>
    { s with serials := s.serials + 1, live := ⟨plane, key, attempt, s.serials⟩ :: s.live }
  | ⟨.release slot, _⟩ => { s with live := s.giveBack (some slot) }
  | ⟨.hold plane key slot, _⟩ =>
    { s with live := s.giveBack (s.held plane key), held := s.remember plane key (some slot) }
  | ⟨.releaseHold plane key, _⟩ =>
    { s with live := s.giveBack (s.held plane key), held := s.remember plane key none }

end SlotState

def slotWorld : World slotSig where
  State := SlotState
  init := {}
  Answers s
    | ⟨.acquire .., serial⟩ => serial = s.serials
    | _ => True
  next := SlotState.next

abbrev holdSig : Sig := planeSig.sum slotSig

def holdWorld : World holdSig := planeWorld.sum slotWorld

abbrev HoldEvent := Interleave.Event holdSig

abbrev HoldHistory := List (Act holdSig)

/-! ### Handlers -/

abbrev HoldM := ExceptT PlaneErr (Prog holdSig)

def onPlane {α : Type} (x : PlaneM α) : HoldM α := ExceptT.mk (x.run.inl : Prog holdSig _)

def acquire (plane : ℕ) (pipelineID : String) (key : StepKey) (attempt : ℕ) : Prog holdSig ℕ :=
  perform (S := holdSig) (.inr (.acquire plane pipelineID key attempt))

def release (slot : Slot) : Prog holdSig Unit := perform (S := holdSig) (.inr (.release slot))

def hold (plane : ℕ) (key : StepKey) (slot : Slot) : Prog holdSig Unit :=
  perform (S := holdSig) (.inr (.hold plane key slot))

def releaseHold (plane : ℕ) (key : StepKey) : Prog holdSig Unit :=
  perform (S := holdSig) (.inr (.releaseHold plane key))

variable (cfg : Config)

def recordOrphan (orphan : Orphan) : HoldM Bool := do
  let state ← onPlane (Scheduler.load orphan.tenantID orphan.runID)
  if state.completed then pure false
  else if (state.terminal orphan.stepID).isSome then pure false
  else if state.attempts orphan.stepID ≠ orphan.attempt then pure false
  else if state.gated orphan.stepID || state.resumed orphan.stepID then pure false
  else
    onPlane (append orphan.tenantID orphan.runID orphan.stepID orphan.attempt
      (.stepAttemptLost orphan.fence))
    releaseHold cfg.plane ⟨orphan.tenantID, orphan.runID, orphan.stepID⟩
    pure true

def recordFencedOut (tenantID runID stepID : String) (current : ℕ) (state : RunState) :
    HoldM Unit := do
  let dispatched := state.fences stepID
  if dispatched = 0 ∨ dispatched ≥ current then pure ()
  else
    let _ ← recordOrphan cfg { tenantID, runID, stepID, attempt := state.attempts stepID,
                               fence := dispatched }
    pure ()

def commitDispatch (tenantID runID : String) (step : Step) (attempt : ℕ) (token : Token)
    (offeredAt : ℤ) : PlaneM Bool := do
  if !(← askPrepare tenantID runID step attempt) then throw .prepare
  else
    let begun ← now
    if begun - offeredAt > offerGrace cfg / 2 then pure false
    else
      let at_ ← now
      commitUnder token (.commit tenantID runID
        [{ stepID := step.id, attempt, at_, payload := .stepDispatched { fence := token.fence } }]
        [jobDispatch cfg tenantID runID step attempt token])

def dispatchOffered (tenantID runID : String) (step : Step) (attempt : ℕ) (token : Token)
    (offeredAt : ℤ) : HoldM Bool := do
  let fresh ← onPlane (Scheduler.load tenantID runID)
  if fresh.attempts step.id ≥ attempt then
    recordFencedOut cfg tenantID runID step.id token.fence fresh
    pure false
  else if (Effects.retryPolicy step).requiresExclusiveLease then
    match ← onPlane (leases (validate token)) with
    | .error .fenced => pure false
    | .error e => throw (.lease e)
    | .ok () => onPlane (commitDispatch cfg tenantID runID step attempt token offeredAt)
  else onPlane (commitDispatch cfg tenantID runID step attempt token offeredAt)

def dispatchAdmitted (tenantID runID : String) (step : Step) (attempt : ℕ) : HoldM Bool := do
  let offeredAt ← onPlane (liftM Scheduler.now)
  match ← onPlane (leases (offer tenantID runID step.id attempt cfg.ttl)) with
  | .error .alreadyOffered => pure false
  | .error e => throw (.lease e)
  | .ok token => dispatchOffered cfg tenantID runID step attempt token offeredAt

/-- The slot is remembered if the dispatch was committed, and given back however else it
ended. -/
def offerStep (tenantID runID : String) (step : Step) (state : RunState) : HoldM Unit := do
  let attempt := state.attempts step.id + 1
  let key : StepKey := ⟨tenantID, runID, step.id⟩
  match ← onPlane (liftM (askAdmit tenantID state.pipelineID)) with
  | .failed => throw .admission
  | .refused reason => onPlane (recordUnschedulable tenantID runID step.id reason state)
  | .admitted =>
    let serial ← acquire cfg.plane state.pipelineID key attempt
    let slot : Slot := ⟨cfg.plane, key, attempt, serial⟩
    match ← ExceptT.lift (dispatchAdmitted cfg tenantID runID step attempt).run with
    | .ok true => hold cfg.plane key slot
    | .ok false => release slot
    | .error e =>
      release slot
      throw e

def dispatch (tenantID runID : String) (step : Step) (state : RunState) : HoldM Unit := do
  if ← onPlane (armGate cfg tenantID runID step) then pure ()
  else if ← onPlane (refuseSecrets cfg tenantID runID step) then pure ()
  else
    let engines ← onPlane (instances tenantID)
    let req := requirements cfg step
    if matching req engines = [] then
      onPlane (recordUnschedulable tenantID runID step.id (explain req engines) state)
    else offerStep cfg tenantID runID step state

/-- A step that has its verdict is only given up; the status of one that has none becomes
its verdict first, and its result goes to the cache. -/
def settleStatus (tenantID : String) (st : JobStatus) (payload : Payload) : HoldM Unit := do
  let key : StepKey := ⟨tenantID, st.runID, st.stepID⟩
  let state ← onPlane (Scheduler.load tenantID st.runID)
  if (state.terminal st.stepID).isSome then releaseHold cfg.plane key
  else
    onPlane (append tenantID st.runID st.stepID st.attempt payload)
    if st.phase = .succeeded then onPlane (recordCacheEntry cfg tenantID st state)
    releaseHold cfg.plane key

def onStatus (st : Option JobStatus) : HoldM Unit := do
  match st with
  | none => throw .statusNil
  | some st =>
    match decodeFence st.fence with
    | none => throw .fenceMalformed
    | some (tenantID, token) =>
      if tenantID = "" then throw .tenantRequired
      else
        match ← onPlane (leases (validate token)) with
        | .error .fenced => pure ()
        | .error e => throw (.lease e)
        | .ok () =>
          match terminalEvent st with
          | some payload => settleStatus cfg tenantID st payload
          | none =>
            if !acceptsLease st.phase then pure ()
            else
              match ← onPlane (leases (renew token)) with
              | .error .fenced => pure ()
              | .error e => throw (.lease e)
              | .ok () => pure ()

/-- What a plane does about a step. The state a dispatch is decided on is whatever the pass
had loaded. -/
inductive Task where
  | startRun (tenantID runID pipelineID revisionID : String)
  | dispatch (tenantID runID : String) (step : Step) (state : RunState)
  | onStatus (st : Option JobStatus)
  | recordOrphan (orphan : Orphan)

structure Handler where
  cfg : Config
  task : Task

def Handler.prog (handler : Handler) : Prog holdSig (Except PlaneErr Unit) :=
  match handler.task with
  | .startRun tenantID runID pipelineID revisionID =>
    (onPlane (append tenantID runID "" 0 (.runCreated pipelineID revisionID))).run
  | .dispatch tenantID runID step state => (dispatch handler.cfg tenantID runID step state).run
  | .onStatus st => (onStatus handler.cfg st).run
  | .recordOrphan orphan => (recordOrphan handler.cfg orphan >>= fun _ => pure ()).run

abbrev Handles (handlers : ℕ → Handler) (tr : HoldHistory) : Prop :=
  Reach holdWorld (fun i => (handlers i).prog) tr

end Dhole.Holds
