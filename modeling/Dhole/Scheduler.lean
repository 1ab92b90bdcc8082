import Dhole.Plane

/-! The scheduler of a control plane, as the calls it makes. A pass loads the log, plans,
and places what is ready: a cached result, a job for a builtin step, or a dispatch, each
under a lease it takes first and checks again inside the transaction that records it.
Between any two of these calls another plane may act. A pass that served a step from the
cache runs again; the number of such rounds is bounded by a fuel. -/

namespace Dhole.Scheduler

open Interleave Prog Plane Lease Effects

theorem thirty_pos : (0 : ℤ) < 30 := by decide

/-- The settings of a plane and which of the optional components it has. A plane without
a positive lease time is given the default one. -/
structure Config where
  plane : ℕ := 0
  ttl : ℤ
  ttl_pos : 0 < ttl := by first | exact thirty_pos | decide
  confirm : Bool := false
  os : String := ""
  arch : String := ""
  policy : Bool := false
  cache : Bool := false
  builtins : Bool := false
  queue : Bool := false
  gate : Bool := false
  secrets : Bool := false

abbrev Definitions := String → String → String → Option Pipeline

inductive PlaneErr where
  | tenantRequired
  | runRequired
  | store
  | noRunCreated
  | definition
  | graph
  | fleet
  | policy
  | cache
  | queue
  | builtin
  | gate
  | admission
  | prepare
  | lease (e : LeaseErr)
  | fenceMalformed
  | statusNil
  | cancelled
  | step

abbrev PlaneProg := Prog planeSig

abbrev PlaneM := ExceptT PlaneErr PlaneProg

/-! ### Calls -/

def call (op : Plane.Op) : PlaneProg (storeSig.Res op) := perform (S := planeSig) (.inr op)

def leases {α : Type} (p : LeaseProg α) : PlaneM α := liftM (p.inl : PlaneProg α)

def outcome {α : Type} (x : PlaneM α) : PlaneM (Except PlaneErr α) := ExceptT.lift x.run

def now : PlaneProg ℤ := call (.ask .now)

def askInstances (tenantID : String) : PlaneProg (Option (List Instance)) :=
  call (.ask (.instances tenantID))

def askPolicy (tenantID runID : String) (step : Step) : PlaneProg PolicyAnswer :=
  call (.ask (.policy tenantID runID step))

def askCache (tenantID runID : String) (step : Step) : PlaneProg CacheAnswer :=
  call (.ask (.cached tenantID runID step))

def askAdmit (tenantID pipelineID : String) : PlaneProg AdmitAnswer :=
  call (.ask (.admission tenantID pipelineID))

def askDuration (step : Step) : PlaneProg (Option ℤ) := call (.ask (.gateDuration step))

def askDefinitions : PlaneProg Bool := call (.ask .definitions)

def askPrepare (tenantID runID : String) (step : Step) (attempt : ℕ) : PlaneProg Bool :=
  call (.ask (.prepare tenantID runID step attempt))

def askSecrets (tenantID : String) (step : Step) : PlaneProg Bool :=
  call (.ask (.secretsUsable tenantID step))

def askRecordCache (tenantID runID stepID : String) : PlaneProg Bool :=
  call (.ask (.recordCache tenantID runID stepID))

def transact (t : Tx) : PlaneProg TxRes := call (.tx t)

def readLog (tenantID runID : String) : PlaneProg (Option Log) := call (.replay tenantID runID)

def putItem (plane : ℕ) (item : QueueItem) : PlaneProg PutRes := call (.enqueue plane item)

def nextItems (plane slots : ℕ) : PlaneProg (Option (List QueueItem)) :=
  call (.nextItems plane slots)

def putJob (plane : ℕ) (job : BuiltinJob) : PlaneProg PutRes := call (.takeJob plane job)

def commit (t : Tx) : PlaneM Unit := do
  match ← transact t with
  | .ok => pure ()
  | .refused | .failed _ => throw .store

def replay (tenantID runID : String) : PlaneM Log := do
  match ← readLog tenantID runID with
  | none => throw .store
  | some log => pure log

def load (tenantID runID : String) : PlaneM RunState := do
  match Dhole.load (← replay tenantID runID) with
  | none => throw .noRunCreated
  | some state => pure state

def append (tenantID runID stepID : String) (attempt : ℕ) (payload : Payload) : PlaneM Unit := do
  let at_ ← now
  commit (.commit tenantID runID [{ stepID, attempt, payload, at_ }] [])

def instances (tenantID : String) : PlaneM (List Instance) := do
  match ← askInstances tenantID with
  | none => throw .fleet
  | some engines => pure engines

/-! ### The fleet -/

structure Requirements where
  os : String
  arch : String
  capabilities : List Capability
  engineType : String

def requirements (cfg : Config) (step : Step) : Requirements where
  os := cfg.os
  arch := cfg.arch
  capabilities := step.capabilities
  engineType := step.engineType

def platformMatches (required offered : String) : Bool := required = "" || required = offered

def offersEngineType (required : String) (e : Instance) : Bool :=
  required = "" || e.engineTypes.contains required

def advertises (e : Instance) (c : Capability) : Bool := e.capabilities.contains c

def eligible (req : Requirements) (e : Instance) : Bool :=
  e.state = .ready && decide (0 < e.slots) &&
    platformMatches req.os e.os && platformMatches req.arch e.arch &&
    offersEngineType req.engineType e &&
    req.capabilities.all fun c => c = .unspecified || advertises e c

def matching (req : Requirements) (engines : List Instance) : List Instance :=
  engines.filter (eligible req)

def platformName (os arch : String) : String :=
  if os = "" ∧ arch = "" then "any platform"
  else if os = "" then "arch " ++ arch
  else if arch = "" then "os " ++ os
  else os ++ "/" ++ arch

def engineTypeClause (engineType : String) : String :=
  if engineType = "" then "" else " on engine type " ++ engineType

def shortCapability (c : Capability) : String :=
  let text := c.text.toList
  if "CAPABILITY_".toList.isPrefixOf text then String.ofList (text.drop "CAPABILITY_".length)
  else c.text

def capabilityList (caps : List Capability) : String :=
  let names := (caps.filter fun c => c ≠ .unspecified).map shortCapability
  if names = [] then "no capabilities" else "capabilities " ++ ", ".intercalate names

/-- Why no engine matches, as the first of the requirements that none of them meets. -/
def explain (req : Requirements) (engines : List Instance) : String :=
  let ready := engines.filter fun e => e.state = .ready
  let onPlatform := ready.filter fun e => platformMatches req.os e.os && platformMatches req.arch e.arch
  let onType := onPlatform.filter fun e => offersEngineType req.engineType e
  let missing := req.capabilities.find? fun c =>
    c ≠ .unspecified && !onType.any fun e => advertises e c
  if engines = [] then "no engine is registered"
  else if ready = [] then
    if engines.any fun e => e.state = .draining then "every registered engine is draining"
    else "no registered engine is ready"
  else if onPlatform = [] then "no ready engine runs on " ++ platformName req.os req.arch
  else if onType = [] then "no ready engine offers engine type " ++ req.engineType
  else
    match missing with
    | some c => "no engine advertises capability " ++ shortCapability c
    | none => "no single engine satisfies " ++ platformName req.os req.arch ++
        engineTypeClause req.engineType ++ " together with " ++ capabilityList req.capabilities

/-! ### Recording -/

def recordUnschedulable (tenantID runID stepID reason : String) (state : RunState) : PlaneM Unit :=
  if state.unschedulable stepID = reason then pure ()
  else append tenantID runID stepID (state.attempts stepID) (.stepUnschedulable reason)

def recordAwaitingReplay (tenantID runID : String) (state : RunState) : List Step → PlaneM Unit
  | [] => pure ()
  | step :: blocked => do
    if !state.awaiting step.id then
      append tenantID runID step.id (state.attempts step.id) .stepAwaitingReplay
    recordAwaitingReplay tenantID runID state blocked

def fail (tenantID runID : String) (steps : List String) : PlaneM Unit :=
  append tenantID runID "" 0 (.runFailed steps)

def complete (tenantID runID : String) : PlaneM Unit := append tenantID runID "" 0 .runCompleted

/-- The attempt of a lease that ended is lost, unless the log has moved on. -/
def recordOrphan (orphan : Orphan) : PlaneM Bool := do
  let state ← load orphan.tenantID orphan.runID
  if state.completed then pure false
  else if (state.terminal orphan.stepID).isSome then pure false
  else if state.attempts orphan.stepID ≠ orphan.attempt then pure false
  else if state.gated orphan.stepID || state.resumed orphan.stepID then pure false
  else
    append orphan.tenantID orphan.runID orphan.stepID orphan.attempt
      (.stepAttemptLost orphan.fence)
    pure true

/-- A newer lease proves that the attempt dispatched under an older one lost its own. -/
def recordFencedOut (tenantID runID stepID : String) (current : ℕ) (state : RunState) :
    PlaneM Unit := do
  let dispatched := state.fences stepID
  if dispatched = 0 ∨ dispatched ≥ current then pure ()
  else
    let _ ← recordOrphan { tenantID, runID, stepID, attempt := state.attempts stepID,
                           fence := dispatched }
    pure ()

/-- A denial and an unusable secret each record why and close the run. -/
def refuse (tenantID runID : String) (step : Step) (payload : Payload) : PlaneM Unit := do
  append tenantID runID step.id 0 payload
  fail tenantID runID [step.id]

/-! ### Checks before a step is placed -/

variable (defs : Definitions) (cfg : Config)

def graphOf (tenantID : String) (state : RunState) : Option Pipeline :=
  (defs tenantID state.pipelineID state.revisionID).bind fun p => spliceRealised p state.fragments

def readGraph (tenantID : String) (state : RunState) : PlaneM Pipeline := do
  if !(← askDefinitions) then throw .definition
  else
    match graphOf defs tenantID state with
    | none => throw .definition
    | some p => pure p

def permit (tenantID runID : String) (step : Step) : PlaneM Bool := do
  if !cfg.policy then pure true
  else
    match ← askPolicy tenantID runID step with
    | .allowed => pure true
    | .failed => throw .policy
    | .denied =>
      refuse tenantID runID step .stepPolicyDenied
      pure false

def builtinScheme : String := "builtin:"

def isBuiltin (step : Step) : Bool := builtinScheme.toList.isPrefixOf step.pluginRef.toList

def isGate (step : Step) : Bool :=
  step.pluginRef = "builtin:wait" || step.pluginRef = "builtin:timer"

def refuseBuiltinSecrets (tenantID runID : String) (step : Step) : PlaneM Bool := do
  if step.secrets = [] || !isBuiltin step then pure false
  else
    refuse tenantID runID step .stepSecretUnavailable
    pure true

def refuseSecrets (tenantID runID : String) (step : Step) : PlaneM Bool := do
  if step.secrets = [] then pure false
  else
    let usable ← if cfg.secrets then askSecrets tenantID step else pure false
    if usable then pure false
    else
      refuse tenantID runID step .stepSecretUnavailable
      pure true

/-- The gate is armed in one transaction with the timer that will open it. -/
def armGate (tenantID runID : String) (step : Step) : PlaneM Bool := do
  if !cfg.gate || !isGate step then pure false
  else
    match ← askDuration step with
    | none => throw .gate
    | some d =>
      let at_ ← now
      commit (.armTimer tenantID runID step.id (at_ + d) at_)
      pure true

/-! ### Placing a step -/

/-- The fence check of a transaction and, where it holds, the transaction. -/
def commitUnder (token : Token) (t : Tx) : PlaneM Bool := do
  match ← leases (validate token) with
  | .error .fenced => pure false
  | .error e => throw (.lease e)
  | .ok () =>
    commit t
    pure true

inductive CacheOutcome where
  | miss
  | served
  | placedElsewhere

def recordCacheHit (tenantID runID : String) (step : Step) (outputs : List OutputRef)
    (state : RunState) : PlaneM CacheOutcome := do
  let attempt := state.attempts step.id + 1
  match ← leases (claim tenantID runID step.id attempt cfg.ttl) with
  | .error .alreadyOffered => pure .placedElsewhere
  | .error e => throw (.lease e)
  | .ok token =>
    let fresh ← load tenantID runID
    if fresh.attempts step.id ≥ attempt then
      recordFencedOut tenantID runID step.id token.fence fresh
      pure .placedElsewhere
    else
      let at_ ← now
      let recorded ← commitUnder token (.commit tenantID runID
        [{ stepID := step.id, attempt, at_,
           payload := .stepDispatched { fence := token.fence, cacheHit := true } },
         { stepID := step.id, attempt, at_, payload := .stepSucceeded outputs }] [])
      pure (if recorded then .served else .placedElsewhere)

def serveFromCache (tenantID runID : String) (step : Step) (state : RunState) :
    PlaneM CacheOutcome := do
  if !cfg.cache then pure .miss
  else
    match ← askCache tenantID runID step with
    | .failed => throw .cache
    | .miss => pure .miss
    | .hit outputs => recordCacheHit cfg tenantID runID step outputs state

/-- A builtin step that is not a gate becomes a job of this plane. -/
def takeBuiltin (tenantID runID : String) (step : Step) (attempt : ℕ) : PlaneM Bool := do
  if !cfg.builtins || !isBuiltin step || isGate step then pure false
  else
    match ← putJob cfg.plane { tenantID, runID, step, attempt } with
    | .queued | .skipped => pure true
    | .failed => throw .builtin

def minOfferGrace : ℤ := 10 * second

def offerGrace : ℤ := max cfg.ttl minOfferGrace

def jobDispatch (tenantID runID : String) (step : Step) (attempt : ℕ) (token : Token) :
    JobDispatch where
  tenantID := tenantID
  runID := runID
  stepID := step.id
  attempt := attempt
  fence := encodeFence tenantID token
  step := step
  confirmAcceptance := cfg.confirm

/-- The dispatch event and its outbox row, in one transaction. An offer that is too old
is given up instead. -/
def commitDispatch (tenantID runID : String) (step : Step) (attempt : ℕ) (token : Token)
    (offeredAt : ℤ) : PlaneM Unit := do
  if !(← askPrepare tenantID runID step attempt) then throw .prepare
  else
    let begun ← now
    if begun - offeredAt > offerGrace cfg / 2 then pure ()
    else
      let at_ ← now
      let _ ← commitUnder token (.commit tenantID runID
        [{ stepID := step.id, attempt, at_, payload := .stepDispatched { fence := token.fence } }]
        [jobDispatch cfg tenantID runID step attempt token])
      pure ()

/-- What follows an offer: the log is read again, and a step whose effects need it proves
its lease before anything is built. -/
def dispatchOffered (tenantID runID : String) (step : Step) (attempt : ℕ) (token : Token)
    (offeredAt : ℤ) : PlaneM Unit := do
  let fresh ← load tenantID runID
  if fresh.attempts step.id ≥ attempt then
    recordFencedOut tenantID runID step.id token.fence fresh
  else if (retryPolicy step).requiresExclusiveLease then
    match ← leases (validate token) with
    | .error .fenced => pure ()
    | .error e => throw (.lease e)
    | .ok () => commitDispatch cfg tenantID runID step attempt token offeredAt
  else commitDispatch cfg tenantID runID step attempt token offeredAt

def offerStep (tenantID runID : String) (step : Step) (state : RunState) : PlaneM Unit := do
  let attempt := state.attempts step.id + 1
  match ← askAdmit tenantID state.pipelineID with
  | .failed => throw .admission
  | .refused reason => recordUnschedulable tenantID runID step.id reason state
  | .admitted =>
    let offeredAt ← now
    match ← leases (offer tenantID runID step.id attempt cfg.ttl) with
    | .error .alreadyOffered => pure ()
    | .error e => throw (.lease e)
    | .ok token => dispatchOffered cfg tenantID runID step attempt token offeredAt

def dispatch (tenantID runID : String) (step : Step) (state : RunState) : PlaneM Unit := do
  if ← armGate cfg tenantID runID step then pure ()
  else if ← refuseSecrets cfg tenantID runID step then pure ()
  else
    let engines ← instances tenantID
    let req := requirements cfg step
    if matching req engines = [] then
      recordUnschedulable tenantID runID step.id (explain req engines) state
    else offerStep cfg tenantID runID step state

/-! ### The queue -/

def enqueueReady (item : QueueItem) : PlaneM Unit := do
  match ← putItem cfg.plane item with
  | .queued | .skipped => pure ()
  | .failed => throw .queue

/-- What comes out of the queue is loaded again, but its predecessors are not looked at. -/
def dispatchQueued (item : QueueItem) : PlaneM Unit := do
  let state ← load item.tenantID item.runID
  if state.completed then pure ()
  else if state.attempts item.stepID ≥ item.attempt then pure ()
  else if state.terminal item.stepID = none ∧ state.gated item.stepID = true then pure ()
  else
    let pipeline ← readGraph defs item.tenantID state
    match findStep pipeline item.stepID with
    | none => pure ()
    | some step => dispatch cfg item.tenantID item.runID step state

def dispatchItems : List QueueItem → PlaneM Unit
  | [] => pure ()
  | item :: items => do
    dispatchQueued defs cfg item
    dispatchItems items

def capacity (engines : List Instance) : ℤ :=
  ((engines.filter fun e => e.state = .ready && decide (0 < e.slots)).map Instance.slots).sum

def drain (tenantID : String) : PlaneM Unit := do
  let engines ← instances tenantID
  let slots := capacity engines
  match ← nextItems cfg.plane (if slots ≤ 0 then 1 else slots.toNat) with
  | none => throw .queue
  | some items => dispatchItems defs cfg items

/-! ### A pass -/

/-- What placing a step came to: the pass stops, or goes on with or without a cached
result. -/
inductive Placed where
  | stop
  | next (served : Bool)

def placeStep (tenantID runID : String) (step : Step) (state : RunState) : PlaneM Placed := do
  if !(← permit cfg tenantID runID step) then pure .stop
  else if ← refuseBuiltinSecrets tenantID runID step then pure .stop
  else
    match ← serveFromCache cfg tenantID runID step state with
    | .served => pure (.next true)
    | .placedElsewhere => pure (.next false)
    | .miss =>
      if ← takeBuiltin cfg tenantID runID step (state.attempts step.id + 1) then pure (.next false)
      else if !cfg.queue then
        dispatch cfg tenantID runID step state
        pure (.next false)
      else
        enqueueReady cfg { tenantID, runID, stepID := step.id, pipelineID := state.pipelineID,
                           attempt := state.attempts step.id + 1 }
        pure (.next false)

def placeReady (tenantID runID : String) (state : RunState) :
    List Step → Bool → PlaneM Placed
  | [], served => pure (.next served)
  | step :: ready, served => do
    match ← placeStep cfg tenantID runID step state with
    | .stop => pure .stop
    | .next now => placeReady tenantID runID state ready (served || now)

/-- Nothing is ready, in flight or waiting: the run failed, is blocked or is complete. -/
def finish (tenantID runID : String) (pl : Planned) : PlaneM Unit :=
  if pl.exhausted ≠ [] then fail tenantID runID pl.exhausted
  else if pl.blocked ≠ [] then pure ()
  else complete tenantID runID

def advance : ℕ → String → String → PlaneM Unit
  | 0, _, _ => pure ()
  | fuel + 1, tenantID, runID => do
    if tenantID = "" then throw .tenantRequired
    else if runID = "" then throw .runRequired
    else
      let state ← load tenantID runID
      if state.completed then pure ()
      else
        let pipeline ← readGraph defs tenantID state
        match Dag.build (some pipeline) with
        | .error _ => throw .graph
        | .ok graph =>
          let at_ ← now
          let pl := plan pipeline graph state at_
          recordAwaitingReplay tenantID runID state pl.blocked
          if pl.ready = [] ∧ pl.inFlight = 0 ∧ pl.waiting = 0 then finish tenantID runID pl
          else
            match ← placeReady cfg tenantID runID state pl.ready false with
            | .stop => pure ()
            | .next served =>
              if cfg.queue then drain defs cfg tenantID
              if served then advance fuel tenantID runID

end Dhole.Scheduler
