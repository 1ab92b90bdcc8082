import Dhole.Builtins

/-! The whole system: any number of planes and engines, each doing one thing at a time.
An actor is one task of one plane, or an engine that handles one delivery; its calls
interleave with those of all the others. An engine is given a dispatch from the outbox, as
often as the queue likes, asks whether its lease is current and starts the body, and what
it reports comes back as the task of handling a status. -/

namespace Dhole.System

open Interleave Prog Plane Lease Scheduler

/-! ### Engines -/

inductive EngineVerdict where
  | start
  | superseded
  | stopping
  | unconfirmed

def deliver : PlaneProg (Option JobDispatch) := call .deliver

def askRunnable (d : JobDispatch) : PlaneProg Bool := call (.ask (.runnable d))

def askSent : PlaneProg Bool := call (.ask .sent)

def askAnswered : PlaneProg Bool := call (.ask .answered)

def askPublished : PlaneProg Bool := call (.ask .published)

/-- One acceptance request. It may never arrive, and its answer may be lost. -/
def ask (d : JobDispatch) : PlaneProg Acceptance := do
  if !(← askSent) then pure .unspecified
  else
    let reply ← (accept d.fence).run
    if !(← askAnswered) then pure .unspecified
    else
      match reply with
      | .ok acceptance => pure acceptance
      | .error _ => pure .unspecified

/-- A step nobody confirmed starts all the same, unless it is declared at-most-once. -/
def confirm (d : JobDispatch) : PlaneProg EngineVerdict := do
  if !d.confirmAcceptance then pure .start
  else
    match ← ask d with
    | .fenced => pure .superseded
    | .current => pure .start
    | .unspecified =>
      if ← Builtins.contextEnded then pure .stopping
      else if d.step.effectClass ≠ .atMostOnce then pure .start
      else pure .unconfirmed

/-- What a delivery comes to: the checks that fail it without a body, the confirmation, the
accepted status, and the body. -/
def handleDispatch (d : JobDispatch) : PlaneProg Unit := do
  if d.tenantID = "" then pure ()
  else if !(← askRunnable d) then pure ()
  else
    match ← confirm d with
    | .start =>
      if !(← askPublished) then pure ()
      else Builtins.startBody (.engine d)
    | .superseded | .stopping | .unconfirmed => pure ()

def handle : PlaneProg Unit := do
  match ← deliver with
  | none => pure ()
  | some d => handleDispatch d

/-! ### Actors -/

inductive Task where
  | startRun (tenantID runID pipelineID revisionID : String)
  | cancelRun (tenantID runID : String)
  | advance (tenantID runID : String)
  | onStatus (st : Option JobStatus)
  | accept (fence : Fence)
  | sweep
  | job
  | renew (t : Token)
  | decideGate (tenantID runID stepID : String) (approved : Bool)
  | fireTimer (tenantID runID stepID : String)
  | engine

structure Actor where
  cfg : Config
  fuel : ℕ
  task : Task

def decideGate (tenantID runID stepID : String) (approved : Bool) : PlaneM Unit := do
  let at_ ← now
  commit (.decideGate tenantID runID stepID approved at_)

def fireTimer (tenantID runID stepID : String) : PlaneM Unit := do
  let at_ ← now
  commit (.fireTimer tenantID runID stepID at_)

/-- A task run to its end, whatever it comes to. -/
def discard {α : Type} (x : PlaneM α) : PlaneProg Unit := do
  let _ ← x.run
  pure ()

def Actor.prog (defs : Definitions) (a : Actor) : PlaneProg Unit :=
  match a.task with
  | .startRun tenantID runID pipelineID revisionID =>
    discard (startRun defs a.cfg a.fuel tenantID runID pipelineID revisionID)
  | .cancelRun tenantID runID => discard (cancelRun tenantID runID)
  | .advance tenantID runID => discard (Scheduler.advance defs a.cfg a.fuel tenantID runID)
  | .onStatus st => discard (Scheduler.onStatus defs a.cfg a.fuel st)
  | .accept fence => discard (Scheduler.accept fence)
  | .sweep => discard (sweepOrphans defs a.cfg a.fuel)
  | .job => Builtins.work defs a.cfg
  | .renew t => discard (leases (Lease.renew t))
  | .decideGate tenantID runID stepID approved =>
    discard (System.decideGate tenantID runID stepID approved)
  | .fireTimer tenantID runID stepID => discard (System.fireTimer tenantID runID stepID)
  | .engine => handle

abbrev History := List (Act planeSig)

def Runs (defs : Definitions) (actors : ℕ → Actor) (tr : History) : Prop :=
  Reach planeWorld (fun i => (actors i).prog defs) tr

/-! ### Running a schedule -/

structure Surroundings where
  clock : ℕ → ℤ := fun n => n
  keys : List Key := []
  engines : List Instance := []
  body : BodyAnswer := .failed
  /-- The calls, by their place in the history, that fail. -/
  failures : List ℕ := []

def Surroundings.answer (env : Surroundings) (n : ℕ) : (q : Query) → q.Answer
  | .now => env.clock n
  | .cancelled | .leaseLost => false
  | .definitions | .recordCache .. | .secretsUsable .. | .prepare .. | .runnable _ | .sent
  | .answered | .published => true
  | .instances _ => some env.engines
  | .policy .. => .allowed
  | .cached .. => .miss
  | .gateDuration _ => some Effects.second
  | .admission .. => .admitted
  | .loopSpec _ => none
  | .body _ => env.body

def Surroundings.resolveTx (env : Surroundings) (n : ℕ) (s : Store) (t : Tx) : TxRes :=
  if n ∈ env.failures ∨ ¬ t.Fresh s then .failed false
  else if (t.apply s).isSome then .ok
  else .refused

/-- The store answers with what it holds and commits what is not refused. -/
def Surroundings.resolveStore (env : Surroundings) (n : ℕ) (s : StoreState) :
    (op : Plane.Op) → storeSig.Res op
  | .replay tenantID runID => if n ∈ env.failures then none else some (s.store.log tenantID runID)
  | .tx t => env.resolveTx n s.store t
  | .enqueue .. | .takeJob .. => .queued
  | .nextItems plane slots => some ((s.queue plane).take slots)
  | .nextJob plane => (s.jobs plane).head?
  | .deliver => s.store.outbox.getLast?
  | .start _ => ()
  | .ask q => env.answer n q

def Surroundings.resolve (env : Surroundings) (n : ℕ) (s : planeWorld.State) :
    (op : planeSig.Op) → planeSig.Res op
  | .inl (.kv op) => if n ∈ env.failures then KV.failure op else KV.resolve env.keys s.1 op
  | .inl .now => env.clock n
  | .inl .cancelled => false
  | .inr op => env.resolveStore n s.2 op

theorem Surroundings.resolveStore_answers (env : Surroundings) (n : ℕ) (s : StoreState)
    (op : Plane.Op) : storeWorld.Answers s ⟨op, env.resolveStore n s op⟩ := by
  cases op with
  | replay te ru =>
    intro log hl
    have hl : (if n ∈ env.failures then none else some (s.store.log te ru)) =
        some log := hl
    split at hl
    · cases hl
    · exact (Option.some.inj hl).symm
  | tx t =>
    change (TxRes.landed (env.resolveTx n s.store t) = true → _) ∧
      (env.resolveTx n s.store t = .refused → _)
    unfold resolveTx
    split_ifs with hf ha
    · exact ⟨nofun, nofun⟩
    · push Not at hf
      exact ⟨fun _ => ⟨ha, hf.2⟩, nofun⟩
    · exact ⟨nofun, fun _ => by simpa using ha⟩
  | enqueue pl item | takeJob pl job | start body | ask q => trivial
  | nextItems pl slots =>
    rintro items ⟨⟩
    exact ⟨List.length_take_le _ _, (List.take_sublist _ _).subperm⟩
  | nextJob pl => exact fun job hj => List.mem_of_mem_head? hj
  | deliver => exact fun d hd => List.mem_of_mem_getLast? hd

theorem Surroundings.resolve_answers (env : Surroundings) (n : ℕ) (s : planeWorld.State)
    (op : planeSig.Op) : planeWorld.Answers s ⟨op, env.resolve n s op⟩ := by
  rcases op with op | op
  · cases op with
    | kv op =>
      change KV.Answers s.1 op (if n ∈ env.failures then KV.failure op else KV.resolve env.keys s.1 op)
      split
      · exact KV.failure_answers _ _
      · exact KV.resolve_answers _ _ _
    | now | cancelled => trivial
  · exact env.resolveStore_answers n s.2 op

def doing (task : Task) : Actor := { cfg := { ttl := 30 }, fuel := 1, task }

def run (defs : Definitions) (actors : ℕ → Actor) (env : Surroundings) (schedule : List ℕ) :
    History :=
  exec planeWorld env.resolve (fun i => (actors i).prog defs) schedule

theorem run_runs (D : Definitions) (As : ℕ → Actor) (env : Surroundings)
    (sch : List ℕ) : Runs D As (run D As env sch) :=
  exec_reach planeWorld _ env.resolve_answers _ _

end Dhole.System
