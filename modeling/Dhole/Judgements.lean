import Dhole.Outbox

/-! Nothing is dispatched that was not put to the policy. A pass asks about a step before it
places it, and places it at once or through the queue of its plane; what comes out of a queue
was put in by a pass of that plane. So behind every row of the outbox there is an earlier
answer about the same step that allowed it. Most programs neither queue nor write rows, which
is all that has to be known of them. -/

namespace Dhole.System

open Interleave Prog Plane Lease Scheduler

/-! ### Programs that make only some calls -/

/-- Calls on leases, questions and replays are among them. -/
structure Reads (P : planeSig.Op → Prop) : Prop where
  lease : ∀ op, P (.inl op)
  ask : ∀ q, P (.inr (.ask q))
  replay : ∀ tenantID runID, P (.inr (.replay tenantID runID))

section Reads

variable {α : Type} {P : planeSig.Op → Prop} {tid rid sid pid : String}
  {step : Step} {attempt : ℕ} {t : Tx}

theorem only_call {op : Plane.Op} (h : P (.inr op)) : (call op).Only P := ⟨h, fun _ => trivial⟩

@[grind ←] theorem only_transact (h : P (.inr (.tx t))) : (transact t).Only P := only_call h

@[grind ←] theorem only_commit (h : P (.inr (.tx t))) : OnlyCalls P (commit t) := by
  unfold commit
  grind

variable (hP : Reads P)

include hP

@[grind ←] theorem only_now : Scheduler.now.Only P := only_call (hP.ask _)

@[grind ←] theorem only_askInstances : (askInstances tid).Only P := only_call (hP.ask _)

@[grind ←] theorem only_askAdmit : (askAdmit tid pid).Only P := only_call (hP.ask _)

@[grind ←] theorem only_askDuration : (askDuration step).Only P := only_call (hP.ask _)

@[grind ←] theorem only_askPrepare : (askPrepare tid rid step attempt).Only P :=
  only_call (hP.ask _)

@[grind ←] theorem only_askSecrets : (askSecrets tid step).Only P := only_call (hP.ask _)

@[grind ←] theorem only_askRecordCache : (askRecordCache tid rid sid).Only P :=
  only_call (hP.ask _)

@[grind ←] theorem only_readLog : (readLog tid rid).Only P := only_call (hP.replay _ _)

@[grind ←] theorem only_inl (p : LeaseProg α) : (p.inl : PlaneProg α).Only P :=
  Prog.Only.inl hP.lease p

@[grind ←] theorem only_leases (p : LeaseProg α) : OnlyCalls P (leases p) :=
  OnlyCalls.lift (only_inl hP p)

@[grind ←] theorem only_replay : OnlyCalls P (replay tid rid) := by
  unfold replay
  grind

@[grind ←] theorem only_load : OnlyCalls P (Scheduler.load tid rid) := by
  unfold Scheduler.load
  grind

@[grind ←] theorem only_instances : OnlyCalls P (instances tid) := by
  unfold Scheduler.instances
  grind

end Reads

/-! ### Programs that place nothing -/

/-- The call neither queues a step nor writes a row to the outbox. -/
def aside : planeSig.Op → Prop
  | .inr (.enqueue ..) => False
  | .inr (.tx (.commit _ _ _ rows)) => rows = []
  | _ => True

abbrev Aside {ε α : Type} (x : ExceptT ε PlaneProg α) : Prop := OnlyCalls aside x

section Aside

variable {ε α : Type} {D : Definitions} {cfg : Config} {tid rid sid : String}
  {sta : RunState} {step : Step} {attempt : ℕ} {pa : Payload}

variable {at_ : ℤ} {approved : Bool} {t : Tx}

@[grind ←] theorem aside_reads : Reads aside :=
  ⟨fun _ => trivial, fun _ => trivial, fun _ _ => trivial⟩

@[grind =] theorem aside_tx_commit {es : List Dhole.Event} {rows : List JobDispatch} :
    aside (.inr (.tx (.commit tid rid es rows))) ↔ rows = [] := Iff.rfl

@[grind ←] theorem aside_armTimer {dueAt : ℤ} :
    aside (.inr (.tx (.armTimer tid rid sid dueAt at_))) := trivial

@[grind ←] theorem aside_requestApproval {parks : Bool} :
    aside (.inr (.tx (.requestApproval tid rid sid parks at_))) := trivial

@[grind ←] theorem aside_decideGate_tx :
    aside (.inr (.tx (.decideGate tid rid sid approved at_))) := trivial

@[grind ←] theorem aside_fireTimer_tx :
    aside (.inr (.tx (.fireTimer tid rid sid at_))) := trivial

@[grind ←] theorem only_askCache : (askCache tid rid step).Only aside := only_call trivial

@[grind ←] theorem only_askDefinitions : askDefinitions.Only aside := only_call trivial

@[grind ←] theorem only_putJob {plane : ℕ} {job : BuiltinJob} : (putJob plane job).Only aside :=
  only_call trivial

@[grind ←] theorem aside_outcome {x : PlaneM α} (hx : Aside x) : Aside (outcome x) :=
  OnlyCalls.outcome hx

@[grind ←] theorem aside_append : Aside (append tid rid sid attempt pa) := by
  unfold Scheduler.append
  grind

@[grind ←] theorem aside_recordUnschedulable {why : String} :
    Aside (recordUnschedulable tid rid sid why sta) := by
  unfold recordUnschedulable
  grind

theorem aside_recordAwaitingReplay (blocked : List Step) :
    Aside (recordAwaitingReplay tid rid sta blocked) := by
  induction blocked with
  | nil => exact OnlyCalls.pure _
  | cons step blocked ih =>
    unfold recordAwaitingReplay
    grind

@[grind ←] theorem aside_fail {steps : List String} :
    Aside (Scheduler.fail tid rid steps) := aside_append

@[grind ←] theorem aside_complete : Aside (complete tid rid) := aside_append

@[grind ←] theorem aside_recordOrphan {orphan : Orphan} : Aside (recordOrphan orphan) := by
  unfold recordOrphan
  grind

@[grind ←] theorem aside_recordFencedOut {current : ℕ} :
    Aside (recordFencedOut tid rid sid current sta) := by
  unfold recordFencedOut
  grind

@[grind ←] theorem aside_refuse : Aside (refuse tid rid step pa) := by
  unfold refuse
  grind

@[grind ←] theorem aside_readGraph : Aside (readGraph D tid sta) := by
  unfold readGraph
  grind

@[grind ←] theorem aside_refuseBuiltinSecrets : Aside (refuseBuiltinSecrets tid rid step) := by
  unfold refuseBuiltinSecrets
  grind

@[grind ←] theorem aside_refuseSecrets : Aside (refuseSecrets cfg tid rid step) := by
  unfold refuseSecrets
  grind

@[grind ←] theorem aside_armGate : Aside (armGate cfg tid rid step) := by
  unfold armGate
  grind

@[grind ←] theorem aside_commitUnder {tok : Token} (h : aside (.inr (.tx t))) :
    Aside (commitUnder tok t) := by
  unfold commitUnder
  grind

@[grind ←] theorem aside_recordCacheHit {outs : List OutputRef} :
    Aside (recordCacheHit cfg tid rid step outs sta) := by
  unfold recordCacheHit
  grind

@[grind ←] theorem aside_serveFromCache : Aside (serveFromCache cfg tid rid step sta) := by
  unfold serveFromCache
  grind

@[grind ←] theorem aside_takeBuiltin : Aside (takeBuiltin cfg tid rid step attempt) := by
  unfold takeBuiltin
  grind

@[grind ←] theorem aside_finish {pl : Planned} : Aside (finish tid rid pl) := by
  unfold finish
  grind

@[grind ←] theorem aside_accept {fc : Fence} : Aside (Scheduler.accept fc) := by
  unfold Scheduler.accept
  grind

@[grind ←] theorem aside_recordCacheEntry {st : JobStatus} :
    Aside (recordCacheEntry cfg tid st sta) := by
  unfold recordCacheEntry
  grind

@[grind ←] theorem aside_recordWaiting {matched : List Instance} :
    Aside (recordWaiting tid rid step matched sta) := by
  unfold recordWaiting
  grind

@[grind ←] theorem aside_surfaceInFlight {w : Waiting} {engines : List Instance} {aged : Bool} :
    Aside (surfaceInFlight D cfg w engines aged sta) := by
  unfold surfaceInFlight
  grind

@[grind ←] theorem aside_cancelRun : Aside (cancelRun tid rid) := by
  unfold cancelRun
  grind

@[grind ←] theorem aside_decideGate : Aside (decideGate tid rid sid approved) := by
  unfold System.decideGate
  grind

@[grind ←] theorem aside_fireTimer : Aside (fireTimer tid rid sid) := by
  unfold System.fireTimer
  grind

end Aside

/-! ### Jobs and engines place nothing -/

section Jobs

open Builtins

variable {α : Type} {D : Definitions} {cfg : Config} {job : BuiltinJob} {tok : Token}
  {spec : Loop.Spec} {d : JobDispatch} {body : PlaneM AgentOutcome}

@[grind ←] theorem only_getJob {plane : ℕ} : (getJob plane).Only aside := only_call trivial

@[grind ←] theorem only_askBody : (askBody job).Only aside := only_call trivial

@[grind ←] theorem only_askLoopSpec {step : Step} : (askLoopSpec step).Only aside :=
  only_call trivial

@[grind ←] theorem only_leaseLost : leaseLost.Only aside := only_call trivial

@[grind ←] theorem only_contextEnded : contextEnded.Only aside := only_call trivial

@[grind ←] theorem only_startBody {body : Body} : (startBody body).Only aside := only_call trivial

@[grind ←] theorem only_deliver : deliver.Only aside := only_call trivial

@[grind ←] theorem only_askRunnable : (askRunnable d).Only aside := only_call trivial

@[grind ←] theorem only_askSent : askSent.Only aside := only_call trivial

@[grind ←] theorem only_askAnswered : askAnswered.Only aside := only_call trivial

@[grind ←] theorem only_askPublished : askPublished.Only aside := only_call trivial

@[grind ←] theorem aside_under {x : PlaneM α} (hx : Aside x) : Aside (under tok x) := by
  unfold under
  grind

@[grind ←] theorem aside_attemptOf : Aside (attemptOf job) := by
  unfold attemptOf
  grind

@[grind ←] theorem aside_terminal {attempt : ℕ} {pa : Payload} :
    Aside (terminal job attempt tok pa) := by
  unfold terminal
  grind

@[grind ←] theorem aside_succeed {outs : List OutputRef} :
    Aside (succeed job tok outs) := aside_terminal

@[grind ←] theorem aside_failJob : Aside (Builtins.fail job tok) := by
  unfold Builtins.fail
  grind

@[grind ←] theorem aside_giveUp : Aside (giveUp job) := by
  unfold giveUp
  grind

@[grind ←] theorem aside_callModel : Aside (callModel job) := by
  unfold callModel
  grind

@[grind ←] theorem aside_realiseInto {parent fr : Pipeline} :
    Aside (realiseInto job parent fr) := by
  unfold realiseInto
  grind

@[grind ←] theorem aside_realise : Aside (realise D job spec) := by
  unfold realise
  grind

@[grind ←] theorem aside_recordLoop : Aside (recordLoop job spec) := by
  unfold recordLoop
  grind

@[grind ←] theorem aside_iterate : Aside (iterate D job) := by
  refine OnlyCalls.bind (OnlyCalls.lift only_askLoopSpec) fun spec? => ?_
  cases spec? with
  | none => exact OnlyCalls.throw _
  | some spec => grind

@[grind ←] theorem aside_runAgent : Aside (runAgent job) := by
  unfold runAgent
  grind

@[grind ←] theorem aside_claimJob : Aside (claimJob cfg job) :=
  Prog.Only.bind (only_inl aside_reads _) fun _ => trivial

@[grind ←] theorem aside_runBody (hbo : Aside body) : Aside (runBody job tok body) := by
  unfold runBody
  grind

@[grind ←] theorem aside_attempt (hbo : Aside body) : Aside (attempt cfg job body) := by
  unfold attempt
  split
  · exact OnlyCalls.throw _
  refine OnlyCalls.bind aside_claimJob fun r => ?_
  split
  · exact OnlyCalls.pure _
  · exact OnlyCalls.throw _
  · grind

@[grind ←] theorem aside_requestGate : Aside (requestGate job) := by
  unfold requestGate
  grind

@[grind ←] theorem aside_finished {x : PlaneM (List OutputRef)} (hx : Aside x) :
    Aside (finished x) :=
  OnlyCalls.bind hx fun _ => OnlyCalls.pure _

@[grind ←] theorem aside_execute : Aside (execute D cfg job) := by
  unfold execute
  grind

theorem only_run : (Builtins.run D cfg job).Only aside := by
  refine Prog.Only.bind aside_execute fun r => ?_
  split
  · exact Prog.Only.pure _
  refine Prog.Only.bind only_contextEnded fun ended => ?_
  split
  · exact Prog.Only.pure _
  split
  · exact Prog.Only.pure _
  · exact Prog.Only.bind aside_failJob fun _ => Prog.Only.pure _

theorem only_work : (work D cfg).Only aside := by
  refine Prog.Only.bind only_getJob fun job? => ?_
  cases job? with
  | none => exact Prog.Only.pure _
  | some job => exact only_run

@[grind ←] theorem only_ask : (ask d).Only aside := by
  refine Prog.Only.bind only_askSent fun sent => ?_
  split
  · exact Prog.Only.pure _
  · exact Prog.Only.bind aside_accept fun re => by grind

@[grind ←] theorem only_confirm : (confirm d).Only aside := by
  unfold confirm
  grind

@[grind ←] theorem only_handleDispatch : (handleDispatch d).Only aside := by
  unfold handleDispatch
  grind

theorem only_handle : handle.Only aside := by
  unfold handle
  grind

end Jobs

/-! ### What is placed was allowed -/

def allowed (tenantID runID : String) (step : Step) : PlaneEvent :=
  asked (.policy tenantID runID step) .allowed

/-- The policy allowed the step, or it came out of the plane's queue. -/
def Backed (plane : ℕ) (h : List PlaneEvent) (tenantID runID : String) (step : Step) : Prop :=
  allowed tenantID runID step ∈ h ∨ ∃ slots items item, gotItems plane slots items ∈ h ∧
    item ∈ items ∧ item.tenantID = tenantID ∧ item.runID = runID ∧ item.stepID = step.id

theorem Backed.mono {plane : ℕ} {h g : List PlaneEvent} {tid rid : String} {step : Step}
    (hb : Backed plane h tid rid step) (hs : h ⊆ g) : Backed plane g tid rid step := by
  rcases hb with ha | ⟨slots, its, item, hi, hr⟩
  · exact .inl (hs ha)
  · exact .inr ⟨slots, its, item, hs hi, hr⟩

/-- A row is written for a backed step, and a step that was found ready and allowed is put in
the queue. -/
def Judged (defs : Definitions) (actor : Actor) (h : List PlaneEvent) : PlaneEvent → Prop
  | ⟨.inr (.enqueue plane item), _⟩ => plane = actor.cfg.plane ∧ ∃ step,
      FoundReady defs h ⟨item.tenantID, item.runID, item.stepID⟩ step item.attempt ∧
        allowed item.tenantID item.runID step ∈ h
  | ⟨.inr (.tx (.commit tenantID runID _ rows)), _⟩ =>
      ∀ d ∈ rows, Backed actor.cfg.plane h tenantID runID d.step
  | _ => True

def Judges (defs : Definitions) (actor : Actor) (K : List PlaneEvent) {α : Type} (x : PlaneM α) :
    Prop :=
  ∀ h, K ⊆ h → wpe (Judged defs actor) x (fun _ _ => True) h

section Judges

variable {α β : Type} {D : Definitions} {A : Actor} {K : List PlaneEvent}
  {tid rid : String} {step : Step} {sta : RunState} {fuel : ℕ}

theorem judged_of_aside (h : List PlaneEvent) (e : PlaneEvent) (he : aside e.op) :
    Judged D A h e := by
  obtain ⟨op | op, r⟩ := e
  · trivial
  cases op with
  | tx t =>
    cases t with
    | commit t r es rows =>
      obtain rfl : rows = [] := he
      exact fun d hd => (nomatch hd)
    | _ => trivial
  | _ => trivial

variable {x : PlaneM α}

@[grind ←] theorem Aside.judges (hx : Aside x) : Judges D A K x :=
  fun h _ => wpe_of_only judged_of_aside hx h

@[grind ←] theorem Judges.bind {f : α → PlaneM β} (hx : Judges D A K x)
    (hf : ∀ a, Judges D A K (f a)) : Judges D A K (x >>= f) :=
  fun h hK => wpe_seq (hx h hK) fun _ a => hf a _ (List.subset_append_of_subset_left _ hK)

@[grind ←] theorem judges_outcome (hx : Judges D A K x) : Judges D A K (outcome x) :=
  fun h hK => wpe_lift.mpr (wp_mono (hx h hK) fun _ _ _ => trivial)

theorem judges_commit {es : List Dhole.Event} {rows : List JobDispatch}
    (hr : ∀ d ∈ rows, Backed A.cfg.plane K tid rid d.step) :
    Judges D A K (commit (.commit tid rid es rows)) := by
  intro h hK
  refine wpe_call_bind.mpr fun r => ⟨fun d hd => (hr d hd).mono hK, ?_⟩
  cases r with
  | ok => exact wpe_done
  | refused | failed landed => exact wpe_throw _

variable {attempt : ℕ} {tok : Token} {offeredAt : ℤ}

variable (hb : Backed A.cfg.plane K tid rid step)

include hb

theorem judges_commitDispatch : Judges D A K
      (commitDispatch A.cfg tid rid step attempt tok offeredAt) := by
  have hc (es : List Dhole.Event) : Judges D A K (commitUnder tok
      (.commit tid rid es
        [jobDispatch A.cfg tid rid step attempt tok])) := by
    have hr : ∀ d ∈ [jobDispatch A.cfg tid rid step attempt tok],
        Backed A.cfg.plane K tid rid d.step := fun d hd => by
      rwa [List.mem_singleton.mp hd]
    unfold commitUnder
    grind [judges_commit hr]
  unfold commitDispatch
  grind

@[grind ←] theorem judges_dispatchOffered : Judges D A K
      (dispatchOffered A.cfg tid rid step attempt tok offeredAt) := by
  unfold dispatchOffered
  grind [judges_commitDispatch]

@[grind ←] theorem judges_offerStep : Judges D A K (offerStep A.cfg tid rid step sta) := by
  unfold offerStep
  grind

@[grind ←] theorem judges_dispatch : Judges D A K (dispatch A.cfg tid rid step sta) := by
  unfold dispatch
  grind

omit hb

/-! ### The queue -/

variable {item : QueueItem}

theorem judges_enqueueReady (hi : ∀ h, K ⊆ h → ∃ step,
      FoundReady D h ⟨item.tenantID, item.runID, item.stepID⟩ step item.attempt ∧
        allowed item.tenantID item.runID step ∈ h) : Judges D A K (enqueueReady A.cfg item) := by
  intro h hK
  refine wpe_call_bind.mpr fun answer => ⟨⟨rfl, hi h hK⟩, ?_⟩
  cases answer with
  | queued | skipped => exact wpe_done
  | failed => exact wpe_throw _

variable {slots : ℕ} {its : List QueueItem}

theorem judges_dispatchQueued (hi : gotItems A.cfg.plane slots its ∈ K) (hie : item ∈ its) :
    Judges D A K (dispatchQueued D A.cfg item) := by
  refine Judges.bind (Aside.judges (only_load aside_reads)) fun sta => ?_
  split
  · exact Aside.judges (OnlyCalls.pure _)
  split
  · exact Aside.judges (OnlyCalls.pure _)
  split
  · exact Aside.judges (OnlyCalls.pure _)
  refine Judges.bind (Aside.judges aside_readGraph) fun p => ?_
  split
  · exact Aside.judges (OnlyCalls.pure _)
  · rename_i step hf
    have hid : item.stepID = step.id := (Dynamic.mem_of_findStep hf).2.symm
    exact judges_dispatch (.inr ⟨slots, its, item, hi, hie, rfl, rfl, hid⟩)

theorem judges_dispatchItems (rest : List QueueItem)
    (hi : gotItems A.cfg.plane slots its ∈ K) (hr : rest ⊆ its) :
    Judges D A K (dispatchItems D A.cfg rest) := by
  induction rest with
  | nil => exact Aside.judges (OnlyCalls.pure _)
  | cons item rest ih =>
    obtain ⟨hie, hr⟩ := List.cons_subset.mp hr
    exact Judges.bind (judges_dispatchQueued hi hie) fun _ => ih hr

theorem judges_drain : Judges D A K (drain D A.cfg tid) := by
  refine Judges.bind (Aside.judges (only_instances aside_reads)) fun en => ?_
  intro h _
  refine wpe_call_bind.mpr fun answer => ⟨trivial, ?_⟩
  cases answer with
  | none => exact wpe_throw _
  | some its =>
    exact judges_dispatchItems its
      (List.mem_singleton_self _) (List.Subset.refl _) _ (List.subset_append_right _ _)

/-! ### A pass -/

variable (hpolicy : A.cfg.policy = true)

include hpolicy

theorem wpe_permit (h : List PlaneEvent) : wpe (Judged D A) (permit A.cfg tid rid step)
      (fun g permitted => permitted = true → allowed tid rid step ∈ g) h := by
  unfold permit
  rw [hpolicy]
  refine wpe_call_bind.mpr fun answer => ⟨trivial, ?_⟩
  cases answer with
  | allowed => exact (wpe_pure _).mpr fun _ => List.mem_concat_self
  | failed => exact wpe_throw _
  | denied =>
    refine wpe_seq (wpe_of_only judged_of_aside aside_refuse _) fun _ _ => ?_
    exact (wpe_pure _).mpr nofun

theorem judges_placeStep (hr : FoundReady D K ⟨tid, rid, step.id⟩ step (sta.attempts step.id + 1)) :
    Judges D A K (placeStep A.cfg tid rid step sta) := by
  intro h hK
  refine wpe_bind.mpr (wpe_mono (wpe_permit hpolicy h) fun g permitted ha => ?_)
  split
  · exact wpe_done
  rename_i hp
  have hba : allowed tid rid step ∈ h ++ g := ha (by simpa using hp)
  have hq : Judges D A (h ++ g) (enqueueReady A.cfg
      { tenantID := tid, runID := rid, stepID := step.id, pipelineID := sta.pipelineID,
        attempt := sta.attempts step.id + 1 }) :=
    judges_enqueueReady fun h' hs => ⟨step,
      hr.mono (List.Subset.trans (List.subset_append_of_subset_left _ hK) hs),
      hs hba⟩
  have hd : Judges D A (h ++ g)
      (dispatch A.cfg tid rid step sta) := judges_dispatch (.inl hba)
  refine (?_ : Judges D A (h ++ g) _) _ (List.Subset.refl _)
  grind

theorem judges_placeReady (ready : List Step) {served : Bool} (hr : ∀ step ∈ ready,
      FoundReady D K ⟨tid, rid, step.id⟩ step (sta.attempts step.id + 1)) :
    Judges D A K (placeReady A.cfg tid rid sta ready served) := by
  induction ready generalizing served with
  | nil => exact Aside.judges (OnlyCalls.pure _)
  | cons step ready ih =>
    refine Judges.bind (judges_placeStep hpolicy (hr step List.mem_cons_self))
      fun placed => ?_
    cases placed with
    | stop => exact Aside.judges (OnlyCalls.pure _)
    | next now => exact ih fun s hs => hr s (List.mem_cons_of_mem _ hs)

/-- One pass, if the passes it leads to are judged. -/
theorem judges_advance_succ (ih : Judges D A K (Scheduler.advance D A.cfg fuel tid rid)) :
    Judges D A K (Scheduler.advance D A.cfg (fuel + 1) tid rid) := by
  intro h hK
  unfold Scheduler.advance
  split
  · exact wpe_throw _
  split
  · exact wpe_throw _
  rename_i ht hru
  refine wpe_bind.mpr (wpe_load_of (fun _ => trivial) fun log hcr => ?_)
  split
  · exact wpe_done
  rename_i hc
  have ho : Open log := ⟨hcr, by simpa using hc⟩
  refine wpe_readGraph_bind (fun _ => trivial) fun p hg answer => ?_
  cases hbu : Dag.build (some p) with
  | error e => exact wpe_throw _
  | ok graph =>
    refine wpe_call_bind.mpr fun at_ => ⟨trivial, ?_⟩
    -- from here on the pass knows the log it has read
    have hr : ∀ step ∈ (plan p graph (RunState.ofLog log) at_).ready,
        FoundReady D (sawLog tid rid log :: K) ⟨tid, rid, step.id⟩ step
          ((RunState.ofLog log).attempts step.id + 1) := by
      intro step hst
      obtain ⟨hm, hs⟩ := mem_ready hst
      exact ⟨log, by simp, ho, p, graph, hg, hbu, hm, hs, rfl, rfl, ht, hru⟩
    have ha : Judges D A (sawLog tid rid log :: K)
        (Scheduler.advance D A.cfg fuel tid rid) :=
      fun h hsu => ih h (List.Subset.trans (List.subset_cons_self _ _) hsu)
    have hp : Judges D A (sawLog tid rid log :: K)
        (placeReady A.cfg tid rid (RunState.ofLog log)
          (plan p graph (RunState.ofLog log) at_).ready false) :=
      judges_placeReady hpolicy _ hr
    have hd : Judges D A (sawLog tid rid log :: K)
        (drain D A.cfg tid) := judges_drain
    refine wpe_seq (wpe_of_only judged_of_aside (aside_recordAwaitingReplay _) _) fun g _ => ?_
    split
    · exact wpe_of_only judged_of_aside aside_finish _
    refine (?_ : Judges D A (sawLog tid rid log :: K) _) _
      (List.cons_subset.mpr ⟨by simp, fun e he => by simp [hK he]⟩)
    grind

@[grind ←] theorem judges_advance : Judges D A K (Scheduler.advance D A.cfg fuel tid rid) := by
  induction fuel with
  | zero => exact Aside.judges (OnlyCalls.pure _)
  | succ fuel ih => exact judges_advance_succ hpolicy ih

/-! ### The tasks of a plane -/

@[grind ←] theorem judges_settleStatus {st : JobStatus} {pa : Payload} :
    Judges D A K (settleStatus D A.cfg fuel tid st pa) := by
  unfold settleStatus
  grind

theorem judges_onStatus {st : Option JobStatus} :
    Judges D A K (Scheduler.onStatus D A.cfg fuel st) := by
  unfold Scheduler.onStatus
  split
  · exact Aside.judges (OnlyCalls.throw _)
  split
  · exact Aside.judges (OnlyCalls.throw _)
  split
  · exact Aside.judges (OnlyCalls.throw _)
  refine Judges.bind (Aside.judges (only_leases aside_reads _)) fun r => ?_
  split
  · exact Aside.judges (OnlyCalls.pure _)
  · exact Aside.judges (OnlyCalls.throw _)
  · grind

theorem judges_recordOrphans (orphans : List Orphan) :
    Judges D A K (recordOrphans D A.cfg fuel orphans) := by
  induction orphans with
  | nil => exact Aside.judges (OnlyCalls.pure _)
  | cons orphan orphans ih =>
    unfold recordOrphans
    grind

@[grind ←] theorem judges_withdrawAbandoned {w : Waiting} :
    Judges D A K (withdrawAbandoned D A.cfg fuel w) := by
  unfold withdrawAbandoned
  grind

@[grind ←] theorem judges_surfaceOne {w : Waiting} {engines : List Instance} :
    Judges D A K (surfaceOne D A.cfg fuel w engines) := by
  unfold surfaceOne
  grind

theorem judges_surfaceAll (waiting : List Waiting) (fleets : List (String × List Instance)) :
    Judges D A K (surfaceAll D A.cfg fuel fleets waiting) := by
  induction waiting generalizing fleets with
  | nil => exact Aside.judges (OnlyCalls.pure _)
  | cons w waiting ih =>
    unfold surfaceAll
    grind

@[grind ←] theorem judges_surfaceStranded : Judges D A K (surfaceStranded D A.cfg fuel) := by
  unfold surfaceStranded
  grind [judges_surfaceAll]

theorem judges_sweepOrphans : Judges D A K (sweepOrphans D A.cfg fuel) := by
  unfold sweepOrphans
  grind [judges_recordOrphans]

theorem judges_startRun {pid revisionID : String} : Judges D A K
      (startRun D A.cfg fuel tid rid pid revisionID) := by
  unfold startRun
  grind

omit hpolicy

theorem judged_discard (hx : Judges D A [] x) : wp (Judged D A) (discard x) (fun _ _ => True) [] :=
  wp_bind.mpr (wp_mono (hx [] (List.Subset.refl _)) fun _ _ _ => trivial)

theorem Actor.judged (hpolicy : A.cfg.policy = true) :
    wp (Judged D A) (A.prog D) (fun _ _ => True) [] := by
  unfold Actor.prog
  split
  · exact judged_discard (judges_startRun hpolicy)
  · exact judged_discard (Aside.judges aside_cancelRun)
  · exact judged_discard (judges_advance hpolicy)
  · exact judged_discard (judges_onStatus hpolicy)
  · exact judged_discard (Aside.judges aside_accept)
  · exact judged_discard (judges_sweepOrphans hpolicy)
  · exact wp_of_only judged_of_aside only_work _
  · exact judged_discard (Aside.judges (only_leases aside_reads _))
  · exact judged_discard (Aside.judges aside_decideGate)
  · exact judged_discard (Aside.judges aside_fireTimer)
  · exact wp_of_only judged_of_aside only_handle _

end Judges

/-! ### Histories -/

section Histories

variable {D : Definitions} {As : ℕ → Actor} {tr : History} {i n : ℕ}
  {tid rid : String}

theorem Runs.judged (h : Runs D As tr) (hpolicy : ∀ i, (As i).cfg.policy = true) :
    Guarded planeWorld (fun i => Judged D (As i)) tr :=
  Reach.guarded (fun i => Actor.judged (hpolicy i)) h

variable (htr : PlaneTrace D As tr) (hj : Guarded planeWorld (fun i => Judged D (As
  i)) tr)

include htr hj

/-- What waits in the queue of a plane was allowed by a task of the plane that found it ready. -/
theorem allowed_of_queue (n : ℕ) (plane : ℕ) :
    ∀ item ∈ (planeWorld.state (tr.take n)).2.queue plane, ∃ k < n, ∃ j step attempt,
      tr[k]? = some ⟨j, allowed item.tenantID item.runID step⟩ ∧
      (As j).cfg.plane = plane ∧ WasReady D (logOf (tr.take n) item.tenantID item.runID)
        ⟨item.tenantID, item.runID, item.stepID⟩ step attempt := by
  induction n with
  | zero => exact fun item hi => (nomatch hi)
  | succ n ih =>
    intro item hi
    have hold (hi : item ∈ (planeWorld.state (tr.take n)).2.queue plane) :
        ∃ k < n + 1, ∃ j step attempt,
          tr[k]? = some ⟨j, allowed item.tenantID item.runID step⟩ ∧
          (As j).cfg.plane = plane ∧
          WasReady D (logOf (tr.take (n + 1)) item.tenantID item.runID)
            ⟨item.tenantID, item.runID, item.stepID⟩ step attempt := by
      obtain ⟨k, hk, j, step, attempt, hg, hp, hr⟩ := ih item hi
      exact ⟨k, hk.trans n.lt_succ_self, j, step, attempt, hg, hp,
        hr.mono (logOf_take_mono htr n.le_succ)⟩
    cases hn : tr[n]? with
    | none =>
      have hl := List.getElem?_eq_none_iff.mp hn
      rw [List.take_of_length_le (hl.trans n.le_succ)] at hi
      exact hold (by rwa [List.take_of_length_le hl])
    | some a =>
      obtain ⟨i, e⟩ := a
      rw [state_take_succ hn] at hi
      obtain ⟨op | op, r⟩ := e
      · exact hold hi
      rcases mem_queue_next hi with hi | heq
      · exact hold hi
      · cases heq
        obtain ⟨hp, step, hf, ha⟩ := (hj.at_get hn).2
        obtain ⟨k, hk, hg⟩ := get_of_mem_own_take ha
        exact ⟨k, hk.trans n.lt_succ_self, i, step, _, hg, hp.symm,
          (hf.wasReady (htr.take n)).mono (logOf_take_mono htr n.le_succ)⟩

/-- Behind every row that is written there is an answer of the policy to the same plane that
allowed the step of the row. -/
theorem allowed_of_row {es : List Dhole.Event} {rows : List JobDispatch} {res : TxRes}
    (hn : tr[n]? = some ⟨i, did (.commit tid rid es rows) res⟩)
    {d : JobDispatch} (hd : d ∈ rows) : ∃ k < n, ∃ j, tr[k]? = some ⟨j, allowed tid rid d.step⟩ ∧
      (As j).cfg.plane = (As i).cfg.plane := by
  rcases (hj.at_get hn).2 d hd with ha | ⟨slots, its, item, hi, hie, rfl, rfl, hid⟩
  · obtain ⟨k, hk, hge⟩ := get_of_mem_own_take ha
    exact ⟨k, hk, i, hge, rfl⟩
  obtain ⟨m, hm, hgo⟩ := get_of_mem_own_take hi
  have hq := ((htr.at_get hgo).1 its rfl).2.subset hie
  obtain ⟨k, hk, j, step, attempt, hge, hp, hr⟩ := allowed_of_queue htr hj m _ item hq
  -- the id names one step in the run
  have hro : StepOf D (logOf (tr.take n) item.tenantID item.runID) item.tenantID item.stepID
      d.step := by
    have hg : Grounds D (As i) (own i (tr.take n))
      (.commit item.tenantID item.runID es rows) := (htr.at_get hn).2
    rcases rows_of_grounds hg with rfl | ⟨step, _, _, _, -, hh, -, -, rfl⟩
    · cases hd
    obtain rfl := List.mem_singleton.mp hd
    rw [hid]
    exact (hh.chosenFrom htr).stepOf
  have hs : step = d.step := (hr.mono (logOf_take_mono htr hm.le)).stepOf.unique
    (createdOnce_logOf (htr.take n) _ _) hro
  exact ⟨k, hk.trans hm, j, hs ▸ hge, hp⟩

end Histories

end Dhole.System
