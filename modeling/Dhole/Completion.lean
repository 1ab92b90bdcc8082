import Dhole.Acyclic
import Dhole.Outbox

/-! How a pass ends a run. A pass that finds nothing ready, in flight or waiting closes the run,
so a step it says nothing about must be one whose predecessors have not succeeded; in a graph
without cycles there is then no such step at all, and every step has succeeded. -/

namespace Dhole

open Dag Effects List

/-! ### What a plan leaves out -/

namespace Planned

/-- Nothing is planned, and nothing stands in the way. -/
def Empty (out : Planned) : Prop :=
  out.ready = [] ∧ out.inFlight = 0 ∧ out.waiting = 0 ∧ out.blocked = [] ∧ out.exhausted = []

/-- The step succeeded, or was never tried because of a predecessor that has not. -/
def Passed (predecessors : List String) (state : RunState) (step : Step) : Prop :=
  state.terminal step.id = some .succeeded ∨
    ∃ pred ∈ predecessors, state.terminal pred ≠ some .succeeded

variable {out : Planned} {step s : Step} {sta : RunState} {now : ℤ}
  {predecessors : String → List String}

theorem not_empty_classify : ¬ (out.classify step sta now).Empty := by
  unfold classify Empty
  dsimp only
  split_ifs
  · simp
  · simp
  · split
    · split_ifs <;> simp
    · simp

theorem empty_step (h : (Planned.step predecessors sta now out step).Empty) :
    out.Empty ∧ Passed (predecessors step.id) sta step := by
  unfold Planned.step at h
  split at h
  · exact ⟨h, .inl ‹_›⟩
  · exact absurd h not_empty_classify
  · split_ifs at h with hg hr ht hd
    · simp [Empty] at h
    · simp [Empty] at h
    · simp [Empty] at h
    · simp [Empty] at h
    · refine ⟨h, .inr ?_⟩
      simpa using hd

theorem empty_foldl (steps : List Step)
    (h : (steps.foldl (Planned.step predecessors sta now) out).Empty) :
    ∀ step ∈ steps, Passed (predecessors step.id) sta step := by
  induction steps using reverseRecOn with
  | nil => simp
  | append_singleton steps last ih =>
    rw [foldl_append] at h
    obtain ⟨hi, hl⟩ := empty_step h
    intro step hs
    rcases mem_append.mp hs with hs | hs
    · exact ih hi step hs
    · rw [mem_singleton.mp hs]
      exact hl

/-- The last attempt failed or was lost, and the policy allows no other. -/
def Spent (state : RunState) (step : Step) : Prop :=
  state.terminal step.id = some .failed ∧
    (retryPolicy step).allowsRetry (state.attempts step.id) = false

theorem mem_exhausted_step {id : String}
    (h : id ∈ (Planned.step predecessors sta now out step).exhausted) :
    id ∈ out.exhausted ∨ (step.id = id ∧ Spent sta step) := by
  unfold Planned.step at h
  split at h
  · exact .inl h
  · rename_i hf
    unfold classify at h
    dsimp only at h
    split_ifs at h with hr ho
    · exact .inl h
    · refine (mem_append.mp h).imp_right fun hid => ?_
      exact ⟨(mem_singleton.mp hid).symm, hf, by simpa using hr⟩
    · split at h
      · split_ifs at h <;> exact .inl h
      · exact .inl h
  · split_ifs at h <;> exact .inl h

theorem mem_exhausted_foldl {id : String} (steps : List Step)
    (h : id ∈ (steps.foldl (Planned.step predecessors sta now) out).exhausted) :
    id ∈ out.exhausted ∨ ∃ step ∈ steps, step.id = id ∧ Spent sta step := by
  induction steps using reverseRecOn with
  | nil => exact .inl h
  | append_singleton steps last ih =>
    rw [foldl_append] at h
    rcases mem_exhausted_step h with h | hl
    · exact (ih h).imp_right fun ⟨step, hst, hs⟩ => ⟨step, mem_append_left _ hst, hs⟩
    · exact .inr ⟨last, mem_concat_self, hl⟩

end Planned

variable {p : Pipeline} {g : Graph} {sta : RunState} {now : ℤ}

theorem succeeded_of_plan_empty (hb : build (some p) = .ok g)
    (hem : (plan p g sta now).Empty) : ∀ s ∈ p.steps, sta.terminal s.id = some .succeeded := by
  have hf : (p.steps.foldl (Planned.step (predecessorsOf p g) sta now) {}).Empty := by
    obtain ⟨hr, hre⟩ := hem
    refine ⟨?_, hre⟩
    have hl := congrArg List.length hr
    simpa [plan] using hl
  refine build_induction (P := fun id => sta.terminal id = some .succeeded) hb
    fun s hs hp => ?_
  rcases Planned.empty_foldl p.steps hf s hs with hd | ⟨pred, hm, hn⟩
  · exact hd
  · obtain ⟨e, he, rfl, hto⟩ := (mem_predecessorsOf hb).mp hm
    exact absurd (hp e he hto) hn

theorem spent_of_mem_exhausted {id : String} (h : id ∈ (plan p g sta now).exhausted) :
    ∃ step ∈ p.steps, step.id = id ∧ Planned.Spent sta step := by
  rcases Planned.mem_exhausted_foldl p.steps h with h | h
  · cases h
  · exact h

/-- A pass over an accepted pipeline plans nothing and waits for nothing exactly if every step has
succeeded, so no run is stuck. -/
theorem plan_empty_iff {p : Pipeline} {g : Graph} {state : RunState} {now : ℤ}
    (h : build (some p) = .ok g) :
    (plan p g state now).Empty ↔ ∀ s ∈ p.steps, state.terminal s.id = some .succeeded := by
  refine ⟨succeeded_of_plan_empty h, fun hs => ?_⟩
  have hf : p.steps.foldl (Planned.step (predecessorsOf p g) state now) {} =
      p.steps.foldl (fun out _ => out) {} :=
    foldl_ext _ _ _ fun out s hm => by simp [Planned.step, hs s hm]
  simp [plan, hf, Planned.Empty]

def buildThenTest : Pipeline where
  id := "p"
  steps := [{ id := "build" }, { id := "test" }]
  edges := [⟨"build", "out", "test", "in", []⟩]

def succeeded (ids : List String) : RunState where
  terminal id := if id ∈ ids then some .succeeded else none

theorem buildThenTest_plan_empty : ∃ g, build (some buildThenTest) = .ok g ∧
    ¬ (plan buildThenTest g (succeeded ["build"]) 0).Empty ∧
      (plan buildThenTest g (succeeded ["build", "test"]) 0).Empty := by
  obtain ⟨g, hg⟩ := Lexical.isOk_iff.mp (by decide +kernel : (build (some buildThenTest)).isOk = true)
  exact ⟨g, hg, fun h => absurd ((plan_empty_iff hg).mp h) (by decide),
    (plan_empty_iff hg).mpr (by decide)⟩

namespace System

open Interleave Prog Plane Lease Scheduler

/-! ### What ends a run -/

def Appends (t : Tx) (tenantID runID : String) (d : Dhole.Event) : Prop :=
  ∃ s s' new, t.Fresh s ∧ t.apply s = some s' ∧
    s'.log tenantID runID = s.log tenantID runID ++ new ∧ d ∈ new

/-- The pass closes the run because of a step it has just recorded a refusal of. -/
def Refused (h : List PlaneEvent) (tenantID runID : String) (steps : List String) : Prop :=
  ∃ stepID payload at_ at', steps = [stepID] ∧
    (payload = .stepPolicyDenied ∨ payload = .stepSecretUnavailable) ∧
    [did (.commit tenantID runID [{ stepID, payload, at_ }] []) .ok, asked .now at'] <:+ h

def Read (defs : Definitions) (h : List PlaneEvent) (tenantID runID : String)
    (holds : Pipeline → RunState → Prop) : Prop :=
  ∃ log p g, lastLog h tenantID runID = some log ∧
    graphOf defs tenantID (RunState.ofLog log) = some p ∧ build (some p) = .ok g ∧
    holds p (RunState.ofLog log)

/-- Why an event that ends a run is right: every step of the graph has succeeded, or each of
the steps it names has failed for the last time. A refusal and a rejected gate end a run on
grounds of their own. -/
def EndSound (defs : Definitions) (h : List PlaneEvent) (t : Tx) (tenantID runID : String) :
    Payload → Prop
  | .runCompleted => Read defs h tenantID runID fun p state =>
      ∀ s ∈ p.steps, state.terminal s.id = some .succeeded
  | .runFailed steps => Refused h tenantID runID steps ∨
      (∃ stepID at_, t = .decideGate tenantID runID stepID false at_) ∨
      steps ≠ [] ∧ Read defs h tenantID runID fun p state =>
        ∀ id ∈ steps, ∃ s ∈ p.steps, s.id = id ∧ Planned.Spent state s
  | _ => True

variable {D : Definitions} {A : Actor} {h : List PlaneEvent} {t : Tx}
  {tid rid : String} {d : Dhole.Event} {log : Log} {es : List Dhole.Event}

theorem endSound_of_not_closes {pa : Payload} (hc : pa.closesRun = false) :
    EndSound D h t tid rid pa := by
  cases pa <;> trivial

theorem endSound_of_grounds {rows : List JobDispatch}
    (hg : Grounds D A h (.commit tid rid es rows)) (hd : d ∈ es) :
    EndSound D h t tid rid d.payload := by
  cases hg with
  | note hin hc =>
    rw [mem_singleton.mp hd]
    exact endSound_of_not_closes hc
  | refused hre hr =>
    rw [mem_singleton.mp hd]
    exact .inl ⟨_, _, _, _, rfl, hre, hr⟩
  | exhausted hi hs =>
    rw [mem_singleton.mp hd]
    exact .inr (.inr ⟨hs, _, _, _, hi.read, hi.graph, hi.build,
      fun id hid => spent_of_mem_exhausted hid⟩)
  | completed hi he hb =>
    rw [mem_singleton.mp hd]
    exact ⟨_, _, _, hi.read, hi.graph, hi.build, succeeded_of_plan_empty hi.build
      ⟨hi.ready, hi.inFlight, hi.waiting, hb, he⟩⟩
  | verdict ht hj hv =>
    rw [mem_singleton.mp hd]
    cases hv <;> trivial
  | status ht hf hse hp hte =>
    rw [mem_singleton.mp hd]
    unfold terminalEvent at hp
    split at hp <;> cases hp <;> trivial
  | served ht hh hch =>
    rcases mem_cons.mp hd with rfl | hd
    · trivial
    · rw [mem_singleton.mp hd]
      trivial
  | _ =>
    rw [mem_singleton.mp hd]
    trivial

theorem endSound_of_wrote (hw : Wrote D A h log tid rid t es) (hd : d ∈ es) :
    EndSound D h t tid rid d.payload := by
  cases hw with
  | commit hg hf => exact endSound_of_grounds hg hd
  | awaitingTimer | awaitingApproval ht hj hte hr =>
    rw [mem_singleton.mp hd]
    trivial
  | fired ht =>
    rcases mem_cons.mp hd with rfl | hd
    · trivial
    · rw [mem_singleton.mp hd]
      trivial
  | @decided st approved at_ ht haw =>
    unfold Store.decision at hd
    split_ifs at hd with hp ha
    · rcases mem_pair.mp hd with rfl | rfl <;> trivial
    · rcases mem_pair.mp hd with rfl | rfl <;> trivial
    · obtain rfl : approved = false := by simpa using ha
      rcases mem_cons.mp hd with rfl | hd
      · trivial
      · rcases mem_pair.mp hd with rfl | rfl
        · trivial
        · exact .inr (.inl ⟨st, at_, rfl⟩)

/-- Whatever log a pass reads and whatever fleet it finds, it completes a run only if every
step of the grown graph has succeeded, and fails it for exhausted attempts only if a step has
failed for the last time. -/
theorem completion_sound (defs : Definitions) (actor : Actor) {h : List PlaneEvent} {t : Tx}
    {res : TxRes} {q : PlaneProg Unit} {tenantID runID : String} {d : Dhole.Event}
    (hsteps : Steps (actor.prog defs) (h ++ [did t res]) q) (happ : Appends t tenantID runID d) :
    EndSound defs h t tenantID runID d.payload := by
  have hp : Permitted defs actor h (did t res) := by
    simpa using wp_guard (actor.wp_prog defs) hsteps
  have hg : Grounds defs actor h t := hp
  obtain ⟨s, s', new, hf, ha, hl, hd⟩ := happ
  rcases apply_log hg hf ha with heq | ⟨events, heq, hw⟩
  · rw [heq] at hl
    obtain rfl : new = [] := by simpa using hl
    cases hd
  · obtain ⟨new', hn', hs⟩ := appendAll_eq (s.log tenantID runID) events
    have hn : new = new' := append_cancel_left (hl.symm.trans (heq.trans hn'))
    exact endSound_of_wrote hw (hs.subset (hn ▸ hd))

/-! ### A run of one step -/

def buildSucceeded : JobStatus where
  runID := "run"
  stepID := "build"
  attempt := 1
  phase := .succeeded
  fence := .token "acme" ⟨⟨"acme", "run", "build"⟩, 1⟩

def startThenSucceed : ℕ → Actor
  | 0 => doing (.startRun "acme" "run" "p" "r1")
  | _ => doing (.onStatus (some buildSucceeded))

/-- The step is dispatched and succeeds, and the pass after that ends the run. -/
def buildRun : History :=
  run oneStep startThenSucceed { engines := [readyEngine] }
    (List.replicate 17 0 ++ List.replicate 9 1)

def buildEnd : Tx := .commit "acme" "run" [{ payload := .runCompleted, at_ := 24 }] []

theorem buildRun_completion :
    EndSound oneStep (own 1 buildRun).dropLast buildEnd "acme" "run" .runCompleted := by
  have hr : Runs oneStep startThenSucceed buildRun := run_runs _ _ _ _
  obtain ⟨q, hs⟩ := hr.steps 1
  have ho : own 1 buildRun = (own 1 buildRun).dropLast ++ [did buildEnd .ok] := rfl
  exact completion_sound oneStep (startThenSucceed 1) hs
    (d := { payload := .runCompleted, at_ := 24 })
    ⟨{}, _, _, .inl (by decide), rfl, rfl, mem_singleton_self _⟩

end System

end Dhole
