import Dhole.Ends
import Dhole.RunStore

/-! The run as the browser shows it, reduced from the stream of its events. The view keeps the
state of the run and of every step it has heard of, and is meant to say of both what the
scheduler's fold of the same log says. Every later event of a step takes the place of the state
shown, a lost attempt is no failure to the view, and a cancelled run is never over. -/

namespace Dhole.RunView

open List
open RunState (ofLog ofLog_snoc)
open RunStore (settles terminal_fold)
open Dhole.System (completed_ofLog)

/-! ### The reduction -/

/-- The types of the events that are one and the same `loopRecord` to the scheduler's fold, which
passes over them all. -/
inductive Record where
  | stepReady
  | taintSanitised
  | agentParked
  | agentAction
  | loopIterationStarted
  | loopIterationFinished
  | loopExited
  | loopCeilingReached
  | loopFailed
deriving DecidableEq

/-- An event of the stream. The record says which one a `loopRecord` is. -/
structure RunEvent extends Event where
  record : Record := .stepReady
deriving DecidableEq

/-- The state of a step: a word of the view's own, or the type of an event. -/
inductive NodeState where
  | pending
  | ready
  | dispatched
  | verdict (v : Verdict)
  | typed (e : RunEvent)
deriving DecidableEq

inductive State where
  | pending
  | running
  | completed
  | failed
deriving DecidableEq

structure RunModel where
  state : State := .pending
  nodes : String → Option NodeState := fun _ => none

def nodeState (event : RunEvent) : Option NodeState :=
  match event.payload, event.record with
  | .fragmentRealised _, _ | .loopRecord, .loopIterationStarted
  | .loopRecord, .loopIterationFinished => none
  | .loopRecord, .stepReady => some .ready
  | .stepDispatched _, _ => some .dispatched
  | .stepSucceeded _, _ => some (.verdict .succeeded)
  | .stepFailed, _ => some (.verdict .failed)
  | _, _ => some (.typed event)

def applyEvent (model : RunModel) (event : RunEvent) : RunModel :=
  match event.payload with
  | .runCreated _ _ => { model with state := .running }
  | .runCompleted => { model with state := .completed }
  | .runFailed _ => { model with state := .failed }
  | _ =>
    if event.stepID = "" then model
    else
      let node := (model.nodes event.stepID).getD .pending
      { model with
        nodes := Function.update model.nodes event.stepID (some ((nodeState event).getD node)) }

def applyEvents (model : RunModel) (events : List RunEvent) : RunModel :=
  events.foldl applyEvent model

def runIsFinished (model : RunModel) : Bool :=
  model.state = .completed || model.state = .failed

/-! ### What the view shows -/

def last (p : RunEvent → Bool) (log : List RunEvent) : Option RunEvent := log.reverse.find? p

@[simp] theorem last_snoc {p : RunEvent → Bool} {log : List RunEvent} {e : RunEvent} :
    last p (log ++ [e]) = if p e then some e else last p log := by
  simp only [last, reverse_append, reverse_singleton, singleton_append, find?_cons]
  cases p e <;> rfl

def onRun (e : RunEvent) : Bool :=
  match e.payload with
  | .runCreated _ _ | .runCompleted | .runFailed _ => true
  | _ => false

def onNode (id : String) (e : RunEvent) : Bool :=
  !onRun e && id ≠ "" && e.stepID = id && (nodeState e).isSome

variable {log : List RunEvent} {e : RunEvent} {id : String}

theorem applyEvents_snoc (m : RunModel) (log : List RunEvent) (e : RunEvent) :
    applyEvents m (log ++ [e]) = applyEvent (applyEvents m log) e := foldl_concat _ _ _ _

theorem applyEvent_cases (m : RunModel) (e : RunEvent) :
    onRun e = true ∧ (applyEvent m e).nodes = m.nodes ∧
      runIsFinished (applyEvent m e) = e.payload.closesRun ∨
    onRun e = false ∧ (applyEvent m e).state = m.state ∧ ∀ id, (applyEvent m e).nodes id =
      if id ≠ "" ∧ e.stepID = id then some ((nodeState e).getD ((m.nodes id).getD .pending))
      else m.nodes id := by
  unfold applyEvent onRun
  split <;> rename_i hp
  case h_4 =>
    refine .inr ⟨rfl, ?_⟩
    split <;> rename_i hid
    · refine ⟨rfl, fun id => (if_neg ?_).symm⟩
      rintro ⟨hne, rfl⟩
      exact hne hid
    · refine ⟨rfl, fun id => ?_⟩
      by_cases heq : e.stepID = id
      · subst heq
        simp [hid]
      · simp [Function.update_of_ne (Ne.symm heq), heq]
  all_goals simp [runIsFinished, Payload.closesRun, hp]

theorem finished_iff (log : List RunEvent) : runIsFinished (applyEvents {} log) ↔
    ∃ e, last onRun log = some e ∧ e.payload.closesRun := by
  induction log using reverseRecOn with
  | nil => simp [applyEvents, runIsFinished, last]
  | append_singleton log e ih =>
    rw [applyEvents_snoc]
    obtain ⟨hr, -, hf⟩ | ⟨hr, hs, -⟩ := applyEvent_cases (applyEvents {} log) e
    · simp [hr, hf]
    · rw [runIsFinished, hs, ← runIsFinished, ih]
      simp [hr]

theorem nodes_iff {state : NodeState} (hs : state ≠ .pending) (log : List RunEvent) :
    (applyEvents {} log).nodes id = some state ↔
      ∃ e, last (onNode id) log = some e ∧ nodeState e = some state := by
  induction log using reverseRecOn with
  | nil => simp [applyEvents, last]
  | append_singleton log e ih =>
    rw [applyEvents_snoc, last_snoc]
    obtain ⟨hr, hn, -⟩ | ⟨hr, -, hn⟩ := applyEvent_cases (applyEvents {} log) e
    · simp [onNode, hr, hn, ih]
    rw [hn]
    split <;> rename_i hid
    · cases hnw : nodeState e with
      | none =>
        rw [if_neg (by simp [onNode, hnw]), ← ih]
        cases (applyEvents {} log).nodes id <;> simp [hs.symm]
      | some new => simp [onNode, hr, hid, hnw]
    · rw [ih, if_neg (by simpa [onNode, hr] using fun hne heq => absurd ⟨hne, heq⟩ hid)]

def fold (log : List RunEvent) : RunState := ofLog (log.map RunEvent.toEvent)

theorem onNode_of_settles (hid : id ≠ "") (h : settles id e.toEvent = true) : onNode id e = true := by
  obtain ⟨⟨st, attempt, pa, at_⟩, record⟩ := e
  cases pa <;> simp_all [settles, onNode, onRun, nodeState]

theorem fold_of_verdict {v : Verdict} {s : RunState} (he : nodeState e = some (.verdict v)) :
    (s.fold e.toEvent).terminal e.stepID = some v := by
  obtain ⟨⟨st, attempt, pa, at_⟩, record⟩ := e
  cases pa with
  | loopRecord => cases record <;> simp [nodeState] at he
  | stepSucceeded outputs | stepFailed =>
    cases he
    exact Function.update_self _ _ _
  | _ => simp [nodeState] at he

theorem terminal_of_last {v : Verdict} (hl : last (onNode id) log = some e)
    (he : nodeState e = some (.verdict v)) : (fold log).terminal id = some v := by
  obtain ⟨⟨⟨-, hid⟩, rfl⟩, -⟩ : ((onRun e = false ∧ id ≠ "") ∧ e.stepID = id) ∧ _ := by
    simpa [onNode] using find?_some hl
  induction log using reverseRecOn with
  | nil => simp [last] at hl
  | append_singleton log d ih =>
    rw [fold, map_append, map_singleton, ofLog_snoc, ← fold]
    rw [last_snoc] at hl
    split at hl <;> rename_i hd
    · cases hl
      exact fold_of_verdict he
    · rw [terminal_fold (Bool.eq_false_iff.mpr fun h => hd (onNode_of_settles hid h)), ih hl]

/-! ### Agreement -/

/-- The run is over and a step has a verdict in the view exactly if they do to the scheduler. -/
def Agree (log : List RunEvent) : Prop :=
  (runIsFinished (applyEvents {} log) ↔ (fold log).completed) ∧
  ∀ id v, (applyEvents {} log).nodes id = some (.verdict v) ↔ (fold log).terminal id = some v

/-- Once an event closed the run the last one the view reads the run's state from did, and the
last event shown of a step is a verdict where the last word on it is one. -/
def Legible (log : List RunEvent) : Prop :=
  ((∃ e ∈ log, e.payload.closesRun) → ∃ e, last onRun log = some e ∧ e.payload.closesRun) ∧
  ∀ id d, LastWord (log.map RunEvent.toEvent) id d → d.payload.verdict?.isSome →
    ∃ e w, last (onNode id) log = some e ∧ nodeState e = some (.verdict w)

theorem completed_iff (log : List RunEvent) :
    (fold log).completed ↔ ∃ e ∈ log, e.payload.closesRun := by
  simp [fold, completed_ofLog]

theorem agree_iff (log : List RunEvent) : Agree log ↔ Legible log := by
  have hs (id : String) (v : Verdict) : (applyEvents {} log).nodes id = some (.verdict v) ↔ _ :=
    nodes_iff NodeState.noConfusion log
  have ho : (∃ e, last onRun log = some e ∧ e.payload.closesRun) →
      ∃ e ∈ log, e.payload.closesRun := fun ⟨e, hl, hc⟩ =>
    ⟨e, mem_reverse.mp (mem_of_find?_eq_some hl), hc⟩
  refine and_congr ?_ ?_
  · rw [finished_iff, completed_iff]
    exact ⟨Iff.mpr, fun h => ⟨ho, h⟩⟩
  constructor
  · intro h id d hd hv
    obtain ⟨v, hv⟩ := Option.isSome_iff_exists.mp hv
    obtain ⟨e, hl, he⟩ := (hs id v).mp ((h id v).mpr (terminal_iff_lastWord.mpr ⟨d, hd, hv⟩))
    exact ⟨e, v, hl, he⟩
  · intro h id v
    rw [hs]
    constructor
    · rintro ⟨e, hl, he⟩
      exact terminal_of_last hl he
    · intro hv
      obtain ⟨d, hd, hdv⟩ := terminal_iff_lastWord.mp hv
      obtain ⟨e, w, hl, he⟩ := h id d hd (by rw [hdv]; rfl)
      have hw := terminal_of_last hl he
      obtain rfl : v = w := Option.some.inj (hv.symm.trans hw)
      exact ⟨e, hl, he⟩

def cancelled : List RunEvent :=
  [{ payload := .runCreated "ci" "r1", at_ := 0 }, { payload := .runCancelled, at_ := 1 }]

theorem cancelled_run_unfinished :
    runIsFinished (applyEvents {} cancelled) = false ∧ (fold cancelled).completed = true := ⟨rfl, rfl⟩

end Dhole.RunView
