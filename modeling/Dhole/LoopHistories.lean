import Dhole.Generators
import Dhole.Precedence
import Dhole.Unrolling

/-! Loops in the histories of the planes. What a run records is the iteration that the
configuration of the recording step reads as, and the fragments of a graph that can be read share
no step, so a loop is recorded no more often than its maximum. Each iteration hands its
configuration on to the controller of the next, whose predecessors are the exit steps of its
body; the steps of the next iteration come into the graph behind that controller, and are
ordered by it alone. -/

namespace Dhole.Loop

open Interleave Plane Scheduler Builtins Generators Dag Dhole.System Dhole.Dynamic Spec List
open RunState (ofLog)
open Lexical (trimSpace)

/-- The planes read the configuration of a loop step as it is. -/
def ReadsSpecs (lang : Language) (tr : History) : Prop :=
  ∀ i step answer, asked (.loopSpec step) answer ∈ own i tr →
    answer = (parseSpec lang step).toOption

/-- The places of the log that record an iteration of a loop of this name and maximum, under a step
of the run's graph that reads as it. -/
def realisedAt (lang : Language) (defs : Definitions) (log : Log) (tenantID loop : String)
    (max : ℕ) : Set ℕ :=
  {i | ∃ e step t f, log[i]? = some e ∧ StepOf defs log tenantID e.stepID step ∧
    parseSpec lang step = .ok t ∧ t.fragment = some f ∧ e.payload = .fragmentRealised f ∧
    t.loop = loop ∧ t.max = max}

variable {lang : Language} {D : Definitions} {As : ℕ → Actor} {tr : History}
  {tid rid loop : String} {max : ℕ} {s : Spec} {step : Step} {log : Log}

theorem recorded_of_fragment (htr : PlaneTrace D As tr) (hre : ReadsSpecs lang tr)
    {e : Dhole.Event} (he : e ∈ logOf tr tid rid) {f : Pipeline}
    (hpa : e.payload = .fragmentRealised f) :
    ∃ step t, StepOf D (logOf tr tid rid) tid e.stepID step ∧
      parseSpec lang step = .ok t ∧ t.fragment = some f := by
  obtain ⟨n, i, t, res, events, -, -, hme, hw⟩ := appended_at htr he
  obtain ⟨pl, job, spec, hj, hs, hf, hk⟩ := hw.realised hme hpa
  obtain ⟨m, -, hm⟩ := get_of_mem_own_take hs
  have hr : some spec = (parseSpec lang job.step).toOption :=
    hre i job.step _ (mem_own_of_get hm)
  have hpr : parseSpec lang job.step = .ok spec := by
    cases hp : parseSpec lang job.step with
    | error e => simp [hp, Except.toOption] at hr
    | ok t => simpa [hp, Except.toOption, eq_comm] using hr
  have hst := (wasReady_of_gotJob (htr.take n) hj).2.stepOf.mono (prefix_logOf_take htr n)
  obtain ⟨ht, hru, hid⟩ : job.tenantID = tid ∧ job.runID = rid ∧
      job.step.id = e.stepID := by simpa [BuiltinJob.key] using hk
  refine ⟨job.step, spec, ?_, hpr, hf⟩
  simpa [BuiltinJob.key, ht, hru, hid] using hst

theorem steps_spliceRealised {p q : Pipeline} {fs : List Realised} (h : spliceRealised p fs = some q) :
    q.steps = p.steps ++ fs.flatMap (·.fragment.steps) ∧ (fs ≠ [] → (q.steps.map Step.id).Nodup) := by
  induction fs using reverseRecOn generalizing q with
  | nil =>
    cases h
    simp
  | append_singleton fs r ih =>
    rw [spliceRealised_append] at h
    obtain ⟨mid, hm, h⟩ := Option.bind_eq_some_iff.mp h
    obtain ⟨next, hs, h⟩ := spliceRealised_cons h
    cases h
    obtain ⟨-, -, hn⟩ := splice_ok hs
    rw [splice_steps hs, (ih hm).1]
    exact ⟨by simp, fun _ => (ih hm).1 ▸ hn⟩

theorem realisedFragment?_eq_some {e : Dhole.Event} {f : Pipeline} :
    realisedFragment? e = some f ↔ e.payload = .fragmentRealised f := by
  unfold realisedFragment?
  split <;> simp_all

theorem fragments_apart {q : Pipeline} (h : graphOf D tid (ofLog log) = some q) :
    log.Pairwise fun e e' => ∀ f f', e.payload = .fragmentRealised f →
      e'.payload = .fragmentRealised f' → (f.steps.map Step.id).Disjoint (f'.steps.map Step.id) := by
  obtain ⟨base, -, h⟩ := Option.bind_eq_some_iff.mp h
  obtain ⟨hs, hn⟩ := steps_spliceRealised h
  have hp : (ofLog log).fragments.Pairwise fun r r' =>
      (r.fragment.steps.map Step.id).Disjoint (r'.fragment.steps.map Step.id) := by
    by_cases hf : (ofLog log).fragments = []
    · simp [hf]
    · have := hn hf
      rw [hs, map_append, map_flatMap] at this
      exact (nodup_flatMap.mp (nodup_append.mp this).2.1).2
  rw [fragments_ofLog, pairwise_filterMap] at hp
  refine hp.imp fun {e e'} he f f' hf hf' => he ⟨e.stepID, f⟩ ?_ ⟨e'.stepID, f'⟩ ?_
  all_goals simp [realised?, realisedFragment?_eq_some, *]

/-- As long as the graph can be read, a loop is realised no more often than its maximum. -/
theorem encard_realisedAt_le {q : Pipeline} (h : graphOf D tid (ofLog log) = some q) :
    (realisedAt lang D log tid loop max).encard ≤ max := by
  -- a place is known by the last step it adds, the controller of the next iteration
  let last (i : ℕ) : Option String :=
    (log[i]?.bind realisedFragment?).bind fun f => (f.steps.map Step.id).getLast?
  have hin : Set.MapsTo last (realisedAt lang D log tid loop max)
      ((fun n => some (controllerID loop (n + 1))) '' Set.Icc 1 max) := by
    rintro i ⟨e, step, t, f, he, -, hp, hf, hpa, rfl, rfl⟩
    obtain ⟨hle, ps, -, rfl⟩ := fragment_eq_some_iff.mp hf
    refine ⟨t.iteration, ⟨(parseSpec_ok hp).1.iteration_pos, hle⟩, ?_⟩
    simp [last, he, realisedFragment?, hpa, Spec.fragmentOf, Spec.controller]
  have hne : ∀ i j x, i < j → last i = some x → last j ≠ some x := by
    intro i j x hlt hi hj
    simp only [last, Option.bind_eq_some_iff, List.getElem?_eq_some_iff] at hi hj
    obtain ⟨f, ⟨e, ⟨hli, rfl⟩, hf⟩, hx⟩ := hi
    obtain ⟨f', ⟨e', ⟨hlj, rfl⟩, hf'⟩, hx'⟩ := hj
    exact pairwise_iff_getElem.mp (fragments_apart h) i j hli hlj hlt f f'
      (realisedFragment?_eq_some.mp hf) (realisedFragment?_eq_some.mp hf')
      (mem_of_getLast? hx) (mem_of_getLast? hx')
  have hinj : Set.InjOn last (realisedAt lang D log tid loop max) := by
    intro i hi j hj heq
    obtain ⟨n, -, hn⟩ := hin hi
    by_contra hij
    rcases lt_or_gt_of_ne hij with hlt | hlt
    · exact hne i j _ hlt hn.symm (heq ▸ hn.symm)
    · exact hne j i _ hlt (heq ▸ hn.symm) hn.symm
  refine (Set.encard_le_encard_of_injOn hin hinj).trans ((Set.encard_image_le _ _).trans ?_)
  rw [← Finset.coe_Icc, Set.encard_coe_eq_coe_finsetCard, Nat.card_Icc, Nat.add_sub_cancel]

theorem nextLoop_eq_iff (hs : 1 ≤ s.iteration) :
    s.nextLoop = s.loop ↔ trimSpace s.loop = s.loop ∧ s.loop ≠ "" := by
  unfold Spec.nextLoop
  split
  · have hne : controllerID s.loop (s.iteration + 1) ≠ s.loop := fun h => by
      rw [controllerID_eq hs] at h
      have := congrArg (fun t => t.toList.length) h
      simp at this
    grind
  · grind

/-- What an accepted iteration adds is new, and each exit step of its body leads to the
controller of the next. -/
theorem splice_ordered {q r : Pipeline} {id : String} (h : splice (some q) id s.fragment = .ok r) :
    (∀ x ∈ s.stepIDs, x ∉ q.steps.map Step.id) ∧ ∀ exit ∈ s.exitSteps,
        Feeds r (s.bodyStepID exit.id) (controllerID s.loop (s.iteration + 1)) := by
  obtain ⟨ps, hp, hf⟩ := fragment_of_splice h
  rw [hf] at h
  obtain ⟨an, rfl, hn⟩ := splice_ok h
  constructor
  · intro x hx hm
    rw [map_append, ids_fragmentOf] at hn
    exact (nodup_append.mp hn).2.2 _ hm _ hx rfl
  · intro exit he
    rw [← (mapM_head_eq hp).1] at he
    obtain ⟨y, hy, rfl⟩ := mem_map.mp he
    refine ⟨s.exitEdge y.1 y.2, ?_, rfl, rfl⟩
    have hm : s.exitEdge y.1 y.2 ∈ (s.fragmentOf ps).edges :=
      mem_append_right _ (mem_map_of_mem hy)
    exact mem_append_left _ (mem_append_right _ hm)

/-- In every history a fragment is recorded as the iteration its step reads as, and a loop is
recorded no more often than its maximum while the run's graph can be read. The next controller
reads as the same loop at the next iteration exactly if no white space surrounds the loop's name;
iterations share no step id, with each other or with the graph they come into; and every exit step
of an iteration leads to the controller of the next. -/
theorem loop_bounded_ordered (lang : Language) (defs : Definitions) (actors : ℕ → Actor)
    (tr : History) (hruns : Runs defs actors tr) (hreads : ReadsSpecs lang tr) (step : Step)
    (s : Spec) (hparse : parseSpec lang step = .ok s) :
    (∀ tenantID runID, (∀ e ∈ logOf tr tenantID runID, ∀ f, e.payload = .fragmentRealised f →
        ∃ step t, StepOf defs (logOf tr tenantID runID) tenantID e.stepID step ∧
          parseSpec lang step = .ok t ∧ t.fragment = some f) ∧
      ∀ q, graphOf defs tenantID (ofLog (logOf tr tenantID runID)) = some q →
        (realisedAt lang defs (logOf tr tenantID runID) tenantID s.loop s.max).encard ≤ s.max) ∧
    (∀ ports, s.iteration + 1 < 2 ^ 63 →
      (parseSpec lang (s.controller ports) = .ok { s with iteration := s.iteration + 1 } ↔
        trimSpace s.loop = s.loop ∧ s.loop ≠ "")) ∧
    (∀ i j, i ≠ j → ∀ id ∈ (s.after i).stepIDs, id ∉ (s.after j).stepIDs) ∧
    ∀ q id r, splice (some q) id s.fragment = .ok r → (∀ x ∈ s.stepIDs, x ∉ q.steps.map Step.id) ∧
        ∀ exit ∈ s.exitSteps,
          Feeds r (s.bodyStepID exit.id) (controllerID s.loop (s.iteration + 1)) := by
  obtain ⟨hr, -⟩ := parseSpec_ok hparse
  refine ⟨fun tenantID runID => ⟨fun e he f hp => ?_, fun q => encard_realisedAt_le⟩,
    fun ports hlt => ?_, fun i j hij id hi hj => ?_, fun q id r h => splice_ordered h⟩
  · exact recorded_of_fragment hruns.planeTrace hreads he hp
  · rw [parseSpec_controller hr hlt ports, ← nextLoop_eq_iff hr.iteration_pos, Except.ok.injEq]
    exact ⟨fun h => congrArg Spec.loop h, fun h => by rw [Spec.next, h]⟩
  · rcases lt_or_gt_of_ne hij with hlt | hlt
    · exact stepIDs_disjoint hr.iteration_pos hlt hi hj
    · exact stepIDs_disjoint hr.iteration_pos hlt hj hi

/-! ### A loop in a run -/

theorem not_transGen_of_into {p : Pipeline} {a b : String} (h : into p b = []) :
    ¬ Relation.TransGen (Feeds p) a b := by
  intro hp
  obtain ⟨c, -, e, he, -, hto⟩ := Relation.TransGen.tail'_iff.mp hp
  exact filter_eq_nil_iff.mp h e he (by simpa using hto)

/-- The first step of the second iteration waits for nothing. -/
theorem refine_second_unordered : parseSpec (oneText (oneStep [])) refine = .ok (refineSpec []) ∧
      (refineSpec []).exitSteps.map (fun exit => (refineSpec []).bodyStepID exit.id) =
        ["refine.1.build"] ∧
      ∃ q id, unroll (oneText (oneStep [])) release "refine" 2 = some (q, id) ∧
        "refine.2.build" ∈ q.steps.map Step.id ∧
        ¬ Relation.TransGen (Feeds q) "refine.1.build" "refine.2.build" := by
  have hs : (unroll (oneText (oneStep [])) release "refine" 2).map (fun x =>
      (x.1.steps.map Step.id, into x.1 "refine.2.build")) =
      some (["refine", "refine.1.build", "refine.2", "refine.2.build", "refine.3"], []) := by
    decide +kernel
  obtain ⟨⟨q, id⟩, hq, hid⟩ := Option.map_eq_some_iff.mp hs
  obtain ⟨hid, hi⟩ := Prod.mk.inj hid
  exact ⟨refine_parsed [], rfl, q, id, hq, by simp [hid], not_transGen_of_into hi⟩

def releaseDefs : Definitions := fun _ _ _ => some release

def startAndWork : ℕ → Actor
  | 0 => { cfg := { ttl := 30, builtins := true }, fuel := 1
           task := .startRun "acme" "run" "release" "r1" }
  | _ => doing .job

def iterating : Surroundings where
  body := .iterate

def readingSpecs (lang : Language) (n : ℕ) (s : planeWorld.State) :
    (op : planeSig.Op) → planeSig.Res op
  | .inr (.ask (.loopSpec step)) => (parseSpec lang step).toOption
  | op => iterating.resolve n s op

theorem readingSpecs_answers (lang : Language) (n : ℕ) (s : planeWorld.State)
    (op : planeSig.Op) : planeWorld.Answers s ⟨op, readingSpecs lang n s op⟩ := by
  rcases op with op | op
  · exact iterating.resolve_answers n s (.inl op)
  · cases op with
    | ask q => trivial
    | _ => exact iterating.resolve_answers n s (.inr _)

def oneIteration : History :=
  exec planeWorld (readingSpecs (oneText (oneStep [])))
    (fun i => (startAndWork i).prog releaseDefs)
    (replicate 6 0 ++ replicate 17 1)

theorem oneIteration_reads : ReadsSpecs (oneText (oneStep [])) oneIteration := by
  intro i step answer ha
  have hal : ∀ a ∈ oneIteration, ∀ step answer, a.event = asked (.loopSpec step) answer →
      answer = (parseSpec (oneText (oneStep [])) step).toOption := by
    refine exec_events planeWorld (readingSpecs _) (P := fun e => ∀ step answer,
      e = asked (.loopSpec step) answer →
        answer = (parseSpec (oneText (oneStep [])) step).toOption) ?_ _ _
    intro n s op step answer h
    cases h
    rfl
  exact hal _ (mem_of_mem_own ha) step answer rfl

theorem oneIteration_bounded : (logOf oneIteration "acme" "run").filterMap (fun e =>
        (realisedFragment? e).map fun f => (e.stepID, f.steps.map Step.id)) =
        [("refine", ["refine.1.build", "refine.2"])] ∧
      (realisedAt (oneText (oneStep [])) releaseDefs (logOf oneIteration "acme" "run") "acme"
        "refine" 2).encard ≤ 2 := by
  have hg : (graphOf releaseDefs "acme" (ofLog (logOf oneIteration "acme" "run"))).isSome := by
    decide +kernel
  obtain ⟨q, hq⟩ := Option.isSome_iff_exists.mp hg
  refine ⟨by decide +kernel, ?_⟩
  exact ((loop_bounded_ordered (oneText (oneStep [])) releaseDefs startAndWork oneIteration
    (exec_reach planeWorld _ (readingSpecs_answers _) _ _) oneIteration_reads refine
    (refineSpec []) (refine_parsed [])).1 "acme" "run").2 q hq

end Dhole.Loop
