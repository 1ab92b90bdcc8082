import Dhole.Dag

/-! Splicing a fragment into a pipeline at the step that generated it. The fragment's
steps and edges are appended as they are, each of its entry steps is connected to the
generator by port name, and the result has to be a graph and to pass the port check. Only
the fragment's step ids are compared with the pipeline: where its edges end is not. -/

namespace Dhole.Dynamic

open Dag List

inductive SpliceErr where
  | nilParent
  | noSuchStep (pipelineID at_ : String)
  | emptyFragment (at_ : String)
  | emptyStepID (at_ : String)
  | duplicateStepID (at_ id pipelineID : String)
  | notADAG (at_ : String) (cause : Text)
  | rejection (at_ : String) (diagnostics : List Diagnostic)

def findAnchor (p : Pipeline) (id : String) : Option Step :=
  if id = "" then none else findStep p id

def hasIncoming (fragment : Pipeline) (id : String) : Bool :=
  fragment.edges.any fun e => e.toStep = id

def checkIDs (at_ pipelineID : String) : List Step → List String → Except SpliceErr (List String) :=
  collectIDs (.emptyStepID at_) fun id => .duplicateStepID at_ id pipelineID

/-- An entry step's port, connected to the generator's output of the same name. -/
def graftPort (anchor : Step) (at_ : String) (s : Step) (input : Port) : Edge ⊕ Diagnostic :=
  if (findPort anchor.outputs input.name).isNone then
    .inr ⟨s.id, input.name, ["fragment step ", .quoted s.id, " consumes port ",
      .quoted input.name, ", which generator ", .quoted at_, " does not produce"]⟩
  else .inl { fromStep := at_, fromPort := input.name, toStep := s.id, toPort := input.name }

def graft (anchor : Step) (at_ : String) (fragment : Pipeline) : List (Edge ⊕ Diagnostic) :=
  (fragment.steps.filter fun s => !hasIncoming fragment s.id).flatMap fun s =>
    s.inputs.map (graftPort anchor at_ s)

def graftEdges (anchor : Step) (at_ : String) (fragment : Pipeline) : List Edge :=
  (graft anchor at_ fragment).filterMap Sum.getLeft?

def spliced (parent : Pipeline) (anchor : Step) (at_ : String) (fragment : Pipeline) : Pipeline :=
  { parent with
    steps := parent.steps ++ fragment.steps
    edges := parent.edges ++ fragment.edges ++ graftEdges anchor at_ fragment }

def splice (parent : Option Pipeline) (at_ : String) (fragment : Option Pipeline) :
    Except SpliceErr Pipeline :=
  match parent with
  | none => .error .nilParent
  | some parent =>
    match findAnchor parent at_ with
    | none => .error (.noSuchStep parent.id at_)
    | some anchor =>
      match fragment with
      | none => .error (.emptyFragment at_)
      | some fragment =>
        if fragment.steps = [] then .error (.emptyFragment at_)
        else
          match checkIDs at_ parent.id fragment.steps (parent.steps.map Step.id) with
          | .error e => .error e
          | .ok _ =>
            let result := spliced parent anchor at_ fragment
            match build (some result) with
            | .error cause => .error (.notADAG at_ cause)
            | .ok _ =>
              let diagnostics := (graft anchor at_ fragment).filterMap Sum.getRight? ++
                typeCheck result
              if diagnostics ≠ [] then .error (.rejection at_ diagnostics) else .ok result

variable {parent fragment fr result : Pipeline} {at_ : String}

theorem mem_graftEdges {anchor : Step} {e : Edge} (h : e ∈ graftEdges anchor at_ fr) :
    e.fromStep = at_ ∧ e.toStep ∈ fr.steps.map Step.id := by
  obtain ⟨d, hd, he⟩ := mem_filterMap.mp h
  obtain ⟨s, hs, hd⟩ := mem_flatMap.mp hd
  obtain ⟨input, -, rfl⟩ := mem_map.mp hd
  unfold graftPort at he
  split at he
  · cases he
  · cases he
    exact ⟨rfl, mem_map_of_mem (mem_filter.mp hs).1⟩

/-- What an accepted splice is: the pipeline grown by the fragment, with edges from the
generator into the fragment, and its step ids distinct. -/
theorem splice_ok (h : splice (some parent) at_ (some fr) = .ok result) :
    ∃ anchor, result = spliced parent anchor at_ fr ∧
      ((parent.steps ++ fr.steps).map Step.id).Nodup := by
  simp only [splice] at h
  split at h
  · cases h
  rename_i anchor _
  split at h
  · cases h
  split at h
  · cases h
  split at h
  · cases h
  rename_i g hg
  split at h
  · cases h
  cases h
  exact ⟨anchor, rfl, (build_ok hg).1.1⟩

theorem splice_steps (h : splice (some parent) at_ (some fr) = .ok result) :
    result.steps = parent.steps ++ fr.steps := by
  obtain ⟨an, rfl, -⟩ := splice_ok h
  rfl

theorem mem_of_findStep {p : Pipeline} {id : String} {s : Step} (h : findStep p id = some s) :
    s ∈ p.steps ∧ s.id = id :=
  ⟨mem_of_find?_eq_some h, by simpa using find?_some h⟩

theorem findStep_of_mem {p : Pipeline} {step : Step} (hn : (p.steps.map Step.id).Nodup)
    (hs : step ∈ p.steps) : findStep p step.id = some step := by
  rw [findStep]
  generalize p.steps = steps at hn hs
  induction steps with
  | nil => cases hs
  | cons s steps ih =>
    rw [map_cons, nodup_cons] at hn
    rcases mem_cons.mp hs with rfl | hs
    · simp
    · have hne : s.id ≠ step.id := fun heq => hn.1 (heq ▸ mem_map_of_mem hs)
      rw [find?_cons_of_neg (by simpa using hne)]
      exact ih hn.2 hs

theorem findStep_splice (h : splice (some parent) at_ (some fr) = .ok result) {id : String}
    {s : Step} (hs : findStep parent id = some s) : findStep result id = some s := by
  rw [findStep, splice_steps h]
  rw [findStep] at hs
  simp [hs]

theorem edges_into_splice (h : splice (some parent) at_ (some fr) = .ok result)
    (hi : ∀ e ∈ fr.edges, e.toStep ∈ fr.steps.map Step.id) {e : Edge}
    (he : e ∈ result.edges) (hto : e.toStep ∈ parent.steps.map Step.id) : e ∈ parent.edges := by
  obtain ⟨an, rfl, hn⟩ := splice_ok h
  rw [map_append, nodup_append] at hn
  have ho : e.toStep ∉ fr.steps.map Step.id := fun hin => hn.2.2 _ hto _ hin rfl
  rcases mem_append.mp he with he | he
  · rcases mem_append.mp he with he | he
    · exact he
    · exact absurd (hi e he) ho
  · exact absurd (mem_graftEdges he).2 ho

end Dhole.Dynamic
