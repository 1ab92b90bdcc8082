import Dhole.Dynamic

/-! The fragment one iteration of a loop splices in: the body under ids of its own, and
the controller of the next iteration after the body's exit steps. A parsed body is a graph,
which is all the fragment needs for its edges to end inside it. -/

namespace Dhole.Loop

open Dag List

/-- A loop step's configuration as it is parsed: the body has been built and its ports
checked. -/
structure Spec where
  loop : String
  iteration : ℕ
  max : ℕ
  exitCondition : String
  body : Pipeline
  bodyText : String
  effectClass : EffectClass
  built : ∃ g, build (some body) = .ok g
  checked : typeCheck body = []

namespace Spec

variable (s : Spec)

def bodyStepID (id : String) : String := s.loop ++ "." ++ formatUint s.iteration ++ "." ++ id

def controllerID (loop : String) (n : ℕ) : String :=
  if n ≤ 1 then loop else loop ++ "." ++ formatUint n

/-- The steps of the body that feed no other. -/
def exitSteps : List Step :=
  s.body.steps.filter fun step => !s.body.edges.any fun e => e.fromStep = step.id

def controllerConfig : Std.ExtTreeMap String String :=
  (((((∅ : Std.ExtTreeMap String String).insert "body" s.bodyText).insert "max_iterations"
    (formatUint s.max)).insert "exit_condition" s.exitCondition).insert "loop" s.loop).insert
    "iteration" (formatUint (s.iteration + 1))

/-- The next controller takes one input from each exit step, named after it. -/
def controller (ports : List (Step × Port)) : Step where
  id := controllerID s.loop (s.iteration + 1)
  name := s.loop ++ " iteration " ++ formatUint (s.iteration + 1)
  pluginRef := "builtin:loop"
  effectClass := s.effectClass
  config := s.controllerConfig
  inputs := ports.map fun (exit, port) => { port with name := exit.id }

/-- Each exit step with its first output; none where an exit step declares no output. -/
def exitPorts : Option (List (Step × Port)) :=
  s.exitSteps.mapM fun exit => exit.outputs.head?.map fun port => (exit, port)

def bodyEdge (e : Edge) : Edge :=
  { e with fromStep := s.bodyStepID e.fromStep, toStep := s.bodyStepID e.toStep }

def exitEdge (exit : Step) (port : Port) : Edge where
  fromStep := s.bodyStepID exit.id
  fromPort := port.name
  toStep := controllerID s.loop (s.iteration + 1)
  toPort := exit.id

def fragment : Option Pipeline :=
  if s.iteration > s.max then none
  else
    s.exitPorts.map fun ports =>
      { id := s.loop ++ "." ++ formatUint s.iteration
        tenant := s.body.tenant
        steps := (s.body.steps.map fun step => { step with id := s.bodyStepID step.id }) ++
          [s.controller ports]
        edges := s.body.edges.map s.bodyEdge ++ ports.map fun (exit, port) => s.exitEdge exit port }

theorem fragment_edges_inside {f : Pipeline} (h : s.fragment = some f) :
    ∀ e ∈ f.edges, e.toStep ∈ f.steps.map Step.id := by
  unfold fragment at h
  split at h
  · cases h
  obtain ⟨ports, -, rfl⟩ := Option.map_eq_some_iff.mp h
  obtain ⟨g, hg⟩ := s.built
  obtain ⟨-, hen, -⟩ := build_ok hg
  intro e he
  simp only [map_append, map_map, map_cons, mem_append]
  rcases mem_append.mp he with he | he
  · obtain ⟨d, hd, rfl⟩ := mem_map.mp he
    obtain ⟨step, hs, hid⟩ := mem_map.mp (hen d hd).2
    exact .inl (mem_map.mpr ⟨step, hs, by simp [bodyEdge, hid]⟩)
  · obtain ⟨⟨exit, port⟩, -, rfl⟩ := mem_map.mp he
    exact .inr (by simp [exitEdge, controller])

end Spec

end Dhole.Loop
