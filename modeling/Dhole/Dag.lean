import Dhole.Operations

/-! The dependency graph of a pipeline and the check of its ports. `build` refuses a
pipeline whose step ids are empty or repeated, whose edges name unknown steps, or whose
dependencies go round; `typeCheck` lists every edge and file binding that does not fit
the ports it names. -/

namespace Dhole.Dag

open List

/-! ### The graph -/

structure Graph where
  stepIDs : List String
  dependents : String → List String
  indegree : String → ℕ

def sortStrings (l : List String) : List String := l.insertionSort (· ≤ ·)

/-- The known ids and, after them, those of the steps, none of them empty and none twice. -/
def collectIDs {ε : Type} (empty : ε) (duplicate : String → ε) :
    List Step → List String → Except ε (List String)
  | [], known => .ok known
  | s :: steps, known =>
    if s.id = "" then .error empty
    else if s.id ∈ known then .error (duplicate s.id)
    else collectIDs empty duplicate steps (known ++ [s.id])

def collectSteps (pipelineID : String) : List Step → List String → Except Text (List String) :=
  collectIDs ["dag: pipeline ", .quoted pipelineID, " has a step with an empty id"] fun id =>
    ["dag: pipeline ", .quoted pipelineID, " defines step ", .quoted id, " more than once"]

def unknownStep (e : Edge) (id : String) : Text :=
  ["dag: edge ", e.fromStep, ".", e.fromPort, " -> ", e.toStep, ".", e.toPort,
    " names unknown step ", .quoted id]

def collectEdges (known : List String) :
    List Edge → List (String × String) → Except Text (List (String × String))
  | [], seen => .ok seen
  | e :: edges, seen =>
    if e.fromStep ∉ known then .error (unknownStep e e.fromStep)
    else if e.toStep ∉ known then .error (unknownStep e e.toStep)
    else if (e.fromStep, e.toStep) ∈ seen then collectEdges known edges seen
    else collectEdges known edges (seen ++ [(e.fromStep, e.toStep)])

def Graph.ofPairs (known : List String) (pairs : List (String × String)) : Graph where
  stepIDs := sortStrings known
  dependents id := sortStrings ((pairs.filter fun pair => pair.1 = id).map Prod.snd)
  indegree id := (pairs.filter fun pair => pair.2 = id).length

inductive Colour where
  | white
  | grey
  | black
deriving DecidableEq

structure Search where
  colour : String → Colour := fun _ => .white
  path : List String := []

/-- The depth-first visit of a step, which fails with the first cycle it closes. A visit
turns a white step grey before it goes on, so its depth is at most the number of steps. -/
def Graph.visit (g : Graph) : ℕ → String → Search → Except (List String) Search
  | 0, _, s => .ok s
  | fuel + 1, id, s => do
    let entered : Search := ⟨Function.update s.colour id .grey, s.path ++ [id]⟩
    let left ← (g.dependents id).foldlM (fun (s : Search) d =>
      match s.colour d with
      | .grey => .error (s.path.dropWhile (fun p => p ≠ d) ++ [d])
      | .white => g.visit fuel d s
      | .black => .ok s) entered
    .ok ⟨Function.update left.colour id .black, left.path.dropLast⟩

def Graph.findCycle (g : Graph) : Option (List String) :=
  let search : Except (List String) Search := g.stepIDs.foldlM (fun (s : Search) id =>
    if s.colour id = .white then g.visit (g.stepIDs.length + 1) id s else .ok s) {}
  match search with
  | .ok _ => none
  | .error path => some path

def build : Option Pipeline → Except Text Graph
  | none => .error ["dag: pipeline is nil"]
  | some p =>
    match collectSteps p.id p.steps [] with
    | .error e => .error e
    | .ok known =>
      match collectEdges known p.edges [] with
      | .error e => .error e
      | .ok pairs =>
        let g := Graph.ofPairs known pairs
        match g.findCycle with
        | some path =>
          .error ["dag: pipeline ", .quoted p.id, " has a cycle: ", " -> ".intercalate path]
        | none => .ok g

variable {ε : Type} {empty : ε} {duplicate : String → ε} {known : List String}

theorem collectIDs_ok {steps : List Step} {ids : List String} (hn : known.Nodup)
    (h : collectIDs empty duplicate steps known = .ok ids) :
    ids = known ++ steps.map Step.id ∧ ids.Nodup ∧ ∀ s ∈ steps, s.id ≠ "" := by
  induction steps generalizing known with
  | nil =>
    cases h
    exact ⟨by simp, hn, by simp⟩
  | cons s steps ih =>
    simp only [collectIDs] at h
    split at h
    · cases h
    rename_i hid
    split at h
    · cases h
    rename_i hne
    have hn' : (known ++ [s.id]).Nodup := by
      rw [nodup_append]
      refine ⟨hn, nodup_singleton _, fun a ha b hb => ?_⟩
      obtain rfl : b = s.id := by simpa using hb
      rintro rfl
      exact hne ha
    obtain ⟨rfl, hi, hno⟩ := ih hn' h
    exact ⟨by simp, hi, forall_mem_cons.mpr ⟨hid, hno⟩⟩

theorem collectEdges_ok {edges : List Edge} {seen pairs : List (String × String)}
    (h : collectEdges known edges seen = .ok pairs) : (∀ a b, (a, b) ∈ pairs ↔
      (a, b) ∈ seen ∨ ∃ e ∈ edges, e.fromStep = a ∧ e.toStep = b) ∧
    ∀ e ∈ edges, e.fromStep ∈ known ∧ e.toStep ∈ known := by
  induction edges generalizing seen with
  | nil =>
    cases h
    simp
  | cons e edges ih =>
    simp only [collectEdges] at h
    split at h
    · cases h
    rename_i hf
    split at h
    · cases h
    rename_i hto
    have hen : e.fromStep ∈ known ∧ e.toStep ∈ known := ⟨not_not.mp hf, not_not.mp hto⟩
    split at h
    · rename_i hse
      obtain ⟨hm, hk⟩ := ih h
      refine ⟨fun a b => ?_, forall_mem_cons.mpr ⟨hen, hk⟩⟩
      rw [hm, exists_mem_cons_iff]
      constructor
      · rintro (hs | he)
        · exact .inl hs
        · exact .inr (.inr he)
      · rintro (hs | ⟨rfl, rfl⟩ | he)
        · exact .inl hs
        · exact .inl hse
        · exact .inr he
    · obtain ⟨hm, hk⟩ := ih h
      refine ⟨fun a b => ?_, forall_mem_cons.mpr ⟨hen, hk⟩⟩
      rw [hm, exists_mem_cons_iff, mem_append, mem_singleton, Prod.mk.injEq, or_assoc]
      exact or_congr_right (or_congr_left ⟨fun ⟨ha, hb⟩ => ⟨ha.symm, hb.symm⟩,
        fun ⟨ha, hb⟩ => ⟨ha.symm, hb.symm⟩⟩)

theorem mem_sortStrings {l : List String} {s : String} : s ∈ sortStrings l ↔ s ∈ l :=
  mem_insertionSort _

/-- An accepted pipeline has distinct step ids that are not empty, its edges connect steps
it has, and the graph holds exactly the pairs of steps that an edge connects. -/
theorem build_ok {p : Pipeline} {g : Graph} (h : build (some p) = .ok g) :
    ((p.steps.map Step.id).Nodup ∧ ∀ s ∈ p.steps, s.id ≠ "") ∧
    (∀ e ∈ p.edges, e.fromStep ∈ p.steps.map Step.id ∧ e.toStep ∈ p.steps.map Step.id) ∧
    ∀ a b, b ∈ g.dependents a ↔ ∃ e ∈ p.edges, e.fromStep = a ∧ e.toStep = b := by
  simp only [build] at h
  split at h
  · cases h
  rename_i known hk
  split at h
  · cases h
  rename_i pa hp
  split at h
  · cases h
  cases h
  obtain ⟨rfl, hn, hi⟩ := collectIDs_ok nodup_nil hk
  obtain ⟨hm, he⟩ := collectEdges_ok hp
  refine ⟨⟨hn, hi⟩, he, fun a b => ?_⟩
  simp only [Graph.ofPairs, mem_sortStrings, mem_map, mem_filter, decide_eq_true_eq,
    Prod.exists, exists_eq_right, hm, not_mem_nil, false_or]

/-! ### The port check -/

structure Diagnostic where
  stepID : String
  portName : String
  message : Text
deriving DecidableEq

def untyped : String := "an untyped port"

def describe (t : Option PortType) : String :=
  match t.bind PortType.kind with
  | some (.blob _) => "blob"
  | some (.structured _) => "structured"
  | none => untyped

/-- Why a port cannot be connected to another; nothing where it can. -/
def incompatible (source target : Option PortType) : Text :=
  if describe source ≠ describe target then
    [.lit (describe source), " is not ", .lit (describe target)]
  else
    match source.bind PortType.kind, target.bind PortType.kind with
    | some (.structured s), some (.structured t) =>
      if s.schemaId ≠ t.schemaId then
        ["schema ", .quoted s.schemaId, " is not schema ", .quoted t.schemaId]
      else []
    | _, _ => if describe source = untyped then ["both ports are untyped"] else []

/-- The step of an id in a map built from all the steps: the last one wins. -/
def stepNamed (p : Pipeline) (id : String) : Option Step :=
  p.steps.reverse.find? fun s => s.id = id

def checkEdge (p : Pipeline) (e : Edge) : List Diagnostic :=
  match stepNamed p e.fromStep with
  | none => [⟨e.fromStep, e.fromPort, ["edge source step ", .quoted e.fromStep,
      " is not defined in pipeline ", .quoted p.id]⟩]
  | some source =>
    match stepNamed p e.toStep with
    | none => [⟨e.toStep, e.toPort, ["edge target step ", .quoted e.toStep,
        " is not defined in pipeline ", .quoted p.id]⟩]
    | some target =>
      match findPort source.outputs e.fromPort with
      | none => [⟨source.id, e.fromPort, ["step ", .quoted source.id, " has no output port ",
          source.id, ".", e.fromPort]⟩]
      | some output =>
        match findPort target.inputs e.toPort with
        | none => [⟨target.id, e.toPort, ["step ", .quoted target.id, " has no input port ",
            target.id, ".", e.toPort]⟩]
        | some input =>
          let why := incompatible output.type input.type
          if why ≠ [] then
            [⟨target.id, input.name, .lit "cannot connect " :: .lit source.id :: .lit "." ::
              .lit output.name :: .lit " to " :: .lit target.id :: .lit "." :: .lit input.name ::
              .lit ": " :: why⟩]
          else []

def checkFileBinding (p : Pipeline) (step : Step) (input : FileInput) : List Diagnostic :=
  if input.path ∉ p.files.map File.path then
    [⟨step.id, input.port, ["step ", .quoted step.id, " reads file ", .quoted input.path,
      " on port ", step.id, ".", input.port, ", and pipeline ", .quoted p.id,
      " carries no such file"]⟩]
  else if (findPort step.inputs input.port).isNone then
    [⟨step.id, input.port, ["step ", .quoted step.id, " binds file ", .quoted input.path,
      " to input port ", step.id, ".", input.port, ", which it does not declare"]⟩]
  else []

def typeCheck (p : Pipeline) : List Diagnostic :=
  p.edges.flatMap (checkEdge p) ++
    p.steps.flatMap fun step => step.fileInputs.flatMap (checkFileBinding p step)

end Dhole.Dag
