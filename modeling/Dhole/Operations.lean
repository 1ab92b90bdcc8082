import Dhole.Canonical
import Dhole.FirstMatch

/-! The editing operations of a definition. `apply` computes, over a copy, the edited
pipeline, the diff an editor shows and the operation that is meant to undo the
edit. Each operation is refused for its own reasons, with a text that names what
was asked for. -/

namespace Dhole

open FirstMatch List

/-! ### Texts -/

/-- A piece of a formatted text: `%q` keeps the string it quotes. -/
inductive Piece where
  | lit (s : String)
  | quoted (s : String)
deriving DecidableEq

abbrev Text := List Piece

instance : Coe String Piece := ⟨.lit⟩

def digitValue (c : Char) : ℕ := c.toNat - '0'.toNat

def parseUint32 (s : String) : Option UInt32 :=
  if s = "" ∨ ¬ s.toList.all Char.isDigit then none
  else
    let n := Nat.ofDigits 10 (s.toList.reverse.map digitValue)
    if n < 2 ^ 32 then some (UInt32.ofNat n) else none

def formatUint (n : ℕ) : String :=
  if n = 0 then "0"
  else String.ofList ((Nat.digits 10 n).reverse.map fun d => Char.ofNat ('0'.toNat + d))

theorem digitValue_digit {d : ℕ} (h : d < 10) : digitValue (Char.ofNat ('0'.toNat + d)) = d := by
  interval_cases d <;> rfl

theorem isDigit_digit {d : ℕ} (h : d < 10) : (Char.ofNat ('0'.toNat + d)).isDigit = true := by
  interval_cases d <;> rfl

theorem formatUint_ne_nil (n : ℕ) : (formatUint n).toList ≠ [] := by
  unfold formatUint
  split
  · decide
  case isFalse hp => simpa using Nat.digits_ne_nil_iff_ne_zero.mpr hp

theorem isDigit_of_mem_formatUint {n : ℕ} {c : Char} (h : c ∈ (formatUint n).toList) :
    c.isDigit = true := by
  unfold formatUint at h
  split at h
  · obtain rfl : c = '0' := by simpa using h
    rfl
  · rw [String.toList_ofList, mem_map] at h
    obtain ⟨d, hd, rfl⟩ := h
    exact isDigit_digit (Nat.digits_lt_base (by simp) (mem_reverse.mp hd))

theorem ofDigits_formatUint (n : ℕ) :
    Nat.ofDigits 10 ((formatUint n).toList.reverse.map digitValue) = n := by
  unfold formatUint
  split
  case isTrue hz =>
    subst hz
    rfl
  case isFalse =>
    have hv : (Nat.digits 10 n).map (fun d => digitValue (Char.ofNat ('0'.toNat + d))) =
        Nat.digits 10 n := by
      conv_rhs => rw [← map_id (Nat.digits 10 n)]
      exact map_congr_left fun d hd => digitValue_digit (Nat.digits_lt_base (by simp) hd)
    simp only [String.toList_ofList, reverse_reverse, ← map_reverse, map_map,
      Function.comp_def, hv, Nat.ofDigits_digits]

theorem formatUint_injective : Function.Injective formatUint := fun m n h => by
  rw [← ofDigits_formatUint m, h, ofDigits_formatUint]

/-- A portable shell variable name. -/
def isEnvName (s : String) : Bool :=
  match s.toList with
  | [] => false
  | c :: cs => letter c && cs.all fun r => letter r || (decide ('0' ≤ r) && decide (r ≤ '9'))
where
  letter (r : Char) : Bool :=
    r = '_' || (decide ('A' ≤ r) && decide (r ≤ 'Z')) || (decide ('a' ≤ r) && decide (r ≤ 'z'))

def enumNames (names : List (Int32 × String)) : String :=
  ", ".intercalate ((names.map Prod.snd).mergeSort fun a b => decide (a ≤ b))

def withoutUnspecified (names : List (Int32 × String)) : List (Int32 × String) :=
  names.filter fun entry => entry.1 ≠ 0

/-! ### Operations and diffs -/

inductive Operation where
  | addStep (step : Option Step)
  | removeStep (stepId : String)
  | connect (edge : Option Edge)
  | removeEdge (edge : Option Edge)
  | setProperty (stepId property value : String)
  | setStepConfig (stepId key value : String) (remove : Bool)
  | setStepSecret (stepId env name : String) (remove : Bool) (index : Option UInt32)
  | setStepCapability (stepId : String) (capability : Capability) (remove : Bool)
      (index : Option UInt32)
  | setFile (path : String) (file : Option File)
  | rename (stepId name : String)
deriving DecidableEq

inductive ChangeKind where
  | added
  | removed
  | changed
deriving DecidableEq

structure Change where
  kind : ChangeKind
  stepId : String := ""
  edge : Option Edge := none
  summary : Text
  filePath : String := ""
deriving DecidableEq

structure Applied where
  next : Pipeline
  diff : List Change
  inverse : Operation
deriving DecidableEq

/-! ### Looking things up -/

def findStep (p : Pipeline) (id : String) : Option Step := p.steps.find? fun s => s.id = id

def findPort (ports : List Port) (name : String) : Option Port :=
  ports.find? fun port => port.name = name

/-- The four fields that are an edge's identity. -/
def sameEdge (a b : Edge) : Bool :=
  a.fromStep = b.fromStep && a.fromPort = b.fromPort && a.toStep = b.toStep && a.toPort = b.toPort

def findEdge (p : Pipeline) (want : Edge) : Option Edge := p.edges.find? fun e => sameEdge e want

def edgeText (e : Edge) : Text :=
  [.quoted e.fromStep, ".", e.fromPort, " -> ", .quoted e.toStep, ".", e.toPort]

def digestText (d : Option Digest) : String :=
  match d with
  | none => "nothing"
  | some d => if d.hex = "" then "nothing" else d.algo ++ ":" ++ d.hex

/-- Refuses an edge naming a step or a port that is not there. -/
def checkEdgeEndpoints (p : Pipeline) (op : String) (edge : Option Edge) : Except Text Edge :=
  match edge with
  | none => .error [op, ": an edge is required"]
  | some edge =>
    match findStep p edge.fromStep with
    | none => .error [op, ": no step ", .quoted edge.fromStep, " in this pipeline"]
    | some source =>
      match findPort source.outputs edge.fromPort with
      | none => .error [op, ": step ", .quoted edge.fromStep, " has no output port ",
          .quoted edge.fromPort]
      | some _ =>
        match findStep p edge.toStep with
        | none => .error [op, ": no step ", .quoted edge.toStep, " in this pipeline"]
        | some target =>
          match findPort target.inputs edge.toPort with
          | none => .error [op, ": step ", .quoted edge.toStep, " has no input port ",
              .quoted edge.toPort]
          | some _ => .ok edge

def updateStep (p : Pipeline) (id : String) (f : Step → Step) : Pipeline :=
  { p with steps := updateFirst (fun s => s.id = id) f p.steps }

/-! ### The operations -/

def applyAddStep (p : Pipeline) (step : Option Step) : Except Text Applied :=
  match step with
  | none => .error ["add_step: a step id is required"]
  | some step =>
    if step.id = "" then .error ["add_step: a step id is required"]
    else
      match findStep p step.id with
      | some _ => .error ["add_step: step ", .quoted step.id, " already exists"]
      | none => .ok
          { next := { p with steps := p.steps ++ [step] }
            diff := [{ kind := .added, stepId := step.id,
                       summary := ["added step ", .quoted step.id] }]
            inverse := .removeStep step.id }

/-- A connected step is refused rather than cascaded. -/
def applyRemoveStep (p : Pipeline) (id : String) : Except Text Applied :=
  match findStep p id with
  | none => .error ["remove_step: no step ", .quoted id, " in this pipeline"]
  | some removed =>
    match p.edges.find? (fun e => e.fromStep = id || e.toStep = id) with
    | some e => .error ([.lit "remove_step: step ", .quoted id, .lit " is still connected by "] ++
        edgeText e ++ [.lit "; remove its edges first"])
    | none => .ok
        { next := { p with steps := p.steps.filter fun s => !decide (s.id = id) }
          diff := [{ kind := .removed, stepId := id, summary := ["removed step ", .quoted id] }]
          inverse := .addStep (some removed) }

def applyConnect (p : Pipeline) (edge : Option Edge) : Except Text Applied :=
  match checkEdgeEndpoints p "connect" edge with
  | .error text => .error text
  | .ok edge =>
    match findEdge p edge with
    | some _ => .error ([.lit "connect: edge "] ++ edgeText edge ++ [.lit " already exists"])
    | none => .ok
        { next := { p with edges := p.edges ++ [edge] }
          diff := [{ kind := .added, edge := some edge,
                     summary := [.lit "connected "] ++ edgeText edge }]
          inverse := .removeEdge (some edge) }

def applyRemoveEdge (p : Pipeline) (edge : Option Edge) : Except Text Applied :=
  match edge with
  | none => .error ["remove_edge: an edge is required"]
  | some edge =>
    match findEdge p edge with
    | none => .error ([.lit "remove_edge: no such edge "] ++ edgeText edge ++
        [.lit " in this pipeline"])
    | some removed => .ok
        { next := { p with edges := p.edges.filter fun e => !sameEdge e edge }
          diff := [{ kind := .removed, edge := some removed,
                     summary := [.lit "disconnected "] ++ edgeText removed }]
          inverse := .connect (some removed) }

def settableProperties : List String :=
  ["effect_class", "engine_type", "image", "lease_scope", "plugin_ref", "timeout_seconds"]

/-- The text of a step's property and the assignment that sets it, or the refusal. -/
def setScalar (id property value : String) (step : Step) : Except Text (String × (Step → Step)) :=
  match property with
  | "plugin_ref" => .ok (step.pluginRef, fun s => { s with pluginRef := value })
  | "effect_class" =>
    match OpenEnum.ofName? value with
    | none => .error ["set_property: ", .quoted value,
        " is not an effect_class; expected one of ", enumNames effectClassNames]
    | some c => .ok (step.effectClass.name, fun s => { s with effectClass := c })
  | "lease_scope" =>
    match OpenEnum.ofName? value with
    | none => .error ["set_property: ", .quoted value,
        " is not a lease_scope; expected one of ", enumNames leaseScopeNames]
    | some c => .ok (step.leaseScope.name, fun s => { s with leaseScope := c })
  | "image" => .ok (step.image, fun s => { s with image := value })
  | "engine_type" => .ok (step.engineType, fun s => { s with engineType := value })
  | "timeout_seconds" =>
    match parseUint32 value with
    | none => .error ["set_property: ", .quoted value, " is not a timeout_seconds; ",
        "expected a whole number of seconds, 0 for unbounded"]
    | some n =>
      .ok (formatUint step.timeoutSeconds.toNat, fun s => { s with timeoutSeconds := n })
  | _ => .error ["set_property: unknown property ", .quoted property, " on step ", .quoted id,
      "; settable properties are ", ", ".intercalate settableProperties]

def applySetProperty (p : Pipeline) (id property value : String) : Except Text Applied :=
  match findStep p id with
  | none => .error ["set_property: no step ", .quoted id, " in this pipeline"]
  | some step =>
    match setScalar id property value step with
    | .error text => .error text
    | .ok (old, assign) => .ok
        { next := updateStep p id assign
          diff := [{ kind := .changed, stepId := id,
                     summary := ["set ", property, " of step ", .quoted id, " from ", .quoted old,
                       " to ", .quoted value] }]
          inverse := .setProperty id property old }

def applySetStepConfig (p : Pipeline) (id key value : String) (remove : Bool) :
    Except Text Applied :=
  match findStep p id with
  | none => .error ["set_step_config: no step ", .quoted id, " in this pipeline"]
  | some step =>
    if key = "" then .error ["set_step_config: a key is required"]
    else
      let held := step.config[key]?
      let old := held.getD ""
      let inverse := .setStepConfig id key old held.isNone
      if remove then
        if held.isNone then
          .error ["set_step_config: step ", .quoted id, " has no config value ", .quoted key,
            " to remove"]
        else .ok
          { next := updateStep p id fun s => { s with config := s.config.erase key }
            diff := [{ kind := .removed, stepId := id,
                       summary := ["removed config ", .quoted key, " of step ", .quoted id,
                         ", which was ", .quoted old] }]
            inverse }
      else .ok
        { next := updateStep p id fun s => { s with config := s.config.insert key value }
          diff := [{ kind := if held.isNone then .added else .changed, stepId := id,
                     summary := ["set config ", .quoted key, " of step ", .quoted id, " from ",
                       .quoted old, " to ", .quoted value] }]
          inverse }

def applySetStepSecret (p : Pipeline) (id env name : String) (remove : Bool)
    (index : Option UInt32) : Except Text Applied :=
  match findStep p id with
  | none => .error ["set_step_secret: no step ", .quoted id, " in this pipeline"]
  | some step =>
    if !isEnvName env then
      .error ["set_step_secret: ", .quoted env, " is not an environment variable name"]
    else if step.secrets.countP (fun d => d.env = env) > 1 then
      .error ["set_step_secret: step ", .quoted id, " binds ", env,
        " more than once, so no single binding is named; replace the step"]
    else
      match remove, step.secrets.findIdx? (fun d => d.env = env) with
      | true, none => .error ["set_step_secret: step ", .quoted id, " binds no secret to ", env,
          " to remove"]
      | true, some pos =>
        let removed := ((step.secrets[pos]?).map StepSecret.name).getD ""
        .ok
          { next := updateStep p id fun s => { s with secrets := s.secrets.eraseIdx pos }
            diff := [{ kind := .removed, stepId := id,
                       summary := ["unbound ", env, " of step ", .quoted id,
                         ", which received secret ", .quoted removed] }]
            -- the position is cut to the width of the field that carries it
            inverse := .setStepSecret id env removed false (some (UInt32.ofNat pos)) }
      | false, some pos =>
        if index.isSome then
          .error ["set_step_secret: step ", .quoted id, " already binds ", env,
            ", and a rebinding keeps its place; remove it and bind it again to move it"]
        else
          let old := ((step.secrets[pos]?).map StepSecret.name).getD ""
          .ok
            { next := updateStep p id fun s =>
                { s with secrets := s.secrets.set pos { name, env } }
              diff := [{ kind := .changed, stepId := id,
                         summary := ["rebound ", env, " of step ", .quoted id, " from secret ",
                           .quoted old, " to ", .quoted name] }]
              inverse := .setStepSecret id env old false none }
      | false, none =>
        let position := (index.map UInt32.toNat).getD step.secrets.length
        if position > step.secrets.length then
          .error ["set_step_secret: index ", formatUint position, " is past the end of step ",
            .quoted id, "'s ", formatUint step.secrets.length, " secret(s)"]
        else .ok
          { next := updateStep p id fun s =>
              { s with secrets := s.secrets.insertIdx position { name, env } }
            diff := [{ kind := .added, stepId := id,
                       summary := ["bound ", env, " of step ", .quoted id, " to secret ",
                         .quoted name] }]
            inverse := .setStepSecret id env "" true none }

def applySetStepCapability (p : Pipeline) (id : String) (capability : Capability) (remove : Bool)
    (index : Option UInt32) : Except Text Applied :=
  match findStep p id with
  | none => .error ["set_step_capability: no step ", .quoted id, " in this pipeline"]
  | some step =>
    if capability.name?.isNone ∨ capability = .unspecified then
      .error ["set_step_capability: ", capability.text, " is not a capability; expected one of ",
        enumNames (withoutUnspecified capabilityNames)]
    else if step.capabilities.countP (fun c => c = capability) > 1 then
      .error ["set_step_capability: step ", .quoted id, " lists ", capability.name,
        " more than once, so no single entry is named; replace the step"]
    else
      match remove, step.capabilities.findIdx? (fun c => c = capability) with
      | true, none => .error ["set_step_capability: step ", .quoted id, " does not declare ",
          capability.name]
      | true, some pos => .ok
          { next := updateStep p id fun s => { s with capabilities := s.capabilities.eraseIdx pos }
            diff := [{ kind := .removed, stepId := id,
                       summary := ["withdrew ", capability.name, " from step ", .quoted id] }]
            inverse := .setStepCapability id capability false (some (UInt32.ofNat pos)) }
      | false, some _ => .error ["set_step_capability: step ", .quoted id, " already declares ",
          capability.name]
      | false, none =>
        let position := (index.map UInt32.toNat).getD step.capabilities.length
        if position > step.capabilities.length then
          .error ["set_step_capability: index ", formatUint position,
            " is past the end of step ", .quoted id, "'s ",
            formatUint step.capabilities.length, " capabilities"]
        else .ok
          { next := updateStep p id fun s =>
              { s with capabilities := s.capabilities.insertIdx position capability }
            diff := [{ kind := .added, stepId := id,
                       summary := ["declared ", capability.name, " on step ", .quoted id] }]
            inverse := .setStepCapability id capability true none }

/-- The first binding of a path, in the order the steps are listed. -/
def fileReader (p : Pipeline) (path : String) : Option (Step × FileInput) :=
  p.steps.findSome? fun s => (s.fileInputs.find? fun i => i.path = path).map fun i => (s, i)

/-- A file a step still reads is not detached. The path of the operation wins over the
one inside the file. -/
def applySetFile (p : Pipeline) (path : String) (file : Option File) : Except Text Applied :=
  if path = "" then .error ["set_file: a path is required"]
  else
    let previous := p.files.find? fun f => f.path = path
    let inverse := .setFile path previous
    match file, previous with
    | none, none => .error ["set_file: the definition carries no file at ", .quoted path,
        " to detach"]
    | none, some old =>
      match fileReader p path with
      | some (step, input) => .error ["set_file: file ", .quoted path, " is still read by step ",
          .quoted step.id, " on port ", .quoted input.port, "; remove that binding first"]
      | none => .ok
          { next := { p with files := p.files.eraseP fun f => f.path = path }
            diff := [{ kind := .removed, filePath := path,
                       summary := ["detached file ", .quoted path, ", which was ",
                         digestText old.digest] }]
            inverse }
    | some file, some old => .ok
        { next := { p with
            files := updateFirst (fun f => f.path = path) (fun _ => { file with path }) p.files }
          diff := [{ kind := .changed, filePath := path,
                     summary := ["replaced file ", .quoted path, ": ", digestText old.digest,
                       " is now ", digestText file.digest] }]
          inverse }
    | some file, none => .ok
        { next := { p with files := p.files ++ [{ file with path }] }
          diff := [{ kind := .added, filePath := path,
                     summary := ["attached file ", .quoted path, " as ", digestText file.digest] }]
          inverse }

def applyRename (p : Pipeline) (id name : String) : Except Text Applied :=
  match findStep p id with
  | none => .error ["rename: no step ", .quoted id, " in this pipeline"]
  | some step => .ok
      { next := updateStep p id fun s => { s with name }
        diff := [{ kind := .changed, stepId := id,
                   summary := ["renamed step ", .quoted id, " from ", .quoted step.name, " to ",
                     .quoted name] }]
        inverse := .rename id step.name }

def apply (p : Option Pipeline) (op : Option Operation) : Except Text Applied :=
  match p, op with
  | none, _ => .error ["apply: no pipeline given"]
  | some _, none => .error ["apply: no operation given"]
  | some p, some op =>
    match op with
    | .addStep step => applyAddStep p step
    | .removeStep id => applyRemoveStep p id
    | .connect edge => applyConnect p edge
    | .removeEdge edge => applyRemoveEdge p edge
    | .setProperty id property value => applySetProperty p id property value
    | .setStepConfig id key value remove => applySetStepConfig p id key value remove
    | .setStepSecret id env name remove index => applySetStepSecret p id env name remove index
    | .setStepCapability id capability remove index =>
      applySetStepCapability p id capability remove index
    | .setFile path file => applySetFile p path file
    | .rename id name => applyRename p id name

end Dhole
