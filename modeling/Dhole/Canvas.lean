import Dhole.Splicing

/-! The canvas' own check of the ports, made when an edge is dropped. It is meant to say what the
control plane's `typeCheck` will say of the pipeline, in the same words. It reads no file binding,
and it quotes the names in its texts as JSON does where the plane quotes them as Go does. -/

namespace Dhole.Canvas

open List
open Dag (stepNamed BindsFiles Diagnostic checkFileBinding checkFileBinding_eq_nil_iff)

/-! ### Quoting -/

def hex (width n : ℕ) : List Char :=
  (range width).reverse.map fun i => Nat.digitChar (n / 16 ^ i % 16)

/-- The control characters both escape by a letter. -/
def letters : List (Char × Char) :=
  [('\x08', 'b'), ('\x0c', 'f'), ('\n', 'n'), ('\r', 'r'), ('\t', 't')]

/-- A character between the quotes of `JSON.stringify`. -/
def jsonEscape (c : Char) : List Char :=
  if c = '\"' ∨ c = '\\' then ['\\', c]
  else
    match letters.lookup c with
    | some l => ['\\', l]
    | none => if c < ' ' then '\\' :: 'u' :: hex 4 c.toNat else [c]

/-- A character between the quotes of `%q`. -/
def goEscape (isPrint : Char → Bool) (c : Char) : List Char :=
  if c = '\"' ∨ c = '\\' then ['\\', c]
  else if isPrint c then [c]
  else
    match (('\x07', 'a') :: ('\x0b', 'v') :: letters).lookup c with
    | some l => ['\\', l]
    | none =>
      if c < ' ' ∨ c = '\x7f' then '\\' :: 'x' :: hex 2 c.toNat
      else if c.toNat < 0x10000 then '\\' :: 'u' :: hex 4 c.toNat
      else '\\' :: 'U' :: hex 8 c.toNat

/-! ### The check -/

structure Mark where
  stepId : String
  portName : String
  message : List Char
deriving DecidableEq

def untyped : String := "an untyped port"

def quote (value : String) : List Char := '\"' :: (value.toList.flatMap jsonEscape ++ ['\"'])

def describe (type : Option PortType) : String :=
  match type.bind PortType.kind with
  | some (.blob _) => "blob"
  | some (.structured _) => "structured"
  | none => untyped

def incompatible (source target : Option PortType) : List Char :=
  if describe source ≠ describe target then
    (describe source).toList ++ " is not ".toList ++ (describe target).toList
  else
    match source.bind PortType.kind, target.bind PortType.kind with
    | some (.structured s), some (.structured t) =>
      if s.schemaId ≠ t.schemaId then
        "schema ".toList ++ quote s.schemaId ++ " is not ".toList ++
          ("schema ".toList ++ quote t.schemaId)
      else []
    | _, _ => if describe source = untyped then "both ports are untyped".toList else []

def findPort (ports : List Port) (name : String) : Option Port :=
  ports.find? fun port => port.name = name

/-- The map from ids to steps: a later step takes the place of an earlier one. -/
def steps (pipeline : Pipeline) : String → Option Step :=
  pipeline.steps.foldl (fun steps step => Function.update steps step.id (some step)) fun _ => none

/-- The body of the loop over the edges. -/
def checkEdge (pipeline : Pipeline) (edge : Edge) : List Mark :=
  match steps pipeline edge.fromStep with
  | none => [⟨edge.fromStep, edge.fromPort, "edge source step ".toList ++ quote edge.fromStep ++
      " is not defined in ".toList ++ ("pipeline ".toList ++ quote pipeline.id)⟩]
  | some source =>
    match steps pipeline edge.toStep with
    | none => [⟨edge.toStep, edge.toPort, "edge target step ".toList ++ quote edge.toStep ++
        " is not defined in ".toList ++ ("pipeline ".toList ++ quote pipeline.id)⟩]
    | some target =>
      match findPort source.outputs edge.fromPort with
      | none => [⟨source.id, edge.fromPort, "step ".toList ++ quote source.id ++
          " has no output port ".toList ++ (source.id ++ "." ++ edge.fromPort).toList⟩]
      | some out =>
        match findPort target.inputs edge.toPort with
        | none => [⟨target.id, edge.toPort, "step ".toList ++ quote target.id ++
            " has no input port ".toList ++ (target.id ++ "." ++ edge.toPort).toList⟩]
        | some into =>
          let why := incompatible out.type into.type
          if why ≠ [] then
            [⟨target.id, into.name, ("cannot connect " ++ source.id ++ "." ++ out.name ++ " to " ++
              target.id ++ "." ++ into.name ++ ": ").toList ++ why⟩]
          else []

def typeCheck (pipeline : Pipeline) : List Mark := pipeline.edges.flatMap (checkEdge pipeline)

/-! ### The same words -/

def renderPiece (escape : Char → List Char) : Piece → List Char
  | .lit s => s.toList
  | .quoted s => '\"' :: (s.toList.flatMap escape ++ ['\"'])

def shown (escape : Char → List Char) (d : Diagnostic) : Mark :=
  ⟨d.stepID, d.portName, d.message.flatMap (renderPiece escape)⟩

theorem steps_eq_stepNamed (p : Pipeline) : steps p = stepNamed p := by
  funext id
  unfold steps stepNamed
  induction p.steps using reverseRecOn with
  | nil => rfl
  | append_singleton steps step ih =>
    by_cases hid : step.id = id
    · simp [hid]
    · simp [hid, Function.update_of_ne (Ne.symm hid), ih]

/-- A character both quote the same way. -/
def Alike (isPrint : Char → Bool) (c : Char) : Prop :=
  c = '\"' ∨ c = '\\' ∨ if isPrint c then ' ' ≤ c else c ∈ letters.map Prod.fst

theorem escape_append_eq_iff {isPrint : Char → Bool} {c : Char} {x y : List Char} :
    jsonEscape c ++ x = goEscape isPrint c ++ y ↔ Alike isPrint c ∧ x = y := by
  unfold jsonEscape goEscape Alike
  by_cases hq : c = '\"' ∨ c = '\\'
  · simp [hq, ← or_assoc]
  rw [if_neg hq, if_neg hq, ← or_assoc, or_iff_right hq]
  obtain ⟨-, hs⟩ := not_or.mp hq
  by_cases hl : c ∈ letters.map Prod.fst
  · simp only [letters, map_cons, map_nil, mem_cons, not_mem_nil, or_false] at hl
    rcases hl with rfl | rfl | rfl | rfl | rfl <;> cases isPrint _ <;> simp [letters, lookup]
  have hn : letters.lookup c = none :=
    lookup_eq_none_iff.mpr fun p hp => by
      simpa using fun heq : c = p.1 => hl (heq ▸ mem_map_of_mem hp)
  rw [lookup_cons, lookup_cons, hn]
  cases hpr : isPrint c <;> by_cases hlt : c < ' '
  · cases c == '\x07' <;> cases c == '\x0b' <;> simp [hlt, hl]
  · cases c == '\x07' <;> cases c == '\x0b' <;> simp [hlt, hl, hs]
    split_ifs <;> simp [hs]
  · simp [hlt, Ne.symm hs]
  · simp [hlt, not_lt.mp hlt]

theorem flatMap_append_eq_iff {α β : Type*} {f g : α → List β} {P : α → Prop}
    (h : ∀ a x y, f a ++ x = g a ++ y ↔ P a ∧ x = y) {l : List α} {x y : List β} :
    l.flatMap f ++ x = l.flatMap g ++ y ↔ (∀ a ∈ l, P a) ∧ x = y := by
  induction l with
  | nil => simp
  | cons a l ih => simp only [flatMap_cons, append_assoc, h, ih, forall_mem_cons, and_assoc]

def AlikePiece (isPrint : Char → Bool) : Piece → Prop
  | .lit _ => True
  | .quoted s => ∀ c ∈ s.toList, Alike isPrint c

theorem renderPiece_append_eq_iff (isPrint : Char → Bool) (piece : Piece) (x y : List Char) :
    renderPiece jsonEscape piece ++ x = renderPiece (goEscape isPrint) piece ++ y ↔
      AlikePiece isPrint piece ∧ x = y := by
  cases piece with
  | lit s => simp [renderPiece, AlikePiece]
  | quoted s =>
    simp only [renderPiece, AlikePiece, cons_append, append_assoc, cons.injEq, true_and,
      flatMap_append_eq_iff fun _ _ _ => escape_append_eq_iff, nil_append]

theorem shown_eq_iff {isPrint : Char → Bool} {d : Diagnostic} : shown jsonEscape d =
    shown (goEscape isPrint) d ↔ ∀ piece ∈ d.message, AlikePiece isPrint piece := by
  have h := flatMap_append_eq_iff (x := []) (y := []) (l := d.message)
    (renderPiece_append_eq_iff isPrint)
  simpa [shown] using h

/-! ### Agreement -/

/-- The names that stand in quotes in what is said of an edge: the step that is not there and the
pipeline, the step that lacks the port, or the two schemas that differ. -/
def quotedNames (p : Pipeline) (e : Edge) : List String :=
  match stepNamed p e.fromStep, stepNamed p e.toStep with
  | none, _ => [e.fromStep, p.id]
  | some _, none => [e.toStep, p.id]
  | some source, some target =>
    match findPort source.outputs e.fromPort, findPort target.inputs e.toPort with
    | none, _ => [source.id]
    | some _, none => [target.id]
    | some out, some into =>
      match out.type.bind PortType.kind, into.type.bind PortType.kind with
      | some (.structured s), some (.structured t) =>
        if s.schemaId = t.schemaId then [] else [s.schemaId, t.schemaId]
      | _, _ => []

variable {isPrint : Char → Bool}

theorem incompatible_eq (source target : Option PortType) :
    incompatible source target =
      (Dag.incompatible source target).flatMap (renderPiece jsonEscape) ∧
    (incompatible source target = [] ↔ Dag.incompatible source target = []) := by
  unfold incompatible Dag.incompatible describe Dag.describe untyped Dag.untyped
  generalize source.bind PortType.kind = s
  generalize target.bind PortType.kind = t
  rcases s with _ | _ | s <;> rcases t with _ | _ | t
  case some.structured.some.structured =>
    by_cases h : s.schemaId = t.schemaId
    · simp [h]
    · simp [h, renderPiece, quote]
  all_goals simp [renderPiece]

theorem alike_incompatible_iff {source target : Option PortType} :
    (∀ piece ∈ Dag.incompatible source target, AlikePiece isPrint piece) ↔
      ∀ name ∈ (match source.bind PortType.kind, target.bind PortType.kind with
        | some (.structured s), some (.structured t) =>
          if s.schemaId = t.schemaId then [] else [s.schemaId, t.schemaId]
        | _, _ => []), ∀ c ∈ name.toList, Alike isPrint c := by
  unfold Dag.incompatible Dag.describe Dag.untyped
  generalize source.bind PortType.kind = s
  generalize target.bind PortType.kind = t
  rcases s with _ | _ | s <;> rcases t with _ | _ | t
  case some.structured.some.structured =>
    by_cases h : s.schemaId = t.schemaId <;> simp [h, AlikePiece]
  all_goals simp [AlikePiece]

/-- The canvas says of an edge what the control plane says, up to the quoting of these names. -/
theorem checkEdge_eq (isPrint : Char → Bool) (p : Pipeline) (e : Edge) :
    checkEdge p e = (Dag.checkEdge p e).map (shown jsonEscape) ∧
    ((∀ d ∈ Dag.checkEdge p e, ∀ piece ∈ d.message, AlikePiece isPrint piece) ↔
      ∀ name ∈ quotedNames p e, ∀ c ∈ name.toList, Alike isPrint c) := by
  have hf : findPort = Dhole.findPort := rfl
  unfold checkEdge Dag.checkEdge quotedNames
  rw [steps_eq_stepNamed, hf]
  cases stepNamed p e.fromStep with
  | none => simp [shown, renderPiece, quote, AlikePiece]
  | some source =>
    cases stepNamed p e.toStep with
    | none => simp [shown, renderPiece, quote, AlikePiece]
    | some target =>
      cases ho : Dhole.findPort source.outputs e.fromPort with
      | none => simp [ho, shown, renderPiece, quote, AlikePiece]
      | some out =>
        cases hi : Dhole.findPort target.inputs e.toPort with
        | none => simp [ho, hi, shown, renderPiece, quote, AlikePiece]
        | some into =>
          obtain ⟨he, hn⟩ := incompatible_eq out.type into.type
          simp only [ho, hi, ne_eq, hn, ← alike_incompatible_iff]
          split_ifs with h
          · simp [h]
          · simp [shown, renderPiece, he, AlikePiece]

/-- The canvas marks what the plane will report, word for word, exactly if the files are bound and
the names its marks quote are made of characters both quote alike. -/
theorem typeCheck_mirrors_iff (isPrint : Char → Bool) (p : Pipeline) :
    typeCheck p = (Dag.typeCheck p).map (shown (goEscape isPrint)) ↔
      (∀ step ∈ p.steps, BindsFiles p step) ∧
      ∀ e ∈ p.edges, ∀ name ∈ quotedNames p e, ∀ c ∈ name.toList, Alike isPrint c := by
  have hf : (∀ step ∈ p.steps, BindsFiles p step) ↔
      p.steps.flatMap (fun step => step.fileInputs.flatMap (checkFileBinding p step)) = [] := by
    simp only [BindsFiles, flatMap_eq_nil_iff, checkFileBinding_eq_nil_iff]
  have hm : typeCheck p = (p.edges.flatMap (Dag.checkEdge p)).map (shown jsonEscape) := by
    rw [map_flatMap]
    exact flatMap_congr fun e _ => (checkEdge_eq isPrint p e).1
  have ha : (∀ e ∈ p.edges, ∀ name ∈ quotedNames p e, ∀ c ∈ name.toList, Alike isPrint c) ↔
      ∀ d ∈ p.edges.flatMap (Dag.checkEdge p), shown jsonEscape d = shown (goEscape isPrint) d := by
    simp only [forall_mem_flatMap, shown_eq_iff, ← (checkEdge_eq isPrint p _).2]
  rw [Dag.typeCheck, map_append, hf, hm, ha, ← map_inj_left]
  constructor
  · intro h
    have hl := congrArg length h
    rw [length_append, length_map, length_map, length_map] at hl
    have hn := length_eq_zero_iff.mp (Nat.left_eq_add.mp hl)
    exact ⟨hn, by rwa [hn, map_nil, append_nil] at h⟩
  · rintro ⟨hn, h⟩
    rw [hn, map_nil, append_nil, h]

def unboundFile : Pipeline :=
  { id := "ci", steps := [{ id := "lint", fileInputs := [⟨"config", "lint.toml", []⟩] }] }

theorem unbound_file_unmarked : typeCheck unboundFile ≠
      (Dag.typeCheck unboundFile).map (shown (goEscape fun _ => true)) := by
  simp [typeCheck, Dag.typeCheck, unboundFile, checkFileBinding]

end Dhole.Canvas
