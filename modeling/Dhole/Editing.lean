import Dhole.Interleave
import Dhole.Merge

/-! Editing a pipeline from many planes at once. A revision is stored under the hash of its
content and never changes; which revision the next edit must be based on is one row, the
head, and it only moves by compare-and-set from a named revision. A request reads the head,
rebases if it has to, applies its operation, saves what comes out and then moves the head,
each in a call of its own. -/

namespace Dhole.Editing

open Interleave Prog

/-! ### The stores -/

structure RevisionRow where
  tenantID : String
  id : String
  pipelineID : String
  definition : Pipeline
deriving DecidableEq

structure Store where
  revisions : List RevisionRow
  heads : String × String → Option String

inductive Failure where
  | notFound
  | other (cause : String)

def Failure.text : Failure → String
  | .notFound => "revision not found"
  | .other cause => cause

inductive SaveRes where
  | saved (revisionID : String)
  | failed (cause : Failure) (landed : Bool)

/-- `stale` is `ErrHeadMoved`. A move that failed may have landed all the same. -/
inductive MoveRes where
  | moved
  | stale
  | failed (cause : Failure) (landed : Bool)

inductive EditOp where
  | revisions (tenantID pipelineID : String)
  | revision (tenantID revisionID : String)
  | get (tenantID pipelineID revisionID : String)
  | save (tenantID : String) (p : Pipeline)
  | hasFile (tenantID : String) (digest : Option Digest)
  | head (tenantID pipelineID : String)
  | active (tenantID pipelineID : String)
  | compareAndSetHead (tenantID pipelineID fromID toID : String)

def EditOp.Res : EditOp → Type
  | .revisions .. => Except Failure ℕ
  | .revision .. => Except Failure Unit
  | .get .. => Except Failure Pipeline
  | .save .. => SaveRes
  | .hasFile .. => Except Failure Bool
  | .head .. => Except Failure (Option String)
  | .active .. => Except Failure String
  | .compareAndSetHead .. => MoveRes

def editSig : Sig where
  Op := EditOp
  Res := EditOp.Res

abbrev EditProg := Prog editSig

abbrev EditEvent := Interleave.Event editSig

abbrev EditHistory := List (Act editSig)

def Store.contentOf (s : Store) (tenantID pipelineID revisionID : String) : Option Pipeline :=
  (s.revisions.find? fun row =>
    row.tenantID = tenantID ∧ row.pipelineID = pipelineID ∧ row.id = revisionID).map
      RevisionRow.definition

/-- Whether the head may move from the revision: an empty one stands for no head. -/
def Store.At (s : Store) (tenantID pipelineID fromID : String) : Prop :=
  if fromID = "" then s.heads (tenantID, pipelineID) = none
  else s.heads (tenantID, pipelineID) = some fromID

instance (s : Store) (tenantID pipelineID fromID : String) :
    Decidable (s.At tenantID pipelineID fromID) :=
  inferInstanceAs (Decidable (ite ..))

variable (sum256 : Wire.Bytes → Wire.Bytes)

def revisionID (p : Pipeline) : String := "rev_" ++ contentHash sum256 p

/-- The row of a save. The stored definition is the canonical one. -/
def rowOf (tenantID : String) (p : Pipeline) : RevisionRow where
  tenantID := tenantID
  id := revisionID sum256 p
  pipelineID := p.id
  definition := p.stripUnknown

/-- Saving what is already stored writes nothing. -/
def Store.save (s : Store) (tenantID : String) (p : Pipeline) : Store :=
  if s.revisions.any fun row => row.tenantID = tenantID ∧ row.id = revisionID sum256 p then s
  else { s with revisions := s.revisions ++ [rowOf sum256 tenantID p] }

def Store.move (s : Store) (tenantID pipelineID toID : String) : Store :=
  { s with heads := Function.update s.heads (tenantID, pipelineID) (some toID) }

def Answers (s : Store) : (op : EditOp) → op.Res → Prop
  | .revisions tenantID pipelineID, .ok n =>
    n = s.revisions.countP fun row => row.tenantID = tenantID ∧ row.pipelineID = pipelineID
  | .revision tenantID revisionID, .ok _ =>
    ∃ row ∈ s.revisions, row.tenantID = tenantID ∧ row.id = revisionID
  | .get tenantID pipelineID revisionID, .ok p =>
    s.contentOf tenantID pipelineID revisionID = some p
  | .get tenantID pipelineID revisionID, .error .notFound =>
    s.contentOf tenantID pipelineID revisionID = none
  | .save _ p, .saved id => id = revisionID sum256 p
  | .head tenantID pipelineID, .ok r => r = s.heads (tenantID, pipelineID)
  | .active tenantID pipelineID, .ok id =>
    ∃ row ∈ s.revisions, row.tenantID = tenantID ∧ row.pipelineID = pipelineID ∧ row.id = id
  | .compareAndSetHead tenantID pipelineID fromID toID, .moved =>
    toID ≠ "" ∧ s.At tenantID pipelineID fromID
  | .compareAndSetHead tenantID pipelineID fromID toID, .stale =>
    toID ≠ "" ∧ ¬ s.At tenantID pipelineID fromID
  | .compareAndSetHead tenantID pipelineID fromID toID, .failed _ landed =>
    landed → toID ≠ "" ∧ s.At tenantID pipelineID fromID
  | _, _ => True

def next (s : Store) : (op : EditOp) → op.Res → Store
  | .save tenantID p, .saved _ => s.save sum256 tenantID p
  | .save tenantID p, .failed _ landed => if landed then s.save sum256 tenantID p else s
  | .compareAndSetHead tenantID pipelineID _ toID, .moved => s.move tenantID pipelineID toID
  | .compareAndSetHead tenantID pipelineID _ toID, .failed _ landed =>
    if landed then s.move tenantID pipelineID toID else s
  | _, _ => s

def editWorld : World editSig where
  State := Store
  init := { revisions := [], heads := fun _ => none }
  Answers s e := Answers sum256 s e.op e.res
  next s e := next sum256 s e.op e.res

/-! ### Refusals -/

inductive Code where
  | unauthenticated
  | invalidArgument
  | alreadyExists
  | notFound
  | failedPrecondition
  | aborted
  | internal
deriving DecidableEq

structure Refusal where
  code : Code
  text : Text
  detail : Option String := none

def storeError (what : String) : Failure → Refusal
  | .notFound => { code := .notFound, text := ["api: ", what, ": not found"] }
  | .other cause => { code := .internal, text := ["api: ", what, ": ", cause] }

def principal : Option String → Except Refusal String
  | none => .error { code := .unauthenticated, text := ["api: authentication failed"] }
  | some tenantID =>
    if tenantID = "" then
      .error { code := .unauthenticated,
               text := ["api: the credential resolves to no tenant, and there is no unscoped call"] }
    else .ok tenantID

def cut (key : String) : String := String.ofList (key.toList.drop 5)

/-- Turns a key back into something a person reads. -/
def describe (key : String) : String :=
  if key = "pipeline" then "this pipeline"
  else if 5 < key.length ∧ key.toList.take 5 = "step:".toList then "step " ++ cut key
  else if 5 < key.length ∧ key.toList.take 5 = "life:".toList then "step " ++ cut key
  else if 5 < key.length ∧ key.toList.take 5 = "edge:".toList then "the edge " ++ cut key
  else key

/-! ### Requests -/

def revisions (tenantID pipelineID : String) : EditProg (Except Failure ℕ) :=
  perform (S := editSig) (.revisions tenantID pipelineID)

def revision (tenantID revisionID : String) : EditProg (Except Failure Unit) :=
  perform (S := editSig) (.revision tenantID revisionID)

def get (tenantID pipelineID revisionID : String) : EditProg (Except Failure Pipeline) :=
  perform (S := editSig) (.get tenantID pipelineID revisionID)

def save (tenantID : String) (p : Pipeline) : EditProg SaveRes :=
  perform (S := editSig) (.save tenantID p)

def hasFile (tenantID : String) (digest : Option Digest) : EditProg (Except Failure Bool) :=
  perform (S := editSig) (.hasFile tenantID digest)

def readHead (tenantID pipelineID : String) : EditProg (Except Failure (Option String)) :=
  perform (S := editSig) (.head tenantID pipelineID)

def active (tenantID pipelineID : String) : EditProg (Except Failure String) :=
  perform (S := editSig) (.active tenantID pipelineID)

def compareAndSetHead (tenantID pipelineID fromID toID : String) : EditProg MoveRes :=
  perform (S := editSig) (.compareAndSetHead tenantID pipelineID fromID toID)

/-- The refusal of a conflict, with the newer revision attached if it can be read. -/
def conflict (tenantID head : String) (why : Text) : EditProg Refusal := do
  match ← revision tenantID head with
  | .ok _ => pure { code := .aborted, text := .lit "api: revision conflict: " :: why
                    detail := some head }
  | .error _ => pure { code := .aborted, text := .lit "api: revision conflict: " :: why }

/-- The first binding that the files of a definition do not bear out. -/
def bindingFault (p : Pipeline) : Option Text :=
  p.steps.findSome? fun step => step.fileInputs.findSome? fun input =>
    if ¬ p.files.any fun f => f.path = input.path then
      some ["api: step ", .quoted step.id, " reads file ", .quoted input.path, " on port ",
        .quoted input.port, ", and the definition carries no such file"]
    else if (findPort step.inputs input.port).isNone then
      some ["api: step ", .quoted step.id, " binds file ", .quoted input.path, " to input port ",
        .quoted input.port, ", which it does not declare"]
    else none

/-- The files of a definition, each looked up once; `stored` when the server has a file
store to look in. -/
def checkFiles (stored : Bool) (tenantID : String) (declared : List String) :
    List File → EditProg (Except Refusal Unit)
  | [] => pure (.ok ())
  | f :: files =>
    if f.path = "" then
      pure (.error { code := .invalidArgument
                     text := ["api: a file the definition carries needs a path"] })
    else if f.path ∈ declared then
      pure (.error { code := .invalidArgument
                     text := ["api: the definition carries two files at ", .quoted f.path] })
    else if f.digest.elim "" (·.hex) = "" then
      pure (.error { code := .invalidArgument
                     text := ["api: file ", .quoted f.path,
                       " has no digest: a revision pins the bytes it runs"] })
    else if ¬ stored then checkFiles stored tenantID (f.path :: declared) files
    else do
      match ← hasFile tenantID f.digest with
      | .error cause => pure (.error { code := .internal
                                       text := ["api: checking the bytes of file ",
                                         .quoted f.path, ": ", cause.text] })
      | .ok false => pure (.error { code := .failedPrecondition
                                    text := ["api: file ", .quoted f.path, " names ",
                                      digestText f.digest,
                                      ", which is not stored for this tenant; ",
                                      "upload it with PutDefinitionFile first"] })
      | .ok true => checkFiles stored tenantID (f.path :: declared) files

def checkDefinitionFiles (stored : Bool) (tenantID : String) (p : Pipeline) :
    EditProg (Except Refusal Unit) := do
  match ← checkFiles stored tenantID [] p.files with
  | .error refusal => pure (.error refusal)
  | .ok () =>
    match bindingFault p with
    | some text => pure (.error { code := .invalidArgument, text })
    | none => pure (.ok ())

structure CreateRequest where
  credential : Option String
  pipelineID : String
  pipeline : Option Pipeline

structure GetRequest where
  credential : Option String
  pipelineID : String
  revisionID : String

structure ApplyRequest where
  credential : Option String
  pipelineID : String
  baseRevision : String
  operation : Option Operation

structure Created where
  pipeline : Pipeline
  revisionID : String

structure Edited where
  revisionID : String
  applied : Applied

/-- The definition a request creates: its id and its tenant are not the caller's to name. -/
def CreateRequest.definition (r : CreateRequest) (tenantID : String) : Pipeline :=
  { r.pipeline.getD {} with id := r.pipelineID, tenant := some { id := tenantID } }

def alreadyExists (pipelineID : String) : Refusal where
  code := .alreadyExists
  text := ["api: pipeline ", .quoted pipelineID, " already exists"]

/-- Saves the first revision and seeds the head, which is what decides between two creators. -/
def seed (tenantID pipelineID : String) (definition : Pipeline) :
    EditProg (Except Refusal Created) := do
  match ← save tenantID definition with
  | .failed cause _ => pure (.error (storeError "save revision" cause))
  | .saved revisionID =>
    match ← compareAndSetHead tenantID pipelineID "" revisionID with
    | .moved => pure (.ok { pipeline := definition, revisionID })
    | .stale => pure (.error (alreadyExists pipelineID))
    | .failed cause _ => pure (.error (storeError "record head" cause))

def createPipeline (stored : Bool) (r : CreateRequest) : EditProg (Except Refusal Created) :=
  match principal r.credential with
  | .error refusal => pure (.error refusal)
  | .ok tenantID =>
    if r.pipelineID = "" then
      pure (.error { code := .invalidArgument, text := ["api: a pipeline_id is required"] })
    else do
      match ← revisions tenantID r.pipelineID with
      | .error cause => pure (.error (storeError "list revisions" cause))
      | .ok n =>
        if 0 < n then
          pure (.error { code := .alreadyExists
                         text := ["api: pipeline ", .quoted r.pipelineID, " already exists, with ",
                           formatUint n, " revision(s)"] })
        else do
          match ← checkDefinitionFiles stored tenantID (r.definition tenantID) with
          | .error refusal => pure (.error refusal)
          | .ok () => seed tenantID r.pipelineID (r.definition tenantID)

/-- The head of a pipeline, or its active revision where it has no head. -/
def headRevision (tenantID pipelineID : String) : EditProg (Except Refusal String) := do
  match ← readHead tenantID pipelineID with
  | .error cause => pure (.error (storeError "read head" cause))
  | .ok (some head) => pure (.ok head)
  | .ok none =>
    match ← active tenantID pipelineID with
    | .error cause => pure (.error (storeError "get active revision" cause))
    | .ok revisionID => pure (.ok revisionID)

def fetch (tenantID pipelineID revisionID : String) : EditProg (Except Refusal Created) := do
  match ← get tenantID pipelineID revisionID with
  | .error cause => pure (.error (storeError "get pipeline" cause))
  | .ok pipeline =>
    match ← revision tenantID revisionID with
    | .error cause => pure (.error (storeError "get revision" cause))
    | .ok () => pure (.ok { pipeline, revisionID })

def getPipeline (r : GetRequest) : EditProg (Except Refusal Created) :=
  match principal r.credential with
  | .error refusal => pure (.error refusal)
  | .ok tenantID =>
    if r.pipelineID = "" then
      pure (.error { code := .invalidArgument, text := ["api: a pipeline_id is required"] })
    else if r.revisionID ≠ "" then fetch tenantID r.pipelineID r.revisionID
    else do
      match ← headRevision tenantID r.pipelineID with
      | .error refusal => pure (.error refusal)
      | .ok revisionID => fetch tenantID r.pipelineID revisionID

/-- The revision an edit is applied to when the head has left its base. -/
def rebaseOnto (tenantID pipelineID base head : String) (op : Option Operation) :
    EditProg (Except Refusal String) := do
  match ← get tenantID pipelineID base with
  | .error cause => pure (.error (storeError "get pipeline" cause))
  | .ok before =>
    match ← get tenantID pipelineID head with
    | .error cause => pure (.error (storeError "get pipeline" cause))
    | .ok after =>
      match (changedBetween before after).find? fun key => key ∈ touchedBy op with
      | some key => do
        let refusal ← conflict tenantID head
          ["pipeline ", .quoted pipelineID, " moved to revision ", head,
            ", and that change touches ", describe key, " as well"]
        pure (.error refusal)
      | none => pure (.ok head)

/-- Saves the edited definition and moves the head from the revision the edit was read
against. -/
def record (tenantID pipelineID fromID : String) (a : Applied) :
    EditProg (Except Refusal Edited) := do
  match ← save tenantID a.next with
  | .failed cause _ => pure (.error (storeError "save revision" cause))
  | .saved revisionID =>
    match ← compareAndSetHead tenantID pipelineID fromID revisionID with
    | .moved => pure (.ok { revisionID, applied := a })
    | .failed cause _ => pure (.error (storeError "record head" cause))
    | .stale =>
      match ← readHead tenantID pipelineID with
      | .error cause => pure (.error (storeError "read head" cause))
      | .ok current => do
        let refusal ← conflict tenantID (current.getD "")
          ["pipeline ", .quoted pipelineID, " moved to revision ", current.getD "",
            " while this edit was being applied"]
        pure (.error refusal)

def editAt (stored : Bool) (r : ApplyRequest) (tenantID : String) (known : Bool)
    (applyTo : String) : EditProg (Except Refusal Edited) := do
  match ← get tenantID r.pipelineID applyTo with
  | .error cause => pure (.error (storeError "get pipeline" cause))
  | .ok current =>
    match apply (some current) r.operation with
    | .error text =>
      if applyTo ≠ r.baseRevision then do
        let refusal ← conflict tenantID applyTo
          ([.lit "pipeline ", .quoted r.pipelineID, .lit " moved to revision ", .lit applyTo,
            .lit ", where this edit no longer applies: "] ++ text)
        pure (.error refusal)
      else pure (.error { code := .invalidArgument, text })
    | .ok a => do
      match ← checkDefinitionFiles stored tenantID a.next with
      | .error refusal => pure (.error refusal)
      | .ok () => record tenantID r.pipelineID (if known then applyTo else "") a

def applyOperation (stored : Bool) (r : ApplyRequest) : EditProg (Except Refusal Edited) :=
  match principal r.credential with
  | .error refusal => pure (.error refusal)
  | .ok tenantID =>
    if r.pipelineID = "" then
      pure (.error { code := .invalidArgument, text := ["api: a pipeline_id is required"] })
    else if r.baseRevision = "" then
      pure (.error { code := .invalidArgument
                     text := ["api: a base_revision is required; ",
                       "an edit that cannot conflict overwrites silently"] })
    else do
      match ← readHead tenantID r.pipelineID with
      | .error cause => pure (.error (storeError "read head" cause))
      | .ok none => editAt stored r tenantID false r.baseRevision
      | .ok (some head) =>
        if head = r.baseRevision then editAt stored r tenantID true r.baseRevision
        else do
          match ← rebaseOnto tenantID r.pipelineID r.baseRevision head r.operation with
          | .error refusal => pure (.error refusal)
          | .ok applyTo => editAt stored r tenantID true applyTo

end Dhole.Editing
