import Dhole.Dag
import Dhole.Lexical
import Dhole.Transact

/-! The store of definitions. A save writes a revision under the hash of its content, as a draft,
unless the row is there already. An approval reads the row, steps whatever revision of the pipeline
is active back to reviewed and makes this one active, in one transaction; nothing in the schema
keeps two rows of a pipeline from being active. -/

namespace Dhole.Defstore

open Interleave Prog Transact

/-! ### The tables -/

inductive RevisionState where
  | draft
  | reviewed
  | active
deriving DecidableEq

structure Key where
  tenantID : String
  id : String
deriving DecidableEq

structure Revision where
  id : String
  pipelineID : String
  contentHash : String
  state : RevisionState
  lockfile : List (String × String)
  author : String
  approver : String := ""
deriving DecidableEq

structure Row where
  tenantID : String
  rev : Revision
  definition : Wire.Bytes
deriving DecidableEq

namespace Row

def key (r : Row) : Key := ⟨r.tenantID, r.rev.id⟩

def isActive (tenantID pipelineID : String) (r : Row) : Bool :=
  r.tenantID = tenantID ∧ r.rev.pipelineID = pipelineID ∧ r.rev.state = .active

def demote (key : Key) (r : Row) : Row :=
  if r.key = key then { r with rev := { r.rev with state := .reviewed } } else r

def promote (key : Key) (approver : String) (r : Row) : Row :=
  if r.key = key then { r with rev := { r.rev with state := .active, approver } } else r

end Row

structure Tables where
  pipelines : List Key := []
  rows : List Row := []

inductive Write where
  | pipeline (key : Key)
  | insert (row : Row)
  | demote (key : Key)
  | promote (key : Key) (approver : String)
deriving DecidableEq

namespace Tables

def find (t : Tables) (key : Key) : Option Row := t.rows.find? fun r => r.key = key

def activeRows (t : Tables) (tenantID pipelineID : String) : List Row :=
  t.rows.filter (Row.isActive tenantID pipelineID)

/-- `ON CONFLICT DO NOTHING`. -/
def addRow (t : Tables) (row : Row) : Tables :=
  if (t.find row.key).isSome then t else { t with rows := t.rows ++ [row] }

def apply (t : Tables) : Write → Tables
  | .pipeline key => { t with pipelines := t.pipelines ++ [key] }
  | .insert row => t.addRow row
  | .demote key => { t with rows := t.rows.map (Row.demote key) }
  | .promote key approver => { t with rows := t.rows.map (Row.promote key approver) }

end Tables

/-- An update of all active rows looks for them first, in `seen`; each is then updated once nobody
holds it, if it is still active. -/
inductive Query where
  | upsertPipeline (key : Key)
  | insertRevision (row : Row)
  | revisionRow (key : Key)
  | seen (tenantID pipelineID : String)
  | demote (tenantID pipelineID : String) (seen : List String)
  | promote (key : Key) (approver : String)

inductive Lock where
  | pipeline (key : Key)
  | revision (key : Key)
deriving DecidableEq

def Tables.stillActive (t : Tables) (tenantID pipelineID : String) (seen : List String) :
    List String :=
  seen.filter fun id => (t.find ⟨tenantID, id⟩).any (Row.isActive tenantID pipelineID)

abbrev Query.Ans : Query → Type
  | .upsertPipeline _ => Bool
  | .insertRevision _ => Bool
  | .revisionRow _ => Option Revision
  | .seen .. => List String
  | .demote .. => List String
  | .promote .. => Bool

def writesOf : (q : Query) → q.Ans → List Write
  | .upsertPipeline key, inserted => if inserted = true then [.pipeline key] else []
  | .insertRevision row, inserted => if inserted = true then [.insert row] else []
  | .revisionRow _, _ => []
  | .seen .., _ => []
  | .demote tenantID .., ids => ids.map fun id => .demote ⟨tenantID, id⟩
  | .promote key approver, touched => if touched = true then [.promote key approver] else []

/-- What the statement evaluates to, and the rows it has to wait for. -/
def evaluate (t : Tables) : (q : Query) → q.Ans × List Lock
  | .upsertPipeline key =>
    if key ∈ t.pipelines then (false, []) else (true, [.pipeline key])
  | .insertRevision row =>
    if (t.find row.key).isSome then (false, []) else (true, [.revision row.key])
  | .revisionRow key => ((t.find key).map Row.rev, [])
  | .seen tenantID pipelineID =>
    ((t.activeRows tenantID pipelineID).map fun r => r.rev.id, [])
  | .demote tenantID pipelineID seen =>
    (t.stillActive tenantID pipelineID seen,
      (t.stillActive tenantID pipelineID seen).map fun id => .revision ⟨tenantID, id⟩)
  | .promote key _ => if (t.find key).isSome then (true, [.revision key]) else (false, [])

/-- A revision is inserted where its pipeline is; the key refers to it. -/
def Query.refers (t : Tables) : Query → Bool
  | .insertRevision row => ⟨row.tenantID, row.rev.pipelineID⟩ ∈ t.pipelines
  | _ => true

abbrev schema : Schema where
  Tables := Tables
  Write := Write
  apply := Tables.apply
  Query := Query
  Ans := Query.Ans
  Lock := Lock
  decLock := inferInstance
  answers t held q r := r = (evaluate t q).1 ∧ q.refers t = true ∧
    ∀ l ∈ (evaluate t q).2, held l = false
  writes _ q r := writesOf q r
  locks t q _ := (evaluate t q).2

/-! ### Saving and approving -/

inductive Err where
  | tenantRequired
  | notFound
  | selfApproval (approver : String)
  | nilPipeline
  | unpinned (refs : ℕ)
  | unresolved (ref : String) (cause : Text)
  | noDigest (ref : String)
  | saving
  | approving
  | nothingToDo

inductive EnvOp where
  | resolve (tenantID ref : String)

abbrev envSig : Sig where
  Op := EnvOp
  Res
    | .resolve .. => Except Text (Option Digest)

abbrev envWorld : World envSig where
  State := Unit
  init := ()
  Answers _ _ := True
  next _ _ := ()

abbrev defSig : Sig := (txSig schema).sum envSig

abbrev DefEvent := Interleave.Event defSig

abbrev defWorld (iso : Isolation) : World defSig := (txWorld schema iso {}).sum envWorld

abbrev DefM := ExceptT Err (TxProg schema envSig)

/-- How the store was built: `WithResolver`, `WithoutPinning`. -/
structure Config where
  resolver : Bool
  pinningWaived : Bool

def pluginRefs (p : Pipeline) : List String :=
  (Dag.sortStrings ((p.steps.map fun s => Lexical.trimSpace s.pluginRef).filter
    fun ref => ref ≠ "")).destutter (· ≠ ·)

def resolveLockfile (tenantID : String) : List String → DefM (List (String × String))
  | [] => pure []
  | ref :: refs => do
    match ← perform (S := defSig) (.inr (.resolve tenantID ref)) with
    | .error cause => throw (.unresolved ref cause)
    | .ok none => throw (.noDigest ref)
    | .ok (some d) =>
      if d.hex = "" then throw (.noDigest ref)
      else
        let rest ← resolveLockfile tenantID refs
        pure ((ref, d.algo ++ ":" ++ d.hex) :: rest)

def Config.lockfile (c : Config) (tenantID : String) (p : Pipeline) :
    DefM (List (String × String)) :=
  if c.resolver = true then resolveLockfile tenantID (pluginRefs p)
  else if c.pinningWaived = false ∧ 0 < (pluginRefs p).length then
    throw (.unpinned (pluginRefs p).length)
  else pure []

def revisionRow (tx : ℕ) (key : Key) (failed : Err) : DefM Revision := do
  match ← query (T := envSig) tx (D := schema) (.revisionRow key) failed with
  | none => throw .notFound
  | some rev => pure rev

variable (sum256 H : Wire.Bytes → Wire.Bytes)

def draftOf (tenantID : String) (p : Pipeline) (author : String)
    (lockfile : List (String × String)) : Row where
  tenantID := tenantID
  rev := {
    id := "rev_" ++ contentHash sum256 p
    pipelineID := p.id
    contentHash := contentHash sum256 p
    state := .draft
    lockfile := lockfile
    author := author }
  definition := canonicalBytes p

def save (c : Config) (tenantID : String) (p : Option Pipeline) (author : String) : DefM Revision :=
  if tenantID = "" then throw .tenantRequired
  else match p with
    | none => throw .nilPipeline
    | some p => do
      let lockfile ← c.lockfile tenantID p
      let row := draftOf sum256 tenantID p author lockfile
      withTx .saving .saving fun tx => do
        let _ ← query (T := envSig) tx (D := schema) (.upsertPipeline ⟨tenantID, p.id⟩) Err.saving
        let _ ← query (T := envSig) tx (D := schema) (.insertRevision row) Err.saving
        revisionRow tx row.key .saving

/-- The statements of an approval; a revision that is active already ends it. -/
def supersede (tenantID revisionID approver : String) (tx : ℕ) : DefM Unit := do
  let rev ← revisionRow tx ⟨tenantID, revisionID⟩ .approving
  if rev.state = .active then throw .nothingToDo
  else if approver = rev.author then throw (.selfApproval approver)
  else
    let seen ← query (T := envSig) tx (D := schema) (.seen tenantID rev.pipelineID) Err.approving
    let _ ← query (T := envSig) tx (D := schema) (.demote tenantID rev.pipelineID seen)
      Err.approving
    let _ ← query (T := envSig) tx (D := schema) (.promote ⟨tenantID, revisionID⟩ approver)
      Err.approving
    pure ()

def approve (tenantID revisionID approver : String) : Prog defSig (Except Err Unit) :=
  if tenantID = "" then pure (.error .tenantRequired)
  else do
    match ← (withTx .approving .approving (supersede tenantID revisionID approver)).run with
    | .error .nothingToDo => pure (.ok ())
    | result => pure result

/-! ### Who calls -/

/-- Requests, and the store that notices that a transaction was left behind. -/
inductive Call where
  | save (c : Config) (tenantID : String) (p : Option Pipeline) (author : String)
  | approve (tenantID revisionID approver : String)
  | crash (tx : ℕ)

inductive Reply where
  | saved (result : Except Err Revision)
  | approved (result : Except Err Unit)
  | crashed

def Call.prog : Call → Prog defSig Reply
  | .save c tenantID p author => .saved <$> (Defstore.save sum256 c tenantID p author).run
  | .approve tenantID revisionID approver => .approved <$> Defstore.approve tenantID revisionID approver
  | .crash tx => do
    let _ ← perform (S := defSig) (.inl (.abandon tx))
    pure .crashed

/-- What an approval has seen and done in its transaction, step by step. -/
def readStage (tx : ℕ) (key : Key) (rev : Revision) : List DefEvent :=
  [begun tx, answered (D := schema) tx (.revisionRow key) (some rev)]

def seenStage (tx : ℕ) (key : Key) (rev : Revision) (seen : List String) : List DefEvent :=
  readStage tx key rev ++ [answered (D := schema) tx (.seen key.tenantID rev.pipelineID) seen]

def demotedStage (tx : ℕ) (key : Key) (rev : Revision) (seen ids : List String) : List DefEvent :=
  seenStage tx key rev seen ++
    [answered (D := schema) tx (.demote key.tenantID rev.pipelineID seen) ids]

def promotedStage (tx : ℕ) (key : Key) (rev : Revision) (seen ids : List String)
    (approver : String) (touched : Bool) : List DefEvent :=
  demotedStage tx key rev seen ids ++
    [answered (D := schema) tx (.promote key approver) touched]

def Query.drafts : Query → Prop
  | .upsertPipeline _ => True
  | .insertRevision row => row.rev.state = .draft
  | .revisionRow _ => True
  | _ => False

def Query.supersedes (key : Key) (approver : String) (tx : ℕ) (h : List DefEvent) : Query → Prop
  | .revisionRow k => k = key ∧ h = [begun tx]
  | .seen tenantID pipelineID =>
    tenantID = key.tenantID ∧ ∃ rev, rev.pipelineID = pipelineID ∧ h = readStage tx key rev
  | .demote tenantID pipelineID found =>
    tenantID = key.tenantID ∧ ∃ rev, rev.pipelineID = pipelineID ∧ h = seenStage tx key rev found
  | .promote k approver' =>
    k = key ∧ approver' = approver ∧ ∃ rev found ids, h = demotedStage tx key rev found ids
  | _ => False

def Call.Justified : Call → List DefEvent → DefEvent → Prop
  | .save .., h, ⟨.inl (.query tx q), _⟩ => begun tx ∈ h ∧ q.drafts
  | .save .., h, ⟨.inl (.commit tx), _⟩ => begun tx ∈ h
  | .approve tenantID revisionID approver, h, ⟨.inl (.query tx q), _⟩ =>
    q.supersedes ⟨tenantID, revisionID⟩ approver tx h
  | .approve tenantID revisionID approver, h, ⟨.inl (.commit tx), _⟩ =>
    ∃ rev seen ids touched,
      h = promotedStage tx ⟨tenantID, revisionID⟩ rev seen ids approver touched
  | .crash _, _, ⟨.inl (.query ..), _⟩ => False
  | .crash _, _, ⟨.inl (.commit _), _⟩ => False
  | _, _, _ => True

variable {H} {c : Config} {tid revisionID author ap : String} {p : Option Pipeline}
  {tx : ℕ} {h : List DefEvent} {q : Query} {err : Err}

theorem wpe_saving (hb : begun tx ∈ h) (hq : q.drafts) : wpe ((Call.save c tid p author).Justified)
      (query (T := envSig) tx (D := schema) q err) (fun k _ => begun tx ∈ k) h :=
  wpe_query (fun _ => ⟨hb, hq⟩) fun _ => List.mem_append_left _ hb

theorem only_resolveLockfile (tid : String) (refs : List String) :
    OnlyCalls (S := defSig) (fun op => op.isRight = true) (resolveLockfile tid refs) := by
  induction refs with
  | nil => exact .pure _
  | cons ref refs ih =>
    refine .bind (.lift (.perform rfl)) fun r => ?_
    rcases (r : Except Text (Option Digest)) with cause | _ | d
    · exact .throw _
    · exact .throw _
    · change OnlyCalls _ (if d.hex = "" then _ else _)
      split
      · exact .throw _
      · exact .bind ih fun rest => .pure _

theorem wpe_lockfile (p' : Pipeline) (h : List DefEvent) :
    wpe ((Call.save c tid p author).Justified) (c.lockfile tid p') (fun _ _ => True) h := by
  unfold Config.lockfile
  split
  · refine wpe_of_only ?_ (only_resolveLockfile _ _) h
    rintro h ⟨op | op, r⟩ hr
    · cases hr
    · trivial
  · split
    · exact wpe_throw _
    · exact wpe_done

theorem wpe_save : wpe ((Call.save c tid p author).Justified)
    (save H c tid p author) (fun _ _ => True) h := by
  unfold save
  split
  · exact wpe_throw _
  cases p with
  | none => exact wpe_throw _
  | some p =>
    refine wpe_seq (wpe_lockfile p h) fun g lockfile => ?_
    refine wpe_withTx (fun r => trivial) (fun k tx r => trivial) fun tx => ?_
    refine wpe_bind.mpr (wpe_mono (wpe_saving (by simp) trivial) fun g₁ _ h₁ => ?_)
    refine wpe_bind.mpr (wpe_mono (wpe_saving h₁ rfl) fun g₂ _ h₂ => ?_)
    refine wpe_bind.mpr (wpe_mono (wpe_saving h₂ trivial) fun g₃ rev h₃ => ?_)
    rcases (rev : Option Revision) with _ | rev
    · exact wpe_throw _
    · exact (wpe_pure _).mpr ⟨fun r => h₃, trivial⟩

theorem wpe_supersede : wpe ((Call.approve tid revisionID ap).Justified)
    (supersede tid revisionID ap tx) (fun k _ => ∃ rev seen ids tch,
      k = promotedStage tx ⟨tid, revisionID⟩ rev seen ids ap tch) [begun tx] := by
  refine wpe_bind.mpr (wpe_bind.mpr (wpe_query (fun r => ⟨rfl, rfl⟩) fun rev => ?_))
  rcases (rev : Option Revision) with _ | rev
  · exact wpe_throw _
  refine (wpe_pure _).mpr ?_
  by_cases ha : rev.state = .active
  · rw [if_pos ha]
    exact wpe_throw _
  rw [if_neg ha]
  by_cases hs : ap = rev.author
  · rw [if_pos hs]
    exact wpe_throw _
  rw [if_neg hs]
  refine wpe_bind.mpr (wpe_query (fun r => ⟨rfl, rev, rfl, rfl⟩) fun seen => ?_)
  refine wpe_bind.mpr (wpe_query (fun r => ⟨rfl, rev, rfl, rfl⟩) fun ids => ?_)
  refine wpe_bind.mpr (wpe_query (fun r => ⟨rfl, rfl, rev, seen, ids, rfl⟩) fun tch => ?_)
  exact (wpe_pure _).mpr ⟨rev, seen, ids, tch, rfl⟩

theorem wp_approve : wp ((Call.approve tid revisionID ap).Justified)
    (approve tid revisionID ap) (fun _ _ => True) [] := by
  unfold approve
  split
  · trivial
  refine wp_bind.mpr (wp_mono (wpe_withTx (Q := fun _ _ => True) (fun r => trivial)
    (fun k tx r => trivial) fun tx => ?_) ?_)
  · refine wpe_mono wpe_supersede fun g _ hd => ⟨fun r => ?_, trivial⟩
    exact hd
  · rintro g r -
    split <;> trivial

theorem wp_prog (c : Call) : wp c.Justified (c.prog H) (fun _ _ => True) [] := by
  cases c with
  | save c tid p author =>
    exact wp_bind.mpr (wp_mono wpe_save fun g a _ => trivial)
  | approve tid revisionID ap =>
    exact wp_bind.mpr (wp_mono wp_approve fun g a _ => trivial)
  | crash tx => exact wp_bind.mpr fun _ => ⟨trivial, trivial⟩

end Dhole.Defstore
