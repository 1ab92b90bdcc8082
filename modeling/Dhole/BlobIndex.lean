import Dhole.Ledger
import Dhole.Lexical
import Dhole.Moments

/-! The content-addressed store and the database beside it. The database holds which runs and
which definitions need which blobs, the cache, the run logs and the usage ledger; the store holds
the blobs and knows no transaction. A transaction sees what is committed and what it has changed
itself, statement by statement; SQLite lets one begin only when no other is open. Every statement
may fail, and a commit that is reported as failed may have taken effect. -/

namespace Dhole.Cas

open Interleave Prog Lexical Wire Tenancy List
open Function (update update_self update_of_ne)

/-! ### Digests -/

abbrev Digest := BareDigest

def digestText : Option Digest → Option String
  | none => none
  | some d => if d.algo = "" ∨ d.hex = "" then none else some (d.algo ++ ":" ++ d.hex)

def parseDigestText (text : String) : Option Digest := BareDigest.parse text

theorem digestText_of_parse {text : String} {d : Digest} (h : parseDigestText text = some d) :
    digestText (some d) = some text := by
  unfold parseDigestText BareDigest.parse at h
  split at h
  · cases h
  · rename_i algo hex hc
    split at h
    · cases h
    · rename_i hne
      obtain ⟨hne₁, hne₂⟩ := not_or.mp hne
      obtain rfl := Option.some.inj h
      have ha : String.ofList algo ≠ "" := fun h => hne₁ (by simpa using h)
      have hh : String.ofList hex ≠ "" := fun h => hne₂ (by simpa using h)
      have ht : String.ofList algo ++ ":" ++ String.ofList hex = text := by
        apply String.toList_injective
        rw [eq_of_cutAt hc]
        simp
      simp [digestText, ha, hh, ht]

/-! ### Rows -/

structure Ref where
  tenantID : String
  digest : String
  runID : String
deriving DecidableEq

structure Entry where
  tenantID : String
  key : String
  outputs : Bytes
deriving DecidableEq

/-- A definition file; an instant that cannot be read is none. -/
structure FileRow where
  tenantID : String
  digest : String
  uploadedAt : Option ℤ
deriving DecidableEq

structure Revision where
  tenantID : String
  definition : Bytes
deriving DecidableEq

structure LogEvent where
  at_ : ℤ
  terminal : Bool
deriving DecidableEq

structure Tables where
  refs : List Ref := []
  entries : List Entry := []
  files : List FileRow := []
  revisions : List Revision := []

/-- What a statement of a transaction changes: the rows it found when it was made. -/
inductive Write where
  | addRef (ref : Ref)
  | dropRefs (rows : List Ref)
  | dropEntries (rows : List Entry)
  | dropFiles (rows : List FileRow)

def Tables.apply (t : Tables) : Write → Tables
  | .addRef ref => { t with refs := if ref ∈ t.refs then t.refs else t.refs ++ [ref] }
  | .dropRefs rows => { t with refs := t.refs.filter (· ∉ rows) }
  | .dropEntries rows => { t with entries := t.entries.filter (· ∉ rows) }
  | .dropFiles rows => { t with files := t.files.filter (· ∉ rows) }

structure Blob where
  tenantID : String
  digest : Digest
  size : ℕ
deriving DecidableEq

structure Store where
  tables : Tables := {}
  log : String → String → List LogEvent := fun _ _ => []
  blobs : List Blob := []
  ledger : Ledger := []
  clock : ℤ := 0

/-- With the transactions that are open, by the number they were begun under. -/
structure State extends Store where
  opened : ℕ := 0
  txs : ℕ → Option (List Write) := fun _ => none
  fresh : ∀ tx, opened ≤ tx → txs tx = none := by simp

def Store.atRest (st : Store) : State := { st with }

namespace State

def view (s : State) (tx : ℕ) : Tables := ((s.txs tx).getD []).foldl Tables.apply s.tables

def isOpen (s : State) (tx : ℕ) : Bool := (s.txs tx).isSome

theorem lt_of_isOpen {s : State} {tx : ℕ} (h : s.isOpen tx) : tx < s.opened := by
  by_contra hle
  simp [isOpen, s.fresh tx (not_lt.mp hle)] at h

def begin (s : State) : State :=
  { s with
    opened := s.opened + 1
    txs := update s.txs s.opened (some [])
    fresh := by
      intro tx htx
      rw [update_of_ne (by omega)]
      exact s.fresh tx (by omega) }

def pend (s : State) (tx : ℕ) (w : Write) : State :=
  { s with
    txs := update s.txs tx ((s.txs tx).map (· ++ [w]))
    fresh := by
      intro tx' htx'
      by_cases h : tx' = tx
      · subst h
        simp [s.fresh _ htx']
      · rw [update_of_ne h]
        exact s.fresh _ htx' }

/-- Ends a transaction; its changes stay where it is committed. -/
def conclude (s : State) (tx : ℕ) (committed : Bool) : State :=
  { s with
    tables := if committed then s.view tx else s.tables
    txs := update s.txs tx none
    fresh := by
      intro tx' htx'
      by_cases h : tx' = tx
      · subst h
        simp
      · rw [update_of_ne h]
        exact s.fresh _ htx' }

@[simp] theorem begin_txs (s : State) :
    s.begin.txs = update s.txs s.opened (some []) := rfl

@[simp] theorem pend_txs (s : State) (tx : ℕ) (w : Write) :
    (s.pend tx w).txs = update s.txs tx ((s.txs tx).map (· ++ [w])) := rfl

@[simp] theorem conclude_txs (s : State) (tx : ℕ) (committed : Bool) :
    (s.conclude tx committed).txs = update s.txs tx none := rfl

def holds (s : State) (tenantID : String) (d : Digest) : Prop :=
  ∃ b ∈ s.blobs, b.tenantID = tenantID ∧ b.digest = d

instance (s : State) (tenantID : String) (d : Digest) : Decidable (s.holds tenantID d) :=
  inferInstanceAs (Decidable (∃ b ∈ s.blobs, b.tenantID = tenantID ∧ b.digest = d))

def remove (s : State) (tenantID : String) (d : Digest) : State :=
  { s with blobs := s.blobs.filter fun b => ¬ (b.tenantID = tenantID ∧ b.digest = d) }

/-- Bytes that are stored already are left as they are. -/
def store (s : State) (b : Blob) : State :=
  if s.holds b.tenantID b.digest then s else { s with blobs := s.blobs ++ [b] }

end State

/-! ### Calls -/

inductive CommitRes where
  | ok
  | failed (landed : Bool)

inductive DeleteRes where
  | removed
  | notFound
  | failed (gone : Bool)
deriving DecidableEq

/-- A store that fails may have stored the bytes all the same. -/
inductive PutRes where
  | stored (d : Digest)
  | failed (landed : Option Digest)

/-- The calls of the store and the database. The last ones are of others than the programs
below: the log of a run, the cache, uploads and definitions grow beside them, and the database
ends the transaction of a process that is gone. -/
inductive CasOp where
  | now
  | listRuns (tenantID : String)
  | replay (tenantID runID : String)
  | begin
  | commit (tx : ℕ)
  | rollback (tx : ℕ)
  | readRefs (tx : ℕ) (tenantID : String)
  | readFiles (tx : ℕ) (tenantID : String)
  | readRevisions (tx : ℕ) (tenantID : String)
  | readEntries (tx : ℕ) (tenantID : String)
  | addRef (tx : ℕ) (ref : Ref)
  | dropRefs (tx : ℕ) (tenantID runID : String)
  | dropEntry (tx : ℕ) (tenantID key : String)
  | dropFile (tx : ℕ) (tenantID digest : String)
  | has (tenantID : String) (d : Digest)
  | put (tenantID : String) (content : Bytes)
  | delete (tenantID : String) (d : Digest)
  | selectQuota (tenantID : String)
  | sumUsage (tenantID : String) (kind : UsageKind)
  | chargedUsage (tenantID : String) (kind : UsageKind) (hex : String)
  | insertUsage (row : Row)
  | append (tenantID runID : String) (e : LogEvent)
  | recordEntry (entry : Entry)
  | recordFile (file : FileRow)
  | saveRevision (revision : Revision)
  | abandon (tx : ℕ)
deriving DecidableEq

def CasOp.Res : CasOp → Type
  | .now => ℤ
  | .listRuns _ => Option (List String)
  | .replay .. => Option (List LogEvent)
  | .begin => Option ℕ
  | .commit _ => CommitRes
  | .rollback _ => Unit
  | .readRefs .. => Option (List (String × String))
  | .readFiles .. => Option (List (String × Option ℤ))
  | .readRevisions .. => Option (List Bytes)
  | .readEntries .. => Option (List (String × Bytes))
  | .addRef .. => Bool
  | .dropRefs .. => Bool
  | .dropEntry .. => Bool
  | .dropFile .. => Bool
  | .has .. => Option Bool
  | .put .. => PutRes
  | .delete .. => DeleteRes
  | .selectQuota _ => Option (Option Quota)
  | .sumUsage .. => Option ℤ
  | .chargedUsage .. => Option ℤ
  | .insertUsage _ => InsertRes
  | .append .. => Unit
  | .recordEntry _ => Unit
  | .recordFile _ => Unit
  | .saveRevision _ => Unit
  | .abandon _ => Unit

abbrev casSig : Sig where
  Op := CasOp
  Res := CasOp.Res

abbrev CasEvent := Interleave.Event casSig

abbrev CasHistory := List (Act casSig)

/-! ### The world -/

inductive Dialect where
  | sqlite
  | postgres
deriving DecidableEq

/-- What the store and the database are set up with. `sum` is SHA-256 in hex. -/
structure Setting where
  dialect : Dialect
  sum : Bytes → String
  quotas : String → Option Quota

def Ledger.sumUsage (ledger : Ledger) (tenantID : String) (kind : UsageKind) : ℤ :=
  ((ledger.filter (Row.counts tenantID kind)).map (·.usage.quantity)).sum

def Ledger.charged (ledger : Ledger) (tenantID : String) (kind : UsageKind) (hex : String) : ℤ :=
  ((ledger.filter fun row => row.counts tenantID kind ∧ row.usage.stepID = hex).map
    (·.usage.quantity)).sum

/-- What a call may be answered. Rows come in any order. -/
def answers (c : Setting) (s : State) : CasEvent → Prop
  | ⟨.now, t⟩ => s.clock ≤ t
  | ⟨.listRuns tenantID, some runs⟩ =>
    ∀ run, run ∈ runs ↔ ∃ ref ∈ s.tables.refs, ref.tenantID = tenantID ∧ ref.runID = run
  | ⟨.replay tenantID runID, some events⟩ => events = s.log tenantID runID
  | ⟨.begin, some tx⟩ =>
    tx = s.opened ∧ (c.dialect = .sqlite → ∀ other < s.opened, s.isOpen other = false)
  | ⟨.commit tx, .ok⟩ => s.isOpen tx
  | ⟨.commit tx, .failed true⟩ => s.isOpen tx
  | ⟨.readRefs tx tenantID, some rows⟩ =>
    s.isOpen tx ∧ ∀ digest run, (digest, run) ∈ rows ↔ ⟨tenantID, digest, run⟩ ∈ (s.view tx).refs
  | ⟨.readFiles tx tenantID, some rows⟩ =>
    s.isOpen tx ∧ ∀ digest at_, (digest, at_) ∈ rows ↔ ⟨tenantID, digest, at_⟩ ∈ (s.view tx).files
  | ⟨.readRevisions tx tenantID, some rows⟩ =>
    s.isOpen tx ∧ ∀ definition, definition ∈ rows ↔ ⟨tenantID, definition⟩ ∈ (s.view tx).revisions
  | ⟨.readEntries tx tenantID, some rows⟩ =>
    s.isOpen tx ∧ ∀ key outputs, (key, outputs) ∈ rows ↔ ⟨tenantID, key, outputs⟩ ∈ (s.view tx).entries
  | ⟨.addRef tx _, true⟩ => s.isOpen tx
  | ⟨.dropRefs tx .., true⟩ => s.isOpen tx
  | ⟨.dropEntry tx .., true⟩ => s.isOpen tx
  | ⟨.dropFile tx .., true⟩ => s.isOpen tx
  | ⟨.has tenantID d, some b⟩ => b = decide (s.holds tenantID d)
  | ⟨.put _ content, .stored d⟩ => d = ⟨"sha256", c.sum content⟩
  | ⟨.put _ content, .failed (some d)⟩ => d = ⟨"sha256", c.sum content⟩
  | ⟨.delete tenantID d, .removed⟩ => s.holds tenantID d
  | ⟨.delete tenantID d, .notFound⟩ => ¬ s.holds tenantID d
  | ⟨.selectQuota tenantID, some q⟩ => q = c.quotas tenantID
  | ⟨.sumUsage tenantID kind, some n⟩ => n = Ledger.sumUsage s.ledger tenantID kind
  | ⟨.chargedUsage tenantID kind hex, some n⟩ => n = Ledger.charged s.ledger tenantID kind hex
  | ⟨.insertUsage row, .affected new⟩ => new = !decide (s.ledger.Has row.key)
  | _ => True

def next (s : State) : CasEvent → State
  | ⟨.now, t⟩ => { s with clock := t }
  | ⟨.begin, some _⟩ => s.begin
  | ⟨.commit tx, .ok⟩ => s.conclude tx true
  | ⟨.commit tx, .failed landed⟩ => s.conclude tx landed
  | ⟨.rollback tx, _⟩ => s.conclude tx false
  | ⟨.abandon tx, _⟩ => s.conclude tx false
  | ⟨.addRef tx ref, true⟩ => s.pend tx (.addRef ref)
  | ⟨.dropRefs tx tenantID runID, true⟩ =>
    s.pend tx (.dropRefs ((s.view tx).refs.filter fun r => r.tenantID = tenantID ∧ r.runID = runID))
  | ⟨.dropEntry tx tenantID key, true⟩ =>
    s.pend tx (.dropEntries ((s.view tx).entries.filter fun r => r.tenantID = tenantID ∧ r.key = key))
  | ⟨.dropFile tx tenantID digest, true⟩ =>
    s.pend tx (.dropFiles ((s.view tx).files.filter fun r =>
      r.tenantID = tenantID ∧ r.digest = digest))
  | ⟨.put tenantID content, .stored d⟩ => s.store ⟨tenantID, d, content.length⟩
  | ⟨.put tenantID content, .failed (some d)⟩ => s.store ⟨tenantID, d, content.length⟩
  | ⟨.delete tenantID d, .removed⟩ => s.remove tenantID d
  | ⟨.delete tenantID d, .failed true⟩ => s.remove tenantID d
  | ⟨.insertUsage row, .affected _⟩ => { s with ledger := s.ledger.insert row }
  | ⟨.insertUsage row, .failed true _⟩ => { s with ledger := s.ledger.insert row }
  | ⟨.append tenantID runID e, _⟩ =>
    { s with log := fun t r => if t = tenantID ∧ r = runID then s.log t r ++ [e] else s.log t r }
  | ⟨.recordEntry entry, _⟩ =>
    { s with tables.entries := entry :: s.tables.entries.filter fun r =>
        ¬ (r.tenantID = entry.tenantID ∧ r.key = entry.key) }
  | ⟨.recordFile file, _⟩ =>
    { s with tables.files := file :: s.tables.files.filter fun r =>
        ¬ (r.tenantID = file.tenantID ∧ r.digest = file.digest) }
  | ⟨.saveRevision revision, _⟩ =>
    { s with tables.revisions := revision :: s.tables.revisions }
  | _ => s

abbrev casWorld (c : Setting) (st : Store) : World casSig where
  State := State
  init := st.atRest
  Answers := answers c
  next := next

def honest (c : Setting) (_ : ℕ) (s : State) : (op : CasOp) → casSig.Res op
  | .now => s.clock
  | .listRuns tenantID => some ((s.tables.refs.filter (·.tenantID = tenantID)).map (·.runID))
  | .replay tenantID runID => some (s.log tenantID runID)
  | .begin =>
    if c.dialect = .sqlite → ∀ other < s.opened, s.isOpen other = false then some s.opened else none
  | .commit tx => if s.isOpen tx then .ok else .failed false
  | .rollback _ => ()
  | .readRefs tx tenantID =>
    if s.isOpen tx then
      some (((s.view tx).refs.filter (·.tenantID = tenantID)).map fun r => (r.digest, r.runID))
    else none
  | .readFiles tx tenantID =>
    if s.isOpen tx then
      some (((s.view tx).files.filter (·.tenantID = tenantID)).map fun r => (r.digest, r.uploadedAt))
    else none
  | .readRevisions tx tenantID =>
    if s.isOpen tx then
      some (((s.view tx).revisions.filter (·.tenantID = tenantID)).map (·.definition))
    else none
  | .readEntries tx tenantID =>
    if s.isOpen tx then
      some (((s.view tx).entries.filter (·.tenantID = tenantID)).map fun r => (r.key, r.outputs))
    else none
  | .addRef tx _ => s.isOpen tx
  | .dropRefs tx .. => s.isOpen tx
  | .dropEntry tx .. => s.isOpen tx
  | .dropFile tx .. => s.isOpen tx
  | .has tenantID d => some (s.holds tenantID d)
  | .put _ content => .stored ⟨"sha256", c.sum content⟩
  | .delete tenantID d => if s.holds tenantID d then .removed else .notFound
  | .selectQuota tenantID => some (c.quotas tenantID)
  | .sumUsage tenantID kind => some (Ledger.sumUsage s.ledger tenantID kind)
  | .chargedUsage tenantID kind hex => some (Ledger.charged s.ledger tenantID kind hex)
  | .insertUsage row => .affected (!decide (s.ledger.Has row.key))
  | .append .. => ()
  | .recordEntry _ => ()
  | .recordFile _ => ()
  | .saveRevision _ => ()
  | .abandon _ => ()

theorem mem_rows {α β : Type} {l : List α} {p : α → Bool} {f : α → β} {a : α} {b : β}
    (hf : ∀ x, p x = true ∧ f x = b ↔ x = a) : b ∈ (l.filter p).map f ↔ a ∈ l := by
  simp only [mem_map, mem_filter, and_assoc, hf, exists_eq_right]

theorem honest_answers (c : Setting) (n : ℕ) (s : State) (op : CasOp) :
    answers c s ⟨op, honest c n s op⟩ := by
  cases op with
  | now => exact le_rfl
  | listRuns t => simp [answers, honest, and_assoc]
  | begin => exact answers_ite (A := answers c s) .begin (fun hn => ⟨rfl, hn⟩) fun _ => trivial
  | commit tx => exact answers_ite (A := answers c s) (.commit tx) id fun _ => trivial
  | readRefs tx t | readFiles tx t | readRevisions tx t | readEntries tx t =>
    refine answers_ite _ (fun ho => ⟨ho, ?_⟩) fun _ => trivial
    intros
    exact mem_rows fun x => by cases x; simp
  | addRef tx | dropRefs tx | dropEntry tx | dropFile tx =>
    cases ho : s.isOpen tx <;> simp [answers, honest, ho]
  | delete t d => exact answers_ite (A := answers c s) (.delete t d) id id
  | replay | has | put | selectQuota | sumUsage | chargedUsage | insertUsage => rfl
  | rollback | append | recordEntry | recordFile | saveRevision | abandon => trivial

/-! ### What a step can do -/

/-- The change a statement of a transaction makes. -/
inductive Pends (s : State) (tx : ℕ) : Write → CasEvent → Prop
  | addRef (ref : Ref) : Pends s tx (.addRef ref) ⟨.addRef tx ref, true⟩
  | dropRefs (t r : String) :
      Pends s tx (.dropRefs ((s.view tx).refs.filter fun ref => ref.tenantID = t ∧ ref.runID = r))
        ⟨.dropRefs tx t r, true⟩
  | dropEntries (t key : String) :
      Pends s tx (.dropEntries ((s.view tx).entries.filter fun e => e.tenantID = t ∧ e.key = key))
        ⟨.dropEntry tx t key, true⟩
  | dropFiles (t digest : String) :
      Pends s tx (.dropFiles ((s.view tx).files.filter fun f => f.tenantID = t ∧ f.digest = digest))
        ⟨.dropFile tx t digest, true⟩

inductive Concludes (tx : ℕ) : Bool → CasEvent → Prop
  | ok : Concludes tx true ⟨.commit tx, .ok⟩
  | failed (landed : Bool) : Concludes tx landed ⟨.commit tx, .failed landed⟩
  | rollback : Concludes tx false ⟨.rollback tx, ()⟩
  | abandon : Concludes tx false ⟨.abandon tx, ()⟩

/-- A step leaves references and transactions alone, begins a transaction, makes a change in one
or ends one. -/
theorem next_cases (s : State) (e : CasEvent) :
    ((next s e).tables.refs = s.tables.refs ∧ (next s e).txs = s.txs ∧
        (next s e).opened = s.opened) ∨ (∃ tx, e = ⟨.begin, some tx⟩ ∧ next s e = s.begin) ∨
      (∃ tx w, Pends s tx w e ∧ next s e = s.pend tx w) ∨
      ∃ tx committed, Concludes tx committed e ∧ next s e = s.conclude tx committed := by
  obtain ⟨op, r⟩ := e
  cases op with
  | now | listRuns | replay | readRefs | readFiles | readRevisions | readEntries | has | selectQuota
  | sumUsage | chargedUsage | append | recordEntry | recordFile | saveRevision =>
    exact .inl ⟨rfl, rfl, rfl⟩
  | begin =>
    cases (r : Option ℕ) with
    | none => exact .inl ⟨rfl, rfl, rfl⟩
    | some tx => exact .inr (.inl ⟨tx, rfl, rfl⟩)
  | commit tx =>
    cases (r : CommitRes) with
    | ok => exact .inr (.inr (.inr ⟨tx, true, .ok, rfl⟩))
    | failed landed => exact .inr (.inr (.inr ⟨tx, landed, .failed landed, rfl⟩))
  | rollback tx => exact .inr (.inr (.inr ⟨tx, false, .rollback, rfl⟩))
  | abandon tx => exact .inr (.inr (.inr ⟨tx, false, .abandon, rfl⟩))
  | addRef tx ref =>
    cases (r : Bool) with
    | false => exact .inl ⟨rfl, rfl, rfl⟩
    | true => exact .inr (.inr (.inl ⟨tx, _, .addRef ref, rfl⟩))
  | dropRefs tx t run =>
    cases (r : Bool) with
    | false => exact .inl ⟨rfl, rfl, rfl⟩
    | true => exact .inr (.inr (.inl ⟨tx, _, .dropRefs t run, rfl⟩))
  | dropEntry tx t key =>
    cases (r : Bool) with
    | false => exact .inl ⟨rfl, rfl, rfl⟩
    | true => exact .inr (.inr (.inl ⟨tx, _, .dropEntries t key, rfl⟩))
  | dropFile tx t di =>
    cases (r : Bool) with
    | false => exact .inl ⟨rfl, rfl, rfl⟩
    | true => exact .inr (.inr (.inl ⟨tx, _, .dropFiles t di, rfl⟩))
  | put t co =>
    refine .inl ?_
    rcases (r : PutRes) with d | (_ | d)
    · simp only [next, State.store]
      split <;> exact ⟨rfl, rfl, rfl⟩
    · exact ⟨rfl, rfl, rfl⟩
    · simp only [next, State.store]
      split <;> exact ⟨rfl, rfl, rfl⟩
  | delete t d =>
    refine .inl ?_
    rcases (r : DeleteRes) with _ | _ | (_ | _) <;> exact ⟨rfl, rfl, rfl⟩
  | insertUsage row =>
    refine .inl ?_
    rcases (r : InsertRes) with new | ⟨_ | _, cause⟩ <;> exact ⟨rfl, rfl, rfl⟩

variable {c : Setting} {s : State} {e : CasEvent} {tx : ℕ}

theorem clock_log_next : ((next s e).clock = s.clock ∨ ∃ t, e = ⟨.now, t⟩ ∧ (next s e).clock = t) ∧
    ∀ t r, (∀ ev, e.op ≠ CasOp.append t r ev) → (next s e).log t r = s.log t r := by
  obtain ⟨op, res⟩ := e
  cases op with
  | now => exact ⟨.inr ⟨res, rfl, rfl⟩, fun _ _ _ => rfl⟩
  | append t' r' ev =>
    refine ⟨.inl rfl, fun t r h => ?_⟩
    have hne : ¬ (t = t' ∧ r = r') := by
      rintro ⟨rfl, rfl⟩
      exact h ev rfl
    simp [next, hne]
  | put t co =>
    rcases (res : PutRes) with d | (_ | d)
    · simp only [next, State.store]
      split <;> exact ⟨.inl rfl, fun _ _ _ => rfl⟩
    · exact ⟨.inl rfl, fun _ _ _ => rfl⟩
    · simp only [next, State.store]
      split <;> exact ⟨.inl rfl, fun _ _ _ => rfl⟩
  | begin => rcases (res : Option ℕ) with _ | _ <;> exact ⟨.inl rfl, fun _ _ _ => rfl⟩
  | commit => rcases (res : CommitRes) with _ | _ <;> exact ⟨.inl rfl, fun _ _ _ => rfl⟩
  | addRef | dropRefs | dropEntry | dropFile =>
    rcases (res : Bool) with _ | _ <;> exact ⟨.inl rfl, fun _ _ _ => rfl⟩
  | delete => rcases (res : DeleteRes) with _ | _ | (_ | _) <;> exact ⟨.inl rfl, fun _ _ _ => rfl⟩
  | insertUsage =>
    rcases (res : InsertRes) with _ | ⟨_ | _, _⟩ <;> exact ⟨.inl rfl, fun _ _ _ => rfl⟩
  | _ => exact ⟨.inl rfl, fun _ _ _ => rfl⟩

theorem log_next {t r : String} (h : ∀ ev, e.op ≠ CasOp.append t r ev) :
    (next s e).log t r = s.log t r := clock_log_next.2 t r h

theorem clock_le_next (h : answers c s e) : s.clock ≤ (next s e).clock := by
  obtain heq | ⟨t, rfl, heq⟩ := (clock_log_next (s := s) (e := e)).1
  · exact heq.ge
  · exact heq ▸ h

theorem txs_next {ws : List Write} (h : (next s e).txs tx = some ws) : s.txs tx = some ws ∨
    (tx = s.opened ∧ ws = []) ∨ ∃ w ws', Pends s tx w e ∧ s.txs tx = some ws' ∧ ws = ws' ++ [w] := by
  obtain ⟨-, heq, -⟩ | ⟨_, -, heq⟩ | ⟨tx', w, hp, heq⟩ | ⟨tx', _, -, heq⟩ := next_cases s e
  · exact .inl (heq ▸ h)
  · rw [heq, State.begin_txs] at h
    by_cases hne : tx = s.opened
    · rw [hne, update_self] at h
      exact .inr (.inl ⟨hne, (Option.some.inj h).symm⟩)
    · exact .inl (by rwa [update_of_ne hne] at h)
  · rw [heq, State.pend_txs] at h
    by_cases hne : tx = tx'
    · subst hne
      rw [update_self] at h
      obtain ⟨ws', hws', rfl⟩ := Option.map_eq_some_iff.mp h
      exact .inr (.inr ⟨w, ws', hp, hws', rfl⟩)
    · exact .inl (by rwa [update_of_ne hne] at h)
  · rw [heq, State.conclude_txs] at h
    by_cases hne : tx = tx'
    · rw [hne, update_self] at h
      cases h
    · exact .inl (by rwa [update_of_ne hne] at h)

theorem opened_le_next : s.opened ≤ (next s e).opened := by
  obtain ⟨-, -, heq⟩ | ⟨_, -, heq⟩ | ⟨_, _, -, heq⟩ | ⟨_, _, -, heq⟩ := next_cases s e
  · exact heq.ge
  · rw [heq]
    exact Nat.le_succ _
  · rw [heq]
    exact le_rfl
  · rw [heq]
    exact le_rfl

theorem isOpen_of_next (htx : tx < s.opened) (h : (next s e).isOpen tx) : s.isOpen tx := by
  obtain ⟨ws, hws⟩ := Option.isSome_iff_exists.mp h
  obtain hold | ⟨rfl, -⟩ | ⟨_, _, -, hold, -⟩ := txs_next hws
  · exact Option.isSome_of_eq_some hold
  · exact absurd htx (lt_irrefl _)
  · exact Option.isSome_of_eq_some hold

/-! ### References that stay -/

variable {ref : Ref} {t : Tables} {ws : List Write}

/-- No open transaction is about to drop the reference. -/
def Safe (ref : Ref) (s : State) : Prop :=
  ∀ tx ws rows, s.txs tx = some ws → .dropRefs rows ∈ ws → ref ∉ rows

theorem mem_foldl_apply (hm : ref ∈ t.refs ∨ .addRef ref ∈ ws)
    (hd : ∀ rows, .dropRefs rows ∈ ws → ref ∉ rows) : ref ∈ (ws.foldl Tables.apply t).refs := by
  induction ws generalizing t with
  | nil => simpa using hm
  | cons w ws ih =>
    refine ih ?_ fun rows hr => hd rows (mem_cons_of_mem _ hr)
    rcases hm with hm | hm
    · refine .inl ?_
      cases w with
      | addRef ref' =>
        simp only [Tables.apply]
        split
        · exact hm
        · exact mem_append_left _ hm
      | dropRefs rows =>
        exact mem_filter.mpr ⟨hm, by simpa using hd rows mem_cons_self⟩
      | dropEntries | dropFiles => exact hm
    · rcases mem_cons.mp hm with rfl | hm
      · refine .inl ?_
        simp only [Tables.apply]
        split
        · assumption
        · exact mem_concat_self
      · exact .inr hm

theorem mem_view (hm : ref ∈ s.tables.refs) (hs : Safe ref s) : ref ∈ (s.view tx).refs := by
  refine mem_foldl_apply (.inl hm) fun rows hr => ?_
  cases htx : s.txs tx with
  | none => simp [htx] at hr
  | some ws =>
    rw [htx] at hr
    exact hs tx ws rows htx hr

theorem Safe.next (hs : Safe ref s)
    (he : ∀ tx, e ≠ ⟨.dropRefs tx ref.tenantID ref.runID, true⟩) : Safe ref (next s e) := by
  intro tx ws rows hws hr
  obtain hold | ⟨-, rfl⟩ | ⟨w, ws', hp, hold, rfl⟩ := txs_next hws
  · exact hs tx ws rows hold hr
  · cases hr
  rcases mem_append.mp hr with hr | hr
  · exact hs tx ws' rows hold hr
  obtain rfl := mem_singleton.mp hr
  cases hp with
  | dropRefs t r =>
    intro hm
    obtain ⟨rfl, rfl⟩ := of_decide_eq_true (mem_filter.mp hm).2
    exact he tx rfl

theorem mem_refs_next (hm : ref ∈ s.tables.refs) (hs : Safe ref s) :
    ref ∈ (next s e).tables.refs := by
  obtain ⟨heq, -, -⟩ | ⟨_, -, heq⟩ | ⟨_, _, -, heq⟩ | ⟨tx, committed, -, heq⟩ := next_cases s e
  · rwa [heq]
  · rwa [heq]
  · rwa [heq]
  · rw [heq]
    cases committed with
    | false => exact hm
    | true => exact mem_view hm hs

theorem mem_refs_conclude (hws : s.txs tx = some ws) (ha : .addRef ref ∈ ws)
    (hs : Safe ref s) : ref ∈ (s.conclude tx true).tables.refs := by
  rw [State.conclude, State.view, hws]
  exact mem_foldl_apply (.inr ha) fun rows hr => hs tx ws rows hws hr

theorem adds_next (hws : s.txs tx = some ws) (ha : .addRef ref ∈ ws)
    (ho : (next s e).isOpen tx) : ∃ ws', (next s e).txs tx = some ws' ∧ .addRef ref ∈ ws' := by
  have htx : tx < s.opened := State.lt_of_isOpen (by simp [State.isOpen, hws])
  obtain ⟨ws', hws'⟩ := Option.isSome_iff_exists.mp ho
  refine ⟨ws', hws', ?_⟩
  obtain hold | ⟨rfl, -⟩ | ⟨_, _, -, hold, rfl⟩ := txs_next hws'
  · exact Option.some.inj (hws.symm.trans hold) ▸ ha
  · exact absurd htx (lt_irrefl _)
  · exact mem_append_left _ (Option.some.inj (hws.symm.trans hold) ▸ ha)

end Dhole.Cas
