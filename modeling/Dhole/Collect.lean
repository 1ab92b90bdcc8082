import Dhole.BlobIndex

/-! References and their collection. A step's output is referenced by its run; a collection ages
the runs that hold references from their logs, then opens a transaction, reads what still pins a
blob, drops the references of the aged runs and the cache entries of the blobs that are to go,
deletes these from the store and commits. A blob is deleted only when every run that was found
to hold it had been found silent for the whole window. -/

namespace Dhole.Cas

open Interleave Prog Lexical Wire Tenancy List

/-! ### Programs -/

inductive CasErr where
  | tenantRequired
  | runRequired
  | malformedDigest
  | cannotDelete
  | notFound (digest : String)
  | has
  | listRuns
  | replay (runID : String)
  | begin
  | addRef
  | readRefs
  | readFiles
  | readRevisions
  | decodeRevision
  | dropRefs
  | readEntries
  | dropEntry
  | malformedStored (freed : ℕ) (digest : String)
  | delete (freed : ℕ)
  | dropFile (freed : ℕ)
  | commit (freed : ℕ)
  | readCharge (freed : ℕ)
  | recordUsage (freed : ℕ)

abbrev CasM := ExceptT CasErr (Prog casSig)

def ask (op : CasOp) : CasM (casSig.Res op) := liftM (perform (S := casSig) op)

def clock : CasM ℤ := ask .now

def statement (op : CasOp) (ok : casSig.Res op → Bool) (err : CasErr) : CasM Unit := do
  if ok (← ask op) then pure () else throw err

def query {α : Type} (op : CasOp) (rows : casSig.Res op → Option α) (err : CasErr) : CasM α := do
  match rows (← ask op) with
  | some a => pure a
  | none => throw err

def CommitRes.isOk : CommitRes → Bool
  | .ok => true
  | .failed _ => false

def commit (tx : ℕ) (err : CasErr) : CasM Unit := statement (.commit tx) CommitRes.isOk err

/-- Runs a body and rolls its transaction back where it ends in an error. -/
def orRollback {α : Type} (tx : ℕ) (body : CasM α) : CasM α := do
  match ← (ExceptT.lift body.run : CasM (Except CasErr α)) with
  | .ok a => pure a
  | .error e => do
    let _ ← ask (.rollback tx)
    throw e

/-- How stored messages are read: the digest of an output, and those of the files of a
definition. -/
structure Codec where
  output : Bytes → Option (Option Digest)
  files : Bytes → Option (List (Option Digest))

/-- A collector: whether its store can delete, and whether somebody is told what it deleted. -/
structure GC where
  codec : Codec
  canDelete : Bool
  credits : Bool

variable (codec : Codec)

/-- `binary.BigEndian.Uint64`. -/
def uint64 (b : Bytes) : ℕ := b.foldl (fun n x => n * 256 + x.toNat) 0

/-- Reads length-framed outputs, and stops where it cannot read on. -/
def frames : ℕ → Bytes → List String
  | 0, _ => []
  | count + 1, rest =>
    if rest.length < 8 then []
    else
      let length := uint64 (rest.take 8)
      let rest := rest.drop 8
      if rest.length < length then []
      else
        match codec.output (rest.take length) with
        | none => []
        | some digest => (digestText digest).toList ++ frames count (rest.drop length)

def entryDigests (encoded : Bytes) : List String :=
  if encoded.length < 8 then [] else frames codec (uint64 (encoded.take 8)) (encoded.drop 8)

def definitionHashDomain : Bytes := utf8 "dhole.v1.Pipeline\x00"

def definitionBody (definition : Bytes) : Bytes :=
  if definitionHashDomain.isPrefixOf definition then
    definition.drop definitionHashDomain.length
  else definition

/-- The digests some revision carries; a definition that cannot be read gives none. -/
def carriedBy : List Bytes → Option (List String)
  | [] => some []
  | definition :: rest =>
    match codec.files (definitionBody definition), carriedBy rest with
    | some files, some carried => some (files.filterMap digestText ++ carried)
    | _, _ => none

/-- Which digests were seen, in order, and which of them something pins. -/
structure Pins where
  order : List String := []
  retained : List String := []

def Pins.see (p : Pins) (digest : String) (keep : Bool) : Pins where
  order := if digest ∈ p.order then p.order else p.order ++ [digest]
  retained := if keep then digest :: p.retained else p.retained

/-- The references of runs that are not expired pin, and so do the files uploaded since the
cutoff. -/
def pins (refs : List (String × String)) (expired : List String) (files : List (String × Option ℤ))
    (cutoff : ℤ) : Pins :=
  let seen := (refs.map fun r => (r.1, decide (r.2 ∉ expired))) ++
    files.map fun f => (f.1, f.2.all (cutoff ≤ ·))
  seen.foldl (fun p x => p.see x.1 x.2) {}

/-- The last event of a run lies before the cutoff; a run without events has no age. -/
def aged (cutoff : ℤ) : List LogEvent → Bool
  | [] => false
  | e :: events => events.foldl (fun last e => if last < e.at_ then e.at_ else last) e.at_ < cutoff

def ageRuns (tenantID : String) (cutoff : ℤ) : List String → CasM (List String)
  | [] => pure []
  | run :: runs => do
    let events ← query (.replay tenantID run) id (.replay run)
    let rest ← ageRuns tenantID cutoff runs
    pure (if aged cutoff events then run :: rest else rest)

def expiredRuns (tenantID : String) (retain : ℤ) : CasM (List String) := do
  let runs ← query (.listRuns tenantID) id .listRuns
  let now ← clock
  ageRuns tenantID (now - retain) runs

def unpinnedDigests (codec : Codec) (tx : ℕ) (tenantID : String) (expired : List String)
    (cutoff : ℤ) : CasM (List String) := do
  let refs ← query (.readRefs tx tenantID) id .readRefs
  let files ← query (.readFiles tx tenantID) id .readFiles
  let p := pins refs expired files cutoff
  let collectable := p.order.filter (· ∉ p.retained)
  if collectable = [] then pure []
  else do
    let definitions ← query (.readRevisions tx tenantID) id .readRevisions
    match carriedBy codec definitions with
    | none => throw .decodeRevision
    | some carried => pure (collectable.filter (· ∉ carried))

def dropAll (op : String → CasOp) (ok : (x : String) → casSig.Res (op x) → Bool) (err : CasErr) :
    List String → CasM Unit
  | [] => pure ()
  | x :: xs => do
    statement (op x) (ok x) err
    dropAll op ok err xs

def dropExpired (tx : ℕ) (tenantID : String) : List String → CasM Unit :=
  dropAll (.dropRefs tx tenantID) (fun _ ok => ok) .dropRefs

def dropCacheEntries (codec : Codec) (tx : ℕ) (tenantID : String) (collectable : List String) :
    CasM Unit :=
  if collectable = [] then pure ()
  else do
    let entries ← query (.readEntries tx tenantID) id .readEntries
    let stale := (entries.filter fun e => (entryDigests codec e.2).any (· ∈ collectable)).map Prod.fst
    dropAll (.dropEntry tx tenantID) (fun _ ok => ok) .dropEntry stale

def dropDefinitionBlobs (tx : ℕ) (tenantID : String) (freed : ℕ) : List String → CasM Unit :=
  dropAll (.dropFile tx tenantID) (fun _ ok => ok) (.dropFile freed)

structure Sweep where
  freed : ℕ := 0
  deleteErr : Option CasErr := none
  collected : List Digest := []
  reclaimed : List String := []

/-- Deletes blob after blob, up to the first that cannot be deleted. -/
def deleteBlobs (tenantID : String) : List String → Sweep → CasM Sweep
  | [], acc => pure acc
  | text :: rest, acc =>
    match parseDigestText text with
    | none => pure { acc with deleteErr := some (.malformedStored acc.freed text) }
    | some d => do
      match ← (ask (.delete tenantID d) : CasM DeleteRes) with
      | .notFound => deleteBlobs tenantID rest { acc with reclaimed := acc.reclaimed ++ [text] }
      | .failed _ => pure { acc with deleteErr := some (.delete acc.freed) }
      | .removed =>
        deleteBlobs tenantID rest
          { acc with
            freed := acc.freed + 1
            collected := acc.collected ++ [d]
            reclaimed := acc.reclaimed ++ [text] }

def insertOk : InsertRes → Bool
  | .affected _ => true
  | .failed .. => false

def recordUsage (tenantID : String) (u : Usage) (err : CasErr) : CasM Unit :=
  if tenantID = "" ∨ u.kind = .unset ∨ u.quantity < 0 ∨ u.at_ = zeroTime then throw err
  else statement (.insertUsage ⟨tenantID, u⟩) insertOk err

/-- Gives back what was charged for a blob that is gone. -/
def collectedBlob (tenantID : String) (freed : ℕ) (d : Digest) : CasM Unit :=
  if d.hex = "" then throw (.readCharge freed)
  else do
    let charged ← query (.chargedUsage tenantID .casBytes d.hex) id (.readCharge freed)
    if charged = 0 then pure ()
    else do
      let now ← clock
      recordUsage tenantID
        { kind := .casBytesReleased, stepID := d.hex, quantity := charged, at_ := now }
        (.recordUsage freed)

def creditAll (tenantID : String) (freed : ℕ) : List Digest → CasM Unit
  | [] => pure ()
  | d :: ds => do
    collectedBlob tenantID freed d
    creditAll tenantID freed ds

/-- The part of a collection that is inside its transaction. -/
def sweep (codec : Codec) (tx : ℕ) (tenantID : String) (retain : ℤ) (expired : List String) :
    CasM Sweep := do
  let now ← clock
  let collectable ← unpinnedDigests codec tx tenantID expired (now - retain)
  dropExpired tx tenantID expired
  dropCacheEntries codec tx tenantID collectable
  let swept ← deleteBlobs tenantID collectable {}
  dropDefinitionBlobs tx tenantID swept.freed swept.reclaimed
  commit tx (.commit swept.freed)
  pure swept

/-- Reclaims the blobs nothing pins any more; returns how many. -/
def collect (gc : GC) (tenantID : String) (retain : ℤ) : CasM ℕ :=
  if tenantID = "" then throw .tenantRequired
  else if gc.canDelete = false then throw .cannotDelete
  else do
    let expired ← expiredRuns tenantID retain
    let tx ← query .begin id .begin
    let swept ← orRollback tx (sweep gc.codec tx tenantID retain expired)
    match swept.deleteErr with
    | some e => throw e
    | none =>
      if gc.credits then do
        creditAll tenantID swept.freed swept.collected
        pure swept.freed
      else pure swept.freed

/-- Records that a run needs a blob the store holds. -/
def reference (tenantID : String) (d : Option Digest) (runID : String) : CasM Unit :=
  if tenantID = "" then throw .tenantRequired
  else if runID = "" then throw .runRequired
  else
    match d, digestText d with
    | some d, some text => do
      let tx ← query .begin id .begin
      orRollback tx do
        if ← query (.has tenantID d) id .has then
          statement (.addRef tx ⟨tenantID, text, runID⟩) id .addRef
          commit tx (.commit 0)
        else throw (.notFound text)
    | _, _ => throw .malformedDigest

/-! ### What is collectable -/

variable {p : Pins} {l : List (String × Bool)} {digest : String}

theorem mem_retained_foldl : digest ∈ (l.foldl (fun p x => p.see x.1 x.2) p).retained ↔
      digest ∈ p.retained ∨ (digest, true) ∈ l := by
  induction l generalizing p with
  | nil => simp
  | cons x l ih =>
    obtain ⟨d, keep⟩ := x
    rw [foldl_cons, ih]
    cases keep with
    | false => simp [Pins.see]
    | true => simp [Pins.see, or_assoc, or_left_comm]

theorem expired_of_not_retained {refs : List (String × String)} {exp : List String}
    {files : List (String × Option ℤ)} {cutoff : ℤ} {run : String}
    (hd : digest ∉ (pins refs exp files cutoff).retained) (hr : (digest, run) ∈ refs) :
    run ∈ exp := by
  by_contra hru
  refine hd (mem_retained_foldl.mpr (.inr (mem_append_left _ ?_)))
  exact mem_map.mpr ⟨_, hr, by simp [hru]⟩

theorem aged_iff {cutoff : ℤ} {es : List LogEvent} :
    aged cutoff es = true ↔ es ≠ [] ∧ ∀ e ∈ es, e.at_ < cutoff := by
  have hf : ∀ (es : List LogEvent) (last : ℤ),
      es.foldl (fun last e => if last < e.at_ then e.at_ else last) last < cutoff ↔
        last < cutoff ∧ ∀ e ∈ es, e.at_ < cutoff := by
    intro es
    induction es with
    | nil => simp
    | cons e es ih =>
      intro last
      rw [foldl_cons, ih, forall_mem_cons, ← and_assoc]
      refine and_congr_left fun _ => ?_
      split <;> omega
  cases es with
  | nil => simp [aged]
  | cons e es => simp [aged, hf]

/-! ### What a collection has seen -/

variable (tenantID tid : String) (retain ret : ℤ)

/-- The clock was read and then the log of the run, whose last event lay before the window. -/
def AgedRun (h : List CasEvent) (run : String) : Prop :=
  ∃ (now : ℤ) (events : List LogEvent) (h₀ h₁ : List CasEvent),
    h = h₀ ++ ⟨.replay tenantID run, some events⟩ :: h₁ ∧ (⟨.now, now⟩ : CasEvent) ∈ h₀ ∧
    aged (now - retain) events = true

/-- The references have been read in the transaction, and whoever holds a digest that is to go
has been aged. -/
structure Swept (tx : ℕ) (expired collectable : List String) (h : List CasEvent) : Prop where
  begun : (⟨.begin, some tx⟩ : CasEvent) ∈ h
  aged : ∀ run ∈ expired, AgedRun tenantID retain h run
  read : ∃ refs : List (String × String), (⟨.readRefs tx tenantID, some refs⟩ : CasEvent) ∈ h ∧
    ∀ text ∈ collectable, ∀ run, (text, run) ∈ refs → run ∈ expired

/-- The references of the aged runs are dropped, and the cache entries of what is to go. -/
structure Cleared (tx : ℕ) (expired collectable : List String) (h : List CasEvent) : Prop where
  refs : ∀ run ∈ expired, (⟨.dropRefs tx tenantID run, true⟩ : CasEvent) ∈ h
  entries : collectable ≠ [] →
    ∃ rows : List (String × Bytes), (⟨.readEntries tx tenantID, some rows⟩ : CasEvent) ∈ h ∧
      ∀ e ∈ rows, (∃ text ∈ entryDigests codec e.2, text ∈ collectable) →
        (⟨.dropEntry tx tenantID e.1, true⟩ : CasEvent) ∈ h

/-- Nothing has been committed, and of the tenant's blobs only some of these were deleted. -/
structure Deleting (collectable : List String) (h : List CasEvent) : Prop where
  uncommitted : ∀ e ∈ h, ∀ tx, e.op ≠ CasOp.commit tx
  deleted : ∀ t d r, (⟨.delete t d, r⟩ : CasEvent) ∈ h →
    t = tenantID ∧ ∃ text ∈ collectable, parseDigestText text = some d

def CasOp.aside : CasOp → Bool
  | .delete .. | .commit _ => false
  | _ => true

section Mono

variable {codec : Codec} {tenantID tid run : String} {retain ret : ℤ} {tx : ℕ}
  {exp col : List String} {h g : List CasEvent}

theorem AgedRun.append (ha : AgedRun tid ret h run) : AgedRun tid ret (h ++ g) run := by
  obtain ⟨now, es, h₀, h₁, rfl, hn, hag⟩ := ha
  exact ⟨now, es, h₀, h₁ ++ g, by simp, hn, hag⟩

theorem Swept.append (hs : Swept tid ret tx exp col h) :
    Swept tid ret tx exp col (h ++ g) where
  begun := mem_append_left _ hs.begun
  aged run hru := (hs.aged run hru).append
  read := by
    obtain ⟨refs, hr, he⟩ := hs.read
    exact ⟨refs, mem_append_left _ hr, he⟩

theorem Cleared.append (hc : Cleared codec tid tx exp col h) :
    Cleared codec tid tx exp col (h ++ g) where
  refs run hru := mem_append_left _ (hc.refs run hru)
  entries hne := by
    obtain ⟨rows, hr, hdr⟩ := hc.entries hne
    exact ⟨rows, mem_append_left _ hr, fun e he hdo => mem_append_left _ (hdr e he hdo)⟩

variable (hd : Deleting tid col h)

include hd

theorem Deleting.aside
    (hg : ∀ e ∈ g, CasOp.aside e.op = true) : Deleting tid col (h ++ g) where
  uncommitted e he tx hop := by
    rcases mem_append.mp he with he | he
    · exact hd.uncommitted e he tx hop
    · have := hg e he
      rw [hop] at this
      cases this
  deleted t d r he := by
    rcases mem_append.mp he with he | he
    · exact hd.deleted t d r he
    · cases hg _ he

theorem Deleting.mono {more : List String}
    (hs : col ⊆ more) : Deleting tid more h where
  uncommitted := hd.uncommitted
  deleted t d r he := by
    obtain ⟨rfl, text, ht, hp⟩ := hd.deleted t d r he
    exact ⟨rfl, text, hs ht, hp⟩

theorem Deleting.delete {text : String} {d : Digest} {r : casSig.Res (.delete tid d)} (ht : text ∈ col)
    (hp : parseDigestText text = some d) :
    Deleting tid col (h ++ [(⟨.delete tid d, r⟩ : CasEvent)]) where
  uncommitted e he tx hop := by
    rcases mem_append.mp he with he | he
    · exact hd.uncommitted e he tx hop
    · obtain rfl := mem_singleton.mp he
      cases hop
  deleted t d' r' he := by
    rcases mem_append.mp he with he | he
    · exact hd.deleted t d' r' he
    · cases mem_singleton.mp he
      exact ⟨rfl, text, ht, hp⟩

end Mono

/-! ### The calls of a collection -/

def CasOp.quiet : CasOp → Bool
  | .now | .listRuns _ | .replay .. | .begin | .rollback _ => true
  | .readRefs .. | .readFiles .. | .readRevisions .. | .readEntries .. => true
  | .dropEntry .. | .dropFile .. => true
  | .chargedUsage .. | .insertUsage _ => true
  | _ => false

/-- What a collection has seen when it drops references, deletes a blob or commits. -/
def Careful (codec : Codec) (tenantID : String) (retain : ℤ) (h : List CasEvent) : CasEvent → Prop
  | ⟨.dropRefs tx t run, _⟩ =>
    t = tenantID ∧ (⟨.begin, some tx⟩ : CasEvent) ∈ h ∧ AgedRun tenantID retain h run
  | ⟨.delete t d, _⟩ =>
    t = tenantID ∧ ∃ tx expired collectable text,
      Swept tenantID retain tx expired collectable h ∧ Deleting tenantID collectable h ∧
        text ∈ collectable ∧ parseDigestText text = some d
  | ⟨.commit tx, _⟩ =>
    ∃ expired collectable, Swept tenantID retain tx expired collectable h ∧
      Cleared codec tenantID tx expired collectable h ∧ Deleting tenantID collectable h
  | e => CasOp.quiet e.op = true

variable {codec : Codec} {tenantID tid : String} {retain ret : ℤ} {tx : ℕ} {h : List CasEvent}
  {exp col : List String} {α β : Type} {Q : List CasEvent → β → Prop}
  {G : List CasEvent → CasEvent → Prop} {op : CasOp} {err : CasErr}

theorem careful_of_quiet (hop : op.quiet = true) (r : casSig.Res op) :
    Careful codec tid ret h ⟨op, r⟩ := by
  cases op <;> first | exact hop | cases hop

theorem wpe_ask_bind {f : casSig.Res op → CasM β} :
    wpe G (ask op >>= f) Q h ↔ ∀ r, G h ⟨op, r⟩ ∧ wpe G (f r) Q (h ++ [⟨op, r⟩]) :=
  wpe_perform_bind

theorem wpe_statement {ok : casSig.Res op → Bool} {Q : List CasEvent → Unit → Prop}
    (hG : ∀ r, G h ⟨op, r⟩) (hQ : ∀ r, ok r = true → Q (h ++ [⟨op, r⟩]) ()) :
    wpe G (statement op ok err) Q h := by
  refine wpe_ask_bind.mpr fun r => ⟨hG r, ?_⟩
  split
  · rename_i hok
    exact (wpe_pure _).mpr (hQ r hok)
  · exact wpe_throw _

theorem wpe_query {rows : casSig.Res op → Option β} (hG : ∀ r, G h ⟨op, r⟩)
    (hQ : ∀ r a, rows r = some a → Q (h ++ [⟨op, r⟩]) a) : wpe G (query op rows err) Q h := by
  refine wpe_ask_bind.mpr fun r => ⟨hG r, ?_⟩
  split
  · rename_i a ha
    exact (wpe_pure _).mpr (hQ r a ha)
  · exact wpe_throw _

theorem wpe_orRollback {body : CasM β} (hG : ∀ g r, G g ⟨.rollback tx, r⟩)
    (hb : wpe G body Q h) : wpe G (orRollback tx body) Q h := by
  refine wpe_bind.mpr (wpe_lift.mpr (wp_mono hb ?_))
  rintro g (e | a) hq
  · exact wpe_ask_bind.mpr fun r => ⟨hG _ r, wpe_throw _⟩
  · exact (wpe_pure _).mpr (hq a rfl)

theorem wpe_ageRuns {cutoff : ℤ} (hc : (⟨.now, cutoff + ret⟩ : CasEvent) ∈ h)
    (runs : List String) : wpe (Careful codec tid ret) (ageRuns tid cutoff runs)
      (fun g exp => ∀ run ∈ exp, AgedRun tid ret g run) h := by
  induction runs generalizing h with
  | nil => exact (wpe_pure _).mpr fun run hru => (not_mem_nil hru).elim
  | cons run runs ih =>
    refine wpe_bind.mpr (wpe_query (careful_of_quiet rfl) fun r es hr => ?_)
    obtain rfl : r = some es := hr
    refine wpe_bind.mpr (wpe_mono (ih (mem_append_left _ hc)) fun g exp ha => ?_)
    refine (wpe_pure _).mpr fun x hx => ?_
    split at hx
    · rename_i hru
      rcases mem_cons.mp hx with rfl | hx
      · exact ⟨cutoff + ret, es, h, g, by simp, hc, by simpa using hru⟩
      · exact ha x hx
    · exact ha x hx

theorem wpe_expiredRuns : wpe (Careful codec tid ret) (expiredRuns tid ret)
      (fun g exp => ∀ run ∈ exp, AgedRun tid ret g run) h := by
  refine wpe_bind.mpr (wpe_query (careful_of_quiet rfl) fun r runs _ => ?_)
  refine wpe_ask_bind.mpr fun now => ⟨careful_of_quiet rfl _, wpe_ageRuns ?_ runs⟩
  have hn := sub_add_cancel (G := ℤ) now ret
  rw [hn]
  exact mem_concat_self

theorem wpe_unpinnedDigests {cutoff : ℤ} (hb : (⟨.begin, some tx⟩ : CasEvent) ∈ h)
    (ha : ∀ run ∈ exp, AgedRun tid ret h run) :
    wpe (Careful codec tid ret) (unpinnedDigests codec tx tid exp cutoff)
      (fun g col => Swept tid ret tx exp col g) h := by
  refine wpe_bind.mpr (wpe_query (careful_of_quiet rfl) fun r refs hr => ?_)
  obtain rfl : r = some refs := hr
  have hs : ∀ col : List String,
      (∀ text ∈ col, ∀ run, (text, run) ∈ refs → run ∈ exp) →
      Swept tid ret tx exp col
        (h ++ [(⟨.readRefs tx tid, some refs⟩ : CasEvent)]) := fun col he =>
    { begun := mem_append_left _ hb
      aged := fun run hru => (ha run hru).append
      read := ⟨refs, mem_concat_self, he⟩ }
  refine wpe_bind.mpr (wpe_query (careful_of_quiet rfl) fun r fi _ => ?_)
  dsimp only
  split
  · exact (wpe_pure _).mpr (hs [] (by simp)).append
  · refine wpe_bind.mpr (wpe_query (careful_of_quiet rfl) fun r definitions _ => ?_)
    split
    · exact wpe_throw _
    · refine (wpe_pure _).mpr (hs _ fun text ht run hre => ?_).append.append
      have hl := (mem_filter.mp (mem_filter.mp ht).1).2
      exact expired_of_not_retained (by simpa using hl) hre

theorem wpe_dropAll {op : String → CasOp} {ok : (x : String) → casSig.Res (op x) → Bool}
    {xs : List String} (hG : ∀ g x r, x ∈ xs → G (h ++ g) ⟨op x, r⟩) : wpe G (dropAll op ok err xs)
      (fun g _ => ∀ x ∈ xs, ∃ r, ok x r = true ∧ (⟨op x, r⟩ : CasEvent) ∈ g) h := by
  induction xs generalizing h with
  | nil => exact (wpe_pure _).mpr (by simp)
  | cons x xs ih =>
    refine wpe_bind.mpr (wpe_statement (fun r => ?_) fun r hr => ?_)
    · simpa using hG [] x r mem_cons_self
    · have hre := ih (h := h ++ [⟨op x, r⟩]) fun g y r' hy => by
        rw [append_assoc]
        exact hG _ y r' (mem_cons_of_mem _ hy)
      refine wpe_mono hre fun g _ hdo y hy => ?_
      rcases mem_cons.mp hy with rfl | hy
      · exact ⟨r, hr, by simp⟩
      · exact hdo y hy

theorem wpe_dropCacheEntries (hep : ∀ run ∈ exp, (⟨.dropRefs tx tid run, true⟩ : CasEvent) ∈ h) :
    wpe (Careful codec tid ret) (dropCacheEntries codec tx tid col)
      (fun g _ => Cleared codec tid tx exp col g) h := by
  unfold dropCacheEntries
  split
  · rename_i hn
    exact (wpe_pure _).mpr ⟨hep, fun hne => (hne hn).elim⟩
  · refine wpe_bind.mpr (wpe_query (careful_of_quiet rfl) fun r rows hr => ?_)
    obtain rfl : r = some rows := hr
    refine wpe_mono (wpe_dropAll fun g x r _ => careful_of_quiet rfl r) fun g _ hdr => ?_
    refine ⟨fun run hru => ?_, fun _ => ⟨rows, ?_, fun e he hdo => ?_⟩⟩
    · exact mem_append_left _ (mem_append_left _ (hep run hru))
    · exact mem_append_left _ mem_concat_self
    · have hs : e.1 ∈ (rows.filter fun e => (entryDigests codec e.2).any (· ∈ col)).map
          Prod.fst :=
        mem_map_of_mem (mem_filter.mpr ⟨he, by simpa using hdo⟩)
      obtain ⟨r, hok, hm⟩ := hdr e.1 hs
      obtain rfl : r = true := hok
      exact hm

theorem wpe_deleteBlobs {rest : List String} {acc : Sweep} (hs : Swept tid ret tx exp col h)
    (hde : Deleting tid col h) (hr : rest ⊆ col) :
    wpe (Careful codec tid ret) (deleteBlobs tid rest acc) (fun g _ => Deleting tid col g) h := by
  induction rest generalizing acc h with
  | nil => exact (wpe_pure _).mpr hde
  | cons text rest ih =>
    unfold deleteBlobs
    split
    · exact (wpe_pure _).mpr hde
    · rename_i d hp
      have ht : text ∈ col := hr mem_cons_self
      have hr' : rest ⊆ col := fun x hx => hr (mem_cons_of_mem _ hx)
      refine wpe_ask_bind.mpr fun r => ⟨⟨rfl, tx, exp, col, text, hs, hde, ht, hp⟩, ?_⟩
      have hde' := hde.delete (r := r) ht hp
      cases (r : DeleteRes) with
      | notFound | removed => exact ih hs.append hde' hr'
      | failed gone => exact (wpe_pure _).mpr hde'

/-! ### Calls aside -/

abbrev Aside (x : CasM α) : Prop := OnlyCalls (fun op => CasOp.aside op = true) x

theorem aside_ask (hop : op.aside = true) : Aside (ask op) :=
  .lift (Prog.Only.perform hop)

theorem aside_statement {ok : casSig.Res op → Bool} (hop : op.aside = true) :
    Aside (statement op ok err) := by
  refine .bind (aside_ask hop) fun r => ?_
  split
  · exact .pure _
  · exact .throw _

theorem aside_query {rows : casSig.Res op → Option α} (hop : op.aside = true) :
    Aside (query op rows err) := by
  refine .bind (aside_ask hop) fun r => ?_
  split
  · exact .pure _
  · exact .throw _

theorem aside_dropAll {op : String → CasOp} {ok : (x : String) → casSig.Res (op x) → Bool}
    (hop : ∀ x, (op x).aside = true) (xs : List String) : Aside (dropAll op ok err xs) := by
  induction xs with
  | nil => exact .pure _
  | cons x xs ih => exact .bind (aside_statement (hop x)) fun _ => ih

theorem aside_ageRuns (cutoff : ℤ) (runs : List String) : Aside (ageRuns tid cutoff runs) := by
  induction runs with
  | nil => exact .pure _
  | cons run runs ih => exact .bind (aside_query rfl) fun _ => .bind ih fun _ => .pure _

theorem aside_expiredRuns : Aside (expiredRuns tid ret) :=
  .bind (aside_query rfl) fun _ => .bind (aside_ask rfl) fun _ => aside_ageRuns _ _

theorem aside_unpinnedDigests (cutoff : ℤ) : Aside (unpinnedDigests codec tx tid exp cutoff) := by
  refine .bind (aside_query rfl) fun refs => .bind (aside_query rfl) fun fi => ?_
  dsimp only
  split
  · exact .pure _
  · refine .bind (aside_query rfl) fun definitions => ?_
    split
    · exact .throw _
    · exact .pure _

theorem aside_dropCacheEntries : Aside (dropCacheEntries codec tx tid col) := by
  unfold dropCacheEntries
  split
  · exact .pure _
  · exact .bind (aside_query rfl) fun _ => aside_dropAll (fun _ => rfl) _

/-! ### The whole collection -/

theorem quiet_creditAll {freed : ℕ} (ds : List Digest) :
    OnlyCalls (fun op => CasOp.quiet op = true) (creditAll tid freed ds) := by
  have hq : ∀ op : CasOp, op.quiet = true →
      OnlyCalls (fun op => CasOp.quiet op = true) (ask op) :=
    fun op hop => .lift (Prog.Only.perform hop)
  have hc : ∀ d, OnlyCalls (fun op => CasOp.quiet op = true)
      (collectedBlob tid freed d) := by
    intro d
    unfold collectedBlob recordUsage statement query
    split
    · exact .throw _
    · refine .bind (.bind (hq _ rfl) fun r => ?_) fun charged => ?_
      · split
        · exact .pure _
        · exact .throw _
      · split
        · exact .pure _
        · refine .bind (hq _ rfl) fun now => ?_
          split
          · exact .throw _
          · refine .bind (hq _ rfl) fun r => ?_
            split
            · exact .pure _
            · exact .throw _
  induction ds with
  | nil => exact .pure _
  | cons d ds ih => exact .bind (hc d) fun _ => ih

theorem wpe_sweep (hb : (⟨.begin, some tx⟩ : CasEvent) ∈ h)
    (hag : ∀ run ∈ exp, AgedRun tid ret h run) (hn : Deleting tid [] h) :
    wpe (Careful codec tid ret) (sweep codec tx tid ret exp) (fun _ _ => True) h := by
  refine wpe_ask_bind.mpr fun now => ⟨careful_of_quiet rfl _, ?_⟩
  have hn₁ : Deleting tid [] (h ++ [(⟨.now, now⟩ : CasEvent)]) :=
    hn.aside (by simp [CasOp.aside])
  refine wpe_bind_of_only (aside_unpinnedDigests _) (wpe_unpinnedDigests
    (mem_append_left _ hb) fun run hr => (hag run hr).append) ?_
  intro g₁ col ha₁ hs₁
  have hn₂ := (hn₁.aside ha₁).mono (nil_subset col)
  refine wpe_bind_of_only (aside_dropAll (fun _ => rfl) _) (wpe_dropAll fun g run r hr =>
    ⟨rfl, hs₁.append.begun, hs₁.append.aged run hr⟩) fun g₂ _ ha₂ hdr => ?_
  have he : ∀ run ∈ exp, (⟨.dropRefs tx tid run, true⟩ : CasEvent) ∈
      h ++ [(⟨.now, now⟩ : CasEvent)] ++ g₁ ++ g₂ := by
    intro run hr
    obtain ⟨r, hok, hm⟩ := hdr run hr
    obtain rfl : r = true := hok
    exact hm
  refine wpe_bind_of_only aside_dropCacheEntries (wpe_dropCacheEntries he)
    fun g₃ _ ha₃ hc => ?_
  have hs₃ := (hs₁.append (g := g₂)).append (g := g₃)
  have hn₃ := (hn₂.aside ha₂).aside ha₃
  refine wpe_bind.mpr (wpe_mono (wpe_deleteBlobs hs₃ hn₃ (Subset.refl _)) fun g₄ sw hde => ?_)
  refine wpe_bind_of_only (aside_dropAll (fun _ => rfl) _)
    (wpe_dropAll fun g _ r _ => careful_of_quiet rfl r) fun g₅ _ ha₅ _ => ?_
  refine wpe_seq (wpe_statement (fun r => ?_) fun _ _ => trivial) fun _ _ => wpe_done
  exact ⟨exp, col, hs₃.append.append, hc.append.append, hde.aside ha₅⟩

theorem wpe_collect {gc : GC} :
    wpe (Careful gc.codec tid ret) (collect gc tid ret) (fun _ _ => True) [] := by
  unfold collect
  split
  · exact wpe_throw _
  split
  · exact wpe_throw _
  have hn : Deleting tid [] [] := ⟨by simp, by simp⟩
  refine wpe_bind_of_only aside_expiredRuns wpe_expiredRuns fun g₁ exp ha₁ hag => ?_
  refine wpe_bind.mpr (wpe_query (careful_of_quiet rfl) fun r tx hr => ?_)
  obtain rfl : r = some tx := hr
  refine wpe_seq (wpe_orRollback (fun g r => careful_of_quiet rfl r) (wpe_sweep (by simp)
    (fun run hru => (hag run hru).append)
    ((hn.aside ha₁).aside (by simp [CasOp.aside])))) fun g₂ sw => ?_
  split
  · exact wpe_throw _
  split
  · refine wpe_seq (wpe_of_only ?_
      (quiet_creditAll _) _) fun _ _ => wpe_done
    exact fun g e he => careful_of_quiet he e.res
  · exact wpe_done

/-! ### Referencing -/

/-- What recording a reference has seen when it adds the row and when it commits. -/
def Referencing (tenantID : String) (d : Option Digest) (runID : String) (h : List CasEvent) :
    CasEvent → Prop
  | ⟨.addRef tx ref, _⟩ =>
    (⟨.begin, some tx⟩ : CasEvent) ∈ h ∧
      ref.tenantID = tenantID ∧ digestText d = some ref.digest ∧ ref.runID = runID
  | ⟨.commit tx, _⟩ => (⟨.begin, some tx⟩ : CasEvent) ∈ h ∧
      ∃ text, digestText d = some text ∧
        (⟨.addRef tx ⟨tenantID, text, runID⟩, true⟩ : CasEvent) ∈ h
  | e => match e.op with
    | CasOp.begin | CasOp.has .. | CasOp.rollback _ => True
    | _ => False

theorem wpe_reference {d : Option Digest} {rid : String} :
    wpe (Referencing tid d rid) (reference tid d rid) (fun _ _ => True) h := by
  unfold reference
  split
  · exact wpe_throw _
  split
  · exact wpe_throw _
  split
  · rename_i d text ht
    refine wpe_bind.mpr (wpe_query (fun _ => trivial) fun r tx hr => ?_)
    obtain rfl : r = some tx := hr
    have hb : ∀ g, (⟨.begin, some tx⟩ : CasEvent) ∈ h ++ [⟨.begin, some tx⟩] ++ g := by
      simp
    refine wpe_orRollback (fun _ _ => trivial) (wpe_bind.mpr (wpe_query (fun _ => trivial)
      fun r held _ => ?_))
    cases held with
    | false => exact wpe_throw _
    | true =>
      refine wpe_bind.mpr (wpe_statement (fun r => ⟨hb _, rfl, ht, rfl⟩) fun r hr => ?_)
      obtain rfl : r = true := hr
      refine wpe_statement (fun r => ⟨?_, text, ht, by simp⟩) fun _ _ => trivial
      rw [append_assoc]
      exact hb _
  · exact wpe_throw _

end Dhole.Cas
