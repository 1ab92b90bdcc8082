import Dhole.Operations
import Dhole.Transact

/-! The outbox. What is to be published is a row, written in the transaction of the event it
reports; a drain claims rows of its deployment, publishes them and marks those the bus took as
sent, all in one transaction of its own. A row is marked only after the bus took it, and the mark
stands only if that transaction is committed, so a row is owed until it is out. -/

namespace Dhole.Relay

open Interleave Prog Transact Wire List

/-! ### The table -/

structure Row where
  id : ℕ
  tenantID : String
  deploymentID : String
  subject : String
  payload : Bytes
  sent : Bool := false
deriving DecidableEq

structure Owed where
  id : ℕ
  subject : String
  payload : Bytes
deriving DecidableEq

def Row.owed (row : Row) : Owed := ⟨row.id, row.subject, row.payload⟩

def Row.done (row : Row) : Row := { row with sent := true }

inductive Write where
  | insert (row : Row)
  | sent (id : ℕ)

def apply (rows : List Row) : Write → List Row
  | .insert row => rows ++ [row]
  | .sent id => rows.map fun row => if row.id = id then row.done else row

inductive Query where
  | insert (tenantID deploymentID subject : String) (payload : Bytes)
  | claim (deploymentID : String) (limit : ℕ)
  | markSent (id : ℕ)

def Query.Ans : Query → Type
  | .insert .. => ℕ
  | .claim .. => List Owed
  | .markSent _ => Unit

/-- `WHERE sent_at IS NULL AND deployment_id = ? ORDER BY id`, past the rows others hold. -/
def unsent (rows : List Row) (held : ℕ → Bool) (deploymentID : String) : List Owed :=
  ((rows.filter fun row => row.sent = false ∧ row.deploymentID = deploymentID ∧
      held row.id = false).insertionSort fun a b => a.id ≤ b.id).map Row.owed

def answersQuery (rows : List Row) (held : ℕ → Bool) : (q : Query) → q.Ans → Prop
  | .insert .., id => id ∉ rows.map Row.id ∧ held id = false
  | .claim deploymentID limit, (claimed : List Owed) =>
    claimed.Sublist (unsent rows held deploymentID) ∧ claimed.length ≤ limit
  | .markSent id, _ => held id = false

def writesOf : (q : Query) → q.Ans → List Write
  | .insert tenantID deploymentID subject payload, id =>
    [.insert ⟨id, tenantID, deploymentID, subject, payload, false⟩]
  | .claim .., _ => []
  | .markSent id, _ => [.sent id]

def locksOf : (q : Query) → q.Ans → List ℕ
  | .insert .., id => [id]
  | .claim .., (claimed : List Owed) => claimed.map Owed.id
  | .markSent id, _ => [id]

abbrev schema : Schema where
  Tables := List Row
  Write := Write
  apply := apply
  Query := Query
  Ans := Query.Ans
  Lock := ℕ
  decLock := inferInstance
  answers := answersQuery
  writes _ := writesOf
  locks _ := locksOf

variable {rows : List Row} {held : ℕ → Bool} {ws : List Write} {row : Row} {deploymentID : String}

theorem mem_unsent {o : Owed} : o ∈ unsent rows held deploymentID ↔
    ∃ row ∈ rows, row.sent = false ∧ row.deploymentID = deploymentID ∧ held row.id = false ∧
      row.owed = o := by
  simp only [unsent, mem_map, mem_insertionSort, mem_filter, decide_eq_true_eq]
  constructor
  · rintro ⟨row, ⟨hr, hs, hd, hh⟩, rfl⟩
    exact ⟨row, hr, hs, hd, hh, rfl⟩
  · rintro ⟨row, hr, hs, hd, hh, rfl⟩
    exact ⟨row, ⟨hr, hs, hd, hh⟩, rfl⟩

theorem exclusive : schema.Exclusive := by
  intro rows held q r ha l hl
  cases q with
  | insert =>
    obtain rfl := mem_singleton.mp hl
    exact ha.2
  | claim deploymentID limit =>
    obtain ⟨o, ho, rfl⟩ := mem_map.mp hl
    obtain ⟨row, -, -, -, hh, rfl⟩ := mem_unsent.mp (ha.1.subset ho)
    exact hh
  | markSent id =>
    obtain rfl := mem_singleton.mp hl
    exact ha

def inserts (ws : List Write) : List Row := ws.filterMap fun w =>
  match w with
  | .insert row => some row
  | .sent _ => none

theorem mem_inserts : row ∈ inserts ws ↔ .insert row ∈ ws := by
  simp only [inserts, mem_filterMap]
  constructor
  · rintro ⟨w, hw, heq⟩
    cases w with
    | insert row' => cases heq; exact hw
    | sent id => cases heq
  · exact fun h => ⟨.insert row, h, rfl⟩

/-- A row after the changes was there or was inserted, and is as it was but for its mark. -/
theorem mem_foldl_apply (h : row ∈ ws.foldl apply rows) :
    ∃ row₀, (row₀ ∈ rows ∨ .insert row₀ ∈ ws) ∧
      (row = row₀ ∨ row = row₀.done ∧ .sent row₀.id ∈ ws) := by
  induction ws using reverseRecOn generalizing row with
  | nil => exact ⟨row, .inl h, .inl rfl⟩
  | append_singleton ws w ih =>
    rw [foldl_append] at h
    have hl : ∀ row, row ∈ ws.foldl apply rows →
        ∃ row₀, (row₀ ∈ rows ∨ .insert row₀ ∈ ws ++ [w]) ∧
          (row = row₀ ∨ row = row₀.done ∧ .sent row₀.id ∈ ws ++ [w]) := by
      intro row hr
      obtain ⟨row₀, hf, hm⟩ := ih hr
      exact ⟨row₀, hf.imp_right (mem_append_left _),
        hm.imp_right fun ⟨heq, hs⟩ => ⟨heq, mem_append_left _ hs⟩⟩
    cases w with
    | insert row' =>
      rcases mem_append.mp h with h | h
      · exact hl row h
      · obtain rfl := mem_singleton.mp h
        exact ⟨row, .inr (by simp), .inl rfl⟩
    | sent id =>
      obtain ⟨row', hr', heq⟩ := mem_map.mp h
      obtain ⟨row₀, hf, hm⟩ := hl row' hr'
      have hid : row'.id = row₀.id := by
        obtain rfl | ⟨rfl, -⟩ := hm <;> rfl
      by_cases hma : row'.id = id
      · rw [if_pos hma] at heq
        refine ⟨row₀, hf, .inr ⟨?_, ?_⟩⟩
        · rw [← heq]
          obtain rfl | ⟨rfl, -⟩ := hm <;> rfl
        · rw [← hid, hma]
          simp
      · rw [if_neg hma] at heq
        exact ⟨row₀, hf, heq ▸ hm⟩

theorem ids_foldl_apply (rows : List Row) (ws : List Write) :
    (ws.foldl apply rows).map Row.id = rows.map Row.id ++ (inserts ws).map Row.id := by
  induction ws using reverseRecOn with
  | nil => simp [inserts]
  | append_singleton ws w ih =>
    cases w with
    | insert row => simp [apply, ih, inserts]
    | sent id =>
      have hi : ∀ l : List Row, (apply l (.sent id)).map Row.id = l.map Row.id := by
        intro l
        rw [apply, map_map]
        refine map_congr_left fun row _ => ?_
        by_cases hid : row.id = id <;> simp [hid, Row.done]
      simp [hi, ih, inserts]

theorem foldl_apply_keeps (h : row ∈ rows) :
    row ∈ ws.foldl apply rows ∨ row.done ∈ ws.foldl apply rows := by
  induction ws using reverseRecOn with
  | nil => exact .inl h
  | append_singleton ws w ih =>
    rw [foldl_append]
    cases w with
    | insert row' => exact ih.imp (mem_append_left _) (mem_append_left _)
    | sent id =>
      by_cases hid : row.id = id
      · right
        rcases ih with ih | ih
        · exact mem_map.mpr ⟨row, ih, if_pos hid⟩
        · exact mem_map.mpr ⟨row.done, ih, if_pos hid⟩
      · rcases ih with ih | ih
        · exact .inl (mem_map.mpr ⟨row, ih, if_neg hid⟩)
        · exact .inr (mem_map.mpr ⟨row.done, ih, if_neg hid⟩)

/-! ### Publishing and draining -/

/-- What the bus came to with a message; one that failed may have gone out all the same. -/
inductive PubRes where
  | ok
  | failed (accepted : Bool) (cause : Text)

/-- A message to the bus of this name. The id is not part of the message: it says which row of
the outbox it was. -/
inductive BusOp where
  | publish (bus : String) (id : ℕ) (subject : String) (data : Bytes)

abbrev busSig : Sig where
  Op := BusOp
  Res _ := PubRes

structure Message where
  bus : String
  subject : String
  data : Bytes
deriving DecidableEq

abbrev busWorld : World busSig where
  State := List Message
  init := []
  Answers _ _ := True
  next
    | sent, ⟨.publish bus _ subject data, .ok⟩ => sent ++ [⟨bus, subject, data⟩]
    | sent, ⟨.publish bus _ subject data, .failed true _⟩ => sent ++ [⟨bus, subject, data⟩]
    | sent, _ => sent

abbrev relaySig : Sig := (txSig schema).sum busSig

abbrev RelayEvent := Interleave.Event relaySig

abbrev relayWorld (iso : Isolation) : World relaySig := (txWorld schema iso []).sum busWorld

abbrev RelayM := ExceptT Text (TxProg schema busSig)

/-- A message of which only the fields of no known number are set. -/
structure RawMessage where
  unknown : Bytes

/-- The encoding of a message without known fields is its unknown fields. -/
def RawMessage.marshal (msg : RawMessage) : Bytes := msg.unknown

def rawMessage (payload : Bytes) : RawMessage := ⟨payload⟩

structure Outbox where
  bus : String
  deploymentID : String
deriving DecidableEq

def drainBatch : ℕ := 100

def beginFailed : Text := ["begin transaction: failed"]

def commitFailed : Text := ["commit transaction: failed"]

namespace Outbox

def enqueue (o : Outbox) (tx : ℕ) (tenantID subject : String) (msg : Except Text Bytes) :
    RelayM Unit :=
  if tenantID = "" then throw (["tenant scope required"] : Text)
  else if subject = "" then throw (["outbox: subject required"] : Text)
  else if o.deploymentID = "" then throw (["outbox: deployment id required"] : Text)
  else match msg with
    | .error cause =>
      throw ([.lit "outbox: marshal for ", .quoted subject, .lit ": "] ++ cause : Text)
    | .ok payload => do
      let _ ← query (T := busSig) tx (D := schema) (.insert tenantID o.deploymentID subject payload)
        (["exec in transaction: failed"] : Text)
      pure ()

def publish (o : Outbox) (row : Owed) : RelayM PubRes :=
  perform (S := relaySig)
    (.inr (.publish o.bus row.id row.subject (rawMessage row.payload).marshal))

def publishAll (o : Outbox) : List Owed → RelayM (List ℕ × Option Text)
  | [] => pure ([], none)
  | row :: rest => do
    match ← o.publish row with
    | .failed _ cause =>
      pure ([], some ([.lit "outbox: publish ", .quoted row.subject, .lit ": "] ++ cause))
    | .ok =>
      let (sent, err) ← o.publishAll rest
      pure (row.id :: sent, err)

def claim (o : Outbox) (tx : ℕ) : RelayM (List Owed) :=
  query (T := busSig) tx (D := schema) (.claim o.deploymentID drainBatch)
    (["outbox: claim: failed"] : Text)

def markSent (tx : ℕ) : List ℕ → RelayM Unit
  | [] => pure ()
  | id :: ids => do
    let _ ← query (T := busSig) tx (D := schema) (.markSent id)
      (["outbox: mark sent: failed"] : Text)
    markSent tx ids

def drain (o : Outbox) : RelayM (ℕ × Option Text) :=
  if o.deploymentID = "" then throw (["outbox: deployment id required"] : Text)
  else withTx beginFailed commitFailed fun tx => do
    let rows ← o.claim tx
    let (sent, err) ← o.publishAll rows
    markSent tx sent
    pure (sent.length, err)

end Outbox

/-! ### The table under transactions -/

/-- Ids are not given twice, and what is inserted and not yet committed is held. -/
structure TableSound (s : State schema) : Prop where
  numbered : Numbered s
  disjoint : Transact.Disjoint s
  ids : (s.tables.map Row.id).Nodup
  inserted : ∀ tx p, s.pending tx = some p → ((inserts p.writes).map Row.id).Nodup
  fresh : ∀ tx p, s.pending tx = some p → ∀ row ∈ inserts p.writes,
    row.id ∈ p.locks ∧ row.id ∉ s.tables.map Row.id ∧ row.sent = false

variable {iso : Isolation} {s : State schema} {e : TxEvent schema} {tx : ℕ}

theorem view_ids {p : Pending schema} (hp : s.pending tx = some p) :
    (s.view tx).map Row.id = s.tables.map Row.id ++ (inserts p.writes).map Row.id := by
  rw [State.view, hp]
  exact ids_foldl_apply _ _

theorem ids_next : (next s e).tables.map Row.id = s.tables.map Row.id ∨
    ∃ tx p, Ends tx true e ∧ s.pending tx = some p ∧ (next s e).tables.map Row.id =
      s.tables.map Row.id ++ (inserts p.writes).map Row.id := by
  obtain ht | ⟨tx, he, ht⟩ := tables_next
  · exact .inl (by rw [ht])
  · rw [ht]
    cases hp : s.pending tx with
    | none =>
      refine .inl ?_
      rw [State.view, hp]
      rfl
    | some p => exact .inr ⟨tx, p, he, hp, view_ids hp⟩

theorem mem_inserts_writesOf {q : Query} {r : q.Ans} {row : Row}
    (ha : answers iso s ⟨.query tx q, some r⟩) (hr : row ∈ inserts (writesOf q r)) :
    row.id ∈ locksOf q r ∧ row.id ∉ (s.view tx).map Row.id ∧ row.sent = false := by
  cases q with
  | insert t deploymentID subject pa =>
    obtain rfl : row = ⟨r, t, deploymentID, subject, pa, false⟩ := by
      simpa [writesOf, inserts] using hr
    exact ⟨mem_singleton_self _, ha.2.1, rfl⟩
  | claim | markSent id => cases hr

theorem inserts_append (ws ws' : List Write) :
    inserts (ws ++ ws') = inserts ws ++ inserts ws' := filterMap_append

theorem TableSound.next (hs : TableSound s) (ha : answers iso s e) : TableSound (next s e) := by
  refine ⟨hs.numbered.next, hs.disjoint.next exclusive hs.numbered ha, ?_, ?_, ?_⟩
  · obtain heq | ⟨tx, p, -, hp, heq⟩ := ids_next
    · rw [heq]
      exact hs.ids
    · rw [heq]
      refine hs.ids.append (hs.inserted tx p hp) ?_
      rintro id hid hid'
      obtain ⟨row, hr, rfl⟩ := mem_map.mp hid'
      exact (hs.fresh tx p hp row hr).2.1 hid
  · intro tx p hp
    obtain ⟨hp, -⟩ | ⟨-, -, rfl⟩ | ⟨q, r, p', rfl, hp', rfl⟩ := pending_next hp
    · exact hs.inserted tx p hp
    · exact nodup_nil
    · have ho : ((inserts (writesOf q r)).map Row.id).Nodup := by
        cases q with
        | insert => exact nodup_singleton _
        | claim | markSent id => exact nodup_nil
      rw [inserts_append, map_append]
      refine (hs.inserted tx p' hp').append ho ?_
      rintro id hid hid'
      obtain ⟨row, hr, rfl⟩ := mem_map.mp hid'
      exact (mem_inserts_writesOf ha hr).2.1 (by
        rw [view_ids hp']
        exact mem_append_right _ hid)
  · intro tx p hpe row hr
    obtain ⟨hp, -⟩ | ⟨-, -, rfl⟩ | ⟨q, r, p', rfl, hp', rfl⟩ := pending_next hpe
    · obtain ⟨hl, ht, hse⟩ := hs.fresh tx p hp row hr
      refine ⟨hl, ?_, hse⟩
      obtain heq | ⟨tx', p', he, hp', heq⟩ := ids_next
      · rwa [heq]
      rw [heq]
      intro hm
      rcases mem_append.mp hm with hm | hm
      · exact ht hm
      -- the row is of the transaction that ends here, which holds its lock
      obtain ⟨row', hr', hid⟩ := mem_map.mp hm
      have hl' := (hs.fresh tx' p' hp' row' hr').1
      rw [hid] at hl'
      obtain rfl := hs.disjoint tx tx' row.id ⟨p, hp, hl⟩ ⟨p', hp', hl'⟩
      rw [pending_of_ends he] at hpe
      cases hpe
    · cases hr
    · rw [inserts_append] at hr
      rcases mem_append.mp hr with hr | hr
      · obtain ⟨hl, ht, hse⟩ := hs.fresh tx p' hp' row hr
        exact ⟨mem_append_left _ hl, ht, hse⟩
      · obtain ⟨hl, hv, hse⟩ := mem_inserts_writesOf ha hr
        rw [view_ids hp'] at hv
        exact ⟨mem_append_right _ hl, fun h => hv (mem_append_left _ h), hse⟩

/-- Every row that is marked is good, and every row a transaction under way has marked. -/
structure Backed (good : Row → Prop) (s : State schema) : Prop where
  marked : ∀ row ∈ s.tables, row.sent = true → good row
  marking : ∀ tx p, s.pending tx = some p → ∀ id, .sent id ∈ p.writes →
    ∃ row ∈ s.tables, row.id = id ∧ good row

variable {good good' : Row → Prop}

theorem Backed.mono (h : Backed good s) (hle : ∀ row, good row → good' row) : Backed good' s where
  marked row hro hs := hle row (h.marked row hro hs)
  marking tx p hp id hid := by
    obtain ⟨row, hro, hr, hg⟩ := h.marking tx p hp id hid
    exact ⟨row, hro, hr, hle row hg⟩

/-- A row that is marked by a commit is one the transaction marked, since what it inserted it
could not mark. -/
theorem Backed.marked_view (h : Backed good s) (hso : TableSound s)
    (hd : ∀ row, good row → good row.done) {row : Row} (hro : row ∈ s.view tx)
    (hs : row.sent = true) : good row := by
  cases hp : s.pending tx with
  | none =>
    rw [State.view, hp] at hro
    exact h.marked row hro hs
  | some p =>
    rw [State.view, hp] at hro
    obtain ⟨row₀, hf | hf, hm⟩ := mem_foldl_apply hro
    · rcases hm with rfl | ⟨rfl, hid⟩
      · exact h.marked row hf hs
      · obtain ⟨row', hro', hr, hg⟩ := h.marking tx p hp _ hid
        obtain rfl : row' = row₀ := inj_on_of_nodup_map hso.ids hro' hf hr
        exact hd _ hg
    · obtain ⟨-, hfr, hu⟩ := hso.fresh tx p hp row₀ (mem_inserts.mpr hf)
      rcases hm with rfl | ⟨rfl, hid⟩
      · rw [hu] at hs
        cases hs
      · obtain ⟨row', hro', hr, -⟩ := h.marking tx p hp _ hid
        exact absurd (mem_map.mpr ⟨row', hro', hr⟩) hfr

theorem Backed.next (h : Backed good s) (hs : TableSound s) (hd : ∀ row, good row → good row.done)
    (hm : ∀ tx id r, e = ⟨.query tx (.markSent id), some r⟩ →
      ∃ row ∈ s.tables, row.id = id ∧ good row) : Backed good (next s e) := by
  obtain ht | ⟨tx', he, ht⟩ := tables_next
  · refine ⟨by rw [ht]; exact h.marked, ?_⟩
    rw [ht]
    intro tx p hp id hid
    obtain ⟨hp, -⟩ | ⟨-, -, rfl⟩ | ⟨q, r, p', rfl, hp', rfl⟩ := pending_next hp
    · exact h.marking tx p hp id hid
    · cases hid
    rcases mem_append.mp hid with hid | hid
    · exact h.marking tx p' hp' id hid
    cases q with
    | insert => cases mem_singleton.mp hid
    | claim => cases hid
    | markSent id' =>
      cases mem_singleton.mp hid
      exact hm tx id r rfl
  · refine ⟨by rw [ht]; exact fun row => h.marked_view hs hd, ?_⟩
    rw [ht]
    intro tx p hp id hid
    obtain ⟨hp, -⟩ | ⟨-, ⟨_, rfl⟩, -⟩ | ⟨q, r, p', rfl, -, -⟩ := pending_next hp
    · obtain ⟨row, hro, hr, hg⟩ := h.marking tx p hp id hid
      rcases foldl_apply_keeps hro with hk | hk
      · exact ⟨row, hk, hr, hg⟩
      · exact ⟨row.done, hk, hr, hd row hg⟩
    · cases he
    · cases he

/-! ### Who calls -/

structure Intent where
  outbox : Outbox
  tenantID : String
  subject : String
  msg : Except Text Bytes

def enqueueAll (tx : ℕ) : List Intent → RelayM Unit
  | [] => pure ()
  | i :: rest => do
    i.outbox.enqueue tx i.tenantID i.subject i.msg
    enqueueAll tx rest

/-- A caller enqueues messages in a transaction of its own, which it may give up; a plane drains;
and the store notices that a transaction was left behind. -/
inductive Call where
  | report (intents : List Intent) (abort : Bool)
  | drain (o : Outbox)
  | crash (tx : ℕ)

def report (intents : List Intent) (abort : Bool) : RelayM Unit :=
  withTx beginFailed commitFailed fun tx => do
    enqueueAll tx intents
    if abort then throw (["aborted"] : Text) else pure ()

def Call.prog : Call → Prog relaySig Unit
  | .report intents abort => do
    let _ ← (Relay.report intents abort).run
    pure ()
  | .drain o => do
    let _ ← o.drain.run
    pure ()
  | .crash tx => perform (S := relaySig) (.inl (.abandon tx))

def claimedIn (tx : ℕ) (deploymentID : String) (limit : ℕ) (rows : List Owed) : RelayEvent :=
  answered (D := schema) tx (.claim deploymentID limit) rows

def published (bus : String) (id : ℕ) (subject : String) (data : Bytes) (r : PubRes) :
    RelayEvent := ⟨.inr (.publish bus id subject data), r⟩

/-- What a call of each kind rests on: a drain publishes what it has claimed, and marks what it
has published. -/
def Call.Justified (c : Call) (h : List RelayEvent) : RelayEvent → Prop
  | ⟨.inl .begin, _⟩ => h = []
  | ⟨.inl (.query tx (.insert ..)), _⟩ => begun tx ∈ h ∧ ∀ o, c ≠ .drain o
  | ⟨.inl (.query tx (.claim deploymentID _)), _⟩ =>
    h = [begun tx] ∧ ∃ o, c = .drain o ∧ deploymentID = o.deploymentID
  | ⟨.inl (.query tx (.markSent id)), _⟩ => begun tx ∈ h ∧ ∃ o, c = .drain o ∧
      ∃ subject data, published o.bus id subject data .ok ∈ h
  | ⟨.inr (.publish bus id subject data), _⟩ => ∃ o, c = .drain o ∧ bus = o.bus ∧
      ∃ tx limit rows, claimedIn tx o.deploymentID limit rows ∈ h ∧ ⟨id, subject, data⟩ ∈ rows
  | ⟨.inl (.read _), _⟩ => False
  | _ => True

variable {c : Call} {h : List RelayEvent} {o : Outbox}

theorem wpe_enqueueAll (hc : ∀ o, c ≠ .drain o) (hb : begun tx ∈ h) (intents : List Intent) :
    wpe c.Justified (enqueueAll tx intents) (fun _ _ => True) h := by
  induction intents generalizing h with
  | nil => exact wpe_done
  | cons i rest ih =>
    refine wpe_bind.mpr ?_
    have hr : ∀ g, begun tx ∈ g → wpe c.Justified (enqueueAll tx rest) (fun _ _ => True) g :=
      fun g hg => ih hg
    unfold Outbox.enqueue
    split
    · exact wpe_throw _
    split
    · exact wpe_throw _
    split
    · exact wpe_throw _
    split
    · exact wpe_throw _
    · refine wpe_bind.mpr (wpe_query (fun r => ⟨hb, hc⟩) fun r => ?_)
      exact (wpe_pure _).mpr (hr _ (mem_append_left _ hb))

theorem wpe_publishAll {limit : ℕ} {rows rest : List Owed}
    (hc : claimedIn tx o.deploymentID limit rows ∈ h) (hr : rest ⊆ rows) :
    wpe (Call.drain o).Justified (o.publishAll rest)
      (fun g out => ∀ id ∈ out.1, ∃ subject data, published o.bus id subject data .ok ∈ g) h := by
  induction rest generalizing h with
  | nil => exact (wpe_pure _).mpr (by rintro _ ⟨⟩)
  | cons row rest ih =>
    obtain ⟨hro, hr⟩ := cons_subset.mp hr
    refine wpe_perform_bind.mpr fun r => ⟨⟨o, rfl, rfl, tx, limit, rows,
      hc, hro⟩, ?_⟩
    cases (r : PubRes) with
    | failed accepted ca => exact (wpe_pure _).mpr (by rintro _ ⟨⟩)
    | ok =>
      refine wpe_bind.mpr (wpe_mono (ih (mem_append_left _ hc) hr) ?_)
      rintro g ⟨sent, err⟩ hs
      refine (wpe_pure _).mpr fun id hid => ?_
      rcases mem_cons.mp hid with rfl | hid
      · exact ⟨row.subject, row.payload, by simp [published, rawMessage, RawMessage.marshal]⟩
      · exact hs id hid

theorem wpe_markSent {ids : List ℕ} (hb : begun tx ∈ h)
    (hi : ∀ id ∈ ids, ∃ subject data, published o.bus id subject data .ok ∈ h) :
    wpe (Call.drain o).Justified (Outbox.markSent tx ids) (fun _ _ => True) h := by
  induction ids generalizing h with
  | nil => exact wpe_done
  | cons id ids ih =>
    obtain ⟨hid, hi⟩ := forall_mem_cons.mp hi
    refine wpe_bind.mpr (wpe_query (fun r => ⟨hb, o, rfl, hid⟩) fun r => ?_)
    refine ih (mem_append_left _ hb) fun id' hid' => ?_
    obtain ⟨subject, data, hm⟩ := hi id' hid'
    exact ⟨subject, data, mem_append_left _ hm⟩

theorem wpe_drain : wpe (Call.drain o).Justified o.drain (fun _ _ => True) [] := by
  unfold Outbox.drain
  split
  · exact wpe_throw _
  refine wpe_withTx (fun r => rfl) (fun g tx r => trivial) fun tx => ?_
  refine wpe_bind.mpr (wpe_query (fun r => ⟨rfl, o, rfl, rfl⟩) fun (rows : List Owed) => ?_)
  have hc : claimedIn tx o.deploymentID drainBatch rows ∈
      ([] ++ [begun tx] ++ [claimedIn tx o.deploymentID drainBatch rows] : List RelayEvent) := by
    simp
  refine wpe_bind.mpr (wpe_mono (wpe_publishAll hc (Subset.refl _)) ?_)
  rintro g ⟨sent, err⟩ hs
  refine wpe_bind.mpr (wpe_mono (wpe_markSent (by simp) hs) ?_)
  intro g' _ _
  exact (wpe_pure _).mpr ⟨fun r => trivial, trivial⟩

theorem wpe_report {intents : List Intent} {abort : Bool} :
    wpe (Call.report intents abort).Justified (report intents abort) (fun _ _ => True) [] := by
  refine wpe_withTx (fun r => rfl) (fun g tx r => trivial) fun tx => ?_
  refine wpe_bind.mpr (wpe_mono (wpe_enqueueAll (by rintro o ⟨⟩) (by simp) intents) ?_)
  intro g _ _
  split
  · exact wpe_throw _
  · exact (wpe_pure _).mpr ⟨fun r => trivial, trivial⟩

theorem wp_prog (c : Call) : wp c.Justified c.prog (fun _ _ => True) [] := by
  cases c with
  | report intents abort =>
    exact wp_bind.mpr (wp_mono wpe_report fun _ _ _ => trivial)
  | drain o => exact wp_bind.mpr (wp_mono wpe_drain fun _ _ _ => trivial)
  | crash tx => exact fun r => ⟨trivial, trivial⟩

/-! ### Histories -/

abbrev RelayHistory := List (Act relaySig)

def store (iso : Isolation) (tr : RelayHistory) : State schema := ((relayWorld iso).state tr).1

def accepted (iso : Isolation) (tr : RelayHistory) : List Message := ((relayWorld iso).state tr).2

abbrev Histories (iso : Isolation) (calls : ℕ → Call) (tr : RelayHistory) : Prop :=
  Guarded (relayWorld iso) (fun i => (calls i).Justified) tr

variable {calls cs : ℕ → Call} {tr us vs : RelayHistory} {i limit : ℕ} {rows : List Owed}
  {d : String}

theorem store_eq_left (tr : RelayHistory) :
    store iso tr = (txWorld schema iso []).state (leftActs tr) :=
  World.sum_state_fst tr

theorem store_snoc (iso : Isolation) (tr : RelayHistory) (a : Act relaySig) :
    store iso (tr ++ [a]) = store iso tr ∨
      ∃ e : TxEvent schema, a.event = e.inl ∧ store iso (tr ++ [a]) = next (store iso tr) e :=
  storeIn_snoc (D := schema) iso ([] : List Row) busWorld tr a

theorem Histories.sound (htr : Histories iso cs tr) : TableSound (store iso tr) := by
  induction htr with
  | nil =>
    refine ⟨fun _ _ => rfl, ?_, nodup_nil, ?_, ?_⟩
    · rintro tx other l ⟨p, hp, -⟩
      cases hp
    · rintro tx p ⟨⟩
    · rintro tx p ⟨⟩
  | @snoc tr i e htr han hg ih =>
    obtain hs | ⟨e', he, hn⟩ := store_snoc iso tr ⟨i, e⟩
    · rwa [hs]
    · obtain rfl : e = e'.inl := he
      have ha : answers iso (store iso tr) e' := han
      exact hn ▸ ih.next ha

theorem Histories.inOwn (htr : Histories iso cs tr) :
    Guarded (txWorld schema iso []) (fun _ => InOwn) (leftActs tr) := by
  refine Guarded.left (fun i h e hg => ?_) htr
  obtain ⟨op, r⟩ := e
  cases op with
  | query tx q =>
    refine mem_lefts.mpr ?_
    cases q with
    | claim =>
      obtain ⟨rfl, -⟩ := hg
      exact mem_singleton_self _
    | insert | markSent => exact hg.1
  | _ => trivial

theorem row_kept (vs : RelayHistory) (hr : row ∈ (store iso us).tables) :
    row ∈ (store iso (us ++ vs)).tables ∨ row.done ∈ (store iso (us ++ vs)).tables := by
  induction vs using reverseRecOn with
  | nil => exact .inl (by rwa [append_nil])
  | append_singleton vs a ih =>
    rw [← append_assoc]
    obtain heq | ⟨e, -, heq⟩ := store_snoc iso (us ++ vs) a
    · rwa [heq]
    · rw [heq]
      obtain ht | ⟨tx, -, ht⟩ := tables_next
      · rwa [ht]
      · rw [ht]
        rcases ih with ih | ih
        · exact foldl_apply_keeps ih
        · exact .inr ((foldl_apply_keeps ih).elim id id)

theorem claim_unsent (htr : Histories iso cs (us ++ ⟨i, claimedIn tx d limit rows⟩ :: vs))
    {o : Owed} (ho : o ∈ rows) :
    ∃ row ∈ (store iso us).tables, row.sent = false ∧ row.deploymentID = d ∧ row.owed = o := by
  obtain ⟨ha, hon, -⟩ := htr.at_split
  -- nothing is stated in the transaction so far
  have hv : (store iso us).view tx = (store iso us).tables := by
    cases hp : (store iso us).pending tx with
    | none =>
      rw [State.view, hp]
      rfl
    | some p =>
      have hb : begun tx ∈ own i us := hon ▸ mem_singleton_self _
      have hw := pending_writes_own (fun _ _ _ => rfl)
        (Histories.inOwn htr.of_append) (store_eq_left us ▸ hp) (begun_mem_left hb)
      rw [own_leftActs, hon] at hw
      rw [State.view, hp, Option.elim_some, hw]
      rfl
  obtain ⟨hsu, -⟩ : rows.Sublist (unsent ((store iso us).view tx) ((store iso us).held tx) d) ∧
      rows.length ≤ limit := ha.2
  obtain ⟨row, hr, hs, hd, -, how⟩ := mem_unsent.mp (hsu.subset ho)
  exact ⟨row, hv ▸ hr, hs, hd, how⟩

variable {bus subject : String} {data : Bytes}

theorem published_claimed {id : ℕ} {r : PubRes} (htr : Histories iso cs tr)
    (hm : ⟨i, published bus id subject data r⟩ ∈ tr) :
    ∃ o, cs i = .drain o ∧ bus = o.bus ∧ ∃ row ∈ (store iso tr).tables,
      row.owed = ⟨id, subject, data⟩ ∧ row.deploymentID = o.deploymentID := by
  obtain ⟨us, vs, rfl⟩ := append_of_mem hm
  obtain ⟨o, hca, hb, tx, limit, rows, hc, hr⟩ := (htr.at_split).2
  refine ⟨o, hca, hb, ?_⟩
  obtain ⟨us₀, us₁, rfl⟩ := append_of_mem (mem_of_mem_own hc)
  rw [append_assoc] at htr ⊢
  obtain ⟨row, hm, -, hd, ho⟩ := claim_unsent htr hr
  rcases row_kept _ hm with hk | hk
  · exact ⟨row, hk, ho, hd⟩
  · exact ⟨row.done, hk, ho, hd⟩

/-- The row went out, on a bus of its deployment. -/
def Delivered (iso : Isolation) (calls : ℕ → Call) (tr : RelayHistory) (row : Row) : Prop :=
  ∃ i o, calls i = .drain o ∧ o.deploymentID = row.deploymentID ∧
    ⟨o.bus, row.subject, row.payload⟩ ∈ accepted iso tr

theorem accepted_snoc (tr : RelayHistory) (a : Act relaySig) :
    accepted iso tr ⊆ accepted iso (tr ++ [a]) := by
  intro m hm
  rw [accepted, World.state_snoc]
  obtain ⟨i, op | ⟨bus, id, subject, data⟩, r⟩ := a
  · exact hm
  · rcases (r : PubRes) with _ | ⟨_ | _, _⟩
    · exact mem_append_left _ hm
    · exact hm
    · exact mem_append_left _ hm

theorem Delivered.snoc (a : Act relaySig) (h : Delivered iso cs tr row) :
    Delivered iso cs (tr ++ [a]) row := by
  obtain ⟨i, o, hc, hd, hm⟩ := h
  exact ⟨i, o, hc, hd, accepted_snoc tr a hm⟩

theorem accepted_of_published {id : ℕ} (hm : ⟨i, published bus id subject data .ok⟩ ∈ tr) :
    ⟨bus, subject, data⟩ ∈ accepted iso tr := by
  induction tr using reverseRecOn with
  | nil => cases hm
  | append_singleton tr a ih =>
    rcases mem_append.mp hm with hm | hm
    · exact accepted_snoc tr a (ih hm)
    · rw [← mem_singleton.mp hm, accepted, World.state_snoc]
      exact mem_concat_self

theorem Histories.delivered (htr : Histories iso cs tr) :
    Backed (Delivered iso cs tr) (store iso tr) := by
  induction htr with
  | nil =>
    constructor
    · rintro row ⟨⟩
    · rintro tx p ⟨⟩
  | @snoc tr i e htr ha hj ih =>
    have hl : Backed (Delivered iso cs (tr ++ [⟨i, e⟩])) (store iso tr) :=
      ih.mono fun row hd => hd.snoc _
    obtain hs | ⟨e', he, hn⟩ := store_snoc iso tr ⟨i, e⟩
    · rwa [hs]
    obtain rfl : e = e'.inl := he
    rw [hn]
    refine hl.next (Histories.sound htr) (fun row hd => hd) ?_
    rintro tx id r rfl
    -- what is marked just now the bus took
    obtain ⟨-, o, hc, subject, data, hp⟩ := hj
    have hm := mem_of_mem_own hp
    obtain ⟨o', hc', -, row, hr, ho, hde⟩ := published_claimed htr hm
    obtain rfl : o = o' := Call.drain.inj (hc.symm.trans hc')
    refine ⟨row, hr, congrArg Owed.id ho, Delivered.snoc _ ⟨i, o, hc, hde.symm, ?_⟩⟩
    rw [show row.subject = subject from congrArg Owed.subject ho,
      show row.payload = data from congrArg Owed.payload ho]
    exact accepted_of_published hm

def Enqueued (tr : RelayHistory) (row : Row) : Prop :=
  ∃ us vs i j tx e, tr = us ++ ⟨i, Event.inl e⟩ :: vs ∧ Ends tx true e ∧
    ⟨j, answered (D := schema) tx
      (.insert row.tenantID row.deploymentID row.subject row.payload) row.id⟩ ∈ us

theorem Enqueued.snoc (a : Act relaySig) (h : Enqueued tr row) : Enqueued (tr ++ [a]) row := by
  obtain ⟨us, vs, i, j, tx, e, rfl, he, hm⟩ := h
  exact ⟨us, vs ++ [a], i, j, tx, e, by simp, he, hm⟩

theorem row_enqueued (hr : row ∈ (store iso tr).tables) : Enqueued tr row := by
  induction tr using reverseRecOn generalizing row with
  | nil => cases hr
  | append_singleton tr a ih =>
    obtain heq | ⟨e, he, heq⟩ := store_snoc iso tr a
    · rw [heq] at hr
      exact (ih hr).snoc a
    rw [heq] at hr
    obtain ht | ⟨tx, hen, ht⟩ := tables_next
    · rw [ht] at hr
      exact (ih hr).snoc a
    rw [ht] at hr
    obtain ⟨row₀, hf, hm⟩ := mem_foldl_apply hr
    have hs : Enqueued (tr ++ [a]) row₀ → Enqueued (tr ++ [a]) row := by
      obtain rfl | ⟨rfl, -⟩ := hm
      · exact id
      · exact id
    apply hs
    rcases hf with hf | hf
    · exact (ih hf).snoc a
    · cases hp : (store iso tr).pending tx with
      | none =>
        rw [hp] at hf
        cases hf
      | some p =>
        rw [hp] at hf
        rw [store_eq_left] at hp
        obtain ⟨j, q, r, t, hq, hw⟩ := write_origin hp hf
        obtain ⟨i, d⟩ := a
        obtain rfl : d = e.inl := he
        refine ⟨tr, [], i, j, tx, e, rfl, hen, ?_⟩
        cases q with
        | insert te deploymentID subject pa =>
          cases mem_singleton.mp hw
          exact mem_leftActs.mp hq
        | claim => cases hw
        | markSent => cases mem_singleton.mp hw

/-- A drain that begins when a row is marked does not publish it. -/
theorem not_published_later {n k m tx : ℕ} {r : PubRes} (htr : Histories iso cs tr)
    (hr : row ∈ (store iso (tr.take n)).tables) (hs : row.sent = true) (hnk : n ≤ k)
    (hk : tr[k]? = some ⟨i, begun tx⟩) :
    tr[m]? ≠ some ⟨i, published bus row.id subject data r⟩ := by
  intro hm
  obtain ⟨o, hca, -, tx', limit, rows, hcl, ho⟩ := (htr.at_get hm).2
  obtain ⟨c, -, hc⟩ := get_of_mem_own_take hcl
  -- the claim comes after the beginning
  have hkc : k < c := by
    have hf : own i (tr.take k) = [] := (htr.at_get hk).2
    by_contra hle
    have hne : c ≠ k := by
      rintro rfl
      rw [hc] at hk
      cases hk
    have hlt : c < k := by omega
    have he : (tr.take k)[c]? = some ⟨i, claimedIn tx' o.deploymentID limit rows⟩ := by
      rwa [get_take hlt]
    have hse := mem_own_of_get he
    rw [hf] at hse
    cases hse
  have hsp := eq_take_append hc
  have htr' := htr
  rw [hsp] at htr'
  obtain ⟨row', hr', hu, -, ho'⟩ := claim_unsent htr' ho
  have hke : row ∈ (store iso (tr.take c)).tables := by
    have ht : tr.take c = tr.take n ++ (tr.take c).drop n := by
      have hp : (tr.take c).take n = tr.take n := by
        rw [take_take, min_eq_left (by omega)]
      rw [← hp, take_append_drop]
    rw [ht]
    rcases row_kept _ hr with h | h
    · exact h
    · have hd : row.done = row := by rw [Row.done, ← hs]
      rwa [hd] at h
  have hi := (Histories.sound (htr.take c)).ids
  obtain rfl : row = row' :=
    inj_on_of_nodup_map hi hke hr' (congrArg Owed.id ho').symm
  rw [hs] at hu
  cases hu

/-- The outbox under any interleaving of transactions that enqueue, drains and crashes. A
committed row stays, and is owed or went out on a bus of its deployment as it stands in the table;
what a drain publishes is a row of its own deployment that a committed transaction enqueued; and a
row that is marked no later drain publishes. -/
theorem outbox_delivers (htr : Reach (relayWorld iso) (fun i => (calls i).prog) tr) :
    (∀ row ∈ (store iso tr).tables, row.sent = false ∨ Delivered iso calls tr row) ∧
    (∀ n, ∀ row ∈ (store iso (tr.take n)).tables,
      row ∈ (store iso tr).tables ∨ row.done ∈ (store iso tr).tables) ∧
    (∀ (n i id : ℕ) bus subject data r, tr[n]? = some ⟨i, published bus id subject data r⟩ →
      ∃ o, calls i = .drain o ∧ bus = o.bus ∧ ∃ row ∈ (store iso (tr.take n)).tables,
        row.owed = ⟨id, subject, data⟩ ∧ row.deploymentID = o.deploymentID ∧
        Enqueued (tr.take n) row) ∧
    ∀ (n k m i tx : ℕ) bus subject data r, ∀ row ∈ (store iso (tr.take n)).tables, row.sent = true →
      n ≤ k → tr[k]? = some ⟨i, begun tx⟩ →
      tr[m]? ≠ some ⟨i, published bus row.id subject data r⟩ := by
  have hg : Histories iso calls tr := htr.guarded fun i => wp_prog (calls i)
  refine ⟨?_, ?_, ?_, ?_⟩
  · intro row hro
    cases hs : row.sent with
    | false => exact .inl rfl
    | true => exact .inr (hg.delivered.marked row hro hs)
  · intro n row hro
    have hke := row_kept (tr.drop n) hro
    rwa [take_append_drop] at hke
  · intro n i id bus subject data r hn
    obtain ⟨o, hca, hb, tx, limit, rows, hc, ho⟩ := (hg.at_get hn).2
    obtain ⟨us, vs, hsp⟩ := append_of_mem (mem_of_mem_own hc)
    have ht := hg.take n
    rw [hsp] at ht ⊢
    obtain ⟨row, hro, -, hd, hr⟩ := claim_unsent ht ho
    refine ⟨o, hca, hb, ?_⟩
    rcases row_kept _ hro with hke | hke
    · exact ⟨row, hke, hr, hd, row_enqueued hke⟩
    · exact ⟨row.done, hke, hr, hd, row_enqueued hke⟩
  · intro n k m i tx bus subject data r row hro hs hnk hk
    exact not_published_later hg hro hs hnk hk

/-! ### One message -/

def resolver : Resolver schema where
  ans rows held
    | .insert .. =>
      let id := (rows.map Row.id).foldl max 0 + 1
      if id ∉ rows.map Row.id ∧ held id = false then some id else none
    | .claim deploymentID limit => some ((unsent rows held deploymentID).take limit)
    | .markSent id => if held id = false then some () else none
  sound rows held q r h := by
    cases q with
    | insert =>
      obtain ⟨hid, heq⟩ := Option.ite_none_right_eq_some.mp h
      obtain rfl := Option.some.inj heq
      exact hid
    | claim deploymentID limit =>
      cases h
      exact ⟨take_sublist _ _, length_take_le _ _⟩
    | markSent id => exact (Option.ite_none_right_eq_some.mp h).1

def honestRelay (iso : Isolation) (_ : ℕ) (s : (relayWorld iso).State) :
    (op : relaySig.Op) → relaySig.Res op
  | .inl op => honest iso resolver s.1 op
  | .inr _ => PubRes.ok

theorem honestRelay_answers (iso : Isolation) (n : ℕ) (s : (relayWorld iso).State)
    (op : relaySig.Op) : (relayWorld iso).Answers s ⟨op, honestRelay iso n s op⟩ := by
  cases op with
  | inl op => exact honest_answers iso resolver s.1 op
  | inr op => trivial

def planeOne : Outbox := ⟨"bus-1", "plane-1"⟩

def oneMessage : ℕ → Call
  | 0 => .report [⟨planeOne, "acme", "dhole.acme.dispatch", .ok [7]⟩] false
  | 1 => .drain planeOne
  | _ => .crash 9

def drained : RelayHistory :=
  exec (relayWorld .readCommitted) (honestRelay .readCommitted) (fun i => (oneMessage i).prog)
    [0, 0, 0, 1, 1, 1, 1, 1]

def sentRow : Row := ⟨1, "acme", "plane-1", "dhole.acme.dispatch", [7], true⟩

/-- A message that was enqueued and drained is marked, and the bus has it. -/
theorem drained_row_delivered : sentRow ∈ (store .readCommitted drained).tables ∧
    Delivered .readCommitted oneMessage drained sentRow := by
  have hm : sentRow ∈ (store .readCommitted drained).tables := by decide +kernel
  have hr : Reach (relayWorld .readCommitted) (fun i => (oneMessage i).prog) drained :=
    exec_reach _ _ (honestRelay_answers .readCommitted) _ _
  exact ⟨hm, ((outbox_delivers hr).1 sentRow hm).resolve_left (by decide)⟩

end Dhole.Relay
