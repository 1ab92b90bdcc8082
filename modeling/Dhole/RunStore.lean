import Dhole.RunLog
import Dhole.Transact

/-! The run log and the timers as tables under transactions. An append takes the tenant's next
position in the log, so it holds the tenant's counter until its transaction ends: on a store that
does not run transactions one at a time, this is all that puts two of them in an order. -/

namespace Dhole.RunStore

open Transact List

/-! ### Tables -/

/-- The part of a payload that the scheduler does not read. -/
inductive Note where
  | blank
  | malformed
  | request (prompt : String) (parks : Bool)
  | decision (approver : String) (approved : Bool) (reason : String)
deriving DecidableEq

structure Entry where
  tenantID : String
  runID : String
  event : Event
  note : Note := .blank
deriving DecidableEq

structure TimerKey where
  tenantID : String
  runID : String
  stepID : String
deriving DecidableEq

/-- A due time is stored as text. -/
structure TimerRow where
  key : TimerKey
  dueAt : List Char
  fired : Bool := false
deriving DecidableEq

structure Tables where
  entries : List Entry := []
  timers : List TimerRow := []

def Entry.ofRun (tenantID runID : String) (e : Entry) : Bool :=
  e.tenantID = tenantID ∧ e.runID = runID

def Tables.log (t : Tables) (tenantID runID : String) : Log :=
  (t.entries.filter (Entry.ofRun tenantID runID)).map Entry.event

def Tables.hasTimer (t : Tables) (key : TimerKey) : Bool := t.timers.any fun row => row.key = key

inductive Write where
  | append (e : Entry)
  | arm (row : TimerRow)
  | fire (key : TimerKey)

/-- An insert that meets a unique index is no insert. -/
def Tables.apply (t : Tables) : Write → Tables
  | .append e =>
    if e.event.conflicts (t.log e.tenantID e.runID) then t else { t with entries := t.entries ++ [e] }
  | .arm row => if t.hasTimer row.key then t else { t with timers := t.timers ++ [row] }
  | .fire key => { t with timers := t.timers.map fun row =>
      if row.key = key ∧ row.fired = false then { row with fired := true } else row }

/-! ### Statements -/

def Entry.ofGate (tenantID runID stepID : String) (e : Entry) : Bool :=
  e.ofRun tenantID runID && decide (e.event.stepID = stepID) &&
    match e.event.payload with
    | .stepAwaitingApproval _ | .stepApprovalDecided _ => true
    | _ => false

def Tables.gate (t : Tables) (tenantID runID stepID : String) : List Entry :=
  t.entries.filter (Entry.ofGate tenantID runID stepID)

/-- The run has ended, as far as this asks, or the step has its verdict. -/
def Entry.retires (key : TimerKey) (e : Entry) : Bool :=
  e.ofRun key.tenantID key.runID &&
    match e.event.payload with
    | .runCompleted | .runFailed _ => true
    | .stepSucceeded _ | .stepFailed => decide (e.event.stepID = key.stepID)
    | _ => false

inductive Query where
  | readGate (tenantID runID stepID : String)
  | append (e : Entry)
  | replay (tenantID runID : String)
  | countTimers (key : TimerKey)
  | insertTimer (row : TimerRow)
  | claimDue (now : List Char) (limit : ℕ)
  | markFired (key : TimerKey)
  | countRetired (key : TimerKey)

def Query.Ans : Query → Type
  | .readGate .. => List Entry
  | .append _ => Unit
  | .replay .. => Log
  | .countTimers _ => ℕ
  | .insertTimer _ => Unit
  | .claimDue .. => List TimerRow
  | .markFired _ => Unit
  | .countRetired _ => ℕ

/-- A tenant's counter, or the row of a timer. -/
inductive Lock where
  | sequence (tenantID : String)
  | timer (key : TimerKey)
deriving DecidableEq

/-- `WHERE fired_at IS NULL AND due_at <= ? ORDER BY due_at`, past the rows others hold. -/
def Tables.due (t : Tables) (held : Lock → Bool) (now : List Char) : List TimerRow :=
  (t.timers.filter fun row => row.fired = false ∧ row.dueAt ≤ now ∧
    held (.timer row.key) = false).insertionSort fun a b => a.dueAt ≤ b.dueAt

/-- `LIMIT ?` -/
def Tables.claim (t : Tables) (held : Lock → Bool) (now : List Char) (limit : ℕ) : List TimerRow :=
  (t.due held now).take limit

def Tables.outstanding (t : Tables) (key : TimerKey) : Bool :=
  t.timers.any fun row => row.key = key && !row.fired

def locksOf (t : Tables) : (q : Query) → q.Ans → List Lock
  | .append e, _ => [.sequence e.tenantID]
  | .insertTimer row, _ => if t.hasTimer row.key then [] else [.timer row.key]
  | .claimDue .., (rows : List TimerRow) => rows.map fun row => .timer row.key
  | .markFired key, _ => if t.outstanding key then [.timer key] else []
  | .readGate .., _ | .replay .., _ | .countTimers _, _ | .countRetired _, _ => []

def answersQuery (t : Tables) (held : Lock → Bool) : (q : Query) → q.Ans → Prop
  | .readGate tenantID runID stepID, rows => rows = t.gate tenantID runID stepID
  | .append e, _ => held (.sequence e.tenantID) = false
  | .replay tenantID runID, log => log = t.log tenantID runID
  | .countTimers key, n => n = t.timers.countP fun row => row.key = key
  | .insertTimer row, _ => held (.timer row.key) = false
  | .claimDue now limit, (rows : List TimerRow) =>
    rows.Sublist (t.due held now) ∧ rows.length ≤ limit
  | .markFired key, _ => held (.timer key) = false
  | .countRetired key, n => n = t.entries.countP (Entry.retires key)

def writesOf : (q : Query) → q.Ans → List Write
  | .append e, _ => [.append e]
  | .insertTimer row, _ => [.arm row]
  | .markFired key, _ => [.fire key]
  | .readGate .., _ | .replay .., _ | .countTimers _, _ | .claimDue .., _ | .countRetired _, _ => []

abbrev schema : Schema where
  Tables := Tables
  Write := Write
  apply := Tables.apply
  Query := Query
  Ans := Query.Ans
  Lock := Lock
  decLock := inferInstance
  answers := answersQuery
  writes _ := writesOf
  locks := locksOf

def resolver : Resolver schema where
  ans t held
    | .readGate tenantID runID stepID => some (t.gate tenantID runID stepID)
    | .append e => if held (.sequence e.tenantID) = false then some () else none
    | .replay tenantID runID => some (t.log tenantID runID)
    | .countTimers key => some (t.timers.countP fun row => row.key = key)
    | .insertTimer row => if held (.timer row.key) = false then some () else none
    | .claimDue now limit => some (t.claim held now limit)
    | .markFired key => if held (.timer key) = false then some () else none
    | .countRetired key => some (t.entries.countP (Entry.retires key))
  sound t held q r h := by
    cases q with
    | append e | insertTimer row | markFired key => exact (Option.ite_none_right_eq_some.mp h).1
    | claimDue now limit =>
      cases h
      exact ⟨take_sublist _ _, length_take_le _ _⟩
    | readGate | replay | countTimers | countRetired =>
      cases h
      rfl

/-! ### What the locks protect -/

variable {t : Tables} {held : Lock → Bool} {tid rid : String} {w : Write}

theorem mem_due {now : List Char} {row : TimerRow} : row ∈ t.due held now ↔
    row ∈ t.timers ∧ row.fired = false ∧ row.dueAt ≤ now ∧ held (.timer row.key) = false := by
  simp [Tables.due]

theorem exclusive : schema.Exclusive := by
  intro t held q r ha l hl
  cases q with
  | append e =>
    obtain rfl := mem_singleton.mp hl
    exact ha
  | insertTimer row =>
    simp only [locksOf] at hl
    split at hl
    · cases hl
    · obtain rfl := mem_singleton.mp hl
      exact ha
  | claimDue now li =>
    obtain ⟨row, hr, rfl⟩ := mem_map.mp hl
    exact (mem_due.mp (ha.1.subset hr)).2.2.2
  | markFired key =>
    simp only [locksOf] at hl
    split at hl
    · obtain rfl := mem_singleton.mp hl
      exact ha
    · cases hl
  | readGate | replay | countTimers | countRetired => cases hl

def Tables.ofTenant (t : Tables) (tenantID : String) : List Entry :=
  t.entries.filter fun e => e.tenantID = tenantID

/-- The counter of a tenant protects its logs. -/
theorem sequence_protects (tid : String) :
    schema.Protects (.sequence tid) fun t => t.ofTenant tid := by
  intro t held q r ha hl w hw t'
  cases q with
  | append e =>
    obtain rfl := mem_singleton.mp hw
    have hne : e.tenantID ≠ tid := by
      rintro rfl
      exact hl (mem_singleton_self _)
    simp only [Tables.apply]
    split
    · rfl
    · simp [Tables.ofTenant, hne]
  | insertTimer row =>
    obtain rfl := mem_singleton.mp hw
    simp only [Tables.apply]
    split <;> rfl
  | markFired key =>
    obtain rfl := mem_singleton.mp hw
    rfl
  | readGate | replay | countTimers | claimDue | countRetired => cases hw

theorem gate_eq_ofTenant (t : Tables) (tid rid sid : String) : t.gate tid rid sid =
      (t.ofTenant tid).filter (Entry.ofGate tid rid sid) := by
  rw [Tables.ofTenant, filter_filter]
  refine filter_congr fun e _ => ?_
  by_cases ht : e.tenantID = tid
  · simp [ht]
  · simp [Entry.ofGate, Entry.ofRun, ht]

theorem entries_prefix_apply (t : Tables) (w : Write) : t.entries <+: (t.apply w).entries := by
  cases w with
  | append e =>
    simp only [Tables.apply]
    split
    · exact prefix_rfl
    · exact prefix_append _ _
  | arm row =>
    simp only [Tables.apply]
    split <;> exact prefix_rfl
  | fire key => exact prefix_rfl

theorem entries_prefix_foldl (ws : List Write) (t : Tables) :
    t.entries <+: (ws.foldl Tables.apply t).entries := by
  induction ws generalizing t with
  | nil => exact prefix_rfl
  | cons w ws ih => exact (entries_prefix_apply t w).trans (ih _)

theorem mem_entries_foldl {ws : List Write} {e : Entry} (h : e ∈ (ws.foldl Tables.apply t).entries) :
    e ∈ t.entries ∨ .append e ∈ ws := by
  induction ws generalizing t with
  | nil => exact .inl h
  | cons w ws ih =>
    rcases ih h with h | h
    · cases w with
      | append d =>
        simp only [Tables.apply] at h
        split at h
        · exact .inl h
        · rcases mem_append.mp h with h | h
          · exact .inl h
          · obtain rfl := mem_singleton.mp h
            exact .inr mem_cons_self
      | arm row =>
        simp only [Tables.apply] at h
        split at h <;> exact .inl h
      | fire key => exact .inl h
    · exact .inr (mem_cons_of_mem _ h)

theorem log_append_of (e : Entry) (he : e.ofRun tid rid = true) :
    (t.apply (.append e)).log tid rid = (t.log tid rid).append e.event := by
  obtain ⟨rfl, rfl⟩ : e.tenantID = tid ∧ e.runID = rid := of_decide_eq_true he
  simp only [Tables.apply, Log.append]
  split
  · rfl
  · simp [Tables.log, he]

theorem log_append_of_not (e : Entry) (he : e.ofRun tid rid = false) :
    (t.apply (.append e)).log tid rid = t.log tid rid := by
  simp only [Tables.apply]
  split
  · rfl
  · simp [Tables.log, he]

/-! ### Verdicts -/

def settles (stepID : String) (e : Event) : Bool :=
  decide (e.stepID = stepID) &&
    match e.payload with
    | .stepDispatched _ | .stepSucceeded _ | .stepFailed | .stepAttemptLost _ => true
    | _ => false

theorem terminal_fold {sid : String} {s : RunState} {e : Event}
    (he : settles sid e = false) : (s.fold e).terminal sid = s.terminal sid := by
  obtain ⟨id, attempt, pa, at_⟩ := e
  have hne : ∀ v, (Function.update s.terminal id v) sid = s.terminal sid ∨ id = sid := by
    intro v
    by_cases hid : id = sid
    · exact .inr hid
    · exact .inl (Function.update_of_ne (Ne.symm hid) _ _)
  cases pa with
  | stepDispatched d => exact (hne none).resolve_right (by simpa [settles] using he)
  | stepSucceeded outputs | stepFailed => exact (hne _).resolve_right (by simpa [settles] using he)
  | stepAttemptLost fe =>
    simp only [RunState.fold]
    split
    · exact (hne _).resolve_right (by simpa [settles] using he)
    · rfl
  | _ => rfl

def Tables.verdict (t : Tables) (key : TimerKey) : Option Verdict :=
  (RunState.ofLog (t.log key.tenantID key.runID)).terminal key.stepID

theorem verdict_foldl {key : TimerKey} {ens : List Entry} {t : Tables}
    (h : ∀ e ∈ ens, e.ofRun key.tenantID key.runID = true → settles key.stepID e.event = false) :
    ((ens.map Write.append).foldl Tables.apply t).verdict key = t.verdict key := by
  induction ens generalizing t with
  | nil => rfl
  | cons e ens ih =>
    obtain ⟨he, hr⟩ := forall_mem_cons.mp h
    rw [map_cons, foldl_cons, ih hr, Tables.verdict, Tables.verdict]
    cases hru : e.ofRun key.tenantID key.runID with
    | false => rw [log_append_of_not e hru]
    | true =>
      rw [log_append_of e hru]
      rcases Log.append_cases (t.log key.tenantID key.runID) e.event with heq | heq
      · rw [heq]
      · rw [heq, RunState.ofLog_snoc, terminal_fold (he hru)]

end Dhole.RunStore
