import Dhole.Compose
import Dhole.Operations

/-! The usage ledger. A row is one unit of metered work, and what the work was is the key of
the row, so recording it again adds nothing. The limits of a tenant stand beside the ledger
and do not change here. Each statement is one call of the store and takes effect at once;
an insert that fails may have been written all the same. -/

namespace Dhole.Tenancy

open Interleave Prog

/-! ### Rows -/

inductive UsageKind where
  | unset
  | runStarted
  | stepSeconds
  | stepSecondsUnbilled
  | cacheHit
  | casBytes
  | casBytesReleased
deriving DecidableEq

def UsageKind.text : UsageKind → String
  | .unset => ""
  | .runStarted => "run_started"
  | .stepSeconds => "step_seconds"
  | .stepSecondsUnbilled => "step_seconds_unbilled"
  | .cacheHit => "cache_hit"
  | .casBytes => "cas_bytes"
  | .casBytesReleased => "cas_bytes_released"

/-- Instants are nanoseconds since the Unix epoch. -/
structure Usage where
  kind : UsageKind
  runID : String := ""
  stepID : String := ""
  attempt : ℕ := 0
  quantity : ℤ := 0
  billable : Bool := false
  at_ : ℤ
deriving DecidableEq

structure Row where
  tenantID : String
  usage : Usage
deriving DecidableEq

structure UsageKey where
  tenantID : String
  kind : UsageKind
  runID : String
  stepID : String
  attempt : ℕ
deriving DecidableEq

def Row.key (row : Row) : UsageKey :=
  ⟨row.tenantID, row.usage.kind, row.usage.runID, row.usage.stepID, row.usage.attempt⟩

abbrev Ledger := List Row

def Ledger.Has (ledger : Ledger) (key : UsageKey) : Prop := key ∈ ledger.map Row.key

instance (ledger : Ledger) (key : UsageKey) : Decidable (ledger.Has key) :=
  inferInstanceAs (Decidable (key ∈ ledger.map Row.key))

/-- `INSERT ... ON CONFLICT DO NOTHING`. -/
def Ledger.insert (ledger : Ledger) (row : Row) : Ledger :=
  if ledger.Has row.key then ledger else ledger ++ [row]

variable {led : Ledger}

theorem Ledger.insert_of_has {row : Row} (h : led.Has row.key) :
    led.insert row = led := if_pos h

theorem Ledger.insert_of_not_has {row : Row} (h : ¬ led.Has row.key) :
    led.insert row = led ++ [row] := if_neg h

theorem Ledger.prefix_insert (led : Ledger) (row : Row) : led <+: led.insert row := by
  by_cases h : led.Has row.key
  · rw [insert_of_has h]
  · rw [insert_of_not_has h]
    exact List.prefix_append _ _

theorem Ledger.has_insert (led : Ledger) (row : Row) : (led.insert row).Has row.key := by
  by_cases h : led.Has row.key
  · rwa [insert_of_has h]
  · rw [insert_of_not_has h]
    simp [Ledger.Has]

theorem Ledger.Has.mono {later : Ledger} {key : UsageKey} (h : led.Has key)
    (hle : led <+: later) : later.Has key :=
  List.map_subset Row.key hle.subset h

/-! ### Counting runs -/

def nanosPerDay : ℤ := 24 * 60 * 60 * 1000000000

def startOfDay (now : ℤ) : ℤ := now - now % nanosPerDay

def Row.counts (tenantID : String) (kind : UsageKind) (row : Row) : Bool :=
  row.tenantID = tenantID ∧ row.usage.kind = kind

def Ledger.countRun (ledger : Ledger) (tenantID : String) (kind : UsageKind) (runID : String) : ℕ :=
  ledger.countP fun row => row.counts tenantID kind ∧ row.usage.runID = runID

def Ledger.countSince (ledger : Ledger) (tenantID : String) (kind : UsageKind) (since : ℤ) : ℕ :=
  ledger.countP fun row => row.counts tenantID kind ∧ since ≤ row.usage.at_

/-! ### Limits -/

inductive QuotaName where
  | maxConcurrentSteps
  | maxRunsPerDay
  | maxCASBytes
deriving DecidableEq

def QuotaName.text : QuotaName → String
  | .maxConcurrentSteps => "max_concurrent_steps"
  | .maxRunsPerDay => "max_runs_per_day"
  | .maxCASBytes => "max_cas_bytes"

structure Quota where
  maxConcurrentSteps : ℤ
  maxRunsPerDay : ℤ
  maxCASBytes : ℤ
deriving DecidableEq

def defaultQuota : Quota := ⟨64, 1000, 64 * 2 ^ 30⟩

/-! ### Statements -/

inductive ReadRes (α : Type) where
  | ok (a : α)
  | failed (cause : Text)

inductive InsertRes where
  | affected (new : Bool)
  | failed (written : Bool) (cause : Text)

inductive LedgerOp where
  | selectQuota (tenantID : String)
  | now
  | selectRunStarted (tenantID : String) (kind : UsageKind) (runID : String)
  | countRunsToday (tenantID : String) (kind : UsageKind) (since : ℤ)
  | insertUsage (row : Row)

def LedgerOp.Res : LedgerOp → Type
  | .selectQuota _ => ReadRes (Option Quota)
  | .now => ℤ
  | .selectRunStarted .. => ReadRes ℕ
  | .countRunsToday .. => ReadRes ℕ
  | .insertUsage _ => InsertRes

def ledgerSig : Sig where
  Op := LedgerOp
  Res := LedgerOp.Res

abbrev LedgerEvent := Interleave.Event ledgerSig

abbrev LedgerHistory := List (Act ledgerSig)

/-- A count that was answered is the count, and an insert says whether its row was new. -/
def answersLedger (quotas : String → Option Quota) (ledger : Ledger) : LedgerEvent → Prop
  | ⟨.selectQuota tenantID, .ok q⟩ => q = quotas tenantID
  | ⟨.selectRunStarted tenantID kind runID, .ok n⟩ => n = ledger.countRun tenantID kind runID
  | ⟨.countRunsToday tenantID kind since, .ok n⟩ => n = ledger.countSince tenantID kind since
  | ⟨.insertUsage row, .affected new⟩ => new = !decide (ledger.Has row.key)
  | _ => True

def nextLedger (ledger : Ledger) : LedgerEvent → Ledger
  | ⟨.insertUsage row, .affected _⟩ => ledger.insert row
  | ⟨.insertUsage row, .failed written _⟩ => if written then ledger.insert row else ledger
  | _ => ledger

def ledgerWorld (quotas : String → Option Quota) : World ledgerSig where
  State := Ledger
  init := []
  Answers := answersLedger quotas
  next := nextLedger

theorem nextLedger_cases (led : Ledger) (e : LedgerEvent) : nextLedger led e = led ∨
      ∃ row, e.op = .insertUsage row ∧ nextLedger led e = led.insert row := by
  obtain ⟨op, r⟩ := e
  cases op with
  | selectQuota | now | selectRunStarted | countRunsToday => exact .inl rfl
  | insertUsage row =>
    obtain _ | ⟨written, ca⟩ := (r : InsertRes)
    · exact .inr ⟨row, rfl, rfl⟩
    · cases written with
      | false => exact .inl rfl
      | true => exact .inr ⟨row, rfl, rfl⟩

theorem prefix_nextLedger (led : Ledger) (e : LedgerEvent) : led <+: nextLedger led e := by
  obtain heq | ⟨row, -, heq⟩ := nextLedger_cases led e
  · rw [heq]
  · rw [heq]
    exact led.prefix_insert row

/-! ### The store -/

abbrev LedgerProg := ExceptT Text (Prog ledgerSig)

def selectQuota (tenantID : String) : Prog ledgerSig (ReadRes (Option Quota)) :=
  perform (S := ledgerSig) (.selectQuota tenantID)

def now : Prog ledgerSig ℤ := perform (S := ledgerSig) .now

def selectRunStarted (tenantID : String) (kind : UsageKind) (runID : String) :
    Prog ledgerSig (ReadRes ℕ) :=
  perform (S := ledgerSig) (.selectRunStarted tenantID kind runID)

def countRunsToday (tenantID : String) (kind : UsageKind) (since : ℤ) :
    Prog ledgerSig (ReadRes ℕ) :=
  perform (S := ledgerSig) (.countRunsToday tenantID kind since)

def insertUsage (row : Row) : Prog ledgerSig InsertRes :=
  perform (S := ledgerSig) (.insertUsage row)

def fail {α : Type} (text : Text) : LedgerProg α := throw text

def tenantRequired : String := "tenant scope required"

def quota (tenantID : String) : LedgerProg Quota :=
  if tenantID = "" then fail ["tenancy: reading a quota: ", tenantRequired]
  else do
    match ← selectQuota tenantID with
    | .ok q => pure (q.getD defaultQuota)
    | .failed cause =>
      fail ([.lit "tenancy: reading the quota for ", .quoted tenantID, .lit ": "] ++ cause)

def runStartedToday (tenantID runID : String) : LedgerProg Bool := do
  match ← selectRunStarted tenantID .runStarted runID with
  | .ok n => pure (0 < n)
  | .failed cause =>
    fail ([.lit "tenancy: checking whether run ", .lit runID, .lit " was admitted: "] ++ cause)

def runsStartedToday (tenantID : String) (now : ℤ) : LedgerProg ℕ :=
  if tenantID = "" then fail ["tenancy: counting runs: ", tenantRequired]
  else do
    match ← countRunsToday tenantID .runStarted (startOfDay now) with
    | .ok n => pure n
    | .failed cause =>
      fail ([.lit "tenancy: counting runs for ", .quoted tenantID, .lit ": "] ++ cause)

/-- The instant of Go's zero `time.Time`. -/
def zeroTime : ℤ := -62135596800 * 1000000000

def recordUsage (tenantID : String) (u : Usage) : LedgerProg Bool :=
  if tenantID = "" then fail ["tenancy: recording usage: ", tenantRequired]
  else if u.kind = .unset then fail ["tenancy: recording usage: a kind is required"]
  else if u.quantity < 0 then
    fail ["tenancy: recording usage: quantity cannot be negative, got ", toString u.quantity]
  else if u.at_ = zeroTime then fail ["tenancy: recording usage: a timestamp is required"]
  else do
    match ← insertUsage ⟨tenantID, u⟩ with
    | .affected new => pure new
    | .failed _ cause =>
      fail ([.lit "tenancy: recording ", .lit u.kind.text, .lit " usage for ", .lit u.runID,
        .lit "/", .lit u.stepID, .lit ": "] ++ cause)

/-! ### What each of them does -/

def Failed : LedgerEvent → Prop
  | ⟨.selectQuota _, .failed _⟩ => True
  | ⟨.selectRunStarted .., .failed _⟩ => True
  | ⟨.countRunsToday .., .failed _⟩ => True
  | ⟨.insertUsage _, .failed ..⟩ => True
  | _ => False

def limited (tenantID : String) (q : Option Quota) : LedgerEvent :=
  ⟨.selectQuota tenantID, ReadRes.ok q⟩

def checked (tenantID runID : String) (n : ℕ) : LedgerEvent :=
  ⟨.selectRunStarted tenantID .runStarted runID, ReadRes.ok n⟩

def counted (tenantID : String) (now : ℤ) (n : ℕ) : LedgerEvent :=
  ⟨.countRunsToday tenantID .runStarted (startOfDay now), ReadRes.ok n⟩

def inserted (row : Row) (new : Bool) : LedgerEvent := ⟨.insertUsage row, InsertRes.affected new⟩

variable {G : List LedgerEvent → LedgerEvent → Prop} {h : List LedgerEvent}
  {tid rid : String}

theorem wp_quota {Q : List LedgerEvent → Except Text Quota → Prop} (ht : tid ≠ "")
    (hG : ∀ r, G h ⟨.selectQuota tid, r⟩)
    (hok : ∀ q, Q (h ++ [limited tid q]) (.ok (q.getD defaultQuota)))
    (hf : ∀ e text, Failed e → Q (h ++ [e]) (.error text)) : wp G (quota tid).run Q h := by
  rw [quota, if_neg ht]
  intro r
  refine ⟨hG r, ?_⟩
  cases (r : ReadRes (Option Quota)) with
  | ok q => exact hok q
  | failed ca => exact hf _ _ (by trivial)

variable {Q : List LedgerEvent → Except Text Bool → Prop}

theorem wp_runStartedToday (hG : ∀ r, G h ⟨.selectRunStarted tid .runStarted rid, r⟩)
    (hok : ∀ n, Q (h ++ [checked tid rid n]) (.ok (0 < n)))
    (hf : ∀ e text, Failed e → Q (h ++ [e]) (.error text)) :
    wp G (runStartedToday tid rid).run Q h := by
  intro r
  refine ⟨hG r, ?_⟩
  cases (r : ReadRes ℕ) with
  | ok n => exact hok n
  | failed ca => exact hf _ _ (by trivial)

theorem wp_runsStartedToday {Q : List LedgerEvent → Except Text ℕ → Prop} {now : ℤ}
    (ht : tid ≠ "") (hG : ∀ r, G h ⟨.countRunsToday tid .runStarted (startOfDay now), r⟩)
    (hok : ∀ n, Q (h ++ [counted tid now n]) (.ok n))
    (hf : ∀ e text, Failed e → Q (h ++ [e]) (.error text)) :
    wp G (runsStartedToday tid now).run Q h := by
  rw [runsStartedToday, if_neg ht]
  intro r
  refine ⟨hG r, ?_⟩
  cases (r : ReadRes ℕ) with
  | ok n => exact hok n
  | failed ca => exact hf _ _ (by trivial)

theorem wp_recordUsage {u : Usage} (hG : ∀ r, G h ⟨.insertUsage ⟨tid, u⟩, r⟩)
    (hok : ∀ new, Q (h ++ [inserted ⟨tid, u⟩ new]) (.ok new))
    (hr : ∀ text, Q h (.error text)) (hf : ∀ e text, Failed e → Q (h ++ [e]) (.error text)) :
    wp G (recordUsage tid u).run Q h := by
  unfold recordUsage
  split
  · exact hr _
  split
  · exact hr _
  split
  · exact hr _
  split
  · exact hr _
  intro r
  refine ⟨hG r, ?_⟩
  cases (r : InsertRes) with
  | affected new => exact hok new
  | failed written ca => exact hf _ _ (by trivial)

end Dhole.Tenancy
