import Dhole.Ledger
import Dhole.Moments

/-! The daily run quota. A call reads the limit and the clock, asks whether the run is in the
ledger, counts the runs since midnight, and records the run if the count is below the limit.
These are statements of their own, and calls of other planes fall between them. -/

namespace Dhole.Tenancy

open Interleave Prog List

structure Decision where
  tenantID : String
  quota : QuotaName
  limit : ℤ
  observed : ℤ
  requested : ℤ
  allowed : Bool
  reason : Text := []
deriving DecidableEq

def allow (tenantID : String) (name : QuotaName) (limit observed requested : ℤ) : Decision where
  tenantID
  quota := name
  limit
  observed
  requested
  allowed := true

def refuse (tenantID : String) (name : QuotaName) (limit observed requested : ℤ) : Decision where
  tenantID
  quota := name
  limit
  observed
  requested
  allowed := false
  reason := [.lit "tenant ", .quoted tenantID, .lit " is at its ", .lit name.text,
    .lit " quota: limit ", .lit (toString limit), .lit ", already used ", .lit (toString observed),
    .lit ", requested ", .lit (toString requested)]

def startedRun (runID : String) (now : ℤ) : Usage where
  kind := .runStarted
  runID
  quantity := 1
  billable := true
  at_ := now

def admitRun (tenantID runID : String) : LedgerProg Decision :=
  if tenantID = "" then fail ["tenancy: admitting a run: ", tenantRequired]
  else if runID = "" then fail ["tenancy: admitting a run: a run id is required"]
  else do
    let q ← quota tenantID
    let now ← now
    let counted ← runStartedToday tenantID runID
    let used ← runsStartedToday tenantID now
    if counted then pure (allow tenantID .maxRunsPerDay q.maxRunsPerDay used 0)
    else if q.maxRunsPerDay ≤ used then
      pure (refuse tenantID .maxRunsPerDay q.maxRunsPerDay used 1)
    else do
      let _ ← recordUsage tenantID (startedRun runID now)
      pure (allow tenantID .maxRunsPerDay q.maxRunsPerDay (used + 1) 1)

/-- One call of a plane: the admission of a run, or the metering of other work. -/
inductive Caller where
  | admission (tenantID runID : String)
  | meter (tenantID : String) (usage : Usage) (hkind : usage.kind ≠ .runStarted)

def Caller.prog : Caller → Prog ledgerSig (Except Text (Option Decision))
  | .admission tenantID runID => (admitRun tenantID runID >>= fun d => pure (some d)).run
  | .meter tenantID usage _ => (recordUsage tenantID usage >>= fun _ => pure none).run

abbrev Calls (quotas : String → Option Quota) (callers : ℕ → Caller) (tr : LedgerHistory) : Prop :=
  Reach (ledgerWorld quotas) (fun i => (callers i).prog) tr

def ledgerOf (quotas : String → Option Quota) (tr : LedgerHistory) : Ledger :=
  (ledgerWorld quotas).state tr

def limitOf (quotas : String → Option Quota) (tenantID : String) : ℤ :=
  ((quotas tenantID).getD defaultQuota).maxRunsPerDay

/-! ### The runs of a day -/

def Ledger.runsOn (ledger : Ledger) (tenantID : String) (day : ℤ) : Finset String :=
  ((ledger.filter fun row => row.counts tenantID .runStarted ∧ startOfDay row.usage.at_ = day).map
    (·.usage.runID)).toFinset

theorem startOfDay_le (now : ℤ) : startOfDay now ≤ now := by
  have := Int.emod_nonneg now (show nanosPerDay ≠ 0 by decide)
  unfold startOfDay
  omega

theorem Ledger.card_runsOn_le (led : Ledger) (tid : String) (day : ℤ) :
    (led.runsOn tid day).card ≤ led.countSince tid .runStarted day := by
  refine (toFinset_card_le _).trans ?_
  rw [length_map, ← countP_eq_length_filter]
  refine countP_mono_left fun row _ hr => ?_
  obtain ⟨hc, hd⟩ := of_decide_eq_true hr
  exact decide_eq_true ⟨hc, hd ▸ startOfDay_le _⟩

theorem runsOn_snoc (led : Ledger) (row : Row) (tid : String) (day : ℤ) :
    Ledger.runsOn (led ++ [row]) tid day =
      if row.counts tid .runStarted ∧ startOfDay row.usage.at_ = day then
        insert row.usage.runID (led.runsOn tid day) else led.runsOn tid day := by
  by_cases h : row.counts tid .runStarted ∧ startOfDay row.usage.at_ = day
  · simp [Ledger.runsOn, h]
  · simp [Ledger.runsOn, h]

variable {ledger led : Ledger}

theorem Ledger.countRun_mono {later : Ledger} (hle : led <+: later) (tid : String)
    (kind : UsageKind) (rid : String) : led.countRun tid kind rid ≤ later.countRun tid kind rid :=
  hle.sublist.countP_le

theorem Ledger.mem_runsOn_of_countRun {tid rid : String}
    (h : 0 < led.countRun tid .runStarted rid) : ∃ day, rid ∈ led.runsOn tid day := by
  obtain ⟨row, hr, hc⟩ := countP_pos_iff.mp h
  obtain ⟨ht, hru⟩ := of_decide_eq_true hc
  exact ⟨startOfDay row.usage.at_, by simpa [runsOn] using ⟨row, ⟨hr, ht, rfl⟩, hru⟩⟩

theorem Ledger.countRun_insert_pos (led : Ledger) (tid rid : String) (now : ℤ) :
    0 < (led.insert ⟨tid, startedRun rid now⟩).countRun tid .runStarted rid := by
  obtain ⟨row, hr, hk⟩ := mem_map.mp (led.has_insert ⟨tid, startedRun rid now⟩)
  refine countP_pos_iff.mpr ⟨row, hr, ?_⟩
  simp only [Row.key, UsageKey.mk.injEq] at hk
  simp [Row.counts, hk, startedRun]

/-! ### What a call does, and why -/

/-- An admission records its own run, on a count below the limit that it made for the day it
dates the run to. -/
def Justified (caller : Caller) (h : List LedgerEvent) (e : LedgerEvent) : Prop :=
  match caller, (e.op : LedgerOp) with
  | .admission tenantID runID, .insertUsage row =>
    ∃ q now n, row = ⟨tenantID, startedRun runID now⟩ ∧ limited tenantID q ∈ h ∧
      counted tenantID now n ∈ h ∧ n < (q.getD defaultQuota).maxRunsPerDay
  | .meter .., .insertUsage row => row.usage.kind ≠ .runStarted
  | _, _ => True

/-- The call found its run in the ledger, or recorded it there. -/
def Entered (tenantID runID : String) (h : List LedgerEvent) : Prop :=
  (∃ n, checked tenantID runID (n + 1) ∈ h) ∨
    ∃ now new, inserted ⟨tenantID, startedRun runID now⟩ new ∈ h

def Explained (tenantID runID : String) (h : List LedgerEvent) :
    Except Text (Option Decision) → Prop
  | .ok d => tenantID ≠ "" ∧ runID ≠ "" ∧ ∃ decision, d = some decision ∧
      if decision.allowed then Entered tenantID runID h else checked tenantID runID 0 ∈ h
  | .error _ => tenantID = "" ∨ runID = "" ∨ (∃ e ∈ h, Failed e) ∨ checked tenantID runID 0 ∈ h

variable {tenantID tid runID rid : String} {h : List LedgerEvent}

theorem wp_admission : wp (Justified (.admission tid rid)) (Caller.admission tid rid).prog
    (Explained tid rid) h := by
  simp only [Caller.prog, admitRun]
  by_cases ht : tid = ""
  · rw [if_pos ht]
    exact .inl ht
  by_cases hr : rid = ""
  · rw [if_neg ht, if_pos hr]
    exact .inr (.inl hr)
  rw [if_neg ht, if_neg hr]
  have hf : ∀ (g : List LedgerEvent) e text, Failed e →
      Explained tid rid (g ++ [e]) (.error text) := fun g e text he =>
    .inr (.inr (.inl ⟨e, by simp, he⟩))
  refine wp_run_bind.mpr (wp_run_bind.mpr ?_)
  refine wp_quota ht (fun _ => trivial) (fun q => ?_) (hf _)
  refine wp_run_bind.mpr fun now => ⟨trivial, wp_run_bind.mpr ?_⟩
  refine wp_runStartedToday (fun _ => trivial) (fun n => ?_) (hf _)
  refine wp_run_bind.mpr ?_
  refine wp_runsStartedToday ht (fun _ => trivial) (fun used => ?_) (hf _)
  obtain _ | n := n
  case succ =>
    exact ⟨ht, hr, _, rfl, .inl ⟨n, by simp⟩⟩
  dsimp only
  have hz : ∀ g, checked tid rid 0 ∈ h ++ [limited tid q] ++ [⟨.now, now⟩] ++
      [checked tid rid 0] ++ g := by simp
  by_cases hl : (q.getD defaultQuota).maxRunsPerDay ≤ used
  · rw [if_pos hl]
    exact ⟨ht, hr, _, rfl, hz _⟩
  rw [if_neg hl]
  refine wp_run_bind.mpr (wp_recordUsage (fun _ => ?_) (fun new => ?_) (fun text => ?_) (hf _))
  · exact ⟨q, now, used, rfl, by simp, by simp, not_le.mp hl⟩
  · exact ⟨ht, hr, _, rfl, .inr ⟨now, new, by simp⟩⟩
  · exact .inr (.inr (.inr (hz _)))

theorem wp_meter {usage : Usage} (hk : usage.kind ≠ .runStarted) :
    wp (Justified (.meter tid usage hk)) (Caller.meter tid usage hk).prog (fun _ _ => True) h :=
  wp_run_bind.mpr (wp_recordUsage (fun _ => hk) (fun _ => trivial) (fun _ => trivial)
    fun _ _ _ => trivial)

def Caller.explained : Caller → List LedgerEvent → Except Text (Option Decision) → Prop
  | .admission tenantID runID => Explained tenantID runID
  | .meter .. => fun _ _ => True

theorem Caller.justified (caller : Caller) (h : List LedgerEvent) :
    wp (Justified caller) caller.prog caller.explained h := by
  cases caller with
  | admission tid rid => exact wp_admission
  | meter tid ue hk => exact wp_meter hk

variable {quotas qs : String → Option Quota} {callers : ℕ → Caller} {tr : LedgerHistory}

theorem Calls.guarded (htr : Calls qs callers tr) :
    Guarded (ledgerWorld qs) (fun i => Justified (callers i)) tr :=
  Reach.guarded (fun i => (callers i).justified []) htr

variable {n m : ℕ}

theorem Calls.prefix_take (htr : Calls qs callers tr) (hnm : n ≤ m) :
    ledgerOf qs (tr.take n) <+: ledgerOf qs (tr.take m) :=
  htr.guarded.ordered (fun _ => prefix_rfl)
    (fun _ _ _ => List.IsPrefix.trans) (fun _ _ s e _ _ => prefix_nextLedger s e) hnm

variable {i : ℕ}

theorem Calls.countRun_pos (htr : Calls qs callers tr)
    (he : Entered tid rid (own i (tr.take n))) (hnm : n ≤ m) :
    0 < (ledgerOf qs (tr.take m)).countRun tid .runStarted rid := by
  obtain ⟨k, hme⟩ | ⟨now, new, hme⟩ := he
  · obtain ⟨l, hln, hl⟩ := get_of_mem_own_take hme
    have ha : k + 1 = (ledgerOf qs (tr.take l)).countRun tid .runStarted rid :=
      (htr.guarded.at_get hl).1
    have hm := Ledger.countRun_mono (htr.prefix_take (hln.le.trans hnm)) tid .runStarted rid
    omega
  · obtain ⟨l, hln, hl⟩ := get_of_mem_own_take hme
    have hs : ledgerOf qs (tr.take (l + 1)) =
        (ledgerOf qs (tr.take l)).insert ⟨tid, startedRun rid now⟩ :=
      state_take_succ hl
    refine lt_of_lt_of_le ?_ (Ledger.countRun_mono (htr.prefix_take (hln.trans_le hnm)) _ _ _)
    rw [hs]
    exact Ledger.countRun_insert_pos _ _ _ _

/-- A call that begins when its run is in the ledger admits it, unless a statement fails. -/
theorem Calls.readmitted (htr : Calls qs callers tr) {j : ℕ}
    (hca : callers j = .admission tid rid) (ht : tid ≠ "") (hru : rid ≠ "")
    (hp : ∀ m, n ≤ m → 0 < (ledgerOf qs (tr.take m)).countRun tid .runStarted rid)
    (hl : own j (tr.take n) = []) {r : Except Text (Option Decision)}
    (hr : Returns (callers j).prog (own j tr) r) :
    (∃ d, r = .ok (some d) ∧ d.allowed = true) ∨ ∃ e ∈ own j tr, Failed e := by
  have hc : checked tid rid 0 ∉ own j tr := by
    intro hme
    obtain ⟨m, hm⟩ := get_of_mem_own hme
    have hnm : n ≤ m := by
      by_contra hlt
      have hb := mem_own_of_get ((get_take (not_le.mp hlt)).trans hm)
      rw [hl] at hb
      exact not_mem_nil hb
    have han : 0 = (ledgerOf qs (tr.take m)).countRun tid .runStarted rid :=
      (htr.guarded.at_get hm).1
    exact absurd han (hp m hnm).ne
  rw [hca] at hr
  have he : Explained tid rid (own j tr) r := by
    simpa using wp_returns (wp_admission (h := [])) hr
  cases r with
  | ok d =>
    obtain ⟨-, -, decision, rfl, hd⟩ := he
    cases ha : decision.allowed with
    | true => exact .inl ⟨decision, rfl, ha⟩
    | false => exact absurd (by simpa [ha] using hd) hc
  | error text =>
    obtain h | h | h | h := he
    · exact absurd h ht
    · exact absurd h hru
    · exact .inr h
    · exact absurd h hc

/-! ### The limit -/

/-- Where the event counted a place free, one still is: other runs may have been recorded since, but
not up to the limit. -/
def PlaceLeft (quotas : String → Option Quota) (ledger : Ledger) : LedgerEvent → Prop
  | ⟨.countRunsToday tenantID kind since, .ok n⟩ => (n : ℤ) < limitOf quotas tenantID →
    (ledger.countSince tenantID kind since : ℤ) < limitOf quotas tenantID
  | _ => True

/-- A call that adds a row still finds the places free that it counted on. -/
def CountStands (quotas : String → Option Quota) (tr : LedgerHistory) (a : Act ledgerSig) : Prop :=
  match (a.event.op : LedgerOp) with
  | .insertUsage row => ¬ (ledgerOf quotas tr).Has row.key →
    ∀ e ∈ own a.actor tr, PlaceLeft quotas (ledgerOf quotas tr) e
  | _ => True

instance (quotas : String → Option Quota) (ledger : Ledger) :
    DecidablePred (PlaceLeft quotas ledger) := by
  intro e
  unfold PlaceLeft
  split <;> infer_instance

instance (quotas : String → Option Quota) (tr : LedgerHistory) :
    DecidablePred (CountStands quotas tr) := by
  intro a
  unfold CountStands
  split <;> infer_instance

/-- Where a place is left, a new row leaves its day within the limit. -/
theorem card_runsOn_insert {row : Row} {day : ℤ} (htr : Calls qs callers tr)
    (hcu : row.counts tid .runStarted = true) (hd : startOfDay row.usage.at_ = day)
    (hs : ∀ e ∈ own i tr, PlaceLeft qs (ledgerOf qs tr) e) {r : InsertRes}
    (hj : Justified (callers i) (own i tr) ⟨.insertUsage row, r⟩) :
    (insert row.usage.runID ((ledgerOf qs tr).runsOn tid day)).card ≤ (limitOf qs tid).toNat := by
  obtain ⟨ht, hk⟩ := of_decide_eq_true hcu
  cases hc : callers i with
  | meter _ ue hme =>
    rw [hc] at hj
    exact absurd hk hj
  | admission tenant rid =>
    rw [hc] at hj
    obtain ⟨q, now, n, rfl, hl, hco, hlt⟩ := hj
    obtain rfl : tenant = tid := ht
    have hq : q = qs tenant := by
      obtain ⟨m, hm⟩ := get_of_mem_own hl
      exact (htr.guarded.at_get hm).1
    rw [hq] at hlt
    have hn : ((ledgerOf qs tr).countSince tenant .runStarted day : ℤ) < limitOf qs tenant := by
      rw [← hd]
      exact hs _ hco hlt
    have hca := (ledgerOf qs tr).card_runsOn_le tenant day
    refine (Finset.card_insert_le _ _).trans ?_
    omega

theorem Calls.card_runsOn_le (htr : Calls qs callers tr)
    (hs : Throughout (CountStands qs) tr) (tid : String) (day : ℤ) :
    ((ledgerOf qs tr).runsOn tid day).card ≤ (limitOf qs tid).toNat := by
  induction htr with
  | nil => exact Nat.zero_le _
  | @snoc tr i e q htr ha hst ih =>
    have hb := ih hs.of_append
    have hsa : ledgerOf qs (tr ++ [⟨i, e⟩]) = nextLedger (ledgerOf qs tr) e :=
      World.state_snoc _ _ _
    rw [hsa]
    obtain heq | ⟨row, hop, heq⟩ := nextLedger_cases (ledgerOf qs tr) e
    · rwa [heq]
    rw [heq]
    by_cases hh : (ledgerOf qs tr).Has row.key
    · rwa [Ledger.insert_of_has hh]
    rw [Ledger.insert_of_not_has hh, runsOn_snoc]
    split
    · rename_i hr
      obtain ⟨op, r⟩ := e
      obtain rfl : op = .insertUsage row := hop
      have hj : Justified (callers i) (own i tr) ⟨.insertUsage row, r⟩ :=
        (Calls.guarded (.snoc htr ha hst)).at_split.2
      exact card_runsOn_insert htr hr.1 hr.2 (hs.last hh) hj
    · exact hb

/-- In every history of admissions of any tenants' runs, on any number of planes: as long as
the places a call counted on are not used up before the run it admits is recorded, no day of a
tenant has more runs than the limit; and once a call has admitted a run, the run is counted on some
day and every call that begins later admits it again, unless a statement of that call fails. -/
theorem runs_within_limit (htr : Calls quotas callers tr) (tenantID : String) :
    (Throughout (CountStands quotas) tr → ∀ day,
      ((ledgerOf quotas tr).runsOn tenantID day).card ≤ (limitOf quotas tenantID).toNat) ∧
    ∀ i runID n d, callers i = .admission tenantID runID →
      Returns (callers i).prog (own i (tr.take n)) (.ok (some d)) → d.allowed = true →
      (∃ day, runID ∈ (ledgerOf quotas (tr.take n)).runsOn tenantID day) ∧
      ∀ j r, callers j = .admission tenantID runID → own j (tr.take n) = [] →
        Returns (callers j).prog (own j tr) r →
        (∃ d, r = .ok (some d) ∧ d.allowed = true) ∨ ∃ e ∈ own j tr, Failed e := by
  refine ⟨fun hs day => htr.card_runsOn_le hs tenantID day, ?_⟩
  intro i runID n d hi hd ha
  rw [hi] at hd
  have hep : Explained tenantID runID (own i (tr.take n)) (.ok (some d)) := by
    simpa using wp_returns (wp_admission (h := [])) hd
  obtain ⟨ht, hru, decision, hso, he⟩ := hep
  obtain rfl : d = decision := Option.some.inj hso
  rw [if_pos ha] at he
  have hp := fun m (hnm : n ≤ m) => htr.countRun_pos he hnm
  refine ⟨Ledger.mem_runsOn_of_countRun (hp n le_rfl), ?_⟩
  intro j r hj hl hr
  exact htr.readmitted hj ht hru hp hl hr

/-! ### Two runs for the last place -/

def oneRunADay (_ : String) : Option Quota := some { defaultQuota with maxRunsPerDay := 1 }

def ledgerResolver (quotas : String → Option Quota) (_ : ℕ) (ledger : Ledger) :
    (op : LedgerOp) → op.Res
  | .selectQuota tenantID => .ok (quotas tenantID)
  | .now => (0 : ℤ)
  | .selectRunStarted tenantID kind runID => .ok (ledger.countRun tenantID kind runID)
  | .countRunsToday tenantID kind since => .ok (ledger.countSince tenantID kind since)
  | .insertUsage row => .affected (!decide (ledger.Has row.key))

theorem ledgerResolver_answers (qs : String → Option Quota) (n : ℕ) (led : Ledger)
    (op : LedgerOp) : answersLedger qs led ⟨op, ledgerResolver qs n led op⟩ := by
  cases op <;> first | rfl | trivial

def threeCallers : ℕ → Caller
  | 1 => .admission "acme" "run-b"
  | _ => .admission "acme" "run-a"

def callsOf (schedule : List ℕ) : LedgerHistory :=
  exec (ledgerWorld oneRunADay) (ledgerResolver oneRunADay) (fun i => (threeCallers i).prog)
    schedule

theorem callsOf_calls (sch : List ℕ) : Calls oneRunADay threeCallers (callsOf sch) :=
  exec_reach _ _ (ledgerResolver_answers oneRunADay) _ _

def oneAtATime : LedgerHistory := callsOf [0, 0, 0, 0, 0, 1, 1, 1, 1, 2, 2, 2, 2]

/-- One after the other: the first run takes the place, the second is refused, and the first
is admitted again. -/
theorem oneAtATime_within_limit : Returns (threeCallers 1).prog (own 1 oneAtATime)
      (.ok (some (refuse "acme" .maxRunsPerDay 1 1 1))) ∧
    ((ledgerOf oneRunADay oneAtATime).runsOn "acme" 0).card ≤ 1 ∧
    ∃ r, Returns (threeCallers 2).prog (own 2 oneAtATime) r ∧
      ((∃ d, r = .ok (some d) ∧ d.allowed = true) ∨ ∃ e ∈ own 2 oneAtATime, Failed e) := by
  have htr : Calls oneRunADay threeCallers oneAtATime := callsOf_calls _
  refine ⟨.cons (.cons (.cons (.cons (.nil _)))), ?_, ?_⟩
  · exact (runs_within_limit htr "acme").1 (by decide) 0
  · have hf : Returns (threeCallers 0).prog (own 0 (oneAtATime.take 5))
        (.ok (some (allow "acme" .maxRunsPerDay 1 1 1))) :=
      .cons (.cons (.cons (.cons (.cons (.nil _)))))
    have ha : Returns (threeCallers 2).prog (own 2 oneAtATime)
        (.ok (some (allow "acme" .maxRunsPerDay 1 1 0))) :=
      .cons (.cons (.cons (.cons (.nil _))))
    obtain ⟨-, hl⟩ := (runs_within_limit htr "acme").2 0 "run-a" 5 _ rfl hf rfl
    exact ⟨_, ha, hl 2 _ rfl rfl ha⟩

def atOnce : LedgerHistory := callsOf [0, 0, 0, 0, 1, 1, 1, 1, 0, 1]

/-- Two calls that count before either records its run both admit it, on a limit of one. -/
theorem atOnce_over_limit : Calls oneRunADay threeCallers atOnce ∧
    Returns (threeCallers 0).prog (own 0 atOnce) (.ok (some (allow "acme" .maxRunsPerDay 1 1 1))) ∧
    Returns (threeCallers 1).prog (own 1 atOnce) (.ok (some (allow "acme" .maxRunsPerDay 1 1 1))) ∧
    (limitOf oneRunADay "acme").toNat < ((ledgerOf oneRunADay atOnce).runsOn "acme" 0).card :=
  ⟨callsOf_calls _, .cons (.cons (.cons (.cons (.cons (.nil _))))),
    .cons (.cons (.cons (.cons (.cons (.nil _))))), by decide⟩

end Dhole.Tenancy
