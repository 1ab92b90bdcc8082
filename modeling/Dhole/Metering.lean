import Dhole.Ledger
import Dhole.Lexical
import Dhole.Moments

/-! The meter. A pass reads the log of a run, works out from it what every attempt that has ended
used, and records that, one row an attempt. A row is written once and never corrected, while what
the log says of an attempt may change as it grows, so passes over a growing log agree with one
pass at its end as long as an attempt that has been recorded is judged the same ever after. -/

namespace Dhole.Tenancy

open Interleave Prog Lexical List

/-! ### Attempts -/

inductive RunEventType where
  | stepDispatched
  | stepSucceeded
  | stepFailed
  | stepAttemptLost
  | other
deriving DecidableEq

structure RunEvent where
  type : RunEventType
  stepID : String := ""
  attempt : ℕ := 0
  payload : List UInt8 := []
  at_ : ℤ
deriving DecidableEq

structure AttemptKey where
  stepID : String
  attempt : ℕ
deriving DecidableEq

def RunEvent.key (e : RunEvent) : AttemptKey := ⟨e.stepID, e.attempt⟩

structure MeteredAttempt where
  dispatchedAt : ℤ
  endedAt : ℤ := zeroTime
  cacheHit : Bool
  terminal : Option RunEventType := none

abbrev MeteredAttempts := List (AttemptKey × MeteredAttempt)

def MeteredAttempts.dispatch (attempts : MeteredAttempts) (key : AttemptKey) (a : MeteredAttempt) :
    MeteredAttempts :=
  if key ∈ attempts.map Prod.fst then
    attempts.map fun p => if p.1 = key then (p.1, a) else p
  else attempts ++ [(key, a)]

/-- Nothing where the attempt was not dispatched. -/
def MeteredAttempts.close (attempts : MeteredAttempts) (e : RunEvent) : MeteredAttempts :=
  attempts.map fun p =>
    if p.1 = e.key then (p.1, { p.2 with endedAt := e.at_, terminal := some e.type }) else p

-- `cache_hit` of the JSON of a dispatch
variable (unmarshal dec : List UInt8 → Except Text Bool)

def decodeDispatched (payload : List UInt8) : Except Text Bool :=
  if payload = [] then pure false
  else match unmarshal payload with
    | .ok cacheHit => pure cacheHit
    | .error cause =>
      throw ([.lit "tenancy: decoding a ", .lit "STEP_DISPATCHED", .lit " payload: "] ++ cause)

def observeEvent (runID : String) (attempts : MeteredAttempts) (e : RunEvent) :
    Except Text MeteredAttempts :=
  match e.type with
  | .stepDispatched =>
    match decodeDispatched unmarshal e.payload with
    | .ok cacheHit => pure (attempts.dispatch e.key { dispatchedAt := e.at_, cacheHit })
    | .error cause => throw ([.lit "tenancy: metering run ", .lit runID, .lit ": "] ++ cause)
  | .stepSucceeded | .stepFailed | .stepAttemptLost => pure (attempts.close e)
  | .other => pure attempts

def attemptsOf (runID : String) (events : List RunEvent) : Except Text MeteredAttempts :=
  events.foldlM (observeEvent unmarshal runID) []

/-- `time.Time.Sub` saturates. -/
def durationSince (from_ to_ : ℤ) : ℤ := max (-2 ^ 63) (min (2 ^ 63 - 1) (to_ - from_))

def milliseconds (from_ to_ : ℤ) : ℤ :=
  if durationSince from_ to_ < 0 then 0 else durationSince from_ to_ / 1000000

def charge (runID : String) (p : AttemptKey × MeteredAttempt) : Option Usage :=
  match p.2.terminal with
  | none => none
  | some terminal =>
    if p.2.cacheHit then
      some { kind := .cacheHit, runID, stepID := p.1.stepID, attempt := p.1.attempt,
             quantity := 0, billable := false, at_ := p.2.endedAt }
    else if terminal = .stepAttemptLost then
      some { kind := .stepSecondsUnbilled, runID, stepID := p.1.stepID, attempt := p.1.attempt,
             quantity := milliseconds p.2.dispatchedAt p.2.endedAt, billable := false,
             at_ := p.2.endedAt }
    else
      some { kind := .stepSeconds, runID, stepID := p.1.stepID, attempt := p.1.attempt,
             quantity := milliseconds p.2.dispatchedAt p.2.endedAt, billable := true,
             at_ := p.2.endedAt }

/-- What a pass over the log records when no statement fails: nothing of a log it cannot read,
and nothing from an attempt on that ended at no instant. -/
def recorded (tenantID runID : String) (events : List RunEvent) : List Usage :=
  if tenantID = "" ∨ runID = "" then []
  else match attemptsOf unmarshal runID events with
    | .ok attempts => (attempts.filterMap (charge runID)).takeWhile fun u => u.at_ ≠ zeroTime
    | .error _ => []

def UsageKind.metered : UsageKind → Bool
  | .stepSeconds | .stepSecondsUnbilled | .cacheHit => true
  | _ => false

variable {unmarshal dec : List UInt8 → Except Text Bool} {tenantID tid runID rid : String}
  {events es : List RunEvent} {attempts ats : MeteredAttempts} {u v : Usage}

theorem MeteredAttempts.dispatch_keys {key : AttemptKey} {a : MeteredAttempt}
    (h : (ats.map Prod.fst).Nodup) : ((ats.dispatch key a).map Prod.fst).Nodup := by
  unfold MeteredAttempts.dispatch
  split
  · have hk : (ats.map fun p => if p.1 = key then (p.1, a) else p).map Prod.fst =
        ats.map Prod.fst := by
      rw [map_map]
      refine map_congr_left fun p _ => ?_
      by_cases hp : p.1 = key <;> simp [hp]
    rwa [hk]
  · rename_i hke
    rw [map_append]
    exact h.append (nodup_singleton key) (by simpa using hke)

theorem MeteredAttempts.close_keys (e : RunEvent) :
    (ats.close e).map Prod.fst = ats.map Prod.fst := by
  rw [MeteredAttempts.close, map_map]
  refine map_congr_left fun p _ => ?_
  by_cases hp : p.1 = e.key <;> simp [hp]

theorem observeEvent_keys {e : RunEvent} {ats' : MeteredAttempts} (h : (ats.map Prod.fst).Nodup)
    (ho : observeEvent dec rid ats e = .ok ats') : (ats'.map Prod.fst).Nodup := by
  unfold observeEvent at ho
  split at ho
  case h_1 =>
    split at ho <;> cases ho
    exact MeteredAttempts.dispatch_keys h
  case h_5 =>
    cases ho
    exact h
  all_goals
    cases ho
    rwa [MeteredAttempts.close_keys]

theorem attemptsOf_keys (h : attemptsOf dec rid es = .ok ats) : (ats.map Prod.fst).Nodup := by
  suffices ∀ start : MeteredAttempts, (start.map Prod.fst).Nodup →
      es.foldlM (observeEvent dec rid) start = .ok ats →
      (ats.map Prod.fst).Nodup from this [] nodup_nil h
  clear h
  induction es with
  | nil =>
    intro start hs hf
    cases hf
    exact hs
  | cons e es ih =>
    intro start hs hf
    obtain ⟨mid, hm, hr⟩ := bind_eq_ok_iff.mp hf
    exact ih mid (observeEvent_keys hs hm) hr

theorem milliseconds_nonneg (from_ to_ : ℤ) : 0 ≤ milliseconds from_ to_ := by
  unfold milliseconds
  split
  · exact le_refl 0
  · omega

theorem charge_ended {p : AttemptKey × MeteredAttempt} (h : charge rid p = some u) :
    p.2.terminal ≠ none ∧ u.at_ = p.2.endedAt := by
  unfold charge at h
  split at h
  · cases h
  · rename_i ht
    refine ⟨by simp [ht], ?_⟩
    split_ifs at h <;> cases h <;> rfl

theorem charge_spec {p : AttemptKey × MeteredAttempt} (h : charge rid p = some u) :
    u.runID = rid ∧ AttemptKey.mk u.stepID u.attempt = p.1 ∧ u.kind.metered = true ∧
      0 ≤ u.quantity := by
  unfold charge at h
  split at h
  · cases h
  · split at h
    · cases h
      exact ⟨rfl, rfl, rfl, le_refl 0⟩
    · split at h <;> cases h
      all_goals exact ⟨rfl, rfl, rfl, milliseconds_nonneg _ _⟩

theorem mem_recorded (h : u ∈ recorded dec tid rid es) : (tid ≠ "" ∧ rid ≠ "") ∧ u.at_ ≠ zeroTime ∧
      ∃ ats, attemptsOf dec rid es = .ok ats ∧ ∃ p ∈ ats, charge rid p = some u := by
  unfold recorded at h
  split at h
  · cases h
  · rename_i hi
    split at h
    · rename_i ats hae
      have hc := (takeWhile_sublist _).subset h
      have hat := mem_takeWhile_imp h
      obtain ⟨p, hp, hpu⟩ := mem_filterMap.mp hc
      exact ⟨not_or.mp hi, by simpa using hat, ats, hae, p, hp, hpu⟩
    · cases h

theorem recorded_unique (hu : u ∈ recorded dec tid rid es)
    (hv : v ∈ recorded dec tid rid es) (hs : u.stepID = v.stepID)
    (hae : u.attempt = v.attempt) : u = v := by
  obtain ⟨-, -, ats, hat, p, hp, hpu⟩ := mem_recorded hu
  obtain ⟨-, -, ats', hat', q, hq, hqv⟩ := mem_recorded hv
  obtain rfl : ats = ats' := Except.ok.inj (hat.symm.trans hat')
  have hk : p.1 = q.1 := by
    rw [← (charge_spec hpu).2.1, ← (charge_spec hqv).2.1, hs, hae]
  obtain rfl : p = q := inj_on_of_nodup_map (attemptsOf_keys hat) hp hq hk
  exact Option.some.inj (hpu.symm.trans hqv)

/-! ### Attempts that have ended -/

abbrev RunEvent.Ends (e : RunEvent) : Prop := e.type ≠ .stepDispatched ∧ e.type ≠ .other

/-- The events hold an end of the attempt and no dispatch of it after that. -/
def Ended (events : List RunEvent) (key : AttemptKey) : Prop :=
  ∃ us e vs, events = us ++ e :: vs ∧ e.Ends ∧ e.key = key ∧
    ∀ d ∈ vs, d.key = key → d.type ≠ .stepDispatched

/-- The log can be read, its ends have an instant, and it goes on after the events without a word
on the attempts they show ended. -/
structure Quiet (unmarshal : List UInt8 → Except Text Bool) (events log : List RunEvent) : Prop where
  readable : ∀ e ∈ log, e.type = .stepDispatched → ∃ hit, decodeDispatched unmarshal e.payload = .ok hit
  timed : ∀ e ∈ log, e.Ends → e.at_ ≠ zeroTime
  final : ∃ rest, log = events ++ rest ∧
    ∀ key, Ended events key → ∀ e ∈ rest, e.key = key → e.type = .other

theorem observeEvent_ok {e : RunEvent} (hr : e.type = .stepDispatched →
    ∃ hit, decodeDispatched dec e.payload = .ok hit) : ∃ ats', observeEvent dec rid ats e = .ok ats' := by
  unfold observeEvent
  split
  · rename_i ht
    obtain ⟨hit, hd⟩ := hr ht
    exact ⟨_, by rw [hd]; rfl⟩
  all_goals exact ⟨_, rfl⟩

theorem mem_dispatch {key : AttemptKey} {a : MeteredAttempt} {p : AttemptKey × MeteredAttempt} :
    p ∈ ats.dispatch key a ↔ p = (key, a) ∨ p ∈ ats ∧ p.1 ≠ key := by
  unfold MeteredAttempts.dispatch
  split <;> grind

theorem mem_close {e : RunEvent} {p : AttemptKey × MeteredAttempt} : p ∈ ats.close e ↔
    p ∈ ats ∧ p.1 ≠ e.key ∨ ∃ a, (e.key, a) ∈ ats ∧
      p = (e.key, { a with endedAt := e.at_, terminal := some e.type }) := by
  unfold MeteredAttempts.close
  grind

/-- What is known of an attempt that an event leaves ended: it ended then, or it had before and the
event does not dispatch it. -/
theorem mem_observeEvent {e : RunEvent} {ats' : MeteredAttempts} {p : AttemptKey × MeteredAttempt}
    (ho : observeEvent dec rid ats e = .ok ats') (hp : p ∈ ats') (ht : p.2.terminal ≠ none) :
    (e.Ends ∧ e.key = p.1 ∧ e.at_ = p.2.endedAt) ∨
      p ∈ ats ∧ (e.key = p.1 → e.type ≠ .stepDispatched) := by
  unfold observeEvent at ho
  split at ho
  case h_1 =>
    split at ho <;> cases ho
    obtain rfl | ⟨hm, hne⟩ := mem_dispatch.mp hp
    · exact absurd rfl ht
    · exact .inr ⟨hm, fun h => absurd h.symm hne⟩
  case h_5 hty =>
    cases ho
    exact .inr ⟨hp, fun _ => by simp [hty]⟩
  all_goals
    rename_i hty
    cases ho
    obtain ⟨hm, hne⟩ | ⟨a, -, rfl⟩ := mem_close.mp hp
    · exact .inr ⟨hm, fun h => absurd h.symm hne⟩
    · exact .inl ⟨⟨by rw [hty]; nofun, by rw [hty]; nofun⟩, rfl, rfl⟩

theorem mem_observeEvent_of_other {e : RunEvent} {ats' : MeteredAttempts}
    {p : AttemptKey × MeteredAttempt} (ho : observeEvent dec rid ats e = .ok ats') (hp : p ∈ ats)
    (hq : e.key = p.1 → e.type = .other) : p ∈ ats' := by
  have hne : e.type ≠ .other → p.1 ≠ e.key := fun ht h => ht (hq h.symm)
  unfold observeEvent at ho
  split at ho
  case h_1 hty =>
    split at ho <;> cases ho
    exact mem_dispatch.mpr (.inr ⟨hp, hne (by simp [hty])⟩)
  case h_5 =>
    cases ho
    exact hp
  all_goals
    rename_i hty
    cases ho
    exact mem_close.mpr (.inl ⟨hp, hne (by simp [hty])⟩)

theorem attemptsOf_concat {e : RunEvent} : attemptsOf dec rid (es ++ [e]) = .ok ats ↔
    ∃ mid, attemptsOf dec rid es = .ok mid ∧ observeEvent dec rid mid e = .ok ats := by
  rw [attemptsOf, foldlM_append, bind_eq_ok_iff]
  simp [attemptsOf]

theorem ended_of_mem {p : AttemptKey × MeteredAttempt} (ha : attemptsOf dec rid es = .ok ats)
    (hp : p ∈ ats) (ht : p.2.terminal ≠ none) :
    Ended es p.1 ∧ ∃ e ∈ es, e.Ends ∧ e.at_ = p.2.endedAt := by
  induction es using reverseRecOn generalizing ats with
  | nil =>
    cases ha
    cases hp
  | append_singleton es e ih =>
    obtain ⟨mid, hm, ho⟩ := attemptsOf_concat.mp ha
    obtain ⟨he, hk, hat⟩ | ⟨hin, hn⟩ := mem_observeEvent ho hp ht
    · exact ⟨⟨es, e, [], rfl, he, hk, by simp⟩, e, by simp, he, hat⟩
    · obtain ⟨⟨us, d, vs, rfl, hd, hk, hl⟩, d', hd', hr⟩ := ih hm hin
      refine ⟨⟨us, d, vs ++ [e], by simp, hd, hk, ?_⟩, d', mem_append_left _ hd', hr⟩
      simpa [or_imp, forall_and] using ⟨hl, hn⟩

theorem settled_of_quiet {log : List RunEvent} (hq : Quiet dec es log) :
    recorded dec tid rid es ⊆ recorded dec tid rid log := by
  obtain ⟨hread, htimed, rest, rfl, hfin⟩ := hq
  intro u hu
  obtain ⟨⟨ht, hr⟩, -, ats, ha, p, hp, hpu⟩ := mem_recorded hu
  have hen := (ended_of_mem ha hp (charge_ended hpu).1).1
  -- the attempt stays as it is while the rest of the log is read
  obtain ⟨ats', ha', hp'⟩ : ∃ ats', attemptsOf dec rid (es ++ rest) = .ok ats' ∧ p ∈ ats' := by
    clear htimed
    induction rest using reverseRecOn with
    | nil => exact ⟨ats, by simpa using ha, hp⟩
    | append_singleton rest e ih =>
      rw [← append_assoc] at hread
      obtain ⟨mid, hm, hin⟩ := ih (fun key hk e he => hfin key hk e (mem_append_left _ he))
        fun e he => hread e (mem_append_left _ he)
      obtain ⟨ats', ho⟩ : ∃ ats', observeEvent dec rid mid e = .ok ats' :=
        observeEvent_ok (hread e (by simp))
      refine ⟨ats', by rw [← append_assoc]; exact attemptsOf_concat.mpr ⟨mid, hm, ho⟩, ?_⟩
      exact mem_observeEvent_of_other ho hin (hfin p.1 hen e (by simp))
  have hall : ∀ v ∈ ats'.filterMap (charge rid), v.at_ ≠ zeroTime := by
    intro v hv
    obtain ⟨q, hq, hqv⟩ := mem_filterMap.mp hv
    obtain ⟨hne, hat⟩ := charge_ended hqv
    obtain ⟨-, e, he, hen, hae⟩ := ended_of_mem ha' hq hne
    rw [hat, ← hae]
    exact htimed e he hen
  have hne : ¬ (tid = "" ∨ rid = "") := not_or.mpr ⟨ht, hr⟩
  simp only [recorded, if_neg hne, ha']
  rw [takeWhile_eq_self_iff.mpr fun v hv => by simpa using hall v hv]
  exact mem_filterMap.mpr ⟨p, hp', hpu⟩

/-! ### A pass -/

inductive RunLogOp where
  | replay (tenantID runID : String)
  | append (tenantID runID : String) (e : RunEvent)

def RunLogOp.Res : RunLogOp → Type
  | .replay .. => ReadRes (List RunEvent)
  | .append .. => Unit

abbrev runLogSig : Sig where
  Op := RunLogOp
  Res := RunLogOp.Res

abbrev RunLogs := String → String → List RunEvent

abbrev runLogWorld : World runLogSig where
  State := RunLogs
  init := fun _ _ => []
  Answers
    | logs, ⟨.replay tenantID runID, .ok events⟩ => events = logs tenantID runID
    | _, _ => True
  next
    | logs, ⟨.append tenantID runID e, _⟩ => fun t r =>
      if t = tenantID ∧ r = runID then logs t r ++ [e] else logs t r
    | logs, _ => logs

abbrev meterSig : Sig := ledgerSig.sum runLogSig

abbrev MeterEvent := Interleave.Event meterSig

abbrev meterWorld (quotas : String → Option Quota) : World meterSig :=
  (ledgerWorld quotas).sum runLogWorld

abbrev MeterProg := ExceptT Text (Prog meterSig)

structure Summary where
  stepMillis : ℤ := 0
  billedAttempts : ℕ := 0
  unbilledAttempts : ℕ := 0
  cacheHits : ℕ := 0

def Summary.add (sum : Summary) (u : Usage) : Summary :=
  match u.kind with
  | .cacheHit => { sum with cacheHits := sum.cacheHits + 1 }
  | .stepSecondsUnbilled => { sum with unbilledAttempts := sum.unbilledAttempts + 1 }
  | .stepSeconds => { sum with
      billedAttempts := sum.billedAttempts + 1, stepMillis := sum.stepMillis + u.quantity }
  | .unset | .runStarted | .casBytes | .casBytesReleased => sum

def record (tenantID : String) (u : Usage) : MeterProg Bool :=
  ExceptT.mk (recordUsage tenantID u).run.inl

def recordAll (tenantID : String) : List Usage → Summary → MeterProg Summary
  | [], sum => pure sum
  | u :: rest, sum => do
    let written ← record tenantID u
    recordAll tenantID rest (if written then sum.add u else sum)

variable (unmarshal dec : List UInt8 → Except Text Bool)

def meterEvents (tenantID runID : String) (events : List RunEvent) : MeterProg Summary :=
  match attemptsOf unmarshal runID events with
  | .error text => throw text
  | .ok attempts => recordAll tenantID (attempts.filterMap (charge runID)) {}

def meterRun (tenantID runID : String) : MeterProg Summary :=
  if tenantID = "" then throw ([.lit "tenancy: metering a run: ", .lit tenantRequired] : Text)
  else if runID = "" then throw ([.lit "tenancy: metering a run: a run id is required"] : Text)
  else do
    match ← perform (S := meterSig) (.inr (.replay tenantID runID)) with
    | .failed cause => throw ([.lit "tenancy: metering run ", .lit runID, .lit ": "] ++ cause)
    | .ok events => meterEvents unmarshal tenantID runID events

/-! ### What a pass does -/

def replayed (tenantID runID : String) (events : List RunEvent) : MeterEvent :=
  ⟨.inr (.replay tenantID runID), ReadRes.ok events⟩

def MeterFailed : MeterEvent → Prop
  | ⟨.inl op, r⟩ => Failed ⟨op, r⟩
  | ⟨.inr (.replay ..), .failed _⟩ => True
  | ⟨.inr _, _⟩ => False

variable {unmarshal dec : List UInt8 → Except Text Bool} {h : List MeterEvent}
  {G : List MeterEvent → MeterEvent → Prop}

/-- A pass writes what it records of a log it has read. -/
def Metered (unmarshal : List UInt8 → Except Text Bool) (tenantID runID : String)
    (h : List MeterEvent) : MeterEvent → Prop
  | ⟨.inl (.insertUsage row), _⟩ => ∃ events, replayed tenantID runID events ∈ h ∧
      ∃ u ∈ recorded unmarshal tenantID runID events, row = ⟨tenantID, u⟩
  | ⟨.inr (.replay t r), _⟩ => t = tenantID ∧ r = runID
  | _ => False

/-- When no statement has failed, it has written all of that. -/
def Complete (unmarshal : List UInt8 → Except Text Bool) (tenantID runID : String)
    (h : List MeterEvent) : Prop :=
  (∀ e ∈ h, ¬ MeterFailed e) → ∀ log, (∀ events, replayed tenantID runID events ∈ h →
    events = log) → ∀ u ∈ recorded unmarshal tenantID runID log,
      ∃ new, (Event.inl (inserted ⟨tenantID, u⟩ new) : MeterEvent) ∈ h

theorem wp_record {Q : List MeterEvent → Except Text Bool → Prop} {u : Usage}
    (ht : tid ≠ "") (hk : u.kind.metered = true) (hq : 0 ≤ u.quantity)
    (hG : u.at_ ≠ zeroTime → ∀ r, G h ⟨.inl (.insertUsage ⟨tid, u⟩), r⟩)
    (hok : ∀ new, u.at_ ≠ zeroTime → Q (h ++ [Event.inl (inserted ⟨tid, u⟩ new)]) (.ok new))
    (hr : u.at_ = zeroTime → ∀ text, Q h (.error text))
    (hf : ∀ e text, MeterFailed e → Q (h ++ [e]) (.error text)) : wp G (record tid u).run Q h := by
  have hs : u.kind ≠ .unset := by
    intro hu
    rw [hu] at hk
    cases hk
  unfold record recordUsage
  rw [if_neg ht, if_neg hs, if_neg (by omega)]
  split
  · rename_i hat
    exact hr hat _
  · rename_i hat
    intro r
    refine ⟨hG hat r, ?_⟩
    cases (r : InsertRes) with
    | affected new => exact hok new hat
    | failed written ca => exact hf _ _ (by trivial)

theorem wp_recordAll {log : List RunEvent} {done rest : List Usage} {sum : Summary}
    (hte : tid ≠ "") (hr : replayed tid rid log ∈ h)
    (hs : recorded dec tid rid log = done ++ rest.takeWhile fun u => u.at_ ≠ zeroTime)
    (hre : ∀ u ∈ rest, u.kind.metered = true ∧ 0 ≤ u.quantity)
    (hd : ∀ u ∈ done, ∃ new, (Event.inl (inserted ⟨tid, u⟩ new) : MeterEvent) ∈ h) :
    wp (Metered dec tid rid) (recordAll tid rest sum).run
      (fun g _ => Complete dec tid rid g) h := by
  induction rest generalizing h done sum with
  | nil =>
    intro _ log' hl u hu
    obtain rfl := hl _ hr
    rw [hs] at hu
    exact hd u (by simpa using hu)
  | cons u rest ih =>
    obtain ⟨⟨hk, hq⟩, hre⟩ := forall_mem_cons.mp hre
    have ht : u.at_ ≠ zeroTime → (u :: rest).takeWhile (fun u => u.at_ ≠ zeroTime) =
        u :: rest.takeWhile fun u => u.at_ ≠ zeroTime := fun hat => by simp [hat]
    refine wp_run_bind.mpr (wp_record hte hk hq ?_ ?_ ?_ ?_)
    · intro hat r
      exact ⟨log, hr, u, by rw [hs, ht hat]; simp, rfl⟩
    · intro new hat
      rw [ht hat, append_cons] at hs
      refine ih (mem_append_left _ hr) hs hre fun v hv => ?_
      rcases mem_append.mp hv with hv | hv
      · obtain ⟨new', hn⟩ := hd v hv
        exact ⟨new', mem_append_left _ hn⟩
      · rw [mem_singleton.mp hv]
        exact ⟨new, by simp⟩
    · intro hat _ _ log' hl v hv
      obtain rfl := hl _ hr
      rw [hs] at hv
      exact hd v (by simpa [hat] using hv)
    · intro e _ he hun
      exact absurd he (hun e (by simp))

theorem wp_meterEvents {log : List RunEvent} (ht : tid ≠ "") (hru : rid ≠ "")
    (hre : replayed tid rid log ∈ h) : wp (Metered dec tid rid) (meterEvents dec tid rid log).run
      (fun g _ => Complete dec tid rid g) h := by
  have hr : recorded dec tid rid log =
      match attemptsOf dec rid log with
      | .ok ats => (ats.filterMap (charge rid)).takeWhile fun u => u.at_ ≠ zeroTime
      | .error _ => [] := if_neg (not_or.mpr ⟨ht, hru⟩)
  unfold meterEvents
  cases hat : attemptsOf dec rid log with
  | error text =>
    intro _ log' hl u hu
    obtain rfl := hl log hre
    rw [hr, hat] at hu
    cases hu
  | ok ats =>
    have hs : recorded dec tid rid log =
        [] ++ (ats.filterMap (charge rid)).takeWhile fun u => u.at_ ≠ zeroTime := by
      rw [hr, hat]
      rfl
    refine wp_recordAll ht hre hs ?_ ?_
    · intro u hu
      obtain ⟨p, -, hp⟩ := mem_filterMap.mp hu
      exact (charge_spec hp).2.2
    · intro u hu
      cases hu

theorem wp_meterRun : wp (Metered dec tid rid) (meterRun dec tid rid).run
    (fun g _ => Complete dec tid rid g) [] := by
  have hn : tid = "" ∨ rid = "" → Complete dec tid rid [] := by
    intro hi _ log _ u hu
    rw [recorded, if_pos hi] at hu
    cases hu
  unfold meterRun
  split
  · rename_i ht
    exact hn (.inl ht)
  split
  · rename_i hr
    exact hn (.inr hr)
  rename_i ht hr
  intro r
  refine ⟨⟨rfl, rfl⟩, ?_⟩
  cases (r : ReadRes (List RunEvent)) with
  | failed ca =>
    intro hun
    exact absurd trivial (hun ⟨.inr (.replay tid rid), ReadRes.failed ca⟩ (by simp))
  | ok log => exact wp_meterEvents ht hr (by simp [replayed])

/-! ### Passes of several planes -/

/-- What is called besides passes: other usage is recorded, and the log of a run grows. -/
inductive MeterCall where
  | meter (tenantID runID : String)
  | record (tenantID : String) (u : Usage) (hkind : u.kind.metered = false)
  | append (tenantID runID : String) (e : RunEvent)

def MeterCall.prog (unmarshal : List UInt8 → Except Text Bool) : MeterCall → Prog meterSig Unit
  | .meter tenantID runID => do
    let _ ← (meterRun unmarshal tenantID runID).run
    pure ()
  | .record tenantID u _ => do
    let _ ← (Tenancy.record tenantID u).run
    pure ()
  | .append tenantID runID e => do
    let _ ← perform (S := meterSig) (.inr (.append tenantID runID e))
    pure ()

def MeterCall.Justified (unmarshal : List UInt8 → Except Text Bool) (c : MeterCall)
    (h : List MeterEvent) (e : MeterEvent) : Prop :=
  match c with
  | .meter tenantID runID => Metered unmarshal tenantID runID h e
  | .record tenantID u _ => e.op = .inl (.insertUsage ⟨tenantID, u⟩)
  | .append tenantID runID d => e.op = .inr (.append tenantID runID d)

def Row.OfRun (tenantID runID : String) (row : Row) : Prop :=
  row.tenantID = tenantID ∧ row.usage.runID = runID ∧ row.usage.kind.metered = true

section Passes

variable {unmarshal dec : List UInt8 → Except Text Bool} {quotas qs : String → Option Quota}
  {tenantID tid runID rid : String} {calls cs : ℕ → MeterCall} {tr : List (Act meterSig)} {row : Row}

abbrev meterLedger (s : (meterWorld quotas).State) : Ledger := s.1

theorem wp_meter_prog {t r : String} : wp (Metered dec t r) ((MeterCall.meter t r).prog dec)
      (fun g _ => Complete dec t r g) [] :=
  wp_bind.mpr wp_meterRun

theorem wp_prog (c : MeterCall) : wp (c.Justified dec) (c.prog dec) (fun _ _ => True) [] := by
  cases c with
  | meter t r => exact wp_mono wp_meter_prog fun _ _ _ => trivial
  | record t u hk =>
    refine wp_bind.mpr ?_
    unfold record recordUsage
    split
    · trivial
    split
    · trivial
    split
    · trivial
    split
    · trivial
    intro r
    cases (r : InsertRes) <;> trivial
  | append t r e => exact fun _ => ⟨rfl, trivial⟩

theorem mem_ledger_next {s : (meterWorld qs).State} {e : MeterEvent}
    (h : row ∈ meterLedger ((meterWorld qs).next s e)) :
    row ∈ meterLedger s ∨ e.op = .inl (.insertUsage row) := by
  obtain ⟨op | op, r⟩ := e
  · obtain heq | ⟨row', hop, heq⟩ := nextLedger_cases s.1 ⟨op, r⟩
    · rw [show meterLedger ((meterWorld qs).next s ⟨.inl op, r⟩) = meterLedger s from heq] at h
      exact .inl h
    · rw [show meterLedger ((meterWorld qs).next s ⟨.inl op, r⟩) =
        (meterLedger s).insert row' from heq] at h
      by_cases hh : (meterLedger s).Has row'.key
      · rw [Ledger.insert_of_has hh] at h
        exact .inl h
      · rw [Ledger.insert_of_not_has hh] at h
        rcases mem_append.mp h with h | h
        · exact .inl h
        · rw [mem_singleton.mp h]
          exact .inr (congrArg Sum.inl hop)
  · exact .inl h

theorem usage_runID {u : Usage} {es : List RunEvent} (h : u ∈ recorded dec tid rid es) :
    u.runID = rid ∧ u.kind.metered = true := by
  obtain ⟨-, -, _, -, p, -, hp⟩ := mem_recorded h
  exact ⟨(charge_spec hp).1, (charge_spec hp).2.2.1⟩

/-- The meter's rows are what passes recorded of the logs they read. -/
theorem row_recorded (htr : Guarded (meterWorld qs) (fun i => (cs i).Justified dec) tr)
    (hro : row ∈ meterLedger ((meterWorld qs).state tr)) (hof : row.OfRun tid rid) :
    ∃ es, (∃ i, ⟨i, replayed tid rid es⟩ ∈ tr) ∧ row.usage ∈ recorded dec tid rid es := by
  induction htr with
  | nil => cases hro
  | @snoc tr i e htr han hj ih =>
    rw [World.state_snoc] at hro
    obtain hro | hop := mem_ledger_next hro
    · obtain ⟨es, ⟨j, hr⟩, hu⟩ := ih hro
      exact ⟨es, ⟨j, mem_append_left _ hr⟩, hu⟩
    · obtain ⟨op, r⟩ := e
      obtain rfl : op = .inl (.insertUsage row) := hop
      obtain ⟨ht, hru, hk⟩ := hof
      cases hc : cs i with
      | meter t' r' =>
        simp only [hc, MeterCall.Justified] at hj
        obtain ⟨es, hr, u, hu, rfl⟩ := hj
        obtain rfl : t' = tid := ht
        obtain rfl : r' = rid := (usage_runID hu).1.symm.trans hru
        exact ⟨es, ⟨i, mem_append_left _ (mem_of_mem_own hr)⟩, hu⟩
      | record t' u' hk' =>
        simp only [hc] at hj
        obtain rfl : row = ⟨t', u'⟩ := LedgerOp.insertUsage.inj (Sum.inl.inj hj)
        rw [hk'] at hk
        cases hk
      | append t' r' d =>
        simp only [hc] at hj
        cases hj

section Lone

variable {s : (meterWorld qs).State} {g : List MeterEvent}

variable (ha : Alone (meterWorld qs) s ((MeterCall.meter tid rid).prog dec) g)

include ha

theorem logs_of_lone : ((meterWorld qs).after s g).2 = s.2 := by
  refine World.after_keeps (w := meterWorld qs) (I := fun s' => s'.2 = s.2) rfl ?_
  rintro g₀ ⟨op, r⟩ g₁ rfl hl
  have hm := (ha.at_split wp_meter_prog).1
  cases op with
  | inl op => exact hl
  | inr op =>
    cases op with
    | replay t' r' => exact hl
    | append t' r' d => cases hm

theorem replayed_of_lone {es : List RunEvent} (hr : replayed tid rid es ∈ g) :
    es = s.2 tid rid := by
  obtain ⟨g₀, g₁, rfl⟩ := append_of_mem hr
  have han : es = ((meterWorld qs).after s g₀).2 tid rid :=
    (ha.at_split wp_meter_prog).2
  rw [han, logs_of_lone ha.of_append]

theorem row_of_lone (hro : row ∈ meterLedger ((meterWorld qs).after s g)) :
    row ∈ meterLedger s ∨ row.tenantID = tid ∧ row.usage ∈ recorded dec tid rid (s.2 tid rid) := by
  refine World.after_keeps (I := fun s' => ∀ row ∈ meterLedger s', row ∈ meterLedger s ∨
    row.tenantID = tid ∧ row.usage ∈ recorded dec tid rid (s.2 tid rid))
    (fun row => .inl) ?_ row hro
  rintro g₀ ⟨op, r⟩ g₁ rfl hr row hro
  obtain hro | hop := mem_ledger_next hro
  · exact hr row hro
  · obtain rfl : op = .inl (.insertUsage row) := hop
    obtain ⟨es, hre, u, hu, rfl⟩ := (ha.at_split wp_meter_prog).1
    rw [replayed_of_lone ha.of_append hre] at hu
    exact .inr ⟨rfl, hu⟩

omit ha

theorem ledger_prefix_next (e : MeterEvent) :
    meterLedger s <+: meterLedger ((meterWorld qs).next s e) := by
  obtain ⟨op | op, r⟩ := e
  · exact prefix_nextLedger s.1 ⟨op, r⟩
  · exact prefix_rfl

theorem ledger_prefix_after (g : List MeterEvent) :
    meterLedger s <+: meterLedger ((meterWorld qs).after s g) :=
  World.after_keeps (I := fun s' => meterLedger s <+: meterLedger s')
    prefix_rfl
    fun _ e _ _ hle => hle.trans (ledger_prefix_next e)

theorem has_of_lone (ha : Alone (meterWorld qs) s ((MeterCall.meter tid rid).prog dec) g)
    (hd : Returns ((MeterCall.meter tid rid).prog dec) g ())
    (hun : ∀ e ∈ g, ¬ MeterFailed e) {u : Usage} (hu : u ∈ recorded dec tid rid (s.2 tid rid)) :
    (meterLedger ((meterWorld qs).after s g)).Has (Row.key ⟨tid, u⟩) := by
  obtain ⟨new, hm⟩ := wp_returns wp_meter_prog hd (by simpa using hun) _
    (fun es hr => replayed_of_lone ha hr) u hu
  obtain ⟨g₀, g₁, rfl⟩ := append_of_mem hm
  have hn : (meterLedger ((meterWorld qs).after s
      (g₀ ++ [Event.inl (inserted ⟨tid, u⟩ new)]))).Has (Row.key ⟨tid, u⟩) := by
    rw [World.after_snoc]
    exact Ledger.has_insert _ _
  rw [append_cons, World.after_append]
  exact hn.mono (ledger_prefix_after g₁)

/-- What a ledger holds of a run: the rows recorded of this log, once each. -/
def Billed (unmarshal : List UInt8 → Except Text Bool) (tenantID runID : String)
    (log : List RunEvent) (ledger : Ledger) : Prop :=
  ∀ row : Row, row ∈ ledger ∧ row.OfRun tenantID runID ↔
    row.tenantID = tenantID ∧ row.usage ∈ recorded unmarshal tenantID runID log

theorem billed_of_lone (ha : Alone (meterWorld qs) s ((MeterCall.meter tid rid).prog dec) g)
    (hd : Returns ((MeterCall.meter tid rid).prog dec) g ())
    (hun : ∀ e ∈ g, ¬ MeterFailed e) (hb : ∀ row ∈ meterLedger s, row.OfRun tid rid →
      row.usage ∈ recorded dec tid rid (s.2 tid rid)) : Billed dec tid rid (s.2 tid rid)
      (meterLedger ((meterWorld qs).after s g)) := by
  have hr : ∀ row ∈ meterLedger ((meterWorld qs).after s g), row.OfRun tid rid →
      row.tenantID = tid ∧
        row.usage ∈ recorded dec tid rid (s.2 tid rid) := by
    intro row hro hof
    obtain hro | hn := row_of_lone ha hro
    · exact ⟨hof.1, hb row hro hof⟩
    · exact hn
  rintro ⟨t, u⟩
  refine ⟨fun ⟨hro, hof⟩ => hr _ hro hof, ?_⟩
  rintro ⟨rfl, hu⟩
  obtain ⟨row, hro, hke⟩ := mem_map.mp (has_of_lone ha hd hun hu)
  simp only [Row.key, UsageKey.mk.injEq] at hke
  obtain ⟨ht, hk, hru, hs, hat⟩ := hke
  have hof : row.OfRun t rid := by
    refine ⟨ht, hru.trans (usage_runID hu).1, ?_⟩
    rw [hk]
    exact (usage_runID hu).2
  obtain rfl : row.usage = u := recorded_unique (hr row hro hof).2 hu hs hat
  subst ht
  exact ⟨hro, hof⟩

end Lone

/-- Passes of any number of planes, at any prefixes of the log, and then one over the whole of it
leave the rows a single pass leaves, if the log is quiet about the attempts the earlier ones found
ended; and an attempt has one row. -/
theorem metering_confluent {us vs : List (Act meterSig)} {i : ℕ}
    (htr : Reach (meterWorld quotas) (fun i => (calls i).prog unmarshal) (us ++ vs))
    (hcall : calls i = .meter tenantID runID) (hfresh : own i us = [])
    (honly : ∀ a ∈ vs, a.actor = i)
    (hdone : Returns ((calls i).prog unmarshal) (vs.map Act.event) ())
    (hunfailed : ∀ e ∈ vs.map Act.event, ¬ MeterFailed e)
    (hquiet : ∀ a ∈ us, ∀ events, a.event = replayed tenantID runID events →
      Quiet unmarshal events (((meterWorld quotas).state us).2 tenantID runID))
    {g : List MeterEvent}
    (hsingle : Alone (meterWorld quotas) ([], ((meterWorld quotas).state us).2)
      ((calls i).prog unmarshal) g) (hsingledone : Returns ((calls i).prog unmarshal) g ())
    (hsingleunfailed : ∀ e ∈ g, ¬ MeterFailed e) : (∀ row : Row, row.OfRun tenantID runID →
      (row ∈ meterLedger ((meterWorld quotas).state (us ++ vs)) ↔
        row ∈ meterLedger ((meterWorld quotas).after ([], ((meterWorld quotas).state us).2) g))) ∧
    ∀ row ∈ meterLedger ((meterWorld quotas).state (us ++ vs)), row.OfRun tenantID runID →
      ∀ row' ∈ meterLedger ((meterWorld quotas).state (us ++ vs)), row'.OfRun tenantID runID →
        row.usage.stepID = row'.usage.stepID → row.usage.attempt = row'.usage.attempt →
        row = row' := by
  have hl := htr.alone hfresh honly
  have hs : (meterWorld quotas).after ((meterWorld quotas).state us) (vs.map Act.event) =
      (meterWorld quotas).state (us ++ vs) := by
    rw [World.after, World.state, World.state, foldl_append, foldl_map]
  have hg : Guarded (meterWorld quotas) (fun i => (calls i).Justified unmarshal) us :=
    (htr.of_append).guarded fun i => wp_prog (calls i)
  rw [hcall] at hl hdone hsingle hsingledone
  have hb : ∀ row ∈ meterLedger ((meterWorld quotas).state us), row.OfRun tenantID runID →
      row.usage ∈ recorded unmarshal tenantID runID
        (((meterWorld quotas).state us).2 tenantID runID) := by
    intro row hro hof
    obtain ⟨events, ⟨j, hr⟩, hu⟩ := row_recorded hg hro hof
    exact settled_of_quiet (hquiet _ hr events rfl) hu
  have hal := billed_of_lone hl hdone hunfailed hb
  have ho := billed_of_lone hsingle hsingledone hsingleunfailed fun _ h => by cases h
  rw [hs] at hal
  refine ⟨fun row hof => ?_, ?_⟩
  · have hi := (hal row).trans (ho row).symm
    exact ⟨fun h => (hi.mp ⟨h, hof⟩).1, fun h => (hi.mpr ⟨h, hof⟩).1⟩
  · rintro ⟨t, u⟩ hro hof ⟨t', u'⟩ hro' hof' hst hat
    obtain ⟨rfl, hu⟩ := (hal _).mp ⟨hro, hof⟩
    obtain ⟨ht, hu'⟩ := (hal _).mp ⟨hro', hof'⟩
    obtain rfl : t' = t := ht
    obtain rfl : u = u' := recorded_unique hu hu' hst hat
    rfl

end Passes

/-! ### Two passes -/

def plainDispatch (_ : List UInt8) : Except Text Bool := .ok false

def noQuotas (_ : String) : Option Quota := none

def honestMeter (_ : ℕ) (s : (meterWorld noQuotas).State) : (op : meterSig.Op) → meterSig.Res op
  | .inl (.selectQuota _) => ReadRes.ok none
  | .inl .now => (0 : ℤ)
  | .inl (.selectRunStarted tenantID kind runID) =>
    ReadRes.ok ((meterLedger s).countRun tenantID kind runID)
  | .inl (.countRunsToday tenantID kind since) =>
    ReadRes.ok ((meterLedger s).countSince tenantID kind since)
  | .inl (.insertUsage row) => InsertRes.affected !decide ((meterLedger s).Has row.key)
  | .inr (.replay tenantID runID) => ReadRes.ok (s.2 tenantID runID)
  | .inr (.append ..) => ()

theorem honestMeter_answers (n : ℕ) (s : (meterWorld noQuotas).State) (op : meterSig.Op) :
    (meterWorld noQuotas).Answers s ⟨op, honestMeter n s op⟩ := by
  rcases op with (_ | _ | _ | _ | _) | (_ | _)
  all_goals first | rfl | trivial

theorem honestMeter_unfailed (n : ℕ) (s : (meterWorld noQuotas).State) (op : meterSig.Op) :
    ¬ MeterFailed ⟨op, honestMeter n s op⟩ := by
  rcases op with (_ | _ | _ | _ | _) | (_ | _)
  all_goals exact fun h => h

def madeBy (calls : List MeterCall) (i : ℕ) : MeterCall := calls.getD i (.meter "" "")

def metered (calls : List MeterCall) (schedule : List ℕ) : List (Act meterSig) :=
  exec (meterWorld noQuotas) honestMeter (fun i => (madeBy calls i).prog plainDispatch) schedule

theorem metered_reach (cs : List MeterCall) (sch : List ℕ) :
    Reach (meterWorld noQuotas) (fun i => (madeBy cs i).prog plainDispatch) (metered cs sch) :=
  exec_reach _ _ honestMeter_answers _ _

def single (logs : RunLogs) (n : ℕ) : List MeterEvent :=
  (meterWorld noQuotas).solo (honestMeter 0) n ([], logs)
    ((MeterCall.meter "acme" "run").prog plainDispatch)

def seconds (n : ℤ) : ℤ := n * 1000000000

def steadyLog : List RunEvent :=
  [⟨.stepDispatched, "build", 1, [], seconds 10⟩, ⟨.stepAttemptLost, "build", 1, [], seconds 12⟩,
   ⟨.stepDispatched, "build", 2, [], seconds 13⟩, ⟨.stepSucceeded, "build", 2, [], seconds 16⟩]

/-- A pass is made in between, and one at the end. -/
def steadyCalls : List MeterCall :=
  (steadyLog.take 2).map (.append "acme" "run") ++ .meter "acme" "run" ::
    (steadyLog.drop 2).map (.append "acme" "run") ++ [.meter "acme" "run"]

/-- The attempt that was lost is reported done after all, once a pass has been made. -/
def lateCalls : List MeterCall :=
  [.append "acme" "run" ⟨.stepDispatched, "build", 1, [], seconds 10⟩,
   .append "acme" "run" ⟨.stepAttemptLost, "build", 1, [], seconds 12⟩,
   .meter "acme" "run",
   .append "acme" "run" ⟨.stepSucceeded, "build", 1, [], seconds 16⟩,
   .meter "acme" "run"]

def lostRow : Row := ⟨"acme", ⟨.stepSecondsUnbilled, "run", "build", 1, 2000, false, seconds 12⟩⟩

def billedRow : Row := ⟨"acme", ⟨.stepSeconds, "run", "build", 1, 6000, true, seconds 16⟩⟩

/-- Then one attempt is in the ledger as lost and as billed, and a single pass would only have
billed it. -/
theorem late_success_billed_twice :
    Reach (meterWorld noQuotas) (fun i => (madeBy lateCalls i).prog plainDispatch)
        (metered lateCalls [0, 1, 2, 2, 3, 4, 4]) ∧ lostRow ∈ meterLedger
        ((meterWorld noQuotas).state (metered lateCalls [0, 1, 2, 2, 3, 4, 4])) ∧
      billedRow ∈ meterLedger
        ((meterWorld noQuotas).state (metered lateCalls [0, 1, 2, 2, 3, 4, 4])) ∧
      lostRow ∉ meterLedger ((meterWorld noQuotas).after
        ([], ((meterWorld noQuotas).state (metered lateCalls [0, 1, 2, 2, 3])).2)
        (single ((meterWorld noQuotas).state (metered lateCalls [0, 1, 2, 2, 3])).2 2)) := by
  exact ⟨metered_reach lateCalls [0, 1, 2, 2, 3, 4, 4], by decide +kernel, by decide +kernel,
    by decide +kernel⟩

def readOf : MeterEvent → Option (List RunEvent)
  | ⟨.inr (.replay ..), .ok events⟩ => some events
  | _ => none

/-- A lost attempt that stays lost is recorded once, whenever the meter runs. -/
theorem steady_run_confluent : {row : Row | row.OfRun "acme" "run" ∧ row ∈ meterLedger
        ((meterWorld noQuotas).state (metered steadyCalls [0, 1, 2, 2, 3, 4, 5, 5, 5]))} =
      {row | row.OfRun "acme" "run" ∧ row ∈ meterLedger ((meterWorld noQuotas).after
          ([], ((meterWorld noQuotas).state (metered steadyCalls [0, 1, 2, 2, 3, 4])).2)
          (single ((meterWorld noQuotas).state (metered steadyCalls [0, 1, 2, 2, 3, 4])).2 3))} := by
  have hs : metered steadyCalls [0, 1, 2, 2, 3, 4, 5, 5, 5] =
      metered steadyCalls [0, 1, 2, 2, 3, 4] ++
        (metered steadyCalls [0, 1, 2, 2, 3, 4, 5, 5, 5]).drop 6 := by rfl
  have hr := metered_reach steadyCalls [0, 1, 2, 2, 3, 4, 5, 5, 5]
  have hst := exec_steps (meterWorld noQuotas) honestMeter
    (fun i => (madeBy steadyCalls i).prog plainDispatch) [0, 1, 2, 2, 3, 4, 5, 5, 5] 5
  have hu := exec_events (P := fun e => ¬ MeterFailed e) (meterWorld noQuotas) honestMeter
    honestMeter_unfailed
    (fun i => (madeBy steadyCalls i).prog plainDispatch) [0, 1, 2, 2, 3, 4, 5, 5, 5]
  rw [hs] at hr ⊢
  refine Set.ext fun row => and_congr_right ((metering_confluent hr rfl rfl (by decide +kernel) hst ?_ ?_
    (World.solo_alone (honestMeter_answers 0) 3 _ _) (World.solo_steps (honestMeter 0) 3 _ _)
    (World.solo_events (honestMeter_unfailed 0) 3 _ _)).1 row)
  · intro e he
    obtain ⟨a, ha, rfl⟩ := mem_map.mp he
    exact hu a (mem_of_mem_drop ha)
  · intro a ha events hre
    have hal : ∀ a ∈ metered steadyCalls [0, 1, 2, 2, 3, 4], ∀ events ∈ readOf a.event,
        events = steadyLog.take 2 := by decide +kernel
    obtain rfl := hal a ha events (by rw [hre]; rfl)
    have hpay : ∀ e ∈ steadyLog, e.payload = [] := by decide
    refine ⟨fun e he _ => ⟨false, by rw [hpay e he]; rfl⟩, by decide, steadyLog.drop 2, rfl, ?_⟩
    rintro _ ⟨us, e, vs, he, hen, rfl, -⟩ d hd
    have hfin : ∀ e ∈ steadyLog.take 2, ∀ d ∈ steadyLog.drop 2, d.key ≠ e.key := by decide
    exact fun hk => absurd hk (hfin e (he ▸ by simp) d hd)

end Dhole.Tenancy
