import Dhole.Operations
import Dhole.Transact

/-! Schedules. A schedule is a row that holds the time it is next due and a mark while a fire is in
flight. A tick of a plane reads the row under a lock; if it is due, the tick moves the row on to
the next time after its own clock, takes or skips the occurrence in the same transaction, and after
the fire clears the mark in another. -/

namespace Dhole.Cron

open Interleave Prog Transact List

/-! ### The table -/

structure Key where
  tenantID : String
  triggerID : String
deriving DecidableEq

/-- How instants are written down: `time.RFC3339Nano`, which is read back before anything is
compared, and `time.RFC3339`. -/
structure Layout where
  format : ℤ → List Char
  seconds : ℤ → List Char
  parse : List Char → Option ℤ
  sound : ∀ t t', parse (format t) = some t' → t' = t
  nonempty : ∀ t, format t ≠ []

structure Row where
  dueAt : List Char
  activeAt : Option (List Char) := none
  skipped : Option (List Char × Text) := none
deriving DecidableEq

structure Tables where
  rows : Key → Option Row := fun _ => none

inductive Write where
  | seed (key : Key) (dueAt : List Char)
  | take (key : Key) (dueAt activeAt : List Char)
  | skip (key : Key) (dueAt skippedAt : List Char) (reason : Text)
  | release (key : Key)
deriving DecidableEq

namespace Write

def key : Write → Key
  | seed key _ => key
  | take key _ _ => key
  | skip key _ _ _ => key
  | release key => key

/-- What the statement makes of the row it finds. -/
def onRow : Write → Option Row → Option Row
  | seed _ dueAt, none => some { dueAt }
  | seed _ _, some row => some row
  | take _ dueAt activeAt, row => row.map fun r => { r with dueAt, activeAt := some activeAt }
  | skip _ dueAt skippedAt reason, row =>
    row.map fun r => { r with dueAt, skipped := some (skippedAt, reason) }
  | release _, row => row.map fun r => { r with activeAt := none }

def touches : Write → Option Row → Bool
  | seed .., row => row.isNone
  | _, row => row.isSome

end Write

def Tables.apply (t : Tables) (w : Write) : Tables :=
  ⟨Function.update t.rows w.key (w.onRow (t.rows w.key))⟩

inductive Query where
  | row (key : Key)
  | exec (w : Write)

/-- An insertion or an update waits for who holds the row; the row is read unless it is held. -/
abbrev schema : Schema where
  Tables := Tables
  Write := Write
  apply := Tables.apply
  Query := Query
  Ans
    | .row _ => Option (List Char × Option (List Char))
    | .exec _ => Bool
  Lock := Key
  decLock := inferInstance
  answers t held
    | .row key, r =>
      r = if held key then none else (t.rows key).map fun row => (row.dueAt, row.activeAt)
    | .exec w, r => r = w.touches (t.rows w.key) ∧ (r = true → held w.key = false)
  writes _
    | .row _, _ => []
    | .exec w, r => if r = true then [w] else []
  locks _
    | .row key, r => if r.isSome then [key] else []
    | .exec w, r => if r = true then [w.key] else []

/-! ### A tick -/

inductive Err where
  | sinkRequired (key : Key)
  | claim (key : Key)
  | unreadableDue (key : Key) (text : List Char)
  | unreadableMark (key : Key) (text : List Char)
  | arming (key : Key)
  | claiming (key : Key)
  | skipping (key : Key)
  | releasing (key : Key)
  | unknownField (key : Key) (input field : String)
  | firing (key : Key) (occurrence : List Char) (cause : Text)
  | beginning
  | committing

/-- An accepted cron expression: which instants it matches, and the first of them after a given
one, or the zero time if none is found. -/
structure Spec where
  next : ℤ → ℤ
  Matches : ℤ → Prop
  next_cases : ∀ t, next t = 0 ∨ t < next t ∧ Matches (next t)

structure Schedule where
  expression : String
  pipelineID : String
  inputMapping : List (String × String)
  spec : Spec
  lease : ℤ

structure Skip where
  key : Key
  scheduledFor : ℤ
  reason : Text

inductive EnvOp where
  | fire (tenantID pipelineID : String) (inputs : List (String × String))
  | onSkip (skip : Skip)

abbrev envSig : Sig where
  Op := EnvOp
  Res
    | .fire .. => Option Text
    | .onSkip _ => Unit

abbrev envWorld : World envSig where
  State := Unit
  init := ()
  Answers _ _ := True
  next _ _ := ()

abbrev cronSig : Sig := (txSig schema).sum envSig

abbrev CronEvent := Interleave.Event cronSig

abbrev cronWorld (iso : Isolation) : World cronSig := (txWorld schema iso {}).sum envWorld

abbrev CronM := ExceptT Err (TxProg schema envSig)

structure Outcome where
  fired : Bool := false
  skipped : Bool := false
  scheduledFor : ℤ := 0
  reason : Text := []
deriving DecidableEq

structure Claimed where
  claimed : Bool := false
  skipped : Bool := false
  occurrence : ℤ := 0
  reason : Text := []

variable (L : Layout)

/-- The mark, which is the zero time if there is none. -/
def readMark (key : Key) : Option (List Char) → Except Err ℤ
  | none => .ok 0
  | some text =>
    if text = [] then .ok 0
    else match L.parse text with
      | none => .error (.unreadableMark key text)
      | some active => .ok active

def readRow (key : Key) (columns : List Char × Option (List Char)) : Except Err (ℤ × ℤ) :=
  match L.parse columns.1, readMark L key columns.2 with
  | none, _ => .error (.unreadableDue key columns.1)
  | some _, .error err => .error err
  | some due, .ok active => .ok (due, active)

def row (tx : ℕ) (key : Key) : CronM (Option (ℤ × ℤ)) := do
  match ← query (T := envSig) tx (D := schema) (.row key) (Err.claim key) with
  | none => pure none
  | some columns =>
    match readRow L key columns with
    | .error err => throw err
    | .ok times => pure (some times)

def execStmt (tx : ℕ) (w : Write) (err : Err) : CronM Unit := do
  let _ ← query (T := envSig) tx (D := schema) (.exec w) err
  pure ()

def seed (tx : ℕ) (key : Key) (due : ℤ) : CronM Unit :=
  execStmt tx (.seed key (L.format due)) (.arming key)

def take (tx : ℕ) (key : Key) (next now : ℤ) : CronM Unit :=
  execStmt tx (.take key (L.format next) (L.format now)) (.claiming key)

def skip (tx : ℕ) (key : Key) (next : ℤ) (reason : Text) (now : ℤ) : CronM Unit :=
  execStmt tx (.skip key (L.format next) (L.format now) reason) (.skipping key)

def release (key : Key) : CronM Unit :=
  withTx .beginning .committing fun tx => execStmt tx (.release key) (.releasing key)

def skipReason (active : ℤ) : Text :=
  [.lit "the run started at ", .lit (String.ofList (L.seconds active)),
    .lit " is still in flight and the concurrency budget is 1"]

namespace Schedule

def busy (s : Schedule) (active now : ℤ) : Bool := active ≠ 0 ∧ now - active < s.lease

def claim (s : Schedule) (key : Key) (now : ℤ) : CronM Claimed :=
  withTx .beginning .committing fun tx => do
    match ← row L tx key with
    | none =>
      seed L tx key (s.spec.next now)
      pure {}
    | some (due, active) =>
      if now < due then pure {}
      else
        let next := s.spec.next now
        if s.busy active now then
          skip L tx key next (skipReason L active) now
          pure { skipped := true, occurrence := due, reason := skipReason L active }
        else
          take L tx key next now
          pure { claimed := true, occurrence := due }

def eventFields (s : Schedule) (key : Key) (occurrence now : ℤ) : List (String × String) :=
  [("scheduled_for", String.ofList (L.format occurrence)),
    ("fired_at", String.ofList (L.format now)), ("expression", s.expression),
    ("trigger_id", key.triggerID), ("kind", "schedule")]

def inputs (s : Schedule) (key : Key) (occurrence now : ℤ) : Except Err (List (String × String)) :=
  s.inputMapping.mapM fun (input, field) =>
    match (s.eventFields L key occurrence now).lookup field with
    | none => .error (.unknownField key input field)
    | some value => .ok (input, value)

/-- The fire of a claimed occurrence, whose mark is then to be cleared. -/
def fireClaimed (s : Schedule) (key : Key) (occurrence now : ℤ) :
    Prog cronSig (Outcome × Option Err) :=
  match s.inputs L key occurrence now with
  | .error err => pure ({ scheduledFor := occurrence }, some err)
  | .ok values => do
    match ← perform (S := cronSig) (.inr (.fire key.tenantID s.pipelineID values)) with
    | some cause =>
      pure ({ scheduledFor := occurrence }, some (.firing key (L.seconds occurrence) cause))
    | none => pure ({ fired := true, scheduledFor := occurrence }, none)

def tick (s : Schedule) (key : Key) (sink : Bool) (now : ℤ) : Prog cronSig (Outcome × Option Err) :=
  if sink = false then pure ({}, some (.sinkRequired key))
  else do
    match ← (s.claim L key now).run with
    | .error err => pure ({}, some err)
    | .ok c =>
      if c.skipped then do
        let _ ← perform (S := cronSig) (.inr (.onSkip ⟨key, c.occurrence, c.reason⟩))
        pure ({ skipped := true, scheduledFor := c.occurrence, reason := c.reason }, none)
      else if c.claimed = false then pure ({}, none)
      else do
        let result ← s.fireClaimed L key c.occurrence now
        let _ ← (Dhole.Cron.release key).run
        pure result

end Schedule

/-! ### Who calls -/

/-- Planes tick at what their clocks show; the store notices that a transaction was left behind. -/
inductive Call where
  | tick (key : Key) (sink : Bool) (now : ℤ)
  | crash (tx : ℕ)

variable (σ : Key → Schedule)

def Call.prog : Call → Prog cronSig (Outcome × Option Err)
  | .tick key sink now => (σ key).tick L key sink now
  | .crash tx => do
    let _ ← perform (S := cronSig) (.inl (.abandon tx))
    pure ({}, none)

def rowRead (tx : ℕ) (key : Key) (columns : Option (List Char × Option (List Char))) : CronEvent :=
  answered (D := schema) tx (.row key) columns

def executed (tx : ℕ) (w : Write) (touched : Bool) : CronEvent :=
  answered (D := schema) tx (.exec w) touched

def fired (tenantID pipelineID : String) (inputs : List (String × String))
    (answer : Option Text) : CronEvent :=
  ⟨.inr (.fire tenantID pipelineID inputs), answer⟩

def seedAt (key : Key) (now : ℤ) : Write := .seed key (L.format ((σ key).spec.next now))

def takeAt (key : Key) (now : ℤ) : Write :=
  .take key (L.format ((σ key).spec.next now)) (L.format now)

def skipAt (key : Key) (now active : ℤ) : Write :=
  .skip key (L.format ((σ key).spec.next now)) (L.format now) (skipReason L active)

/-- The tick has committed this statement on a row that it had read as due. -/
def Served (key : Key) (now due active : ℤ) (w : Write) (h : List CronEvent) : Prop :=
  ∃ tx columns touched, readRow L key columns = .ok (due, active) ∧ due ≤ now ∧
    [begun tx, rowRead tx key (some columns), executed tx w touched, committed tx] <+: h

def Took (key : Key) (now due : ℤ) (h : List CronEvent) : Prop :=
  ∃ active, (σ key).busy active now = false ∧ Served L key now due active (takeAt L σ key now) h

def Skipped (key : Key) (now due : ℤ) (h : List CronEvent) : Prop :=
  ∃ active, (σ key).busy active now = true ∧
    Served L key now due active (skipAt L σ key now active) h

/-- What a tick may state in a transaction, and after which calls of its own. -/
inductive States (key : Key) (now : ℤ) (tx : ℕ) : List CronEvent → Write → Prop
  | seed : States key now tx [begun tx, rowRead tx key none] (seedAt L σ key now)
  | take {columns : List Char × Option (List Char)} {due active : ℤ}
      (hread : readRow L key columns = .ok (due, active)) (hdue : due ≤ now)
      (hfree : (σ key).busy active now = false) :
      States key now tx [begun tx, rowRead tx key (some columns)] (takeAt L σ key now)
  | skip {columns : List Char × Option (List Char)} {due active : ℤ}
      (hread : readRow L key columns = .ok (due, active)) (hdue : due ≤ now)
      (hbusy : (σ key).busy active now = true) :
      States key now tx [begun tx, rowRead tx key (some columns)] (skipAt L σ key now active)
  | release {g : List CronEvent} {due : ℤ} (htook : Took L σ key now due g) :
      States key now tx (g ++ [begun tx]) (.release key)

/-- What a tick has done in a transaction that it commits. -/
def Concludes (key : Key) (now : ℤ) (tx : ℕ) (h : List CronEvent) : Prop :=
  (∃ columns, h = [begun tx, rowRead tx key (some columns)]) ∨
    ∃ g w touched, h = g ++ [executed tx w touched] ∧ States L σ key now tx g w

def Call.Justified : Call → List CronEvent → CronEvent → Prop
  | .tick key .., h, ⟨.inl (.query tx (.row k)), _⟩ => k = key ∧ h = [begun tx]
  | .tick key _ now, h, ⟨.inl (.query tx (.exec w)), _⟩ => States L σ key now tx h w
  | .tick key _ now, h, ⟨.inl (.commit tx), _⟩ => Concludes L σ key now tx h
  | .tick key _ now, h, ⟨.inr (.fire tenantID pipelineID values), _⟩ =>
    ∃ due, Took L σ key now due h ∧ tenantID = key.tenantID ∧
      pipelineID = (σ key).pipelineID ∧ (σ key).inputs L key due now = .ok values
  | .crash _, _, ⟨.inl (.query ..), _⟩ => False
  | .crash _, _, ⟨.inl (.commit _), _⟩ => False
  | .crash _, _, ⟨.inr (.fire ..), _⟩ => False
  | _, _, _ => True

section Programs

variable {L σ} {key : Key} {now due active : ℤ} {sink : Bool} {tx : ℕ} {h : List CronEvent}
  {w : Write} {err : Err}

theorem Served.append (hs : Served L key now due active w h) (k : List CronEvent) :
    Served L key now due active w (h ++ k) := by
  obtain ⟨tx, columns, tch, hr, hd, hp⟩ := hs
  exact ⟨tx, columns, tch, hr, hd, hp.trans (prefix_append _ _)⟩

theorem Took.append (ht : Took L σ key now due h) (k : List CronEvent) :
    Took L σ key now due (h ++ k) := by
  obtain ⟨active, hf, hs⟩ := ht
  exact ⟨active, hf, hs.append k⟩

theorem wpe_execStmt (hst : States L σ key now tx h w) :
    wpe ((Call.tick key sink now).Justified L σ) (execStmt tx w err)
      (fun k _ => ∃ tch, k = h ++ [executed tx w tch]) h := by
  refine wpe_bind.mpr (wpe_query (fun r => hst) fun r => ?_)
  exact (wpe_pure _).mpr ⟨r, rfl⟩

theorem wpe_release (ht : Took L σ key now due h) :
    wpe ((Call.tick key sink now).Justified L σ) (release key) (fun _ _ => True) h := by
  refine wpe_withTx (fun r => trivial) (fun k tx r => trivial) fun tx => ?_
  refine wpe_mono (wpe_execStmt (.release ht)) ?_
  rintro _ _ ⟨tch, hk⟩
  rw [hk]
  exact ⟨fun r => .inr ⟨_, _, tch, rfl, .release ht⟩, trivial⟩

/-- What is known of a claim that returned. -/
def ClaimedBy (key : Key) (now : ℤ) (k : List CronEvent) (c : Claimed) : Prop :=
  (c.skipped = true ∧ Skipped L σ key now c.occurrence k) ∨
    c.skipped = false ∧ (c.claimed = true → Took L σ key now c.occurrence k)

theorem wpe_claim : wpe ((Call.tick key sink now).Justified L σ) ((σ key).claim L key now)
    (ClaimedBy (L := L) (σ := σ) key now) [] := by
  refine wpe_withTx (fun r => trivial) (fun k tx r => trivial) fun tx => ?_
  refine wpe_bind.mpr (wpe_bind.mpr (wpe_query (fun r => ⟨rfl, rfl⟩) fun columns => ?_))
  cases columns with
  | none =>
    refine (wpe_pure _).mpr (wpe_bind.mpr (wpe_mono (wpe_execStmt .seed) ?_))
    rintro _ _ ⟨tch, hk⟩
    rw [hk]
    exact (wpe_pure _).mpr ⟨fun r => .inr ⟨_, _, tch, rfl, .seed⟩, .inr ⟨rfl, by rintro ⟨⟩⟩⟩
  | some columns =>
    change wpe _ ((match readRow L key columns with
      | .error err => throw err
      | .ok t => pure (some t) : CronM (Option (ℤ × ℤ)))) _ _
    cases hr : readRow L key columns with
    | error err => exact wpe_throw _
    | ok t =>
      obtain ⟨due, active⟩ := t
      refine (wpe_pure _).mpr ?_
      by_cases hd : now < due
      · simp only [hd]
        exact (wpe_pure _).mpr ⟨fun r => .inl ⟨columns, rfl⟩, .inr ⟨rfl, by rintro ⟨⟩⟩⟩
      have hle : due ≤ now := not_lt.mp hd
      simp only [hd]
      cases hb : (σ key).busy active now with
      | true =>
        refine wpe_bind.mpr (wpe_mono (wpe_execStmt (.skip hr hle hb)) ?_)
        rintro _ _ ⟨tch, hk⟩
        rw [hk]
        refine (wpe_pure _).mpr ⟨fun r => .inr ⟨_, _, tch, rfl, .skip hr hle hb⟩,
          .inl ⟨rfl, active, hb, tx, columns, tch, hr, hle, prefix_rfl⟩⟩
      | false =>
        refine wpe_bind.mpr (wpe_mono (wpe_execStmt (.take hr hle hb)) ?_)
        rintro _ _ ⟨tch, hk⟩
        rw [hk]
        refine (wpe_pure _).mpr ⟨fun r => .inr ⟨_, _, tch, rfl, .take hr hle hb⟩,
          .inr ⟨rfl, fun _ => ⟨active, hb, tx, columns, tch, hr, hle, prefix_rfl⟩⟩⟩

theorem wp_fireClaimed {Q : List CronEvent → Outcome × Option Err → Prop}
    (ht : Took L σ key now due h)
    (hQ : ∀ k o err, Took L σ key now due (h ++ k) → (o.fired = true → o.scheduledFor = due) →
      o.skipped = false → Q (h ++ k) (o, err)) :
    wp ((Call.tick key sink now).Justified L σ) ((σ key).fireClaimed L key due now) Q h := by
  unfold Schedule.fireClaimed
  cases hin : (σ key).inputs L key due now with
  | error err =>
    have hd := hQ [] { scheduledFor := due } (some err) (ht.append _) (by rintro ⟨⟩) rfl
    rwa [append_nil] at hd
  | ok va =>
    refine wp_bind.mpr fun answer => ⟨⟨due, ht, rfl, rfl, hin⟩, ?_⟩
    rcases (answer : Option Text) with _ | cause
    · exact hQ _ _ _ (ht.append _) (fun _ => rfl) rfl
    · exact hQ _ _ _ (ht.append _) (by rintro ⟨⟩) rfl

/-- An outcome tells of an occurrence that was taken or skipped. -/
def Call.Reports : Call → List CronEvent → Outcome → Prop
  | .tick key _ now, k, o => (o.fired = true → Took L σ key now o.scheduledFor k) ∧
      (o.skipped = true → Skipped L σ key now o.scheduledFor k)
  | .crash _, _, o => o.fired = false ∧ o.skipped = false

theorem reports_nothing (sink : Bool) (k : List CronEvent) :
    (Call.tick key sink now).Reports (L := L) (σ := σ) k {} :=
  ⟨by rintro ⟨⟩, by rintro ⟨⟩⟩

theorem wp_tick : wp ((Call.tick key sink now).Justified L σ) ((σ key).tick L key sink now)
    (fun k r => (Call.tick key sink now).Reports (L := L) (σ := σ) k r.1) [] := by
  unfold Schedule.tick
  split
  · exact reports_nothing sink _
  refine wp_bind.mpr (wp_mono wpe_claim ?_)
  rintro k (err | c) hc
  · exact reports_nothing sink _
  rcases hc c rfl with ⟨hsk, hsi⟩ | ⟨hsk, hto⟩
  · simp only [hsk]
    refine wp_bind.mpr fun _ => ⟨trivial, by rintro ⟨⟩, fun _ => ?_⟩
    obtain ⟨active, hb, hse⟩ := hsi
    exact ⟨active, hb, hse.append _⟩
  simp only [hsk]
  cases hcl : c.claimed with
  | false =>
    exact reports_nothing sink _
  | true =>
    refine wp_bind.mpr (wp_fireClaimed (hto hcl) fun g o err ht hfi hn => ?_)
    refine wp_bind.mpr (wp_mono (wpe_release ht) fun g' _ _ => ⟨fun hf => ?_, fun hs => ?_⟩)
    · rw [hfi hf]
      exact ht.append _
    · rw [hn] at hs
      cases hs

theorem wp_prog (c : Call) : wp (c.Justified L σ) (c.prog L σ)
    (fun k r => c.Reports (L := L) (σ := σ) k r.1) [] := by
  cases c with
  | tick key sink now => exact wp_tick
  | crash tx => exact wp_bind.mpr fun _ => ⟨trivial, rfl, rfl⟩

end Programs

/-! ### The row of a schedule -/

def writesOf : (q : Query) → schema.Ans q → List Write
  | .row _, _ => []
  | .exec w, r => if r = true then [w] else []

theorem exclusive : schema.Exclusive := by
  intro t held q r ha l hl
  cases q with
  | row key =>
    by_cases hh : held key = true
    · obtain rfl : r = none := by
        simp only [hh] at ha
        exact ha
      cases hl
    · cases r with
      | none => cases hl
      | some columns =>
        obtain rfl := mem_singleton.mp hl
        exact Bool.eq_false_iff.mpr hh
  | exec w =>
    cases r with
    | false => cases hl
    | true =>
      obtain rfl := mem_singleton.mp hl
      exact ha.2 rfl

theorem rows_apply_of_ne {t : Tables} {w : Write} {key : Key} (hne : key ≠ w.key) :
    (t.apply w).rows key = t.rows key :=
  Function.update_of_ne hne _ _

theorem rows_apply_self (t : Tables) (w : Write) :
    (t.apply w).rows w.key = w.onRow (t.rows w.key) :=
  Function.update_self _ _ _

theorem row_protected (key : Key) : schema.Protects key fun t : Tables => t.rows key := by
  intro t held q r ha hl w hw t'
  cases q with
  | row key' => cases hw
  | exec w' =>
    cases r with
    | false => cases hw
    | true =>
      obtain rfl := mem_singleton.mp hw
      exact rows_apply_of_ne fun heq => hl (mem_singleton.mpr heq)

/-! ### Histories -/

abbrev CronHistory := List (Act cronSig)

abbrev store (iso : Isolation) (tr : CronHistory) : State schema :=
  storeIn (D := schema) iso {} envWorld tr

abbrev rowAt (iso : Isolation) (tr : CronHistory) (key : Key) : Option Row :=
  (store iso tr).tables.rows key

abbrev Histories (iso : Isolation) (calls : ℕ → Call) (tr : CronHistory) : Prop :=
  Guarded (cronWorld iso) (fun i => (calls i).Justified L σ) tr

abbrev landing (us : CronHistory) (a : Act cronSig) : List Write := landed (D := schema) writesOf us a

/-- How a tick may change the row that it finds. -/
inductive Moves (key : Key) (now : ℤ) : Option Row → Write → Prop
  | seed : Moves key now none (seedAt L σ key now)
  | take {r : Row} {due active : ℤ} (hread : readRow L key (r.dueAt, r.activeAt) = .ok (due, active))
      (hdue : due ≤ now) (hfree : (σ key).busy active now = false) :
      Moves key now (some r) (takeAt L σ key now)
  | skip {r : Row} {due active : ℤ} (hread : readRow L key (r.dueAt, r.activeAt) = .ok (due, active))
      (hdue : due ≤ now) (hbusy : (σ key).busy active now = true) :
      Moves key now (some r) (skipAt L σ key now active)
  | release {row : Option Row} : Moves key now row (.release key)

section Histories

variable {L σ} {iso : Isolation} {cs : ℕ → Call} {tr us vs : CronHistory} {i tx : ℕ}
  {a : Act cronSig} {key : Key} {now due active : ℤ} {sink tch : Bool} {w : Write}
  {columns : List Char × Option (List Char)} {h g k : List CronEvent} {c : Call}

theorem States.begun (hs : States L σ key now tx h w) : begun tx ∈ h := by
  cases hs <;> simp

theorem owns_of_justified {d : CronEvent} (hd : c.Justified L σ h d) : Owns h d := by
  obtain ⟨op | op, r⟩ := d
  · cases op with
    | query tx q =>
      cases c with
      | tick key sink now =>
        cases q with
        | row key' =>
          obtain ⟨-, rfl⟩ := hd
          exact mem_singleton_self _
        | exec w => exact States.begun hd
      | crash => exact hd.elim
    | commit tx =>
      cases c with
      | tick key sink now =>
        obtain ⟨columns, rfl⟩ | ⟨g, w, tch, rfl, hs⟩ := (hd : Concludes L σ key now tx h)
        · exact mem_cons_self
        · exact mem_append_left _ hs.begun
      | crash => exact hd.elim
    | _ => trivial
  · trivial

theorem writes_eq (t : Tables) (q : Query) (r : schema.Ans q) :
    schema.writes t q r = writesOf q r := by
  cases q <;> rfl

theorem stated_read (row : Option (List Char × Option (List Char))) :
    stated (D := schema) writesOf tx [begun tx, rowRead tx key row] = [] := by
  change stated writesOf tx
    ([begun tx] ++ [answered (D := schema) tx (.row key) row]) = []
  rw [stated_append, stated_answered]
  rfl

variable (htr : Histories L σ iso cs us)

include htr

theorem read_stands (how : own i us = [begun tx] ++ rowRead tx key (some columns) :: k)
    (ho : (store iso us).isOpen tx = true) :
    ∃ r, rowAt iso us key = some r ∧ (r.dueAt, r.activeAt) = columns := by
  obtain ⟨xs, ys, rfl, hp, -⟩ := exists_split_of_own how
  have ha : some columns = if (store iso xs).held tx key = true then none
      else (rowAt iso xs key).map fun row => (row.dueAt, row.activeAt) :=
    answers_unstated (fun _ _ _ => owns_of_justified) writes_eq htr
      (by rw [hp]; rfl)
  obtain ⟨-, -, ht, hlo⟩ := storeIn_answered htr
  have hl := hlo key (mem_singleton_self _)
  rw [append_cons] at ho htr ⊢
  have hst : rowAt iso (xs ++ [⟨i, rowRead tx key (some columns)⟩] ++ ys) key = _ :=
    lock_stands exclusive (row_protected key) htr hl ho
  split at ha
  · cases ha
  · obtain ⟨r, hr, hc⟩ := Option.map_eq_some_iff.mp ha.symm
    exact ⟨r, hst.trans ((congrArg (fun t : Tables => t.rows key) ht).trans hr), hc⟩

theorem exec_stands (how : own i us = g ++ [executed tx w true])
    (hn : stated (D := schema) writesOf tx g = []) (ho : (store iso us).isOpen tx = true) :
    w.touches (rowAt iso us w.key) = true := by
  obtain ⟨xs, ys, rfl, hp, -⟩ := exists_split_of_own how
  have ha : true = w.touches (rowAt iso xs w.key) ∧ _ :=
    answers_unstated (fun _ _ _ => owns_of_justified) writes_eq htr
      (by rw [hp]; exact hn)
  obtain ⟨-, -, ht, hlo⟩ := storeIn_answered htr
  have hl := hlo w.key (mem_singleton_self _)
  rw [append_cons] at ho htr ⊢
  have hst : rowAt iso (xs ++ [⟨i, executed tx w true⟩] ++ ys) w.key = _ :=
    lock_stands exclusive (row_protected w.key) htr hl ho
  rw [hst]
  exact (congrArg (fun t : Tables => w.touches (t.rows w.key)) ht).trans ha.1.symm

theorem touched_of_read
    (how : own i us = [begun tx, rowRead tx key (some columns)] ++ executed tx w tch :: k)
    (hk : w.key = key) (hw : ∀ r, w.touches (some r) = true) : tch = true := by
  obtain ⟨xs, ys, rfl, hp, -⟩ := exists_split_of_own how
  have ha : tch = w.touches (rowAt iso xs w.key) ∧ _ :=
    answers_unstated (fun _ _ _ => owns_of_justified) writes_eq htr
      (by rw [hp]; exact stated_read _)
  obtain ⟨ho, -, -, -⟩ := storeIn_answered htr
  obtain ⟨r, hr, -⟩ := read_stands htr.of_append hp ho
  rw [ha.1, hk, hr, hw]

variable (hs : States L σ key now tx g w)

include hs

omit htr

theorem States.unstated (htr : Histories L σ iso cs us)
    (ho : own i us = g ++ k) : stated (D := schema) writesOf tx g = [] := by
  cases hs with
  | seed | take | skip => exact stated_read _
  | @release g due ht =>
    rw [append_assoc] at ho
    rw [stated_append, stated_fresh (fun _ _ _ => owns_of_justified) htr ho]
    rfl

theorem States.moves (htr : Histories L σ iso cs us)
    (how : own i us = g ++ [executed tx w true]) (ho : (store iso us).isOpen tx = true) :
    Moves L σ key now (rowAt iso us key) w := by
  have hn := hs.unstated htr how
  cases hs with
  | seed =>
    have hro : (rowAt iso us key).isNone = true := exec_stands htr how hn ho
    rw [Option.isNone_iff_eq_none.mp hro]
    exact .seed
  | take hre hd hf =>
    obtain ⟨r, hr, rfl⟩ := read_stands htr how ho
    rw [hr]
    exact .take hre hd hf
  | skip hre hd hb =>
    obtain ⟨r, hr, rfl⟩ := read_stands htr how ho
    rw [hr]
    exact .skip hre hd hb
  | release => exact .release

theorem States.key_eq : w.key = key := by
  cases hs <;> rfl

omit hs

theorem conclude_facts (htr : Histories L σ iso cs (us ++ [a])) (hl : lands a.event = some tx) :
    (store iso us).isOpen tx = true ∧ ∃ key sink now, cs a.actor = .tick key sink now ∧
        Concludes L σ key now tx (own a.actor us) := by
  obtain ⟨i, e⟩ := a
  obtain ⟨ho, r, rfl, hg, -⟩ := commit_of_lands htr hl
  refine ⟨ho, ?_⟩
  cases hc : cs i with
  | tick key sink now =>
    rw [hc] at hg
    exact ⟨key, sink, now, rfl, hg⟩
  | crash tx =>
    rw [hc] at hg
    exact hg.elim

theorem landing_cases (htr : Histories L σ iso cs (us ++ [a])) :
    landing us a = [] ∨ ∃ key sink now w, cs a.actor = .tick key sink now ∧ w.key = key ∧
      landing us a = [w] ∧ Moves L σ key now (rowAt iso us key) w := by
  cases hl : lands a.event with
  | none => exact .inl (by rw [landing, landed, hl]; rfl)
  | some tx =>
    obtain ⟨ho, key, sink, now, hc, hd⟩ := conclude_facts htr hl
    have hla : landing us a = stated writesOf tx (own a.actor us) := by
      rw [landing, landed, hl]
      rfl
    obtain ⟨columns, how⟩ | ⟨g, w, tch, how, hs⟩ := hd
    · exact .inl (by rw [hla, how, stated_read])
    · rw [hla, how, stated_append, hs.unstated htr.of_append how, executed, stated_answered]
      cases tch with
      | false => exact .inl rfl
      | true =>
        exact .inr ⟨key, sink, now, w, hc, hs.key_eq, rfl, hs.moves htr.of_append how ho⟩

theorem rowAt_snoc (htr : Histories L σ iso cs (us ++ [a])) (key : Key) :
    rowAt iso (us ++ [a]) key = rowAt iso us key ∧ (∀ w ∈ landing us a, w.key ≠ key) ∨
      ∃ sink now w, cs a.actor = .tick key sink now ∧ landing us a = [w] ∧
        Moves L σ key now (rowAt iso us key) w ∧
        rowAt iso (us ++ [a]) key = w.onRow (rowAt iso us key) := by
  have ht : (store iso (us ++ [a])).tables =
      (landing us a).foldl Tables.apply (store iso us).tables :=
    tables_landed (fun _ _ _ => owns_of_justified) writes_eq htr
  obtain hn | ⟨key', sink, now, w, hc, hk, ho, hm⟩ := landing_cases htr
  · refine .inl ⟨?_, by simp [hn]⟩
    rw [rowAt, ht, hn]
    rfl
  · have ha : (store iso (us ++ [a])).tables = (store iso us).tables.apply w := by
      rw [ht, ho]
      rfl
    by_cases heq : key = key'
    · subst heq
      refine .inr ⟨sink, now, w, hc, ho, hm, ?_⟩
      rw [rowAt, ha, ← hk]
      exact rows_apply_self _ _
    · refine .inl ⟨?_, ?_⟩
      · rw [rowAt, ha]
        exact rows_apply_of_ne (hk ▸ heq)
      · intro w' hw'
        rw [ho] at hw'
        obtain rfl := mem_singleton.mp hw'
        exact hk ▸ Ne.symm heq

end Histories

/-! ### Answers -/

def resolver : Resolver schema where
  ans t held
    | .row key =>
      some (if held key then none else (t.rows key).map fun row => (row.dueAt, row.activeAt))
    | .exec w =>
      if w.touches (t.rows w.key) = true ∧ held w.key = true then none
      else some (w.touches (t.rows w.key))
  sound t held q r h := by
    cases q with
    | row key => exact (Option.some.inj h).symm
    | exec w =>
      change (if w.touches (t.rows w.key) = true ∧ held w.key = true then none
        else some (w.touches (t.rows w.key))) = some r at h
      by_cases hwait : w.touches (t.rows w.key) = true ∧ held w.key = true
      · rw [if_pos hwait] at h
        cases h
      · rw [if_neg hwait] at h
        have hr := (Option.some.inj h).symm
        refine ⟨hr, fun htrue => Bool.eq_false_iff.mpr fun hheld => hwait ⟨?_, hheld⟩⟩
        exact hr.symm.trans htrue

def honestCron (iso : Isolation) (_ : ℕ) (s : (cronWorld iso).State) :
    (op : cronSig.Op) → cronSig.Res op
  | .inl op => honest iso resolver s.1 op
  | .inr (.fire ..) => none
  | .inr (.onSkip _) => ()

theorem honestCron_answers (iso : Isolation) (n : ℕ) (s : (cronWorld iso).State)
    (op : cronSig.Op) : (cronWorld iso).Answers s ⟨op, honestCron iso n s op⟩ := by
  cases op with
  | inl op => exact honest_answers iso resolver s.1 op
  | inr op => trivial

def stroke (t : ℤ) : List Char := (if t < 0 then '-' else '+') :: List.replicate t.natAbs 'i'

def unstroke : List Char → Option ℤ
  | [] => none
  | sign :: rest => some (if sign = '-' then -(rest.length : ℤ) else rest.length)

theorem unstroke_stroke (t t' : ℤ) (h : unstroke (stroke t) = some t') : t' = t := by
  unfold unstroke stroke at h
  by_cases hn : t < 0
  · simp only [hn, if_true, length_replicate, Option.some.injEq] at h
    omega
  · simp only [hn, if_false, Char.reduceEq, length_replicate, Option.some.injEq] at h
    omega

theorem stroke_ne_nil (t : ℤ) : stroke t ≠ [] := cons_ne_nil _ _

def strokes : Layout := ⟨stroke, stroke, unstroke, unstroke_stroke, stroke_ne_nil⟩

end Dhole.Cron
