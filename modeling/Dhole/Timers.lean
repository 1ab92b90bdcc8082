import Dhole.Timestamps

/-! Timers. A wait is a row, written together with the event that gates its step. A poll claims
rows that have come due, marks each of them, asks whether its run has ended and otherwise appends
the events that end the wait, all in one transaction: the rows are locked from the claim on and
marked from the commit on, so a timer is claimed once. -/

namespace Dhole.Wait

open Interleave Prog Transact RunStore Timestamps List

inductive Err where
  | refused (name : String) (cause : Text)
  | runRequired
  | counting
  | scheduling (key : TimerKey) (cause : Text)
  | claiming
  | unreadable (key : TimerKey) (text : String)
  | firing (key : TimerKey) (cause : Text)
  | appending
  | beginning
  | committing

def Err.text : Err → Text
  | .refused name cause => (["wait: ", name, ": "] : Text) ++ cause
  | .runRequired => ["wait: a run and a step are required"]
  | .counting => ["wait: query in transaction"]
  | .scheduling key cause => (["wait: schedule ", key.runID, "/", key.stepID, ": "] : Text) ++ cause
  | .claiming => ["wait: claim"]
  | .unreadable key text =>
    [.lit "wait: claim ", .lit key.runID, .lit "/", .lit key.stepID, .lit ": unreadable due time ",
      .quoted text]
  | .firing key cause => (["wait: firing ", key.runID, "/", key.stepID, ": "] : Text) ++ cause
  | .appending => ["append run event"]
  | .beginning => ["begin transaction"]
  | .committing => ["commit transaction"]

def tenantRequired : Text := ["tenant scope required"]

def marshalling : Text := ["Time.MarshalJSON: year outside of range [0,9999]"]

/-! ### Arming and firing -/

inductive EnvOp where
  | now

abbrev envSig : Sig where
  Op := EnvOp
  Res _ := ℤ

abbrev envWorld : World envSig where
  State := Unit
  init := ()
  Answers _ _ := True
  next _ _ := ()

abbrev waitSig : Sig := (txSig schema).sum envSig

abbrev WaitEvent := Interleave.Event waitSig

abbrev waitWorld (iso : Isolation) : World waitSig := (txWorld schema iso {}).sum envWorld

abbrev WaitM := ExceptT Err (TxProg schema envSig)

def append (tx : ℕ) (e : Entry) (wrap : Text → Err) : WaitM Unit :=
  if e.tenantID = "" then throw (wrap tenantRequired)
  else do
    let _ ← query (T := envSig) tx (D := schema) (.append e) (wrap Err.appending.text)
    pure ()

def appendAll (tx : ℕ) (wrap : Text → Err) : List Entry → WaitM Unit
  | [] => pure ()
  | e :: rest => do
    append tx e wrap
    appendAll tx wrap rest

def entryFor (key : TimerKey) (payload : Payload) (at_ : ℤ) : Entry :=
  ⟨key.tenantID, key.runID, { stepID := key.stepID, payload, at_ }, .blank⟩

/-- `time.Time.MarshalJSON` knows years of four digits. -/
def marshals (t : Instant) : Bool := 0 ≤ t.year ∧ t.year ≤ 9999

def arm (tx : ℕ) (key : TimerKey) (due : Instant) : WaitM Unit := do
  let n : ℕ ← query (T := envSig) tx (D := schema) (.countTimers key) Err.counting
  if n > 0 then pure ()
  else
    let at_ ← perform (S := waitSig) (.inr .now)
    append tx (entryFor key (.stepAwaitingTimer due.instant) at_) (.scheduling key)
    let _ ← query (T := envSig) tx (D := schema) (.insertTimer ⟨key, due.format, false⟩)
      (Err.scheduling key Err.counting.text)
    pure ()

def checkWait (name : String) (key : TimerKey) (due : Instant) : Except Err Unit :=
  if key.tenantID = "" then .error (.refused name tenantRequired)
  else if key.runID = "" ∨ key.stepID = "" then .error .runRequired
  else if due.instant = 0 then .error (.refused name ["a due time is required"])
  else if marshals due = false then .error (.refused name marshalling)
  else .ok ()

def schedule (key : TimerKey) (due : Instant) : WaitM Unit :=
  match checkWait "schedule" key due with
  | .error err => throw err
  | .ok _ => withTx .beginning .committing fun tx => arm tx key due

def armInTx (tx : ℕ) (key : TimerKey) (due : Instant) : WaitM Unit :=
  match checkWait "arm" key due with
  | .error err => throw err
  | .ok _ => arm tx key due

structure Due where
  key : TimerKey
  at_ : Instant

/-- How many timers a poll claims, and how it reads the times they are due. -/
structure Timers where
  batch : ℕ := 100
  parse : List Char → Option Instant

namespace Timers

def readRow (t : Timers) (row : TimerRow) : Except Err Due :=
  match t.parse row.dueAt with
  | none => .error (.unreadable row.key (String.ofList row.dueAt))
  | some at_ => .ok ⟨row.key, at_⟩

def claim (t : Timers) (tx : ℕ) (now : Instant) : WaitM (List Due) := do
  let rows ← query (T := envSig) tx (D := schema) (.claimDue now.format t.batch) Err.claiming
  match List.mapM t.readRow rows with
  | .error err => throw err
  | .ok claimed => pure claimed

end Timers

def markFired (tx : ℕ) (d : Due) : WaitM Unit := do
  let _ ← query (T := envSig) tx (D := schema) (.markFired d.key)
    (Err.firing d.key Err.counting.text)
  pure ()

def retired (tx : ℕ) (d : Due) : WaitM Bool := do
  let n : ℕ ← query (T := envSig) tx (D := schema) (.countRetired d.key) Err.counting
  pure (decide (n > 0))

def resume (tx : ℕ) (d : Due) (at_ : Instant) : WaitM Unit :=
  if marshals d.at_ = false ∨ marshals at_ = false then
    throw (.firing d.key marshalling)
  else appendAll tx (.firing d.key) [entryFor d.key .stepTimerFired at_.instant,
    entryFor d.key (.stepSucceeded []) at_.instant]

def fireAll (tx : ℕ) (at_ : Instant) : List Due → WaitM (List Due)
  | [] => pure []
  | d :: rest => do
    markFired tx d
    let orphaned ← retired tx d
    if orphaned then fireAll tx at_ rest
    else
      resume tx d at_
      let fired ← fireAll tx at_ rest
      pure (d :: fired)

def Timers.due (t : Timers) (now : Instant) : WaitM (List Due) :=
  withTx .beginning .committing fun tx => do
    let claimed ← t.claim tx now
    fireAll tx now claimed

/-! ### Who calls -/

/-- A wait is armed in a transaction of its own or among the events of another; planes poll; other
events are appended; and the store notices that a transaction was left behind. -/
inductive Call where
  | schedule (key : TimerKey) (due : Instant)
  | armInTx (before after : List Entry) (key : TimerKey) (due : Instant)
  | poll (t : Timers) (now : Instant)
  | append (e : Entry)
  | crash (tx : ℕ)

def armAmong (before after : List Entry) (key : TimerKey) (due : Instant) : WaitM Unit :=
  withTx .beginning .committing fun tx => do
    appendAll tx (.scheduling key) before
    Wait.armInTx tx key due
    appendAll tx (.scheduling key) after

def handingOut (x : WaitM Unit) : WaitM (List Due) := do
  x
  pure []

def Call.prog : Call → Prog waitSig (Except Err (List Due))
  | .schedule key due => (handingOut (Wait.schedule key due)).run
  | .armInTx before after key due => (handingOut (armAmong before after key due)).run
  | .poll t now => (t.due now).run
  | .append e => (handingOut (withTx .beginning .committing fun tx =>
      Wait.append tx e (.scheduling ⟨e.tenantID, e.runID, e.event.stepID⟩))).run
  | .crash tx => do
    let _ ← perform (S := waitSig) (.inl (.abandon tx))
    pure (.ok [])

def claimedIn (tx : ℕ) (now : List Char) (limit : ℕ) (rows : List TimerRow) : WaitEvent :=
  answered (D := schema) tx (.claimDue now limit) rows

def retiredRead (tx : ℕ) (key : TimerKey) (n : ℕ) : WaitEvent :=
  answered (D := schema) tx (.countRetired key) n

def appended (tx : ℕ) (e : Entry) : WaitEvent := answered (D := schema) tx (.append e) ()

abbrev writesIn (tx : ℕ) (h : List WaitEvent) : List Write := stated (D := schema) writesOf tx h

/-- What a poll appends ends the wait of a timer that it found not retired. -/
def Resumes (tx : ℕ) (h : List WaitEvent) (e : Entry) : Prop :=
  ∃ now limit rows key, claimedIn tx now limit rows ∈ h ∧ key ∈ rows.map TimerRow.key ∧
    retiredRead tx key 0 ∈ h ∧ e.ofRun key.tenantID key.runID = true

def Call.polls : Call → Bool
  | .poll .. => true
  | _ => false

def Call.Justified (c : Call) (h : List WaitEvent) : WaitEvent → Prop
  | ⟨.inl (.query tx (.claimDue ..)), _⟩ => c.polls = true ∧ h = [begun tx]
  | ⟨.inl (.query tx (.append e)), _⟩ => begun tx ∈ h ∧ (c.polls = true → Resumes tx h e)
  | ⟨.inl (.query tx (.insertTimer _)), _⟩ => begun tx ∈ h ∧ c.polls = false
  | ⟨.inl (.query tx _), _⟩ => begun tx ∈ h
  | ⟨.inl (.commit tx), _⟩ => begun tx ∈ h ∧ (c.polls = true → ∃ now limit rows,
      claimedIn tx now limit rows ∈ h ∧ ∀ row ∈ rows, .fire row.key ∈ writesIn tx h)
  | _ => True

variable {c : Call} {h k : List WaitEvent} {tx : ℕ} {e : Entry} {wrap : Text → Err}
  {key : TimerKey} {due at_ : Instant} {t : Timers}

theorem wpe_append (hb : begun tx ∈ h) (hm : c.polls = true → Resumes tx h e) :
    wpe c.Justified (append tx e wrap) (fun k _ => k = h ++ [appended tx e]) h := by
  unfold append
  split
  · exact wpe_throw _
  · refine wpe_bind.mpr (wpe_query (fun r => ⟨hb, hm⟩) fun r => ?_)
    exact (wpe_pure _).mpr rfl

theorem Resumes.append (hr : Resumes tx h e) (k : List WaitEvent) : Resumes tx (h ++ k) e := by
  obtain ⟨now, limit, rows, key, hc, hk, hre, hru⟩ := hr
  exact ⟨now, limit, rows, key, mem_append_left _ hc, hk, mem_append_left _ hre, hru⟩

theorem wpe_appendAll {ens : List Entry} (hb : begun tx ∈ h)
    (hm : c.polls = true → ∀ e ∈ ens, Resumes tx h e) :
    wpe c.Justified (appendAll tx wrap ens) (fun k _ => h <+: k) h := by
  induction ens generalizing h with
  | nil => exact (wpe_pure _).mpr prefix_rfl
  | cons e rest ih =>
    refine wpe_bind.mpr (wpe_mono (wpe_append hb fun hp =>
      hm hp e mem_cons_self) ?_)
    rintro _ _ hk
    refine wpe_mono (ih (mem_append_left _ hb) fun hp e' he' =>
      (hm hp e' (mem_cons_of_mem _ he')).append _) ?_
    exact fun g _ hg => (prefix_append _ _).trans hg

theorem wpe_arm (hc : c.polls = false) (hb : begun tx ∈ h) :
    wpe c.Justified (arm tx key due) (fun k _ => h <+: k) h := by
  have hn : ∀ {P : Prop}, c.polls = true → P := fun hp => by rw [hc] at hp; cases hp
  refine wpe_bind.mpr (wpe_query (fun r => hb) fun (n : ℕ) => ?_)
  split
  · exact (wpe_pure _).mpr (prefix_append _ _)
  refine wpe_perform_bind.mpr fun (now : ℤ) => ⟨trivial, ?_⟩
  refine wpe_bind.mpr (wpe_mono (wpe_append (by simp [hb]) hn) ?_)
  rintro _ _ hk
  refine wpe_bind.mpr (wpe_query (fun r => ⟨by simp [hb], hc⟩) fun r => ?_)
  refine (wpe_pure _).mpr ?_
  rw [append_assoc, append_assoc, append_assoc]
  exact prefix_append _ _

theorem wpe_armInTx (hc : c.polls = false) (hb : begun tx ∈ h) :
    wpe c.Justified (armInTx tx key due) (fun k _ => h <+: k) h := by
  unfold armInTx
  split
  · exact wpe_throw _
  · exact wpe_arm hc hb

theorem wpe_unpolled {body : ℕ → WaitM Unit} (hc : c.polls = false)
    (hb : ∀ tx h, begun tx ∈ h → wpe c.Justified (body tx) (fun k _ => h <+: k) h) :
    wpe c.Justified (withTx .beginning .committing body) (fun _ _ => True) h := by
  refine wpe_withTx (fun r => trivial) (fun k tx r => trivial) fun tx => ?_
  refine wpe_mono (hb tx _ (by simp)) fun g _ hg => ⟨fun r => ⟨?_, fun hp => ?_⟩, trivial⟩
  · exact hg.subset (by simp)
  · rw [hc] at hp
    cases hp

variable {now : Instant} {rows : List TimerRow} {ds : List Due}

theorem wpe_fireAll {t : Timers} {text : List Char} {limit : ℕ} (hb : begun tx ∈ h)
    (hc : claimedIn tx text limit rows ∈ h) (hds : ∀ d ∈ ds, d.key ∈ rows.map TimerRow.key) :
    wpe (Call.poll t now).Justified (fireAll tx at_ ds)
      (fun k fired => h <+: k ∧ (∀ d ∈ ds, .fire d.key ∈ writesIn tx k) ∧ fired ⊆ ds) h := by
  induction ds generalizing h with
  | nil => exact (wpe_pure _).mpr ⟨prefix_rfl, by simp, Subset.refl _⟩
  | cons d ds ih =>
    obtain ⟨hd, hds⟩ := forall_mem_cons.mp hds
    refine wpe_bind.mpr (wpe_bind.mpr (wpe_query (fun r => hb) fun r => ?_))
    refine (wpe_pure _).mpr ?_
    generalize hh₁ : h ++ [answered (D := schema) tx (.markFired d.key) r] = h₁
    have hpr₁ : h <+: h₁ := hh₁ ▸ prefix_append _ _
    have hf : .fire d.key ∈ writesIn tx h₁ := by
      rw [← hh₁, writesIn, stated_append, stated_answered]
      exact mem_concat_self
    -- what is stated stays stated
    have hl : ∀ {k : List WaitEvent}, h₁ <+: k → .fire d.key ∈ writesIn tx k := by
      rintro _ ⟨g, rfl⟩
      rw [writesIn, stated_append]
      exact mem_append_left _ hf
    refine wpe_bind.mpr (wpe_bind.mpr (wpe_query (fun r => hpr₁.subset hb)
      fun (n : ℕ) => (wpe_pure _).mpr ?_))
    have hpr₂ : h₁ <+: h₁ ++ [retiredRead tx d.key n] := prefix_append _ _
    have hpr : h <+: h₁ ++ [retiredRead tx d.key n] := hpr₁.trans hpr₂
    by_cases ho : n > 0
    · simp only [ho, decide_true]
      refine wpe_mono (ih (hpr.subset hb) (hpr.subset hc) hds) ?_
      rintro g fired ⟨hg, ha, hs⟩
      refine ⟨hpr.trans hg, forall_mem_cons.mpr ⟨hl (hpr₂.trans hg), ha⟩, ?_⟩
      exact fun d' hd' => mem_cons_of_mem _ (hs hd')
    · obtain rfl : n = 0 := by omega
      have hr : ∀ pa, Resumes tx (h₁ ++ [retiredRead tx d.key 0])
          (entryFor d.key pa at_.instant) := fun pa =>
        ⟨text, limit, rows, d.key, hpr.subset hc, hd, by simp,
          by simp [Entry.ofRun, entryFor]⟩
      refine wpe_bind.mpr ?_
      unfold resume
      split
      · exact wpe_throw _
      refine wpe_mono (wpe_appendAll (hpr.subset hb) fun _ e he => ?_) ?_
      · obtain rfl | rfl : _ ∨ _ := by simpa using he
        · exact hr _
        · exact hr _
      rintro g _ hg
      have hp := hpr.trans hg
      refine wpe_bind.mpr (wpe_mono (ih (hp.subset hb) (hp.subset hc) hds) ?_)
      rintro g' fired ⟨hg', ha, hs⟩
      refine (wpe_pure _).mpr ⟨hp.trans hg', forall_mem_cons.mpr
        ⟨hl ((hpr₂.trans hg).trans hg'), ha⟩, ?_⟩
      exact cons_subset_cons _ hs

theorem keys_of_mapM (h : List.mapM t.readRow rows = .ok ds) :
    ds.map Due.key = rows.map TimerRow.key := by
  induction rows generalizing ds with
  | nil =>
    cases h
    rfl
  | cons row rows ih =>
    rw [mapM_cons] at h
    unfold Timers.readRow at h
    cases hp : t.parse row.dueAt with
    | none =>
      rw [hp] at h
      cases h
    | some due =>
      rw [hp] at h
      cases hr : List.mapM t.readRow rows with
      | error err =>
        change (List.mapM t.readRow rows >>= fun ds => pure (_ :: ds)) = _ at h
        rw [hr] at h
        cases h
      | ok ds' =>
        change (List.mapM t.readRow rows >>= fun ds => pure (_ :: ds)) = _ at h
        rw [hr] at h
        cases h
        rw [map_cons, map_cons, ih hr]

/-- What a poll hands out it claimed, and its transaction was committed. -/
def HandedOut (k : List WaitEvent) (fired : List Due) : Prop :=
  fired = [] ∨ ∃ tx now limit rows, claimedIn tx now limit rows ∈ k ∧ committed tx ∈ k ∧
    ∀ d ∈ fired, d.key ∈ rows.map TimerRow.key

theorem wpe_due : wpe (Call.poll t now).Justified (t.due now) HandedOut [] := by
  refine wpe_withTx (fun r => trivial) (fun k tx r => trivial) fun tx => ?_
  refine wpe_bind.mpr (wpe_bind.mpr (wpe_query (fun r => ⟨rfl, rfl⟩) fun (rows : List TimerRow) => ?_))
  cases hr : List.mapM t.readRow rows with
  | error err => exact wpe_throw _
  | ok ds =>
    refine (wpe_pure _).mpr ?_
    have hk := keys_of_mapM hr
    have hc : claimedIn tx now.format t.batch rows ∈
        ([] ++ [begun tx] ++ [claimedIn tx now.format t.batch rows] : List WaitEvent) := by simp
    refine wpe_mono (wpe_fireAll (by simp) hc fun d hd => ?_) ?_
    · rw [← hk]
      exact mem_map_of_mem hd
    rintro g fired ⟨hg, ha, hs⟩
    refine ⟨fun r => ⟨hg.subset (by simp), fun _ => ⟨now.format, t.batch, rows,
      hg.subset hc, fun row hro => ?_⟩⟩, .inr ⟨tx, now.format, t.batch, rows,
        mem_append_left _ (hg.subset hc), by simp, fun d hd => ?_⟩⟩
    · have hke : row.key ∈ ds.map Due.key := hk ▸ mem_map_of_mem hro
      obtain ⟨d, hd, hke⟩ := mem_map.mp hke
      rw [← hke]
      exact ha d hd
    · rw [← hk]
      exact mem_map_of_mem (hs hd)

theorem wp_handingOut {x : WaitM Unit} (hx : wpe c.Justified x (fun _ _ => True) []) :
    wp c.Justified (handingOut x).run (fun k r => ∀ fired, r = .ok fired → HandedOut k fired) [] :=
  wpe_bind.mpr (wpe_mono hx fun _ _ _ => (wpe_pure _).mpr (.inl rfl))

theorem wp_prog (c : Call) : wp c.Justified c.prog
    (fun k r => ∀ fired, r = .ok fired → HandedOut k fired) [] := by
  cases c with
  | schedule key due =>
    refine wp_handingOut ?_
    unfold schedule
    split
    · exact wpe_throw _
    · exact wpe_unpolled rfl fun tx h hb => wpe_arm rfl hb
  | armInTx before after key due =>
    refine wp_handingOut (wpe_unpolled rfl fun tx h hb => ?_)
    refine wpe_bind.mpr (wpe_mono (wpe_appendAll hb (by rintro ⟨⟩)) fun g _ hg => ?_)
    refine wpe_bind.mpr (wpe_mono (wpe_armInTx rfl (hg.subset hb)) fun g' _ hg' => ?_)
    refine wpe_mono (wpe_appendAll ((hg.trans hg').subset hb) (by rintro ⟨⟩)) ?_
    exact fun g'' _ hg'' => (hg.trans hg').trans hg''
  | poll t now => exact wpe_due
  | append e =>
    refine wp_handingOut (wpe_unpolled rfl fun tx h hb => ?_)
    refine wpe_mono (wpe_append hb (by rintro ⟨⟩)) fun g _ hg => ?_
    exact prefix_append _ _
  | crash tx =>
    refine wp_bind.mpr fun r => ⟨trivial, ?_⟩
    rintro fired ⟨⟩
    exact .inl rfl

/-! ### Rows -/

def Spent (key : TimerKey) (t : Tables) : Prop :=
  (∃ row ∈ t.timers, row.key = key) ∧ ∀ row ∈ t.timers, row.key = key → row.fired = true

variable {t : Tables} {ws : List Write}

theorem has_timer_apply (w : Write) (h : ∃ row ∈ t.timers, row.key = key) :
    ∃ row ∈ (t.apply w).timers, row.key = key := by
  obtain ⟨row, hr, hk⟩ := h
  cases w with
  | append e =>
    simp only [Tables.apply]
    split <;> exact ⟨row, hr, hk⟩
  | arm row' =>
    simp only [Tables.apply]
    split
    · exact ⟨row, hr, hk⟩
    · exact ⟨row, mem_append_left _ hr, hk⟩
  | fire key' =>
    refine ⟨_, mem_map_of_mem hr, ?_⟩
    split <;> exact hk

theorem Spent.apply (h : Spent key t) (w : Write) : Spent key (t.apply w) := by
  refine ⟨has_timer_apply w h.1, fun row hr hk => ?_⟩
  cases w with
  | append e =>
    simp only [Tables.apply] at hr
    split at hr <;> exact h.2 row hr hk
  | arm row' =>
    simp only [Tables.apply] at hr
    split at hr
    · exact h.2 row hr hk
    · rename_i hn
      rcases mem_append.mp hr with hr | hr
      · exact h.2 row hr hk
      · -- a row of this key is there already
        obtain rfl := mem_singleton.mp hr
        obtain ⟨row', hr', hk'⟩ := h.1
        exact absurd (any_eq_true.mpr ⟨row', hr', decide_eq_true (hk'.trans hk.symm)⟩) hn
  | fire key' =>
    obtain ⟨row', hr', rfl⟩ := mem_map.mp hr
    split
    · rfl
    · rename_i hs
      rw [if_neg hs] at hk
      exact h.2 row' hr' hk

theorem spent_foldl (hr : ∃ row ∈ t.timers, row.key = key) (hf : .fire key ∈ ws) :
    Spent key (ws.foldl Tables.apply t) := by
  induction ws generalizing t with
  | nil => cases hf
  | cons w ws ih =>
    rcases mem_cons.mp hf with rfl | hf
    · have hsp : Spent key (t.apply (.fire key)) := by
        refine ⟨has_timer_apply _ hr, fun row hr hke => ?_⟩
        obtain ⟨row', hr', rfl⟩ := mem_map.mp hr
        split
        · rfl
        · rename_i hs
          rw [if_neg hs] at hke
          exact Bool.eq_true_of_not_eq_false fun hfi => hs ⟨hke, hfi⟩
      have hk : ∀ (ws : List Write) t, Spent key t → Spent key (ws.foldl Tables.apply t) := by
        intro ws
        induction ws with
        | nil => exact fun t ht => ht
        | cons w ws ih => exact fun t ht => ih _ (ht.apply w)
      exact hk ws _ hsp
    · exact ih (has_timer_apply w hr) hf

/-! ### Histories -/

abbrev WaitHistory := List (Act waitSig)

abbrev store (iso : Isolation) (tr : WaitHistory) : State schema :=
  storeIn (D := schema) iso {} envWorld tr

abbrev Histories (iso : Isolation) (calls : ℕ → Call) (tr : WaitHistory) : Prop :=
  Guarded (waitWorld iso) (fun i => (calls i).Justified) tr

def Claims (tr : WaitHistory) (i tx : ℕ) (key : TimerKey) : Prop :=
  ∃ now limit rows, ⟨i, claimedIn tx now limit rows⟩ ∈ tr ∧ key ∈ rows.map TimerRow.key

def Lands (tr : WaitHistory) (tx : ℕ) : Prop :=
  ∃ us i e vs, tr = us ++ ⟨i, Event.inl e⟩ :: vs ∧ Ends tx true e

def Ended (key : TimerKey) (t : Tables) : Prop :=
  ∃ e ∈ t.log key.tenantID key.runID, e.payload.closesRun = true

def cancels (key : TimerKey) (e : Entry) : Bool :=
  e.ofRun key.tenantID key.runID && decide (e.event.payload = .runCancelled)

/-- No timer is claimed of a run that was cancelled before the step of the timer had a verdict. -/
def uncancelled (iso : Isolation) (us : WaitHistory) (a : Act waitSig) : Bool :=
  match a.event with
  | ⟨.inl (.query _ (.claimDue ..)), some rows⟩ => List.all rows fun row =>
      !(store iso us).tables.entries.any (cancels row.key) ||
        (store iso us).tables.entries.any (Entry.retires row.key)
  | _ => true

variable {iso : Isolation} {calls cs : ℕ → Call} {tr us vs ws : WaitHistory} {i j tx' limit : ℕ}
  {now : List Char} {row : TimerRow}

theorem owns_of_justified {d : WaitEvent} (hd : c.Justified h d) : Owns h d := by
  obtain ⟨op | op, r⟩ := d
  · cases op with
    | query tx q =>
      cases q with
      | claimDue =>
        obtain ⟨-, rfl⟩ := hd
        exact mem_singleton_self _
      | append e | insertTimer row => exact hd.1
      | _ => exact hd
    | commit tx => exact hd.1
    | _ => trivial
  · trivial

theorem claim_facts (htr : Histories iso cs (us ++ ⟨i, claimedIn tx now limit rows⟩ :: vs)) :
    (cs i).polls = true ∧ own i us = [begun tx] ∧ (store iso us).isOpen tx = true ∧
      ∀ row ∈ rows, row ∈ (store iso us).tables.timers ∧ row.fired = false ∧
        (store iso us).held tx (.timer row.key) = false ∧
        (store iso (us ++ [⟨i, claimedIn tx now limit rows⟩])).locked tx (.timer row.key) := by
  obtain ⟨hp, hf⟩ := (htr.at_split).2
  obtain ⟨ho, -, -, hl⟩ := storeIn_answered htr
  have ha := answers_unstated (fun _ _ _ => owns_of_justified)
    (fun _ _ _ => rfl) htr (by rw [hf]; rfl)
  obtain ⟨hs, -⟩ : rows.Sublist ((store iso us).tables.due ((store iso us).held tx) now) ∧
      rows.length ≤ limit := ha
  refine ⟨hp, hf, ho, fun row hr => ?_⟩
  obtain ⟨hm, hfi, -, hh⟩ := mem_due.mp (hs.subset hr)
  exact ⟨hm, hfi, hh, hl _ (mem_map_of_mem hr)⟩

theorem begun_of_claimed (htr : Histories iso cs tr)
    (hc : ⟨i, claimedIn tx now limit rows⟩ ∈ tr) : begun tx ∈ own i tr := by
  obtain ⟨us, vs, rfl⟩ := append_of_mem hc
  rw [own_append, (claim_facts htr).2.1]
  exact mem_append_left _ (mem_singleton_self _)

variable {now' : List Char} {rows' : List TimerRow}

theorem claim_unique {limit' : ℕ} (htr : Histories iso cs tr)
    (hc : claimedIn tx now limit rows ∈ own i tr)
    (hc' : claimedIn tx' now' limit' rows' ∈ own i tr) : tx = tx' ∧ rows = rows' := by
  have hp : ∀ {tx now limit rows}, claimedIn tx now limit rows ∈ own i tr →
      (own i tr).take 2 = [begun tx, claimedIn tx now limit rows] := by
    intro tx now limit rows hm
    obtain ⟨us, vs, rfl⟩ := append_of_mem (mem_of_mem_own hm)
    obtain ⟨-, hf, -⟩ := claim_facts htr
    rw [own_append, hf, own_cons_self]
    rfl
  have heq := (hp hc).symm.trans (hp hc')
  obtain ⟨hb, hr⟩ := cons.inj heq
  have hs := (cons.inj hr).1
  cases hs
  exact ⟨rfl, rfl⟩

theorem spent_of_lands (htr : Histories iso cs tr) (hc : Claims tr i tx key) {k : ℕ}
    {d : TxEvent schema} (hs : tr = us ++ ⟨k, Event.inl d⟩ :: vs) (he : Ends tx true d) :
    Spent key (store iso (us ++ [⟨k, Event.inl d⟩])).tables := by
  obtain ⟨now, limit, rows, hme, hk⟩ := hc
  subst hs
  have hbe := begun_of_claimed htr hme
  -- who commits has begun the transaction, and has claimed and marked
  have hco : lands (Event.inl d : WaitEvent) = some tx ∧ begun tx ∈ own k us ∧
      ((cs k).polls = true → ∃ now limit rows, claimedIn tx now limit rows ∈ own k us ∧
        ∀ row ∈ rows, .fire row.key ∈ writesIn tx (own k us)) := by
    cases he with
    | commit | failed => exact ⟨rfl, (htr.at_split).2⟩
  obtain ⟨hl, hb, hm⟩ := hco
  obtain rfl : i = k := begun_own_unique htr hbe (by
    rw [own_append]
    exact mem_append_left _ hb)
  have hp : (cs i).polls = true := by
    obtain ⟨xs, ys, hxs⟩ := append_of_mem hme
    rw [hxs] at htr
    exact (claim_facts htr).1
  obtain ⟨now', li', rows', hc', hf⟩ := hm hp
  obtain rfl : rows = rows' := (claim_unique htr (mem_own_of_mem hme) (by
    rw [own_append]
    exact mem_append_left _ hc')).2
  obtain ⟨row, hr, rfl⟩ := mem_map.mp hk
  -- the row is in the table by then
  have hth : ∃ row' ∈ (store iso us).tables.timers, row'.key = row.key := by
    obtain ⟨us₀, us₁, rfl⟩ := append_of_mem (mem_of_mem_own hc')
    rw [append_assoc] at htr
    obtain ⟨hr₀, -⟩ := (claim_facts htr).2.2.2 row hr
    exact tables_keep (D := schema) (I := fun t => ∃ row' ∈ t.timers, row'.key = row.key)
      (fun t w ht => has_timer_apply w ht) ⟨row, hr₀, rfl⟩
  rw [append_cons] at htr
  rw [tables_landed (fun _ _ _ => owns_of_justified)
    (fun _ _ _ => rfl) htr.of_append, landed, hl]
  exact spent_foldl hth (hf row hr)

/-- While one poll holds a timer, and after it has fired it, no other claims it. -/
theorem claim_excludes {limit' : ℕ}
    (htr : Histories iso cs (us ++ ⟨i, claimedIn tx now limit rows⟩ ::
      (vs ++ ⟨j, claimedIn tx' now' limit' rows'⟩ :: ws))) (hke : key ∈ rows.map TimerRow.key)
    (hke' : key ∈ rows'.map TimerRow.key) (hla : Lands (us ++ ⟨i, claimedIn tx now limit rows⟩ ::
      (vs ++ ⟨j, claimedIn tx' now' limit' rows'⟩ :: ws)) tx) : tx = tx' := by
  by_contra hne
  obtain ⟨xs, k, d, ys, hs, he⟩ := hla
  have hc : Claims (us ++ ⟨i, claimedIn tx now limit rows⟩ ::
      (vs ++ ⟨j, claimedIn tx' now' limit' rows'⟩ :: ws)) i tx key :=
    ⟨now, limit, rows, by simp, hke⟩
  have hsp := spent_of_lands htr hc hs he
  have hse := htr
  rw [← cons_append, ← append_assoc] at hse hs
  obtain ⟨-, -, -, hrw'⟩ := claim_facts hse
  obtain ⟨row', hrow', hro'⟩ := mem_map.mp hke'
  obtain ⟨hm', hu, hf, -⟩ := hrw' row' hrow'
  rcases append_eq_append_iff.mp hs with ⟨zs, hzs, hr⟩ | ⟨zs, hzs, hr⟩
  · -- the commit comes after the second claim: the first still holds the row
    cases zs with
    | nil =>
      have hac := (cons.inj hr).1
      cases he <;> cases hac
    | cons z zs =>
      obtain ⟨-, -, -, hrw⟩ := claim_facts htr
      obtain ⟨row, hrow, rfl⟩ := mem_map.mp hke
      have hl := (hrw row hrow).2.2.2
      have hen := htr
      rw [← cons_append, ← append_assoc, hs] at hen
      have ha : answers iso (store iso xs) d := (hen.at_split).1
      have ho : (store iso xs).isOpen tx = true := isOpen_of_ends he ha
      rw [hzs, append_cons us _ vs] at ho
      have hpa := hse.of_append
      rw [append_cons us _ vs] at hpa hf
      have ho₀ : (store iso (us ++ [⟨i, claimedIn tx now limit rows⟩])).isOpen tx = true := by
        obtain ⟨p, hp, -⟩ := hl
        rw [State.isOpen, hp]
        rfl
      have hmi := isOpen_between ho₀ ho
      have hcl := not_open_of_free exclusive hpa hl hne (hro' ▸ hf)
      exact absurd (hmi.symm.trans hcl) Bool.noConfusion
  · -- the commit comes before it: the timer is spent
    cases zs with
    | nil =>
      have hac := (cons.inj hr).1
      cases he <;> cases hac
    | cons z zs =>
      obtain ⟨rfl, -⟩ := cons.inj hr
      have hk : Spent key (store iso (xs ++ [⟨k, Event.inl d⟩] ++ zs)).tables :=
        tables_keep (fun t w ht => ht.apply w) hsp
      rw [← append_cons, ← hzs] at hk
      rw [hk.2 row' hm' hro'] at hu
      cases hu

theorem claims_unique (htr : Histories iso cs tr) (hi : Claims tr i tx key)
    (hl : Lands tr tx) (hj : Claims tr j tx' key) (hl' : Lands tr tx') : i = j := by
  obtain ⟨now, limit, rows, hm, hk⟩ := hi
  obtain ⟨now', li', rows', hm', hk'⟩ := hj
  obtain rfl : tx = tx' := by
    obtain ⟨us, vs, rfl⟩ := append_of_mem hm
    rcases mem_append.mp hm' with h | h
    · obtain ⟨us₀, us₁, rfl⟩ := append_of_mem h
      rw [append_assoc] at htr hl'
      exact (claim_excludes htr hk' hk hl').symm
    rcases mem_cons.mp h with h | h
    · cases h
      rfl
    · obtain ⟨vs₀, vs₁, rfl⟩ := append_of_mem h
      exact claim_excludes htr hk hk' hl
  exact begun_own_unique htr (begun_of_claimed htr hm) (begun_of_claimed htr hm')

theorem of_uncancelled
    (hun : uncancelled iso us ⟨i, claimedIn tx now limit rows⟩ = true) (hr : row ∈ rows)
    {e₀ : Entry} (he : e₀ ∈ (store iso us).tables.entries) (hc : cancels row.key e₀ = true) :
    ∃ e ∈ (store iso us).tables.entries, e.retires row.key = true := by
  have ha := all_eq_true.mp hun row hr
  rcases Bool.or_eq_true_iff.mp ha with hn | hs
  · have han := any_eq_true.mpr ⟨e₀, he, hc⟩
    rw [han] at hn
    cases hn
  · exact any_eq_true.mp hs

/-- A poll appends nothing to a run that had ended when it claimed. -/
theorem not_appended (htr : Histories iso cs (us ++ ⟨i, claimedIn tx now limit rows⟩ :: vs))
    (hun : uncancelled iso us ⟨i, claimedIn tx now limit rows⟩ = true)
    (he : Ended key (store iso us).tables) (hru : e.ofRun key.tenantID key.runID = true) :
    ⟨i, appended tx e⟩ ∉ us ++ ⟨i, claimedIn tx now limit rows⟩ :: vs := by
  intro hm
  obtain ⟨hpo, hf, -, -⟩ := claim_facts htr
  have hvs : ⟨i, appended tx e⟩ ∈ vs := by
    rcases mem_append.mp hm with h | h
    · have hs := mem_own_of_mem h
      rw [hf] at hs
      cases mem_singleton.mp hs
    · rcases mem_cons.mp h with h | h
      · cases h
      · exact h
  obtain ⟨vs₁, vs₂, rfl⟩ := append_of_mem hvs
  have ha := htr
  rw [← cons_append, ← append_assoc] at ha
  obtain ⟨now', li', rows', key', hcl', hk', hre, hru'⟩ :=
    (ha.at_split).2.2 hpo
  have hpa := ha.of_append
  obtain rfl : rows = rows' := (claim_unique hpa (mem_own_of_mem
    (mem_append_right _ mem_cons_self)) hcl').2
  obtain ⟨row, hro, rfl⟩ := mem_map.mp hk'
  -- the poll asked about this timer after it had claimed it
  rw [own_append, own_cons_self, hf] at hre
  have hre' : retiredRead tx row.key 0 ∈ own i vs₁ := by
    rcases mem_append.mp hre with h | h
    · cases mem_singleton.mp h
    · rcases mem_cons.mp h with h | h
      · cases h
      · exact h
  obtain ⟨ws₀, ws₁, rfl⟩ := append_of_mem (mem_of_mem_own hre')
  have hak := hpa
  rw [← cons_append, ← append_assoc] at hak
  obtain ⟨-, hz, -, -⟩ := storeIn_answered hak
  have hn : ∀ d ∈ (store iso us).tables.entries, ¬ d.retires row.key = true := by
    intro d hd hr
    have hl : d ∈ (store iso (us ++ ⟨i, claimedIn tx now limit rows⟩ :: ws₀)).tables.entries :=
      tables_keep (D := schema)
        (fun t w ht => (entries_prefix_apply t w).subset ht) hd
    have hv : d ∈ ((store iso
        (us ++ ⟨i, claimedIn tx now limit rows⟩ :: ws₀)).view tx).entries :=
      (entries_prefix_foldl _ _).subset hl
    have hco := countP_eq_zero.mp (Eq.symm hz) d hv
    exact hco hr
  obtain ⟨hru₁, hru₂⟩ : e.tenantID = key.tenantID ∧ e.runID = key.runID := of_decide_eq_true hru
  obtain ⟨hro₁, hro₂⟩ : e.tenantID = row.key.tenantID ∧ e.runID = row.key.runID :=
    of_decide_eq_true hru'
  obtain ⟨_, hlo, hc⟩ := he
  obtain ⟨d, hd, rfl⟩ := mem_map.mp hlo
  obtain ⟨hd, hdr⟩ := mem_filter.mp hd
  have hdr' : d.ofRun row.key.tenantID row.key.runID = true := by
    rwa [← hro₁, ← hro₂, hru₁, hru₂]
  cases hp : d.event.payload with
  | runCompleted | runFailed steps => exact hn d hd (by simp [Entry.retires, hdr', hp])
  | runCancelled =>
    obtain ⟨d', hd', hr⟩ := of_uncancelled hun hro hd (by simp [cancels, hdr', hp])
    exact hn d' hd' hr
  | _ =>
    rw [hp] at hc
    cases hc

/-- Timers under any interleaving. A timer is claimed by at most one poll whose transaction stands,
so at most one hands it out; and as long as no timer is claimed of a run that was cancelled before
the step had a verdict, a timer of a run that has ended is marked and nothing is appended. -/
theorem timers_fire_once (htr : Reach (waitWorld iso) (fun i => (calls i).prog) tr)
    (hcond : Throughout (fun us a => uncancelled iso us a = true) tr) :
    (∀ i j tx tx' key, Claims tr i tx key → Lands tr tx → Claims tr j tx' key → Lands tr tx' →
      i = j) ∧ (∀ i j fired fired', Returns (calls i).prog (own i tr) (.ok fired) →
      Returns (calls j).prog (own j tr) (.ok fired') →
      ∀ d ∈ fired, ∀ d' ∈ fired', d.key = d'.key → i = j) ∧
    ∀ us vs i tx now limit rows, tr = us ++ ⟨i, claimedIn tx now limit rows⟩ :: vs →
      ∀ row ∈ rows, Ended row.key (store iso us).tables →
        (∀ e : Entry, e.ofRun row.key.tenantID row.key.runID = true → ⟨i, appended tx e⟩ ∉ tr) ∧
        (Lands tr tx → Spent row.key (store iso tr).tables) := by
  have hg : Histories iso calls tr := htr.guarded fun i => wp_prog (calls i)
  refine ⟨fun i j tx tx' key hi hl hj hl' => claims_unique hg hi hl hj hl', ?_, ?_⟩
  · intro i j fired fired' hr hr' d hd d' hd' hke
    have ho : ∀ {i fired d}, Returns (calls i).prog (own i tr) (.ok fired) → d ∈ fired →
        ∃ tx, Claims tr i tx d.key ∧ Lands tr tx := by
      intro i fired d hr hd
      have hh := wp_returns (wp_prog (calls i)) hr fired rfl
      obtain rfl | ⟨tx, now, limit, rows, hcl, hco, hk⟩ := hh
      · cases hd
      obtain ⟨us, vs, hs⟩ := append_of_mem (mem_of_mem_own hco)
      exact ⟨tx, ⟨now, limit, rows, mem_of_mem_own hcl, hk d hd⟩,
        us, i, ⟨.commit tx, CommitRes.ok⟩, vs, hs, .commit⟩
    obtain ⟨tx, hc, hla⟩ := ho hr hd
    obtain ⟨tx', hc', hla'⟩ := ho hr' hd'
    exact claims_unique hg hc hla (hke ▸ hc') hla'
  · rintro us vs i tx now limit rows rfl row hro he
    constructor
    · exact fun e hru => not_appended hg (hcond us _ vs rfl) he hru
    · rintro ⟨xs, k, d, ys, hs, hen⟩
      have hc : Claims (us ++ ⟨i, claimedIn tx now limit rows⟩ :: vs) i tx row.key :=
        ⟨now, limit, rows, by simp, mem_map_of_mem hro⟩
      have hsp := spent_of_lands hg hc hs hen
      rw [hs, append_cons]
      exact tables_keep (fun t w ht => ht.apply w) hsp

/-! ### A wait in a run that is cancelled -/

def honestWait (iso : Isolation) (_ : ℕ) (s : (waitWorld iso).State) :
    (op : waitSig.Op) → waitSig.Res op
  | .inl op => honest iso resolver s.1 op
  | .inr .now => (0 : ℤ)

theorem honestWait_answers (iso : Isolation) (n : ℕ) (s : (waitWorld iso).State)
    (op : waitSig.Op) : (waitWorld iso).Answers s ⟨op, honestWait iso n s op⟩ := by
  cases op with
  | inl op => exact honest_answers iso resolver s.1 op
  | inr op => trivial

def waitKey : TimerKey := ⟨"acme", "run-1", "wait"⟩

def noonTimers : Timers := { parse := fun _ => some noon }

/-- A wait is armed, its run ends as told, and a plane polls. -/
def endedRun (ending : Payload) : ℕ → Call
  | 0 => .schedule waitKey noon
  | 1 => .append ⟨"acme", "run-1", { payload := ending, at_ := 0 }, .blank⟩
  | _ => .poll noonTimers noon

def endedThenPolled (ending : Payload) : WaitHistory :=
  exec (waitWorld .serial) (honestWait .serial) (fun i => (endedRun ending i).prog)
    [0, 0, 0, 0, 0, 0, 1, 1, 1, 2, 2, 2, 2, 2, 2, 2]

theorem endedThenPolled_reach (ending : Payload) :
    Reach (waitWorld .serial) (fun i => (endedRun ending i).prog) (endedThenPolled ending) :=
  exec_reach _ _ (honestWait_answers .serial) _ _

def kinds (tr : WaitHistory) : List Payload :=
  ((store .serial tr).tables.log "acme" "run-1").map fun e => e.payload

theorem completed_run_retires_timer : kinds (endedThenPolled .runCompleted) =
        [.stepAwaitingTimer noon.instant, .runCompleted] ∧
      ∀ i j tx tx' key, Claims (endedThenPolled .runCompleted) i tx key →
        Lands (endedThenPolled .runCompleted) tx → Claims (endedThenPolled .runCompleted) j tx' key →
        Lands (endedThenPolled .runCompleted) tx' → i = j :=
  ⟨by decide +kernel,
    (timers_fire_once (endedThenPolled_reach .runCompleted) (by decide +kernel)).1⟩

/-- The timer of a cancelled run fires into it. -/
theorem cancelled_run_timer_fires :
    Reach (waitWorld .serial) (fun i => (endedRun .runCancelled i).prog)
        (endedThenPolled .runCancelled) ∧ kinds (endedThenPolled .runCancelled) =
        [.stepAwaitingTimer noon.instant, .runCancelled, .stepTimerFired, .stepSucceeded []] :=
  ⟨endedThenPolled_reach .runCancelled, by decide +kernel⟩

end Dhole.Wait
