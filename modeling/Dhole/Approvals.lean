import Dhole.Builtins
import Dhole.Lexical
import Dhole.RunStore

/-! Approval gates. A gate is what the log says of it: a request opens it and a decision, written
together with the verdict it implies, closes it. Whether it is decided is read inside the
transaction that decides it, so that two decisions exclude each other only if nothing is committed
between the read and the first append. -/

namespace Dhole.Approval

open Interleave Prog Transact RunStore Lexical List

structure Gate where
  tenantID : String
  runID : String
  stepID : String
deriving DecidableEq

/-! ### Refusals -/

inductive Err where
  | incomplete
  | noApprovers
  | approverRequired
  | reasonRequired
  | unknownApprover (approver tenantID : String)
  | verifying (approver : String) (cause : Text)
  | alreadyDecided (g : Gate) (approved : Bool) (approver reason : String)
  | notAwaiting (g : Gate)
  | decoding (kind : String)
  | reading (g : Gate)
  | requesting (g : Gate) (cause : Text)
  | deciding (g : Gate) (cause : Text)
  | resuming (g : Gate) (approver : String) (cause : Text)
  | tenantRequired
  | appending
  | replaying
  | beginning
  | committing

def Err.text : Err → Text
  | .incomplete => ["approval: a run and a step are required"]
  | .noApprovers => ["this control plane has no principal store, ",
      "so there is nobody an approval could be verified against"]
  | .approverRequired => ["approval: an approver is required"]
  | .reasonRequired => ["approval: a reason is required for an approval or a denial"]
  | .unknownApprover approver tenantID => [.lit "approval: unknown approver: ", .quoted approver,
      .lit " is not a principal of tenant ", .quoted tenantID]
  | .verifying approver cause =>
    [.lit "approval: verifying approver ", .quoted approver, .lit ": "] ++ cause
  | .alreadyDecided g approved approver reason =>
    let verdict := if approved then "approved" else "denied"
    if reason = "" then
      ["approval: already decided: ", g.runID, "/", g.stepID, " was ", verdict, " by ", approver]
    else
      ["approval: already decided: ", g.runID, "/", g.stepID, " was ", verdict, " by ", approver,
        ": ", reason]
  | .notAwaiting g => ["approval: no decision was requested for ", g.runID, "/", g.stepID]
  | .decoding kind => ["approval: decoding ", kind, " payload"]
  | .reading g => ["approval: reading ", g.runID, "/", g.stepID]
  | .requesting g cause => (["approval: request ", g.runID, "/", g.stepID, ": "] : Text) ++ cause
  | .deciding g cause => (["approval: deciding ", g.runID, "/", g.stepID, ": "] : Text) ++ cause
  | .resuming g approver cause =>
    (["approval: resuming ", g.runID, " after ", approver, " approved ", g.stepID, ": "] : Text) ++
      cause
  | .tenantRequired => ["tenant scope required"]
  | .appending => ["append run event"]
  | .replaying => ["replay run"]
  | .beginning => ["begin transaction"]
  | .committing => ["commit transaction"]

/-! ### The gate in the log -/

structure GateState where
  awaiting : Bool := false
  decided : Bool := false
  approved : Bool := false
  approver : String := ""
  reason : String := ""
  parks : Bool := false
deriving DecidableEq

def GateState.fold (s : GateState) (e : Entry) : Except Err GateState :=
  match e.event.payload, e.note with
  | .stepAwaitingApproval _, .request _ parks => .ok { s with awaiting := true, parks }
  | .stepAwaitingApproval _, _ => .error (.decoding "STEP_AWAITING_APPROVAL")
  | .stepApprovalDecided _, .decision approver approved reason =>
    .ok { s with decided := true, approved, approver, reason }
  | .stepApprovalDecided _, _ => .error (.decoding "STEP_APPROVAL_DECIDED")
  | _, _ => .ok s

def gateState (rows : List Entry) : Except Err GateState := rows.foldlM GateState.fold {}

namespace Gate

def entry (g : Gate) (payload : Payload) (at_ : ℤ) (note : Note) : Entry :=
  ⟨g.tenantID, g.runID, { stepID := g.stepID, payload, at_ }, note⟩

def requested (g : Gate) (prompt : String) (parks : Bool) (at_ : ℤ) : Entry :=
  g.entry (.stepAwaitingApproval parks) at_ (.request prompt parks)

/-- What a decision writes beside itself: a parked step is released, a gate that is a step has its
verdict, and a refusal ends the run. -/
def verdict (g : Gate) (approved parks : Bool) (note : Note) (at_ : ℤ) : List Entry :=
  if approved ∧ parks then [g.entry .stepResumed at_ note]
  else if approved then [g.entry (.stepSucceeded []) at_ .blank]
  else [g.entry .stepFailed at_ note,
    ⟨g.tenantID, g.runID, { payload := .runFailed [g.stepID], at_ }, .blank⟩]

def decided (g : Gate) (approver reason : String) (approved : Bool) (at_ : ℤ) : Entry :=
  g.entry (.stepApprovalDecided approved) at_ (.decision approver approved reason)

def decision (g : Gate) (approver reason : String) (approved parks : Bool) (at_ : ℤ) : List Entry :=
  g.decided approver reason approved at_ ::
    g.verdict approved parks (.decision approver approved reason) at_

def refuseDecided (g : Gate) (s : GateState) : Err :=
  .alreadyDecided g s.approved s.approver s.reason

end Gate

/-! ### Requests, decisions and jobs -/

inductive PrincipalRes where
  | found
  | notFound
  | failed (cause : Text)

/-- What a plane asks that is not the run store. -/
inductive EnvOp where
  | now
  | principal (tenantID approver : String)
  | advance (tenantID runID : String)
  | contextEnded
  | nextJob

abbrev envSig : Sig where
  Op := EnvOp
  Res
    | .now => ℤ
    | .principal .. => PrincipalRes
    | .advance .. => Option Text
    | .contextEnded => Bool
    | .nextJob => Unit

abbrev envWorld : World envSig where
  State := Unit
  init := ()
  Answers _ _ := True
  next _ _ := ()

abbrev gateSig : Sig := (txSig schema).sum envSig

abbrev GateEvent := Interleave.Event gateSig

abbrev gateWorld (iso : Isolation) : World gateSig := (txWorld schema iso {}).sum envWorld

abbrev GateM := ExceptT Err (TxProg schema envSig)

def now : GateM ℤ := perform (S := gateSig) (.inr .now)

def append (tx : ℕ) (e : Entry) (wrap : Err → Err) : GateM Unit :=
  if e.tenantID = "" then throw (wrap .tenantRequired)
  else do
    let _ ← query (T := envSig) tx (D := schema) (.append e) (wrap .appending)
    pure ()

def appendAll (tx : ℕ) (wrap : Err → Err) : List Entry → GateM Unit
  | [] => pure ()
  | e :: rest => do
    append tx e wrap
    appendAll tx wrap rest

/-- `runstore.Store.Append`. -/
def appendOne (e : Entry) : GateM Unit :=
  if e.tenantID = "" then throw .tenantRequired
  else withTx .beginning .committing fun tx => append tx e id

def replay (tenantID runID : String) : GateM Log := do
  match ← perform (S := gateSig) (.inl (.read (.replay tenantID runID))) with
  | none => throw .replaying
  | some log => pure log

namespace Gate

def read (g : Gate) (tx : ℕ) : GateM GateState := do
  let rows ← query (T := envSig) tx (D := schema) (.readGate g.tenantID g.runID g.stepID)
    (Err.reading g)
  match gateState rows with
  | .error err => throw err
  | .ok s => pure s

def request (g : Gate) (prompt : String) (parks : Bool) : GateM Unit :=
  if g.runID = "" ∨ g.stepID = "" then throw .incomplete
  else withTx .beginning .committing fun tx => do
    let s ← g.read tx
    if s.decided then throw (g.refuseDecided s)
    else if s.awaiting then pure ()
    else
      let at_ ← now
      append tx (g.requested prompt parks at_) fun err => .requesting g err.text

def record (g : Gate) (approver reason : String) (approved : Bool) : GateM Unit :=
  withTx .beginning .committing fun tx => do
    let s ← g.read tx
    if s.decided then throw (g.refuseDecided s)
    else if s.awaiting = false then throw (.notAwaiting g)
    else
      let at_ ← now
      appendAll tx (fun err => .deciding g err.text)
        (g.decision approver reason approved s.parks at_)

def decide (g : Gate) (approver : String) (approved : Bool) (reason : String) : GateM Unit :=
  let approver := trimSpace approver
  let reason := trimSpace reason
  if g.runID = "" ∨ g.stepID = "" then throw .incomplete
  else if approver = "" then throw .approverRequired
  else if reason = "" then throw .reasonRequired
  else do
    match ← perform (S := gateSig) (.inr (.principal g.tenantID approver)) with
    | .notFound => throw (.unknownApprover approver g.tenantID)
    | .failed cause => throw (.verifying approver cause)
    | .found =>
      g.record approver reason approved
      if approved = false then pure ()
      else
        match ← perform (S := gateSig) (.inr (.advance g.tenantID g.runID)) with
        | some cause => throw (.resuming g approver cause)
        | none => pure ()

end Gate

/-- A job of a gate, on a plane with or without a principal store. -/
structure Job where
  gate : Gate
  prompt : String
  approvers : Bool := true
deriving DecidableEq

namespace Job

def execute (job : Job) : GateM Unit :=
  if job.approvers = false then throw .noApprovers else job.gate.request job.prompt false

def failure (job : Job) (attempt : ℕ) (at_ : ℤ) : Entry :=
  ⟨job.gate.tenantID, job.gate.runID,
    ⟨job.gate.stepID, if attempt = 0 then 1 else attempt, .stepFailed, at_⟩, .blank⟩

def fail (job : Job) : GateM Unit := do
  let log ← replay job.gate.tenantID job.gate.runID
  let at_ ← now
  appendOne (job.failure (Builtins.highestDispatched log job.gate.stepID) at_)

def run (job : Job) : Prog gateSig (Except Err Unit) := do
  let _ ← perform (S := gateSig) (.inr .nextJob)
  match ← job.execute.run with
  | .ok _ => pure (.ok ())
  | .error err =>
    let ended : Bool ← perform (S := gateSig) (.inr .contextEnded)
    if ended then pure (.error err) else job.fail.run

end Job

/-! ### Who calls -/

def decides (e : Entry) : Bool :=
  match e.event.payload with
  | .stepApprovalDecided _ => true
  | _ => false

/-- People and planes ask, decide and run jobs; others append their own events; and the store
notices that a transaction was left behind. -/
inductive Call where
  | request (g : Gate) (prompt : String) (parks : Bool)
  | decide (g : Gate) (approver : String) (approved : Bool) (reason : String)
  | job (j : Job)
  | append (e : Entry) (hother : decides e = false)
  | crash (tx : ℕ)

def Call.prog : Call → Prog gateSig (Except Err Unit)
  | .request g prompt parks => (g.request prompt parks).run
  | .decide g approver approved reason => (g.decide approver approved reason).run
  | .job j => j.run
  | .append e _ => (appendOne e).run
  | .crash tx => do
    let _ ← perform (S := gateSig) (.inl (.abandon tx))
    pure (.ok ())

def gateRead (tx : ℕ) (g : Gate) (rows : List Entry) : GateEvent :=
  answered (D := schema) tx (.readGate g.tenantID g.runID g.stepID) rows

def appended (tx : ℕ) (e : Entry) : GateEvent := answered (D := schema) tx (.append e) ()

abbrev writesIn (tx : ℕ) (h : List GateEvent) : List Write := stated (D := schema) writesOf tx h

/-- The transaction read the gate and found it in this state, not decided. -/
def Undecided (tx : ℕ) (g : Gate) (s : GateState) (h : List GateEvent) : Prop :=
  ∃ rows, gateRead tx g rows ∈ h ∧ gateState rows = .ok s ∧ s.decided = false

/-- The store failed, or the gate was decided or could not be read. -/
def trouble : GateEvent → Bool
  | ⟨.inl .begin, none⟩ => true
  | ⟨.inl (.query _ _), none⟩ => true
  | ⟨.inl (.query _ (.readGate ..)), some rows⟩ =>
    match gateState rows with
    | .ok s => s.decided
    | .error _ => true
  | ⟨.inl (.commit _), .failed _⟩ => true
  | _ => false

def Trouble (h : List GateEvent) : Prop := ∃ d ∈ h, trouble d = true

def Gate.Incomplete (g : Gate) : Prop := g.tenantID = "" ∨ g.runID = "" ∨ g.stepID = ""

/-- What each kind of call appends, and what that rests on. -/
def Call.MayAppend (c : Call) (tx : ℕ) (h : List GateEvent) (e : Entry) : Prop :=
  match c with
  | .request g prompt parks => ∃ at_, e = g.requested prompt parks at_
  | .decide g approver approved reason => ∃ s at_ done rest, ¬ g.Incomplete ∧ Undecided tx g s h ∧
      g.decision (trimSpace approver) (trimSpace reason) approved s.parks at_ = done ++ e :: rest ∧
      writesIn tx h = done.map Write.append
  | .job j => (∃ at_, e = j.gate.requested j.prompt false at_) ∨
      (∃ n at_, e = j.failure n at_) ∧ (j.approvers = false ∨ j.gate.Incomplete ∨ Trouble h)
  | .append d _ => e = d
  | .crash _ => False

/-- A decision is committed as a whole. -/
def Call.MayCommit (c : Call) (tx : ℕ) (h : List GateEvent) : Prop :=
  match c with
  | .decide g approver approved reason => ∃ s at_, Undecided tx g s h ∧ writesIn tx h =
      (g.decision (trimSpace approver) (trimSpace reason) approved s.parks at_).map Write.append
  | _ => True

def Call.Justified (c : Call) (h : List GateEvent) : GateEvent → Prop
  | ⟨.inl (.query tx (.append e)), _⟩ => begun tx ∈ h ∧ c.MayAppend tx h e
  | ⟨.inl (.query tx (.readGate ..)), _⟩ => begun tx ∈ h
  | ⟨.inl (.query ..), _⟩ => False
  | ⟨.inl (.commit tx), _⟩ => begun tx ∈ h ∧ c.MayCommit tx h
  | _ => True

variable {c : Call} {g : Gate} {h k : List GateEvent} {tx : ℕ} {e : Entry} {wrap : Err → Err}
  {prompt ap why : String} {parks approved : Bool}

theorem writesIn_append (tx : ℕ) (h k : List GateEvent) :
    writesIn tx (h ++ k) = writesIn tx h ++ writesIn tx k :=
  stated_append h k

theorem writesIn_appended (tx : ℕ) (e : Entry) : writesIn tx [appended tx e] = [.append e] :=
  stated_answered _ _

theorem writesIn_gateRead (tx : ℕ) (g : Gate) (rows : List Entry) :
    writesIn tx [gateRead tx g rows] = [] :=
  stated_answered _ _

theorem Trouble.append (ht : Trouble h) (k : List GateEvent) : Trouble (h ++ k) := by
  obtain ⟨d, hd, htr⟩ := ht
  exact ⟨d, mem_append_left _ hd, htr⟩

theorem trouble_last {d : GateEvent} (hd : trouble d = true) : Trouble (h ++ [d]) :=
  ⟨d, by simp, hd⟩

variable {s : GateState}

theorem Undecided.append (hs : Undecided tx g s h) (k : List GateEvent) :
    Undecided tx g s (h ++ k) := by
  obtain ⟨rows, hr, hst⟩ := hs
  exact ⟨rows, mem_append_left _ hr, hst⟩

theorem wpe_append (hb : begun tx ∈ h) (hm : e.tenantID ≠ "" → c.MayAppend tx h e) :
    wpe c.Justified (append tx e wrap) (fun k _ => k = h ++ [appended tx e]) h := by
  unfold append
  split
  · exact wpe_throw _
  · rename_i ht
    refine wpe_bind.mpr (wpe_query (fun r => ⟨hb, hm ht⟩) fun r => ?_)
    exact (wpe_pure _).mpr rfl

variable {at_ : ℤ}

theorem of_mem_verdict {note : Note} (he : e ∈ g.verdict approved parks note at_) :
    e.tenantID = g.tenantID ∧ decides e = false := by
  unfold Gate.verdict at he
  split at he
  · obtain rfl := mem_singleton.mp he
    exact ⟨rfl, rfl⟩
  split at he
  · obtain rfl := mem_singleton.mp he
    exact ⟨rfl, rfl⟩
  · obtain rfl | rfl : _ ∨ _ := by simpa using he
    · exact ⟨rfl, rfl⟩
    · exact ⟨rfl, rfl⟩

theorem tenantID_of_decision (he : e ∈ g.decision ap why approved parks at_) :
    e.tenantID = g.tenantID := by
  rcases mem_cons.mp he with rfl | he
  · rfl
  · exact (of_mem_verdict he).1

theorem wpe_read (hb : begun tx ∈ h) : wpe c.Justified (g.read tx)
      (fun k s => ∃ rows, k = h ++ [gateRead tx g rows] ∧ gateState rows = .ok s) h := by
  refine wpe_bind.mpr (wpe_query (fun r => hb) fun (rows : List Entry) => ?_)
  cases hs : gateState rows with
  | error err => exact wpe_throw _
  | ok s => exact (wpe_pure _).mpr ⟨rows, rfl, hs⟩

theorem wpe_appendAll {done rest : List Entry}
    (hd : g.decision (trimSpace ap) (trimSpace why) approved s.parks at_ =
      done ++ rest) (hi : ¬ (g.runID = "" ∨ g.stepID = "")) (hb : begun tx ∈ h)
    (hr : Undecided tx g s h) (hw : writesIn tx h = done.map Write.append) :
    wpe (Call.decide g ap approved why).Justified (appendAll tx wrap rest)
      (fun k _ => begun tx ∈ k ∧ Undecided tx g s k ∧ writesIn tx k =
        (g.decision (trimSpace ap) (trimSpace why) approved s.parks at_).map Write.append) h := by
  induction rest generalizing h done with
  | nil =>
    refine (wpe_pure _).mpr ⟨hb, hr, ?_⟩
    rw [hw, hd, append_nil]
  | cons e rest ih =>
    have hm : e ∈ g.decision (trimSpace ap) (trimSpace why) approved s.parks at_ := by
      rw [hd]
      simp
    have hc : e.tenantID ≠ "" → ¬ g.Incomplete := by
      rw [tenantID_of_decision hm]
      exact fun ht => not_or.mpr ⟨ht, hi⟩
    refine wpe_bind.mpr (wpe_mono (wpe_append hb fun ht =>
      ⟨s, at_, done, rest, hc ht, hr, hd, hw⟩) ?_)
    rintro _ _ hk
    rw [hk]
    have hs : g.decision (trimSpace ap) (trimSpace why) approved s.parks at_ =
        done ++ [e] ++ rest := by
      rw [hd, append_assoc]
      rfl
    refine ih hs (mem_append_left _ hb) (hr.append _) ?_
    rw [writesIn_append, hw, writesIn_appended, map_append]
    rfl

/-- A decision that stands was made on a gate that was read and not decided. -/
theorem wpe_record (hi : ¬ (g.runID = "" ∨ g.stepID = "")) (hf : ∀ tx, writesIn tx h = []) :
    wpe (Call.decide g ap approved why).Justified (g.record (trimSpace ap) (trimSpace why) approved)
      (fun k _ => ∃ tx s, Undecided tx g s k) h := by
  refine wpe_withTx (fun r => trivial) (fun k tx r => trivial) fun tx => ?_
  refine wpe_bind.mpr (wpe_mono (wpe_read (by simp)) ?_)
  rintro _ s ⟨rows, hk, hs⟩
  rw [hk]
  split
  · exact wpe_throw _
  rename_i ho
  split
  · exact wpe_throw _
  have hr : Undecided tx g s (h ++ [begun tx] ++ [gateRead tx g rows]) :=
    ⟨rows, by simp, hs, by simpa using ho⟩
  refine wpe_perform_bind.mpr fun (at_ : ℤ) => ⟨trivial, ?_⟩
  have hn : writesIn tx (h ++ [begun tx] ++ [gateRead tx g rows] ++
      [(⟨.inr .now, at_⟩ : GateEvent)]) = ([] : List Entry).map Write.append := by
    rw [writesIn_append, writesIn_append, writesIn_append, hf, writesIn_gateRead]
    rfl
  have ha : g.decision (trimSpace ap) (trimSpace why) approved s.parks at_ =
      [] ++ g.decision (trimSpace ap) (trimSpace why) approved s.parks at_ := rfl
  refine wpe_mono (wpe_appendAll ha hi (by simp) (hr.append _) hn) ?_
  rintro k _ ⟨hb, hu, hw⟩
  exact ⟨fun r => ⟨hb, s, at_, hu, hw⟩, tx, s, hu.append _⟩

theorem wpe_decide : wpe (Call.decide g ap approved why).Justified
    (g.decide ap approved why) (fun k _ => ∃ tx s, Undecided tx g s k) [] := by
  unfold Gate.decide
  simp only
  split
  · exact wpe_throw _
  rename_i hi
  split
  · exact wpe_throw _
  split
  · exact wpe_throw _
  refine wpe_perform_bind.mpr fun (r : PrincipalRes) => ⟨trivial, ?_⟩
  cases r with
  | notFound | failed ca => exact wpe_throw _
  | found =>
    refine wpe_bind.mpr (wpe_mono (wpe_record hi fun tx => rfl) ?_)
    rintro k _ ⟨tx, s, hr⟩
    split
    · exact (wpe_pure _).mpr ⟨tx, s, hr⟩
    refine wpe_perform_bind.mpr fun (r : Option Text) => ⟨trivial, ?_⟩
    cases r with
    | none => exact (wpe_pure _).mpr ⟨tx, s, hr.append _⟩
    | some ca => exact wpe_throw _

theorem wpx_read (hb : begun tx ∈ h) :
    wpx c.Justified (g.read tx) (fun k s => begun tx ∈ k ∧ (s.decided = true → Trouble k))
      (fun k _ => Trouble k) h := by
  refine wpx_bind.mpr (wpx_query (fun r => hb) ?_ (trouble_last rfl))
  intro (rows : List Entry)
  have hse : (match gateState rows with
      | .ok s => s.decided
      | .error _ => true) = true → Trouble (h ++ [gateRead tx g rows]) := fun hs => trouble_last hs
  cases hst : gateState rows with
  | error err =>
    rw [hst] at hse
    exact hse rfl
  | ok s =>
    rw [hst] at hse
    exact ⟨mem_append_left _ hb, hse⟩

theorem wpx_request (hma : ∀ tx h at_, c.MayAppend tx h (g.requested prompt parks at_))
    (hc : ∀ tx h, c.MayCommit tx h) : wpx c.Justified (g.request prompt parks) (fun _ _ => True)
      (fun k _ => g.Incomplete ∨ Trouble k) h := by
  unfold Gate.request
  split
  · rename_i hm
    exact wpx_throw _ |>.mpr (.inl (.inr hm))
  refine wpx_withTx (fun k k' err => Or.imp_right fun ht => ht.append k') (fun r => trivial)
    (.inr (trouble_last rfl)) (fun k tx r => trivial) (fun k tx landed => .inr (trouble_last rfl))
    fun tx => ?_
  refine wpx_bind.mpr (wpx_mono (wpx_read (by simp)) ?_ fun k err ht => .inr ht)
  rintro k s ⟨hb, hd⟩
  split
  · rename_i hcl
    exact (wpx_throw _).mpr (.inr (hd hcl))
  split
  · exact (wpx_pure _).mpr ⟨fun r => ⟨hb, hc _ _⟩, trivial⟩
  refine wpx_perform_bind.mpr fun (at_ : ℤ) => ⟨trivial, ?_⟩
  unfold append
  split
  · rename_i hte
    exact (wpx_throw _).mpr (.inl (.inl hte))
  have hb' := mem_append_left [(⟨.inr .now, at_⟩ : GateEvent)] hb
  refine wpx_bind.mpr (wpx_query (fun r => ⟨hb', hma _ _ _⟩) ?_ (.inr (trouble_last rfl)))
  exact fun r => (wpx_pure _).mpr
    ⟨fun r => ⟨mem_append_left _ hb', hc _ _⟩, trivial⟩

theorem wpe_appendOne (hm : ∀ tx k, c.MayAppend tx (h ++ k) e) (hc : ∀ tx h, c.MayCommit tx h) :
    wpe c.Justified (appendOne e) (fun _ _ => True) h := by
  unfold appendOne
  split
  · exact wpe_throw _
  refine wpe_withTx (fun r => trivial) (fun k tx r => trivial) fun tx => ?_
  refine wpe_mono (wpe_append (by simp) fun _ => hm tx _) ?_
  intro k _ hk
  exact ⟨fun r => ⟨by simp, hc _ _⟩, trivial⟩

theorem wpe_fail {j : Job} (hc : ∀ k, j.approvers = false ∨ j.gate.Incomplete ∨ Trouble (h ++ k)) :
    wpe (Call.job j).Justified j.fail (fun _ _ => True) h := by
  refine wpe_bind.mpr (wpe_perform_bind.mpr fun (r : Option Log) => ⟨trivial, ?_⟩)
  cases r with
  | none => exact wpe_throw _
  | some log =>
    refine (wpe_pure _).mpr ?_
    refine wpe_perform_bind.mpr fun (at_ : ℤ) => ⟨trivial, ?_⟩
    refine wpe_appendOne (fun tx k => .inr ⟨⟨_, at_, rfl⟩, ?_⟩) fun tx h => trivial
    rw [append_assoc, append_assoc]
    exact hc _

theorem wp_job (j : Job) : wp (Call.job j).Justified j.run (fun _ _ => True) [] := by
  refine wp_bind.mpr fun r => ⟨trivial, wp_bind.mpr ?_⟩
  have he : wpx (Call.job j).Justified j.execute (fun _ _ => True)
      (fun k _ => j.approvers = false ∨ j.gate.Incomplete ∨ Trouble k)
      ([] ++ [(⟨.inr .nextJob, r⟩ : GateEvent)]) := by
    unfold Job.execute
    split
    · rename_i hn
      exact (wpx_throw _).mpr (.inl hn)
    · exact wpx_mono (wpx_request (fun tx h at_ => .inl ⟨at_, rfl⟩) fun tx h => trivial)
        (fun k _ _ => trivial) fun k err hq => .inr hq
  refine wp_mono he ?_
  rintro k (err | _) hc
  · refine wp_bind.mpr fun (ended : Bool) => ⟨trivial, ?_⟩
    cases ended with
    | true => exact trivial
    | false =>
      have hf : ∀ k', j.approvers = false ∨ j.gate.Incomplete ∨
          Trouble ([] ++ [(⟨.inr .nextJob, r⟩ : GateEvent)] ++ k ++
            [(⟨.inr .contextEnded, false⟩ : GateEvent)] ++ k') := by
        intro k'
        refine hc.imp_right (Or.imp_right fun ht => ?_)
        rw [append_assoc _ _ k']
        exact ht.append _
      change wp (Call.job j).Justified j.fail.run _ _
      exact wp_mono (wpe_fail hf) fun _ _ _ => trivial
  · exact trivial

/-- Every program does what its kind of call may do, and a decision that is made was made on a
gate found undecided. -/
theorem wp_prog (c : Call) : wp c.Justified c.prog (fun k r => r = .ok () →
    ∀ g ap approved why, c = .decide g ap approved why → ∃ tx s, Undecided tx g s k) [] := by
  cases c with
  | request g prompt parks =>
    refine wp_mono (wpx_request (fun tx h at_ => ⟨at_, rfl⟩) fun tx h => trivial) ?_
    rintro k r - - g ap approved why ⟨⟩
  | decide g ap approved why =>
    refine wp_mono wpe_decide ?_
    rintro k r hq hr _ _ _ _ ⟨⟩
    exact hq () hr
  | job j =>
    refine wp_mono (wp_job j) ?_
    rintro k r - - g ap approved why ⟨⟩
  | append e ho =>
    refine wp_mono (wpe_appendOne (fun tx k => rfl) fun tx h => trivial) ?_
    rintro k r - - g ap approved why ⟨⟩
  | crash tx =>
    refine wp_bind.mpr fun r => ⟨trivial, ?_⟩
    rintro - g ap approved why ⟨⟩

/-! ### Histories -/

abbrev GateHistory := List (Act gateSig)

abbrev store (iso : Isolation) (tr : GateHistory) : State schema :=
  storeIn (D := schema) iso {} envWorld tr

abbrev Histories (iso : Isolation) (calls : ℕ → Call) (tr : GateHistory) : Prop :=
  Guarded (gateWorld iso) (fun i => (calls i).Justified) tr

def Gate.owns (g : Gate) (e : Entry) : Bool :=
  e.tenantID = g.tenantID ∧ e.runID = g.runID ∧ e.event.stepID = g.stepID

def decisions (g : Gate) (t : Tables) : List Entry :=
  t.entries.filter fun e => g.owns e && decides e

def decisionOf (g : Gate) : Write → Option Entry
  | .append e => if g.owns e && decides e then some e else none
  | _ => none

variable {t : Tables} {rows : List Entry} {s₀ : GateState}

theorem decisions_apply (g : Gate) (t : Tables) (w : Write) :
    decisions g (t.apply w) = decisions g t ++ (decisionOf g w).toList := by
  cases w with
  | append e =>
    by_cases hd : (g.owns e && decides e) = true
    · have hp : e.event.conflicts (t.log e.tenantID e.runID) = false := by
        have hde := (Bool.and_eq_true_iff.mp hd).2
        obtain ⟨te, ru, ⟨st, attempt, pa, at_⟩, note⟩ := e
        cases pa <;> first | rfl | cases hde
      simp [Tables.apply, hp, decisions, decisionOf, hd]
    · simp only [Tables.apply, decisionOf]
      split <;> simp [decisions, hd]
  | arm row =>
    simp only [Tables.apply, decisionOf]
    split <;> simp [decisions]
  | fire key => simp [Tables.apply, decisions, decisionOf]

theorem decisions_foldl (g : Gate) (ws : List Write) (t : Tables) :
    decisions g (ws.foldl Tables.apply t) = decisions g t ++ ws.filterMap (decisionOf g) := by
  induction ws generalizing t with
  | nil => simp
  | cons w ws ih =>
    rw [foldl_cons, ih, decisions_apply]
    cases h : decisionOf g w <;> simp [h]

theorem decisions_gate (g : Gate) (t : Tables) :
    decisions g t = (t.gate g.tenantID g.runID g.stepID).filter decides := by
  rw [Tables.gate, filter_filter]
  refine filter_congr fun e _ => ?_
  obtain ⟨te, ru, ⟨st, attempt, pa, at_⟩, note⟩ := e
  cases pa <;> simp [decides, Entry.ofGate, Entry.ofRun, Gate.owns, Bool.and_assoc]

/-- The state of a gate says whether one of its rows decides it. -/
theorem decided_of_foldlM (h : rows.foldlM GateState.fold s₀ = .ok s) :
    s.decided = (s₀.decided || rows.any decides) := by
  induction rows generalizing s₀ with
  | nil =>
    cases h
    simp
  | cons e rows ih =>
    obtain ⟨s₁, hf, hr⟩ := bind_eq_ok_iff.mp h
    rw [ih hr, any_cons]
    obtain ⟨te, ru, ⟨st, attempt, pa, at_⟩, note⟩ := e
    cases pa with
    | stepAwaitingApproval parks | stepApprovalDecided approved =>
      cases note <;> cases hf
      simp [decides]
    | _ =>
      cases hf
      simp [decides]

theorem decisions_eq_nil (hs : gateState (t.gate g.tenantID g.runID g.stepID) = .ok s)
    (ho : s.decided = false) : decisions g t = [] := by
  rw [decisions_gate, filter_eq_nil_iff]
  have hd := decided_of_foldlM hs
  rw [ho] at hd
  intro e he hde
  have ha := any_eq_true.mpr ⟨e, he, hde⟩
  rw [ha] at hd
  cases hd

@[simp] theorem owns_decided : g.owns (g.decided ap why approved at_) = true := by
  simp [Gate.owns, Gate.decided, Gate.entry]

theorem owns_iff {g' : Gate} : g'.owns (g.decided ap why approved at_) = true ↔ g' = g := by
  constructor
  · intro h
    obtain ⟨te, ru, st⟩ := g
    obtain ⟨te', ru', stepID'⟩ := g'
    obtain ⟨rfl, rfl, rfl⟩ : te = te' ∧ ru = ru' ∧ st = stepID' :=
      of_decide_eq_true h
    rfl
  · rintro rfl
    exact owns_decided

theorem decisionOf_decision (g' : Gate) :
    ((g.decision ap why approved parks at_).map Write.append).filterMap (decisionOf g') =
      if g' = g then [g.decided ap why approved at_] else [] := by
  have hv : ((g.verdict approved parks (.decision ap approved why) at_).map
      Write.append).filterMap (decisionOf g') = [] := by
    refine filterMap_eq_nil_iff.mpr fun w hw => ?_
    obtain ⟨e, he, rfl⟩ := mem_map.mp hw
    simp [decisionOf, (of_mem_verdict he).2]
  rw [Gate.decision, map_cons, filterMap_cons, hv]
  by_cases hg : g' = g
  · subst hg
    have hd : decides (g'.decided ap why approved at_) = true := rfl
    simp [decisionOf, hd]
  · have ho : g'.owns (g.decided ap why approved at_) = false :=
      Bool.eq_false_iff.mpr fun h => hg (owns_iff.mp h)
    simp [decisionOf, hg, ho]

/-- A decision is appended while the gate stands in the log as its transaction read it. -/
def Stands (iso : Isolation) (us : GateHistory) (a : Act gateSig) : Prop :=
  ∀ tx (g : Gate) approver reason approved at_ rows,
    a.event = appended tx (g.decided approver reason approved at_) →
    gateRead tx g rows ∈ own a.actor us →
    (store iso us).tables.gate g.tenantID g.runID g.stepID = rows

variable {iso : Isolation} {calls cs : ℕ → Call} {tr us vs : GateHistory} {i : ℕ} {d : GateEvent}

theorem owns_of_justified (hd : c.Justified h d) : Owns h d := by
  obtain ⟨op | op, r⟩ := d
  · cases op with
    | query tx q =>
      cases q with
      | append e => exact hd.1
      | readGate => exact hd
      | _ => exact hd.elim
    | commit tx => exact hd.1
    | _ => trivial
  · trivial

theorem decide_of_mayAppend (hm : c.MayAppend tx h e) (hd : decides e = true) :
    ∃ g ap approved why s at_, c = .decide g ap approved why ∧ ¬ g.Incomplete ∧ Undecided tx g s h ∧
      e = g.decided (trimSpace ap) (trimSpace why) approved at_ := by
  cases c with
  | request g prompt parks =>
    obtain ⟨at_, rfl⟩ := hm
    cases hd
  | decide g ap approved why =>
    obtain ⟨s, at_, done, rest, hc, hr, hde, -⟩ := hm
    refine ⟨g, ap, approved, why, s, at_, rfl, hc, hr, ?_⟩
    cases done with
    | nil => exact (cons.inj hde).1.symm
    | cons d done =>
      have hv : g.verdict approved s.parks _ at_ = done ++ e :: rest :=
        (cons.inj hde).2
      rw [(of_mem_verdict (by rw [hv]; simp)).2] at hd
      cases hd
  | job j =>
    obtain ⟨at_, rfl⟩ | ⟨⟨n, at_, rfl⟩, -⟩ := hm
    · cases hd
    · cases hd
  | append d ho =>
    obtain rfl : e = d := hm
    rw [ho] at hd
    cases hd
  | crash tx => exact hm.elim

theorem mem_writesIn (htr : Histories iso cs tr) {w : Write} (hw : w ∈ writesIn tx (own i tr)) :
    ∃ e us vs, w = .append e ∧ tr = us ++ ⟨i, appended tx e⟩ :: vs ∧
      (cs i).MayAppend tx (own i us) e := by
  obtain ⟨q, r, hm, hwr⟩ := mem_stated hw
  obtain ⟨us, vs, rfl⟩ := append_of_mem (mem_of_mem_own hm)
  have hj := (htr.at_split).2
  cases q with
  | append e =>
    obtain rfl := mem_singleton.mp hwr
    exact ⟨e, us, vs, rfl, rfl, hj.2⟩
  | readGate => cases hwr
  | _ => exact hj.elim

theorem undecided_at_read (htr : Histories iso cs (us ++ ⟨i, gateRead tx g rows⟩ :: vs))
    (hs : gateState rows = .ok s) (ho : s.decided = false) :
    (store iso us).isOpen tx = true ∧ decisions g (store iso us).tables = [] := by
  obtain ⟨htx, hr, -, -⟩ := storeIn_answered htr
  refine ⟨htx, ?_⟩
  have hv : decisions g ((store iso us).view tx) = [] :=
    decisions_eq_nil (hr ▸ hs) ho
  rw [State.view, decisions_foldl] at hv
  exact (append_eq_nil_iff.mp hv).1

/-- A gate on which a decision is pending is not decided. -/
theorem undecided_stands (htr : Histories iso cs tr)
    (hc : iso = .serial ∨ Throughout (Stands iso) tr)
    (ho : (store iso tr).isOpen tx = true) (hm : appended tx e ∈ own i tr)
    (hd : decides e = true) (how : g.owns e = true) : decisions g (store iso tr).tables = [] := by
  obtain ⟨us, vs, rfl⟩ := append_of_mem (mem_of_mem_own hm)
  obtain ⟨g', ap, approved, why, s, at_, -, -, ⟨rows, hr, hs, hu⟩, rfl⟩ :=
    decide_of_mayAppend (htr.at_split).2.2 hd
  obtain rfl := owns_iff.mp how
  rcases hc with rfl | hc
  · -- one transaction at a time: the tables are those it read
    obtain ⟨us₀, us₁, rfl⟩ := append_of_mem (mem_of_mem_own hr)
    rw [append_assoc] at htr ho ⊢
    obtain ⟨ho₀, hn⟩ := undecided_at_read htr hs hu
    rwa [show (store .serial (us₀ ++ _)).tables = (store .serial us₀).tables from
      serial_stands htr ho₀ ho]
  · -- from the append on the tenant's counter is held
    have hg := hc us _ vs rfl tx g _ _ _ at_ rows rfl hr
    have hn : decisions g (store iso us).tables = [] :=
      decisions_eq_nil (by rw [hg]; exact hs) hu
    obtain ⟨-, -, ht, hl⟩ := storeIn_answered htr
    rw [append_cons] at htr ho ⊢
    have hsa := lock_stands exclusive (sequence_protects g.tenantID) htr
      (hl _ (mem_singleton_self _)) ho
    have hk : (store iso (us ++ [⟨i, appended tx _⟩])).tables = (store iso us).tables := ht
    rw [hk] at hsa
    rw [decisions_gate, gate_eq_ofTenant] at hn ⊢
    rwa [show Tables.ofTenant _ g.tenantID = Tables.ofTenant _ g.tenantID from hsa]

/-- The log grows by a whole decision, or by events of another kind. -/
theorem tables_step (htr : Histories iso cs (tr ++ [⟨i, d⟩])) :
    (store iso (tr ++ [⟨i, d⟩])).tables = (store iso tr).tables ∨
      ∃ (tx : ℕ) (ens : List Entry), (store iso tr).isOpen tx = true ∧
        writesIn tx (own i tr) = ens.map Write.append ∧ (store iso (tr ++ [⟨i, d⟩])).tables =
          (ens.map Write.append).foldl Tables.apply (store iso tr).tables ∧
        ((∃ g ap approved why s at_, cs i = .decide g ap approved why ∧
            Undecided tx g s (own i tr) ∧ ens =
              g.decision (trimSpace ap) (trimSpace why) approved s.parks at_) ∨
          (∀ g ap approved why, cs i ≠ .decide g ap approved why) ∧
            ∀ e ∈ ens, ∃ us vs, tr = us ++ ⟨i, appended tx e⟩ :: vs ∧
              (cs i).MayAppend tx (own i us) e) := by
  have ht := tables_landed (fun _ _ _ => owns_of_justified)
    (fun _ _ _ => rfl) htr
  rw [landed] at ht
  cases hl : lands d with
  | none =>
    rw [hl] at ht
    exact .inl ht
  | some tx =>
    obtain ⟨ho, r, rfl, hj, -⟩ := commit_of_lands htr hl
    have hp := htr.of_append
    obtain ⟨ens, hen⟩ : writesIn tx (own i tr) ∈ Set.range (List.map Write.append) := by
      rw [Set.range_list_map]
      intro w hw
      obtain ⟨e, -, -, rfl, -⟩ := mem_writesIn hp hw
      exact ⟨e, rfl⟩
    rw [hl] at ht
    refine .inr ⟨tx, ens, ho, hen.symm, by rw [hen]; exact ht, ?_⟩
    cases hc : cs i with
    | decide g ap approved why =>
      rw [hc] at hj
      obtain ⟨-, s, at_, hr, hwr⟩ := hj
      have hi : Function.Injective Write.append := fun _ _ => Write.append.inj
      exact .inl ⟨g, ap, approved, why, s, at_, rfl, hr, map_injective_iff.mpr hi (hen.trans hwr)⟩
    | _ =>
      refine .inr ⟨by rintro g ap approved why ⟨⟩, fun e he => ?_⟩
      have hw : Write.append e ∈ writesIn tx (own i tr) := hen ▸ mem_map_of_mem he
      obtain ⟨e', us, vs, heq, hs, hm⟩ := mem_writesIn hp hw
      cases heq
      exact ⟨us, vs, hs, hc ▸ hm⟩

theorem no_decisions {ens : List Entry} (hne : ∀ g ap approved why, c ≠ .decide g ap approved why)
    (hm : ∀ e ∈ ens, ∃ us vs, tr = us ++ ⟨i, appended tx e⟩ :: vs ∧
      c.MayAppend tx (own i us) e) : (ens.map Write.append).filterMap (decisionOf g) = [] := by
  refine filterMap_eq_nil_iff.mpr fun w hw => ?_
  obtain ⟨e, he, rfl⟩ := mem_map.mp hw
  obtain ⟨us, vs, -, hm⟩ := hm e he
  cases hd : decides e with
  | false => simp [decisionOf, hd]
  | true =>
    obtain ⟨g', ap, approved, why, s, at_, hc, -⟩ := decide_of_mayAppend hm hd
    exact absurd hc (hne _ _ _ _)

theorem Histories.decided_once (htr : Histories iso cs tr)
    (hc : iso = .serial ∨ Throughout (Stands iso) tr) (g : Gate) :
    (decisions g (store iso tr).tables).length ≤ 1 := by
  induction htr with
  | nil => exact Nat.zero_le _
  | @snoc tr i d htr ha hj ih =>
    have hp : iso = .serial ∨ Throughout (Stands iso) tr := hc.imp_right (·.of_append)
    obtain hsa | ⟨tx, en, ho, hw, ht, hk⟩ :=
      tables_step (.snoc htr ha hj)
    · rw [hsa]
      exact ih hp
    rw [ht, decisions_foldl]
    obtain ⟨g', ap, approved, why, s, at_, hca, -, rfl⟩ | ⟨hne, hm⟩ := hk
    · rw [decisionOf_decision]
      by_cases hg : g = g'
      · subst hg
        have hme : Write.append (g.decided (trimSpace ap) (trimSpace why) approved at_) ∈
            writesIn tx (own i tr) := by
          rw [hw]
          exact mem_cons_self
        obtain ⟨e, us, vs, heq, hs, -⟩ := mem_writesIn htr hme
        cases heq
        have how : appended tx (g.decided (trimSpace ap) (trimSpace why) approved at_) ∈
            own i tr := by
          rw [hs, own_append, own_cons_self]
          simp
        rw [undecided_stands htr hp ho how rfl owns_decided]
        simp
      · rw [if_neg hg, append_nil]
        exact ih hp
    · rw [no_decisions hne hm, append_nil]
      exact ih hp

theorem decisions_prefix (g : Gate) (htr : Histories iso cs (us ++ vs)) :
    decisions g (store iso us).tables <+: decisions g (store iso (us ++ vs)).tables := by
  induction vs using reverseRecOn with
  | nil => rw [append_nil]
  | append_singleton vs a ih =>
    rw [← append_assoc] at htr ⊢
    refine (ih htr.of_append).trans ?_
    obtain hs | ⟨tx, en, -, -, ht, -⟩ := tables_step htr
    · rw [hs]
    · rw [ht, decisions_foldl]
      exact prefix_append _ _

theorem not_undecided (htr : Histories iso cs (us ++ vs)) (hf : own i us = [])
    (hd : decisions g (store iso us).tables ≠ []) : ¬ Undecided tx g s (own i (us ++ vs)) := by
  rintro ⟨rows, hr, hs, hu⟩
  rw [own_append, hf] at hr
  obtain ⟨vs₀, vs₁, rfl⟩ := append_of_mem (mem_of_mem_own hr)
  rw [← append_assoc] at htr
  obtain ⟨-, hn⟩ := undecided_at_read htr hs hu
  have hp := decisions_prefix g htr.of_append
  rw [hn, prefix_nil] at hp
  exact hd hp

/-- Decisions under any interleaving. As long as what a decision has read of its gate stands when
it gets the tenant's counter, and on a serial store always, a gate has at most one decision; and a
call that begins once its gate is decided appends nothing and is refused. -/
theorem gate_decided_once (htr : Reach (gateWorld iso) (fun i => (calls i).prog) tr)
    (hcond : iso = .serial ∨ Throughout (Stands iso) tr) :
    (∀ g, (decisions g (store iso tr).tables).length ≤ 1) ∧
    ∀ us vs i g approver approved reason, tr = us ++ vs →
      calls i = .decide g approver approved reason → own i us = [] →
      decisions g (store iso us).tables ≠ [] → (∀ tx e, ⟨i, appended tx e⟩ ∉ tr) ∧
        ∀ r, Returns (calls i).prog (own i tr) r → ∃ err, r = .error err := by
  have hg : Histories iso calls tr := htr.guarded fun i => wp_prog (calls i)
  refine ⟨fun g => Histories.decided_once hg hcond g, ?_⟩
  rintro us vs i g approver approved reason rfl hc hf hd
  have hn : ∀ tx s, ¬ Undecided tx g s (own i (us ++ vs)) :=
    fun tx s => not_undecided hg hf hd
  constructor
  · intro tx e hme
    obtain ⟨ws, ws', hs⟩ := append_of_mem hme
    have hj := hg
    rw [hs] at hj
    have hm := (hj.at_split).2.2
    rw [hc] at hm
    obtain ⟨s, at_, done, rest, -, hre, -⟩ := hm
    refine hn tx s ?_
    rw [hs, own_append]
    exact hre.append _
  · rintro (err | ⟨⟩) hr
    · exact ⟨err, rfl⟩
    · have hre := wp_returns (wp_prog (calls i)) hr rfl g approver approved reason hc
      obtain ⟨tx, s, hre⟩ := hre
      exact absurd hre (hn tx s)

/-! ### Two people at one gate -/

def honestGate (iso : Isolation) (_ : ℕ) (s : (gateWorld iso).State) :
    (op : gateSig.Op) → gateSig.Res op
  | .inl op => honest iso resolver s.1 op
  | .inr .now => (0 : ℤ)
  | .inr (.principal ..) => PrincipalRes.found
  | .inr (.advance ..) => (none : Option Text)
  | .inr .contextEnded => false
  | .inr .nextJob => ()

theorem honestGate_answers (iso : Isolation) (n : ℕ) (s : (gateWorld iso).State)
    (op : gateSig.Op) : (gateWorld iso).Answers s ⟨op, honestGate iso n s op⟩ := by
  cases op with
  | inl op => exact honest_answers iso resolver s.1 op
  | inr op => trivial

def releaseGate : Gate := ⟨"acme", "run-1", "release"⟩

def twoPeople : ℕ → Call
  | 0 => .request releaseGate "ship it?" false
  | 1 => .decide releaseGate "ada" true "tests pass"
  | _ => .decide releaseGate "bob" false "not today"

def decideOver (iso : Isolation) (schedule : List ℕ) : GateHistory :=
  exec (gateWorld iso) (honestGate iso) (fun i => (twoPeople i).prog) schedule

theorem decideOver_reach (iso : Isolation) (sch : List ℕ) :
    Reach (gateWorld iso) (fun i => (twoPeople i).prog) (decideOver iso sch) :=
  exec_reach _ _ (honestGate_answers iso) _ _

def inTurn : List ℕ := [0, 0, 0, 0, 0, 1, 1, 1, 1, 1, 1, 1, 1, 2, 2, 2, 2]

def crossed : List ℕ := [0, 0, 0, 0, 0, 1, 1, 1, 2, 2, 2, 1, 1, 1, 1, 1, 2, 2, 2, 2, 2]

theorem second_decision_refused :
    (decisions releaseGate (store .serial (decideOver .serial inTurn)).tables).length = 1 ∧
      (decisions releaseGate (store .serial (decideOver .serial inTurn)).tables).length ≤ 1 :=
  ⟨by decide +kernel, (gate_decided_once (decideOver_reach .serial inTurn) (.inl rfl)).1 _⟩

/-- Where transactions see what others commit, both people decide. -/
theorem crossed_decisions_both_stand :
    Reach (gateWorld .readCommitted) (fun i => (twoPeople i).prog)
        (decideOver .readCommitted crossed) ∧ (decisions releaseGate
        (store .readCommitted (decideOver .readCommitted crossed)).tables).length = 2 :=
  ⟨decideOver_reach .readCommitted crossed, by decide +kernel⟩

end Dhole.Approval
