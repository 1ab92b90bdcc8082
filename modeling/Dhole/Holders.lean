import Dhole.Bodies
import Dhole.Status
import Dhole.Verdicts

/-! Who runs a step that the control plane runs itself, and who decides it. A job starts its
body after the transaction that records its dispatch, so the bodies of an attempt are no more
than its dispatches. Its verdict is recorded under the lease it claimed; but a job that never
got a lease, or failed before its dispatch was recorded, or whose model gave up, records a
failure all the same, under no lease or for whatever attempt the log has. -/

namespace Dhole.System

open Interleave Prog Plane Lease Scheduler KV List

def runsBody (step : Step) : Bool :=
  step.pluginRef = "builtin:llm" || step.pluginRef = "builtin:loop" ||
    step.pluginRef = "builtin:agent"

def startsBuiltin (c : StepKey) (attempt : ℕ) : PlaneEvent → Bool
  | ⟨.inr (.start (.builtin job)), _⟩ => job.key = c && job.attempt = attempt
  | _ => false

/-- The actor took the lease of this attempt, and it is the current one. -/
def HoldsLease (tr : History) (n i : ℕ) (c : StepKey) (attempt : ℕ) : Prop :=
  ∃ (k : ℕ) (data : ClaimRecord) (fence : ℕ), k < n ∧ TookAt tr k i c data fence ∧
    data.attempt = attempt ∧ (claimOf (tr.take n) c).entry = some (data, fence)

/-- The body of each attempt is started once at most, and a verdict of a job is appended while
its actor holds the current lease of the attempt the verdict names. -/
structure HolderDecides (actors : ℕ → Actor) (tr : History) : Prop where
  once : ∀ c attempt, tr.countP (fun a => startsBuiltin c attempt a.event) ≤ 1
  held : ∀ (n i plane : ℕ) (job : BuiltinJob) (events : List Dhole.Event)
    (rows : List JobDispatch) (res : TxRes) (e : Dhole.Event), (actors i).task = .job →
    gotJob plane job ∈ own i (tr.take n) → runsBody job.step = true →
    tr[n]? = some ⟨i, did (.commit job.tenantID job.runID events rows) res⟩ →
    res.landed = true → e ∈ events → e.stepID = job.step.id →
    Payload.isVerdict e.payload = true → HoldsLease tr n i job.key e.attempt

/-! ### Atomic commits -/

/-- Nothing happens to a lease between the fence check of a transaction and its commit. -/
def CommitsAtomic (tr : History) : Prop :=
  ∀ v n i c r fence t res, v < n → tr[v]? = some ⟨i, (sawClaim c (.found r fence)).inl⟩ →
    tr[n]? = some ⟨i, did t res⟩ → (∀ x e, v < x → x < n → tr[x]? ≠ some ⟨i, e⟩) →
    ∀ k, v < k → k < n → ¬ RemovedAt tr k c fence ∧
      ∀ j data fence', ¬ TookAt tr k j c data fence'

theorem CommitsAtomic.undisturbed {tr : History} (h : CommitsAtomic tr) : CommitsUndisturbed tr :=
  fun v n i c r fc t res hvn hv hn hl k hvk hkn =>
    (h v n i c r fc t res hvn hv hn hl k hvk hkn).1

theorem OneAtATime.commitsAtomic {tr : History} (h : OneAtATime tr) : CommitsAtomic tr := by
  rintro v n i c r fc t res - hv hn hl k hvk hkn
  have ho : ∀ a, tr[k]? = some a → False := by
    rintro ⟨j, e⟩ hk
    obtain rfl : j = i := h v k n i _ _ _ hvk hkn hv hn hk
    exact hl k e hvk hkn hk
  refine ⟨?_, ?_⟩
  · rintro ⟨j, res', hk, -⟩
    exact ho _ hk
  · rintro j data fe' ⟨e, hk, -⟩
    exact ho _ hk

/-! ### What goes wrong with a job -/

/-- The claim did not fail and did not lose all its races, and no model gave up. Another call may
have failed before the body started where the log has the attempt of the job in flight, or none and
the job is for the first. -/
structure Smooth (h : List PlaneEvent) : Prop where
  claimed : ¬ ClaimFailed h
  called : FailedEarly h → ∀ plane job log, gotJob plane job ∈ h →
    lastLog h job.tenantID job.runID = some log →
      max 1 ((RunState.ofLog log).attempts job.step.id) = job.attempt
  raced : (lefts h).countP lostRace < maxOfferRaces
  answered : ∀ job : BuiltinJob, asked (.body job) .gaveUp ∉ h

/-- All went well with a job until its verdict. -/
def JobsSmooth (actors : ℕ → Actor) (tr : History) : Prop :=
  ∀ (n i : ℕ) (tenantID runID : String) (events : List Dhole.Event) (rows : List JobDispatch)
    (res : TxRes) (e : Dhole.Event), (actors i).task = .job →
    tr[n]? = some ⟨i, did (.commit tenantID runID events rows) res⟩ → e ∈ events →
    Payload.isVerdict e.payload = true → Smooth (own i (tr.take n))

section Holders

variable {D : Definitions} {As : ℕ → Actor} {tr : History} {i j n m q : ℕ} {c : StepKey}
  {step : Step} {att fc : ℕ} {job : BuiltinJob} {at_ : ℤ} {log : Log}

/-! ### The dispatch of a job -/

variable (htr : PlaneTrace D As tr)

include htr

/-- A job's dispatch is committed under the lease its transaction names. -/
theorem dispatchedAt_of_recorded (hq : tr[q]? = some ⟨i, did (jobDispatched job fc at_) .ok⟩) :
    ∃ step, DispatchedAt D tr q i job.key step job.attempt fc := by
  have hg : Grounds D (As i) (own i (tr.take q)) (jobDispatched job fc at_) :=
    (htr.at_get hq).2
  generalize ht : jobDispatched job fc at_ = t at hg
  cases hg with
  | @jobDispatched pl job' fe' at' hta hj hh hc =>
    simp only [System.jobDispatched, Tx.commit.injEq, cons.injEq, Event.mk.injEq,
      Payload.stepDispatched.injEq, Dispatched.mk.injEq, and_true] at ht
    obtain ⟨hte, hr, ⟨hid, ha, rfl, -⟩⟩ := ht
    have hk : job'.key = job.key := by simp [BuiltinJob.key, hte, hr, hid]
    rw [hk, ← ha] at hh
    rw [hk] at hc
    exact ⟨_, hh, hc, _, _, hq⟩
  | @note _ _ e hi =>
    simp only [System.jobDispatched, Tx.commit.injEq, cons.injEq, and_true] at ht
    rw [← ht.2.2] at hi
    cases hi
  | status _ _ _ hp =>
    simp only [System.jobDispatched, Tx.commit.injEq, cons.injEq, Event.mk.injEq, and_true] at ht
    rw [← ht.2.2.2.2.1] at hp
    cases decides_of_terminalEvent hp
  | verdict _ _ hv =>
    simp only [System.jobDispatched, Tx.commit.injEq, cons.injEq, Event.mk.injEq, and_true] at ht
    rw [← ht.2.2.2.2.1] at hv
    cases hv
  | _ => simp [System.jobDispatched] at ht

theorem mem_dispatched_of_recorded
    (hq : tr[q]? = some ⟨i, did (jobDispatched job fc at_) .ok⟩) (hqn : q < n) :
    job.attempt ∈ dispatchedAttempts (logOf (tr.take n) job.tenantID job.runID) job.step.id := by
  have hl := (apply_commit (storeOf_landed htr hq rfl)).1
  refine mem_dispatched_mono (logOf_take_mono htr (Nat.succ_le_of_lt hqn)) ?_
  rw [logOf, hl, dispatchedAttempts_appendAll]
  simp [dispatchedAttempts, Event.dispatchedAttempt?]

theorem not_recorded_twice (hu : CommitsUndisturbed tr)
    {job' : BuiltinJob} {fc' : ℕ} {at' : ℤ} (hqm : q < m)
    (hq : tr[q]? = some ⟨i, did (jobDispatched job fc at_) .ok⟩)
    (hm : tr[m]? = some ⟨j, did (jobDispatched job' fc' at') .ok⟩) (hk : job.key = job'.key)
    (ha : job.attempt = job'.attempt) : False := by
  obtain ⟨step, hd⟩ := dispatchedAt_of_recorded htr hm
  have hme : job.attempt ∈
      dispatchedAttempts (logOf (tr.take m) job.key.tenant job.key.run) job.key.step :=
    mem_dispatched_of_recorded htr hq hqm
  rw [hk, ha] at hme
  exact hd.not_dispatched htr hu hme

omit htr

theorem startsBuiltin_iff {e : PlaneEvent} : startsBuiltin c att e = true ↔
      ∃ job, e = started (.builtin job) ∧ job.key = c ∧ job.attempt = att := by
  constructor
  · intro h
    obtain ⟨op | op, r⟩ := e
    · cases h
    cases op with
    | start body =>
      cases body with
      | engine d => cases h
      | builtin job => exact ⟨job, rfl, by simpa [startsBuiltin] using h⟩
    | _ => cases h
  · rintro ⟨job, rfl, hk, ha⟩
    simp [startsBuiltin, started, hk, ha]

include htr

theorem recorded_of_started (hn : tr[n]? = some ⟨i, started (.builtin job)⟩) :
    (∃ q fc at_, q < n ∧ tr[q]? = some ⟨i, did (jobDispatched job fc at_) .ok⟩) ∧
      NotStarted (own i (tr.take n)) := by
  have hs : Starts (As i) (own i (tr.take n)) (.builtin job) := (htr.at_get hn).2
  cases hs with
  | @builtin pl _ fc si ht hj hr hno =>
    obtain ⟨h₀, at_, ho⟩ := hr
    obtain ⟨q, hqn, hq, -⟩ := own_take_split ho
    exact ⟨⟨q, fc, at_, hqn, hq⟩, hno⟩

theorem builtin_started_once (hu : CommitsUndisturbed tr) (c : StepKey) (att : ℕ) :
    tr.countP (fun a => startsBuiltin c att a.event) ≤ 1 := by
  apply FirstMatch.countP_le_one_of_pairwise
  rw [pairwise_iff_getElem]
  rintro n m hn hm hnm ⟨hs, hs'⟩
  obtain ⟨job, hj, hk, ha⟩ := startsBuiltin_iff.mp hs
  obtain ⟨job', hj', hk', ha'⟩ := startsBuiltin_iff.mp hs'
  have hg : tr[n]? = some ⟨tr[n].actor, started (.builtin job)⟩ := by
    rw [← hj, getElem?_eq_getElem hn]
  have hg' : tr[m]? = some ⟨tr[m].actor, started (.builtin job')⟩ := by
    rw [← hj', getElem?_eq_getElem hm]
  obtain ⟨⟨q, fc, at_, -, hq⟩, -⟩ := recorded_of_started htr hg
  obtain ⟨⟨q', fe', at', -, hq'⟩, hno⟩ := recorded_of_started htr hg'
  have hne : tr[n].actor ≠ tr[m].actor := by
    intro heq
    rw [heq] at hg
    cases hno _ (mem_own_of_get ((get_take hnm).trans hg))
  rcases lt_trichotomy q q' with hlt | rfl | hlt
  · exact not_recorded_twice htr hu hlt hq hq' (hk.trans hk'.symm)
      (ha.trans ha'.symm)
  · rw [hq] at hq'
    have hac := congrArg Act.actor (Option.some.inj hq')
    exact hne hac
  · exact not_recorded_twice htr hu hlt hq' hq (hk'.trans hk.symm)
      (ha'.trans ha.symm)

/-! ### The lease of a verdict -/

/-- An actor that took a lease and found it right before an atomic commit holds it there. -/
theorem holdsLease_of_checked (hao : CommitsAtomic tr)
    {t : Tx} {res : TxRes} (hn : tr[n]? = some ⟨i, did t res⟩)
    (ht : TookLease D (own i (tr.take n)) c step att fc) (hc : Checked (own i (tr.take n)) c fc) :
    ∃ (k : ℕ) (data : ClaimRecord), k < n ∧ TookAt tr k i c data fc ∧ data.attempt = att ∧
      (claimOf (tr.take n) c).entry = some (data, fc) := by
  obtain ⟨h₀, e, h₁, ho, ⟨data, ht, ha⟩, -⟩ := ht
  obtain ⟨k, hkn, hk, -⟩ := own_take_split ho
  have hat : TookAt tr k i c data fc := ⟨e, hk, ht⟩
  obtain ⟨r, h', hs⟩ := hc
  obtain ⟨v, hvn, hv, -, hl, -⟩ := own_take_split hs.symm
  have hq : ∀ x d, v < x → x < n → tr[x]? ≠ some ⟨i, d⟩ := fun x d hvx hxn hx =>
    absurd (hl x d hvx hxn hx) not_mem_nil
  have hke := hao v n i c r fc t res hvn hv hn hq
  -- the fence check itself is at `v`, and it neither takes nor removes
  have hr : ∀ x, v ≤ x → x < n → ¬ RemovedAt tr x c fc ∧
      ∀ j data fc', ¬ TookAt tr x j c data fc' := by
    intro x hvx hxn
    rcases eq_or_lt_of_le hvx with rfl | hvx
    · refine ⟨?_, ?_⟩
      · rintro ⟨j, res', hx, -⟩
        rw [hv] at hx
        cases hx
      · rintro j da' fc' ⟨e', hx, res', -, rfl | ⟨rev, rfl⟩⟩ <;>
          · rw [hv] at hx
            cases hx
    · exact hke x hvx hxn
  rcases entry_or_larger htr hvn.le (entry_of_saw htr hv) fun x hvx hxn => (hr x hvx hxn).1 with
    he | ⟨x, j, da', fc', hvx, hxn, hta, -⟩
  · obtain rfl : r = data := hat.entry htr hkn he
    exact ⟨k, r, hkn, hat, ha, he⟩
  · exact absurd hta ((hr x hvx hxn).2 j da' fc')

/-- While the lease of a recorded dispatch is current, its attempt is the highest of the log. -/
theorem attempts_of_recorded (hu : CommitsUndisturbed tr)
    {k : ℕ} {data : ClaimRecord} (hkq : k < q) (hat : TookAt tr k i job.key data fc)
    (ha : data.attempt = job.attempt)
    (hq : tr[q]? = some ⟨i, did (jobDispatched job fc at_) .ok⟩) (hqm : q < m) (hmn : m ≤ n)
    (hen : (claimOf (tr.take n) job.key).entry = some (data, fc)) :
    (RunState.ofLog (logOf (tr.take m) job.tenantID job.runID)).attempts job.step.id =
      job.attempt := by
  have hme := mem_dispatched_of_recorded htr hq hqm
  refine le_antisymm ?_ (le_attempts_of_mem hme)
  by_contra hlt
  push Not at hlt
  obtain ⟨st', hd⟩ := dispatchedAt_of_recorded htr hq
  have hp : 1 ≤ job.attempt := by
    obtain ⟨k', l', v', hm'⟩ := hd.moments
    obtain ⟨l₀, -, heq⟩ := (hm'.chosenFrom htr).attempt_eq
    omega
  -- a larger attempt in the log was dispatched under a lease of its own
  have hh : (RunState.ofLog (logOf (tr.take m) job.tenantID job.runID)).attempts job.step.id ∈
      dispatchedAttempts (logOf (tr.take m) job.tenantID job.runID) job.step.id :=
    attempts_mem (by omega)
  obtain ⟨x, hxm, i', st'', fc', hd', -⟩ := first_dispatched htr m hh
  obtain ⟨k', l', v', hm'⟩ := hd'.moments
  obtain ⟨data', hat', ha'⟩ := hm'.took
  have hkx : k' < x := hm'.took_lt.trans hm'.read_lt
  rcases lt_trichotomy k' k with hlt' | rfl | hgt
  · have he := hat'.dispatched_lt htr hp (by rw [ha']; exact hlt)
    have hl : logOf (tr.take k') job.tenantID job.runID <+:
        logOf (tr.take q) job.tenantID job.runID := logOf_take_mono htr (hlt'.trans hkq).le
    exact hd.not_dispatched htr hu (mem_dispatched_mono hl he)
  · have hc := (hat.cells htr).1.symm.trans (hat'.cells htr).1
    obtain rfl : data = data' := by simpa using congrArg Cell.live hc
    omega
  · have hf := hat.fence_lt htr hat' hgt
    have hr := rev_take_mono htr (show k' + 1 ≤ n by omega) job.key
    have hc := congrArg Cell.rev (hat'.cells htr).1
    have hn : (claimOf (tr.take n) job.key).rev = fc := rev_of_entry hen
    have hc : (claimOf (tr.take (k' + 1)) job.key).rev = fc' := hc
    omega

omit htr

/-! ### Verdicts of jobs -/

theorem named_of_wasReady (hr : WasReady D log job.key job.step job.attempt) :
    job.attempt ≠ 0 ∧ claimKey job.tenantID job.runID job.step.id = .ok job.key := by
  obtain ⟨l, -, -, p, g, -, hb, hs, -, ha, -, ht, hru⟩ := hr
  have hid : job.step.id ≠ "" := (Dag.build_ok hb).1.2 job.step hs
  have ht : job.tenantID ≠ "" := ht
  have hru : job.runID ≠ "" := hru
  refine ⟨by omega, ?_⟩
  simp [claimKey, ht, hru, hid, BuiltinJob.key]

theorem Smooth.not_impeded {h : List PlaneEvent} (hs : Smooth h)
    (hr : WasReady D log job.key job.step job.attempt) (hru : runsBody job.step = true) :
    ¬ Impeded h job := by
  intro hi
  obtain ⟨ha, hk⟩ := named_of_wasReady hr
  cases hi with
  | failed hf => exact hs.claimed hf
  | races hra => exact absurd hs.raced (not_lt.mpr hra)
  | unnamed hu =>
    rcases hu with hz | ⟨e, he⟩
    · exact ha hz
    · rw [hk] at he
      cases he
  | unknown hun =>
    obtain ⟨hll, hl, hag⟩ := hun
    simp [runsBody, hll, hl, hag] at hru

/-- A verdict of a job that went well is appended under the lease of its attempt. -/
theorem holdsLease_of_verdict (htr : PlaneTrace D As tr) (hao : CommitsAtomic tr)
    {t : Tx} {res : TxRes} {plane : ℕ} {pa : Payload}
    (hn : tr[n]? = some ⟨i, did t res⟩) (hj : gotJob plane job ∈ own i (tr.take n))
    (hru : runsBody job.step = true) (hs : Smooth (own i (tr.take n)))
    (hv : JobVerdict D (own i (tr.take n)) job att pa) : HoldsLease tr n i job.key att := by
  cases hv with
  | succeeded ht hc =>
    obtain ⟨k, data, hkn, hat, ha, he⟩ :=
      holdsLease_of_checked htr hao hn ht hc
    exact ⟨k, data, _, hkn, hat, ha, he⟩
  | @failed fc log ht hc hw =>
    obtain ⟨k, data, hkn, hat, ha, he⟩ :=
      holdsLease_of_checked htr hao hn ht hc
    rcases hw with ⟨hf, hlo⟩ | ⟨since, ⟨h₀, at_, ho⟩, hlo⟩
    · exact ⟨k, data, fc, hkn, hat, ha.trans (hs.called hf plane job log hj hlo).symm, he⟩
    obtain ⟨q, hqn, hq, hp, -, hre⟩ := own_take_split ho
    obtain ⟨l, hql, hln, hl⟩ := hre _ (mem_of_lastLog hlo)
    obtain ⟨st', hd⟩ := dispatchedAt_of_recorded htr hq
    obtain ⟨k', l', v', hm⟩ := hd.moments
    obtain ⟨da', hat', -⟩ := hm.took
    obtain rfl : k = k' := hat.unique htr hat'
    have hkq : k < q := hm.took_lt.trans hm.read_lt
    have hh := attempts_of_recorded htr hao.undisturbed hkq hat ha hq hql hln.le
      he
    rw [← log_of_sawLog htr hl] at hh
    obtain ⟨hpo, -⟩ := named_of_wasReady (wasReady_of_gotJob (htr.take n) hj).2
    refine ⟨k, data, fc, hkn, hat, ?_, he⟩
    omega
  | unheld hi =>
    have hr := (wasReady_of_gotJob (htr.take n) hj).2
    exact absurd hi (hs.not_impeded hr hru)
  | gaveUp hak => exact absurd hak (hs.answered job)

theorem jobVerdict_of_grounds {A : Actor} {h : List PlaneEvent} {tid rid : String}
    {es : List Dhole.Event} {rows : List JobDispatch} {e : Dhole.Event}
    (hg : Grounds D A h (.commit tid rid es rows)) (ht : A.task = .job)
    (he : e ∈ es) (hve : Payload.isVerdict e.payload = true) :
    ∃ plane job, gotJob plane job ∈ h ∧ job.key = ⟨tid, rid, e.stepID⟩ ∧
      JobVerdict D h job e.attempt e.payload := by
  cases hg with
  | verdict ht' hj hv =>
    obtain rfl := mem_singleton.mp he
    exact ⟨_, _, hj, rfl, hv⟩
  | note hi =>
    obtain rfl := mem_singleton.mp he
    rw [isVerdict_of_inert hi] at hve
    cases hve
  | served ht' => exact absurd ht ht'
  | status ht' =>
    rw [ht] at ht'
    cases ht'
  | _ =>
    obtain rfl := mem_singleton.mp he
    cases hve

/-- A builtin runs once, and where all goes well with a job until its verdict only the holder of
its lease decides it. -/
theorem holder_decides (defs : Definitions) (actors : ℕ → Actor) (tr : History)
    (hruns : Runs defs actors tr) (hatomic : CommitsAtomic tr) (hsmooth : JobsSmooth actors tr) :
    HolderDecides actors tr := by
  have htr := hruns.planeTrace
  refine ⟨builtin_started_once htr hatomic.undisturbed, ?_⟩
  intro n i pl job events rows res e ht hj hb hn hl he hid hve
  have hg : Grounds defs (actors i) (own i (tr.take n))
      (.commit job.tenantID job.runID events rows) := (htr.at_get hn).2
  obtain ⟨pl', job', hj', hk, hv⟩ := jobVerdict_of_grounds hg ht he hve
  have hk : job'.key = job.key := by rw [hk, hid]; rfl
  -- two jobs for one key are jobs for one step of the graph
  have hs := (wasReady_of_gotJob (htr.take n) hj).2.stepOf
  have hs' := (wasReady_of_gotJob (htr.take n) hj').2.stepOf
  obtain ⟨hte, hr, -⟩ := StepKey.mk.inj hk
  rw [hk, hte, hr] at hs'
  have hsa : job'.step = job.step :=
    hs'.unique (createdOnce_logOf (htr.take n) _ _) hs
  have hh := holdsLease_of_verdict htr hatomic hn hj' (hsa ▸ hb)
    (hsmooth n i _ _ events rows res e ht hn he hve) hv
  rwa [hk] at hh

end Holders

/-! ### A claim that fails -/

def askStep : Step := { id := "ask", pluginRef := "builtin:llm" }

def askDefinition : Definitions := fun _ _ _ => some { id := "p", steps := [askStep] }

/-- Two planes take the same step of a run for their own jobs. -/
def twoJobs : ℕ → Actor
  | 0 => { cfg := { ttl := 30, builtins := true }, fuel := 1
           task := .startRun "acme" "run" "p" "r1" }
  | 1 => { cfg := { plane := 1, ttl := 30, builtins := true }, fuel := 1
           task := .advance "acme" "run" }
  | 2 => doing .job
  | _ => { cfg := { plane := 1, ttl := 30 }, fuel := 1, task := .job }

def writesClaim : PlaneEvent → Bool
  | ⟨.inl (.kv (.create (.claim _) _)), _⟩ | ⟨.inl (.kv (.update (.claim _) _ _)), _⟩ => true
  | _ => false

theorem not_holdsLease {tr : History} {n i : ℕ}
    (h : ∀ a ∈ tr.take n, a.actor = i → writesClaim a.event = false) (c : StepKey) (att : ℕ) :
    ¬ HoldsLease tr n i c att := by
  rintro ⟨k, data, fc, hkn, ⟨e, hk, res, -, ht⟩, -⟩
  have hm : (⟨i, e.inl⟩ : Act planeSig) ∈ tr.take n :=
    mem_of_getElem? ((get_take hkn).trans hk)
  have hno := h _ hm rfl
  rcases ht with rfl | ⟨rev, rfl⟩ <;> cases hno

/-- One plane runs the step when the other one's claim fails. -/
def claimFailed : History :=
  run askDefinition twoJobs { failures := [21] }
    (replicate 6 0 ++ replicate 4 1 ++ replicate 9 2 ++ replicate 10 3)

/-- The other plane fails the attempt, which it never held. -/
theorem claimFailed_not_held :
    Runs askDefinition twoJobs claimFailed ∧ CommitsAtomic claimFailed ∧
      (logOf claimFailed "acme" "run").map Event.payload =
        [.runCreated "p" "r1", .stepDispatched { fence := 1 }, .stepFailed] ∧
      ¬ HolderDecides twoJobs claimFailed := by
  refine ⟨run_runs _ _ _ _, (oneAtATime_of_sorted (by decide)).commitsAtomic, rfl, fun h => ?_⟩
  have hh := h.held 25 3 1 ⟨"acme", "run", askStep, 1⟩
    [{ stepID := "ask", attempt := 1, payload := .stepFailed, at_ := 24 }] [] .ok
    { stepID := "ask", attempt := 1, payload := .stepFailed, at_ := 24 } rfl
    (mem_own_of_get (n := 19) rfl) (by decide) rfl rfl (mem_singleton_self _) rfl rfl
  exact not_holdsLease (by decide) _ _ hh

/-! ### A job that goes well -/

def mishap : PlaneEvent → Bool
  | ⟨.inl (.kv (.get _)), r⟩ => GetRes.isFailed r
  | ⟨.inl (.kv .listKeys), r⟩ => Option.isNone r
  | ⟨.inl (.kv (.create ..)), r⟩ | ⟨.inl (.kv (.update ..)), r⟩ =>
    WriteRes.isFailed r || WriteRes.isConflict r
  | ⟨.inl (.kv (.put ..)), r⟩ | ⟨.inl (.kv (.delete _)), r⟩ | ⟨.inl (.kv (.deleteAt ..)), r⟩ =>
    WriteRes.isFailed r
  | ⟨.inr (.replay ..), r⟩ => Option.isNone r
  | ⟨.inr (.tx _), r⟩ => (show TxRes from r) ≠ .ok
  | ⟨.inr (.ask (.body _)), r⟩ => (show BodyAnswer from r) = .gaveUp
  | _ => false

theorem mishap_of_callFailed {e : PlaneEvent} (h : CallFailed e) : mishap e = true := by
  obtain ⟨op | op, r⟩ := e
  · cases op with
    | kv op =>
      cases op with
      | create | update => exact Bool.or_eq_true_iff.mpr (.inl h)
      | listKeys => exact Option.isNone_iff_eq_none.mpr h
      | _ => exact h
    | now | cancelled => cases h
  · cases op with
    | replay => exact Option.isNone_iff_eq_none.mpr h
    | tx t => exact decide_eq_true h
    | _ => cases h

theorem mishap_of_lostRace {e : LeaseEvent} (h : lostRace e = true) : mishap e.inl = true := by
  obtain ⟨op, r⟩ := e
  cases op with
  | kv op =>
    cases op with
    | create | update => exact Bool.or_eq_true_iff.mpr (.inr h)
    | _ => cases h
  | now => cases h
  | cancelled => cases h

theorem not_callFailed_of_none {h : List PlaneEvent} (hn : ∀ e ∈ h, mishap e = false)
    {e : PlaneEvent} (he : e ∈ h) : ¬ CallFailed e := by
  intro hf
  have hno := hn e he
  rw [mishap_of_callFailed hf] at hno
  cases hno

theorem smooth_of_none {h : List PlaneEvent} (hn : ∀ e ∈ h, mishap e = false) : Smooth h where
  claimed := by
    rintro ⟨h₀, e, h₁, rfl, hf, -⟩
    exact not_callFailed_of_none hn (by simp) hf
  called := by
    rintro ⟨h₀, e, h₁, rfl, hf, -⟩
    exact absurd hf (not_callFailed_of_none hn (by simp))
  raced := by
    have hz : (lefts h).countP lostRace = 0 := by
      rw [countP_eq_zero]
      intro e he hl
      have hno := hn e.inl (mem_lefts.mp he)
      rw [mishap_of_lostRace hl] at hno
      cases hno
    rw [hz]
    decide
  answered := by
    intro job ha
    cases hn _ ha

theorem jobsSmooth_of_none {As : ℕ → Actor} {tr : History}
    (h : ∀ a ∈ tr, mishap a.event = false) : JobsSmooth As tr := by
  intro n i t ru es rows res e ht hn he hv
  refine smooth_of_none fun d hd => ?_
  obtain ⟨k, -, hk⟩ := get_of_mem_own_take hd
  exact h _ (mem_of_getElem? hk)

/-- The other plane finds the attempt taken. -/
def heldByOne : History :=
  run askDefinition twoJobs { body := .succeeded [] }
    (replicate 6 0 ++ replicate 4 1 ++ replicate 20 2 ++ replicate 10 3)

theorem heldByOne_holder_decides :
    HolderDecides twoJobs heldByOne ∧
      (logOf heldByOne "acme" "run").map Event.payload =
        [.runCreated "p" "r1", .stepDispatched { fence := 1 }, .stepSucceeded []] :=
  ⟨holder_decides askDefinition twoJobs heldByOne (run_runs _ _ _ _)
    (oneAtATime_of_sorted (by decide)).commitsAtomic (jobsSmooth_of_none (by decide)), rfl⟩

end Dhole.System
