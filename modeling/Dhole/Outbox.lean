import Dhole.Dispatch

/-! The outbox over a history. A row is written by the transaction that records the dispatch
it carries and by no other, so the rows of an attempt are no more than its dispatches, and
the dispatch of a step that an engine runs has a row unless it was served from the cache. -/

namespace Dhole.System

open Interleave Prog Plane Lease Scheduler KV List

def outboxOf (tr : History) : List JobDispatch := (storeOf tr).outbox

def rowFor (c : StepKey) (attempt : ℕ) (d : JobDispatch) : Bool :=
  d.tenantID = c.tenant && d.runID = c.run && d.stepID = c.step && d.attempt = attempt

section Outbox

variable {D : Definitions} {As : ℕ → Actor} {A : Actor} {tr : History} {i n m : ℕ}
  {c : StepKey} {step : Step} {att : ℕ} {tid rid : String} {t : Tx} {res : TxRes}
  {h : List PlaneEvent} {es : List Dhole.Event} {rows : List JobDispatch}

theorem storeOf_landed (htr : PlaneTrace D As tr) (hn : tr[n]? = some ⟨i, did t res⟩)
    (hl : res.landed = true) :
    t.apply (storeOf (tr.take n)) = some (storeOf (tr.take (n + 1))) := by
  have ha : storeWorld.Answers (planeWorld.state (tr.take n)).2 ⟨.tx t, res⟩ := (htr.at_get hn).1
  obtain ⟨s', hs'⟩ := Option.isSome_iff_exists.mp (ha.1 hl).1
  have hne : storeOf (tr.take (n + 1)) =
      if res.landed then (t.apply (storeOf (tr.take n))).getD (storeOf (tr.take n))
      else storeOf (tr.take n) := by
    rw [storeOf, state_take_succ hn]
    exact congrArg StoreState.store (storeNext_tx (planeWorld.state (tr.take n)).2 t res)
  have hs' : t.apply (storeOf (tr.take n)) = some s' := hs'
  rw [hne, if_pos hl, hs', Option.getD_some]

theorem apply_commit {s s' : Store} (h : (Tx.commit tid rid es rows).apply s = some s') :
    s'.log tid rid = (s.log tid rid).appendAll es ∧ s'.outbox = s.outbox ++ rows := by
  simp only [Tx.apply] at h
  split at h
  · cases h
  · cases h
    exact ⟨if_pos ⟨rfl, rfl⟩, rfl⟩

theorem apply_outbox {s s' : Store} (h : t.apply s = some s') :
    s'.outbox = s.outbox ∨ ∃ tid rid es rows, t = .commit tid rid es rows ∧
      s'.outbox = s.outbox ++ rows := by
  cases t with
  | commit tid rid es rows =>
    exact .inr ⟨tid, rid, es, rows, rfl, (apply_commit h).2⟩
  | armTimer t r st du at_ =>
    simp only [Tx.apply] at h
    split at h <;> cases h <;> exact .inl rfl
  | requestApproval t r st pa at_ =>
    simp only [Tx.apply] at h
    split at h
    · cases h
    split at h <;> cases h <;> exact .inl rfl
  | decideGate t r st approved at_ =>
    simp only [Tx.apply] at h
    split at h <;> cases h
    exact .inl rfl
  | fireTimer t r st at_ =>
    simp only [Tx.apply] at h
    split at h
    · cases h
    split at h
    · cases h
    split at h <;> cases h <;> exact .inl rfl

variable (htr : PlaneTrace D As tr)

include htr

theorem outboxOf_step (n : ℕ) : outboxOf (tr.take (n + 1)) = outboxOf (tr.take n) ∨
      ∃ i tid rid es rows res,
        tr[n]? = some ⟨i, did (.commit tid rid es rows) res⟩ ∧ res.landed = true ∧
        outboxOf (tr.take (n + 1)) = outboxOf (tr.take n) ++ rows := by
  cases hn : tr[n]? with
  | none =>
    have hle := List.getElem?_eq_none_iff.mp hn
    rw [take_of_length_le hle, take_of_length_le (hle.trans n.le_succ)]
    exact .inl rfl
  | some a =>
    obtain ⟨i, op | op, r⟩ := a
    · left
      rw [outboxOf, storeOf, state_take_succ hn]
      rfl
    cases op with
    | tx t =>
      by_cases hl : TxRes.landed r = true
      · rcases apply_outbox (storeOf_landed htr hn hl) with
          hs | ⟨tid, rid, es, rows, rfl, hg⟩
        · exact .inl hs
        · exact .inr ⟨i, tid, rid, es, rows, r, rfl, hl, hg⟩
      · left
        rw [outboxOf, storeOf, state_take_succ hn]
        exact congrArg Store.outbox ((congrArg StoreState.store
          (storeNext_tx (planeWorld.state (tr.take n)).2 t r)).trans (if_neg hl))
    | enqueue plane item | nextItems plane slots | takeJob plane job | nextJob plane =>
      left
      rw [outboxOf, storeOf, state_take_succ hn]
      cases r <;> rfl
    | _ =>
      left
      rw [outboxOf, storeOf, state_take_succ hn]
      rfl

theorem outboxOf_take_mono (hnm : n ≤ m) : outboxOf (tr.take n) <+: outboxOf (tr.take m) := by
  induction m, hnm using Nat.le_induction with
  | base => exact prefix_rfl
  | succ m hnm ih =>
    rcases outboxOf_step htr m with hs | ⟨i, t, r, es, rows, res, -, -, hg⟩
    · rwa [hs]
    · rw [hg]
      exact ih.trans (prefix_append _ _)

theorem prefix_outboxOf_take (n : ℕ) : outboxOf (tr.take n) <+: outboxOf tr := by
  have hm := outboxOf_take_mono htr (Nat.le_add_right n tr.length)
  rwa [take_of_length_le (Nat.le_add_left tr.length n)] at hm

omit htr

theorem rows_of_grounds (hg : Grounds D A h (.commit tid rid es rows)) :
    rows = [] ∨ ∃ step att fc at_, A.task ≠ .job ∧
      Holding D h ⟨tid, rid, step.id⟩ step att fc ∧
      Checked h ⟨tid, rid, step.id⟩ fc ∧
      es = [{ stepID := step.id, attempt := att, at_, payload := .stepDispatched { fence := fc } }] ∧
      rows = [jobDispatch A.cfg tid rid step att
        ⟨⟨tid, rid, step.id⟩, fc⟩] := by
  cases hg with
  | dispatched ht hh hc =>
    exact .inr ⟨_, _, _, _, ht, hh, hc, rfl, rfl⟩
  | _ => exact .inl rfl

theorem rowFor_jobDispatch {cfg : Config} {tok : Token} {a : ℕ} :
    rowFor c att (jobDispatch cfg tid rid step a tok) = true ↔
      c = ⟨tid, rid, step.id⟩ ∧ a = att := by
  obtain ⟨t, r, s⟩ := c
  simp only [rowFor, Bool.and_eq_true, decide_eq_true_eq, StepKey.mk.injEq]
  constructor
  · rintro ⟨⟨⟨rfl, rfl⟩, rfl⟩, rfl⟩
    exact ⟨⟨rfl, rfl, rfl⟩, rfl⟩
  · rintro ⟨⟨rfl, rfl, rfl⟩, rfl⟩
    exact ⟨⟨⟨rfl, rfl⟩, rfl⟩, rfl⟩

include htr

theorem dispatched_sublist_step (n : ℕ) (c : StepKey) :
    (dispatchedAttempts (logOf (tr.take n) c.tenant c.run) c.step).Sublist
      (dispatchedAttempts (logOf (tr.take (n + 1)) c.tenant c.run) c.step) := by
  obtain ⟨rest, hr⟩ : logOf (tr.take n) c.tenant c.run <+:
      logOf (tr.take (n + 1)) c.tenant c.run := logOf_take_mono htr n.le_succ
  rw [← hr, dispatchedAttempts_append]
  exact sublist_append_left _ _

theorem rows_le_dispatched (n : ℕ) (c : StepKey) (att : ℕ) :
    (outboxOf (tr.take n)).countP (rowFor c att) ≤
      (dispatchedAttempts (logOf (tr.take n) c.tenant c.run) c.step).count att := by
  induction n with
  | zero => exact Nat.zero_le _
  | succ n ih =>
    have hm := (dispatched_sublist_step htr n c).count_le att
    rcases outboxOf_step htr n with hs | ⟨i, t, r, es, rows, res, hn, hl, hgr⟩
    · rw [hs]
      exact ih.trans hm
    rw [hgr, countP_append]
    have hg : Grounds D (As i) (own i (tr.take n)) (.commit t r es rows) :=
      (htr.at_get hn).2
    rcases rows_of_grounds hg with rfl | ⟨step, a, fc, at_, -, -, -, rfl, rfl⟩
    · exact ih.trans hm
    by_cases hr : c = ⟨t, r, step.id⟩ ∧ a = att
    · obtain ⟨rfl, rfl⟩ := hr
      have hlo := (apply_commit (storeOf_landed htr hn hl)).1
      have hdi : dispatchedAttempts (logOf (tr.take (n + 1)) t r) step.id =
          dispatchedAttempts (logOf (tr.take n) t r) step.id ++ [a] := by
        rw [logOf, hlo, dispatchedAttempts_appendAll]
        simp [logOf, dispatchedAttempts, Event.dispatchedAttempt?]
      rw [hdi, count_append]
      have ho : [jobDispatch (As i).cfg t r step a ⟨⟨t, r, step.id⟩, fc⟩].countP
          (rowFor ⟨t, r, step.id⟩ a) ≤ 1 := countP_le_length
      rw [count_singleton_self]
      exact Nat.add_le_add ih ho
    · have hno : [jobDispatch (As i).cfg t r step a ⟨⟨t, r, step.id⟩, fc⟩].countP
          (rowFor c att) = 0 := by
        rw [countP_eq_zero]
        intro d hd
        obtain rfl := mem_singleton.mp hd
        rwa [rowFor_jobDispatch]
      rw [hno]
      exact ih.trans hm

theorem appended_at {e : Dhole.Event} (he : e ∈ logOf tr tid rid) :
    ∃ n i t res es, tr[n]? = some ⟨i, did t res⟩ ∧ res.landed = true ∧ e ∈ es ∧
      Wrote D (As i) (own i (tr.take n)) (logOf (tr.take n) tid rid) tid rid t es := by
  suffices ∀ n, e ∈ logOf (tr.take n) tid rid → ∃ n i t res es,
      tr[n]? = some ⟨i, did t res⟩ ∧ res.landed = true ∧ e ∈ es ∧
      Wrote D (As i) (own i (tr.take n)) (logOf (tr.take n) tid rid)
        tid rid t es by
    exact this tr.length (by simpa using he)
  intro n
  induction n with
  | zero => exact fun he => (nomatch he)
  | succ n ih =>
    intro he
    rcases logOf_step htr n tid rid with
      hs | ⟨i, t, res, es, hn, hl, hg, hw⟩
    · exact ih (hs ▸ he)
    · rw [hg] at he
      rcases Log.mem_appendAll he with he | he
      · exact ih he
      · exact ⟨n, i, t, res, es, hn, hl, he, hw⟩

omit htr

/-! ### No double dispatch -/

/-- Each attempt of a step is dispatched at most once, and the dispatch of a step that an
engine runs was committed, unless it is a cache hit, with the one row of its attempt. -/
structure NoDoubleDispatch (defs : Definitions) (tr : History) : Prop where
  once : ∀ tenantID runID stepID attempt,
    (dispatchedAttempts (logOf tr tenantID runID) stepID).count attempt ≤ 1
  row : ∀ tenantID runID e fence step, e ∈ logOf tr tenantID runID →
    e.payload = .stepDispatched { fence } →
    StepOf defs (logOf tr tenantID runID) tenantID e.stepID step → isBuiltin step = false →
    (∃ (n i : ℕ) (d : JobDispatch) (res : TxRes),
      tr[n]? = some ⟨i, did (.commit tenantID runID [e] [d]) res⟩ ∧ res.landed = true ∧
      rowFor ⟨tenantID, runID, e.stepID⟩ e.attempt d = true) ∧
    (outboxOf tr).countP (rowFor ⟨tenantID, runID, e.stepID⟩ e.attempt) = 1

theorem committed_with_row (htr : PlaneTrace D As tr) {e : Dhole.Event} {fc : ℕ}
    (he : e ∈ logOf tr tid rid) (hp : e.payload = .stepDispatched { fence := fc })
    (hs : StepOf D (logOf tr tid rid) tid e.stepID step)
    (hen : isBuiltin step = false) : ∃ (n i : ℕ) (d : JobDispatch) (res : TxRes),
      tr[n]? = some ⟨i, did (.commit tid rid [e] [d]) res⟩ ∧ res.landed = true ∧
      rowFor ⟨tid, rid, e.stepID⟩ e.attempt d = true := by
  obtain ⟨n, i, t, res, es, hn, hl, hm, hw⟩ := appended_at htr he
  have hd : e.dispatchedAttempt? e.stepID = some e.attempt := by
    simp [Event.dispatchedAttempt?, hp]
  have hin : e.attempt ∈ dispatchedAttempts es e.stepID :=
    mem_filterMap.mpr ⟨e, hm, hd⟩
  rcases dispatched_of_wrote hw with hno | ⟨step', att', fc', -, -, hh⟩
  · rw [hno] at hin
    cases hin
  cases hh with
  | engine ht =>
    obtain rfl := mem_singleton.mp hm
    exact ⟨n, i, _, res, hn, hl, rowFor_jobDispatch.mpr ⟨rfl, rfl⟩⟩
  | cached ht =>
    rcases mem_cons.mp hm with rfl | hm
    · cases hp
    · obtain rfl := mem_singleton.mp hm
      cases hp
  | job ht hjo =>
    obtain rfl := mem_singleton.mp hm
    obtain ⟨hb, hr⟩ := wasReady_of_gotJob (htr.take n) hjo
    have hj := hr.stepOf.mono (prefix_logOf_take htr n)
    rw [hs.unique (createdOnce_logOf htr _ _) hj, hb] at hen
    cases hen

/-- No step is dispatched twice for one attempt, however the planes interleave. -/
theorem no_double_dispatch (defs : Definitions) (actors : ℕ → Actor) (tr : History)
    (hruns : Runs defs actors tr) (hund : CommitsUndisturbed tr) : NoDoubleDispatch defs tr := by
  have htr := hruns.planeTrace
  have ho : ∀ tenantID runID st attempt,
      (dispatchedAttempts (logOf tr tenantID runID) st).count attempt ≤ 1 := by
    intro tenantID runID st attempt
    have hno := dispatched_nodup htr hund tr.length tenantID runID st
    rw [take_length] at hno
    exact nodup_iff_count_le_one.mp hno attempt
  refine ⟨ho, fun tenantID runID e fe step he hp hs hen => ?_⟩
  obtain ⟨n, i, d, res, hn, hl, hr⟩ := committed_with_row htr he hp hs hen
  refine ⟨⟨n, i, d, res, hn, hl, hr⟩, le_antisymm ?_ ?_⟩
  · have hle := rows_le_dispatched htr tr.length ⟨tenantID, runID, e.stepID⟩ e.attempt
    rw [take_length] at hle
    exact hle.trans (ho _ _ _ _)
  · have hou := (apply_commit (storeOf_landed htr hn hl)).2
    have hd : d ∈ outboxOf (tr.take (n + 1)) := by
      rw [outboxOf, hou]
      exact mem_concat_self
    have hm := (prefix_outboxOf_take htr (n + 1)).subset hd
    exact countP_pos_iff.mpr ⟨d, hm, hr⟩

end Outbox

/-! ### Two planes at once -/

def removes : PlaneEvent → Bool
  | ⟨.inl (.kv (.deleteAt (.claim _) _)), _⟩ => true
  | _ => false

theorem commitsUndisturbed_of_none {tr : History} (h : ∀ a ∈ tr, removes a.event = false) :
    CommitsUndisturbed tr := by
  rintro v n i c r fe t res - - - - k - - ⟨j, res', hk, -⟩
  cases h _ (mem_of_getElem? hk)

def buildStep : Step := { id := "build", pluginRef := "oci://build", effectClass := .pure }

def oneStep : Definitions := fun _ _ _ => some { id := "p", steps := [buildStep] }

def readyEngine : Instance where
  state := .ready
  slots := 1
  os := "linux"
  arch := "amd64"
  engineTypes := []
  capabilities := []

def twoPlanes : ℕ → Actor
  | 0 => doing (.startRun "acme" "run" "p" "r1")
  | _ => { cfg := { plane := 1, ttl := 30 }, fuel := 1, task := .advance "acme" "run" }

def racingPlanes : History :=
  run oneStep twoPlanes { engines := [readyEngine] }
    (0 :: 0 :: (List.replicate 20 [0, 1]).flatten)

theorem racingPlanes_dispatch_once : NoDoubleDispatch oneStep racingPlanes ∧
      dispatchedAttempts (logOf racingPlanes "acme" "run") "build" = [1] ∧
      (outboxOf racingPlanes).length = 1 :=
  ⟨no_double_dispatch oneStep twoPlanes racingPlanes (run_runs _ _ _ _)
    (commitsUndisturbed_of_none (by decide)), rfl, rfl⟩

/-! ### Whatever the interleaving -/

def runAt (tr : History) (tenantID runID : String) : RunState := .ofLog (logOf tr tenantID runID)

/-- From the event that creates it a run keeps its revision, the fragments spliced into it and
what its ids name. -/
structure Pinned (defs : Definitions) (tr : History) : Prop where
  created : ∀ t r, CreatedOnce (logOf tr t r)
  grows : ∀ t r n, logOf (tr.take n) t r <+: logOf tr t r
  kept : ∀ t r n, (runAt (tr.take n) t r).created = true →
    (runAt tr t r).pipelineID = (runAt (tr.take n) t r).pipelineID ∧
    (runAt tr t r).revisionID = (runAt (tr.take n) t r).revisionID ∧
    (runAt (tr.take n) t r).fragments <+: (runAt tr t r).fragments
  named : ∀ t r id s s', StepOf defs (logOf tr t r) t id s →
    StepOf defs (logOf tr t r) t id s' → s = s'

/-- The attempts of a step are dispatched without a gap, and none goes out that was not. -/
def InTurn (tr : History) : Prop := ∀ (c : StepKey) (b : ℕ),
  let attempts := dispatchedAttempts (logOf tr c.tenant c.run) c.step
  (outboxOf tr).countP (rowFor c b) ≤ attempts.count b ∧
    (b ∈ attempts → ∀ a, 1 ≤ a → a ≤ b → a ∈ attempts)

variable {defs : Definitions} {actors : ℕ → Actor} {tr : History} (h : Runs defs actors tr)

include h

theorem runs_pinned : Pinned defs tr := by
  have hc := createdOnce_logOf h.planeTrace
  have hg (t r : String) (n : ℕ) : logOf (tr.take n) t r <+: logOf tr t r :=
    prefix_logOf_take h.planeTrace n
  refine ⟨hc, hg, fun t r n hn => ?_, fun t r _ _ _ hs hs' => hs.unique (hc t r) hs'⟩
  obtain ⟨hp, hr, fs, hf⟩ := ofLog_of_prefix (hc t r) (hg t r n) hn
  exact ⟨hp, hr, fs, hf.symm⟩

theorem attempts_in_turn : InTurn tr := by
  intro c b
  have hr := rows_le_dispatched h.planeTrace tr.length c b
  rw [take_length] at hr
  refine ⟨hr, fun hb a ha hab => ?_⟩
  rw [← take_length (l := tr)] at hb ⊢
  exact dispatched_below h.planeTrace ha tr.length hb hab

omit h

theorem racingPlanes_pinned : Pinned oneStep racingPlanes :=
  runs_pinned (run_runs oneStep twoPlanes _ _)

theorem racingPlanes_in_turn : InTurn racingPlanes :=
  attempts_in_turn (run_runs oneStep twoPlanes _ _)

end Dhole.System
