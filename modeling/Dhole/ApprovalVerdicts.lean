import Dhole.Approvals

/-! What becomes of an approval. A decision is written together with the verdict of the gate's
step, and a job of the gate that fails writes one of its own, without a lease and whatever the log
says by then. So an approval decides the step only as long as no job of the gate is left to fail. -/

namespace Dhole.Approval

open Interleave Prog Transact RunStore Lexical List

def Gate.key (g : Gate) : TimerKey := ⟨g.tenantID, g.runID, g.stepID⟩

def Approved (g : Gate) (t : Tables) : Prop :=
  ∃ e ∈ decisions g t, e.event.payload = .stepApprovalDecided true

/-- The gate is a step of its own: nobody parks at it, and other events are about other steps. -/
def Call.Plain (g : Gate) : Call → Prop
  | .request g' _ parks => g' = g → parks = false
  | .append e _ => g.owns e = false
  | _ => True

/-- A job of the gate runs where people are known, the store does not fail it, and it finds the
gate undecided. -/
def smooth (calls : ℕ → Call) (g : Gate) (a : Act gateSig) : Bool :=
  match calls a.actor with
  | .job j => decide (j.gate ≠ g) || j.approvers && !trouble a.event
  | _ => true

theorem of_smooth {cs : ℕ → Call} {g : Gate} {a : Act gateSig} {j : Job}
    (h : smooth cs g a = true) (hj : cs a.actor = .job j) (hg : j.gate = g) :
    j.approvers = true ∧ trouble a.event = false := by
  simpa [smooth, hj, hg] using h

variable {g g' : Gate} {e : Entry} {approver reason why : String} {approved ok parks : Bool} {at_ : ℤ}

theorem owns_iff_key : g.owns e = true ↔
    e.ofRun g.tenantID g.runID = true ∧ e.event.stepID = g.stepID := by
  simp [Gate.owns, Entry.ofRun, and_assoc]

theorem not_settles_of_not_owns (ho : g.owns e = false)
    (hr : e.ofRun g.key.tenantID g.key.runID = true) : settles g.key.stepID e.event = false := by
  have hne : e.event.stepID ≠ g.stepID := fun h => by
    rw [owns_iff_key.mpr ⟨hr, h⟩] at ho
    cases ho
  simp [settles, Gate.key, hne]

theorem owns_entry_iff {pd : Payload} {note : Note} :
    g.owns (g'.entry pd at_ note) = true ↔ g = g' := by
  constructor
  · intro h
    obtain ⟨t, ru, stepID⟩ := g
    obtain ⟨t', ru', st'⟩ := g'
    obtain ⟨rfl, rfl, rfl⟩ : t' = t ∧ ru' = ru ∧ st' = stepID :=
      of_decide_eq_true h
    rfl
  · rintro rfl
    simp [Gate.owns, Gate.entry]

theorem not_settles_decision (hne : g ≠ g') (he : e ∈ g'.decision approver why ok parks at_)
    (hr : e.ofRun g.key.tenantID g.key.runID = true) : settles g.key.stepID e.event = false := by
  have hen : ∀ pa note, e = g'.entry pa at_ note →
      settles g.key.stepID e.event = false := by
    rintro pa note rfl
    exact not_settles_of_not_owns
      (Bool.eq_false_iff.mpr fun h => hne (owns_entry_iff.mp h)) hr
  rcases mem_cons.mp he with rfl | he
  · exact hen _ _ rfl
  unfold Gate.verdict at he
  split at he
  · exact hen _ _ (mem_singleton.mp he)
  split at he
  · exact hen _ _ (mem_singleton.mp he)
  · obtain rfl | rfl : _ ∨ _ := by simpa using he
    · exact hen _ _ rfl
    · simp [settles]

theorem note_of_decision (he : e ∈ g.decision approver why ok parks at_)
    (prompt : String) (p : Bool) : e.note ≠ .request prompt p := by
  rcases mem_cons.mp he with rfl | he
  · rintro ⟨⟩
  unfold Gate.verdict at he
  split at he
  · obtain rfl := mem_singleton.mp he
    rintro ⟨⟩
  split at he
  · obtain rfl := mem_singleton.mp he
    rintro ⟨⟩
  · obtain rfl | rfl : _ ∨ _ := by simpa using he
    · rintro ⟨⟩
    · rintro ⟨⟩

theorem parks_of_foldlM {rows : List Entry} {s s₀ : GateState}
    (h : rows.foldlM GateState.fold s₀ = .ok s) (hs₀ : s₀.parks = false)
    (hr : ∀ e ∈ rows, ∀ prompt, e.note ≠ .request prompt true) : s.parks = false := by
  induction rows generalizing s₀ with
  | nil =>
    cases h
    exact hs₀
  | cons e rows ih =>
    obtain ⟨he, hr⟩ := forall_mem_cons.mp hr
    obtain ⟨s₁, hf, hre⟩ := bind_eq_ok_iff.mp h
    refine ih hre ?_ hr
    obtain ⟨t, ru, ⟨st, attempt, pa, at_⟩, note⟩ := e
    cases pa with
    | stepAwaitingApproval p =>
      cases note with
      | request prompt parks =>
        cases hf
        exact Bool.eq_false_iff.mpr fun hp => he prompt (by rw [show parks = true from hp])
      | _ => cases hf
    | stepApprovalDecided p =>
      cases note with
      | decision approver ok why =>
        cases hf
        exact hs₀
      | _ => cases hf
    | _ =>
      cases hf
      exact hs₀

section Histories

variable {iso : Isolation} {calls cs : ℕ → Call} {tr us vs : GateHistory} {g : Gate} {i tx : ℕ}
  {e : Entry} {s : GateState}

variable (htr : Histories iso cs tr)

include htr

/-- Every entry that a transaction sees was appended by a call. -/
theorem view_origin (he : e ∈ ((store iso tr).view tx).entries) :
    ∃ i tx, ⟨i, appended tx e⟩ ∈ tr := by
  have hpe : ∀ (p : Pending schema), (store iso tr).pending tx = some p →
      Write.append e ∈ p.writes → ∃ i tx, ⟨i, appended tx e⟩ ∈ tr := by
    intro p hp hw
    rw [store, storeIn_eq_left] at hp
    obtain ⟨i, q, r, t, hm, hw⟩ := write_origin hp hw
    cases q with
    | append d =>
      cases mem_singleton.mp hw
      exact ⟨i, tx, mem_leftActs.mp hm⟩
    | insertTimer row | markFired key => cases mem_singleton.mp hw
    | _ => cases hw
  have ht : ∀ tr, Histories iso cs tr → e ∈ (store iso tr).tables.entries →
      ∃ i tx, ⟨i, appended tx e⟩ ∈ tr := by
    intro tr htr
    induction htr with
    | nil => intro h; cases h
    | @snoc tr i d htr ha hj ih =>
      intro he
      obtain hsa | ⟨tx, en, -, hwr, hn, -⟩ := tables_step (.snoc htr ha hj)
      · rw [hsa] at he
        obtain ⟨j, tx, hm⟩ := ih he
        exact ⟨j, tx, mem_append_left _ hm⟩
      · rw [hn] at he
        rcases mem_entries_foldl he with he | he
        · obtain ⟨j, tx, hm⟩ := ih he
          exact ⟨j, tx, mem_append_left _ hm⟩
        · rw [← hwr] at he
          obtain ⟨d, us, vs, heq, hs, -⟩ := mem_writesIn htr he
          cases heq
          refine ⟨i, tx, mem_append_left _ ?_⟩
          rw [hs]
          simp
  rcases mem_entries_foldl he with he | he
  · exact ht tr htr he
  · cases hp : (store iso tr).pending tx with
    | none =>
      rw [hp] at he
      cases he
    | some p =>
      rw [hp] at he
      exact hpe p hp he

theorem not_parks_of_appended (hp : ∀ i, (cs i).Plain g)
    (hme : ⟨i, appended tx e⟩ ∈ tr) (ho : g.owns e = true) (prompt : String) :
    e.note ≠ .request prompt true := by
  obtain ⟨us, vs, rfl⟩ := append_of_mem hme
  have hm := (htr.at_split).2.2
  have hca := hp i
  cases hc : cs i with
  | request g' pr' parks =>
    rw [hc] at hm hca
    obtain ⟨at_, rfl⟩ := hm
    rintro ⟨⟩
    cases hca (owns_entry_iff.mp ho).symm
  | decide g' approver ok why =>
    rw [hc] at hm
    obtain ⟨s, at_, done, rest, -, -, hd, -⟩ := hm
    exact note_of_decision (by rw [hd]; simp) prompt true
  | job j =>
    rw [hc] at hm
    obtain ⟨at_, rfl⟩ | ⟨⟨n, at_, rfl⟩, -⟩ := hm
    · rintro ⟨⟩
    · rintro ⟨⟩
  | append d hot =>
    rw [hc] at hm hca
    obtain rfl : e = d := hm
    rw [show g.owns e = false from hca] at ho
    cases ho
  | crash tx =>
    rw [hc] at hm
    exact hm.elim

theorem not_parks_of_undecided (hp : ∀ i, (cs i).Plain g)
    (hr : Undecided tx g s (own i tr)) : s.parks = false := by
  obtain ⟨rows, hr, hs, -⟩ := hr
  obtain ⟨us, vs, rfl⟩ := append_of_mem (mem_of_mem_own hr)
  obtain ⟨-, hro, -, -⟩ := storeIn_answered htr
  obtain rfl : rows = ((store iso us).view tx).gate g.tenantID g.runID g.stepID := hro
  refine parks_of_foldlM hs rfl fun e he pr => ?_
  obtain ⟨he, hg⟩ := mem_filter.mp he
  obtain ⟨j, tx', hm⟩ := view_origin htr.of_append he
  have ho : g.owns e = true := by
    obtain ⟨hk, -⟩ := Bool.and_eq_true_iff.mp hg
    obtain ⟨hru, hst⟩ := Bool.and_eq_true_iff.mp hk
    exact owns_iff_key.mpr ⟨hru, of_decide_eq_true hst⟩
  exact not_parks_of_appended htr.of_append hp hm ho pr

theorem complete_of_decisions (hd : e ∈ decisions g (store iso tr).tables) : ¬ g.Incomplete := by
  obtain ⟨he, hk⟩ := mem_filter.mp hd
  obtain ⟨ho, hde⟩ := Bool.and_eq_true_iff.mp hk
  -- the committed log is what a transaction without changes sees
  obtain ⟨n, hn⟩ : ∃ n, (store iso tr).pending n = none :=
    ⟨_, by rw [store, storeIn_eq_left]; exact numbered_state (leftActs tr) _ le_rfl⟩
  have hv : e ∈ ((store iso tr).view n).entries := by
    rw [State.view, hn]
    exact he
  obtain ⟨i, tx, hm⟩ := view_origin htr hv
  obtain ⟨us, vs, rfl⟩ := append_of_mem hm
  obtain ⟨g', approver, ok, why, s, at_, -, hc, -, rfl⟩ :=
    decide_of_mayAppend (htr.at_split).2.2 hde
  rwa [owns_iff.mp ho]

omit htr

theorem not_settles_of_mayAppend (hp : ∀ i, (cs i).Plain g)
    (hsm : Throughout (fun _ a => smooth cs g a = true) tr) (hco : ¬ g.Incomplete)
    (hne : ∀ g approver ok why, cs i ≠ .decide g approver ok why)
    (hs : tr = us ++ ⟨i, appended tx e⟩ :: vs) (hm : (cs i).MayAppend tx (own i us) e)
    (hr : e.ofRun g.key.tenantID g.key.runID = true) : settles g.key.stepID e.event = false := by
  have hcl := hp i
  cases hc : cs i with
  | request g' pr parks =>
    rw [hc] at hm
    obtain ⟨at_, rfl⟩ := hm
    simp [settles, Gate.requested, Gate.entry]
  | decide g' approver ok why => exact absurd hc (hne _ _ _ _)
  | job j =>
    rw [hc] at hm
    obtain ⟨at_, rfl⟩ | ⟨⟨n, at_, rfl⟩, hca⟩ := hm
    · simp [settles, Gate.requested, Gate.entry]
    · by_cases hg : j.gate = g
      · exfalso
        obtain ⟨ha, -⟩ := of_smooth (hsm us _ vs hs) hc hg
        rw [ha, hg] at hca
        obtain h | h | ⟨d, hd, ht⟩ := hca
        · cases h
        · exact hco h
        · obtain ⟨ws, ws', hs'⟩ := append_of_mem (mem_of_mem_own hd)
          have he : tr = ws ++ ⟨i, d⟩ :: (ws' ++ ⟨i, appended tx (j.failure n at_)⟩ :: vs) := by
            rw [hs, hs', append_assoc, cons_append]
          obtain ⟨-, hn⟩ := of_smooth (hsm ws _ _ he) hc hg
          rw [ht] at hn
          cases hn
      · refine not_settles_of_not_owns (Bool.eq_false_iff.mpr fun ho => hg ?_) hr
        obtain ⟨h₁, h₂, h₃⟩ := of_decide_eq_true ho
        obtain ⟨⟨t, ru, st⟩, pr, ap⟩ := j
        obtain ⟨tenantID', runID', stepID'⟩ := g
        obtain rfl : t = tenantID' := h₁
        obtain rfl : ru = runID' := h₂
        obtain rfl : st = stepID' := h₃
        rfl
  | append d hot =>
    rw [hc] at hm hcl
    obtain rfl : e = d := hm
    exact not_settles_of_not_owns hcl hr
  | crash tx =>
    rw [hc] at hm
    exact hm.elim

theorem verdict_of_approval (t : Tables) (approver why : String) (at_ : ℤ) :
    (((g.decision approver why true false at_).map Write.append).foldl Tables.apply t).verdict
      g.key = some .succeeded := by
  have hr : ∀ pa note, (g.entry pa at_ note).ofRun g.tenantID g.runID = true :=
    fun pa note => by simp [Entry.ofRun, Gate.entry]
  have hd : g.decision approver why true false at_ =
      [g.decided approver why true at_, g.entry (.stepSucceeded []) at_ .blank] := rfl
  rw [hd, map_cons, map_cons, map_nil, foldl_cons, foldl_cons, foldl_nil]
  change (RunState.ofLog (Tables.log _ g.tenantID g.runID)).terminal g.stepID = _
  rw [log_append_of _ (hr _ _), Log.append_of_unindexed rfl rfl, RunState.ofLog_snoc]
  exact Function.update_self _ _ _

/-- Jobs and decisions under any interleaving. As long as decisions exclude each other and no job
of the gate meets trouble, an approval that is in the log is the verdict of the gate's step. -/
theorem approval_sticks (htr : Reach (gateWorld iso) (fun i => (calls i).prog) tr)
    (hplain : ∀ i, (calls i).Plain g) (hcond : iso = .serial ∨ Throughout (Stands iso) tr)
    (hsmooth : Throughout (fun _ a => smooth calls g a = true) tr)
    (happroved : Approved g (store iso tr).tables) :
    (RunState.ofLog ((store iso tr).tables.log g.tenantID g.runID)).terminal g.stepID =
      some .succeeded := by
  have hg : Histories iso calls tr := htr.guarded fun i => wp_prog (calls i)
  clear htr
  change (store iso tr).tables.verdict g.key = some .succeeded
  induction hg with
  | nil =>
    obtain ⟨e, he, -⟩ := happroved
    cases he
  | @snoc tr i d htr han hj ih =>
    have hpa : iso = .serial ∨ Throughout (Stands iso) tr := hcond.imp_right (·.of_append)
    have hb : Throughout (fun _ a => smooth calls g a = true) tr := hsmooth.of_append
    have ha : Histories iso calls (tr ++ [⟨i, d⟩]) := .snoc htr han hj
    obtain hsa | ⟨tx, en, ho, hw, ht, hk⟩ := tables_step ha
    · rw [hsa] at happroved ⊢
      exact ih hpa hb happroved
    obtain ⟨e, he, hp⟩ := happroved
    have hc := complete_of_decisions ha he
    have hon := Histories.decided_once ha hcond g
    rw [ht, decisions_foldl] at he hon
    obtain ⟨g', approver, approved, reason, s, at_, hca, hr, rfl⟩ | ⟨hne, hm⟩ := hk
    · rw [decisionOf_decision] at he hon
      by_cases hga : g = g'
      · subst hga
        rw [if_pos rfl] at he hon
        -- there is only this decision
        have hn : decisions g (store iso tr).tables = [] := by
          rw [length_append, length_singleton] at hon
          exact length_eq_zero_iff.mp (by omega)
        rw [hn, nil_append, mem_singleton] at he
        obtain rfl : approved = true := by
          rw [he] at hp
          exact Payload.stepApprovalDecided.inj hp
        rw [ht, not_parks_of_undecided htr hplain hr]
        exact verdict_of_approval _ _ _ _
      · rw [if_neg hga, append_nil] at he
        rw [ht, verdict_foldl fun e he => not_settles_decision hga he]
        exact ih hpa hb ⟨e, he, hp⟩
    · rw [no_decisions hne hm, append_nil] at he
      rw [ht, verdict_foldl fun e he hru => ?_]
      · exact ih hpa hb ⟨e, he, hp⟩
      · obtain ⟨us, vs, hs, hm⟩ := hm e he
        exact not_settles_of_mayAppend hplain hb hc hne hs hm hru

end Histories

/-! ### A job that comes late -/

def twoJobs : ℕ → Call
  | 0 => .job ⟨releaseGate, "ship it?", true⟩
  | 1 => .decide releaseGate "ada" true "tests pass"
  | _ => .job ⟨releaseGate, "ship it?", true⟩

def jobsOver (schedule : List ℕ) : GateHistory :=
  exec (gateWorld .serial) (honestGate .serial) (fun i => (twoJobs i).prog) schedule

theorem jobsOver_reach (sch : List ℕ) :
    Reach (gateWorld .serial) (fun i => (twoJobs i).prog) (jobsOver sch) :=
  exec_reach _ _ (honestGate_answers .serial) _ _

def soon : List ℕ := [0, 0, 0, 0, 0, 0, 1, 1, 1, 1, 1, 1, 1, 1]

/-- The second plane has taken its job when the first one asks, and runs it after the decision. -/
def late : List ℕ := 2 :: soon ++ [2, 2, 2, 2, 2, 2, 2, 2, 2]

theorem twoJobs_plain (i : ℕ) : (twoJobs i).Plain releaseGate :=
  match i with
  | 0 | 1 | _ + 2 => trivial

def verdictOver (schedule : List ℕ) : Option Verdict :=
  (RunState.ofLog ((store .serial (jobsOver schedule)).tables.log "acme" "run-1")).terminal "release"

theorem approved_of_payloads (sch : List ℕ) (h : (decisions releaseGate
    (store .serial (jobsOver sch)).tables).map (fun e => e.event.payload) =
      [.stepApprovalDecided true]) :
    Approved releaseGate (store .serial (jobsOver sch)).tables := by
  obtain ⟨e, he, hp⟩ := mem_map.mp (h ▸ mem_singleton_self _ :
    Payload.stepApprovalDecided true ∈ (decisions releaseGate
      (store .serial (jobsOver sch)).tables).map fun e => e.event.payload)
  exact ⟨e, he, hp⟩

theorem prompt_job_approved : verdictOver soon = some .succeeded :=
  approval_sticks (jobsOver_reach soon) twoJobs_plain (.inl rfl) (by decide +kernel)
    (approved_of_payloads soon (by decide +kernel))

/-- A job that was taken before the gate was asked for fails the step after the approval. -/
theorem late_job_fails_approved_gate :
    Reach (gateWorld .serial) (fun i => (twoJobs i).prog) (jobsOver late) ∧
      Approved releaseGate (store .serial (jobsOver late)).tables ∧
      verdictOver late = some .failed :=
  ⟨jobsOver_reach late, approved_of_payloads late (by decide +kernel), by decide +kernel⟩

end Dhole.Approval
