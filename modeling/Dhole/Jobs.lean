import Dhole.Passes

/-! The programs of a builtin job and of an engine, read one at a time, and with them every
actor of the system: a history of the actors is one in which each call is permitted. A job
that stops with an error has either no lease and a reason why it got none, or the lease it
took and a failed call or a recorded dispatch behind it. -/

namespace Dhole.System

open Interleave Prog Plane Lease Scheduler Builtins
open List hiding iterate

/-! ### Calls of a job -/

variable {D : Definitions} {A : Actor} {h : List PlaneEvent} {α ε : Type}

theorem NotStarted.append {g : List PlaneEvent} (hh : NotStarted h) (hg : NotStarted g) :
    NotStarted (h ++ g) := by
  intro e he
  rcases mem_append.mp he with he | he
  · exact hh e he
  · exact hg e he

theorem notStarted_map_inl (g : List LeaseEvent) :
    NotStarted (g.map Event.inl : List PlaneEvent) := by
  intro e he
  obtain ⟨d, -, rfl⟩ := mem_map.mp he
  rfl

theorem failedEarly_of_mem {e : PlaneEvent} (hn : NotStarted h) (he : e ∈ h)
    (hf : CallFailed e) : FailedEarly h := by
  obtain ⟨h₀, h₁, rfl⟩ := append_of_mem he
  exact ⟨h₀, e, h₁, rfl, hf, fun d hd => hn d (by simp [hd])⟩

theorem Recorded.append {job : BuiltinJob} {fc : ℕ} {since : List PlaneEvent}
    (hr : Recorded h job fc since) (g : List PlaneEvent) :
    Recorded (h ++ g) job fc (since ++ g) := by
  obtain ⟨h₀, at_, rfl⟩ := hr
  exact ⟨h₀, at_, by simp⟩

variable {op : Plane.Op} {G : List PlaneEvent → PlaneEvent → Prop}

theorem wp_call_bind {f : storeSig.Res op → ExceptT ε PlaneProg α}
    {Q : List PlaneEvent → Except ε α → Prop} :
    wp G ((liftM (call op) : ExceptT ε PlaneProg (storeSig.Res op)) >>= f).run Q h ↔
      ∀ r, G h ⟨.inr op, r⟩ ∧ wp G (f r).run Q (h ++ [⟨.inr op, r⟩]) := by
  rfl

theorem wp_storeCall {f : storeSig.Res op → PlaneProg α} {Q : List PlaneEvent → α → Prop} :
    wp G (call op >>= f) Q h ↔
      ∀ r, G h ⟨.inr op, r⟩ ∧ wp G (f r) Q (h ++ [⟨.inr op, r⟩]) := Iff.rfl

variable {tok : Token}

theorem wp_commitUnder {t : Tx} {Q : List PlaneEvent → Except PlaneErr Bool → Prop}
    (hG : ∀ r, Grounds D A (h ++ [(sawClaim tok.value (.found r tok.fence)).inl]) t)
    (hdo : ∀ r, Q (h ++ [(sawClaim tok.value (.found r tok.fence)).inl] ++ [did t .ok])
      (.ok true)) (hfe : ∀ g, Q (h ++ g) (.ok false))
    (hfa : ∀ g e, NotStarted g → (∃ d ∈ g, CallFailed d) → Q (h ++ g) (.error e)) :
    wp (Permitted D A) (commitUnder tok t).run Q h := by
  refine wp_run_bind.mpr (wp_bind.mpr (wp_validated (fun r => ?_) fun g e he => ?_))
  · refine wp_run_bind.mpr (wp_call_bind.mpr fun res => ⟨hG r, ?_⟩)
    have hev : NotStarted [(sawClaim tok.value (.found r tok.fence)).inl, did t res] := by
      simp [NotStarted, isStart, Event.inl, did]
    cases res with
    | ok => exact hdo r
    | refused =>
      have hq := hfa _ .store hev ⟨did t .refused, by simp, by rintro ⟨⟩⟩
      simpa [did] using hq
    | failed landed =>
      have hq := hfa _ .store hev ⟨did t (.failed landed), by simp, by rintro ⟨⟩⟩
      simpa [did] using hq
  · have hl : e ≠ .fenced → Q (h ++ g.map Event.inl) (.error (.lease e)) := fun hne => by
      obtain ⟨d, hd, hf⟩ := he.resolve_left hne
      exact hfa _ _ (notStarted_map_inl g) ⟨d.inl, mem_map_of_mem hd, hf⟩
    cases e <;> first | exact hfe _ | exact hl (by simp)

variable {x : PlaneM α}

theorem wp_discard (hx : Permits D A x h) : wp (Permitted D A) (discard x) (fun _ _ => True) h :=
  wp_bind.mpr (wp_mono hx fun _ _ _ => trivial)

theorem wp_under {Q : List PlaneEvent → Except (Token × JobErr) α → Prop}
    (hx : wp G x.run (fun g r => match r with
      | .ok a => Q g (.ok a)
      | .error _ => Q g (.error (tok, .failed))) h) : wp G (under tok x).run Q h := by
  refine wp_run_bind.mpr (wp_bind.mpr (wp_mono hx ?_))
  rintro g (e | a) hq <;> exact hq

theorem highestDispatched_eq_attempts (log : Log) (sid : String) :
    highestDispatched log sid = (RunState.ofLog log).attempts sid := by
  induction log using reverseRecOn with
  | nil => rfl
  | append_singleton log e ih =>
    rw [RunState.ofLog_snoc, RunState.fold_attempts, ← ih, highestDispatched, foldl_append]
    obtain ⟨id, attempt, pa, at_⟩ := e
    cases pa with
    | stepDispatched d =>
      by_cases hid : id = sid
      · simp [Event.dispatchedAttempt?, hid, highestDispatched]
        split <;> omega
      · simp [Event.dispatchedAttempt?, hid, highestDispatched]
    | _ => rfl

/-! ### Bodies -/

section Bodies

variable {pl : ℕ} {job : BuiltinJob}

theorem permits_giveUp (htask : A.task = .job) (hjob : gotJob pl job ∈ h)
    (ha : asked (.body job) .gaveUp ∈ h) (hl : job.step.pluginRef = "builtin:llm") :
    Permits D A (giveUp job) h := by
  refine wpe_call_bind.mpr fun at_ => ⟨trivial, wpe_commit ?_⟩
  exact .verdict htask (mem_append_left _ hjob) (.gaveUp (mem_append_left _ ha) hl)

theorem permits_callModel (htask : A.task = .job) (hjob : gotJob pl job ∈ h)
    (hl : job.step.pluginRef = "builtin:llm") : Permits D A (callModel job) h := by
  refine wpe_call_bind.mpr fun answer => ⟨trivial, ?_⟩
  cases answer with
  | succeeded o => exact wpe_done
  | gaveUp =>
    refine wpe_seq (permits_giveUp htask (mem_append_left _ hjob) ?_ hl)
      fun _ _ => wpe_throw _
    exact mem_concat_self
  | failed | parked | iterate => exact wpe_throw _

variable {spec : Loop.Spec}

variable (htask : A.task = .job) (hjob : gotJob pl job ∈ h) (hspec : asked (.loopSpec
  job.step) (some spec) ∈ h)

include htask hjob hspec

theorem permits_realiseInto {parent fr : Pipeline} (hf : spec.fragment = some fr) :
    Permits D A (realiseInto job parent fr) h := by
  refine wpe_bind.mpr (wpe_call_bind.mpr fun r => ⟨trivial, ?_⟩)
  cases r with
  | none => exact wpe_throw _
  | some events =>
    refine (wpe_pure _).mpr ?_
    dsimp only
    split
    · split
      · exact wpe_done
      · exact wpe_throw _
    split
    · exact wpe_seq (wpe_note rfl rfl) fun _ _ => wpe_throw _
    split
    · exact wpe_seq (wpe_note rfl rfl) fun _ _ => wpe_throw _
    · exact wpe_append fun at_ =>
        .realised htask (mem_append_left _ (mem_append_left _ hjob))
          (mem_append_left _ (mem_append_left _ hspec)) hf

theorem permits_realise : Permits D A (realise D job spec) h := by
  unfold realise
  cases hf : spec.fragment with
  | none => exact wpe_throw _
  | some fr =>
    refine wpe_bind.mpr (wpe_load fun log hc => ?_)
    refine permits_readGraph_bind fun p _ answer => ?_
    exact permits_realiseInto htask (mem_append_left _ (mem_append_left _ hjob))
      (mem_append_left _ (mem_append_left _ hspec)) hf

omit htask hjob hspec

theorem permits_recordLoop : Permits D A (recordLoop job spec) h :=
  wpe_call_bind.mpr fun _ => ⟨trivial, wpe_commit (.note rfl rfl)⟩

theorem permits_iterate (htask : A.task = .job) (hjob : gotJob pl job ∈ h) :
    Permits D A (iterate D job) h := by
  refine wpe_call_bind.mpr fun spec => ⟨trivial, ?_⟩
  cases spec with
  | none => exact wpe_throw _
  | some spec =>
    refine wpe_call_bind.mpr fun answer => ⟨trivial, ?_⟩
    cases answer with
    | succeeded _ => exact wpe_seq permits_recordLoop fun _ _ => wpe_done
    | iterate =>
      refine wpe_seq (permits_outcome (permits_realise htask
        (mem_append_left _ (mem_append_left _ hjob))
        (mem_append_left _ mem_concat_self)))
        fun g re => ?_
      rcases re with e | _
      · exact wpe_seq permits_recordLoop fun _ _ => wpe_throw _
      · exact wpe_seq permits_recordLoop fun _ _ => wpe_done
    | failed | gaveUp | parked => exact wpe_seq permits_recordLoop fun _ _ => wpe_throw _

theorem permits_runAgent (htask : A.task = .job) (hjob : gotJob pl job ∈ h) :
    Permits D A (runAgent job) h := by
  refine wpe_call_bind.mpr fun answer => ⟨trivial, ?_⟩
  cases answer with
  | succeeded o => exact wpe_done
  | parked =>
    refine wpe_call_bind.mpr fun at_ => ⟨trivial, ?_⟩
    exact wpe_seq (wpe_commit (.requestApproval htask
      (mem_append_left _ (mem_append_left _ hjob)))) fun _ _ => wpe_done
  | failed | gaveUp | iterate => exact wpe_throw _

theorem permits_finished {x : PlaneM (List OutputRef)} (hx : Permits D A x h) :
    Permits D A (finished x) h := by
  refine wp_bind.mpr (wp_mono hx ?_)
  rintro g (e | o) _ a _ <;> trivial

end Bodies

/-! ### A job -/

inductive Stopped (defs : Definitions) (h : List PlaneEvent) (job : BuiltinJob) (token : Token) :
    Prop
  | unheld (hvalue : token.value = {}) (himpeded : Impeded h job)
  | held (hvalue : token.value = job.key) (htenant : job.tenantID ≠ "")
      (htook : TookLease defs h job.key job.step job.attempt token.fence)
      (hwhy : FailedEarly h ∨ ∃ since, Recorded h job token.fence since)

theorem Stopped.append {D : Definitions} {h : List PlaneEvent} {job : BuiltinJob} {tok : Token}
    (hs : Stopped D h job tok) (g : List PlaneEvent) : Stopped D (h ++ g) job tok := by
  cases hs with
  | unheld hv hi => exact .unheld hv (hi.append g)
  | held hv htenant ht hw =>
    refine .held hv htenant ht.append (hw.imp (fun hf => hf.append g) ?_)
    rintro ⟨si, hr⟩
    exact ⟨_, hr.append g⟩

def Ends (defs : Definitions) (job : BuiltinJob) (h : List PlaneEvent)
    (r : Except (Token × JobErr) Unit) : Prop :=
  ∀ token, r = .error (token, .failed) → Stopped defs h job token

section Job

variable {pl : ℕ} {job : BuiltinJob} {fc : ℕ}

theorem wp_attemptOf {Q : List PlaneEvent → Except PlaneErr ℕ → Prop}
    (hok : ∀ log, Q (h ++ [sawLog job.tenantID job.runID log])
      (.ok ((RunState.ofLog log).attempts job.step.id)))
    (he : Q (h ++ [⟨.inr (.replay job.tenantID job.runID), none⟩]) (.error .store)) :
    wp (Permitted D A) (attemptOf job).run Q h := by
  refine wp_run_bind.mpr (wp_call_bind.mpr fun r => ⟨trivial, ?_⟩)
  cases r with
  | none => exact he
  | some log =>
    change Q _ (.ok (highestDispatched log job.step.id))
    rw [highestDispatched_eq_attempts]
    exact hok log

theorem permits_succeed (htask : A.task = .job) (hjob : gotJob pl job ∈ h)
    (htenant : job.tenantID ≠ "") (ht : TookLease D h job.key job.step job.attempt fc)
    {outs : List OutputRef} : Permits D A (succeed job ⟨job.key, fc⟩ outs) h := by
  refine wpe_call_bind.mpr fun at_ => ⟨trivial, ?_⟩
  have hk : job.key ≠ {} := fun he => htenant (congrArg StepKey.tenant he)
  rw [if_neg hk]
  refine wpe_seq (permits_commitUnder fun r => ?_) fun _ _ => wpe_done
  exact .verdict htask (mem_append_left _ (mem_append_left _ hjob))
    (.succeeded ht.append.append (checked_snoc r))

variable {body : PlaneM AgentOutcome}

variable (htask : A.task = .job) (hjob : gotJob pl job ∈ h) (htenant : job.tenantID ≠ "")

include htask hjob htenant

/-- A body runs after its dispatch is recorded; its verdict is recorded under the lease. -/
theorem wp_runBody (ht : TookLease D h job.key job.step job.attempt fc)
    {since : List PlaneEvent} (hr : Recorded h job fc since) (hn : NotStarted h)
    (hb : ∀ g, Permits D A body (h ++ g)) :
    wp (Permitted D A) (runBody job ⟨job.key, fc⟩ body).run (Ends D job) h := by
  have hs : ∀ g, Stopped D (h ++ g) job ⟨job.key, fc⟩ := fun g =>
    (Stopped.held rfl htenant ht (.inr ⟨since, hr⟩)).append g
  refine wp_call_bind.mpr fun _ => ⟨.builtin htask hjob hr hn, ?_⟩
  refine wp_run_bind.mpr (wp_bind.mpr (wp_mono (hb _) fun g re _ => ?_))
  refine wp_call_bind.mpr fun lost => ⟨trivial, ?_⟩
  rw [append_assoc, append_assoc]
  split
  · rintro tok ⟨⟩
  rcases re with e | outs | _
  · rintro tok ⟨⟩
    exact hs _
  · refine wp_under (wp_mono (permits_succeed htask (mem_append_left _ hjob) htenant ht.append) ?_)
    rintro k (e | _) _
    · rintro tok ⟨⟩
      rw [append_assoc]
      exact hs _
    · rintro tok ⟨⟩
  · rintro tok ⟨⟩

/-- The dispatch of a job is recorded under the lease it holds, and its body runs then. -/
theorem wp_recordDispatch (hh : Holding D h job.key job.step job.attempt fc)
    (hn : NotStarted h) {at_ : ℤ} (hb : ∀ g, Permits D A body (h ++ g)) :
    wp (Permitted D A)
      (do
        let recorded ← under ⟨job.key, fc⟩
          (commitUnder ⟨job.key, fc⟩ (System.jobDispatched job fc at_))
        if !recorded then pure () else runBody job ⟨job.key, fc⟩ body : JobM Unit).run
      (Ends D job) h := by
  refine wp_run_bind.mpr (wp_under (wp_commitUnder (fun r => ?_) (fun r => ?_) (fun g => ?_)
    fun g e hg hfa => ?_))
  · exact .jobDispatched htask (mem_append_left _ hjob)
      (hh.append (by simp [quiet, Event.inl])) (checked_snoc r)
  · have hr : Recorded (h ++ [(sawClaim job.key (.found r fc)).inl] ++
        [did (System.jobDispatched job fc at_) .ok]) job fc [] := ⟨_, at_, rfl⟩
    rw [append_assoc] at hr ⊢
    refine wp_runBody htask (mem_append_left _ hjob) htenant hh.tookLease.append
      hr (hn.append (by simp [NotStarted, isStart, Event.inl, did])) fun k => ?_
    rw [append_assoc]
    exact hb _
  · rintro tok ⟨⟩
  · obtain ⟨d, hd, hf⟩ := hfa
    rintro tok ⟨⟩
    exact .held rfl htenant hh.tookLease.append
      (.inl (failedEarly_of_mem (hn.append hg) (mem_append_right _ hd) hf))

omit htask hjob htenant

theorem impeded_of_gaveUp {e : LeaseErr} {g : List LeaseEvent} (hu : ∀ d ∈ h, isReplay d = false)
    (hw : e ≠ .alreadyOffered)
    (he : claimKey job.tenantID job.runID job.step.id = .error e ∨ A.cfg.ttl ≤ 0 ∨
      GaveUp maxOfferRaces g e) : Impeded (h ++ g.map Event.inl) job := by
  rcases he with hk | htt | ht | ⟨d, hd, hf⟩ | hr
  · exact .unnamed (.inr ⟨e, hk⟩)
  · exact absurd htt (not_le.mpr A.cfg.ttl_pos)
  · exact absurd ht hw
  · obtain ⟨g₀, g₁, rfl⟩ := append_of_mem hd
    refine .failed ⟨h ++ g₀.map Event.inl, d.inl, g₁.map Event.inl, by simp, hf, rfl, fun c hc => ?_⟩
    rcases mem_append.mp hc with hc | hc
    · exact hu c hc
    · obtain ⟨b, -, rfl⟩ := mem_map.mp hc
      rfl
  · refine .races (hr.trans ?_)
    rw [lefts_append, lefts_map_inl, countP_append]
    exact Nat.le_add_left _ _

include htask

theorem wp_attempt (hjob : gotJob pl job ∈ h) (hn : NotStarted h)
    (hu : ∀ d ∈ h, isReplay d = false) (hb : ∀ g, Permits D A body (h ++ g)) :
    wp (Permitted D A) (attempt A.cfg job body).run (Ends D job) h := by
  unfold attempt
  split
  · rename_i hz
    rintro tok ⟨⟩
    exact .unheld rfl (.unnamed (.inl hz))
  refine wp_run_bind.mpr (wp_bind.mpr (wp_takeFor
    (.claim job.tenantID job.runID job.step.id job.attempt A.cfg.ttl) (fun _ => rfl)
    (.job pl job hjob rfl rfl rfl) (fun g fc htenant ht => ?_) fun g e he => ?_))
  · have hn := hn.append (notStarted_map_inl g)
    refine wp_run_bind.mpr (wp_under (wp_attemptOf (fun log => ?_) ?_))
    · dsimp only
      split
      · rintro tok ⟨⟩
      rename_i hf
      have hjob : gotJob pl job ∈ h ++ g.map Event.inl ++
        [sawLog job.tenantID job.runID log] := by simp [hjob]
      refine wp_call_bind.mpr fun at_ => ⟨trivial, wp_recordDispatch htask
        (mem_append_left _ hjob) htenant ?_ ?_ fun k => ?_⟩
      · exact (ht.holding log (not_le.mp hf)).append (by simp [quiet])
      · exact (hn.append (by simp [NotStarted, isStart, sawLog])).append
          (by simp [NotStarted, isStart])
      · rw [append_assoc, append_assoc, append_assoc]
        exact hb _
    · rintro tok ⟨⟩
      refine .held rfl htenant ht.tookLease.append (.inl (failedEarly_of_mem ?_
        mem_concat_self rfl))
      exact hn.append (by simp [NotStarted, isStart])
  · cases e <;> rintro tok ⟨⟩ <;> exact .unheld rfl (impeded_of_gaveUp hu (by decide) he)

theorem wp_execute (hjob : gotJob pl job ∈ h) (hn : NotStarted h)
    (hu : ∀ d ∈ h, isReplay d = false) :
    wp (Permitted D A) (execute D A.cfg job).run (Ends D job) h := by
  have hl : ∀ g, gotJob pl job ∈ h ++ g := fun g => mem_append_left _ hjob
  unfold execute
  split
  · rename_i ha
    have hun : job.step.pluginRef ≠ "builtin:llm" ∧ job.step.pluginRef ≠ "builtin:loop" ∧
        job.step.pluginRef ≠ "builtin:agent" := by simp [ha]
    have hg : Permits D A (requestGate job) h :=
      wpe_call_bind.mpr fun at_ => ⟨trivial, wpe_commit (.requestApproval htask (hl _))⟩
    refine wp_under (wp_mono hg ?_)
    rintro g (e | _) _ tok ⟨⟩
    exact .unheld rfl (.unknown hun)
  split
  · rename_i hll
    exact wp_attempt htask hjob hn hu fun g =>
      permits_finished (permits_callModel htask (hl g) hll)
  split
  · exact wp_attempt htask hjob hn hu fun g => permits_finished (permits_iterate htask (hl g))
  split
  · exact wp_attempt htask hjob hn hu fun g => permits_runAgent htask (hl g)
  · rename_i hll hlo hag
    rintro tok ⟨⟩
    exact .unheld rfl (.unknown ⟨hll, hlo, hag⟩)

theorem permits_failJob (hjob : gotJob pl job ∈ h) {tok : Token}
    (hs : Stopped D h job tok) : Permits D A (Builtins.fail job tok) h := by
  refine wpe_bind.mpr (wp_attemptOf (fun log => ?_) nofun)
  rintro n ⟨⟩
  refine wpe_call_bind.mpr fun at_ => ⟨trivial, ?_⟩
  have hjob : gotJob pl job ∈ h ++ [sawLog job.tenantID job.runID log] ++ [asked .now at_] := by
    simp [hjob]
  cases hs with
  | unheld hv hi =>
    rw [if_pos hv]
    exact wpe_commit (.verdict htask hjob (.unheld ((hi.append _).append _)))
  | held hv htenant ht hw =>
    have hk : tok.value ≠ {} := fun he =>
      htenant (congrArg StepKey.tenant (hv.symm.trans he))
    rw [if_neg hk]
    refine wpe_seq (permits_commitUnder fun r => ?_) fun _ _ => wpe_done
    have hlo : ∀ k, lastLog (k ++ [sawLog job.tenantID job.runID log] ++ [asked .now at_] ++
        [(sawClaim tok.value (.found r tok.fence)).inl]) job.tenantID job.runID = some log := by
      intro k
      rw [lastLog_append_quiet (by simp [quiet, Event.inl]),
        lastLog_append_quiet (by simp [quiet, asked]), lastLog_snoc_sawLog]
    have hat : (if (RunState.ofLog log).attempts job.step.id = 0 then 1
        else (RunState.ofLog log).attempts job.step.id) =
          max 1 ((RunState.ofLog log).attempts job.step.id) := by
      split <;> omega
    rw [hat]
    refine .verdict htask (mem_append_left _ hjob) (.failed ht.append.append.append
      (hv ▸ checked_snoc r) ?_)
    refine hw.imp (fun hf => ⟨((hf.append _).append _).append _, hlo h⟩) ?_
    rintro ⟨si, hr⟩
    exact ⟨_, ((hr.append _).append _).append _, hlo si⟩

theorem wp_work : wp (Permitted D A) (work D A.cfg) (fun _ _ => True) [] := by
  intro r
  refine ⟨htask, ?_⟩
  cases r with
  | none => trivial
  | some job =>
    have hjob : gotJob A.cfg.plane job ∈ [gotJob A.cfg.plane job] :=
      mem_singleton_self _
    change wp (Permitted D A) (Builtins.run D A.cfg job) _
      [gotJob A.cfg.plane job]
    refine wp_bind.mpr (wp_mono (wp_execute htask hjob (by simp [NotStarted, isStart, gotJob])
      (by simp [isReplay, gotJob]))
      fun g re he => ?_)
    obtain ⟨tok, err⟩ | _ := re
    · rintro (_ | _) <;> refine ⟨trivial, ?_⟩
      · cases err with
        | parked => trivial
        | failed =>
          exact wp_discard (permits_failJob htask
            (mem_append_left _ (mem_append_left _ hjob)) ((he tok rfl).append _))
      · trivial
    · trivial

end Job

/-! ### Engines -/

variable {d : JobDispatch}

theorem Accepted.append (ha : Accepted h d) (g : List PlaneEvent) : Accepted (h ++ g) d := by
  obtain ⟨t, tok, ex, rev, hf, hm⟩ := ha
  exact ⟨t, tok, ex, rev, hf, mem_append_left _ hm⟩

theorem wp_accept (hn : NotStarted h) : wp (Permitted D A) (Scheduler.accept d.fence).run
      (fun g r => NotStarted g ∧ (r = .ok .current → Accepted g d)) h := by
  cases hf : d.fence with
  | malformed => exact ⟨hn, nofun⟩
  | token t tok =>
    change wp _ (ite _ _ _ : PlaneM Acceptance).run _ _
    split
    · exact ⟨hn, nofun⟩
    refine wp_run_bind.mpr (wp_bind.mpr (wp_lease (.renew tok) (fun _ _ _ ht => nomatch ht)
      (wp_mono wp_renew fun k r hr g hg => ?_)))
    obtain rfl := append_cancel_left hg
    have hn := hn.append (notStarted_map_inl k)
    rcases r with e | _
    · cases e <;> exact ⟨hn, nofun⟩
    · refine ⟨hn, fun _ => ?_⟩
      obtain ⟨rec, at_, rev, hs⟩ := hr.1 tok rfl
      have hw : wroteRenewal tok.value ⟨tok.fence, at_ + rec.ttlNanos⟩ (.ok rev) ∈
          lefts (h ++ k.map Event.inl) := by
        rw [lefts_append, lefts_map_inl]
        exact hs.subset (by simp)
      exact ⟨t, tok, _, rev, hf, mem_lefts.mp hw⟩

theorem notStarted_asked (hn : NotStarted h) (q : Query) (answer : q.Answer) :
    NotStarted (h ++ [asked q answer]) :=
  hn.append (by simp [NotStarted, isStart, asked])

theorem wp_ask (hn : NotStarted h) : wp (Permitted D A) (ask d)
      (fun g r => NotStarted g ∧ (r = .current → Accepted g d)) h := by
  refine wp_storeCall.mpr fun sent => ⟨trivial, ?_⟩
  have hn := notStarted_asked hn .sent sent
  split
  · exact ⟨hn, nofun⟩
  refine wp_bind.mpr (wp_mono (wp_accept hn) ?_)
  rintro g re ⟨hn, ha⟩
  refine wp_storeCall.mpr fun answered => ⟨trivial, ?_⟩
  have hn := notStarted_asked hn .answered answered
  split
  · exact ⟨hn, nofun⟩
  rcases re with e | acceptance
  · exact ⟨hn, nofun⟩
  · refine ⟨hn, ?_⟩
    rintro rfl
    exact (ha rfl).append _

/-- A body may start without confirmation, after an acceptance, or unconfirmed. -/
def Confirmed (h : List PlaneEvent) (d : JobDispatch) : Prop :=
  d.confirmAcceptance = false ∨ Accepted h d ∨ d.step.effectClass ≠ .atMostOnce

theorem wp_confirm (hn : NotStarted h) : wp (Permitted D A) (confirm d)
      (fun g r => NotStarted g ∧ (r = .start → Confirmed g d)) h := by
  unfold confirm
  split
  · rename_i hc
    exact ⟨hn, fun _ => .inl (by simpa using hc)⟩
  refine wp_bind.mpr (wp_mono (wp_ask hn) ?_)
  rintro g ac ⟨hn, ha⟩
  cases ac with
  | fenced => exact ⟨hn, nofun⟩
  | current => exact ⟨hn, fun _ => .inr (.inl (ha rfl))⟩
  | unspecified =>
    refine wp_storeCall.mpr fun ended => ⟨trivial, ?_⟩
    have hn := notStarted_asked hn .cancelled ended
    split
    · exact ⟨hn, nofun⟩
    split
    · rename_i hcl
      exact ⟨hn, fun _ => .inr (.inr hcl)⟩
    · exact ⟨hn, nofun⟩

theorem wp_handle (htask : A.task = .engine) : wp (Permitted D A) handle (fun _ _ => True) [] := by
  refine wp_storeCall.mpr fun d => ⟨trivial, ?_⟩
  cases d with
  | none => trivial
  | some d =>
    change wp _ (handleDispatch d) _ [delivered d]
    unfold handleDispatch
    split
    · trivial
    refine wp_storeCall.mpr fun runnable => ⟨trivial, ?_⟩
    split
    · trivial
    have hn : NotStarted ([delivered d] ++ [asked (.runnable d) runnable]) := by
      simp [NotStarted, isStart, delivered, asked]
    refine wp_bind.mpr (wp_mono (wp_confirm hn) ?_)
    rintro g verdict ⟨hn, hc⟩
    cases verdict with
    | start =>
      refine wp_storeCall.mpr fun published => ⟨trivial, ?_⟩
      split
      · trivial
      refine fun _ => ⟨?_, trivial⟩
      have hd : delivered d ∈ [delivered d] ++ [asked (.runnable d) runnable] ++ g := by
        simp
      refine .engine htask (mem_append_left _ hd)
        (notStarted_asked hn .published published) ?_
      exact (hc rfl).imp_right (Or.imp_left fun ha => ha.append _)
    | superseded | stopping | unconfirmed => trivial

/-! ### Every actor -/

theorem Actor.wp_prog (D : Definitions) (a : Actor) :
    wp (Permitted D a) (a.prog D) (fun _ _ => True) [] := by
  obtain ⟨cfg, fuel, task⟩ := a
  cases task with
  | startRun te ru pi revisionID => exact wp_discard (permits_startRun (by simp))
  | cancelRun te ru => exact wp_discard (permits_cancelRun rfl)
  | advance te ru => exact wp_discard (permits_advance (by simp) fuel)
  | onStatus st => exact wp_discard (permits_onStatus rfl)
  | accept fc => exact wp_discard permits_accept
  | sweep => exact wp_discard (permits_sweepOrphans (by simp))
  | job => exact wp_work rfl
  | renew t => exact wp_discard permits_renew
  | decideGate te ru si approved =>
    exact wp_discard (wpe_call_bind.mpr fun _ => ⟨trivial, wpe_commit (.decideGate rfl)⟩)
  | fireTimer te ru si =>
    exact wp_discard (wpe_call_bind.mpr fun _ => ⟨trivial, wpe_commit (.fireTimer rfl)⟩)
  | engine => exact wp_handle rfl

def PlaneTrace (defs : Definitions) (actors : ℕ → Actor) (tr : History) : Prop :=
  Guarded planeWorld (fun i => Permitted defs (actors i)) tr

theorem Runs.planeTrace {D : Definitions} {As : ℕ → Actor} {tr : History}
    (h : Runs D As tr) : PlaneTrace D As tr :=
  Reach.guarded (fun i => (As i).wp_prog D) h

end Dhole.System
