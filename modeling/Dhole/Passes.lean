import Dhole.Evidence

/-! The scheduler's programs, read one at a time: every call a pass, a status or a sweep
makes is permitted by what the same task has seen. There is one rule for each call, then
one for each function in the order of the code. -/

namespace Dhole.System

open Interleave Prog Plane Lease Scheduler List
open RunState (ofLog)

/-! ### Calls -/

variable {D : Definitions} {A : Actor} {h : List PlaneEvent} {α β ε : Type}
  {G : List PlaneEvent → PlaneEvent → Prop}

theorem wpe_call_bind {op : Plane.Op} {f : storeSig.Res op → ExceptT ε PlaneProg β}
    {Q : List PlaneEvent → β → Prop} :
    wpe G ((liftM (call op) : ExceptT ε PlaneProg (storeSig.Res op)) >>= f) Q h ↔
      ∀ r, G h ⟨.inr op, r⟩ ∧ wpe G (f r) Q (h ++ [⟨.inr op, r⟩]) := by
  rfl

abbrev Permits (defs : Definitions) (actor : Actor) (x : PlaneM α) (h : List PlaneEvent) : Prop :=
  wpe (Permitted defs actor) x (fun _ _ => True) h

theorem wpe_commit_then {t : Tx} {Q : List PlaneEvent → Unit → Prop}
    (hG : Grounds D A h t) (hQ : Q (h ++ [did t .ok]) ()) : wpe (Permitted D A) (commit t) Q h := by
  refine wpe_call_bind.mpr fun r => ⟨hG, ?_⟩
  cases r with
  | ok => exact (wpe_pure _).mpr hQ
  | refused | failed landed => exact wpe_throw _

theorem wpe_commit {t : Tx} (hG : Grounds D A h t) : Permits D A (commit t) h :=
  wpe_commit_then hG trivial

variable {tid rid sid : String} {att : ℕ} {pa : Payload}

theorem wpe_append_then {Q : List PlaneEvent → Unit → Prop}
    (hG : ∀ at_, Grounds D A (h ++ [asked .now at_])
      (.commit tid rid [{ stepID := sid, attempt := att, payload := pa, at_ }] []))
    (hQ : ∀ at_, Q (h ++ [asked .now at_] ++
      [did (.commit tid rid [{ stepID := sid, attempt := att, payload := pa, at_ }] []) .ok]) ()) :
    wpe (Permitted D A) (append tid rid sid att pa) Q h :=
  wpe_call_bind.mpr fun at_ => ⟨trivial, wpe_commit_then (hG at_) (hQ at_)⟩

theorem wpe_append (hG : ∀ at_, Grounds D A (h ++ [asked .now at_])
      (.commit tid rid [{ stepID := sid, attempt := att, payload := pa, at_ }] [])) :
    Permits D A (append tid rid sid att pa) h :=
  wpe_append_then hG fun _ => trivial

theorem wpe_note (hi : pa.inert = true) (hc : pa.closesRun = false) :
    Permits D A (append tid rid sid att pa) h :=
  wpe_append fun _ => .note hi hc

variable {Q : List PlaneEvent → RunState → Prop}

theorem wpe_load_of {tid rid : String} (hG : ∀ r, G h ⟨.inr (.replay tid rid), r⟩)
    (hQ : ∀ log, (ofLog log).created = true → Q (h ++ [sawLog tid rid log]) (ofLog log)) :
    wpe G (Scheduler.load tid rid) Q h := by
  unfold Scheduler.load
  rw [wpe_bind]
  refine wpe_call_bind.mpr fun r => ⟨hG r, ?_⟩
  cases r with
  | none => exact wpe_throw _
  | some log =>
    refine (wpe_pure _).mpr ?_
    cases hl : Dhole.load log with
    | none => exact wpe_throw _
    | some sta =>
      obtain ⟨rfl, hc⟩ := load_eq_some hl
      exact (wpe_pure _).mpr (hQ log hc)

theorem wpe_load {tid rid : String} (hQ : ∀ log, (ofLog log).created = true →
      Q (h ++ [sawLog tid rid log]) (ofLog log)) :
    wpe (Permitted D A) (Scheduler.load tid rid) Q h :=
  wpe_load_of (fun _ => trivial) hQ

variable {p : LeaseProg α}

theorem wp_lease (call : Call) {Q : List PlaneEvent → α → Prop}
    (hch : ∀ at_ c data, call.takes at_ = some (c, data) →
      ∃ step, Chosen D h c step data.attempt) (hp : wp (Justified call) p
      (fun k a => ∀ g, k = lefts h ++ g → Q (h ++ g.map Event.inl) a) (lefts h)) :
    wp (Permitted D A) (p.inl : PlaneProg α) Q h := by
  refine wp_inl hp ?_ fun g a ha => ha g rfl
  rintro g ⟨op, r⟩ hj
  refine ⟨call, fun at_ c data ht => ?_, ?_⟩
  · obtain ⟨step, hc⟩ := hch at_ c data ht
    exact ⟨step, hc.mono (subset_append_left _ _)⟩
  · rw [lefts_append, lefts_map_inl]
    exact hj

theorem wp_lease_any (call : Call) (hta : ∀ at_, call.takes at_ = none)
    {QS : List LeaseEvent → α → Prop} (hp : wp (Justified call) p QS (lefts h)) :
    wp (Permitted D A) (p.inl : PlaneProg α) (fun _ _ => True) h := by
  refine wp_lease call (fun at_ c data ht => ?_) (wp_mono hp fun _ _ _ _ _ => trivial)
  rw [hta] at ht
  cases ht

/-- A validation succeeds by seeing the claim at its fence, and fails for a stale token or
a failed call. -/
theorem wp_validated {tok : Token} {Q : List PlaneEvent → Except LeaseErr Unit → Prop}
    (hok : ∀ r, Q (h ++ [(sawClaim tok.value (.found r tok.fence)).inl]) (.ok ()))
    (her : ∀ (g : List LeaseEvent) e, (e = .fenced ∨ ∃ d ∈ g, Lease.Failed d) →
      Q (h ++ g.map Event.inl) (.error e)) :
    wp (Permitted D A) ((validate tok).inl : PlaneProg (Except LeaseErr Unit)) Q h := by
  refine wp_lease (.validate tok) (fun _ _ _ ht => nomatch ht) ?_
  refine wp_validate (fun r g hg => ?_) fun k e he g hg => ?_
  · obtain rfl := append_cancel_left hg
    exact hok r
  · obtain rfl := append_cancel_left hg
    exact her _ e he

def JustTook (defs : Definitions) (h : List PlaneEvent) (c : StepKey) (step : Step)
    (attempt fence : ℕ) : Prop :=
  ∃ h₀ e, h = h₀ ++ [e.inl] ∧ TookFor defs h₀ e c step attempt fence

variable {step : Step}

theorem JustTook.holding {c : StepKey} {att fc : ℕ} (ht : JustTook D h c step att fc) (log : Log)
    (hlt : (ofLog log).attempts c.step < att) :
    Holding D (h ++ [sawLog c.tenant c.run log]) c step att fc := by
  obtain ⟨h₀, e, rfl, hto⟩ := ht
  refine ⟨h₀, e, [sawLog c.tenant c.run log], log, by simp, hto, ?_, ?_, hlt⟩
  · intro d hd
    obtain rfl : d = _ := by simpa using hd
    rfl
  · exact lastLog_snoc_sawLog (h := [])

theorem JustTook.tookLease {c : StepKey} {att fc : ℕ}
    (ht : JustTook D h c step att fc) : TookLease D h c step att fc := by
  obtain ⟨h₀, e, rfl, hto⟩ := ht
  exact ⟨h₀, e, [], rfl, hto⟩

/-- A take of a chosen attempt holds its lease when it returns a token. -/
theorem wp_takeFor (call : Call) {tid rid sid : String} {att : ℕ} {ttl : ℤ}
    {offered : Bool} {Q : List PlaneEvent → Except LeaseErr Token → Prop}
    (hca : ∀ t, call.takes t = Call.takes.make t tid rid sid att ttl offered)
    (hc : Chosen D h ⟨tid, rid, sid⟩ step att) (hok : ∀ (g : List LeaseEvent) fc, tid ≠ "" →
      JustTook D (h ++ g.map Event.inl) ⟨tid, rid, sid⟩ step att fc →
      Q (h ++ g.map Event.inl) (.ok ⟨⟨tid, rid, sid⟩, fc⟩))
    (her : ∀ g e, (claimKey tid rid sid = .error e ∨ ttl ≤ 0 ∨
      GaveUp maxOfferRaces g e) → Q (h ++ g.map Event.inl) (.error e)) : wp (Permitted D A)
      ((take tid rid sid att ttl offered).inl : PlaneProg (Except LeaseErr Token)) Q h := by
  have hm : ∀ at_ c data, call.takes at_ = some (c, data) →
      c = ⟨tid, rid, sid⟩ ∧ data.attempt = att ∧ tid ≠ "" := by
    intro at_ c data ht
    rw [hca, Call.takes.make, claimKey] at ht
    split_ifs at ht with hte
    cases ht
    exact ⟨rfl, rfl, hte⟩
  -- the write that took the lease is the last event of the take
  have hto : ∀ k g e data fc, Took e ⟨tid, rid, sid⟩ data fc →
      data.attempt = att → tid ≠ "" → lefts h ++ k ++ [e] = lefts h ++ g →
      Q (h ++ g.map Event.inl) (.ok ⟨⟨tid, rid, sid⟩, fc⟩) := by
    intro k g e data fc ht ha hte hg
    rw [append_assoc] at hg
    obtain rfl := append_cancel_left hg
    refine hok _ fc hte ⟨h ++ k.map Event.inl, e, by simp, ⟨data, ht, ha⟩, ?_⟩
    exact hc.mono (subset_append_left _ _)
  refine wp_lease call (fun at_ c data ht => ?_) (wp_take hca ?_ ?_ ?_)
  · obtain ⟨rfl, rfl, -⟩ := hm at_ c data ht
    exact ⟨step, hc⟩
  · intro k key data at_ fc ht g hg
    obtain ⟨rfl, ha, hte⟩ := hm at_ key data ht
    exact hto k g _ data fc ⟨_, rfl, .inl rfl⟩ ha hte hg
  · intro k key data at_ rev fc ht g hg
    obtain ⟨rfl, ha, hte⟩ := hm at_ key data ht
    exact hto k g _ data fc ⟨_, rfl, .inr ⟨rev, rfl⟩⟩ ha hte hg
  · intro k e he g hg
    obtain rfl := append_cancel_left hg
    exact her k e he

section Passes

/-! ### Recording -/

variable {sta : RunState}

theorem permits_recordUnschedulable {why : String} :
    Permits D A (recordUnschedulable tid rid sid why sta) h :=
  wpe_return_if fun _ => wpe_note rfl rfl

theorem wpe_recordAwaitingReplay (blocked : List Step) :
    wpe (Permitted D A) (recordAwaitingReplay tid rid sta blocked)
      (fun g _ => lastLog g tid rid = lastLog h tid rid) h := by
  induction blocked generalizing h with
  | nil => exact (wpe_pure _).mpr rfl
  | cons step blocked ih =>
    unfold recordAwaitingReplay
    split
    · refine wpe_bind.mpr (wpe_append_then (fun _ => .note rfl rfl) fun at_ => ?_)
      refine wpe_mono ih fun g _ hl => hl.trans ?_
      rw [lastLog_append_unread rfl, lastLog_append_unread rfl]
    · exact ih

theorem permits_recordOrphan {orphan : Orphan} (hl : Lost h orphan) :
    Permits D A (recordOrphan orphan) h := by
  refine wpe_bind.mpr (wpe_load fun log hc => ?_)
  refine wpe_return_if fun _ => ?_
  refine wpe_return_if fun _ => ?_
  refine wpe_return_if fun _ => ?_
  split
  · exact wpe_done
  rename_i ht ha _
  refine wpe_seq (wpe_append fun at_ => ?_) fun _ _ => wpe_done
  have hlo : lastLog (h ++ [sawLog orphan.tenantID orphan.runID log] ++ [asked .now at_])
      orphan.tenantID orphan.runID = some log := by
    rw [lastLog_append_quiet (by simp [quiet, asked]), lastLog_snoc_sawLog]
  refine .lost (hl.mono ?_) hlo (by simpa using ht) (by simpa using ha)
  exact fun e he => mem_append_left _ (mem_append_left _ he)

theorem permits_recordFencedOut {current : ℕ} {log : Log} (hlo : sawLog tid rid log ∈ h) :
    Permits D A (recordFencedOut tid rid sid current (ofLog log)) h := by
  unfold recordFencedOut
  refine wpe_return_if fun hf => ?_
  have hl : Lost h ⟨tid, rid, sid, (ofLog log).attempts sid,
      (ofLog log).fences sid⟩ := .inr ⟨log, hlo, fun h0 => hf (.inl h0)⟩
  exact wpe_seq (permits_recordOrphan hl) fun _ _ => wpe_done

theorem permits_refuse (hr : pa = .stepPolicyDenied ∨ pa = .stepSecretUnavailable) :
    Permits D A (refuse tid rid step pa) h := by
  have hi : pa.inert = true ∧ pa.closesRun = false := by
    rcases hr with rfl | rfl <;> exact ⟨rfl, rfl⟩
  refine wpe_bind.mpr (wpe_append_then (fun _ => .note hi.1 hi.2) fun at_ => ?_)
  have hre : ∀ at', [did (.commit tid rid [{ stepID := step.id, payload := pa, at_ }] []) .ok,
      asked .now at'] <:+ h ++ [asked .now at_] ++
        [did (.commit tid rid [{ stepID := step.id, payload := pa, at_ }] []) .ok] ++
        [asked .now at'] := fun at' => ⟨h ++ [asked .now at_], append_cons _ _ _⟩
  exact wpe_append fun at' => .refused hr (hre at')

/-! ### Checks before a step is placed -/

variable {f : Pipeline → PlaneM α} {Q : List PlaneEvent → α → Prop}

theorem wpe_readGraph_bind {G : List PlaneEvent → PlaneEvent → Prop}
    (hG : ∀ r, G h ⟨.inr (.ask .definitions), r⟩) (hf : ∀ p, graphOf D tid sta = some p → ∀ answer,
      wpe G (f p) Q (h ++ [asked .definitions answer])) :
    wpe G (readGraph D tid sta >>= f) Q h := by
  rw [wpe_bind]
  refine wpe_call_bind.mpr fun answer => ⟨hG answer, ?_⟩
  refine wpe_throw_if fun _ => ?_
  cases hg : graphOf D tid sta with
  | none => exact wpe_throw _
  | some p => exact (wpe_pure _).mpr (hf p hg answer)

theorem permits_readGraph_bind (hf : ∀ p, graphOf D tid sta = some p → ∀ answer,
      wpe (Permitted D A) (f p) Q (h ++ [asked .definitions answer])) :
    wpe (Permitted D A) (readGraph D tid sta >>= f) Q h :=
  wpe_readGraph_bind (fun _ => trivial) hf

variable {cfg : Config}

theorem permits_permit : Permits D A (permit cfg tid rid step) h := by
  refine wpe_return_if fun _ => ?_
  refine wpe_call_bind.mpr fun answer => ⟨trivial, ?_⟩
  cases answer with
  | allowed => exact wpe_done
  | failed => exact wpe_throw _
  | denied => exact wpe_seq (permits_refuse (by simp)) fun _ _ => wpe_done

theorem permits_refuseBuiltinSecrets : Permits D A (refuseBuiltinSecrets tid rid step) h := by
  refine wpe_return_if fun _ => ?_
  exact wpe_seq (permits_refuse (by simp)) fun _ _ => wpe_done

theorem permits_refuseSecrets : Permits D A (refuseSecrets cfg tid rid step) h := by
  have hr : ∀ (ue : Bool) h, Permits D A (do
      if ue then pure false
      else
        refuse tid rid step .stepSecretUnavailable
        pure true) h := by
    intro ue h
    refine wpe_return_if fun _ => ?_
    exact wpe_seq (permits_refuse (by simp)) fun _ _ => wpe_done
  refine wpe_return_if fun _ => ?_
  split
  · exact wpe_call_bind.mpr fun answer => ⟨trivial, hr answer _⟩
  · exact hr false _

theorem permits_armGate : Permits D A (armGate cfg tid rid step) h := by
  refine wpe_return_if fun _ => ?_
  refine wpe_call_bind.mpr fun answer => ⟨trivial, ?_⟩
  cases answer with
  | none => exact wpe_throw _
  | some d =>
    refine wpe_call_bind.mpr fun at_ => ⟨trivial, ?_⟩
    exact wpe_seq (wpe_commit .armTimer) fun _ _ => wpe_done

/-! ### Placing a step -/

variable {tok : Token}

theorem permits_commitUnder {t : Tx}
    (hG : ∀ r, Grounds D A (h ++ [(sawClaim tok.value (.found r tok.fence)).inl]) t) :
    Permits D A (commitUnder tok t) h := by
  refine wpe_bind.mpr (wpe_lift.mpr (wp_validated (fun r => ?_) fun g e _ => ?_))
  · exact wpe_seq (wpe_commit (hG r)) fun _ _ => wpe_done
  · cases e <;> simp

variable {fc : ℕ}

theorem checked_snoc {c : StepKey} (r : ClaimRecord) :
    Checked (h ++ [(sawClaim c (.found r fc)).inl]) c fc :=
  ⟨r, suffix_append _ _⟩

variable (htask : A.task ≠ .job) (hready : FoundReady D h ⟨tid, rid, step.id⟩ step
  (sta.attempts step.id + 1))

include htask hready

theorem permits_recordCacheHit {outs : List OutputRef} :
    Permits D A (recordCacheHit A.cfg tid rid step outs sta) h := by
  refine wpe_bind.mpr (wpe_lift.mpr (wp_takeFor
    (.claim tid rid step.id (sta.attempts step.id + 1) A.cfg.ttl)
    (fun _ => rfl) (.ready hready) (fun g fc _ ht => ?_) fun g e _ => ?_))
  · refine wpe_bind.mpr (wpe_load fun log hc => ?_)
    split
    · exact wpe_seq (permits_recordFencedOut (by simp)) fun _ _ => wpe_done
    · rename_i hf
      have hh := ht.holding log (by simpa using hf)
      refine wpe_call_bind.mpr fun at_ => ⟨trivial, ?_⟩
      refine wpe_seq (permits_commitUnder fun r => ?_) fun _ _ => wpe_done
      exact .served htask ((hh.append (by simp [quiet])).append (by simp [quiet, Event.inl]))
        (checked_snoc r)
  · cases e <;> simp

theorem permits_serveFromCache : Permits D A (serveFromCache A.cfg tid rid step sta) h := by
  refine wpe_return_if fun _ => ?_
  refine wpe_call_bind.mpr fun answer => ⟨trivial, ?_⟩
  cases answer with
  | failed => exact wpe_throw _
  | miss => exact wpe_done
  | hit o =>
    exact permits_recordCacheHit htask (hready.mono (subset_append_left _ _))

omit htask hready

theorem permits_takeBuiltin (hready : FoundReady D h ⟨tid, rid, step.id⟩ step att) :
    Permits D A (takeBuiltin cfg tid rid step att) h := by
  refine wpe_return_if fun hb => ?_
  have hb : isBuiltin step = true := by
    simp only [Bool.or_eq_true, not_or] at hb
    simpa using hb.1.2
  refine wpe_call_bind.mpr fun answer => ⟨⟨hready, hb⟩, ?_⟩
  cases answer with
  | queued | skipped => exact wpe_done
  | failed => exact wpe_throw _

variable {offeredAt : ℤ}

include htask

theorem permits_commitDispatch (hh : Holding D h ⟨tid, rid, step.id⟩ step att fc) :
    Permits D A (commitDispatch A.cfg tid rid step att ⟨⟨tid, rid, step.id⟩, fc⟩ offeredAt) h := by
  refine wpe_call_bind.mpr fun pr => ⟨trivial, ?_⟩
  refine wpe_throw_if fun _ => ?_
  refine wpe_call_bind.mpr fun begun => ⟨trivial, ?_⟩
  refine wpe_return_if fun _ => ?_
  refine wpe_call_bind.mpr fun at_ => ⟨trivial, ?_⟩
  refine wpe_seq (permits_commitUnder fun r => ?_) fun _ _ => wpe_done
  refine .dispatched htask ?_ (checked_snoc r)
  have hl := hh.append (g := [⟨.inr (.ask _), pr⟩, ⟨.inr (.ask .now), begun⟩,
    ⟨.inr (.ask .now), at_⟩, (sawClaim ⟨tid, rid, step.id⟩ (.found r fc)).inl])
    (by simp [quiet, Event.inl])
  simpa using hl

theorem permits_dispatchOffered (ht : JustTook D h ⟨tid, rid, step.id⟩ step att fc) :
    Permits D A (dispatchOffered A.cfg tid rid step att ⟨⟨tid, rid, step.id⟩, fc⟩ offeredAt) h := by
  refine wpe_bind.mpr (wpe_load fun log hc => ?_)
  split
  · exact permits_recordFencedOut (by simp)
  rename_i hf
  have hh := ht.holding log (by simpa using hf)
  split
  · refine wpe_bind.mpr (wpe_lift.mpr (wp_validated (fun r => ?_) fun g e _ => ?_))
    · exact permits_commitDispatch htask (hh.append (by simp [quiet, Event.inl]))
    · cases e <;> simp
  · exact permits_commitDispatch htask hh

theorem permits_offerStep (hc : Chosen D h ⟨tid, rid, step.id⟩ step (sta.attempts step.id + 1)) :
    Permits D A (offerStep A.cfg tid rid step sta) h := by
  refine wpe_call_bind.mpr fun answer => ⟨trivial, ?_⟩
  cases answer with
  | failed => exact wpe_throw _
  | refused re => exact permits_recordUnschedulable
  | admitted =>
    refine wpe_call_bind.mpr fun offeredAt => ⟨trivial, ?_⟩
    refine wpe_bind.mpr (wpe_lift.mpr (wp_takeFor
      (.offer tid rid step.id (sta.attempts step.id + 1) A.cfg.ttl)
      (fun _ => rfl) (hc.mono ?_) (fun g fc _ ht => ?_) fun g e _ => ?_))
    · exact fun e he => mem_append_left _ (mem_append_left _ he)
    · exact permits_dispatchOffered htask ht
    · cases e <;> simp

theorem permits_dispatch (hc : Chosen D h ⟨tid, rid, step.id⟩ step (sta.attempts step.id + 1)) :
    Permits D A (dispatch A.cfg tid rid step sta) h := by
  refine wpe_seq permits_armGate fun g₁ ar => ?_
  refine wpe_return_if fun _ => ?_
  refine wpe_seq permits_refuseSecrets fun g₂ refused => ?_
  refine wpe_return_if fun _ => ?_
  refine wpe_bind.mpr (wpe_call_bind.mpr fun answer => ⟨trivial, ?_⟩)
  cases answer with
  | none => exact wpe_throw _
  | some engines =>
    refine (wpe_pure _).mpr ?_
    dsimp only
    split
    · exact permits_recordUnschedulable
    · exact permits_offerStep htask (hc.mono fun e he => by simp [he])

omit htask

/-! ### The queue -/

variable {item : QueueItem}

theorem permits_enqueueReady
    (hready : FoundReady D h ⟨item.tenantID, item.runID, item.stepID⟩ step item.attempt) :
    Permits D A (enqueueReady cfg item) h := by
  refine wpe_call_bind.mpr fun answer => ⟨⟨step, hready⟩, ?_⟩
  cases answer with
  | queued | skipped => exact wpe_done
  | failed => exact wpe_throw _

variable {pl slots : ℕ} {its : List QueueItem}

theorem permits_dispatchQueued (htask : A.task ≠ .job) (hi : gotItems pl slots its ∈ h)
    (hie : item ∈ its) : Permits D A (dispatchQueued D A.cfg item) h := by
  refine wpe_bind.mpr (wpe_load fun log hcr => ?_)
  refine wpe_return_if fun hc => ?_
  refine wpe_return_if fun hlt => ?_
  refine wpe_return_if fun _ => ?_
  refine permits_readGraph_bind fun p hg answer => ?_
  cases hf : findStep p item.stepID with
  | none => exact wpe_done
  | some step =>
    have hid : step.id = item.stepID := (Dynamic.mem_of_findStep hf).2
    refine permits_dispatch htask (.queued ⟨pl, slots, its, item, log, p, by simp [hi],
      hie, by simp [hid], by simp, ⟨hcr, by simpa using hc⟩, ?_, by simp, hg,
      by simpa [hid] using hf⟩)
    simpa [hid] using hlt

theorem permits_dispatchItems (htask : A.task ≠ .job) (rest : List QueueItem)
    (hi : gotItems pl slots its ∈ h) (hr : rest ⊆ its) :
    Permits D A (dispatchItems D A.cfg rest) h := by
  induction rest generalizing h with
  | nil => exact wpe_done
  | cons item rest ih =>
    obtain ⟨hie, hr⟩ := cons_subset.mp hr
    exact wpe_seq (permits_dispatchQueued htask hi hie) fun g _ =>
      ih (mem_append_left _ hi) hr

theorem permits_drain (htask : A.task ≠ .job) : Permits D A (drain D A.cfg tid) h := by
  refine wpe_bind.mpr (wpe_call_bind.mpr fun answer => ⟨trivial, ?_⟩)
  cases answer with
  | none => exact wpe_throw _
  | some engines =>
    refine (wpe_pure _).mpr (wpe_call_bind.mpr fun answer => ⟨trivial, ?_⟩)
    cases answer with
    | none => exact wpe_throw _
    | some its =>
      exact permits_dispatchItems htask its mem_concat_self
        (Subset.refl _)

/-! ### A pass -/

theorem permits_placeStep (htask : A.task ≠ .job)
    (hready : FoundReady D h ⟨tid, rid, step.id⟩ step (sta.attempts step.id + 1)) :
    Permits D A (placeStep A.cfg tid rid step sta) h := by
  refine wpe_seq permits_permit fun g₁ permitted => ?_
  refine wpe_return_if fun _ => ?_
  refine wpe_seq permits_refuseBuiltinSecrets fun g₂ refused => ?_
  refine wpe_return_if fun _ => ?_
  refine wpe_seq (permits_serveFromCache htask (hready.mono fun e he => by simp [he]))
    fun g₃ outcome => ?_
  cases outcome with
  | served | placedElsewhere => exact wpe_done
  | miss =>
    refine wpe_seq (permits_takeBuiltin (hready.mono fun e he => by simp [he])) fun g₄ taken => ?_
    refine wpe_return_if fun _ => ?_
    split
    · refine wpe_seq (permits_dispatch htask (.ready (hready.mono fun e he => by simp [he])))
        fun _ _ => wpe_done
    · refine wpe_seq (permits_enqueueReady (hready.mono fun e he => by simp [he]))
        fun _ _ => wpe_done

theorem permits_placeReady (htask : A.task ≠ .job) (ready : List Step) {served : Bool}
    (hready : ∀ step ∈ ready, FoundReady D h ⟨tid, rid, step.id⟩ step (sta.attempts step.id + 1)) :
    Permits D A (placeReady A.cfg tid rid sta ready served) h := by
  induction ready generalizing h served with
  | nil => exact wpe_done
  | cons step ready ih =>
    refine wpe_seq (permits_placeStep htask (hready step mem_cons_self)) fun g placed => ?_
    cases placed with
    | stop => exact wpe_done
    | next now =>
      exact ih fun s hs => (hready s (mem_cons_of_mem _ hs)).mono (subset_append_left _ _)

theorem permits_finish {log : Log} {p : Pipeline} {g : Dag.Graph} {at_ : ℤ}
    (hi : Idle D h tid rid log p g at_) :
    Permits D A (finish tid rid (plan p g (ofLog log) at_)) h := by
  have hl : ∀ at', Idle D (h ++ [asked .now at']) tid rid log p g at_ := fun at' =>
    hi.later (lastLog_append_unread rfl)
  unfold finish
  split_ifs with he hb
  · exact wpe_append fun at' => .exhausted (hl at') he
  · exact wpe_done
  · exact wpe_append fun at' =>
      .completed (hl at') (not_not.mp he) (not_not.mp hb)

theorem permits_advance (htask : A.task ≠ .job) (fuel : ℕ) :
    Permits D A (Scheduler.advance D A.cfg fuel tid rid) h := by
  induction fuel generalizing h with
  | zero => exact wpe_done
  | succ fuel ih =>
    refine wpe_throw_if fun _ => ?_
    split
    · exact wpe_throw _
    rename_i ht hr
    refine wpe_bind.mpr (wpe_load fun log hcr => ?_)
    refine wpe_return_if fun hc => ?_
    have ho : Open log := ⟨hcr, by simpa using hc⟩
    refine permits_readGraph_bind fun p hg answer => ?_
    cases hb : Dag.build (some p) with
    | error e => exact wpe_throw _
    | ok graph =>
      refine wpe_call_bind.mpr fun at_ => ⟨trivial, ?_⟩
      refine wpe_bind.mpr (wpe_mono (wpe_recordAwaitingReplay _) fun g _ hl => ?_)
      split
      · rename_i hn
        refine permits_finish ⟨hl.trans ?_, ho, hg, hb, hn.1, hn.2.1, hn.2.2⟩
        rw [lastLog_append_unread rfl, lastLog_append_unread rfl, lastLog_snoc_sawLog]
      have hready : ∀ step ∈ (plan p graph (ofLog log) at_).ready,
          FoundReady D (h ++ [sawLog tid rid log] ++ [asked .definitions answer] ++
            [asked .now at_] ++ g) ⟨tid, rid, step.id⟩ step
            ((ofLog log).attempts step.id + 1) := by
        intro step hst
        obtain ⟨hm, hs⟩ := mem_ready hst
        exact ⟨log, by simp, ho, p, graph, hg, hb, hm, hs, rfl, rfl, ht, hr⟩
      refine wpe_seq (permits_placeReady htask _ hready) fun g placed => ?_
      cases placed with
      | stop => exact wpe_done
      | next served =>
        have ha : ∀ h, Permits D A
            (if served then Scheduler.advance D A.cfg fuel tid rid else pure ()) h := by
          intro h
          split
          · exact ih
          · exact wpe_done
        dsimp only
        split
        · exact wpe_seq (permits_drain htask) fun _ _ => ha _
        · exact ha _

/-! ### Status and sweeps -/

theorem permits_renew : Permits D A (leases (renew tok)) h :=
  wpe_lift.mpr (wp_lease_any (.renew tok) (fun _ => rfl) wp_renew)

theorem permits_accept {fc : Fence} : Permits D A (Scheduler.accept fc) h := by
  unfold Scheduler.accept
  split
  · exact wpe_throw _
  refine wpe_throw_if fun _ => ?_
  refine wpe_seq permits_renew fun g r => ?_
  rcases r with e | _
  · cases e <;> simp
  · exact wpe_done

variable {st : JobStatus}

theorem permits_recordCacheEntry : Permits D A (recordCacheEntry cfg tid st sta) h := by
  refine wpe_return_if fun _ => ?_
  refine wpe_call_bind.mpr fun answer => ⟨trivial, ?_⟩
  split
  · exact wpe_done
  · exact wpe_throw _

variable {fuel : ℕ}

theorem permits_settleStatus (htask : A.task = .onStatus (some st)) {r : ClaimRecord}
    (hf : decodeFence st.fence = some (tid, tok))
    (hsa : [(sawClaim tok.value (.found r tok.fence)).inl] <:+ h)
    (hp : terminalEvent st = some pa) : Permits D A (settleStatus D A.cfg fuel tid st pa) h := by
  have hj : A.task ≠ .job := by simp [htask]
  refine wpe_bind.mpr (wpe_load fun log hc => ?_)
  split
  · exact permits_advance hj fuel
  rename_i ht
  refine wpe_seq (wpe_append fun at_ => ?_) fun g _ => ?_
  · obtain ⟨h₀, rfl⟩ := hsa
    have hs : h₀ ++ [(sawClaim tok.value (.found r tok.fence)).inl, sawLog tid st.runID log,
        asked .now at_] = h₀ ++ [(sawClaim tok.value (.found r tok.fence)).inl] ++
          [sawLog tid st.runID log] ++ [asked .now at_] := by simp
    exact .status htask hf ⟨h₀, hs⟩ hp (by simpa using ht)
  · split
    · exact wpe_seq permits_recordCacheEntry fun _ _ => permits_advance hj fuel
    · exact permits_advance hj fuel

theorem permits_onStatus {st : Option JobStatus} (htask : A.task = .onStatus st) :
    Permits D A (Scheduler.onStatus D A.cfg fuel st) h := by
  unfold Scheduler.onStatus
  split
  · exact wpe_throw _
  rename_i st
  cases hf : decodeFence st.fence with
  | none => exact wpe_throw _
  | some fc =>
    refine wpe_throw_if fun _ => ?_
    refine wpe_bind.mpr (wpe_lift.mpr (wp_validated (fun r => ?_) fun g e _ => ?_))
    · cases hp : terminalEvent st with
      | some pa => exact permits_settleStatus htask hf (suffix_append _ _) hp
      | none =>
        refine wpe_return_if fun _ => ?_
        refine wpe_seq permits_renew fun g r => ?_
        rcases r with e | _
        · cases e <;> simp
        · exact wpe_done
    · cases e <;> simp

theorem permits_recordOrphans (htask : A.task ≠ .job) (orphans : List Orphan)
    (hl : ∀ orphan ∈ orphans, Lost h orphan) :
    Permits D A (recordOrphans D A.cfg fuel orphans) h := by
  induction orphans generalizing h with
  | nil => exact wpe_done
  | cons orphan orphans ih =>
    have hr : ∀ g, ∀ o ∈ orphans, Lost (h ++ g) o := fun g o ho =>
      (hl o (mem_cons_of_mem _ ho)).mono (subset_append_left _ _)
    refine wpe_seq (permits_recordOrphan (hl orphan mem_cons_self)) fun g recorded => ?_
    split
    · refine wpe_seq (permits_advance htask fuel) fun g' _ => ih ?_
      rw [append_assoc]
      exact hr _
    · exact ih (hr g)

variable {w : Waiting}

theorem permits_withdrawAbandoned (htask : A.task ≠ .job) :
    Permits D A (withdrawAbandoned D A.cfg fuel w) h := by
  refine wpe_seq (wpe_lift.mpr (wp_lease_any (.withdraw w.token) (fun _ => rfl) wp_withdraw))
    fun g r => ?_
  rcases r with e | _
  · cases e <;> simp
  · exact permits_advance htask fuel

variable {engines : List Instance}

theorem permits_surfaceInFlight {aged : Bool} :
    Permits D A (surfaceInFlight D cfg w engines aged sta) h := by
  refine permits_readGraph_bind fun p _ answer => ?_
  split
  · exact wpe_done
  dsimp only
  split
  · exact permits_recordUnschedulable
  refine wpe_return_if fun _ => ?_
  exact wpe_return_if fun _ => wpe_note rfl rfl

theorem permits_surfaceOne (htask : A.task ≠ .job) :
    Permits D A (surfaceOne D A.cfg fuel w engines) h := by
  refine wpe_call_bind.mpr fun at_ => ⟨trivial, ?_⟩
  refine wpe_bind.mpr (wpe_load fun log hc => ?_)
  split
  · exact wpe_return_if fun _ => permits_withdrawAbandoned htask
  refine wpe_return_if fun _ => ?_
  refine wpe_return_if fun _ => ?_
  refine wpe_return_if fun _ => ?_
  split
  · exact wpe_seq (permits_recordFencedOut (by simp)) fun _ _ => permits_advance htask fuel
  · exact permits_surfaceInFlight

theorem permits_outcome {x : PlaneM α} (hx : Permits D A x h) : Permits D A (outcome x) h :=
  wpe_lift.mpr (wp_mono hx fun _ _ _ => trivial)

theorem permits_surfaceAll (htask : A.task ≠ .job) (waiting : List Waiting)
    (fleets : List (String × List Instance)) :
    Permits D A (surfaceAll D A.cfg fuel fleets waiting) h := by
  induction waiting generalizing h fleets with
  | nil => exact wpe_done
  | cons w waiting ih =>
    have hs {k : Except PlaneErr Unit → PlaneM Unit} (hk : ∀ r h, Permits D A (k r) h)
        (h engines) : Permits D A (do
          let re ← outcome (surfaceOne D A.cfg fuel w engines)
          surfaceAll D A.cfg fuel ((w.tenantID, engines) :: fleets) waiting
          k re) h :=
      wpe_seq (permits_outcome (permits_surfaceOne htask)) fun _ re =>
        wpe_seq (ih _) fun _ _ => hk re _
    unfold surfaceAll
    cases fleets.lookup w.tenantID with
    | some engines => exact hs (by rintro (e | _) h; exacts [wpe_throw _, wpe_done]) _ engines
    | none =>
      refine wpe_seq ?_ fun g engines =>
        hs (by rintro (e | _) h; exacts [wpe_throw _, wpe_done]) _ engines
      refine wpe_call_bind.mpr fun answer => ⟨trivial, ?_⟩
      cases answer with
      | none => exact wpe_throw _
      | some engines => exact wpe_done

theorem permits_surfaceStranded (htask : A.task ≠ .job) :
    Permits D A (surfaceStranded D A.cfg fuel) h := by
  refine wpe_seq (wpe_lift.mpr (wp_lease_any .unaccepted (fun _ => rfl) wp_unaccepted))
    fun g r => ?_
  obtain ⟨waiting, _ | e⟩ := r
  · exact permits_surfaceAll htask waiting []
  · exact wpe_throw _

theorem permits_sweepOrphans (htask : A.task ≠ .job) :
    Permits D A (sweepOrphans D A.cfg fuel) h := by
  refine wpe_bind.mpr (wpe_lift.mpr (wp_lease .expire (fun _ _ _ ht => nomatch ht)
    (wp_mono wp_expire fun k r hr g hg => ?_)))
  obtain rfl := append_cancel_left hg
  obtain ⟨orphans, _ | e⟩ := r
  · refine wpe_seq (permits_recordOrphans htask orphans fun orphan ho => .inl ?_)
      fun _ _ => permits_surfaceStranded htask
    rw [lefts_append, lefts_map_inl]
    exact hr orphan ho
  · exact wpe_throw _

theorem permits_startRun (htask : A.task ≠ .job) {pid revisionID : String} :
    Permits D A (startRun D A.cfg fuel tid rid pid revisionID) h :=
  wpe_seq (wpe_append fun _ => .created) fun _ _ => permits_advance htask fuel

theorem permits_cancelRun (htask : A.task = .cancelRun tid rid) :
    Permits D A (cancelRun tid rid) h := by
  refine wpe_bind.mpr (wpe_call_bind.mpr fun r => ⟨trivial, ?_⟩)
  cases r with
  | none => exact wpe_throw _
  | some events =>
    refine (wpe_pure _).mpr ?_
    exact wpe_throw_if fun _ => wpe_append fun _ => .cancelled htask

end Passes

end Dhole.System
