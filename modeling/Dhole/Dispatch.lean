import Dhole.Growth
import Dhole.Tenure

/-! No attempt is dispatched twice. A dispatch is committed by an actor that took the lease
of the attempt, read the log after that and found the claim at its fence right before. Two
dispatches of one attempt would have two such takes, and the lease of the earlier one keeps
the other away unless it is removed between a fence check and the commit that follows. -/

namespace Dhole.System

open Interleave Prog Plane Lease Scheduler KV List

/-- The act commits the dispatch of an attempt, under the lease at this fence. -/
structure DispatchedAt (defs : Definitions) (tr : History) (n i : ℕ) (c : StepKey) (step : Step)
    (attempt fence : ℕ) : Prop where
  holding : Holding defs (own i (tr.take n)) c step attempt fence
  checked : Checked (own i (tr.take n)) c fence
  commit : ∃ t res, tr[n]? = some ⟨i, did t res⟩

variable {D : Definitions} {A : Actor} {h : List PlaneEvent} {log : Log}
  {tid rid : String} {t : Tx} {es : List Dhole.Event}

theorem dispatchedAttempts_decision (sid s : String) (ok parks : Bool) (at_ : ℤ) :
    dispatchedAttempts (Store.decision sid ok parks at_) s = [] := by
  cases ok <;> cases parks <;> rfl

/-- How a dispatch is written: with the row of its attempt, with the verdict the cache had,
or by the job that runs the step. -/
inductive WroteDispatch (actor : Actor) (h : List PlaneEvent) (tenantID runID : String)
    (step : Step) (attempt fence : ℕ) : Tx → List Dhole.Event → Prop
  | engine {at_ : ℤ} (htask : actor.task ≠ .job) :
      WroteDispatch actor h tenantID runID step attempt fence
        (.commit tenantID runID
          [{ stepID := step.id, attempt, at_, payload := .stepDispatched { fence } }]
          [jobDispatch actor.cfg tenantID runID step attempt ⟨⟨tenantID, runID, step.id⟩, fence⟩])
        [{ stepID := step.id, attempt, at_, payload := .stepDispatched { fence } }]
  | cached {at_ : ℤ} {outputs : List OutputRef} (htask : actor.task ≠ .job) :
      WroteDispatch actor h tenantID runID step attempt fence
        (.commit tenantID runID
          [{ stepID := step.id, attempt, at_, payload := .stepDispatched { fence, cacheHit := true } },
           { stepID := step.id, attempt, at_, payload := .stepSucceeded outputs }] [])
        [{ stepID := step.id, attempt, at_, payload := .stepDispatched { fence, cacheHit := true } },
         { stepID := step.id, attempt, at_, payload := .stepSucceeded outputs }]
  | job {plane : ℕ} {at_ : ℤ} (htask : actor.task = .job)
      (hjob : gotJob plane ⟨tenantID, runID, step, attempt⟩ ∈ h) :
      WroteDispatch actor h tenantID runID step attempt fence
        (.commit tenantID runID
          [{ stepID := step.id, attempt, at_, payload := .stepDispatched { fence } }] [])
        [{ stepID := step.id, attempt, at_, payload := .stepDispatched { fence } }]

theorem WroteDispatch.attempts {step : Step} {att fc : ℕ}
    (hw : WroteDispatch A h tid rid step att fc t es) (s : String) :
    dispatchedAttempts es s = if step.id = s then [att] else [] := by
  by_cases hs : step.id = s <;> cases hw <;> simp [dispatchedAttempts, Event.dispatchedAttempt?, hs]

theorem dispatched_of_wrote (hw : Wrote D A h log tid rid t es) :
    (∀ s, dispatchedAttempts es s = []) ∨ ∃ step att fc,
      Holding D h ⟨tid, rid, step.id⟩ step att fc ∧ Checked h ⟨tid, rid, step.id⟩ fc ∧
      WroteDispatch A h tid rid step att fc t es := by
  cases hw with
  | commit hg hf =>
    cases hg with
    | dispatched hta hh hc =>
      exact .inr ⟨_, _, _, hh, hc, .engine hta⟩
    | served hta hh hc => exact .inr ⟨_, _, _, hh, hc, .cached hta⟩
    | jobDispatched hta hj hh hc =>
      exact .inr ⟨_, _, _, hh, hc, .job hta hj⟩
    | @note _ _ e hi hcl =>
      left
      obtain ⟨id, att, pa, at_⟩ := e
      cases pa <;> first | exact fun _ => rfl | cases hi
    | @status _ st _ _ pa _ _ _ _ hs hp =>
      left
      unfold terminalEvent at hp
      split at hp <;> cases hp <;> exact fun _ => rfl
    | verdict _ _ hv => cases hv <;> exact .inl fun _ => rfl
    | _ => exact .inl fun _ => rfl
  | decided => exact .inl fun s => dispatchedAttempts_decision _ s _ _ _
  | _ => exact .inl fun _ => rfl

section Dispatch

variable {As : ℕ → Actor} {tr : History} {i j n m : ℕ} {c : StepKey} {step : Step}
  {att fc : ℕ} {s : String}

theorem dispatched_step (htr : PlaneTrace D As tr) (n : ℕ) (tid rid s : String) :
    dispatchedAttempts (logOf (tr.take (n + 1)) tid rid) s =
        dispatchedAttempts (logOf (tr.take n) tid rid) s ∨
      ∃ i step att fc, dispatchedAttempts (logOf (tr.take (n + 1)) tid rid) s =
          dispatchedAttempts (logOf (tr.take n) tid rid) s ++ [att] ∧
        DispatchedAt D tr n i ⟨tid, rid, s⟩ step att fc := by
  rcases logOf_step htr n tid rid with hsa | ⟨i, t, res, es, hn, -, hg, hw⟩
  · rw [hsa]
    exact .inl rfl
  rw [hg, dispatchedAttempts_appendAll]
  rcases dispatched_of_wrote hw with hno | ⟨step, att, fc, hh, hc, hho⟩
  · rw [hno, append_nil]
    exact .inl rfl
  rw [hho.attempts]
  by_cases hs : step.id = s
  · subst hs
    rw [if_pos rfl]
    exact .inr ⟨i, step, att, fc, rfl, hh, hc, t, res, hn⟩
  · rw [if_neg hs, append_nil]
    exact .inl rfl

variable {k : ℕ}

theorem mem_dispatched_mono {l log : Log} (hl : l <+: log) (hk : k ∈ dispatchedAttempts l s) :
    k ∈ dispatchedAttempts log s := by
  obtain ⟨rest, rfl⟩ := hl
  rw [dispatchedAttempts_append]
  exact mem_append_left _ hk

/-- The moments of a dispatch before its commit: the take, the log read after it, and the
fence check. -/
structure Moments (defs : Definitions) (tr : History) (n i : ℕ) (c : StepKey) (step : Step)
    (attempt fence k l v : ℕ) : Prop where
  took : ∃ data, TookAt tr k i c data fence ∧ data.attempt = attempt
  chosen : Chosen defs (own i (tr.take k)) c step attempt
  took_lt : k < l
  read : ∃ log, tr[l]? = some ⟨i, sawLog c.tenant c.run log⟩ ∧
    (RunState.ofLog log).attempts c.step < attempt
  read_lt : l < n
  wrote_nothing : ∀ x e, k < x → x < n → tr[x]? = some ⟨i, e⟩ → isTx e = false
  saw : ∃ r, tr[v]? = some ⟨i, (sawClaim c (.found r fence)).inl⟩
  saw_lt : v < n
  saw_last : ∀ x e, v < x → x < n → tr[x]? ≠ some ⟨i, e⟩

theorem DispatchedAt.moments (hd : DispatchedAt D tr n i c step att fc) :
    ∃ k l v, Moments D tr n i c step att fc k l v := by
  obtain ⟨⟨h₀, e, h₁, log, ho, ⟨⟨data, hto, ha⟩, hch⟩, htx, hlo, hlt⟩, hc, -⟩ := hd
  obtain ⟨k, hkn, hk, hp, hb, hr⟩ := own_take_split ho
  obtain ⟨l, hkl, hln, hl⟩ := hr _ (mem_of_lastLog hlo)
  obtain ⟨r, h', hs⟩ := hc
  obtain ⟨v, hvn, hv, -, hla, -⟩ := own_take_split hs.symm
  refine ⟨k, l, v, ⟨data, ⟨e, hk, hto⟩, ha⟩, hp ▸ hch, hkl, ⟨log, hl, hlt⟩, hln,
    fun x d hkx hxn hx => htx d (hb x d hkx hxn hx), ⟨r, hv⟩, hvn, fun x d hvx hxn hx => ?_⟩
  exact absurd (hla x d hvx hxn hx) (not_mem_nil)

/-! ### Attempts without gaps -/

variable {b : ℕ}

theorem ChosenFrom.previous {log : Log} (hc : ChosenFrom D log c step b) (hb : 1 < b) :
    b - 1 ∈ dispatchedAttempts log c.step := by
  obtain ⟨l, hl, rfl⟩ := hc.attempt_eq
  refine mem_dispatched_mono hl ?_
  exact attempts_mem (by omega)

variable {l v : ℕ}

theorem Moments.chosenFrom (hm : Moments D tr n i c step att fc k l v) (htr : PlaneTrace D As tr) :
    ChosenFrom D (logOf (tr.take n) c.tenant c.run) c step att := by
  have hkn : k ≤ n := (hm.took_lt.trans hm.read_lt).le
  exact (hm.chosen.from (htr.take k)).mono (logOf_take_mono htr hkn)

variable {a : ℕ}

theorem dispatched_below (htr : PlaneTrace D As tr) (ha : 1 ≤ a) (n : ℕ)
    (hb : b ∈ dispatchedAttempts (logOf (tr.take n) tid rid) s) (hab : a ≤ b) :
    a ∈ dispatchedAttempts (logOf (tr.take n) tid rid) s := by
  induction n generalizing b with
  | zero => cases hb
  | succ n ih =>
    rcases dispatched_step htr n tid rid s with hs | ⟨i, step, att, fc, hg, hd⟩
    · rw [hs] at hb ⊢
      exact ih hb hab
    · rw [hg] at hb ⊢
      rcases mem_append.mp hb with hb | hb
      · exact mem_append_left _ (ih hb hab)
      · obtain rfl : b = att := by simpa using hb
        rcases eq_or_lt_of_le hab with rfl | hlt
        · exact mem_append_right _ hb
        · obtain ⟨k, l, v, hm⟩ := hd.moments
          have hp := (hm.chosenFrom htr).previous (by omega)
          exact mem_append_left _ (ih hp (by omega))

variable {data : ClaimRecord}

variable (ht : TookAt tr n j c data fc) (htr : PlaneTrace D As tr)

include ht htr

theorem TookAt.chosenFrom :
    ∃ step, ChosenFrom D (logOf (tr.take n) c.tenant c.run) c step data.attempt := by
  obtain ⟨e, hn, hto⟩ := ht
  have hp := (htr.at_get hn).2
  have hc : ∃ step, Chosen D (own j (tr.take n)) c step data.attempt := by
    obtain ⟨res, -, rfl | ⟨rev, rfl⟩⟩ := hto
    all_goals
      obtain ⟨call, hca, ⟨at_, hta⟩, -⟩ := hp
      exact hca at_ c data hta
  obtain ⟨step, hc⟩ := hc
  exact ⟨step, hc.from (htr.take n)⟩

theorem TookAt.dispatched_lt (ha : 1 ≤ a) (hlt : a < data.attempt) :
    a ∈ dispatchedAttempts (logOf (tr.take n) c.tenant c.run) c.step := by
  obtain ⟨step, hc⟩ := ht.chosenFrom htr
  exact dispatched_below htr ha n (hc.previous (by omega)) (by omega)

omit ht htr

/-! ### Two dispatches -/

/-- No lease is removed between the fence check of a transaction and its commit. -/
def CommitsUndisturbed (tr : History) : Prop :=
  ∀ v n i c r fence t res, v < n → tr[v]? = some ⟨i, (sawClaim c (.found r fence)).inl⟩ →
    tr[n]? = some ⟨i, did t res⟩ → (∀ x e, v < x → x < n → tr[x]? ≠ some ⟨i, e⟩) →
    ∀ k, v < k → k < n → ¬ RemovedAt tr k c fence

theorem DispatchedAt.kept (hd : DispatchedAt D tr n i c step att fc)
    (hm : Moments D tr n i c step att fc k l v) (hu : CommitsUndisturbed tr) :
    ∀ x, v ≤ x → x < n → ¬ RemovedAt tr x c fc := by
  obtain ⟨r, hv⟩ := hm.saw
  obtain ⟨t, res, hn⟩ := hd.commit
  intro x hvx hxn hr
  rcases eq_or_lt_of_le hvx with rfl | hlt
  · obtain ⟨j, res', hx, -⟩ := hr
    rw [hv] at hx
    cases hx
  · exact hu v n i c r fc t res hm.saw_lt hv hn hm.saw_last x hlt hxn hr

theorem Moments.took_lt_saw (hm : Moments D tr n i c step att fc k l v) : k < v := by
  obtain ⟨log, hl, -⟩ := hm.read
  have hlv : l ≤ v := by
    by_contra hvl
    exact hm.saw_last l _ (not_le.mp hvl) hm.read_lt hl
  exact hm.took_lt.trans_le hlv

variable {fc' : ℕ}

/-- A take between a dispatch's own take and its fence check would have moved the fence. -/
theorem Moments.saw_le_of_took (hm : Moments D tr n i c step att fc k l v)
    (htr : PlaneTrace D As tr) (ht : TookAt tr m j c data fc') (hkm : k < m) : v ≤ m := by
  by_contra hmv
  obtain ⟨data₀, hto, -⟩ := hm.took
  obtain ⟨r, hv⟩ := hm.saw
  have hlt := hto.fence_lt htr ht hkm
  have hle := rev_take_mono htr (Nat.succ_le_of_lt (not_le.mp hmv)) c
  rw [(ht.cells htr).1, rev_of_entry (entry_of_saw htr hv)] at hle
  exact absurd hlt (not_lt.mpr hle)

/-- Whoever takes the lease of a dispatch between its fence check and its commit comes after
a take for a larger attempt, so the attempt is in the log by then. -/
theorem DispatchedAt.retaken (hd : DispatchedAt D tr n i c step att fc)
    (hm : Moments D tr n i c step att fc k l v) (htr : PlaneTrace D As tr)
    (hu : CommitsUndisturbed tr) (ht : TookAt tr m j c data fc') (hvm : v ≤ m) (hmn : m < n) :
    att ∈ dispatchedAttempts (logOf (tr.take m) c.tenant c.run) c.step := by
  obtain ⟨r, hv⟩ := hm.saw
  obtain ⟨data₀, hto, rfl⟩ := hm.took
  have he := entry_of_saw htr hv
  obtain rfl : r = data₀ := hto.entry htr hm.took_lt_saw he
  obtain ⟨x, j', da', f, hvx, hxm, ht', hlt⟩ := larger_of_took htr hvm he
    (fun x hvx hxm => hd.kept hm hu x hvx (hxm.trans hmn)) ht
  obtain ⟨l₀, -, ha⟩ := (hm.chosenFrom htr).attempt_eq
  have hdi := ht'.dispatched_lt htr (by omega) hlt
  exact mem_dispatched_mono (logOf_take_mono htr hxm) hdi

theorem first_dispatched (htr : PlaneTrace D As tr) (n : ℕ)
    (ha : att ∈ dispatchedAttempts (logOf (tr.take n) tid rid) s) :
    ∃ m < n, ∃ i step fc, DispatchedAt D tr m i ⟨tid, rid, s⟩ step att fc ∧
      att ∉ dispatchedAttempts (logOf (tr.take m) tid rid) s ∧
      att ∈ dispatchedAttempts (logOf (tr.take (m + 1)) tid rid) s := by
  induction n with
  | zero => cases ha
  | succ n ih =>
    by_cases hold : att ∈ dispatchedAttempts (logOf (tr.take n) tid rid) s
    · obtain ⟨m, hmn, hr⟩ := ih hold
      exact ⟨m, hmn.trans n.lt_succ_self, hr⟩
    · rcases dispatched_step htr n tid rid s with hs | ⟨i, step, a, fc, hg, hd⟩
      · rw [hs] at ha
        exact absurd ha hold
      · have hm := ha
        rw [hg] at ha
        rcases mem_append.mp ha with ha | ha
        · exact absurd ha hold
        · obtain rfl : att = a := by simpa using ha
          exact ⟨n, n.lt_succ_self, i, step, fc, hd, hold, hm⟩

/-- A dispatch is committed only where its attempt is not in the log. -/
theorem DispatchedAt.not_dispatched (hd : DispatchedAt D tr n i c step att fc)
    (htr : PlaneTrace D As tr) (hu : CommitsUndisturbed tr) :
    att ∉ dispatchedAttempts (logOf (tr.take n) c.tenant c.run) c.step := by
  intro hme
  obtain ⟨m, hmn, j, st', fc', hd', hn, hth⟩ := first_dispatched htr n hme
  obtain ⟨k, l, v, hm⟩ := hd.moments
  obtain ⟨k', l', v', hm'⟩ := hd'.moments
  obtain ⟨data, hto, -⟩ := hm.took
  obtain ⟨da', hto', -⟩ := hm'.took
  obtain ⟨t, res, hc⟩ := hd'.commit
  -- the log read after the later dispatch's take does not have the attempt yet
  have hlm : l < m := by
    obtain ⟨log, hl, hlt⟩ := hm.read
    rcases lt_trichotomy l m with hlm | rfl | hml
    · exact hlm
    · rw [hl] at hc
      cases hc
    · have hle := le_attempts_of_mem (mem_dispatched_mono (logOf_take_mono htr hml) hth)
      rw [← log_of_sawLog htr hl] at hle
      omega
  rcases lt_trichotomy k' k with hkk | rfl | hkk
  · have hvk := hm'.saw_le_of_took htr hto hkk
    have hin := hd'.retaken hm' htr hu hto hvk (hm.took_lt.trans hlm)
    exact hn (mem_dispatched_mono (logOf_take_mono htr (hm.took_lt.trans hlm).le) hin)
  · obtain ⟨e, hk, -⟩ := hto
    obtain ⟨e', hk', -⟩ := hto'
    obtain rfl : i = j := congrArg Act.actor (Option.some.inj (hk.symm.trans hk'))
    exact absurd (hm.wrote_nothing m _ (hm.took_lt.trans hlm) hmn hc) (by simp [isTx, did])
  · have hkm := hm'.took_lt.trans hm'.read_lt
    have hvk := hm.saw_le_of_took htr hto' hkk
    have hin := hd.retaken hm htr hu hto' hvk (hkm.trans hmn)
    exact hn (mem_dispatched_mono (logOf_take_mono htr hkm.le) hin)

theorem dispatched_nodup (htr : PlaneTrace D As tr) (hu : CommitsUndisturbed tr) (n : ℕ)
    (tid rid s : String) : (dispatchedAttempts (logOf (tr.take n) tid rid) s).Nodup := by
  induction n with
  | zero => exact nodup_nil
  | succ n ih =>
    rcases dispatched_step htr n tid rid s with hs | ⟨i, step, a, fc, hg, hd⟩
    · rwa [hs]
    · rw [hg, nodup_append]
      refine ⟨ih, nodup_singleton a, fun x hx y hy => ?_⟩
      obtain rfl : y = a := by simpa using hy
      rintro rfl
      exact hd.not_dispatched htr hu hx

end Dispatch

end Dhole.System
