import Dhole.Attempts

/-! How often engines start the body of an attempt. The rows of an attempt are one at most,
but the queue hands a row to as many engines as it likes, and a renewal of its lease answers
all of them alike: the lease tells an engine that the attempt is still the current one, not
that nobody else has begun it. So a body that must not be repeated is started once as long as
one engine is accepted, and as long as an engine that starts without an answer is the only one
to be given the dispatch. -/

namespace Dhole.System

open Interleave Prog Plane Lease Scheduler KV List

def exclusive (d : JobDispatch) : Bool :=
  d.confirmAcceptance && (Effects.retryPolicy d.step).requiresExclusiveLease

def startsAttempt (c : StepKey) (attempt : ℕ) : PlaneEvent → Bool
  | ⟨.inr (.start (.engine d)), _⟩ => rowFor c attempt d && exclusive d
  | _ => false

def StartedOnce (tr : History) : Prop :=
  ∀ c attempt, tr.countP (fun a => startsAttempt c attempt a.event) ≤ 1

/-- One engine at most is let start each dispatch that may not be repeated. -/
structure OneEngine (actors : ℕ → Actor) (tr : History) : Prop where
  /-- An engine whose renewal of a lease is written is the only one whose was. -/
  accepted : ∀ (n i j : ℕ) (d : JobDispatch) (tenantID : String) (token : Token) (expiresAt : ℤ)
    (rev : ℕ), exclusive d = true → d.fence = .token tenantID token →
    tr[n]? = some ⟨i, (wroteRenewal token.value ⟨token.fence, expiresAt⟩ (.ok rev)).inl⟩ →
    (actors i).task = .engine → (actors j).task = .engine →
    Accepted (own j (tr.take n)) d → j = i
  /-- An engine that starts without an answer is the only one that was given the dispatch. -/
  unanswered : ∀ (n i j : ℕ) (d : JobDispatch), exclusive d = true →
    d.step.effectClass ≠ .atMostOnce → tr[n]? = some ⟨i, started (.engine d)⟩ →
    ¬ Accepted (own i (tr.take n)) d → delivered d ∈ own j (tr.take n) → j = i
  /-- Nobody is given a dispatch that was started without an answer. -/
  redelivered : ∀ (m n i j : ℕ) (d : JobDispatch), exclusive d = true →
    d.step.effectClass ≠ .atMostOnce → tr[n]? = some ⟨i, delivered d⟩ → m < n →
    tr[m]? = some ⟨j, started (.engine d)⟩ → Accepted (own j (tr.take m)) d

section Bodies

variable {D : Definitions} {As : ℕ → Actor} {tr : History} {i j n m : ℕ} {c : StepKey}
  {att : ℕ} {d d' : JobDispatch}

variable (htr : PlaneTrace D As tr)

include htr

theorem row_unique (hu : CommitsUndisturbed tr)
    (hd : d ∈ outboxOf tr) (hd' : d' ∈ outboxOf tr) (hro : rowFor c att d = true)
    (hro' : rowFor c att d' = true) : d = d' := by
  have hr := rows_le_dispatched htr tr.length c att
  have hn := dispatched_nodup htr hu tr.length c.tenant c.run c.step
  have ho := hr.trans (nodup_iff_count_le_one.mp hn att)
  rw [take_length] at ho
  exact FirstMatch.eq_of_countP_le_one ho hd hd' hro hro'

theorem mem_outbox_of_delivered (hd : delivered d ∈ own i (tr.take n)) : d ∈ outboxOf tr := by
  obtain ⟨k, -, hk⟩ := get_of_mem_own_take hd
  have ha : storeWorld.Answers (planeWorld.state (tr.take k)).2 ⟨.deliver, some d⟩ :=
    (htr.at_get hk).1
  exact (prefix_outboxOf_take htr k).subset (ha d rfl)

theorem starts_at (hn : tr[n]? = some ⟨i, started (.engine d)⟩) :
    Starts (As i) (own i (tr.take n)) (.engine d) := (htr.at_get hn).2

omit htr

theorem OneEngine.not_both_accepted (ho : OneEngine As tr) (hex : exclusive d = true)
    (hi : (As i).task = .engine) (hj : (As j).task = .engine) (hne : i ≠ j)
    (hac : Accepted (own i (tr.take n)) d) (hac' : Accepted (own j (tr.take m)) d) : False := by
  obtain ⟨t, token, exp, rev, hf, hm⟩ := hac
  obtain ⟨te', token', exp', rev', hf', hm'⟩ := hac'
  obtain ⟨rfl, rfl⟩ : t = te' ∧ token = token' := by
    rw [hf] at hf'
    simpa using hf'
  obtain ⟨k, -, hk⟩ := get_of_mem_own_take hm
  obtain ⟨l, -, hl⟩ := get_of_mem_own_take hm'
  -- the later of the two renewals is written after the other engine was accepted
  have hla : ∀ {a b x y : ℕ} {ex ey : ℤ} {rx ry : ℕ}, x < y →
      tr[x]? = some ⟨a, (wroteRenewal token.value ⟨token.fence, ex⟩ (.ok rx)).inl⟩ →
      tr[y]? = some ⟨b, (wroteRenewal token.value ⟨token.fence, ey⟩ (.ok ry)).inl⟩ →
      (As a).task = .engine → (As b).task = .engine → a = b := by
    intro a b x y ex ey rx ry hxy hx hy ha hb
    have hm : (wroteRenewal token.value ⟨token.fence, ex⟩ (.ok rx)).inl ∈ own a (tr.take y) :=
      mem_own_of_get (by rwa [get_take hxy])
    exact ho.accepted y b a d t token ey ry hex hf hy hb ha
      ⟨t, token, ex, rx, hf, hm⟩
  rcases lt_trichotomy k l with hkl | rfl | hlk
  · exact hne (hla hkl hk hl hi hj)
  · rw [hk] at hl
    exact hne (congrArg Act.actor (Option.some.inj hl))
  · exact hne (hla hlk hl hk hj hi).symm

/-- A dispatch that may not be repeated is not started at two places. -/
theorem OneEngine.not_started_twice (ho : OneEngine As tr) (htr : PlaneTrace D As tr)
    (hex : exclusive d = true) (hnm : n < m) (hn : tr[n]? = some ⟨i, started (.engine d)⟩)
    (hm : tr[m]? = some ⟨j, started (.engine d)⟩) : False := by
  cases starts_at htr hn with
  | engine ht hd hnt hc =>
  cases starts_at htr hm with
  | engine ht' hd' hnt' hc' =>
  have hne : i ≠ j := by
    rintro rfl
    cases hnt' _ (mem_own_of_get ((get_take hnm).trans hn))
  have hco : d.confirmAcceptance = true := (Bool.and_eq_true_iff.mp hex).1
  have hmo : ∀ {h : List PlaneEvent}, (d.confirmAcceptance = false ∨ Accepted h d ∨
      d.step.effectClass ≠ .atMostOnce) → ¬ Accepted h d → d.step.effectClass ≠ .atMostOnce := by
    rintro h (hf | ha | hcl) hno
    · rw [hco] at hf
      cases hf
    · exact absurd ha hno
    · exact hcl
  by_cases ha : Accepted (own i (tr.take n)) d
  · by_cases ha' : Accepted (own j (tr.take m)) d
    · exact ho.not_both_accepted hex ht ht' hne ha ha'
    · obtain ⟨k, hkn, hk⟩ := get_of_mem_own_take hd
      have hg : delivered d ∈ own i (tr.take m) :=
        mem_own_of_get ((get_take (hkn.trans hnm)).trans hk)
      exact hne (ho.unanswered m j i d hex (hmo hc' ha') hm ha' hg)
  · have hcl := hmo hc ha
    obtain ⟨k, hkm, hk⟩ := get_of_mem_own_take hd'
    rcases lt_trichotomy k n with hkn | rfl | hnk
    · have hg : delivered d ∈ own j (tr.take n) := mem_own_of_get ((get_take hkn).trans hk)
      exact hne (ho.unanswered n i j d hex hcl hn ha hg).symm
    · rw [hn] at hk
      exact hne (congrArg Act.actor (Option.some.inj hk))
    · exact ha (ho.redelivered n k j i d hex hcl hk hnk hn)

theorem startsAttempt_iff {e : PlaneEvent} : startsAttempt c att e = true ↔
      ∃ d, e = started (.engine d) ∧ rowFor c att d = true ∧ exclusive d = true := by
  constructor
  · intro h
    obtain ⟨op | op, r⟩ := e
    · cases h
    cases op with
    | start body =>
      cases body with
      | engine d => exact ⟨d, rfl, Bool.and_eq_true_iff.mp h⟩
      | builtin job => cases h
    | _ => cases h
  · rintro ⟨d, rfl, hr, hex⟩
    exact Bool.and_eq_true_iff.mpr ⟨hr, hex⟩

/-- The body of a step that may not be repeated is started once for each attempt, when the
engines that are let start it are one at most. -/
theorem started_once (defs : Definitions) (actors : ℕ → Actor) (tr : History)
    (hruns : Runs defs actors tr) (hund : CommitsUndisturbed tr) (hone : OneEngine actors tr) :
    StartedOnce tr := by
  have htr := hruns.planeTrace
  intro c attempt
  apply FirstMatch.countP_le_one_of_pairwise
  rw [pairwise_iff_getElem]
  rintro n m hn hm hnm ⟨hs, hs'⟩
  obtain ⟨d, hd, hr, hex⟩ := startsAttempt_iff.mp hs
  obtain ⟨d', hd', hr', -⟩ := startsAttempt_iff.mp hs'
  have hg : tr[n]? = some ⟨tr[n].actor, started (.engine d)⟩ := by
    rw [← hd, getElem?_eq_getElem hn]
  have hg' : tr[m]? = some ⟨tr[m].actor, started (.engine d')⟩ := by
    rw [← hd', getElem?_eq_getElem hm]
  have hme : ∀ {k i : ℕ} {d : JobDispatch}, tr[k]? = some ⟨i, started (.engine d)⟩ →
      d ∈ outboxOf tr := by
    intro k i d hk
    cases starts_at htr hk with
    | engine ht hde => exact mem_outbox_of_delivered htr hde
  obtain rfl := row_unique htr hund (hme hg) (hme hg') hr hr'
  exact hone.not_started_twice htr hex hnm hg hg'

/-! ### Redelivery -/

def isRenewal : PlaneEvent → Bool
  | ⟨.inl (.kv (.put (.renew _) _)), _⟩ => true
  | _ => false

def isDelivery : PlaneEvent → Bool
  | ⟨.inr .deliver, some _⟩ => true
  | _ => false

def startsUndeclared : PlaneEvent → Bool
  | ⟨.inr (.start (.engine d)), _⟩ => d.step.effectClass ≠ .atMostOnce
  | _ => false

theorem oneEngine_of_renewals {k : ℕ}
    (hr : ∀ a ∈ tr, isRenewal a.event = true → a.actor = k)
    (hd : ∀ a ∈ tr, startsUndeclared a.event = false) : OneEngine As tr where
  accepted := by
    rintro n i j d t token ex rev - - hn - - ha
    obtain ⟨t', ts', exp, rev', -, hme⟩ := ha
    obtain ⟨m, -, hm⟩ := get_of_mem_own_take hme
    have hi : i = k := hr _ (mem_of_getElem? hn) rfl
    have hj : j = k := hr _ (mem_of_getElem? hm) rfl
    rw [hi, hj]
  unanswered := by
    rintro n i j d - hc hn
    have hno := hd _ (mem_of_getElem? hn)
    exact absurd hc (by simpa [startsUndeclared, started] using hno)
  redelivered := by
    rintro m n i j d - hc - - hm
    have hno := hd _ (mem_of_getElem? hm)
    exact absurd hc (by simpa [startsUndeclared, started] using hno)

end Bodies

def deployStep : Step := { id := "deploy", pluginRef := "oci://deploy", effectClass := .atMostOnce }

def deployDefinition : Definitions := fun _ _ _ => some { id := "p", steps := [deployStep] }

/-- A plane starts a run, engines take what is in its outbox, and a plane sweeps. -/
def planeAndEngines : ℕ → Actor
  | 0 => { cfg := { ttl := 30, confirm := true }, fuel := 1
           task := .startRun "acme" "run" "p" "r1" }
  | 2 => doing .sweep
  | _ => doing .engine

/-- The dispatch is delivered to a second engine while its lease is the current one. -/
def deliveredTwice : History :=
  run deployDefinition planeAndEngines { engines := [readyEngine] }
    (replicate 30 0 ++ replicate 20 1 ++ replicate 20 3)

theorem deliveredTwice_started_twice :
    Runs deployDefinition planeAndEngines deliveredTwice ∧ ¬ StartedOnce deliveredTwice := by
  refine ⟨run_runs _ _ _ _, fun h => ?_⟩
  have ht : deliveredTwice.countP
      (fun a => startsAttempt ⟨"acme", "run", "deploy"⟩ 1 a.event) = 2 := by decide
  have hle := h ⟨"acme", "run", "deploy"⟩ 1
  omega

/-- The second engine is given the dispatch after the lease was swept. -/
def redeliveredLate : History :=
  run deployDefinition planeAndEngines
    { engines := [readyEngine], keys := [.claim ⟨"acme", "run", "deploy"⟩]
      clock := fun n => if n < 27 then n else 1000 }
    (replicate 30 0 ++ replicate 20 1 ++ replicate 30 2 ++ replicate 20 3)

theorem redeliveredLate_started_once : StartedOnce redeliveredLate ∧
      redeliveredLate.countP (fun a => startsAttempt ⟨"acme", "run", "deploy"⟩ 1 a.event) = 1 ∧
      redeliveredLate.countP (fun a => isDelivery a.event) = 2 :=
  ⟨started_once deployDefinition planeAndEngines redeliveredLate (run_runs _ _ _ _)
    (oneAtATime_of_sorted (by decide)).commitsUndisturbed
    (oneEngine_of_renewals (k := 1) (by decide) (by decide)), by decide, by decide⟩

end Dhole.System
