import Dhole.HoldPrograms

/-! Where the slots go. A slot that was left with a plane stays there for as long as it is
renewed, and leaves with the next handler that asks this plane for the slot of the step. So
it is given back at the end of its attempt where the end is written on that plane, after the
slot was left there. An end that another plane writes, or that comes before the slot, leaves
the slot where it is. -/

namespace Dhole.Holds

open Interleave Prog Plane Lease Scheduler List

def slotsOf (tr : HoldHistory) : SlotState := (holdWorld.state tr).2

def logOf (tr : HoldHistory) (tenantID runID : String) : Log :=
  (holdWorld.state tr).1.2.store.log tenantID runID

def Ended (tr : HoldHistory) (key : StepKey) (attempt : ℕ) : Prop :=
  ∃ e ∈ logOf tr key.tenant key.run,
    e.stepID = key.step ∧ e.attempt = attempt ∧ endsAttempt e.payload = true

instance (tr : HoldHistory) (key : StepKey) (attempt : ℕ) : Decidable (Ended tr key attempt) :=
  inferInstanceAs (Decidable (∃ e ∈ logOf tr key.tenant key.run,
    e.stepID = key.step ∧ e.attempt = attempt ∧ endsAttempt e.payload = true))

/-! ### Slots -/

variable {s : SlotState} {e : Interleave.Event slotSig} {slot : Slot}

theorem mem_giveBack {other : Option Slot} :
    slot ∈ s.giveBack other ↔ slot ∈ s.live ∧ other ≠ some slot := by
  simp [SlotState.giveBack]

theorem mem_live_next (h : slot ∈ (s.next e).live) : slot ∈ s.live ∨
    ∃ pid, e.op = .acquire slot.plane pid slot.key slot.attempt ∧ slot.serial = s.serials := by
  obtain ⟨op, r⟩ := e
  cases op with
  | acquire pl pid key att =>
    obtain rfl | h := mem_cons.mp h
    · exact .inr ⟨pid, rfl, rfl⟩
    · exact .inl h
  | release other | hold pl key other | releaseHold pl key => exact .inl (mem_giveBack.mp h).1

theorem serials_le_next : s.serials ≤ (s.next e).serials := by
  obtain ⟨op, r⟩ := e
  cases op with
  | acquire => exact Nat.le_succ _
  | release | hold | releaseHold => exact le_rfl

theorem held_next (hh : s.held slot.plane slot.key = some slot)
    (hl : slot ∈ (s.next e).live) : (s.next e).held slot.plane slot.key = some slot := by
  obtain ⟨op, r⟩ := e
  cases op with
  | acquire | release => exact hh
  | hold plane key other | releaseHold plane key =>
    have hne : ¬ (slot.plane = plane ∧ slot.key = key) := by
      rintro ⟨rfl, rfl⟩
      exact (mem_giveBack.mp hl).2 hh
    exact (if_neg hne).trans hh

/-! ### Histories -/

variable {handlers : ℕ → Handler} {tr : HoldHistory} {i n m : ℕ} {key : StepKey} {att : ℕ}

theorem Handles.guarded (htr : Handles handlers tr) :
    Guarded holdWorld (fun i => Permitted (handlers i).cfg.plane) tr :=
  Reach.guarded (fun i => (handlers i).finishes) htr

theorem slotsOf_left {op : planeSig.Op} {r : planeSig.Res op}
    (hn : tr[n]? = some ⟨i, ⟨.inl op, r⟩⟩) : slotsOf (tr.take (n + 1)) = slotsOf (tr.take n) := by
  rw [slotsOf, state_take_succ hn]
  rfl

theorem slotsOf_right {op : SlotOp} {r : slotSig.Res op} (hn : tr[n]? = some ⟨i, ⟨.inr op, r⟩⟩) :
    slotsOf (tr.take (n + 1)) = (slotsOf (tr.take n)).next ⟨op, r⟩ := by
  rw [slotsOf, state_take_succ hn]
  rfl

theorem take_succ_of_none (hn : tr[n]? = none) : tr.take (n + 1) = tr.take n := by
  have hl := getElem?_eq_none_iff.mp hn
  rw [take_of_length_le hl, take_of_length_le (hl.trans n.le_succ)]

theorem slotsOf_succ (tr : HoldHistory) (n : ℕ) : slotsOf (tr.take (n + 1)) = slotsOf (tr.take n) ∨
      ∃ i op r, tr[n]? = some ⟨i, ⟨.inr op, r⟩⟩ ∧
        slotsOf (tr.take (n + 1)) = (slotsOf (tr.take n)).next ⟨op, r⟩ := by
  cases hn : tr[n]? with
  | none => exact .inl (by rw [take_succ_of_none hn])
  | some a =>
    obtain ⟨i, op | op, r⟩ := a
    · exact .inl (slotsOf_left hn)
    · exact .inr ⟨i, op, r, rfl, slotsOf_right hn⟩

theorem serials_mono (hnm : n ≤ m) :
    (slotsOf (tr.take n)).serials ≤ (slotsOf (tr.take m)).serials := by
  induction m, hnm using Nat.le_induction with
  | base => exact le_rfl
  | succ m hnm ih =>
    obtain heq | ⟨_, _, _, _, heq⟩ := slotsOf_succ tr m
    · rwa [heq]
    · rw [heq]
      exact ih.trans serials_le_next

theorem took_of_live (htr : Handles handlers tr) (hl : slot ∈ (slotsOf (tr.take m)).live) :
    ∃ n < m, ∃ i pid, tr[n]? = some ⟨i, tookSlot pid slot⟩ ∧
      slot.serial = (slotsOf (tr.take n)).serials := by
  induction m with
  | zero => exact absurd hl not_mem_nil
  | succ m ih =>
    obtain heq | ⟨i, op, r, hm, heq⟩ := slotsOf_succ tr m
    · rw [heq] at hl
      obtain ⟨n, hnm, h⟩ := ih hl
      exact ⟨n, hnm.trans m.lt_succ_self, h⟩
    rw [heq] at hl
    obtain hl | ⟨pid, hop, hs⟩ := mem_live_next hl
    · obtain ⟨n, hnm, h⟩ := ih hl
      exact ⟨n, hnm.trans m.lt_succ_self, h⟩
    obtain rfl : op = .acquire slot.plane pid slot.key slot.attempt := hop
    have ha : r = (slotsOf (tr.take m)).serials := (htr.guarded.at_get hm).1
    refine ⟨m, m.lt_succ_self, i, pid, ?_, hs⟩
    rw [hm, ha, ← hs]
    rfl

theorem live_of_live (hn : slot.serial < (slotsOf (tr.take n)).serials) (hnm : n ≤ m)
    (hl : slot ∈ (slotsOf (tr.take m)).live) : slot ∈ (slotsOf (tr.take n)).live := by
  induction m, hnm using Nat.le_induction with
  | base => exact hl
  | succ m hnm ih =>
    obtain heq | ⟨i, op, r, hm, heq⟩ := slotsOf_succ tr m
    · exact ih (heq ▸ hl)
    rw [heq] at hl
    obtain hl | ⟨-, -, hs⟩ := mem_live_next hl
    · exact ih hl
    · have hmo : (slotsOf (tr.take n)).serials ≤ (slotsOf (tr.take m)).serials :=
        serials_mono hnm
      omega

theorem held_of_live (hn : tr[n]? = some ⟨i, kept slot⟩)
    (hs : slot.serial < (slotsOf (tr.take n)).serials) (hnm : n < m)
    (hl : slot ∈ (slotsOf (tr.take m)).live) :
    (slotsOf (tr.take m)).held slot.plane slot.key = some slot := by
  induction m, hnm using Nat.le_induction with
  | base =>
    rw [slotsOf_right hn]
    exact if_pos ⟨rfl, rfl⟩
  | succ m hnm ih =>
    have hb : slot ∈ (slotsOf (tr.take m)).live :=
      live_of_live (hs.trans_le (serials_mono (Nat.le_of_succ_le hnm))) m.le_succ hl
    obtain heq | ⟨_, op, r, hm, heq⟩ := slotsOf_succ tr m
    · rw [heq]
      exact ih hb
    · rw [heq] at hl ⊢
      exact held_next (ih hb) hl

/-! ### Ends -/

variable {tid rid : String} {e : Dhole.Event}

theorem mem_write {s : Store} {t r : String} {es : List Dhole.Event}
    (h : e ∈ (s.write t r es).log tid rid) : e ∈ s.log tid rid ∨ (t = tid ∧ r = rid) ∧ e ∈ es := by
  simp only [Store.write] at h
  split at h
  · rename_i hr
    obtain h | h := Log.mem_appendAll h
    · exact .inl h
    · exact .inr ⟨⟨hr.1.symm, hr.2.symm⟩, h⟩
  · exact .inl h

variable {r : TxRes}

theorem mem_apply {s s' : Store} {t : Tx} {plane : ℕ} {h : List HoldEvent}
    (ht : Permitted plane h ⟨.inl (.inr (.tx t)), r⟩) (ha : t.apply s = some s')
    (hm : e ∈ s'.log tid rid) (he : endsAttempt e.payload = true) :
    e ∈ s.log tid rid ∨ t = .commit tid rid [e] [] := by
  obtain hk | ⟨-, t', r', e', -, hop⟩ := ht
  · cases t with
    | commit t' r' es rows =>
      simp only [Tx.apply] at ha
      split at ha
      · cases ha
      cases ha
      obtain hm | ⟨-, hm⟩ := mem_write hm
      · exact .inl hm
      · exact absurd he (by simp [hk e hm])
    | armTimer t' r' st du at_ =>
      simp only [Tx.apply] at ha
      split at ha <;> cases ha
      · exact .inl hm
      obtain hm | ⟨-, hm⟩ := mem_write hm
      · exact .inl hm
      · cases mem_singleton.mp hm
        cases he
    | requestApproval | decideGate | fireTimer => exact hk.elim
  · cases hop
    simp only [Tx.apply] at ha
    split at ha
    · cases ha
    cases ha
    obtain hold | ⟨⟨rfl, rfl⟩, hn⟩ := mem_write hm
    · exact .inl hold
    · cases mem_singleton.mp hn
      exact .inr rfl

theorem wrote_of_mem_log (htr : Handles handlers tr) (he : endsAttempt e.payload = true)
    (hb : e ∉ logOf (tr.take n) tid rid) (hnm : n ≤ m) (hme : e ∈ logOf (tr.take m) tid rid) :
    ∃ k i r, n ≤ k ∧ tr[k]? = some (⟨i, wrote tid rid e r⟩ : Act holdSig) ∧
      TxRes.landed r = true := by
  induction m, hnm using Nat.le_induction with
  | base => exact absurd hme hb
  | succ m hnm ih =>
    cases hm : tr[m]? with
    | none =>
      rw [take_succ_of_none hm] at hme
      exact ih hme
    | some a =>
      obtain ⟨i, (op | op) | op, r⟩ := a
      · exact ih (by rwa [logOf, state_take_succ hm] at hme)
      · let s : StoreState := (holdWorld.state (tr.take m)).1.2
        have han : storeWorld.Answers s ⟨op, r⟩ := (htr.guarded.at_get hm).1
        have hme : e ∈ (storeWorld.next s ⟨op, r⟩ : StoreState).store.log tid rid := by
          rwa [logOf, state_take_succ hm] at hme
        obtain hs | ⟨t, res, heq, hl, -, ha⟩ := storeNext_cases han
        · rw [hs] at hme
          exact ih hme
        · cases heq
          obtain hme | rfl := mem_apply (htr.guarded.at_get hm).2 ha hme he
          · exact ih hme
          · exact ⟨m, i, _, hnm, hm, hl⟩
      · exact ih (by rwa [logOf, state_take_succ hm] at hme)

/-! ### Giving back -/

def Concerns (h : List HoldEvent) (key : StepKey) (attempt : ℕ) : Prop :=
  (∃ slot, Took h slot ∧ slot.key = key ∧ slot.attempt = attempt) ∨
    ∃ e r, wrote key.tenant key.run e r ∈ h ∧ e.stepID = key.step ∧ e.attempt = attempt ∧
      endsAttempt e.payload = true

def endings : HoldEvent → List (StepKey × ℕ × TxRes)
  | ⟨.inl (.inr (.tx (.commit tenantID runID events _))), r⟩ =>
    if TxRes.landed r then
      (events.filter fun e => endsAttempt e.payload).map fun e =>
        (⟨tenantID, runID, e.stepID⟩, e.attempt, r)
    else []
  | _ => []

def cacheRefused : HoldEvent → Bool
  | ⟨.inl (.inr (.ask (.recordCache ..))), r⟩ => !r
  | _ => false

def leaves : HoldEvent → List Slot
  | ⟨.inr (.hold _ _ slot), _⟩ => [slot]
  | _ => []

/-- The end of an attempt is written, and acknowledged, on the plane that the slots of the
attempt were left with; the cache takes the result of a step; and a plane is left a slot
before the end of its attempt is in the log. -/
def Prompt (handlers : ℕ → Handler) (tr : HoldHistory) (a : Act holdSig) : Prop :=
  (∀ x ∈ endings a.event, x.2.2 = .ok ∧ ∀ slot ∈ (slotsOf tr).live, slot.key = x.1 →
    slot.attempt = x.2.1 → (slotsOf tr).held slot.plane slot.key = some slot →
    slot.plane = (handlers a.actor).cfg.plane) ∧
  cacheRefused a.event = false ∧
  ∀ slot ∈ leaves a.event, ¬ Ended tr slot.key slot.attempt

instance (handlers : ℕ → Handler) (tr : HoldHistory) (a : Act holdSig) :
    Decidable (Prompt handlers tr a) :=
  inferInstanceAs (Decidable (_ ∧ _ ∧ _))

theorem mem_endings (hl : r.landed = true) (he : endsAttempt e.payload = true) :
    (⟨tid, rid, e.stepID⟩, e.attempt, r) ∈ endings (wrote tid rid e r) := by
  simp [endings, wrote, hl, he]

theorem serial_lt_of_took (htr : Handles handlers tr) (ht : Took (own i (tr.take n)) slot) :
    slot.serial < (slotsOf (tr.take n)).serials := by
  obtain ⟨pi, hme⟩ := ht
  obtain ⟨k, hkn, hk⟩ := get_of_mem_own_take hme
  have ha : slot.serial = (slotsOf (tr.take k)).serials := (htr.guarded.at_get hk).1
  have hn : (slotsOf (tr.take (k + 1))).serials = (slotsOf (tr.take k)).serials + 1 :=
    congrArg SlotState.serials (slotsOf_right hk)
  have hm : (slotsOf (tr.take (k + 1))).serials ≤ (slotsOf (tr.take n)).serials :=
    serials_mono hkn
  omega

theorem not_live_of_gaveBack (htr : Handles handlers tr) (hn : tr[n]? = some ⟨i, gaveBack slot⟩)
    (hnm : n < m) : slot ∉ (slotsOf (tr.take m)).live := by
  intro hl
  have hs := serial_lt_of_took htr (htr.guarded.at_get hn).2
  have ha := live_of_live (hs.trans_le (serials_mono n.le_succ)) hnm hl
  rw [slotsOf_right hn] at ha
  exact (mem_giveBack.mp ha).2 rfl

theorem not_live_of_letGo (htr : Handles handlers tr) (hn : tr[n]? = some ⟨i, kept slot⟩) {j k : ℕ}
    (hnk : n < k) (hk : tr[k]? = some ⟨j, letGo slot.plane slot.key⟩) (hkm : k < m) :
    slot ∉ (slotsOf (tr.take m)).live := by
  intro hl
  have hs := serial_lt_of_took htr (htr.guarded.at_get hn).2.2.2.2
  have ha := live_of_live (hs.trans_le (serials_mono (by omega))) hkm hl
  have hb : slot ∈ (slotsOf (tr.take k)).live :=
    live_of_live (hs.trans_le (serials_mono hnk.le)) k.le_succ ha
  rw [slotsOf_right hk] at ha
  exact (mem_giveBack.mp ha).2 (held_of_live hn hs hnk hb)

theorem not_stuck (hpr : Throughout (Prompt handlers) tr) (i : ℕ) : ¬ ∃ e ∈ own i tr, Stuck e := by
  rintro ⟨e, he, hs⟩
  obtain ⟨n, hn⟩ := get_of_mem_own he
  have hp := hpr _ _ _ (eq_take_append hn)
  obtain ⟨(op | op) | op, r⟩ := e
  · exact hs
  · cases op with
    | tx t =>
      cases t with
      | commit t r' es rows =>
        obtain ⟨rfl, e, he, hen⟩ := hs
        have hm : (⟨t, r', e.stepID⟩, e.attempt, TxRes.failed true) ∈
            endings ⟨.inl (.inr (.tx (.commit t r' es rows))), TxRes.failed true⟩ :=
          mem_map.mpr ⟨e, mem_filter.mpr ⟨he, hen⟩, rfl⟩
        cases (hp.1 _ hm).1
      | armTimer | requestApproval | decideGate | fireTimer => exact hs
    | ask q =>
      cases q with
      | recordCache t r' s =>
        obtain rfl : r = false := hs
        cases hp.2.1
      | _ => exact hs
    | _ => exact hs
  · exact hs

theorem letGo_after_wrote (htr : Handles handlers tr) (hp : Throughout (Prompt handlers) tr)
    {j k : ℕ} (hk : tr[k]? = some ⟨j, wrote tid rid e r⟩) (hla : r.landed = true)
    (he : endsAttempt e.payload = true) {res : Except PlaneErr Unit}
    (hr : Returns (handlers j).prog (own j tr) res) : ∃ l, k < l ∧
      tr[l]? = some ⟨j, letGo (handlers j).cfg.plane ⟨tid, rid, e.stepID⟩⟩ := by
  have hf : Finished (handlers j).cfg.plane (own j tr) := by
    simpa using wp_returns (handlers j).finishes hr
  have hg := (hf.1 _ _ _ _ (mem_own_of_get hk) he hla).resolve_left
    (not_stuck hp j)
  obtain ⟨l, hl⟩ := get_of_mem_own hg
  refine ⟨l, ?_, hl⟩
  by_contra hlk
  obtain rfl | hlt := (not_lt.mp hlk).eq_or_lt
  · cases hk.symm.trans hl
  obtain hke | ⟨hn, -⟩ := (htr.guarded.at_get hk).2
  · have hke : endsAttempt e.payload = false := hke e (mem_singleton_self e)
    rw [hke] at he
    cases he
  · exact hn _ (mem_own_of_get ((get_take hlt).trans hl))

/-- In every history in which every end of an attempt is written on the plane that remembers
its slot, after the slot was left there: once the attempt has its end in the log and the
handlers that took a slot for it or wrote its end have finished, no plane holds a slot that
was taken for it. -/
theorem slots_given_back (htr : Handles handlers tr) (hprompt : Throughout (Prompt handlers) tr)
    (hended : Ended tr key att) (hfinished : ∀ i, Concerns (own i tr) key att →
      ∃ r, Returns (handlers i).prog (own i tr) r) :
    ∀ slot ∈ (slotsOf tr).live, slot.key = key → slot.attempt ≠ att := by
  rintro slot hli rfl rfl
  rw [← List.take_length (l := tr)] at hli
  obtain ⟨t, -, i, pi, ht, -⟩ := took_of_live htr hli
  have hto : Took (own i tr) slot := ⟨pi, mem_own_of_get ht⟩
  obtain ⟨r, hr⟩ := hfinished i (.inl ⟨slot, hto, rfl, rfl⟩)
  have hf : Finished (handlers i).cfg.plane (own i tr) := by
    simpa using wp_returns (handlers i).finishes hr
  obtain hg | hke := hf.2 slot hto
  · obtain ⟨n, hn⟩ := get_of_mem_own hg
    exact not_live_of_gaveBack htr hn (List.getElem?_eq_some_iff.mp hn).1 hli
  -- the slot was left with the plane before the end of the attempt was written
  obtain ⟨n, hn⟩ := get_of_mem_own hke
  have hlt := (List.getElem?_eq_some_iff.mp hn).1
  obtain ⟨e, he, hst, ha, hen⟩ := hended
  have hb : e ∉ logOf (tr.take n) slot.key.tenant slot.key.run := fun hm =>
    (hprompt _ _ _ (eq_take_append hn)).2.2 slot (List.mem_singleton_self slot)
      ⟨e, hm, hst, ha, hen⟩
  rw [← take_length (l := tr)] at he
  obtain ⟨k, j, res, hnk, hk, hla⟩ := wrote_of_mem_log htr hen hb hlt.le he
  have hnk : n < k := by
    refine lt_of_le_of_ne hnk ?_
    rintro rfl
    cases hn.symm.trans hk
  -- and that plane is where it was written
  have hs := serial_lt_of_took htr (htr.guarded.at_get hn).2.2.2.2
  have hlv : slot ∈ (slotsOf (tr.take k)).live :=
    live_of_live (hs.trans_le (serials_mono hnk.le))
      (List.getElem?_eq_some_iff.mp hk).1.le hli
  have hky : (⟨slot.key.tenant, slot.key.run, e.stepID⟩ : StepKey) = slot.key := by rw [hst]
  have hpl : slot.plane = (handlers j).cfg.plane := by
    have hp := ((hprompt _ _ _ (eq_take_append hk)).1 _ (mem_endings hla hen)).2
    exact hp slot hlv hky.symm ha.symm (held_of_live hn hs hnk hlv)
  obtain ⟨_, hre⟩ :=
    hfinished j (.inr ⟨e, res, mem_own_of_get hk, hst, ha, hen⟩)
  obtain ⟨l, hkl, hl⟩ := letGo_after_wrote htr hprompt hk hla hen hre
  rw [← hpl, hky] at hl
  exact not_live_of_letGo htr hn (hnk.trans hkl) hl (List.getElem?_eq_some_iff.mp hl).1 hli

/-! ### One step, two planes -/

def holdResolver (env : System.Surroundings) (n : ℕ) (s : holdWorld.State) :
    (op : holdSig.Op) → holdSig.Res op
  | .inl op => env.resolve n s.1 op
  | .inr (.acquire ..) => (s.2 : SlotState).serials
  | .inr (.release _) => ()
  | .inr (.hold ..) => ()
  | .inr (.releaseHold ..) => ()

theorem holdResolver_answers (env : System.Surroundings) (n : ℕ) (s : holdWorld.State)
    (op : holdSig.Op) : holdWorld.Answers s ⟨op, holdResolver env n s op⟩ := by
  obtain op | op := op
  · exact env.resolve_answers n s.1 op
  · cases op <;> first | rfl | trivial

def buildStep : Step := { id := "build", pluginRef := "oci://build", effectClass := .pure }

def buildEngine : Instance where
  state := .ready
  slots := 1
  os := "linux"
  arch := "amd64"
  engineTypes := []
  capabilities := []

def buildKey : StepKey := ⟨"acme", "run", "build"⟩

/-- The run is started and its step dispatched on plane 0; the status that reports its
success is handled on plane `p`. -/
def buildHandlers (p : ℕ) : ℕ → Handler
  | 0 => ⟨{ ttl := 30 }, .startRun "acme" "run" "pipeline" "r1"⟩
  | 1 => ⟨{ ttl := 30 }, .dispatch "acme" "run" buildStep
      { created := true, pipelineID := "pipeline", revisionID := "r1" }⟩
  | _ => ⟨{ ttl := 30, plane := p }, .onStatus (some
      { runID := "run", stepID := "build", attempt := 1, phase := .succeeded,
        fence := .token "acme" ⟨buildKey, 1⟩ })⟩

def handled (p : ℕ) (schedule : List ℕ) : HoldHistory :=
  exec holdWorld (holdResolver { engines := [buildEngine] }) (fun i => (buildHandlers p i).prog)
    schedule

def leftOf (p : ℕ) (schedule : List ℕ) : ℕ → Prog holdSig (Except PlaneErr Unit) :=
  rest holdWorld (holdResolver { engines := [buildEngine] }) (fun i => (buildHandlers p i).prog)
    schedule

theorem handled_handles (p : ℕ) (sch : List ℕ) : Handles (buildHandlers p) (handled p sch) :=
  exec_reach _ _ (holdResolver_answers _) _ _

theorem handled_steps (p : ℕ) (sch : List ℕ) (i : ℕ) :
    Steps (buildHandlers p i).prog (own i (handled p sch)) (leftOf p sch i) :=
  exec_steps holdWorld _ (fun i => (buildHandlers p i).prog) sch i

def inOrder : List ℕ := replicate 2 0 ++ replicate 14 1 ++ replicate 5 2

/-- The status is handled after the dispatch was committed and before its slot is left with
the plane. -/
def overtaken : List ℕ :=
  replicate 2 0 ++ replicate 13 1 ++ replicate 5 2 ++ [1]

theorem own_eq_nil {tr : HoldHistory} {n i : ℕ} (htr : ∀ a ∈ tr, a.actor < n) (hi : n ≤ i) :
    own i tr = [] := by
  rw [own, map_eq_nil_iff, filter_eq_nil_iff]
  intro a ha
  have := htr a ha
  simp
  omega

theorem not_concerns_nil (key : StepKey) (att : ℕ) : ¬ Concerns [] key att := by
  rintro (⟨slot, ⟨_, hm⟩, -⟩ | ⟨_, _, hm, -⟩) <;> exact not_mem_nil hm

theorem handled_finished {p : ℕ} {sch : List ℕ} (ha : ∀ a ∈ handled p sch, a.actor < 3)
    (hl : ∀ i < 3, leftOf p sch i = .ret (.ok ())) (i : ℕ)
    (hi : Concerns (own i (handled p sch)) buildKey 1) :
    ∃ r, Returns (buildHandlers p i).prog (own i (handled p sch)) r := by
  by_cases hlt : i < 3
  · have hs := handled_steps p sch i
    rw [hl i hlt] at hs
    exact ⟨.ok (), hs⟩
  · rw [own_eq_nil ha (not_lt.mp hlt)] at hi
    exact absurd hi (not_concerns_nil _ _)

theorem leftOf_inOrder (p : ℕ) : ∀ i < 3, leftOf p inOrder i = .ret (.ok ()) := by
  intro i hi
  interval_cases i <;> rfl

theorem leftOf_overtaken : ∀ i < 3, leftOf 0 overtaken i = .ret (.ok ()) := by
  intro i hi
  interval_cases i <;> rfl

def buildSlot : Slot := ⟨0, buildKey, 1, 0⟩

theorem inOrder_prompt : Throughout (Prompt (buildHandlers 0)) (handled 0 inOrder) := by
  decide

theorem inOrder_given_back : Ended (handled 0 inOrder) buildKey 1 ∧
    ∀ slot ∈ (slotsOf (handled 0 inOrder)).live, slot.key = buildKey → slot.attempt ≠ 1 :=
  ⟨by decide, slots_given_back (handled_handles _ _) inOrder_prompt (by decide)
    (handled_finished (by decide) (leftOf_inOrder 0))⟩

/-- The success is handled on another plane than the dispatch, or on the same plane before
the slot is left there: the step is over, everyone has finished, and the slot is renewed. -/
theorem buildSlot_not_given_back :
    (Handles (buildHandlers 1) (handled 1 inOrder) ∧ Ended (handled 1 inOrder) buildKey 1 ∧
      (∀ i, Concerns (own i (handled 1 inOrder)) buildKey 1 →
        ∃ r, Returns (buildHandlers 1 i).prog (own i (handled 1 inOrder)) r) ∧
      buildSlot ∈ (slotsOf (handled 1 inOrder)).live) ∧
    Handles (buildHandlers 0) (handled 0 overtaken) ∧ Ended (handled 0 overtaken) buildKey 1 ∧
      (∀ i, Concerns (own i (handled 0 overtaken)) buildKey 1 →
        ∃ r, Returns (buildHandlers 0 i).prog (own i (handled 0 overtaken)) r) ∧
      buildSlot ∈ (slotsOf (handled 0 overtaken)).live := by
  refine ⟨⟨handled_handles _ _, by decide, ?_, by decide⟩, handled_handles _ _, by decide, ?_,
    by decide⟩
  · exact handled_finished (by decide) (leftOf_inOrder 1)
  · exact handled_finished (by decide) leftOf_overtaken

end Dhole.Holds
