import Dhole.Holds
import Dhole.Judgements

/-! What a handler owes, read off its own calls. A slot it took it has given back or left with
its plane, and after it wrote the end of an attempt it has asked its plane for the slot of the
step. Most of what a handler does on the plane ends no attempt, which is all that has to be
known of it. -/

namespace Dhole.Holds

open Interleave Prog Plane Lease Scheduler List

def endsAttempt : Payload → Bool
  | .stepSucceeded _ | .stepFailed | .stepAttemptLost _ => true
  | _ => false

/-! ### Programs that end no attempt -/

def keeps : planeSig.Op → Prop
  | .inr (.tx (.commit _ _ events _)) => ∀ e ∈ events, endsAttempt e.payload = false
  | .inr (.tx (.armTimer ..)) => True
  | .inr (.tx _) => False
  | _ => True

abbrev Keeps {ε α : Type} (x : ExceptT ε PlaneProg α) : Prop := OnlyCalls keeps x

variable {α : Type} {cfg : Config} {tid rid sid : String} {sta : RunState}
  {step : Step} {att : ℕ} {pa : Payload}

@[grind ←] theorem keeps_reads : System.Reads keeps :=
  ⟨fun _ => trivial, fun _ => trivial, fun _ _ => trivial⟩

@[grind ←] theorem keeps_append (h : endsAttempt pa = false) :
    Keeps (append tid rid sid att pa) := by
  have htx : ∀ at_, keeps (.inr (.tx (.commit tid rid
      [{ stepID := sid, attempt := att, payload := pa, at_ }] []))) := by simp [keeps, h]
  unfold Scheduler.append
  grind

@[grind ←] theorem keeps_recordUnschedulable {why : String} :
    Keeps (recordUnschedulable tid rid sid why sta) := by
  unfold recordUnschedulable
  grind [endsAttempt]

@[grind ←] theorem keeps_armGate : Keeps (armGate cfg tid rid step) := by
  have htx : ∀ dueAt at_, keeps (.inr (.tx (.armTimer tid rid step.id dueAt at_))) :=
    fun _ _ => trivial
  unfold armGate
  grind

@[grind ←] theorem keeps_refuseSecrets : Keeps (refuseSecrets cfg tid rid step) := by
  have hr : Keeps (refuse tid rid step .stepSecretUnavailable) := by
    unfold refuse fail
    grind [endsAttempt]
  unfold refuseSecrets
  grind

@[grind ←] theorem keeps_commitDispatch {tok : Token} {offeredAt : ℤ} :
    Keeps (commitDispatch cfg tid rid step att tok offeredAt) := by
  have htx : ∀ at_, keeps (.inr (.tx (.commit tid rid
      [{ stepID := step.id, attempt := att, at_, payload := .stepDispatched { fence := tok.fence } }]
      [jobDispatch cfg tid rid step att tok]))) := by simp [keeps, endsAttempt]
  unfold commitDispatch commitUnder
  grind

/-! ### What a handler owes -/

def tookSlot (pipelineID : String) (slot : Slot) : HoldEvent :=
  ⟨.inr (.acquire slot.plane pipelineID slot.key slot.attempt), slot.serial⟩

def gaveBack (slot : Slot) : HoldEvent := ⟨.inr (.release slot), ()⟩

def kept (slot : Slot) : HoldEvent := ⟨.inr (.hold slot.plane slot.key slot), ()⟩

def letGo (plane : ℕ) (key : StepKey) : HoldEvent := ⟨.inr (.releaseHold plane key), ()⟩

def wrote (tenantID runID : String) (e : Dhole.Event) (r : TxRes) : HoldEvent :=
  ⟨.inl (.inr (.tx (.commit tenantID runID [e] []))), r⟩

def takes : HoldEvent → Prop
  | ⟨.inr (.acquire ..), _⟩ => True
  | _ => False

def Took (h : List HoldEvent) (slot : Slot) : Prop := ∃ pipelineID, tookSlot pipelineID slot ∈ h

/-- An end of an attempt is written before the handler asks its plane for a slot, a slot that
is given back was taken, and what a plane is given to remember is a slot the handler took
there, for the step it is held under. -/
def Permitted (plane : ℕ) (h : List HoldEvent) : HoldEvent → Prop
  | ⟨.inl op, _⟩ => keeps op ∨ (∀ key, letGo plane key ∉ h) ∧
      ∃ tenantID runID e, endsAttempt e.payload = true ∧
        op = .inr (.tx (.commit tenantID runID [e] []))
  | ⟨.inr (.release slot), _⟩ => Took h slot
  | ⟨.inr (.hold p key slot), _⟩ =>
    p = plane ∧ slot.plane = plane ∧ slot.key = key ∧ Took h slot
  | _ => True

/-- The end of an attempt that was written but not acknowledged, or the result of a step that
the cache did not take: the handler stops there. -/
def Stuck : HoldEvent → Prop
  | ⟨.inl (.inr (.tx (.commit _ _ events _))), r⟩ =>
    r = TxRes.failed true ∧ ∃ e ∈ events, endsAttempt e.payload = true
  | ⟨.inl (.inr (.ask (.recordCache ..))), r⟩ => r = false
  | _ => False

/-- After an end that it wrote the handler has asked its plane for the slot of the step. -/
def Settled (plane : ℕ) (h : List HoldEvent) : Prop :=
  ∀ tenantID runID e r, wrote tenantID runID e r ∈ h → endsAttempt e.payload = true →
    TxRes.landed r = true → (∃ s ∈ h, Stuck s) ∨ letGo plane ⟨tenantID, runID, e.stepID⟩ ∈ h

def Unended (h : List HoldEvent) : Prop :=
  (∀ plane key, letGo plane key ∉ h) ∧
    ∀ tenantID runID e r, endsAttempt e.payload = true → wrote tenantID runID e r ∉ h

def EndedOnly (key : StepKey) (h : List HoldEvent) : Prop :=
  ∀ tenantID runID e r, wrote tenantID runID e r ∈ h → endsAttempt e.payload = true →
    ⟨tenantID, runID, e.stepID⟩ = key

/-- A program came to an end of the step's attempt and goes on, or stopped with nothing owed;
it has taken no slot. -/
def Ending {α : Type} (plane : ℕ) (key : StepKey) (h g : List HoldEvent) :
    Except PlaneErr α → Prop
  | .ok _ => EndedOnly key g ∧ ∀ slot, Took g slot → Took h slot
  | .error _ => Settled plane g ∧ ∀ slot, Took g slot → Took h slot

/-- The handler has settled and has taken no slot since. -/
def Done (plane : ℕ) (h g : List HoldEvent) : Prop :=
  Settled plane g ∧ ∀ slot, Took g slot → Took h slot

/-- Every slot that was taken was given back or left with its plane. -/
def Finished (plane : ℕ) (h : List HoldEvent) : Prop :=
  Settled plane h ∧ ∀ slot, Took h slot → gaveBack slot ∈ h ∨ kept slot ∈ h

def quiet : holdSig.Op → Prop := Sum.elim keeps fun _ => False

variable {pl : ℕ} {key : StepKey} {h g : List HoldEvent}

theorem Unended.settled (hh : Unended h) : Settled pl h :=
  fun _ _ _ _ hm he _ => absurd hm (hh.2 _ _ _ _ he)

theorem Unended.done (hh : Unended h) : Done pl h h := ⟨hh.settled, fun _ => id⟩

theorem not_wrote_of_quiet (hg : ∀ e ∈ g, quiet e.op) {tid rid : String}
    {e : Dhole.Event} {r : TxRes} (hm : wrote tid rid e r ∈ g) : endsAttempt e.payload = false := by
  have hk : keeps (.inr (.tx (.commit tid rid [e] []))) := hg _ hm
  exact hk e (mem_singleton_self e)

theorem Unended.append (hh : Unended h) (hg : ∀ e ∈ g, quiet e.op) : Unended (h ++ g) := by
  refine ⟨fun pl key hm => ?_, fun tid rid e r he hm => ?_⟩
  · obtain hm | hm := mem_append.mp hm
    · exact hh.1 pl key hm
    · exact hg _ hm
  · obtain hm | hm := mem_append.mp hm
    · exact hh.2 _ _ _ _ he hm
    · exact absurd he (by simpa using not_wrote_of_quiet hg hm)

theorem not_takes_of_quiet {e : HoldEvent} (h : quiet e.op) : ¬ takes e := by
  obtain ⟨op | op, r⟩ := e
  · exact id
  · exact h.elim

theorem took_append (hg : ∀ e ∈ g, ¬ takes e) {slot : Slot} (ht : Took (h ++ g) slot) :
    Took h slot := by
  obtain ⟨pi, hm⟩ := ht
  obtain hm | hm := mem_append.mp hm
  · exact ⟨pi, hm⟩
  · exact absurd trivial (hg _ hm)

theorem tookSlot_inj {p q : String} {slot other : Slot} (heq : tookSlot p slot = tookSlot q other) :
    slot = other := by
  obtain ⟨pl', key', at', se'⟩ := other
  cases heq
  rfl

theorem Unended.took (hh : Unended h) (pid : String) (slot : Slot) :
    Unended (h ++ [tookSlot pid slot]) := by
  refine ⟨fun pl key hm => ?_, fun tid rid e r he hm => ?_⟩
  · obtain hm | hm := mem_append.mp hm
    · exact hh.1 pl key hm
    · cases mem_singleton.mp hm
  · obtain hm | hm := mem_append.mp hm
    · exact hh.2 _ _ _ _ he hm
    · cases mem_singleton.mp hm

theorem EndedOnly.append (hh : EndedOnly key h) (hg : ∀ e ∈ g, quiet e.op) :
    EndedOnly key (h ++ g) := by
  intro tid rid e r hm he
  obtain hm | hm := mem_append.mp hm
  · exact hh _ _ _ _ hm he
  · exact absurd he (by simpa using not_wrote_of_quiet hg hm)

theorem EndedOnly.settled (hg : EndedOnly key g) : Settled pl (g ++ [letGo pl key]) := by
  intro tid rid e r hm he _
  obtain hm | hm := mem_append.mp hm
  · rw [hg _ _ _ _ hm he]
    exact .inr (by simp)
  · cases mem_singleton.mp hm

/-! ### What each handler does -/

variable {β : Type}

theorem permitted_of_quiet (g : List HoldEvent) (e : HoldEvent) (he : quiet e.op) :
    Permitted pl g e := by
  obtain ⟨op | op, r⟩ := e
  · exact .inl he
  · exact he.elim

variable {x : PlaneM α}

theorem wp_onPlane {Q : List HoldEvent → Except PlaneErr α → Prop} (hx : Keeps x)
    (hQ : ∀ g, (∀ e ∈ g, quiet e.op) → ∀ r, Q (h ++ g) r) :
    wp (Permitted pl) (onPlane x).run Q h := by
  have ho : (onPlane x).run.Only quiet := Prog.Only.sum_inl hx
  refine wp_mono (wp_appended_of_only permitted_of_quiet ho h) ?_
  rintro _ r ⟨g, hg, hq⟩
  rw [hg]
  exact hQ g hq r

theorem Unended.done_append (hh : Unended h) (hg : ∀ e ∈ g, quiet e.op) : Done pl h (h ++ g) :=
  ⟨(hh.append hg).settled, fun _ => took_append fun e he => not_takes_of_quiet (hg e he)⟩

variable {l : List HoldEvent}

theorem Done.trans (hg : ∀ e ∈ g, quiet e.op) (hd : Done pl (h ++ g) l) : Done pl h l :=
  ⟨hd.1, fun slot ht =>
    took_append (fun e he => not_takes_of_quiet (hg e he)) (hd.2 slot ht)⟩

/-- The program takes no slot and settles what it ends. -/
def Settles (plane : ℕ) (x : HoldM α) : Prop :=
  ∀ h, Unended h → wp (Permitted plane) x.run (fun g _ => Done plane h g) h

variable {f : α → HoldM β}

@[grind ←] theorem Settles.pure (a : α) : Settles pl (pure a) := fun _ hh => hh.done

@[grind ←] theorem Settles.throw (e : PlaneErr) : Settles pl (throw e : HoldM α) :=
  fun _ hh => hh.done

@[grind ←] theorem Settles.onPlane (hx : Keeps x) : Settles pl (onPlane x) :=
  fun _ hh => wp_onPlane hx fun _ hg _ => hh.done_append hg

@[grind ←] theorem Settles.after (hx : Keeps x) (hf : ∀ a, Settles pl (f a)) :
    Settles pl (Holds.onPlane x >>= f) := by
  refine fun h hh => wp_run_bind.mpr (wp_onPlane hx fun g hg r => ?_)
  cases r with
  | ok a => exact wp_mono (hf a (h ++ g) (hh.append hg)) fun l _ hd => .trans hg hd
  | error e => exact hh.done_append hg

theorem Settles.replace {x : HoldM α} (hx : Settles pl x) (b : β) :
    Settles pl (x >>= fun _ => Pure.pure b) := by
  refine fun h hh => wp_run_bind.mpr (wp_mono (hx h hh) ?_)
  rintro g (_ | _) hd <;> exact hd

theorem Done.letGo (he : EndedOnly key l) (hto : ∀ slot, Took l slot → Took h slot) :
    Done pl h (l ++ [letGo pl key]) :=
  ⟨he.settled, fun slot ht => hto slot (took_append (forall_mem_singleton.mpr id) ht)⟩

theorem wp_append_end (hh : Unended h) : wp (Permitted pl) (onPlane (append tid rid sid att pa)).run
      (Ending pl ⟨tid, rid, sid⟩ h) h := by
  intro at_
  refine ⟨.inl trivial, fun r => ?_⟩
  let asked : HoldEvent := ⟨.inl (.inr (.ask .now)), at_⟩
  let ended : Dhole.Event := { stepID := sid, attempt := att, payload := pa, at_ }
  have ha : Unended (h ++ [asked]) := hh.append (forall_mem_singleton.mpr trivial)
  refine ⟨?_, ?_⟩
  · by_cases hen : endsAttempt pa = true
    · exact .inr ⟨fun key => ha.1 _ key, tid, rid, ended, hen, rfl⟩
    · exact .inl (by simpa [keeps] using hen)
  have hto : ∀ slot, Took (h ++ [asked] ++ [wrote tid rid ended r]) slot → Took h slot :=
    fun slot ht => took_append (forall_mem_cons.mpr ⟨id, forall_mem_singleton.mpr id⟩)
      (append_assoc h _ _ ▸ ht)
  have he : ∀ t r' e r'', wrote t r' e r'' ∈ h ++ [asked] ++ [wrote tid rid ended r] →
      endsAttempt e.payload = true → wrote t r' e r'' = wrote tid rid ended r := by
    intro t r' e r'' hm hen
    obtain hm | hm := mem_append.mp hm
    · exact absurd hm (ha.2 _ _ _ _ hen)
    · exact mem_singleton.mp hm
  cases (r : TxRes) with
  | ok =>
    refine ⟨fun t r' e r'' hm hen => ?_, hto⟩
    cases he _ _ _ _ hm hen
    rfl
  | refused =>
    refine ⟨fun t r' e r'' hm hen hl => ?_, hto⟩
    cases he _ _ _ _ hm hen
    cases hl
  | failed landed =>
    refine ⟨fun t r' e r'' hm hen hl => ?_, hto⟩
    cases he _ _ _ _ hm hen
    cases landed with
    | false => cases hl
    | true => exact .inl ⟨_, hm, rfl, ended, by simp, hen⟩

variable {st : JobStatus}

@[grind ←] theorem settles_recordOrphan {orphan : Orphan} :
    Settles cfg.plane (recordOrphan cfg orphan) := by
  have he : Settles cfg.plane (do
      onPlane (append orphan.tenantID orphan.runID orphan.stepID orphan.attempt
        (.stepAttemptLost orphan.fence))
      releaseHold cfg.plane ⟨orphan.tenantID, orphan.runID, orphan.stepID⟩
      Pure.pure true) := by
    refine fun h hh => wp_run_bind.mpr (wp_mono (wp_append_end hh) ?_)
    rintro l (_ | _) he
    · exact he
    · exact fun _ => ⟨trivial, .letGo he.1 he.2⟩
  unfold recordOrphan
  grind

@[grind ←] theorem settles_recordFencedOut {current : ℕ} :
    Settles cfg.plane (recordFencedOut cfg tid rid sid current sta) := by
  have ho : ∀ orphan, Settles cfg.plane
      (recordOrphan cfg orphan >>= fun _ => (Pure.pure () : HoldM Unit)) :=
    fun orphan => settles_recordOrphan.replace ()
  unfold recordFencedOut
  grind

@[grind ←] theorem settles_dispatchOffered {tok : Token} {offeredAt : ℤ} :
    Settles cfg.plane (dispatchOffered cfg tid rid step att tok offeredAt) := by
  have hf : ∀ sta, Settles cfg.plane
      (recordFencedOut cfg tid rid step.id tok.fence sta >>=
        fun _ => (Pure.pure false : HoldM Bool)) :=
    fun sta => settles_recordFencedOut.replace false
  unfold dispatchOffered
  grind

@[grind ←] theorem settles_dispatchAdmitted :
    Settles cfg.plane (dispatchAdmitted cfg tid rid step att) := by
  unfold dispatchAdmitted
  grind

theorem wp_recordCacheEntry (he : EndedOnly key h) :
    wp (Permitted pl) (onPlane (recordCacheEntry cfg tid st sta)).run (Ending pl key h) h := by
  unfold recordCacheEntry
  split
  · exact ⟨he, fun _ => id⟩
  intro taken
  refine ⟨.inl trivial, ?_⟩
  let asked : HoldEvent := ⟨.inl (.inr (.ask (.recordCache tid st.runID st.stepID))), taken⟩
  have hto : ∀ slot, Took (h ++ [asked]) slot → Took h slot :=
    fun slot ht => took_append (forall_mem_singleton.mpr id) ht
  cases (taken : Bool) with
  | true => exact ⟨he.append (forall_mem_singleton.mpr trivial), hto⟩
  | false => exact ⟨fun _ _ _ _ _ _ _ => .inl ⟨asked, by simp [asked], rfl⟩, hto⟩

theorem settles_releaseHold : Settles pl (liftM (releaseHold pl key) : HoldM Unit) := by
  refine fun h hh _ => ⟨trivial, ?_⟩
  exact .letGo (fun _ _ _ _ hm he => absurd hm (hh.2 _ _ _ _ he)) fun _ => id

theorem settles_settleStatus : Settles cfg.plane (settleStatus cfg tid st pa) := by
  refine Settles.after (System.only_load keeps_reads) fun sta => ?_
  split
  · exact settles_releaseHold
  refine fun h hh => wp_run_bind.mpr (wp_mono (wp_append_end hh) ?_)
  rintro l (_ | _) he
  · exact he
  dsimp only
  split
  · refine wp_run_bind.mpr (wp_mono (wp_recordCacheEntry he.1) ?_)
    rintro g (_ | _) hc
    · exact ⟨hc.1, fun slot ht => he.2 slot (hc.2 slot ht)⟩
    · exact fun _ => ⟨trivial, .letGo hc.1 fun slot ht => he.2 slot (hc.2 slot ht)⟩
  · exact fun _ => ⟨trivial, .letGo he.1 he.2⟩

theorem settles_onStatus {st : Option JobStatus} : Settles cfg.plane (onStatus cfg st) := by
  unfold onStatus
  split
  · exact .throw _
  rename_i st
  split
  · exact .throw _
  rename_i tid tok _
  split
  · exact .throw _
  have hs : ∀ pa, Settles cfg.plane (settleStatus cfg tid st pa) :=
    fun _ => settles_settleStatus
  grind

theorem Done.finished (hd : Done pl h g) (hn : ∀ slot, ¬ Took h slot) : Finished pl g :=
  ⟨hd.1, fun slot ht => absurd (hd.2 slot ht) (hn slot)⟩

theorem Done.finished_snoc {pid : String} {slot : Slot} {e : HoldEvent}
    (hd : Done pl (h ++ [tookSlot pid slot]) g) (hn : ∀ slot, ¬ Took h slot)
    (he : e = gaveBack slot ∨ e = kept slot) : Finished pl (g ++ [e]) := by
  have hno : ¬ takes e := by
    rcases he with rfl | rfl <;> exact id
  refine ⟨fun tid rid end_ r hm hen hl => ?_, fun taken ht => ?_⟩
  · have hm : wrote tid rid end_ r ∈ g := by
      obtain hm | hm := mem_append.mp hm
      · exact hm
      · rcases he with rfl | rfl <;> cases mem_singleton.mp hm
    obtain ⟨s, hs, hst⟩ | hg := hd.1 _ _ _ _ hm hen hl
    · exact .inl ⟨s, mem_append_left _ hs, hst⟩
    · exact .inr (mem_append_left _ hg)
  · obtain ⟨pipeline, hm⟩ := hd.2 taken (took_append (forall_mem_singleton.mpr hno) ht)
    obtain hm | hm := mem_append.mp hm
    · exact absurd ⟨pipeline, hm⟩ (hn taken)
    · obtain rfl : taken = slot := tookSlot_inj (mem_singleton.mp hm)
      rcases he with rfl | rfl
      · exact .inl (by simp)
      · exact .inr (by simp)

/-- Started with nothing owed, the program ends so that it owes nothing. -/
def Finishes (plane : ℕ) (x : HoldM α) : Prop :=
  ∀ h, Unended h → (∀ slot, ¬ Took h slot) →
    wp (Permitted plane) x.run (fun g _ => Finished plane g) h

theorem Settles.finishes {x : HoldM α} (hx : Settles pl x) : Finishes pl x :=
  fun h hh hn => wp_mono (hx h hh) fun _ _ hd => hd.finished hn

theorem Finishes.after (hx : Keeps x) (hf : ∀ a, Finishes pl (f a)) :
    Finishes pl (onPlane x >>= f) := by
  refine fun h hh hn => wp_run_bind.mpr (wp_onPlane hx fun g hg r => ?_)
  have hd : Done pl h (h ++ g) := hh.done_append hg
  cases r with
  | ok a => exact hf a _ (hh.append hg) fun slot ht => hn slot (hd.2 slot ht)
  | error e => exact hd.finished hn

theorem finishes_offerStep : Finishes cfg.plane (offerStep cfg tid rid step sta) := by
  refine Finishes.after (OnlyCalls.lift (System.only_askAdmit keeps_reads)) fun answer => ?_
  split
  · exact (Settles.throw _).finishes
  · exact (Settles.onPlane keeps_recordUnschedulable).finishes
  refine fun h hh hn serial => ⟨trivial, ?_⟩
  let slot : Slot := ⟨cfg.plane, ⟨tid, rid, step.id⟩, sta.attempts step.id + 1, serial⟩
  let h' := h ++ [tookSlot sta.pipelineID slot]
  refine wp_run_lift_bind.mpr (wp_mono (settles_dispatchAdmitted h' (hh.took _ _)) ?_)
  intro l r hl
  have ht : Took (h' ++ l) slot := ⟨sta.pipelineID, by simp [h']⟩
  have hla : ∀ e, e = gaveBack slot ∨ e = kept slot → Finished cfg.plane (h' ++ l ++ [e]) :=
    fun e he => hl.finished_snoc hn he
  rcases r with e | _ | _
  · exact fun _ => ⟨ht, hla _ (.inl rfl)⟩
  · exact fun _ => ⟨ht, hla _ (.inl rfl)⟩
  · exact fun _ => ⟨⟨rfl, rfl, rfl, ht⟩, hla _ (.inr rfl)⟩

theorem finishes_dispatch : Finishes cfg.plane (dispatch cfg tid rid step sta) := by
  refine Finishes.after keeps_armGate fun ar => ?_
  split
  · exact (Settles.pure _).finishes
  refine Finishes.after keeps_refuseSecrets fun refused => ?_
  split
  · exact (Settles.pure _).finishes
  refine Finishes.after (System.only_instances keeps_reads) fun en => ?_
  dsimp only
  split
  · exact (Settles.onPlane keeps_recordUnschedulable).finishes
  · exact finishes_offerStep

theorem Handler.finishes (handler : Handler) :
    wp (Permitted handler.cfg.plane) handler.prog (fun g _ => Finished handler.cfg.plane g) [] := by
  have hs : Unended [] := ⟨fun _ _ => not_mem_nil, fun _ _ _ _ _ => not_mem_nil⟩
  have hn : ∀ slot, ¬ Took [] slot := by
    rintro slot ⟨pi, hm⟩
    exact not_mem_nil hm
  unfold Handler.prog
  split
  · exact (Settles.onPlane (keeps_append rfl)).finishes [] hs hn
  · exact finishes_dispatch [] hs hn
  · exact settles_onStatus.finishes [] hs hn
  · exact (settles_recordOrphan.replace ()).finishes [] hs hn

end Dhole.Holds
