import Dhole.Collect

/-! What the retention window protects. A collection judges a run by the age of its last event and
by nothing else: it spares what a run inside the window holds, and a run that has not ended yet but
was silent for longer loses its blobs. The judgement is made before the transaction, so a run that
comes back in between, or on Postgres a reference that is committed after the references were
read, is overlooked. -/

namespace Dhole.Cas

open Interleave Prog Wire Tenancy List

/-- The run has an event that lies in the window now. -/
def InWindow (s : State) (retain : ℤ) (tenantID run : String) : Prop :=
  ∃ e ∈ s.log tenantID run, s.clock - retain ≤ e.at_

instance (s : State) (retain : ℤ) (tenantID run : String) :
    Decidable (InWindow s retain tenantID run) :=
  inferInstanceAs (Decidable (∃ e ∈ s.log tenantID run, s.clock - retain ≤ e.at_))

/-! ### A collection on its own -/

section Alone

variable {c : Setting} {st : Store} {gc : GC} {tenantID tid t run : String} {retain ret : ℤ}
  {h h₀ h₁ : List CasEvent} {e : CasEvent} {ref : Ref} {d : Digest}

theorem ne_append_of_careful {codec : Codec} (he : Careful codec tid ret h e) (t r : String)
    (ev : LogEvent) : e.op ≠ CasOp.append t r ev := by
  obtain ⟨op, res⟩ := e
  rintro rfl
  cases he

variable (halone : Alone (casWorld c st) st.atRest (collect gc tid ret).run h)

include halone

theorem log_after_collect : ((casWorld c st).after st.atRest h).log = st.log := by
  funext t r
  refine World.after_keeps (w := casWorld c st) (I := fun s : State => s.log t r = st.log t r) rfl
    fun h₀ e h₁ heq hl => ?_
  subst heq
  exact (log_next (ne_append_of_careful (halone.at_split wpe_collect).1 t r)).trans hl

theorem clock_le_after_collect {now : ℤ}
    (hn : (⟨.now, now⟩ : CasEvent) ∈ h) : now ≤ ((casWorld c st).after st.atRest h).clock := by
  obtain ⟨h₀, h₁, rfl⟩ := append_of_mem hn
  induction h₁ using reverseRecOn with
  | nil =>
    rw [World.after_snoc]
    exact le_rfl
  | append_singleton h₁ e ih =>
    rw [← cons_append, ← append_assoc] at halone ⊢
    rw [World.after_snoc]
    exact (ih halone.of_append (by simp)).trans
      (clock_le_next (halone.at_split wpe_collect).2)

theorem not_inWindow_of_aged (ha : AgedRun tid ret h run) : st.log tid run ≠ [] ∧
      ¬ InWindow ((casWorld c st).after st.atRest h) ret tid run := by
  obtain ⟨now, es, h₀, h₁, rfl, hn, ha⟩ := ha
  obtain ⟨hne, hold⟩ := aged_iff.mp ha
  have hr : es = ((casWorld c st).after st.atRest h₀).log tid run :=
    (halone.at_split wpe_collect).2
  rw [log_after_collect halone.of_append] at hr
  refine ⟨hr ▸ hne, ?_⟩
  rintro ⟨e, he, hle⟩
  rw [log_after_collect halone, ← hr] at he
  have := hold e he
  have := clock_le_after_collect halone (mem_append_left _ hn)
  omega

omit halone

/-- A reference that stood is read, unless its run was aged and its references dropped. -/
theorem aged_of_deleted {r : casSig.Res (.delete t d)}
    (halone : Alone (casWorld c st) st.atRest (collect gc tid ret).run
      (h₀ ++ ⟨.delete t d, r⟩ :: h₁)) (hre : ref ∈ st.tables.refs) (ht : ref.tenantID = t)
    (hd : digestText (some d) = some ref.digest) : t = tid ∧ AgedRun tid ret h₀ ref.runID := by
  obtain ⟨rfl, tx, expired, co, text, hs, -, hte, hp⟩ :=
    (halone.at_split wpe_collect).1
  refine ⟨rfl, ?_⟩
  by_contra hn
  obtain rfl : text = ref.digest :=
    Option.some.inj ((digestText_of_parse hp).symm.trans hd)
  obtain ⟨refs, hr, he⟩ := hs.read
  obtain ⟨k₀, k₁, rfl⟩ := append_of_mem hr
  have hkept : ref ∈ ((casWorld c st).after st.atRest k₀).tables.refs ∧
      Safe ref ((casWorld c st).after st.atRest k₀) := by
    refine World.after_keeps (w := casWorld c st)
      (I := fun s : State => ref ∈ s.tables.refs ∧ Safe ref s) ⟨hre, by rintro _ _ _ ⟨⟩⟩ ?_
    rintro l₀ e l₁ rfl ⟨hm, hsa⟩
    refine ⟨mem_refs_next hm hsa, hsa.next ?_⟩
    rintro tx' rfl
    -- dropping the references of the run is justified by its age
    have hc := halone
    rw [append_assoc, append_assoc] at hc
    obtain ⟨-, -, ha⟩ := (hc.at_split wpe_collect).1
    refine hn ?_
    rw [append_assoc]
    exact ha.append
  have hr' := halone
  rw [append_assoc] at hr'
  have hro := (hr'.at_split wpe_collect).2.2
  refine hn (hs.aged _ (he _ hte _ ((hro _ _).mpr ?_)))
  rw [← ht]
  exact mem_view hkept.1 hkept.2

/-- A collection deletes no blob of a run that has no age or lies in the window. -/
theorem collect_spares_retained {r : casSig.Res (.delete t d)}
    (halone : Alone (casWorld c st) st.atRest (collect gc tenantID retain).run
      (h₀ ++ ⟨.delete t d, r⟩ :: h₁)) (href : ref ∈ st.tables.refs) (ht : ref.tenantID = t)
    (hd : digestText (some d) = some ref.digest) : st.log t ref.runID ≠ [] ∧
      ¬ InWindow ((casWorld c st).after st.atRest h₀) retain t ref.runID := by
  obtain ⟨rfl, ha⟩ := aged_of_deleted halone href ht hd
  exact not_inWindow_of_aged halone.of_append ha

end Alone

/-! ### A run that waits -/

def plainCodec : Codec := ⟨fun _ => none, fun _ => none⟩

def plainGC : GC := ⟨plainCodec, true, false⟩

def blobA : Digest := ⟨"sha256", "aa"⟩

/-- A gate was reached a hundred hours ago and nobody has decided yet. -/
def waitingRun : Store where
  tables := { refs := [⟨"acme", "sha256:aa", "deploy"⟩] }
  log t r := if t = "acme" ∧ r = "deploy" then [⟨0, false⟩] else []
  blobs := [⟨"acme", blobA, 5⟩]
  clock := 100

def onSQLite : Setting := ⟨.sqlite, fun _ => "aa", fun _ => none⟩

def collecting (c : Setting) (st : Store) (retain : ℤ) (n : ℕ) : List CasEvent :=
  (casWorld c st).solo (honest c 0) n st.atRest (collect plainGC "acme" retain).run

theorem collecting_alone (c : Setting) (st : Store) (ret : ℤ) (n : ℕ) :
    Alone (casWorld c st) st.atRest (collect plainGC "acme" ret).run (collecting c st ret n) :=
  World.solo_alone (honest_answers c 0) n _ _

/-- The collection that deletes it has found its run aged. -/
theorem waiting_run_aged : waitingRun.log "acme" "deploy" ≠ [] ∧
      ¬ InWindow ((casWorld onSQLite waitingRun).after waitingRun.atRest
        (collecting onSQLite waitingRun 24 10)) 24 "acme" "deploy" := by
  have halone : Alone (casWorld onSQLite waitingRun) waitingRun.atRest
      (collect plainGC "acme" 24).run
      (collecting onSQLite waitingRun 24 10 ++ ⟨.delete "acme" blobA, DeleteRes.removed⟩ :: []) :=
    collecting_alone onSQLite waitingRun 24 11
  exact collect_spares_retained halone
    (show (⟨"acme", "sha256:aa", "deploy"⟩ : Ref) ∈ waitingRun.tables.refs by decide) rfl (by decide)

/-- With a window of a day the blob of the waiting run goes. -/
theorem waiting_run_loses_blob : (⟨"acme", "sha256:aa", "deploy"⟩ : Ref) ∈ waitingRun.tables.refs ∧
      (∀ e ∈ waitingRun.log "acme" "deploy", e.terminal = false) ∧
      ∃ h, Alone (casWorld onSQLite waitingRun) waitingRun.atRest
          (collect plainGC "acme" 24).run h ∧
        (⟨.delete "acme" blobA, .removed⟩ : CasEvent) ∈ h := by
  refine ⟨by decide, by decide, collecting onSQLite waitingRun 24 11,
    collecting_alone onSQLite waitingRun 24 11, ?_⟩
  have hl : (collecting onSQLite waitingRun 24 11)[10]? =
      some ⟨.delete "acme" blobA, DeleteRes.removed⟩ := by rfl
  exact mem_of_getElem? hl

/-! ### Collections and references at once -/

def CasOp.outside : CasOp → Bool
  | .now | .put .. | .append .. | .recordEntry _ | .recordFile _ | .saveRevision _ | .abandon _ =>
    true
  | _ => false

inductive Call where
  | collect (gc : GC) (tenantID : String) (retain : ℤ)
  | reference (tenantID : String) (d : Option Digest) (runID : String)
  | other (op : CasOp) (hop : op.outside = true)

def Call.prog : Call → Prog casSig Unit
  | .collect gc tenantID retain => (Cas.collect gc tenantID retain).run >>= fun _ => .ret ()
  | .reference tenantID d runID => (Cas.reference tenantID d runID).run >>= fun _ => .ret ()
  | .other op _ => perform (S := casSig) op >>= fun _ => .ret ()

def Call.Justified : Call → List CasEvent → CasEvent → Prop
  | .collect gc tenantID retain => Careful gc.codec tenantID retain
  | .reference tenantID d runID => Referencing tenantID d runID
  | .other _ _ => fun _ e => CasOp.outside e.op = true

theorem wp_prog (call : Call) : wp call.Justified call.prog (fun _ _ => True) [] := by
  cases call with
  | collect gc tid ret =>
    exact wp_bind.mpr (wp_mono wpe_collect fun _ _ _ => trivial)
  | reference tid d ru =>
    exact wp_bind.mpr (wp_mono wpe_reference fun _ _ _ => trivial)
  | other op hop => exact fun _ => ⟨hop, trivial⟩

section Together

variable {c : Setting} {st : Store} {calls cs : ℕ → Call} {tr : CasHistory} {n m i j k tx : ℕ}
  {t run : String} {ref : Ref} {W : ℤ}

abbrev before (c : Setting) (st : Store) (tr : CasHistory) (n : ℕ) : State :=
  (casWorld c st).state (tr.take n)

abbrev Histories (c : Setting) (st : Store) (calls : ℕ → Call) (tr : CasHistory) : Prop :=
  Guarded (casWorld c st) (fun i => (calls i).Justified) tr

variable (htr : Histories c st cs tr)

include htr

theorem clock_before_le (hnm : n ≤ m) : (before c st tr n).clock ≤ (before c st tr m).clock :=
  htr.ordered (R := fun s s' : State => s.clock ≤ s'.clock) (fun _ => le_rfl)
    (fun _ _ _ => le_trans) (fun _ _ _ _ ha _ => clock_le_next ha) hnm

theorem opened_before_le (hnm : n ≤ m) : (before c st tr n).opened ≤ (before c st tr m).opened :=
  htr.ordered (R := fun s s' : State => s.opened ≤ s'.opened) (fun _ => le_rfl)
    (fun _ _ _ => le_trans) (fun _ _ _ _ _ _ => opened_le_next) hnm

theorem begun_once
    (hn : tr[n]? = some ⟨i, ⟨.begin, some tx⟩⟩) (hm : tr[m]? = some ⟨j, ⟨.begin, some tx⟩⟩) :
    i = j := by
  have hl : ∀ {n m i j : ℕ}, tr[n]? = some ⟨i, ⟨.begin, some tx⟩⟩ →
      tr[m]? = some ⟨j, ⟨.begin, some tx⟩⟩ → ¬ n < m := by
    intro n m i j hn hm hlt
    have hid : tx = (before c st tr n).opened := (htr.at_get hn).1.1
    have hid' : tx = (before c st tr m).opened := (htr.at_get hm).1.1
    have hle := opened_before_le htr hlt
    rw [before, state_take_succ hn] at hle
    change (before c st tr n).opened + 1 ≤ (before c st tr m).opened at hle
    omega
  obtain rfl : n = m := le_antisymm (not_lt.mp (hl hm hn)) (not_lt.mp (hl hn hm))
  rw [hn] at hm
  cases hm
  rfl

omit htr

theorem isOpen_before (hnm : n ≤ m)
    (htx : tx < (before c st tr n).opened) (ho : (before c st tr m).isOpen tx) :
    (before c st tr n).isOpen tx := by
  by_contra hc
  refine absurd ho (state_take_keeps (w := casWorld c st)
    (I := fun s : State => tx < s.opened ∧ ¬ s.isOpen tx = true) hnm ⟨htx, hc⟩ ?_).2
  rintro k a - - - ⟨hlt, hn⟩
  exact ⟨hlt.trans_le opened_le_next, fun hl => hn (isOpen_of_next hlt hl)⟩

theorem isOpen_unique (hd : c.dialect = .sqlite) (htr : Histories c st cs tr)
    {tx' : ℕ} (hop : (before c st tr n).isOpen tx) (hop' : (before c st tr n).isOpen tx') :
    tx = tx' := by
  have hon : ∀ tx tx', (before c st tr n).isOpen tx → (before c st tr n).isOpen tx' → tx = tx' := by
    refine state_take_keeps (w := casWorld c st)
      (I := fun s : State => ∀ tx tx', s.isOpen tx → s.isOpen tx' → tx = tx') (Nat.zero_le n)
      (fun tx tx' h => by cases h) ?_
    rintro k a - - hk hon tx tx' h h'
    by_cases hn : ∃ id, a.event = ⟨.begin, some id⟩
    · obtain ⟨id, ha⟩ := hn
      have han := (htr.at_get hk).1
      rw [ha] at han h h'
      have hc : ∀ other, ((casWorld c st).next (before c st tr k) ⟨.begin, some id⟩).isOpen
          other → other = (before c st tr k).opened := by
        intro other ho
        by_contra hne
        have hs : (before c st tr k).isOpen other := by
          simpa [State.isOpen, next, Function.update_of_ne hne] using ho
        have := han.2 hd other (State.lt_of_isOpen hs)
        simp [hs] at this
      rw [hc tx h, hc tx' h']
    · have hb : ∀ other, (next (before c st tr k) a.event).isOpen other →
          (before c st tr k).isOpen other := by
        intro other ho
        refine isOpen_of_next ?_ ho
        have hlt := State.lt_of_isOpen ho
        obtain ⟨-, -, heq⟩ | ⟨id, heq, -⟩ | ⟨_, _, -, heq⟩ | ⟨_, _, -, heq⟩ :=
          next_cases (before c st tr k) a.event
        · rwa [heq] at hlt
        · exact absurd ⟨id, heq⟩ hn
        · rwa [heq] at hlt
        · rwa [heq] at hlt
      exact hon tx tx' (hb tx h) (hb tx' h')
  exact hon tx tx' hop hop'

def reading (s : State) (us : CasHistory) (t : String) : Bool :=
  us.any fun a =>
    match (a.event.op : CasOp) with
    | .readRefs tx t' => t' = t && s.isOpen tx
    | _ => false

def stillOpen (s : State) (h : List CasEvent) : Bool :=
  h.all fun e =>
    match e with
    | ⟨.begin, some tx⟩ => s.isOpen tx
    | _ => true

/-- No run comes back after it was silent for the whole window; on Postgres no reference is
committed while an open transaction has read the tenant's references; and what deletes a blob
still has its transaction. -/
def Steady (c : Setting) (st : Store) (calls : ℕ → Call) (W : ℤ) (us : CasHistory)
    (a : Act casSig) : Prop :=
  match (a.event.op : CasOp), calls a.actor with
  | .append t r _, _ =>
    ((casWorld c st).state us).log t r = [] ∨ InWindow ((casWorld c st).state us) W t r
  | .commit _, .reference t _ _ =>
    c.dialect = .postgres → reading ((casWorld c st).state us) us t = false
  | .delete .., _ => stillOpen ((casWorld c st).state us) (own a.actor us) = true
  | _, _ => True

instance (c : Setting) (st : Store) (calls : ℕ → Call) (W : ℤ) (us : CasHistory)
    (a : Act casSig) : Decidable (Steady c st calls W us a) := by
  unfold Steady
  split <;> infer_instance

variable (hsteady : Throughout (Steady c st cs W) tr)

include htr hsteady

theorem log_of_aged
    {es : List LogEvent} {now : ℤ} (hk : tr[k]? = some ⟨i, ⟨.replay t run, some es⟩⟩)
    (hn : now ≤ (before c st tr k).clock) (ha : aged (now - W) es = true) (hkn : k ≤ n) :
    (before c st tr n).log t run = es := by
  obtain ⟨hne, hold⟩ := aged_iff.mp ha
  have hr : es = (before c st tr k).log t run := (htr.at_get hk).1
  refine (state_take_keeps (w := casWorld c st)
    (I := fun s : State => s.log t run = es ∧ now ≤ s.clock) hkn ⟨hr.symm, hn⟩ ?_).1
  rintro l a - - hl ⟨hlo, hle⟩
  refine ⟨?_, hle.trans (clock_le_next (htr.at_get hl).1)⟩
  refine (log_next fun ev hop => ?_).trans hlo
  have hf := hsteady _ _ _ (eq_take_append hl)
  simp only [Steady, hop, hlo, hne, false_or] at hf
  obtain ⟨e, he, hin⟩ := hf
  rw [hlo] at he
  have := hold e he
  omega

theorem not_inWindow_of_agedRun
    (ha : AgedRun t W (own i (tr.take n)) run) : ¬ InWindow (before c st tr n) W t run := by
  obtain ⟨now, es, h₀, h₁, ho, hn, ha⟩ := ha
  obtain ⟨k, hkn, hk, ho', -⟩ := own_take_split ho
  rw [← ho'] at hn
  obtain ⟨l, hlk, hl⟩ := get_of_mem_own_take hn
  have hc : now ≤ (before c st tr k).clock := by
    have hle := clock_before_le htr (Nat.succ_le_of_lt hlk)
    rw [before, state_take_succ hl] at hle
    exact hle
  rintro ⟨e, he, hin⟩
  rw [log_of_aged htr hsteady hk hc ha hkn.le] at he
  have := (aged_iff.mp ha).2 e he
  have := clock_before_le htr hkn.le
  omega

theorem not_dropped (hw : ∀ i gc t ret, cs i = .collect gc t ret → ret = W)
    (hin : InWindow (before c st tr n) W t run) (hkn : k < n) {a : Act casSig}
    (hk : tr[k]? = some a) : a.event ≠ ⟨.dropRefs tx t run, true⟩ := by
  intro he
  obtain ⟨i, e⟩ := a
  obtain rfl : e = _ := he
  have hj := (htr.at_get hk).2
  cases hc : cs i with
  | reference | other => simp [hc, Call.Justified, Referencing, CasOp.outside] at hj
  | collect gc t' ret =>
    simp only [hc] at hj
    obtain ⟨rfl, -, ha⟩ := hj
    obtain rfl := hw i gc t ret hc
    have hl : AgedRun t ret (own i (tr.take n)) run := by
      rw [← take_append_drop k (tr.take n), take_take, min_eq_left hkn.le, own_append]
      exact ha.append
    exact not_inWindow_of_agedRun htr hsteady hl hin

variable (hkept : ∀ k < n, ∀ a tx, tr[k]? = some a → a.event ≠ ⟨.dropRefs tx ref.tenantID ref.runID,
  true⟩)

include hkept

omit htr hsteady

theorem safe_before (hmn : m ≤ n) : Safe ref (before c st tr m) := by
  refine state_take_keeps (w := casWorld c st) (Nat.zero_le m)
    (by rintro _ _ _ ⟨⟩) ?_
  rintro k a - hkm hk hs
  exact hs.next fun tx => hkept k (hkm.trans_le hmn) a tx hk

theorem mem_refs_before (hr : ref ∈ (before c st tr k).tables.refs) (hkm : k ≤ m) (hmn : m ≤ n) :
    ref ∈ (before c st tr m).tables.refs := by
  refine state_take_keeps (w := casWorld c st) (I := fun s : State => ref ∈ s.tables.refs) hkm
    hr ?_
  rintro l a - hlm hl hm
  exact mem_refs_next hm (safe_before hkept (hlm.le.trans hmn))

omit hkept

/-- A transaction that was given a reference and is still open is about to commit it. -/
theorem adds_before (htr : Histories c st cs tr)
    (hk : tr[k]? = some ⟨i, ⟨.addRef tx ref, true⟩⟩) (hkm : k < m)
    (ho : (before c st tr m).isOpen tx) :
    ∃ ws, (before c st tr m).txs tx = some ws ∧ .addRef ref ∈ ws := by
  have hb : (before c st tr k).isOpen tx := (htr.at_get hk).1
  have hs : ∃ ws, (before c st tr (k + 1)).txs tx = some ws ∧ .addRef ref ∈ ws := by
    obtain ⟨ws, hws⟩ := Option.isSome_iff_exists.mp hb
    refine ⟨ws ++ [.addRef ref], ?_, by simp⟩
    rw [before, state_take_succ hk]
    change ((before c st tr k).pend tx (.addRef ref)).txs tx = _
    simp [hws]
  refine state_take_keeps (w := casWorld c st)
    (I := fun s : State => ∃ ws, s.txs tx = some ws ∧ .addRef ref ∈ ws) hkm hs ?_
  rintro l a - hlm hl ⟨ws, hws, ha⟩
  refine adds_next hws ha ?_
  have hl' : (before c st tr (l + 1)).isOpen tx := by
    refine isOpen_before hlm ?_ ho
    rw [before, state_take_succ hl]
    have hlt : tx < (before c st tr l).opened := State.lt_of_isOpen (by simp [State.isOpen, hws])
    exact hlt.trans_le opened_le_next
  rwa [before, state_take_succ hl] at hl'

/-- A blob that a committed reference of a run in the window names is not deleted. -/
def ReferenceWins (c : Setting) (st : Store) (calls : ℕ → Call) (tr : CasHistory) : Prop :=
  ∀ m n i j tx gc t d run retain e r, m < n → tr[m]? = some ⟨j, e⟩ → Concludes tx true e →
    calls j = .reference t (some d) run → tr[n]? = some ⟨i, ⟨.delete t d, r⟩⟩ →
    calls i = .collect gc t retain → ¬ InWindow (before c st tr n) retain t run

theorem isOpen_of_concludes {s : State} {e : CasEvent} (he : Concludes tx true e)
    (ha : answers c s e) : s.isOpen tx ∧ next s e = s.conclude tx true := by
  cases he with
  | ok | failed => exact ⟨ha, rfl⟩

theorem not_committed_meanwhile (htr : Histories c st cs tr)
    (hsteady : Throughout (Steady c st cs W) tr) {gc : GC} {t' : String} {ret : ℤ}
    {d : Option Digest} {rows : List (String × String)} {e : CasEvent} {tx' : ℕ}
    (hi : cs i = .collect gc t' ret) (hj : cs j = .reference t d run)
    (hb : (⟨.begin, some tx⟩ : CasEvent) ∈ own i (tr.take n))
    (hk : tr[k]? = some ⟨i, ⟨.readRefs tx t, some rows⟩⟩) (hkm : k < m)
    (hm : tr[m]? = some ⟨j, e⟩) (he : Concludes tx' true e) (hmn : m < n)
    (ho : (before c st tr n).isOpen tx) : False := by
  have hre : (before c st tr k).isOpen tx := (htr.at_get hk).1.1
  have hmi : (before c st tr m).isOpen tx := by
    refine isOpen_before hmn.le ?_ ho
    exact (State.lt_of_isOpen hre).trans_le (opened_before_le htr hkm.le)
  obtain ⟨hc, -⟩ := isOpen_of_concludes he (htr.at_get hm).1
  cases hd : c.dialect with
  | sqlite =>
    obtain rfl := isOpen_unique hd htr hmi hc
    have hju := (htr.at_get hm).2
    simp only [hj] at hju
    have hb' : (⟨.begin, some tx⟩ : CasEvent) ∈ own j (tr.take m) := by
      cases he with
      | ok | failed => exact hju.1
    obtain ⟨l, -, hl⟩ := get_of_mem_own_take hb
    obtain ⟨l', -, hl'⟩ := get_of_mem_own_take hb'
    obtain rfl := begun_once htr hl hl'
    rw [hi] at hj
    cases hj
  | postgres =>
    have hn := hsteady _ _ _ (eq_take_append hm)
    have hq : reading (before c st tr m) (tr.take m) t = false := by
      cases he with
      | ok | failed =>
        simp only [Steady, hj] at hn
        exact hn hd
    have hr : reading (before c st tr m) (tr.take m) t = true := by
      refine any_eq_true.mpr ⟨_, mem_of_getElem? ((get_take hkm).trans hk), ?_⟩
      simp [hmi]
    rw [hq] at hr
    cases hr

/-- Whatever collections, references and others do at once, on either dialect. -/
theorem reference_wins (htr : Reach (casWorld c st) (fun i => (calls i).prog) tr)
    (hwindow : ∀ i gc t retain, calls i = .collect gc t retain → retain = W)
    (hsteady : Throughout (Steady c st calls W) tr) : ReferenceWins c st calls tr := by
  intro m n i j tx gc t d run retain e r hmn hm he hj hn hi hin
  obtain rfl := hwindow i gc t retain hi
  have hg : Histories c st calls tr := htr.guarded fun i => wp_prog (calls i)
  -- what the collection has seen
  have hc := (hg.at_get hn).2
  simp only [hi] at hc
  obtain ⟨-, tx', expired, co, text, hs, -, ht, hp⟩ := hc
  obtain ⟨rows, hro, hep⟩ := hs.read
  obtain ⟨k, hkn, hk⟩ := get_of_mem_own_take hro
  -- the reference that was committed
  have hr := (hg.at_get hm).2
  simp only [hj] at hr
  have ha : ∃ text, digestText (some d) = some text ∧
      (⟨.addRef tx ⟨t, text, run⟩, true⟩ : CasEvent) ∈ own j (tr.take m) := by
    cases he with
    | ok | failed => exact hr.2
  obtain ⟨text', ht', had⟩ := ha
  obtain rfl : text = text' := Option.some.inj ((digestText_of_parse hp).symm.trans ht')
  obtain ⟨l, hlm, hl⟩ := get_of_mem_own_take had
  have hkept : ∀ k < n, ∀ a tx, tr[k]? = some a → a.event ≠ ⟨.dropRefs tx t run, true⟩ :=
    fun k hkn a tx hk => not_dropped hg hsteady hwindow hin hkn hk
  have hco : (⟨t, text, run⟩ : Ref) ∈ (before c st tr (m + 1)).tables.refs := by
    obtain ⟨ho, hnx⟩ := isOpen_of_concludes he (hg.at_get hm).1
    obtain ⟨ws, hws, hme⟩ := adds_before hg hl hlm ho
    rw [before, state_take_succ hm]
    change _ ∈ (next _ _).tables.refs
    rw [hnx]
    exact mem_refs_conclude hws hme (safe_before hkept hmn.le)
  have hla : ¬ k < m := by
    intro hkm
    have hst := hsteady _ _ _ (eq_take_append hn)
    have ho : (before c st tr n).isOpen tx' = true := by
      have := all_eq_true.mp hst _ hs.begun
      exact this
    exact not_committed_meanwhile hg hsteady hi hj hs.begun hk hkm hm he hmn ho
  have hne : m ≠ k := by
    rintro rfl
    rw [hm] at hk
    cases hk
    cases he
  have hv : (text, run) ∈ rows := by
    refine ((hg.at_get hk).1.2 text run).mpr (mem_view ?_ ?_)
    · exact mem_refs_before hkept hco (by omega) hkn.le
    · exact safe_before hkept hkn.le
  exact not_inWindow_of_agedRun hg hsteady (hs.aged _ (hep _ ht _ hv)) hin

end Together

/-! ### A run that comes back -/

def blobB : Digest := ⟨"sha256", "bb"⟩

/-- An old run holds a blob; another blob is stored that nobody holds yet. -/
def returningRun : Store where
  tables := { refs := [⟨"acme", "sha256:bb", "deploy"⟩] }
  log t r :=
    if t = "acme" ∧ r = "deploy" then [⟨0, false⟩]
    else if t = "acme" ∧ r = "build" then [⟨99, false⟩]
    else []
  blobs := [⟨"acme", blobA, 5⟩, ⟨"acme", blobB, 7⟩]
  clock := 100

/-- One collection, one reference by the given run, and an event of the old run. -/
def three (run : String) : ℕ → Call
  | 0 => .collect plainGC "acme" 24
  | 1 => .reference "acme" (some blobA) run
  | _ => .other (.append "acme" "deploy" ⟨100, false⟩) rfl

theorem three_window (run : String) (i : ℕ) (gc : GC) (t : String) (ret : ℤ)
    (h : three run i = .collect gc t ret) : ret = 24 := by
  rcases i with _ | _ | i <;> cases h
  rfl

def threeAt (run : String) (schedule : List ℕ) : CasHistory :=
  exec (casWorld onSQLite returningRun) (honest onSQLite) (fun i => (three run i).prog) schedule

theorem threeAt_reach (run : String) (sch : List ℕ) :
    Reach (casWorld onSQLite returningRun) (fun i => (three run i).prog) (threeAt run sch) :=
  exec_reach _ _ (honest_answers onSQLite) _ _

/-- A reference by a run in the window, and then a collection to its end. -/
theorem build_reference_wins :
    ((threeAt "build" (List.replicate 4 1 ++ List.replicate 14 0)).map fun a =>
        (a.event.op : CasOp)).getLast? = some (.commit 1) ∧
      ReferenceWins onSQLite returningRun (three "build")
        (threeAt "build" (List.replicate 4 1 ++ List.replicate 14 0)) :=
  ⟨by decide +kernel, reference_wins (threeAt_reach _ _) (three_window _) (by decide +kernel)⟩

/-- The old run is aged, comes back and references the other blob, which is then deleted. -/
theorem deploy_reference_loses :
    Reach (casWorld onSQLite returningRun) (fun i => (three "deploy" i).prog)
        (threeAt "deploy" ([0, 0, 0, 2, 1, 1, 1, 1] ++ List.replicate 9 0)) ∧
      ¬ ReferenceWins onSQLite returningRun (three "deploy")
        (threeAt "deploy" ([0, 0, 0, 2, 1, 1, 1, 1] ++ List.replicate 9 0)) := by
  refine ⟨threeAt_reach _ _, fun hw => ?_⟩
  refine hw 7 16 0 1 0 plainGC "acme" blobA "deploy" 24 ⟨.commit 0, CommitRes.ok⟩ .removed
    (by decide) ?_ .ok rfl ?_ rfl ?_
  · rfl
  · rfl
  · decide +kernel

end Dhole.Cas
