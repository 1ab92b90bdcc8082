import Dhole.Retention

/-! Where a collection may be stopped. It deletes blobs while its transaction is open, and the rows
that name them go only when that is committed. So it is consistent before the first deletion and
after the commit; in between, and for ever if the commit never comes, the rows of what it deleted
stand. -/

namespace Dhole.Cas

open Interleave Prog Wire Tenancy List

/-! ### What a transaction sees of its own changes -/

variable {s : State} {e : CasEvent} {tx : ℕ} {g : List CasEvent} {c : Setting} {st : Store}

/-- Calls by which others write to the tables. -/
def CasOp.records : CasOp → Bool
  | .recordEntry _ | .recordFile _ | .saveRevision _ => true
  | _ => false

theorem tables_next (hc : ∀ tx, ¬ Concludes tx true e)
    (hr : CasOp.records e.op = false) : (next s e).tables = s.tables := by
  obtain ⟨op, r⟩ := e
  cases op with
  | recordEntry | recordFile | saveRevision => cases hr
  | put t co =>
    rcases (r : PutRes) with d | (_ | d)
    · simp only [next, State.store]
      split <;> rfl
    · rfl
    · simp only [next, State.store]
      split <;> rfl
  | commit tx =>
    rcases (r : CommitRes) with _ | (_ | _)
    · exact absurd .ok (hc tx)
    · rfl
    · exact absurd (.failed true) (hc tx)
  | begin => rcases (r : Option ℕ) with _ | _ <;> rfl
  | addRef | dropRefs | dropEntry | dropFile => rcases (r : Bool) with _ | _ <;> rfl
  | delete => rcases (r : DeleteRes) with _ | _ | (_ | _) <;> rfl
  | insertUsage => rcases (r : InsertRes) with _ | ⟨_ | _, _⟩ <;> rfl
  | _ => rfl

theorem view_pend (ho : s.isOpen tx) (w : Write) : (s.pend tx w).view tx = (s.view tx).apply w := by
  obtain ⟨ws, hws⟩ := Option.isSome_iff_exists.mp ho
  rw [State.view, State.view, State.pend_txs, hws]
  simp [State.pend]

theorem view_next (ht : (next s e).tables = s.tables) (ho : s.isOpen tx)
    (ho' : (next s e).isOpen tx) : (next s e).view tx = s.view tx ∨
      ∃ w, Pends s tx w e ∧ (next s e).view tx = (s.view tx).apply w := by
  have hlt := State.lt_of_isOpen ho
  obtain ⟨-, heq, -⟩ | ⟨_, -, heq⟩ | ⟨tx', w, hp, heq⟩ | ⟨tx', _, -, heq⟩ := next_cases s e
  · exact .inl (by rw [State.view, State.view, ht, heq])
  · refine .inl ?_
    rw [State.view, State.view, ht, heq, State.begin_txs, Function.update_of_ne hlt.ne]
  · by_cases hne : tx = tx'
    · subst hne
      exact .inr ⟨w, hp, by rw [heq, view_pend ho]⟩
    · refine .inl ?_
      rw [State.view, State.view, ht, heq, State.pend_txs, Function.update_of_ne hne]
  · by_cases hne : tx = tx'
    · subst hne
      rw [heq] at ho'
      simp [State.isOpen] at ho'
    · refine .inl ?_
      rw [State.view, State.view, ht, heq, State.conclude_txs, Function.update_of_ne hne]

theorem apply_shrinks {t : Tables} {w : Write} (hw : ∀ ref, w ≠ .addRef ref) :
    (t.apply w).refs ⊆ t.refs ∧ (t.apply w).entries ⊆ t.entries := by
  cases w with
  | addRef ref => exact absurd rfl (hw ref)
  | dropRefs rows => exact ⟨fun _ => mem_of_mem_filter, Subset.refl _⟩
  | dropEntries rows => exact ⟨Subset.refl _, fun _ => mem_of_mem_filter⟩
  | dropFiles rows => exact ⟨Subset.refl _, Subset.refl _⟩

/-- The transaction stays open, adds nothing, and nothing is committed. -/
def Working (tx : ℕ) : State → List CasEvent → Prop
  | s, [] => s.isOpen tx
  | s, e :: g => s.isOpen tx ∧ (next s e).tables = s.tables ∧
      (∀ tx ref, e.op ≠ CasOp.addRef tx ref) ∧ Working tx (next s e) g

theorem Working.isOpen (h : Working tx s g) : s.isOpen tx := by
  cases g with
  | nil => exact h
  | cons e g => exact h.1

theorem view_step_shrinks (ht : (next s e).tables = s.tables) (ho : s.isOpen tx)
    (ho' : (next s e).isOpen tx) (ha : ∀ tx ref, e.op ≠ CasOp.addRef tx ref) :
    ((next s e).view tx).refs ⊆ (s.view tx).refs ∧
      ((next s e).view tx).entries ⊆ (s.view tx).entries := by
  obtain heq | ⟨w, hp, heq⟩ := view_next ht ho ho'
  · rw [heq]
    exact ⟨Subset.refl _, Subset.refl _⟩
  · rw [heq]
    refine apply_shrinks ?_
    rintro ref rfl
    cases hp
    exact ha tx ref rfl

theorem Working.shrinks (h : Working tx s g) : ((g.foldl next s).view tx).refs ⊆ (s.view tx).refs ∧
      ((g.foldl next s).view tx).entries ⊆ (s.view tx).entries := by
  induction g generalizing s with
  | nil => exact ⟨Subset.refl _, Subset.refl _⟩
  | cons e g ih =>
    obtain ⟨ho, ht, ha, hre⟩ := h
    obtain ⟨hr, he⟩ := view_step_shrinks ht ho hre.isOpen ha
    obtain ⟨hr', he'⟩ := ih hre
    exact ⟨Subset.trans hr' hr, Subset.trans he' he⟩

theorem Working.append {g' : List CasEvent} (h : Working tx s (g ++ g')) :
    Working tx (g.foldl next s) g' := by
  induction g generalizing s with
  | nil => exact h
  | cons e g ih => exact ih h.2.2.2

theorem Working.seen_after {w : State → Write} (h : Working tx s g) (hm : e ∈ g)
    (hn : ∀ s, next s e = s.pend tx (w s)) :
    ∃ s' : State, ((g.foldl next s).view tx).refs ⊆ ((s'.view tx).apply (w s')).refs ∧
      ((g.foldl next s).view tx).entries ⊆ ((s'.view tx).apply (w s')).entries := by
  obtain ⟨g₀, g₁, rfl⟩ := append_of_mem hm
  obtain ⟨ho, -, -, hr⟩ := h.append
  refine ⟨g₀.foldl next s, ?_⟩
  rw [foldl_append, ← view_pend ho, ← hn]
  exact hr.shrinks

theorem Working.refs_dropped {t r : String} (h : Working tx s g)
    (hm : (⟨.dropRefs tx t r, true⟩ : CasEvent) ∈ g) (digest : String) :
    ⟨t, digest, r⟩ ∉ ((g.foldl next s).view tx).refs := by
  obtain ⟨s', hr, -⟩ := h.seen_after hm fun _ => rfl
  intro hin
  obtain ⟨hs, hn⟩ := mem_filter.mp (hr hin)
  exact of_decide_eq_true hn (mem_filter.mpr ⟨hs, by simp⟩)

theorem Working.entries_dropped {t key : String} (h : Working tx s g)
    (hm : (⟨.dropEntry tx t key, true⟩ : CasEvent) ∈ g) (outs : Bytes) :
    ⟨t, key, outs⟩ ∉ ((g.foldl next s).view tx).entries := by
  obtain ⟨s', -, he⟩ := h.seen_after hm fun _ => rfl
  intro hin
  obtain ⟨hs, hn⟩ := mem_filter.mp (he hin)
  exact of_decide_eq_true hn (mem_filter.mpr ⟨hs, by simp⟩)

theorem isOpen_of_foldl (htx : tx < s.opened) (h : (g.foldl next s).isOpen tx) : s.isOpen tx := by
  induction g generalizing s with
  | nil => exact h
  | cons e g ih => exact isOpen_of_next htx (ih (htx.trans_le opened_le_next) h)

/-! ### Stopping -/

def Deleted (st : Store) (s : State) (t : String) (d : Digest) : Prop :=
  st.atRest.holds t d ∧ ¬ s.holds t d

/-- A row of the references or of the cache names the digest. -/
def Named (codec : Codec) (tables : Tables) (t text : String) : Prop :=
  (∃ run, ⟨t, text, run⟩ ∈ tables.refs) ∨
    ∃ key outputs, ⟨t, key, outputs⟩ ∈ tables.entries ∧ text ∈ entryDigests codec outputs

def Consistent (codec : Codec) (st : Store) (s : State) : Prop :=
  ∀ t d text, Deleted st s t d → digestText (some d) = some text → ¬ Named codec s.tables t text

def Committed (h : List CasEvent) : Prop := ∃ e ∈ h, ∃ tx, Concludes tx true e

variable {gc : GC} {tenantID tid : String} {retain ret : ℤ} {h h₀ h₁ : List CasEvent}
  {codec : Codec}

theorem records_of_careful (he : Careful codec tid ret h e) :
    CasOp.records e.op = false ∧ ∀ tx ref, e.op ≠ CasOp.addRef tx ref := by
  obtain ⟨op, r⟩ := e
  cases op with
  | recordEntry | recordFile | saveRevision | addRef => cases he
  | _ => exact ⟨rfl, by rintro _ _ ⟨⟩⟩

theorem holds_next (he : Careful codec tid ret h e) (ha : answers c s e) {t : String} {d : Digest} :
    (next s e).holds t d ↔
      s.holds t d ∧ ∀ r : DeleteRes, e = ⟨.delete t d, r⟩ → r = .failed false := by
  obtain ⟨op, r⟩ := e
  cases op with
  | delete t' d' =>
    have hrm : (s.remove t' d').holds t d ↔ s.holds t d ∧ ¬ (t' = t ∧ d' = d) := by
      simp only [State.holds, State.remove, mem_filter]
      grind
    have hme : (∀ r' : DeleteRes, (⟨.delete t' d', r⟩ : CasEvent) = ⟨.delete t d, r'⟩ →
        r' = .failed false) ↔ (t' = t ∧ d' = d → (r : DeleteRes) = .failed false) := by
      constructor
      · rintro h ⟨rfl, rfl⟩
        exact h r rfl
      · rintro h r' ⟨⟩
        exact h ⟨rfl, rfl⟩
    rw [hme]
    rcases (r : DeleteRes) with _ | _ | (_ | _)
    · simpa [next] using hrm
    · have hn : ¬ s.holds t' d' := ha
      simp only [next, reduceCtorEq]
      grind
    · exact (and_iff_left fun _ => rfl).symm
    · refine hrm.trans (and_congr_right fun _ => ⟨fun hn hd => absurd hd hn, fun hf hd => ?_⟩)
      cases hf hd
  | put | addRef | has | recordEntry | recordFile | saveRevision => cases he
  | begin => rcases (r : Option ℕ) with _ | _ <;> exact (and_iff_left (by rintro _ ⟨⟩)).symm
  | commit => rcases (r : CommitRes) with _ | _ <;> exact (and_iff_left (by rintro _ ⟨⟩)).symm
  | dropRefs | dropEntry | dropFile =>
    rcases (r : Bool) with _ | _ <;> exact (and_iff_left (by rintro _ ⟨⟩)).symm
  | insertUsage =>
    rcases (r : InsertRes) with _ | ⟨_ | _, _⟩ <;> exact (and_iff_left (by rintro _ ⟨⟩)).symm
  | _ => exact (and_iff_left (by rintro _ ⟨⟩)).symm

theorem holds_after (ha : Alone (casWorld c st) st.atRest (collect gc tid ret).run h) {t : String}
    {d : Digest} : ((casWorld c st).after st.atRest h).holds t d ↔ st.atRest.holds t d ∧
      ∀ r : DeleteRes, (⟨.delete t d, r⟩ : CasEvent) ∈ h → r = .failed false := by
  induction h using reverseRecOn with
  | nil => simp [World.after]
  | append_singleton h e ih =>
    obtain ⟨hca, han⟩ := ha.at_split wpe_collect
    rw [World.after_snoc, holds_next hca han, ih ha.of_append]
    grind

theorem uncommitted_of_careful (he : Careful codec tid ret h e)
    (hop : (∃ t d, e.op = CasOp.delete t d) ∨ ∃ tx, e.op = CasOp.commit tx) :
    ∀ e' ∈ h, ∀ tx, e'.op ≠ CasOp.commit tx := by
  obtain ⟨op, r⟩ := e
  obtain ⟨t, d, rfl⟩ | ⟨tx, rfl⟩ := hop
  · obtain ⟨-, _, _, _, _, -, hd, -⟩ := he
    exact hd.uncommitted
  · obtain ⟨_, _, -, -, hd⟩ := he
    exact hd.uncommitted

theorem op_of_concludes (he : Concludes tx true e) : e.op = CasOp.commit tx := by
  cases he <;> rfl

/-- Between two points without a commit the tables stay, and the transaction works. -/
theorem working_of_uncommitted
    (ha : Alone (casWorld c st) st.atRest (collect gc tid ret).run (h₀ ++ h₁ ++ h))
    (hun : ∀ e ∈ h₁, ∀ tx, e.op ≠ CasOp.commit tx)
    (htx : tx < ((casWorld c st).after st.atRest h₀).opened)
    (ho : ((casWorld c st).after st.atRest (h₀ ++ h₁)).isOpen tx) :
    Working tx ((casWorld c st).after st.atRest h₀) h₁ := by
  rw [World.after_append] at ho
  induction h₁ generalizing h₀ with
  | nil => exact ho
  | cons e g ih =>
    have hca : Careful gc.codec tid ret h₀ e := by
      rw [append_assoc] at ha
      exact (ha.at_split wpe_collect).1
    obtain ⟨hr, had⟩ := records_of_careful hca
    have hco : ∀ tx, ¬ Concludes tx true e := fun tx hc =>
      hun e mem_cons_self tx (op_of_concludes hc)
    refine ⟨isOpen_of_foldl htx ho, tables_next hco hr, had, ?_⟩
    have ha' : Alone (casWorld c st) st.atRest (collect gc tid ret).run
        (h₀ ++ [e] ++ g ++ h) := by simpa using ha
    have hre := ih ha' fun e' he' => hun e' (mem_cons_of_mem _ he')
    rw [World.after_snoc] at hre
    exact hre (htx.trans_le opened_le_next) ho

theorem tables_of_uncommitted
    (ha : Alone (casWorld c st) st.atRest (collect gc tid ret).run (h₀ ++ h₁))
    (hun : ∀ e ∈ h₁, ∀ tx, ¬ Concludes tx true e) :
    ((casWorld c st).after st.atRest (h₀ ++ h₁)).tables =
      ((casWorld c st).after st.atRest h₀).tables := by
  rw [World.after_append]
  refine World.after_keeps (w := casWorld c st)
    (I := fun s : State => s.tables = ((casWorld c st).after st.atRest h₀).tables) rfl ?_
  rintro g₀ e g₁ rfl ht
  rw [← append_assoc] at ha
  obtain ⟨hr, -⟩ := records_of_careful (ha.at_split wpe_collect).1
  exact (tables_next (hun e (by simp)) hr).trans ht

/-- What is committed names nothing that was deleted. -/
theorem consistent_at_commit
    (ha : Alone (casWorld c st) st.atRest (collect gc tid ret).run (h₀ ++ e :: h₁))
    (he : Concludes tx true e) :
    ∀ t d text (r : DeleteRes), (⟨.delete t d, r⟩ : CasEvent) ∈ h₀ → digestText (some d) = some text →
      ¬ Named gc.codec (((casWorld c st).after st.atRest h₀).view tx) t text := by
  obtain ⟨hca, han⟩ := ha.at_split wpe_collect
  obtain ⟨ho, -⟩ := isOpen_of_concludes he han
  have hse : ∃ exp co, Swept tid ret tx exp co h₀ ∧
      Cleared gc.codec tid tx exp co h₀ ∧ Deleting tid co h₀ := by
    cases he with
    | ok | failed => exact hca
  obtain ⟨exp, co, hs, hcl, hd⟩ := hse
  intro t d text r hde ht
  obtain ⟨rfl, te', hc, hp⟩ := hd.deleted t d r hde
  obtain rfl : te' = text := Option.some.inj ((digestText_of_parse hp).symm.trans ht)
  -- from any call inside it on, the transaction only drops rows
  have hw : ∀ op (r : casSig.Res op), (⟨op, r⟩ : CasEvent) ∈ h₀ →
      (∀ s, answers c s ⟨op, r⟩ → s.isOpen tx) → ∃ s k, answers c s ⟨op, r⟩ ∧
        Working tx s (⟨op, r⟩ :: k) ∧
        (⟨op, r⟩ :: k).foldl next s = (casWorld c st).after st.atRest h₀ := by
    intro op r hm hr
    obtain ⟨k₀, k₁, rfl⟩ := append_of_mem hm
    have han' : answers c ((casWorld c st).after st.atRest k₀) ⟨op, r⟩ := by
      rw [append_assoc] at ha
      exact (ha.at_split wpe_collect).2
    refine ⟨(casWorld c st).after st.atRest k₀, k₁, han', ?_, foldl_append.symm⟩
    exact working_of_uncommitted ha
      (fun e' he' => hd.uncommitted e' (mem_append_right _ he'))
      (State.lt_of_isOpen (hr _ han')) ho
  rintro (⟨run, hro⟩ | ⟨key, o, hro, hcr⟩)
  · obtain ⟨refs, hr, hep⟩ := hs.read
    obtain ⟨s, k, han', hwo, hen⟩ := hw _ _ hr fun _ h => h.1
    rw [← hen] at hro
    have hru : run ∈ exp :=
      hep te' hc run ((han'.2 te' run).mpr (hwo.shrinks.1 hro))
    obtain ⟨s', k', -, hwo', hen'⟩ := hw _ _ (hcl.refs run hru) fun _ h => h
    rw [hen, ← hen'] at hro
    exact hwo'.refs_dropped mem_cons_self te' hro
  · obtain ⟨rows, hr, hdr⟩ := hcl.entries (ne_nil_of_mem hc)
    obtain ⟨s, k, han', hwo, hen⟩ := hw _ _ hr fun _ h => h.1
    rw [← hen] at hro
    have hdo := hdr (key, o) ((han'.2 key o).mpr (hwo.shrinks.2 hro))
      ⟨te', hcr, hc⟩
    obtain ⟨s', k', -, hwo', hen'⟩ := hw _ _ hdo fun _ h => h
    rw [hen, ← hen'] at hro
    exact hwo'.entries_dropped mem_cons_self o hro

/-- Wherever a collection is stopped, the rows agree with what it deleted when its commit took
effect. Before that they do until a blob goes that the store held and a row named at the start. -/
theorem collect_consistent_iff
    (halone : Alone (casWorld c st) st.atRest (collect gc tenantID retain).run h) :
    Consistent gc.codec st ((casWorld c st).after st.atRest h) ↔
      Committed h ∨ ∀ d text (r : DeleteRes), (⟨.delete tenantID d, r⟩ : CasEvent) ∈ h →
        st.atRest.holds tenantID d → digestText (some d) = some text →
        Named gc.codec st.tables tenantID text → r = .failed false := by
  have hgone : ∀ t d, Deleted st ((casWorld c st).after st.atRest h) t d ↔ st.atRest.holds t d ∧
      ∃ r : DeleteRes, (⟨.delete t d, r⟩ : CasEvent) ∈ h ∧ r ≠ .failed false := by
    simp only [Deleted, holds_after halone, not_and, not_forall]
    tauto
  by_cases hco : Committed h
  · refine iff_of_true ?_ (.inl hco)
    obtain ⟨e, he, tx, hcn⟩ := hco
    obtain ⟨h₀, h₁, rfl⟩ := append_of_mem he
    obtain ⟨hca, ha⟩ := halone.at_split wpe_collect
    -- nothing is deleted or committed once that is done
    have hl : ∀ e' ∈ h₁, ¬ ((∃ t d, e'.op = CasOp.delete t d) ∨
        ∃ tx, e'.op = CasOp.commit tx) := by
      intro e' he' hop
      obtain ⟨g₀, g₁, rfl⟩ := append_of_mem he'
      rw [← cons_append, ← append_assoc] at halone
      exact uncommitted_of_careful (halone.at_split wpe_collect).1 hop e (by simp) tx
        (op_of_concludes hcn)
    have ht : ((casWorld c st).after st.atRest (h₀ ++ e :: h₁)).tables =
        ((casWorld c st).after st.atRest h₀).view tx := by
      obtain ⟨-, hn⟩ := isOpen_of_concludes hcn ha
      rw [append_cons] at halone ⊢
      rw [tables_of_uncommitted halone
        fun e' he' tx' hc => hl e' he' (.inr ⟨tx', op_of_concludes hc⟩), World.after_snoc]
      exact congrArg (·.tables) hn
    intro t d text hd hte
    obtain ⟨-, r, hm, -⟩ := (hgone t d).mp hd
    rw [ht]
    refine consistent_at_commit halone hcn t d text r ?_ hte
    obtain hm | rfl | hm := by simpa using hm
    · exact hm
    · cases op_of_concludes hcn
    · exact absurd (.inl ⟨t, d, rfl⟩) (hl _ hm)
  · have ht : ((casWorld c st).after st.atRest ([] ++ h)).tables =
        ((casWorld c st).after st.atRest []).tables :=
      tables_of_uncommitted halone fun e he tx hc => hco ⟨e, he, tx, hc⟩
    rw [nil_append] at ht
    rw [or_iff_right hco, Consistent, ht]
    constructor
    · intro hcs d text r hm hh hte hna
      by_contra hr
      exact hcs tenantID d text ((hgone _ _).mpr ⟨hh, r, hm, hr⟩) hte hna
    · intro hst t d text hd hte hna
      obtain ⟨hh, r, hm, hr⟩ := (hgone t d).mp hd
      obtain ⟨h₀, h₁, rfl⟩ := append_of_mem hm
      obtain ⟨⟨rfl, -⟩, -⟩ := halone.at_split wpe_collect
      exact hr (hst d text r hm hh hte hna)

/-- A collection that commits after it has deleted. -/
theorem committed_collection_consistent : Committed (collecting onSQLite waitingRun 24 13) ∧
      Consistent plainCodec waitingRun ((casWorld onSQLite waitingRun).after waitingRun.atRest
        (collecting onSQLite waitingRun 24 13)) := by
  have hc : Committed (collecting onSQLite waitingRun 24 13) := by
    have hl : (collecting onSQLite waitingRun 24 13)[12]? =
        some ⟨.commit 0, CommitRes.ok⟩ := by rfl
    exact ⟨_, mem_of_getElem? hl, 0, .ok⟩
  exact ⟨hc, (collect_consistent_iff (collecting_alone onSQLite waitingRun 24 13)).mpr (.inl hc)⟩

/-- Stopped between the two, it leaves a reference to bytes that are gone. -/
theorem stopped_collection_dangles :
    Alone (casWorld onSQLite waitingRun) waitingRun.atRest (collect plainGC "acme" 24).run
        (collecting onSQLite waitingRun 24 11) ∧
      ¬ Consistent plainCodec waitingRun ((casWorld onSQLite waitingRun).after waitingRun.atRest
        (collecting onSQLite waitingRun 24 11)) := by
  refine ⟨collecting_alone onSQLite waitingRun 24 11, fun hc => ?_⟩
  refine hc "acme" blobA "sha256:aa" ⟨by decide, by decide +kernel⟩ rfl (.inl ⟨"deploy", ?_⟩)
  exact show (⟨"acme", "sha256:aa", "deploy"⟩ : Ref) ∈ ((casWorld onSQLite waitingRun).after
    waitingRun.atRest (collecting onSQLite waitingRun 24 11)).tables.refs by decide +kernel

end Dhole.Cas
