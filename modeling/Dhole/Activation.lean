import Dhole.Revisions

/-! How many revisions of a pipeline are active. An approval steps back the active revisions it saw
and makes its own one active, so there is one afterwards exactly if it saw all that are active when
it commits. A serial store guarantees that; at read committed another approval may commit in
between. -/

namespace Dhole.Defstore

open Interleave Prog Transact List

/-! ### What the statements do to the rows -/

namespace Row

variable {tenantID tid pipelineID pid approver ap : String} {key : Key} {D : List Key}

def demoteAll (D : List Key) (r : Row) : Row := D.foldl (fun r key => r.demote key) r

@[simp] theorem key_demote (r : Row) (key : Key) : (r.demote key).key = r.key := by
  unfold demote
  split <;> rfl

@[simp] theorem key_promote (r : Row) (key : Key) (ap : String) :
    (r.promote key ap).key = r.key := by
  unfold promote
  split <;> rfl

@[simp] theorem key_demoteAll (D : List Key) (r : Row) : (r.demoteAll D).key = r.key := by
  induction D generalizing r with
  | nil => rfl
  | cons key D ih =>
    rw [demoteAll, foldl_cons, ← demoteAll, ih, key_demote]

theorem isActive_demote (r : Row) : (r.demote key).isActive tid pid =
      (r.isActive tid pid && decide (r.key ≠ key)) := by
  unfold demote
  split
  case isTrue heq => simp [isActive, heq]
  case isFalse hne => simp [hne]

theorem isActive_demoteAll (r : Row) : (r.demoteAll D).isActive tid pid =
      (r.isActive tid pid && decide (r.key ∉ D)) := by
  induction D generalizing r with
  | nil => simp [demoteAll]
  | cons key D ih =>
    rw [demoteAll, foldl_cons, ← demoteAll, ih, isActive_demote, Bool.and_assoc]
    simp

theorem isActive_promote (r : Row) : (r.promote key ap).isActive tid pid =
      if r.key = key then decide (r.tenantID = tid ∧ r.rev.pipelineID = pid)
      else r.isActive tid pid := by
  unfold promote
  split
  case isTrue => simp [isActive]
  case isFalse => rfl

theorem owner_demoteAll (r : Row) : (r.demoteAll D).tenantID = r.tenantID ∧
    (r.demoteAll D).rev.pipelineID = r.rev.pipelineID := by
  induction D generalizing r with
  | nil => exact ⟨rfl, rfl⟩
  | cons key D ih =>
    obtain ⟨ht, hp⟩ := ih (r.demote key)
    rw [demoteAll, foldl_cons, ← demoteAll, ht, hp]
    unfold demote
    split <;> exact ⟨rfl, rfl⟩

theorem isActive_superseded (r : Row) : ((r.demoteAll D).promote key ap).isActive tid pid =
      if r.key = key then decide (r.tenantID = tid ∧ r.rev.pipelineID = pid)
      else r.isActive tid pid && decide (r.key ∉ D) := by
  rw [isActive_promote, key_demoteAll, isActive_demoteAll, (owner_demoteAll r).1,
    (owner_demoteAll r).2]

end Row

namespace Tables

variable {t : Tables} {tenantID tid pipelineID pid approver ap : String} {key : Key} {D : List Key}
  {row row' : Row} {w : Write}

def Keyed (t : Tables) : Prop := (t.rows.map Row.key).Nodup

theorem find_eq_none : t.find key = none ↔ key ∉ t.rows.map Row.key := by
  simp [find]

theorem of_find (h : t.find key = some row) : row ∈ t.rows ∧ row.key = key :=
  ⟨mem_of_find?_eq_some h, by simpa using find?_some h⟩

theorem Keyed.eq (ht : t.Keyed) (hr : row ∈ t.rows) (hr' : row' ∈ t.rows)
    (hk : row.key = row'.key) : row = row' :=
  inj_on_of_nodup_map ht hr hr' hk

theorem Keyed.find (ht : t.Keyed) (hr : row ∈ t.rows) : t.find row.key = some row := by
  cases hf : t.find row.key with
  | none => exact absurd (mem_map_of_mem hr) (find_eq_none.mp hf)
  | some row' =>
    obtain ⟨hm, hk⟩ := of_find hf
    rw [ht.eq hm hr hk]

theorem Keyed.apply (ht : t.Keyed) (w : Write) : (t.apply w).Keyed := by
  cases w with
  | pipeline key => exact ht
  | insert row =>
    change (t.addRow row).Keyed
    unfold addRow
    split
    · exact ht
    case isFalse hn =>
      have hne := find_eq_none.mp (Option.not_isSome_iff_eq_none.mp hn)
      rw [Keyed, map_append, nodup_append]
      refine ⟨ht, nodup_singleton _, fun k hk k' hk' heq => ?_⟩
      obtain rfl : k' = row.key := mem_singleton.mp hk'
      exact hne (heq ▸ hk)
  | demote key =>
    have hke : Row.key ∘ Row.demote key = Row.key := funext fun r => r.key_demote key
    change ((t.rows.map _).map Row.key).Nodup
    rw [map_map, hke]
    exact ht
  | promote key ap =>
    have hke : Row.key ∘ Row.promote key ap = Row.key :=
      funext fun r => r.key_promote key ap
    change ((t.rows.map _).map Row.key).Nodup
    rw [map_map, hke]
    exact ht

theorem exists_owned_apply (ht : ∃ row ∈ t.rows, row.key = key ∧ row.rev.pipelineID = pid)
    (w : Write) : ∃ row ∈ (t.apply w).rows, row.key = key ∧ row.rev.pipelineID = pid := by
  obtain ⟨row, hm, hk, hp⟩ := ht
  cases w with
  | pipeline k => exact ⟨row, hm, hk, hp⟩
  | insert new =>
    refine ⟨row, ?_, hk, hp⟩
    change row ∈ (t.addRow new).rows
    unfold addRow
    split
    · exact hm
    · exact mem_append_left _ hm
  | demote k =>
    exact ⟨_, mem_map_of_mem hm, (row.key_demote k).trans hk,
      (Row.owner_demoteAll (D := [k]) row).2.trans hp⟩
  | promote k ap =>
    refine ⟨_, mem_map_of_mem hm, (row.key_promote k ap).trans hk, ?_⟩
    unfold Row.promote
    split <;> exact hp

theorem rows_demoteAll (t : Tables) (D : List Key) :
    ((D.map Write.demote).foldl Tables.apply t).rows = t.rows.map (Row.demoteAll D) := by
  induction D generalizing t with
  | nil => exact (map_id' t.rows).symm
  | cons key D ih =>
    rw [map_cons, foldl_cons, ih]
    exact map_map

end Tables

def Write.isDraft : Write → Prop
  | .pipeline _ => True
  | .insert row => row.rev.state = .draft
  | _ => False

theorem rows_drafts {ws : List Write} (hws : ∀ w ∈ ws, w.isDraft) (t : Tables) :
    ∃ new, (ws.foldl Tables.apply t).rows = t.rows ++ new ∧ ∀ r ∈ new, r.rev.state = .draft := by
  induction ws generalizing t with
  | nil => exact ⟨[], (append_nil _).symm, by simp⟩
  | cons w ws ih =>
    obtain ⟨hw, hws⟩ := forall_mem_cons.mp hws
    obtain ⟨new, hr, hn⟩ := ih hws (t.apply w)
    rw [foldl_cons, hr]
    cases w with
    | pipeline key => exact ⟨new, rfl, hn⟩
    | insert row =>
      change ∃ new', (t.addRow row).rows ++ new = _ ∧ _
      unfold Tables.addRow
      split
      · exact ⟨new, rfl, hn⟩
      · exact ⟨row :: new, by simp, forall_mem_cons.mpr ⟨hw, hn⟩⟩
    | demote key | promote key ap => exact hw.elim

/-! ### Histories -/

abbrev DefHistory := List (Act defSig)

abbrev store (iso : Isolation) (tr : DefHistory) : State schema :=
  storeIn (D := schema) iso {} envWorld tr

abbrev tablesAt (iso : Isolation) (tr : DefHistory) : Tables := (store iso tr).tables

abbrev Histories (iso : Isolation) (calls : ℕ → Call) (tr : DefHistory) : Prop :=
  Guarded (defWorld iso) (fun i => (calls i).Justified) tr

abbrev landing (us : DefHistory) (a : Act defSig) : List Write :=
  landed (D := schema) writesOf us a

/-- When an approval is committed, every other revision of the pipeline that is active then is
among those it steps back. -/
def Supersedes (iso : Isolation) (us : DefHistory) (a : Act defSig) : Prop :=
  ∀ key approver, .promote key approver ∈ landing us a →
    ∀ row ∈ (tablesAt iso us).rows, row.key = key →
      ∀ other ∈ (tablesAt iso us).activeRows row.tenantID row.rev.pipelineID, other.key ≠ key →
        .demote other.key ∈ landing us a

/-- The statement that steps the active revisions back: it looks for them, and then updates those it
saw. -/
def Query.stepsBack : Query → Option (String × String)
  | .seen tenantID pipelineID | .demote tenantID pipelineID _ => some (tenantID, pipelineID)
  | _ => none

/-- When an approval is committed, every other revision of the pipeline that is active then was so
when the statement saw the active ones, and again when it updated them. -/
def SawActive (iso : Isolation) (us : DefHistory) (a : Act defSig) : Prop :=
  ∀ xs ys tx q r tenantID pipelineID, us = xs ++ ⟨a.actor, answered (D := schema) tx q r⟩ :: ys →
    lands a.event = some tx → Query.stepsBack q = some (tenantID, pipelineID) →
      ∀ row ∈ (tablesAt iso us).activeRows tenantID pipelineID,
        (∃ approver, .promote row.key approver ∈ landing us a) ∨
          row.key ∈ ((tablesAt iso xs).activeRows tenantID pipelineID).map Row.key

section Histories

variable {sum256 H : Wire.Bytes → Wire.Bytes} {iso : Isolation} {calls cs : ℕ → Call}
  {tr us vs : DefHistory} {a : Act defSig} {i tx : ℕ} {c : Call} {h g k : List DefEvent}
  {tenantID tid pipelineID pid revisionID approver ap author : String} {w : Write} {key : Key}

theorem owns_of_justified {d : DefEvent} (hd : c.Justified h d) : Owns h d := by
  obtain ⟨op | op, r⟩ := d
  · cases op with
    | query tx q =>
      cases c with
      | save c tid p author => exact hd.1
      | approve tid revisionID ap =>
        have hq : q.supersedes ⟨tid, revisionID⟩ ap tx h := hd
        cases q with
        | upsertPipeline | insertRevision => exact hq.elim
        | revisionRow =>
          rw [hq.2]
          exact mem_cons_self
        | seen | demote =>
          obtain ⟨-, rev, -, rfl⟩ := hq
          exact mem_cons_self
        | promote =>
          obtain ⟨-, -, rev, found, ids, rfl⟩ := hq
          exact mem_cons_self
      | crash => exact hd.elim
    | commit tx =>
      cases c with
      | save => exact hd
      | approve =>
        obtain ⟨rev, found, ids, ts, rfl⟩ := hd
        exact mem_cons_self
      | crash => exact hd.elim
    | _ => trivial
  · trivial

theorem keyed (tr : DefHistory) : (tablesAt iso tr).Keyed := by
  have hs : (tablesAt iso []).Keyed := nodup_nil
  have hk : (tablesAt iso ([] ++ tr)).Keyed :=
    tables_keep (D := schema) (fun t w ht => ht.apply w) hs
  rwa [nil_append] at hk

theorem save_lands {cfg : Config} {p : Option Pipeline} (htr : Histories iso cs (us ++ [a]))
    (hc : cs a.actor = .save cfg tid p author) : ∀ w ∈ landing us a, w.isDraft := by
  intro w hw
  cases hl : lands a.event with
  | none =>
    rw [landing, landed, hl] at hw
    cases hw
  | some tx =>
    rw [landing, landed, hl] at hw
    obtain ⟨q, r, hm, hw⟩ := mem_stated hw
    obtain ⟨xs, ys, hs⟩ := append_of_mem (mem_of_mem_own hm)
    have hxs := htr.of_append
    rw [hs] at hxs
    have hj : (cs a.actor).Justified (own a.actor xs) _ := (hxs.at_split).2
    rw [hc] at hj
    have hq : q.drafts := hj.2
    cases q with
    | upsertPipeline key =>
      cases r with
      | false => cases hw
      | true =>
        obtain rfl := mem_singleton.mp hw
        trivial
    | insertRevision row =>
      cases r with
      | false => cases hw
      | true =>
        obtain rfl := mem_singleton.mp hw
        exact hq
    | revisionRow => cases hw
    | seen | demote | promote => exact hq.elim

theorem stated_seenStage (key : Key) (rev : Revision) (found : List String) :
    stated (D := schema) writesOf tx (readStage tx key rev) = [] ∧
      stated (D := schema) writesOf tx (seenStage tx key rev found) = [] := by
  have hr : stated writesOf tx (readStage tx key rev) = [] := by
    change stated (D := schema) writesOf tx ([begun tx] ++ [_]) = []
    rw [stated_append, stated_answered]
    rfl
  refine ⟨hr, ?_⟩
  rw [seenStage, stated_append, hr, stated_answered]
  rfl

theorem stated_promotedStage (key : Key) (rev : Revision) (found ids : List String)
    (ap : String) (tch : Bool) :
    stated (D := schema) writesOf tx (promotedStage tx key rev found ids ap tch) =
      (ids.map fun id => Key.mk key.tenantID id).map Write.demote ++
        if tch = true then [.promote key ap] else [] := by
  rw [promotedStage, demotedStage, stated_append, stated_append, (stated_seenStage key rev found).2,
    stated_answered, stated_answered, map_map]
  rfl

theorem landing_cases (htr : Histories iso cs (us ++ [a])) : (∀ w ∈ landing us a, w.isDraft) ∨
      ∃ tx key rev found ids ap tch, lands a.event = some tx ∧ (store iso us).isOpen tx = true ∧
        own a.actor us = promotedStage tx key rev found ids ap tch ∧
        landing us a = (ids.map fun id => Key.mk key.tenantID id).map Write.demote ++
          if tch = true then [.promote key ap] else [] := by
  cases hl : lands a.event with
  | none =>
    refine .inl fun w hw => ?_
    rw [landing, landed, hl] at hw
    cases hw
  | some tx =>
    cases hc : cs a.actor with
    | save cfg tid p author => exact .inl (save_lands htr hc)
    | approve tid revisionID ap =>
      obtain ⟨i, e⟩ := a
      obtain ⟨ho, r, rfl, hg, -⟩ := commit_of_lands htr hl
      rw [show cs i = _ from hc] at hg
      obtain ⟨rev, found, ids, tch, how⟩ := hg
      refine .inr ⟨tx, _, rev, found, ids, ap, tch, rfl, ho, how, ?_⟩
      rw [landing, landed, hl]
      change stated writesOf tx (own i us) = _
      rw [how, stated_promotedStage]
    | crash tx' =>
      obtain ⟨i, e⟩ := a
      obtain ⟨-, r, rfl, hg, -⟩ := commit_of_lands htr hl
      rw [show cs i = _ from hc] at hg
      exact hg.elim

theorem tablesAt_snoc (htr : Histories iso cs (us ++ [a])) :
    tablesAt iso (us ++ [a]) = (landing us a).foldl Tables.apply (tablesAt iso us) :=
  tables_landed (fun _ _ _ => owns_of_justified) (fun _ _ _ => rfl) htr

/-! ### One active revision -/

def activeCount (t : Tables) (tenantID pipelineID : String) : ℕ :=
  t.rows.countP (Row.isActive tenantID pipelineID)

theorem length_activeRows (t : Tables) : (t.activeRows tid pid).length = activeCount t tid pid :=
  countP_eq_length_filter.symm

theorem activeCount_drafts {t : Tables} {ws : List Write} (hws : ∀ w ∈ ws, w.isDraft) :
    activeCount (ws.foldl Tables.apply t) tid pid = activeCount t tid pid := by
  obtain ⟨new, hro, hn⟩ := rows_drafts hws t
  rw [activeCount, hro, countP_append, activeCount, Nat.add_eq_left, countP_eq_zero]
  intro r hr ha
  have hs := (of_decide_eq_true ha).2.2
  rw [hn r hr] at hs
  cases hs

theorem activeCount_superseded (t : Tables) (D : List Key) :
    activeCount ((D.map Write.demote ++ [Write.promote key ap]).foldl Tables.apply t)
        tid pid = t.rows.countP fun r =>
        if r.key = key then decide (r.tenantID = tid ∧ r.rev.pipelineID = pid)
        else r.isActive tid pid && decide (r.key ∉ D) := by
  rw [foldl_append]
  change (List.map (Row.promote key ap) _).countP _ = _
  rw [Tables.rows_demoteAll, map_map, countP_map]
  exact countP_congr fun r _ => by
    rw [Function.comp, Function.comp, Row.isActive_superseded]

theorem activeCount_demoted (t : Tables) (D : List Key) :
    activeCount ((D.map Write.demote).foldl Tables.apply t) tid pid ≤ activeCount t tid pid := by
  rw [activeCount, Tables.rows_demoteAll, countP_map]
  refine countP_mono_left fun r _ ha => ?_
  rw [Function.comp, Row.isActive_demoteAll, Bool.and_eq_true] at ha
  exact ha.1

theorem countP_key_le {t : Tables} (ht : t.Keyed) (key : Key) :
    t.rows.countP (fun r => decide (r.key = key)) ≤ 1 := by
  have hc : t.rows.countP (fun r => decide (r.key = key)) = (t.rows.map Row.key).count key := by
    rw [List.count, countP_map]
    exact countP_congr fun r _ => by simp
  rw [hc]
  exact nodup_iff_count_le_one.mp ht key

theorem activeCount_snoc (htr : Histories iso cs (us ++ [a])) (hc : Supersedes iso us a)
    (ho : ∀ tid pid, activeCount (tablesAt iso us) tid pid ≤ 1) (tid pid : String) :
    activeCount (tablesAt iso (us ++ [a])) tid pid ≤ 1 := by
  rw [tablesAt_snoc htr]
  obtain hdr | ⟨tx, key, rev, found, ids, ap, ts, -, -, -, hl⟩ :=
    landing_cases htr
  · rw [activeCount_drafts hdr]
    exact ho tid pid
  rw [Supersedes, hl] at hc
  rw [hl]
  cases ts with
  | false =>
    rw [if_neg Bool.false_ne_true, append_nil]
    exact (activeCount_demoted _ _).trans (ho tid pid)
  | true =>
    rw [if_pos rfl] at hc ⊢
    rw [activeCount_superseded]
    by_cases hro : ∃ row ∈ (tablesAt iso us).rows,
        row.key = key ∧ row.tenantID = tid ∧ row.rev.pipelineID = pid
    · obtain ⟨row, hm, hk, rfl, rfl⟩ := hro
      refine (countP_mono_left fun r hr ha => ?_).trans
        (countP_key_le (keyed us) key)
      by_contra hne
      rw [decide_eq_true_eq] at hne
      rw [if_neg hne, Bool.and_eq_true] at ha
      have hd := hc key ap (by simp) row hm hk r
        (mem_filter.mpr ⟨hr, ha.1⟩) hne
      refine of_decide_eq_true ha.2 ?_
      simpa using hd
    · refine (countP_mono_left fun r hr ha => ?_).trans (ho tid pid)
      by_cases hk : r.key = key
      · rw [if_pos hk] at ha
        exact absurd ⟨r, hr, hk, of_decide_eq_true ha⟩ hro
      · rw [if_neg hk, Bool.and_eq_true] at ha
        exact ha.1

theorem one_active (htr : Histories iso cs tr) (hc : Throughout (Supersedes iso) tr)
    (tid pid : String) : activeCount (tablesAt iso tr) tid pid ≤ 1 := by
  induction tr using reverseRecOn generalizing tid pid with
  | nil => exact Nat.zero_le _
  | append_singleton tr a ih =>
    exact activeCount_snoc htr hc.last (ih htr.of_append hc.of_append) tid pid

/-- Where one revision is active at most, an approval has stepped back all others. -/
theorem supersedes_of_one_active (htr : Histories iso cs (us ++ [a]))
    (hon : ∀ tid pid, activeCount (tablesAt iso (us ++ [a])) tid pid ≤ 1) :
    Supersedes iso us a := by
  intro key ap hp row hro hk other ho hne
  obtain ⟨ho, ha⟩ := mem_filter.mp ho
  obtain hd | ⟨tx, key', rev, found, ids, ap', ts, -, -, -, hl⟩ :=
    landing_cases htr
  · exact (hd _ hp).elim
  rw [hl] at hp ⊢
  cases ts with
  | false => simp at hp
  | true =>
    obtain ⟨rfl, rfl⟩ : key = key' ∧ ap = ap' := by simpa using hp
    rw [if_pos rfl] at hl ⊢
    by_contra hn
    have hc := hon row.tenantID row.rev.pipelineID
    rw [tablesAt_snoc htr, hl, activeCount_superseded] at hc
    have hb : [row, other].Subperm ((tablesAt iso us).rows.filter fun r =>
        if r.key = key then
          decide (r.tenantID = row.tenantID ∧ r.rev.pipelineID = row.rev.pipelineID)
        else r.isActive row.tenantID row.rev.pipelineID &&
          decide (r.key ∉ ids.map fun id => Key.mk key.tenantID id)) := by
      refine subperm_of_subset ?_ ?_
      · rw [nodup_cons, mem_singleton]
        exact ⟨fun heq => hne (heq ▸ hk), nodup_singleton _⟩
      · intro r hr
        rcases mem_pair.mp hr with rfl | rfl
        · exact mem_filter.mpr ⟨hro, by simp [hk]⟩
        · refine mem_filter.mpr ⟨ho, ?_⟩
          rw [if_neg hne, ha, Bool.true_and, decide_eq_true_eq]
          intro hm
          exact hn (mem_append_left _ (mem_map_of_mem hm))
    have hle := hb.length_le
    rw [← countP_eq_length_filter] at hle
    exact absurd (hle.trans hc) (by simp)

/-! ### What the statement saw -/

theorem exists_answered (htr : Histories iso cs us) {q : Query} {r : q.Ans}
    (how : own i us = g ++ answered (D := schema) tx q r :: k)
    (hn : stated (D := schema) writesOf tx g = []) :
    ∃ xs ys, us = xs ++ ⟨i, answered (D := schema) tx q r⟩ :: ys ∧
      r = (evaluate (tablesAt iso xs) q).1 := by
  obtain ⟨xs, ys, rfl, hp, -⟩ := exists_split_of_own how
  have ha : r = (evaluate (tablesAt iso xs) q).1 ∧ _ :=
    answers_unstated (fun _ _ _ => owns_of_justified) (fun _ _ _ => rfl) htr
      (by rw [hp]; exact hn)
  exact ⟨xs, ys, rfl, ha.1⟩

theorem supersedes_of_sawActive (htr : Histories iso cs (us ++ [a])) (hsa : SawActive iso us a) :
    Supersedes iso us a := by
  intro key ap hp row hro hk other hot hne
  obtain hd | ⟨tx, key', rev, found, ids, ap', ts, hla, -, how, hl⟩ := landing_cases htr
  · exact (hd _ hp).elim
  have hpr : ∀ k ap, .promote k ap ∈ landing us a → k = key' := by
    intro k ap hk
    cases ts <;> simp_all
  obtain rfl := hpr key ap hp
  have hus := htr.of_append
  -- The row is still in the pipeline it was read in.
  have hpi : row.rev.pipelineID = rev.pipelineID := by
    obtain ⟨xs, ys, hs, hr⟩ := exists_answered (g := [begun tx]) hus (by rw [how]; rfl) rfl
    obtain ⟨read, hf, hre⟩ := Option.map_eq_some_iff.mp hr.symm
    obtain ⟨hm, hrk⟩ := Tables.of_find hf
    obtain ⟨row', hm', hk', hp'⟩ :
        ∃ row' ∈ (tablesAt iso us).rows, row'.key = key ∧ row'.rev.pipelineID = rev.pipelineID := by
      rw [hs]
      exact tables_keep (D := schema)
        (I := fun t : Tables => ∃ row ∈ t.rows, row.key = key ∧ row.rev.pipelineID = _)
        (fun _ w h => Tables.exists_owned_apply h w)
        ⟨read, hm, hrk, congrArg Revision.pipelineID hre⟩
    rwa [(keyed us).eq hro hm' (hk.trans hk'.symm)]
  have ht : row.tenantID = key.tenantID := by rw [← hk]; rfl
  rw [ht, hpi] at hot
  have how' : other.key = ⟨key.tenantID, other.rev.id⟩ := by
    rw [← (of_decide_eq_true (mem_filter.mp hot).2).1]
    rfl
  -- The revision was active when the statement looked and when it updated.
  have hsaw : ∀ xs ys q r, us = xs ++ ⟨a.actor, answered tx q r⟩ :: ys →
      Query.stepsBack q = some (key.tenantID, rev.pipelineID) →
      ∃ act ∈ (tablesAt iso xs).activeRows key.tenantID rev.pipelineID, act.key = other.key := by
    intro xs ys q r hs hq
    obtain ⟨ap, hap⟩ | hm := hsa xs ys tx q r _ _ hs hla hq other hot
    · exact absurd (hpr _ ap hap) hne
    · exact mem_map.mp hm
  obtain ⟨xs, ys, hs, hfo⟩ := exists_answered hus (by rw [how]; rfl)
    (stated_seenStage key rev found).1
  obtain ⟨act, ham, hak⟩ := hsaw _ _ _ _ hs rfl
  obtain ⟨xs', ys', hs', hid⟩ := exists_answered hus
    (by rw [how]; rfl) (stated_seenStage key rev found).2
  obtain ⟨act', ham', hak'⟩ := hsaw _ _ _ _ hs' rfl
  have hin : other.rev.id ∈ ids := by
    rw [hid]
    refine mem_filter.mpr ⟨?_, ?_⟩
    · have hi : act.rev.id = other.rev.id := congrArg Key.id hak
      rw [hfo, ← hi]
      exact mem_map_of_mem ham
    · obtain ⟨hm', ha'⟩ := mem_filter.mp ham'
      rw [← how', ← hak', (keyed xs').find hm']
      exact ha'
  rw [how', hl]
  exact mem_append_left _ (mem_map_of_mem (mem_map_of_mem hin))

theorem sawActive_serial (htr : Histories .serial cs (us ++ [a])) : SawActive .serial us a := by
  rintro xs ys tx q r tid pid rfl hla - row hro
  obtain ⟨ho, -⟩ := commit_of_lands htr hla
  have hs : tablesAt .serial (xs ++ ⟨a.actor, answered tx q r⟩ :: ys) =
      tablesAt .serial xs :=
    serial_stands htr.of_append (storeIn_answered htr.of_append).1 ho
  rw [hs] at hro
  exact .inr (mem_map_of_mem hro)

/-- The active revisions under any interleaving of saves and approvals, on either dialect. At most
one revision of every pipeline is active at all times exactly if every approval, when it is
committed, has stepped back whatever else is active by then. It has where its statement saw all of
that, and on SQLite, where one transaction is open at a time, it always does. A save never changes a
row that is stored. -/
theorem one_active_revision (htr : Reach (defWorld iso) (fun i => (calls i).prog sum256) tr) :
    ((∀ us vs tenantID pipelineID, tr = us ++ vs →
        ((tablesAt iso us).activeRows tenantID pipelineID).length ≤ 1) ↔
      Throughout (Supersedes iso) tr) ∧
    (Throughout (SawActive iso) tr → Throughout (Supersedes iso) tr) ∧
    (iso = .serial → ∀ us vs tenantID pipelineID, tr = us ++ vs →
      ((tablesAt iso us).activeRows tenantID pipelineID).length ≤ 1) ∧
    ∀ us a vs cfg tenantID p author, tr = us ++ a :: vs →
      calls a.actor = .save cfg tenantID p author →
      ∀ key row, (tablesAt iso us).find key = some row →
        (tablesAt iso (us ++ [a])).find key = some row := by
  have hg : Histories iso calls tr := htr.guarded fun i => wp_prog (calls i)
  have ho : Throughout (Supersedes iso) tr → ∀ us vs tenantID pipelineID, tr = us ++ vs →
      ((tablesAt iso us).activeRows tenantID pipelineID).length ≤ 1 := by
    rintro hco us vs tenantID pipelineID rfl
    rw [length_activeRows]
    exact one_active hg.of_append hco.of_append tenantID pipelineID
  have hsu : Throughout (SawActive iso) tr → Throughout (Supersedes iso) tr := by
    rintro hsa us a vs rfl
    have hs := hsa us a vs rfl
    rw [append_cons] at hg
    exact supersedes_of_sawActive hg.of_append hs
  refine ⟨⟨?_, ho⟩, hsu, ?_, ?_⟩
  · rintro hc us a vs rfl
    rw [append_cons] at hg
    refine supersedes_of_one_active hg.of_append fun tenantID pipelineID => ?_
    rw [← length_activeRows]
    exact hc _ vs tenantID pipelineID (append_cons us a vs)
  · rintro rfl
    refine ho (hsu ?_)
    rintro us a vs rfl
    rw [append_cons] at hg
    exact sawActive_serial hg.of_append
  · rintro us a vs cfg tenantID p author rfl hca key row hf
    rw [append_cons] at hg
    obtain ⟨new, hr, -⟩ := rows_drafts (save_lands hg.of_append hca) (tablesAt iso us)
    rw [tablesAt_snoc hg.of_append, Tables.find, hr, find?_append]
    rw [Tables.find] at hf
    rw [hf]
    rfl

end Histories

/-! ### Two approvals at once -/

def resolver : Resolver schema where
  ans t held q :=
    if q.refers t = true ∧ ∀ l ∈ (evaluate t q).2, held l = false then some (evaluate t q).1
    else none
  sound t held q r h := by
    by_cases hfree : q.refers t = true ∧ ∀ l ∈ (evaluate t q).2, held l = false
    · rw [if_pos hfree] at h
      exact ⟨(Option.some.inj h).symm, hfree⟩
    · rw [if_neg hfree] at h
      cases h

def honestDef (iso : Isolation) (_ : ℕ) (s : (defWorld iso).State) :
    (op : defSig.Op) → defSig.Res op
  | .inl op => honest iso resolver s.1 op
  | .inr (.resolve ..) => .ok none

theorem honestDef_answers (iso : Isolation) (n : ℕ) (s : (defWorld iso).State) (op : defSig.Op) :
    (defWorld iso).Answers s ⟨op, honestDef iso n s op⟩ := by
  cases op with
  | inl op => exact honest_answers iso resolver s.1 op
  | inr op => trivial

def version (name : String) : Pipeline := { id := "p", steps := [{ id := "s", name }] }

def twoVersions : ℕ → Call
  | 0 => .save ⟨false, false⟩ "t" (some (version "a")) "mallory"
  | 1 => .save ⟨false, false⟩ "t" (some (version "b")) "mallory"
  | 2 => .approve "t" (draftOf id "t" (version "a") "mallory" []).rev.id "alice"
  | 3 => .approve "t" (draftOf id "t" (version "b") "mallory" []).rev.id "bob"
  | n => .crash n

def turns (n i : ℕ) : List ℕ := List.replicate n i

def oneByOne : DefHistory :=
  exec (defWorld .serial) (honestDef .serial) (fun i => (twoVersions i).prog id)
    (turns 5 0 ++ turns 5 1 ++ turns 6 2 ++ turns 6 3)

theorem oneByOne_reach : Reach (defWorld .serial) (fun i => (twoVersions i).prog id) oneByOne :=
  exec_reach _ _ (honestDef_answers .serial) _ _

/-- The second approval supersedes the first. -/
theorem second_approval_supersedes :
    ((tablesAt .serial oneByOne).activeRows "t" "p").map (fun r => r.rev.approver) = ["bob"] ∧
      ((tablesAt .serial oneByOne).activeRows "t" "p").length ≤ 1 :=
  ⟨by decide +kernel, (one_active_revision oneByOne_reach).2.2.1 rfl oneByOne [] "t" "p"
    (append_nil _).symm⟩

def sideBySide : DefHistory :=
  exec (defWorld .readCommitted) (honestDef .readCommitted) (fun i => (twoVersions i).prog id)
    (turns 5 0 ++ turns 5 1 ++ turns 5 2 ++ turns 5 3 ++ [2, 3])

/-- Each steps back what it saw, which is nothing, and both revisions are active. -/
theorem concurrent_approvals_both_active :
    Reach (defWorld .readCommitted) (fun i => (twoVersions i).prog id) sideBySide ∧
      ((tablesAt .readCommitted sideBySide).activeRows "t" "p").map
        (fun r => r.rev.approver) = ["alice", "bob"] :=
  ⟨exec_reach _ _ (honestDef_answers .readCommitted) _ _, by decide +kernel⟩

end Dhole.Defstore
