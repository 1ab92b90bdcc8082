import Dhole.CronSchedule

/-! Occurrences of a schedule. The row is served under its lock and moved on to an instant after the
clock of who serves it, so its due times increase and an occurrence is taken or skipped once, as long
as the calendar has a next instant. Where it has none the zero time is stored, which is always
due. -/

namespace Dhole.Cron

open Interleave Prog Transact List

variable (L : Layout) (σ : Key → Schedule)

namespace Write

/-- The statement takes or skips an occurrence of the schedule. -/
def serves (key : Key) : Write → Bool
  | take k .. => k = key
  | skip k .. => k = key
  | _ => false

end Write

/-- With this call the occurrence that the row is due for is taken or skipped. -/
def Serves (iso : Isolation) (us : CronHistory) (a : Act cronSig) (key : Key) (due : ℤ) : Prop :=
  (∃ w ∈ landing us a, w.serves key = true) ∧
    ∃ r, rowAt iso us key = some r ∧ L.parse r.dueAt = some due

def Call.finds : Call → Bool
  | .tick key _ now => (σ key).spec.next now ≠ 0
  | .crash _ => true

def found (calls : ℕ → Call) (us : CronHistory) (a : Act cronSig) : Bool :=
  (landing us a).isEmpty || (calls a.actor).finds σ

def Beyond (due : ℤ) (row : Option Row) : Prop :=
  ∃ r, row = some r ∧ ∀ e, L.parse r.dueAt = some e → due < e

def OnCalendar (key : Key) (row : Option Row) : Prop :=
  ∀ r, row = some r → ∃ due, r.dueAt = L.format due ∧ (σ key).spec.Matches due

section Occurrences

variable {L σ} {iso : Isolation} {calls cs : ℕ → Call} {tr us vs : CronHistory} {i tx : ℕ}
  {a : Act cronSig} {key : Key} {now due active : ℤ} {sink : Bool} {w : Write}
  {row : Option Row}

theorem of_readRow {columns : List Char × Option (List Char)}
    (h : readRow L key columns = .ok (due, active)) :
    L.parse columns.1 = some due ∧ readMark L key columns.2 = .ok active := by
  unfold readRow at h
  split at h
  · cases h
  · cases h
  · rename_i hd hm
    obtain ⟨rfl, rfl⟩ := Prod.mk.inj (Except.ok.inj h)
    exact ⟨hd, hm⟩

variable (hf : (Call.tick key sink now).finds σ = true)

include hf

theorem next_of_finds :
    now < (σ key).spec.next now ∧ (σ key).spec.Matches ((σ key).spec.next now) := by
  have hne : (σ key).spec.next now ≠ 0 := of_decide_eq_true hf
  exact ((σ key).spec.next_cases now).resolve_left hne

theorem OnCalendar.moves (hro : OnCalendar L σ key row) (hm : Moves L σ key now row w) :
    OnCalendar L σ key (w.onRow row) := by
  have hma := (next_of_finds hf).2
  intro r hr
  cases hm with
  | seed | take | skip =>
    cases hr
    exact ⟨_, rfl, hma⟩
  | release =>
    obtain ⟨r', hr', rfl⟩ := Option.map_eq_some_iff.mp hr
    exact hro r' hr'

theorem beyond_next (hb : due ≤ now) {r : Row}
    (hr : r.dueAt = L.format ((σ key).spec.next now)) : Beyond L due (some r) := by
  refine ⟨r, rfl, fun e he => ?_⟩
  rw [hr] at he
  rw [L.sound _ _ he]
  exact hb.trans_lt (next_of_finds hf).1

theorem Beyond.moves (hro : Beyond L due row) (hm : Moves L σ key now row w) :
    Beyond L due (w.onRow row) := by
  obtain ⟨r, rfl, hl⟩ := hro
  cases hm with
  | take hr hd | skip hr hd =>
    have hlt := hl _ (of_readRow hr).1
    exact beyond_next hf (hlt.le.trans hd) rfl
  | release => exact ⟨_, rfl, hl⟩

theorem Moves.beyond (hm : Moves L σ key now row w) (hs : w.serves key = true)
    (hd : ∃ r, row = some r ∧ L.parse r.dueAt = some due) : Beyond L due (w.onRow row) := by
  obtain ⟨r, rfl, hp⟩ := hd
  cases hm with
  | take hr hle | skip hr hle =>
    have heq := hp.symm.trans (of_readRow hr).1
    cases heq
    exact beyond_next hf hle rfl
  | release => cases hs

omit hf

theorem finds_of_found {c : Call} (hf : found σ cs us a = true) (hc : cs a.actor = c)
    (ho : landing us a = [w]) : c.finds σ = true := by
  rw [found, ho, hc] at hf
  simpa using hf

theorem Beyond.snoc (htr : Histories L σ iso cs (us ++ [a])) (hf : found σ cs us a = true)
    (h : Beyond L due (rowAt iso us key)) : Beyond L due (rowAt iso (us ++ [a]) key) := by
  obtain ⟨hs, -⟩ | ⟨sink, now, w, hc, ho, hm, hr⟩ := rowAt_snoc htr key
  · rwa [hs]
  · rw [hr]
    exact h.moves (finds_of_found hf hc ho) hm

theorem Beyond.append (htr : Histories L σ iso cs (us ++ vs))
    (hc : Throughout (fun us a => found σ cs us a = true) (us ++ vs))
    (h : Beyond L due (rowAt iso us key)) : Beyond L due (rowAt iso (us ++ vs) key) := by
  induction vs using reverseRecOn with
  | nil => rwa [append_nil]
  | append_singleton vs a ih =>
    rw [← append_assoc] at htr hc ⊢
    exact (ih htr.of_append hc.of_append).snoc htr hc.last

theorem onCalendar (htr : Histories L σ iso cs tr)
    (hc : Throughout (fun us a => found σ cs us a = true) tr) :
    OnCalendar L σ key (rowAt iso tr key) := by
  induction tr using reverseRecOn with
  | nil => rintro r ⟨⟩
  | append_singleton tr a ih =>
    have hb := ih htr.of_append hc.of_append
    obtain ⟨hs, -⟩ | ⟨sink, now, w, hca, ho, hm, hr⟩ := rowAt_snoc htr key
    · rwa [hs]
    · rw [hr]
      exact hb.moves (finds_of_found hc.last hca ho) hm

theorem serves_key (h : w.serves key = true) : w.key = key := by
  cases w with
  | take | skip => exact of_decide_eq_true h
  | _ => cases h

theorem Serves.beyond (htr : Histories L σ iso cs (us ++ [a]))
    (hf : found σ cs us a = true) (hs : Serves L iso us a key due) :
    Beyond L due (rowAt iso (us ++ [a]) key) := by
  obtain ⟨⟨w, hw, hse⟩, hd⟩ := hs
  obtain ⟨-, ho⟩ | ⟨sink, now, w', hc, hon, hm, hr⟩ := rowAt_snoc htr key
  · exact absurd (serves_key hse) (ho w hw)
  · rw [hon] at hw
    obtain rfl := mem_singleton.mp hw
    rw [hr]
    exact hm.beyond (finds_of_found hf hc hon) hse hd

theorem not_serves_later {b : Act cronSig} {ws : CronHistory}
    (htr : Histories L σ iso cs (us ++ a :: (vs ++ b :: ws)))
    (hc : Throughout (fun us a => found σ cs us a = true) (us ++ a :: (vs ++ b :: ws)))
    (hs : Serves L iso us a key due) : ¬ Serves L iso (us ++ a :: vs) b key due := by
  rintro ⟨-, r, hr, hp⟩
  rw [append_cons, ← append_assoc] at htr hc
  have hb := htr.of_append
  have hf := hc.of_append
  have hbe : Beyond L due (rowAt iso (us ++ [a]) key) :=
    hs.beyond hb.of_append hf.of_append.last
  obtain ⟨r', hr', hl⟩ := hbe.append hb hf
  rw [← append_cons, hr] at hr'
  cases hr'
  exact (hl _ hp).false

variable (htr : Histories L σ iso cs tr)

include htr

theorem Served.serves (hs : Served L key now due active w (own i tr)) (hse : w.serves key = true) :
    ∃ us a vs, tr = us ++ a :: vs ∧ a.actor = i ∧ Serves L iso us a key due := by
  obtain ⟨tx, co, t, hre, -, k, how⟩ := hs
  have hc : own i tr = [begun tx, rowRead tx key (some co), executed tx w t] ++
      committed tx :: k := how.symm
  obtain ⟨us, vs, rfl, hp, -⟩ := exists_split_of_own hc
  refine ⟨us, _, vs, rfl, rfl, ?_⟩
  have hw : ∀ r, w.touches (some r) = true := by
    intro r
    cases w with
    | take => rfl
    | skip => rfl
    | _ => cases hse
  obtain rfl : t = true :=
    touched_of_read htr.of_append hp (serves_key hse) hw
  rw [append_cons] at htr
  have hla : lands (D := schema) (T := envSig) (committed tx) = some tx := rfl
  obtain ⟨ho, -⟩ := conclude_facts htr.of_append hla
  obtain ⟨r, hr, rfl⟩ := read_stands htr.of_append.of_append hp ho
  refine ⟨⟨w, ?_, hse⟩, r, hr, (of_readRow hre).1⟩
  have hl : landing us ⟨i, committed tx⟩ = stated writesOf tx (own i us) := rfl
  rw [hl, hp]
  change w ∈ stated writesOf tx
    ([begun tx, rowRead tx key (some (r.dueAt, r.activeAt))] ++ [executed tx w true])
  rw [stated_append, executed, stated_answered]
  exact mem_concat_self

theorem Took.serves (ht : Took L σ key now due (own i tr)) :
    ∃ us a vs, tr = us ++ a :: vs ∧ a.actor = i ∧ Serves L iso us a key due := by
  obtain ⟨active, -, hs⟩ := ht
  exact hs.serves htr (decide_eq_true rfl)

theorem Skipped.serves (ht : Skipped L σ key now due (own i tr)) :
    ∃ us a vs, tr = us ++ a :: vs ∧ a.actor = i ∧ Serves L iso us a key due := by
  obtain ⟨active, -, hs⟩ := ht
  exact hs.serves htr (decide_eq_true rfl)

omit htr

theorem Serves.matches (htr : Histories L σ iso cs us)
    (hc : Throughout (fun us a => found σ cs us a = true) us)
    (hs : Serves L iso us a key due) : (σ key).spec.Matches due := by
  obtain ⟨-, r, hr, hp⟩ := hs
  obtain ⟨due', hd, hm⟩ := onCalendar htr hc r hr
  rw [hd] at hp
  rwa [L.sound _ _ hp]

theorem due_advances (htr : Histories L σ iso cs (us ++ [a])) (hf : found σ cs us a = true)
    {r : Row} (hr : rowAt iso us key = some r) :
    ∃ r', rowAt iso (us ++ [a]) key = some r' ∧ (r'.dueAt = r.dueAt ∨
      ∃ due due', L.parse r.dueAt = some due ∧ r'.dueAt = L.format due' ∧ due < due') := by
  obtain ⟨hs, -⟩ | ⟨sink, now, w, hc, ho, hm, hro⟩ := rowAt_snoc htr key
  · exact ⟨r, hs.trans hr, .inl rfl⟩
  have hl := (next_of_finds (finds_of_found hf hc ho)).1
  rw [hro, hr]
  rw [hr] at hm
  cases hm with
  | take hre hd | skip hre hd =>
    exact ⟨_, rfl, .inr ⟨_, _, (of_readRow hre).1, rfl, hd.trans_lt hl⟩⟩
  | release => exact ⟨_, rfl, .inl rfl⟩

/-- Occurrences under any interleaving of ticks, as long as the calendar has a next instant whenever
a row is written. The due time of a schedule only moves to later instants. A plane fires an
occurrence after it has taken it from the row, and whoever reports one as fired or skipped has taken
or passed it over there; each of these occurrences is an instant of the calendar, and none is
served twice. -/
theorem occurrences_served_once (htr : Reach (cronWorld iso) (fun i => (calls i).prog L σ) tr)
    (hcond : Throughout (fun us a => found σ calls us a = true) tr) :
    (∀ us a vs key r, tr = us ++ a :: vs → rowAt iso us key = some r →
      ∃ r', rowAt iso (us ++ [a]) key = some r' ∧ (r'.dueAt = r.dueAt ∨
        ∃ due due', L.parse r.dueAt = some due ∧ r'.dueAt = L.format due' ∧ due < due')) ∧
    (∀ us i tenantID pipelineID values answer vs,
      tr = us ++ ⟨i, fired tenantID pipelineID values answer⟩ :: vs →
      ∃ key sink now due xs a ys, calls i = .tick key sink now ∧ us = xs ++ a :: ys ∧ a.actor = i ∧
        Serves L iso xs a key due ∧ (σ key).spec.Matches due ∧
        (σ key).inputs L key due now = .ok values) ∧
    (∀ i key sink now o err, calls i = .tick key sink now →
      Returns ((calls i).prog L σ) (own i tr) (o, err) → (o.fired = true ∨ o.skipped = true) →
      ∃ us a vs, tr = us ++ a :: vs ∧ a.actor = i ∧ Serves L iso us a key o.scheduledFor ∧
        (σ key).spec.Matches o.scheduledFor) ∧
    ∀ us a vs us' a' vs' key due, tr = us ++ a :: vs → tr = us' ++ a' :: vs' →
      Serves L iso us a key due → Serves L iso us' a' key due → us = us' ∧ a.actor = a'.actor := by
  have hg : Histories L σ iso calls tr := htr.guarded fun i => wp_prog (calls i)
  refine ⟨?_, ?_, ?_, ?_⟩
  · rintro us a vs key r rfl hr
    rw [append_cons] at hg
    exact due_advances hg.of_append (hcond us a vs rfl) hr
  · rintro us i tenantID pipelineID values answer vs rfl
    have hj : (calls i).Justified L σ (own i us) _ := (hg.at_split).2
    cases hc : calls i with
    | crash tx =>
      rw [hc] at hj
      exact hj.elim
    | tick key sink now =>
      rw [hc] at hj
      obtain ⟨due, ht, -, -, hin⟩ := hj
      obtain ⟨xs, a, ys, rfl, ha, hse⟩ := ht.serves hg.of_append
      exact ⟨key, sink, now, due, xs, a, ys, rfl, rfl, ha, hse,
        hse.matches hg.of_append.of_append hcond.of_append.of_append, hin⟩
  · intro i key sink now o err hc hrt hd
    have hrp := wp_returns (wp_prog (calls i)) hrt
    rw [hc] at hrp
    have hsp : ∃ us a vs, tr = us ++ a :: vs ∧ a.actor = i ∧
        Serves L iso us a key o.scheduledFor := by
      rcases hd with hd | hd
      · exact (hrp.1 hd).serves hg
      · exact (hrp.2 hd).serves hg
    obtain ⟨us, a, vs, rfl, ha, hse⟩ := hsp
    exact ⟨us, a, vs, rfl, ha, hse, hse.matches hg.of_append hcond.of_append⟩
  · rintro us a vs us' a' vs' key due rfl heq hs hs'
    rcases append_eq_append_iff.mp heq with ⟨zs, rfl, hre⟩ | ⟨zs, rfl, hre⟩
    · cases zs with
      | nil =>
        exact ⟨(append_nil us).symm, by rw [(cons.inj hre).1]⟩
      | cons z zs =>
        obtain ⟨rfl, rfl⟩ := cons.inj hre
        exact absurd hs' (not_serves_later hg hcond hs)
    · cases zs with
      | nil =>
        exact ⟨append_nil us', by rw [(cons.inj hre).1]⟩
      | cons z zs =>
        obtain ⟨rfl, rfl⟩ := cons.inj hre
        rw [append_assoc] at hg hcond
        exact absurd hs (not_serves_later hg hcond hs')

end Occurrences

/-! ### Expressions that name no day -/

def everyTen : Spec where
  next t := 10 * (t / 10) + 10
  Matches t := t % 10 = 0
  next_cases t := by omega

/-- As the thirtieth of February. -/
def never : Spec where
  next _ := 0
  Matches _ := False
  next_cases _ := .inl rfl

def nightly : Key := ⟨"acme", "nightly"⟩

def scheduleOf (spec : Spec) : Key → Schedule := fun _ =>
  { expression := "", pipelineID := "build", inputMapping := [("at", "scheduled_for")], spec,
    lease := 100 }

def threeTicks : ℕ → Call
  | 0 => .tick nightly true 1
  | 1 => .tick nightly true 12
  | _ => .tick nightly true 13

/-- A plane arms the schedule, another serves it, and so does a third. -/
def ticksOf (spec : Spec) : CronHistory :=
  exec (cronWorld .serial) (honestCron .serial) (fun i => (threeTicks i).prog strokes (scheduleOf spec))
    [0, 0, 0, 0, 1, 1, 1, 1, 1, 1, 1, 1, 2, 2, 2, 2, 2, 2, 2, 2]

theorem ticksOf_reach (spec : Spec) : Reach (cronWorld .serial)
    (fun i => (threeTicks i).prog strokes (scheduleOf spec)) (ticksOf spec) :=
  exec_reach _ _ (honestCron_answers .serial) _ _

def fires (tr : CronHistory) : List (ℕ × List (String × String)) :=
  tr.filterMap fun a => match a.event with
    | ⟨.inr (.fire _ _ inputs), _⟩ => some (a.actor, inputs)
    | _ => none

theorem ten_fires_once : fires (ticksOf everyTen) = [(1, [("at", "+iiiiiiiiii")])] ∧
      ∀ us a vs us' a' vs' key due, ticksOf everyTen = us ++ a :: vs →
        ticksOf everyTen = us' ++ a' :: vs' → Serves strokes .serial us a key due →
        Serves strokes .serial us' a' key due → us = us' ∧ a.actor = a'.actor :=
  ⟨by decide +kernel,
    (occurrences_served_once (ticksOf_reach everyTen) (by decide +kernel)).2.2.2⟩

/-- An expression that names no day is armed for the zero time and fired at it by every tick. -/
theorem never_fires_repeatedly :
    Reach (cronWorld .serial) (fun i => (threeTicks i).prog strokes (scheduleOf never))
        (ticksOf never) ∧
      fires (ticksOf never) = [(1, [("at", "+")]), (2, [("at", "+")])] ∧ ¬ never.Matches 0 :=
  ⟨ticksOf_reach never, by decide +kernel, id⟩

end Dhole.Cron
