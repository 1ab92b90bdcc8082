import Dhole.CronOccurrences

/-! Fires in flight. A taken occurrence leaves a mark on the row that is believed for the length of
the lease and cleared when the fire returns. The mark does not say whose it is: a fire that outlived
its lease clears that of the fire which took over. As long as every release clears the mark of its
own take, no occurrence is taken while another is in flight within its lease. -/

namespace Dhole.Cron

open Interleave Prog Transact List

variable (L : Layout) (σ : Key → Schedule)

def Write.takes (key : Key) : Write → Bool
  | .take k .. => k = key
  | _ => false

def takes (key : Key) (us : CronHistory) (a : Act cronSig) : Bool := (landing us a).any (Write.takes key)

/-- Who has taken an occurrence of the schedule last, as the history goes on. -/
def holderFrom (key : Key) : CronHistory × Option ℕ → Act cronSig → CronHistory × Option ℕ
  | (us, last), a => (us ++ [a], if takes key us a then some a.actor else last)

def holder (key : Key) (tr : CronHistory) : Option ℕ := (tr.foldl (holderFrom key) ([], none)).2

def Call.dated : Call → Bool
  | .tick _ _ now => now ≠ 0
  | .crash _ => true

/-- Rows are moved on to an instant of the calendar, nothing is taken at the zero time, and who
releases was the last to take. -/
def orderly (calls : ℕ → Call) (us : CronHistory) (a : Act cronSig) : Bool :=
  found σ calls us a && (landing us a).all fun
    | .take .. => (calls a.actor).dated
    | .release key => holder key us = some a.actor
    | _ => true

/-- The plane that took the occurrence has released it since. -/
def ReleasedIn (us ys : CronHistory) (i : ℕ) (key : Key) : Prop :=
  ∃ ys₁ c ys₂, ys = ys₁ ++ c :: ys₂ ∧ c.actor = i ∧ .release key ∈ landing (us ++ ys₁) c

/-- A fire in flight: its mark stands, or the schedule is not due within its lease. -/
def Guards (key : Key) (i : ℕ) (since : ℤ) (last : Option ℕ) (row : Option Row) : Prop :=
  (last = some i ∧ ∃ r, row = some r ∧ r.activeAt = some (L.format since)) ∨
    Beyond L (since + (σ key).lease) row

variable {L σ} {iso : Isolation} {calls cs : ℕ → Call} {tr us vs ys : CronHistory} {i : ℕ}
  {a b : Act cronSig} {key : Key} {now since : ℤ} {sink : Bool} {w : Write} {row : Option Row}

theorem holderFrom_fst (key : Key) (tr : CronHistory) (s : CronHistory × Option ℕ) :
    (tr.foldl (holderFrom key) s).1 = s.1 ++ tr := by
  induction tr generalizing s with
  | nil => exact (append_nil _).symm
  | cons a tr ih => rw [foldl_cons, ih, holderFrom, append_assoc, singleton_append]

theorem holder_snoc (tr : CronHistory) (a : Act cronSig) :
    holder key (tr ++ [a]) = if takes key tr a then some a.actor else holder key tr := by
  have hf := holderFrom_fst key tr ([], none)
  rw [holder, foldl_append, foldl_cons, holderFrom, hf]
  rfl

theorem holder_of_not_takes (h : takes key us a = false) : holder key (us ++ [a]) = holder key us := by
  rw [holder_snoc, h]
  rfl

theorem not_takes_of_other (h : ∀ w ∈ landing us a, w.key ≠ key) : takes key us a = false := by
  refine any_eq_false.mpr fun w hw ht => h w hw ?_
  cases w with
  | take => exact of_decide_eq_true ht
  | _ => cases ht

theorem readMark_format {active : ℤ} (h : readMark L key (some (L.format since)) = .ok active) :
    active = since := by
  rw [readMark, if_neg (L.nonempty since)] at h
  cases hp : L.parse (L.format since) with
  | none =>
    rw [hp] at h
    cases h
  | some t =>
    rw [hp] at h
    cases h
    exact L.sound _ _ hp

theorem Guards.expired {last : Option ℕ} {r : Row} {due active : ℤ} (hs : since ≠ 0)
    (hg : Guards L σ key i since last (some r))
    (hre : readRow L key (r.dueAt, r.activeAt) = .ok (due, active)) (hd : due ≤ now)
    (hf : (σ key).busy active now = false) : since + (σ key).lease ≤ now := by
  obtain ⟨hp, hm⟩ := of_readRow hre
  rcases hg with ⟨-, r', hr', ha⟩ | ⟨r', hr', hl⟩
  · cases hr'
    rw [ha] at hm
    have hb := of_decide_eq_false hf
    rw [readMark_format hm] at hb
    omega
  · cases hr'
    exact (hl due hp).le.trans hd

theorem Guards.snoc (htr : Histories L σ iso cs (us ++ [a]))
    (hok : orderly σ cs us a = true) (hs : since ≠ 0)
    (hg : Guards L σ key i since (holder key us) (rowAt iso us key)) :
    (a.actor = i ∧ .release key ∈ landing us a) ∨
      Guards L σ key i since (holder key (us ++ [a])) (rowAt iso (us ++ [a]) key) := by
  obtain ⟨hfo, hal⟩ := Bool.and_eq_true_iff.mp hok
  obtain ⟨hsa, ho⟩ | ⟨sink, now, w, hc, hon, hm, hro⟩ := rowAt_snoc htr key
  · rw [hsa, holder_of_not_takes (not_takes_of_other ho)]
    exact .inr hg
  have hf := finds_of_found hfo hc hon
  rw [hro]
  -- beyond its lease it stays; a standing mark is kept, replaced after the lease, or cleared
  rcases hg with ⟨hl, r, hr, ha⟩ | hb
  · rw [hr] at hm ⊢
    cases hm with
    | take hre hd hfr =>
      have he := Guards.expired hs (.inl ⟨hl, r, rfl, ha⟩) hre hd hfr
      exact .inr (.inr (beyond_next hf he rfl))
    | skip =>
      have hn : takes key us a = false := by
        rw [takes, hon]
        rfl
      rw [holder_of_not_takes hn]
      exact .inr (.inl ⟨hl, _, rfl, ha⟩)
    | release =>
      rw [hon, all_cons, all_nil, Bool.and_true] at hal
      have how := of_decide_eq_true hal
      rw [hl] at how
      refine .inl ⟨(Option.some.inj how).symm, ?_⟩
      rw [hon]
      exact mem_singleton_self _
  · exact .inr (.inr (hb.moves hf hm))

theorem released_or_guards (htr : Histories L σ iso cs (us ++ ys))
    (hc : Throughout (fun us a => orderly σ cs us a = true) (us ++ ys)) (hs : since ≠ 0)
    (hg : Guards L σ key i since (holder key us) (rowAt iso us key)) : ReleasedIn us ys i key ∨
      Guards L σ key i since (holder key (us ++ ys)) (rowAt iso (us ++ ys) key) := by
  induction ys using reverseRecOn with
  | nil =>
    rw [append_nil]
    exact .inr hg
  | append_singleton ys a ih =>
    rw [← append_assoc] at htr hc ⊢
    rcases ih htr.of_append hc.of_append with ⟨ys₁, c, ys₂, rfl, ha, hr⟩ | hg
    · exact .inl ⟨ys₁, c, ys₂ ++ [a], by simp, ha, hr⟩
    · rcases hg.snoc htr hc.last hs with ⟨ha, hr⟩ | hg
      · exact .inl ⟨ys, a, [], rfl, ha, hr⟩
      · exact .inr hg

theorem takes_facts (htr : Histories L σ iso cs (us ++ [a])) (ht : takes key us a = true)
    (hc : cs a.actor = .tick key sink now) : ∃ r due active, rowAt iso us key = some r ∧
      readRow L key (r.dueAt, r.activeAt) = .ok (due, active) ∧ due ≤ now ∧
      (σ key).busy active now = false ∧ landing us a = [takeAt L σ key now] ∧
      ∃ r', rowAt iso (us ++ [a]) key = some r' ∧ r'.activeAt = some (L.format now) := by
  obtain ⟨-, ho⟩ | ⟨si', now', w, hc', hon, hm, hro⟩ := rowAt_snoc htr key
  · rw [not_takes_of_other ho] at ht
    cases ht
  rw [hc] at hc'
  cases hc'
  rw [takes, hon] at ht
  generalize hb : rowAt iso us key = before at hm hro
  cases hm with
  | take hr hd hf =>
    exact ⟨_, _, _, rfl, hr, hd, hf, hon, _, hro, rfl⟩
  | _ => cases ht

/-- Fires under any interleaving of ticks. As long as rows are moved on to an instant of the
calendar, nothing is taken at the zero time, and a fire that returns was the last to take, an
occurrence is taken only if every fire taken less than the lease earlier has been released by who
took it. -/
theorem one_fire_in_flight (htr : Reach (cronWorld iso) (fun i => (calls i).prog L σ) tr)
    (hcond : Throughout (fun us a => orderly σ calls us a = true) tr) :
    ∀ us a vs xs b ys key sink now sink' since, tr = us ++ a :: vs → us = xs ++ b :: ys →
      takes key us a = true → calls a.actor = .tick key sink now →
      takes key xs b = true → calls b.actor = .tick key sink' since →
      now - since < (σ key).lease → ReleasedIn (xs ++ [b]) ys b.actor key := by
  rintro _ a vs xs b ys key sink now sink' since rfl rfl ht hc ht' hc' hrc
  have hg : Histories L σ iso calls (xs ++ b :: ys ++ a :: vs) :=
    htr.guarded fun i => wp_prog (calls i)
  rw [append_cons] at hg hcond
  have hpa := hg.of_append.of_append
  rw [append_cons] at hpa
  have hp := hcond.of_append.of_append
  rw [append_cons] at hp
  obtain ⟨-, -, -, -, -, -, -, ho, r', hr', ha⟩ :=
    takes_facts hpa.of_append ht' hc'
  have hs : since ≠ 0 := by
    have hok := hp.of_append.last
    obtain ⟨-, hal⟩ := Bool.and_eq_true_iff.mp hok
    rw [ho, hc', all_cons, all_nil, Bool.and_true] at hal
    exact of_decide_eq_true hal
  have hst : Guards L σ key b.actor since (holder key (xs ++ [b])) (rowAt iso (xs ++ [b]) key) := by
    refine .inl ⟨?_, r', hr', ha⟩
    rw [holder_snoc, ht']
    rfl
  rcases released_or_guards hpa hp hs hst with hre | hgu
  · exact hre
  · obtain ⟨r, due, active, hr, hra, hd, hf, -, -⟩ := takes_facts hg.of_append ht hc
    rw [← append_cons, hr] at hgu
    have := hgu.expired hs hra hd hf
    omega

/-! ### A fire that returns late -/

def actorsFrom (p : CronHistory → Act cronSig → Bool) (us : CronHistory) : CronHistory → List ℕ
  | [] => []
  | a :: vs =>
    if p us a then a.actor :: actorsFrom p (us ++ [a]) vs else actorsFrom p (us ++ [a]) vs

def takers (tr : CronHistory) : List ℕ := actorsFrom (takes nightly) [] tr

def releasers (tr : CronHistory) : List ℕ :=
  actorsFrom (fun us a => .release nightly ∈ landing us a) [] tr

/-- The schedule is armed, and three planes find it due; the second a lease after the first, the
third soon after the second. -/
def fourTicks : ℕ → Call
  | 0 => .tick nightly true 1
  | 1 => .tick nightly true 10
  | 2 => .tick nightly true 115
  | _ => .tick nightly true 125

def ticksIn (order : List ℕ) : CronHistory :=
  exec (cronWorld .serial) (honestCron .serial)
    (fun i => (fourTicks i).prog strokes (scheduleOf everyTen)) order

theorem ticksIn_reach (order : List ℕ) : Reach (cronWorld .serial)
    (fun i => (fourTicks i).prog strokes (scheduleOf everyTen)) (ticksIn order) :=
  exec_reach _ _ (honestCron_answers .serial) _ _

def promptReturn : List ℕ := [0, 0, 0, 0, 1, 1, 1, 1, 1, 1, 1, 1, 2, 2, 2, 2, 2, 3, 3, 3, 3]

def lateReturn : List ℕ := [0, 0, 0, 0, 1, 1, 1, 1, 1, 2, 2, 2, 2, 2, 1, 1, 1, 3, 3, 3, 3]

theorem prompt_return_skips : takers (ticksIn promptReturn) = [1, 2] ∧
      ∀ us a vs xs b ys key sink now sink' since, ticksIn promptReturn = us ++ a :: vs →
        us = xs ++ b :: ys → takes key us a = true → fourTicks a.actor = .tick key sink now →
        takes key xs b = true → fourTicks b.actor = .tick key sink' since →
        now - since < (scheduleOf everyTen key).lease → ReleasedIn (xs ++ [b]) ys b.actor key :=
  ⟨by decide +kernel, one_fire_in_flight (ticksIn_reach promptReturn) (by decide +kernel)⟩

/-- The release of the first fire clears the mark of the second: the third occurrence is taken ten
after the second, which is not released. -/
theorem late_return_overlaps :
    Reach (cronWorld .serial) (fun i => (fourTicks i).prog strokes (scheduleOf everyTen))
        (ticksIn lateReturn) ∧
      takers (ticksIn lateReturn) = [1, 2, 3] ∧ releasers (ticksIn lateReturn) = [1] ∧
      125 - 115 < (scheduleOf everyTen nightly).lease :=
  ⟨ticksIn_reach lateReturn, by decide +kernel, by decide +kernel, by decide⟩

end Dhole.Cron
