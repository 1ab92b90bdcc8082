import Dhole.Registry

/-! How much an engine takes on. Each of its queues has a pump that waits for room, fetches a
dispatch and waits with it for a slot; a task then handles the delivery and gives the slot and the
room back. What runs is kept by a key of run, step and attempt, for the heartbeats to list. Two
deliveries of one dispatch share that key, and the first that ends takes it from the other. -/

namespace Dhole.Engine

open Function List
open Registry (Job)

inductive Pump where
  | idle
  | fetching
  | waiting (d : Job)
  | stopped

/-- How far a delivery is: it runs from the hold of its key to the release. -/
inductive Phase where
  | handling
  | running
  | ended
  | closing
deriving DecidableEq

structure State (n : ℕ) where
  pumps : Fin n → Pump := fun _ => .idle
  held : ℕ := 0
  used : ℕ := 0
  tasks : List (Phase × Job) := []
  inFlight : List Job := []

def jobKey (d : Job) : String := d.runID ++ "/" ++ d.stepID ++ "/" ++ toString d.attempt

variable {n : ℕ}

def snapshot (s : State n) : List Job := s.inFlight.mergeSort fun a b => jobKey a ≤ jobKey b

inductive Act where
  | quiet
  | hold (d : Job)
  | release (d : Job)

/-- A step of a pump or a task. A fetch may be answered after the engine has filled up, and what is
delivered may be a dispatch that is there already. -/
inductive Step (slots : ℕ) (s : State n) : Act → State n → Prop
  | wait {i : Fin n} : s.pumps i = .idle → s.held < slots →
    Step slots s .quiet { s with pumps := update s.pumps i .fetching }
  | abandon {i : Fin n} : s.pumps i = .fetching →
    Step slots s .quiet { s with pumps := update s.pumps i .idle }
  | deliver {i : Fin n} (d : Job) : s.pumps i = .fetching →
    Step slots s .quiet { s with pumps := update s.pumps i (.waiting d), held := s.held + 1 }
  | giveBack {i : Fin n} {d : Job} : s.pumps i = .waiting d →
    Step slots s .quiet { s with pumps := update s.pumps i .stopped, held := s.held - 1 }
  | start {i : Fin n} {d : Job} : s.pumps i = .waiting d → s.used < slots →
    Step slots s .quiet { s with pumps := update s.pumps i .idle, used := s.used + 1
                                 tasks := s.tasks ++ [(.handling, d)] }
  | skip {us vs : List (Phase × Job)} {d : Job} : s.tasks = us ++ (.handling, d) :: vs →
    Step slots s .quiet { s with tasks := us ++ (.ended, d) :: vs }
  | hold {us vs : List (Phase × Job)} {d : Job} : s.tasks = us ++ (.handling, d) :: vs →
    Step slots s (.hold d) { s with tasks := us ++ (.running, d) :: vs
                                    inFlight := d :: s.inFlight.filter (jobKey · ≠ jobKey d) }
  | release {us vs : List (Phase × Job)} {d : Job} : s.tasks = us ++ (.running, d) :: vs →
    Step slots s (.release d) { s with tasks := us ++ (.ended, d) :: vs
                                       inFlight := s.inFlight.filter (jobKey · ≠ jobKey d) }
  | free {us vs : List (Phase × Job)} {d : Job} : s.tasks = us ++ (.ended, d) :: vs →
    Step slots s .quiet { s with tasks := us ++ (.closing, d) :: vs, used := s.used - 1 }
  | leave {us vs : List (Phase × Job)} {d : Job} : s.tasks = us ++ (.closing, d) :: vs →
    Step slots s .quiet { s with tasks := us ++ vs, held := s.held - 1 }

/-- The steps taken from the start, each with the state before it. -/
inductive Run (slots : ℕ) : List (State n × Act) → State n → Prop
  | nil : Run slots [] {}
  | snoc {tr : List (State n × Act)} {s s' : State n} {a : Act} : Run slots tr s →
    Step slots s a s' → Run slots (tr ++ [(s, a)]) s'

variable {slots : ℕ} {s s' : State n} {a : Act} {tr : List (State n × Act)}

/-! ### Bounds -/

def fetching (pumps : Fin n → Pump) : Finset (Fin n) := {i | pumps i matches .fetching}

/-- The slots in use are those of the tasks, and an open fetch counts as a dispatch held. -/
structure Bounded (slots : ℕ) (s : State n) : Prop where
  counted : s.tasks.countP (fun t => t.1 ≠ .closing) = s.used
  used_le : s.used ≤ slots
  held_le : s.held + (fetching s.pumps).card ≤ slots + n

theorem fetching_update {pumps : Fin n → Pump} {x : Pump} {i : Fin n}
    (hx : (x matches .fetching) = false) :
    fetching (update pumps i x) = (fetching pumps).erase i := by
  ext j
  by_cases hj : j = i <;> simp [fetching, hj, hx]

theorem Bounded.step (h : Bounded slots s) (hs : Step slots s a s') : Bounded slots s' := by
  obtain ⟨hc, hu, hh⟩ := h
  cases hs with
  | @wait i hi hr =>
    have hn := Finset.card_le_univ (fetching (update s.pumps i .fetching))
    rw [Fintype.card_fin] at hn
    exact ⟨hc, hu, by dsimp only; omega⟩
  | @deliver i d hi =>
    have hm := Finset.card_erase_add_one (s := fetching s.pumps) (a := i) (by simp [fetching, hi])
    exact ⟨hc, hu, by rw [fetching_update rfl]; dsimp only; omega⟩
  | @abandon i hi | @giveBack i d hi =>
    have hm := Finset.card_erase_le (s := fetching s.pumps) (a := i)
    exact ⟨hc, hu, by rw [fetching_update rfl]; dsimp only; omega⟩
  | @start i d hi hr =>
    have hm := Finset.card_erase_le (s := fetching s.pumps) (a := i)
    exact ⟨by simp [← hc], hr, by rw [fetching_update rfl]; dsimp only; omega⟩
  | skip ht | hold ht | release ht | free ht | leave ht =>
    rw [ht] at hc
    refine ⟨?_, ?_, by dsimp only; omega⟩ <;> simp at hc ⊢ <;> omega

theorem Run.bounded (h : Run slots tr s) : Bounded slots s := by
  induction h with
  | nil => exact ⟨rfl, Nat.zero_le _, by simp [fetching]⟩
  | snoc _ hs ih => exact ih.step hs

/-! ### Heartbeats -/

def running (s : State n) : List Job := (s.tasks.filter fun t => t.1 = .running).map Prod.snd

/-- Within its slots, within one dispatch more for each queue, and all that runs is listed. -/
structure Fits (slots : ℕ) (s : State n) : Prop where
  running_le : (running s).length ≤ slots
  held_le : s.held ≤ slots + n
  listed : ∀ d ∈ running s, d ∈ snapshot s

/-- What starts shares its key only with deliveries of the same dispatch, and what ends with
none. -/
def Orderly (s : State n) : Act → Prop
  | .quiet => True
  | .hold d => ∀ e ∈ running s, jobKey e = jobKey d → e = d
  | .release d => ∀ e ∈ (running s).erase d, jobKey e ≠ jobKey d

theorem listed_step (hl : ∀ d ∈ running s, d ∈ snapshot s) (hs : Step slots s a s') :
    (∀ d ∈ running s', d ∈ snapshot s') ↔ Orderly s a := by
  simp only [snapshot, mem_mergeSort] at hl ⊢
  cases hs with
  | @hold us vs d ht =>
    have hm (e : Job) : e ∈ running { s with tasks := us ++ (.running, d) :: vs } ↔
        e = d ∨ e ∈ running s := by simp [running, ht, or_left_comm]
    simp only [mem_cons, mem_filter, decide_eq_true_eq]
    constructor
    · intro h e he hk
      exact (h e ((hm e).mpr (.inr he))).resolve_right fun hf => hf.2 hk
    · intro h e he
      rcases (hm e).mp he with rfl | he
      · exact .inl rfl
      · exact or_iff_not_imp_right.mpr fun hf => h e he (by_contra fun hk => hf ⟨hl e he, hk⟩)
  | @release us vs d ht =>
    have hp : ((running s).erase d).Perm (running { s with tasks := us ++ (.ended, d) :: vs }) := by
      simp only [running, ht, filter_append, map_append]
      exact (perm_middle.erase d).trans (by simp)
    simp only [Orderly, mem_filter, decide_eq_true_eq, hp.mem_iff]
    refine forall₂_congr fun e he => and_iff_right (hl e ?_)
    exact mem_of_mem_erase (hp.mem_iff.mpr he)
  | wait | abandon | deliver | giveBack => exact iff_of_true hl trivial
  | start | skip ht | free ht | leave ht => exact iff_of_true (by simpa [running, *] using hl) trivial

/-- An engine fits its capacity all the time exactly if it holds and releases keys in an orderly
way. -/
theorem capacity_iff (h : Run slots tr s) :
    (∀ x ∈ s :: tr.map Prod.fst, Fits slots x) ↔ ∀ x ∈ tr, Orderly x.1 x.2 := by
  have hle {x : State n} (hb : Bounded slots x) : (running x).length ≤ slots := by
    rw [running, length_map, ← countP_eq_length_filter]
    refine (countP_mono_left fun t _ ht => ?_).trans (hb.counted.le.trans hb.used_le)
    simp_all
  have hfit {x : State n} (hb : Bounded slots x) :
      Fits slots x ↔ ∀ d ∈ running x, d ∈ snapshot x :=
    ⟨Fits.listed, fun hl => ⟨hle hb, (Nat.le_add_right _ _).trans hb.held_le, hl⟩⟩
  induction h with
  | nil => simpa using (hfit Run.nil.bounded).mpr (by simp [running])
  | @snoc tr s s' a hr hs ih =>
    have hstep (hl : Fits slots s) : Fits slots s' ↔ Orderly s a :=
      (hfit (hr.snoc hs).bounded).trans (listed_step hl.listed hs)
    simp only [map_append, map_cons, forall_mem_cons, forall_mem_append] at ih ⊢
    constructor
    · rintro ⟨hs', ht, hf, -⟩
      exact ⟨ih.mp ⟨hf, ht⟩, (hstep hf).mp hs', forall_mem_nil _⟩
    · rintro ⟨ht, ho, -⟩
      obtain ⟨hf, ht⟩ := ih.mpr ht
      exact ⟨(hstep hf).mpr ho, ht, hf, forall_mem_nil _⟩

def build : Job := ⟨"run", "build", 1, "7"⟩

theorem one_delivery_fits : ∃ s : State 1, running s = [build] ∧ Fits 2 s := by
  have r : Run 2 [] ({} : State 1) := .nil
  have r := r.snoc (.wait (i := 0) rfl (by decide))
  have r := r.snoc (.deliver (i := 0) build rfl)
  have r := r.snoc (.start (i := 0) rfl (by decide))
  have r := r.snoc (.hold rfl)
  exact ⟨_, rfl, (capacity_iff r).mpr (by simp [Orderly, running]) _ mem_cons_self⟩

/-- One dispatch is delivered twice, and one of the deliveries ends. -/
theorem redelivery_unlisted : ∃ tr, ∃ s : State 1, Run 2 tr s ∧ build ∈ running s ∧
    build ∉ snapshot s := by
  have r : Run 2 [] ({} : State 1) := .nil
  have r := r.snoc (.wait (i := 0) rfl (by decide))
  have r := r.snoc (.deliver (i := 0) build rfl)
  have r := r.snoc (.start (i := 0) rfl (by decide))
  have r := r.snoc (.hold rfl)
  have r := r.snoc (.wait (i := 0) rfl (by decide))
  have r := r.snoc (.deliver (i := 0) build rfl)
  have r := r.snoc (.start (i := 0) rfl (by decide))
  have r := r.snoc (.hold rfl)
  have r := r.snoc (.release rfl)
  exact ⟨_, _, r, by simp [running], by simp [snapshot]⟩

end Dhole.Engine
