import Dhole.Fairness

/-! Whole runs of the fair queue: any sequence of arrivals and calls for slots. Nothing is
lost and each tenant is served in the order of its arrivals; how many items one tenant gets
between two items of another depends on where the cursor stands when a tenant joins. -/

namespace Dhole.Fairness

open List
open Function (update update_self update_of_ne)
open Plane (QueueItem)

/-- What a queue goes through, one arrival or one item served after the other. `ok` is what
is known of the arrivals. -/
inductive Reaches (ok : Queue → List Happening → Entry → Prop) (q₀ : Queue) :
    List Happening → Queue → Prop
  | start : Reaches ok q₀ [] q₀
  | arrived {tr : List Happening} {q : Queue} {e : Entry} (h : Reaches ok q₀ tr q)
      (hok : ok q tr e) : Reaches ok q₀ (tr ++ [.arrived e]) (q.accept e)
  | served {tr : List Happening} {q : Queue} {e : Entry} {tenant : String} {tq : TenantQueue}
      {items : List Entry} {deficit : ℕ} (h : Reaches ok q₀ tr q)
      (hs : q.Serves e tenant tq items deficit) :
      Reaches ok q₀ (tr ++ [.served e]) (q.afterServing tenant tq items deficit)

def EachCall (P : Queue → List Happening → Call → Prop) (q : Queue) (tr : List Happening) :
    List Call → Prop
  | [] => True
  | c :: calls => P q tr c ∧ match q.call c with
    | none => True
    | some (q', happened) => EachCall P q' (tr ++ happened) calls

def decideEachCall (P : Queue → List Happening → Call → Prop)
    [∀ q tr c, Decidable (P q tr c)] :
    (q : Queue) → (tr : List Happening) → (calls : List Call) → Decidable (EachCall P q tr calls)
  | _, _, [] => .isTrue trivial
  | q, tr, c :: calls =>
    have : Decidable (match q.call c with
        | none => True
        | some (q', happened) => EachCall P q' (tr ++ happened) calls) :=
      match q.call c with
      | none => .isTrue trivial
      | some (q', happened) => decideEachCall P q' (tr ++ happened) calls
    inferInstanceAs (Decidable (P q tr c ∧ _))

instance (P : Queue → List Happening → Call → Prop) [∀ q tr c, Decidable (P q tr c)] (q : Queue)
    (tr : List Happening) (calls : List Call) : Decidable (EachCall P q tr calls) :=
  decideEachCall P q tr calls

variable {ok : Queue → List Happening → Entry → Prop} {q₀ q q' : Queue} {tr : List Happening}
  {cs : List Call} {t : String}

theorem Reaches.sound (h : Reaches ok q₀ tr q) (hq₀ : q₀.Sound) : q.Sound := by
  induction h with
  | start => exact hq₀
  | arrived _ _ ih => exact ih.accept
  | served _ hs ih => exact ih.serves hs

theorem Reaches.servesAll {es : List Entry} (h : Reaches ok q₀ tr q)
    (ha : q.ServesAll es q') : Reaches ok q₀ (tr ++ es.map .served) q' := by
  induction ha generalizing tr with
  | nil q => simpa using h
  | cons first rest ih => simpa using ih (h.served first)

def arrivalOk (ok : Queue → List Happening → Entry → Prop) (q : Queue) (tr : List Happening) :
    Call → Prop
  | .enqueue _ now item enqueuedAt => ok q tr ⟨item, enqueuedAt.getD now⟩
  | .next .. => True

instance [∀ q tr e, Decidable (ok q tr e)] (q : Queue) (tr : List Happening) (c : Call) :
    Decidable (arrivalOk ok q tr c) :=
  match c with
  | .enqueue _ now item enqueuedAt => inferInstanceAs (Decidable (ok q tr ⟨item, enqueuedAt.getD now⟩))
  | .next .. => .isTrue trivial

theorem Reaches.call (h : Reaches ok q₀ tr q) (hq₀ : q₀.Sound) (c : Call) (hok : arrivalOk ok q tr c) :
    ∃ q' ha, q.call c = some (q', ha) ∧ Reaches ok q₀ (tr ++ ha) q' := by
  cases c with
  | enqueue cancelled now item en =>
    cases hr : q.enqueue cancelled now item en with
    | error err => exact ⟨q, [], by simp [Queue.call, hr], by simpa using h⟩
    | ok q' =>
      have hq' : q' = q.accept ⟨item, en.getD now⟩ := by
        unfold Queue.enqueue at hr
        split_ifs at hr
        exact (Except.ok.inj hr).symm
      exact ⟨q', _, by simp [Queue.call, hr], hq' ▸ h.arrived hok⟩
  | next cancelled slots =>
    by_cases hf : cancelled = true ∨ slots ≤ 0
    · refine ⟨q, [], ?_, by simpa using h⟩
      obtain rfl | hs := hf
      · rfl
      · cases cancelled <;> simp [Queue.call, Queue.next, hs]
    · obtain ⟨hc, hs⟩ := not_or.mp hf
      obtain ⟨q', out, hn, hal, -⟩ := (h.sound hq₀).next_eq_some (not_le.mp hs)
      exact ⟨q', out.map .served, by simp [Queue.call, hc, hn], h.servesAll hal⟩

theorem Reaches.run (h : Reaches ok q₀ tr q) (hq₀ : q₀.Sound)
    (hok : EachCall (arrivalOk ok) q tr cs) :
    ∃ q' tr', q.run tr cs = some (q', tr') ∧ Reaches ok q₀ tr' q' := by
  induction cs generalizing q tr with
  | nil => exact ⟨q, tr, rfl, h⟩
  | cons c cs ih =>
    obtain ⟨hc, hre⟩ := hok
    obtain ⟨q₁, ha, hca, hr⟩ := h.call hq₀ c hc
    rw [hca] at hre
    obtain ⟨q', tr', hru, hr'⟩ := ih hr hre
    exact ⟨q', tr', by simp [Queue.run, hca, hru], hr'⟩

/-! ### Nothing is lost -/

def Happening.servedTo (t : String) : Happening → Option Entry
  | .served e => if e.tenant = t then some e else none
  | .arrived _ => none

def Happening.arrivedFor (t : String) : Happening → Option Entry
  | .arrived e => if e.tenant = t then some e else none
  | .served _ => none

def servedTo (t : String) (tr : List Happening) : List Entry := tr.filterMap (Happening.servedTo t)

def arrivedFor (t : String) (tr : List Happening) : List Entry :=
  tr.filterMap (Happening.arrivedFor t)

/-- The counter, the ring and the deficits agree with the queues of the tenants; what was
served to a tenant and what it has queued is what arrived for it, in order; a call for slots
returns as many items as it can, and one for all the slots needed returns the rest. -/
structure Conserves (q : Queue) (tr : List Happening) : Prop where
  pending : q.pending = ∑ᶠ t, (q.itemsOf t).length
  nodup : q.active.Nodup
  mem_active : ∀ t, t ∈ q.active ↔ q.itemsOf t ≠ []
  once : ∀ t, servedTo t tr ++ q.itemsOf t = arrivedFor t tr
  next : ∀ n : ℤ, 0 < n → ∃ q' out, q.next false n = some (.ok (q', out)) ∧
    (out.length : ℤ) = min n q.pending ∧
    (q.pending ≤ n → ∀ t, servedTo t (tr ++ out.map .served) = arrivedFor t tr)
  idle : ∀ t tq, q.tenants t = some tq → ¬ (q.turnOpen = true ∧ q.active[q.cursor]? = some t) →
    tq.deficit = 0
  turn : q.turnOpen = true → ∃ t tq, q.active[q.cursor]? = some t ∧ q.tenants t = some tq ∧
    0 < tq.deficit ∧ tq.deficit < q.weightFor t

theorem arrivedFor_served (tr : List Happening) (es : List Entry) :
    arrivedFor t (tr ++ es.map .served) = arrivedFor t tr := by
  have hn : (es.map Happening.served).filterMap (Happening.arrivedFor t) = [] := by
    simp [Happening.arrivedFor]
  rw [arrivedFor, filterMap_append, hn, append_nil]
  rfl

theorem Reaches.once (h : Reaches ok q₀ tr q) (hq₀ : q₀.Sound) (he : ∀ t, q₀.itemsOf t = []) :
    servedTo t tr ++ q.itemsOf t = arrivedFor t tr := by
  induction h with
  | start => exact he t
  | @arrived tr q e _ _ ih =>
    unfold servedTo arrivedFor at *
    rw [filterMap_append, filterMap_append, ← ih, Queue.itemsOf_accept]
    by_cases hne : t = e.tenant
    · subst hne
      simp [Happening.servedTo, Happening.arrivedFor]
    · simp [Happening.servedTo, Happening.arrivedFor, update_of_ne hne, Ne.symm hne]
  | @served tr q e ten tq its de hr hs ih =>
    have ho : e.tenant = ten :=
      (hr.sound hq₀).owner ten e (by rw [hs.itemsOf]; exact mem_cons_self)
    unfold servedTo arrivedFor at *
    rw [Queue.afterServing, Queue.itemsOf_settle]
    by_cases hne : t = ten
    · subst hne
      rw [hs.itemsOf] at ih
      simp [Happening.servedTo, Happening.arrivedFor, ho, ← ih]
    · simp [Happening.servedTo, Happening.arrivedFor, ho, update_of_ne hne, Ne.symm hne, ← ih]

theorem newQueue_sound {cfg : QueueConfig} (h : newQueue cfg = .ok q) :
    q.Sound ∧ ∀ t, q.itemsOf t = [] := by
  obtain ⟨weights, defaultWeight, rfl⟩ : ∃ weights defaultWeight,
      q = { weights, defaultWeight } := by
    unfold newQueue at h
    cases hw : readWeights cfg.weights with
    | error err => simp [hw, bind, Except.bind] at h
    | ok weights =>
      simp only [hw, bind] at h
      split_ifs at h
      · exact ⟨_, _, (Except.ok.inj h).symm⟩
      · split at h
        · cases h
        · exact ⟨_, _, (Except.ok.inj h).symm⟩
  refine ⟨⟨le_rfl, nodup_nil, ?_, rfl, ?_, ?_, ?_, ?_⟩, fun t => rfl⟩ <;> simp [Queue.itemsOf]

theorem Queue.Sound.pending_eq_finsum (h : q.Sound) : q.pending = ∑ᶠ t, (q.itemsOf t).length := by
  have hs : (Function.support fun t => (q.itemsOf t).length) ⊆ (q.active.toFinset : Set String) := by
    intro t ht
    have hne : q.itemsOf t ≠ [] := fun hn => ht (by simp [hn])
    simpa using (h.mem_active t).mpr hne
  rw [h.pending, finsum_eq_sum_of_support_subset _ hs, sum_toFinset _ h.nodup]

theorem Reaches.conserves (h : Reaches ok q₀ tr q) (hq₀ : q₀.Sound)
    (he : ∀ t, q₀.itemsOf t = []) : Conserves q tr := by
  have hq := h.sound hq₀
  refine ⟨hq.pending_eq_finsum, hq.nodup, hq.mem_active, fun t => h.once hq₀ he, ?_, ?_, ?_⟩
  · intro n hn
    obtain ⟨q', out, hnx, ha, hl⟩ := hq.next_eq_some hn
    refine ⟨q', out, hnx, by omega, fun hle t => ?_⟩
    have hq' := ha.sound hq
    have hp := ha.pending hq
    have hr : q'.itemsOf t = [] := by
      by_contra hne
      have hm := (hq'.mem_active t).mpr hne
      have hs := single_le_sum (by simp) _
        (mem_map_of_mem (f := fun t => (q'.itemsOf t).length) hm)
      have hpo : 0 < (q'.itemsOf t).length := length_pos_of_ne_nil hne
      rw [← hq'.pending] at hs
      omega
    have hon := (h.servesAll ha).once (t := t) hq₀ he
    rwa [hr, append_nil, arrivedFor_served] at hon
  · intro t tq htq hno
    exact hq.idle t tq htq fun ho hat => hno ⟨ho, hat⟩
  · intro ho
    obtain ⟨t, tq, hat, htq, hpo, hlt⟩ := hq.turn ho
    exact ⟨t, tq, hat, htq, hpo, by rwa [← hq.weight t tq htq]⟩

theorem eachCall_true (q : Queue) (tr : List Happening) (cs : List Call) :
    EachCall (arrivalOk fun _ _ _ => True) q tr cs := by
  induction cs generalizing q tr with
  | nil => trivial
  | cons c cs ih =>
    refine ⟨by cases c <;> trivial, ?_⟩
    split
    · trivial
    · exact ih _ _

/-- For every configuration and every sequence of calls, in any order. -/
theorem queue_conservation {cfg : QueueConfig} {q₀ : Queue} (h : newQueue cfg = .ok q₀)
    (calls : List Call) : ∃ q tr, q₀.run [] calls = some (q, tr) ∧ Conserves q tr := by
  obtain ⟨hq₀, he⟩ := newQueue_sound h
  obtain ⟨q, tr, hru, hr⟩ := Reaches.run .start hq₀ (eachCall_true q₀ [] calls)
  exact ⟨q, tr, hru, hr.conserves hq₀ he⟩

def readyStep (tenantID stepID : String) : QueueItem where
  tenantID
  runID := "run"
  stepID
  pipelineID := "p"
  attempt := 1

def put (tenantID stepID : String) : Call := .enqueue false 0 (readyStep tenantID stepID) none

/-- `a` comes back as soon as it was served, while the cursor stands behind `t`. -/
def refilledAtOnce : List Call :=
  [put "t" "1", put "t" "2", put "a" "1", .next false 1, .next false 1, put "a" "2",
    .next false 1, .next false 1]

theorem refilledAtOnce_conserves : ∃ q₀ q tr, newQueue { weights := [("t", 3)] } = .ok q₀ ∧
    q₀.run [] refilledAtOnce = some (q, tr) ∧ Conserves q tr := by
  obtain ⟨q, tr, hr, hc⟩ :=
    queue_conservation (rfl : newQueue { weights := [("t", 3)] } = _) refilledAtOnce
  exact ⟨_, q, tr, rfl, hr, hc⟩

/-! ### The queue of a plane

The world of the planes keeps the waiting items of a plane in no particular order, and lets
a call for slots return any of them. The fair queue is one such queue. -/

variable {e : Entry}

def Queue.waiting (q : Queue) : List QueueItem :=
  q.active.flatMap fun t => (q.itemsOf t).map Entry.item

variable {its : List Entry}

theorem flatMap_update_of_notMem {f : String → List Entry} {l : List String} {t : String}
    (h : t ∉ l) : (l.flatMap fun t' => (update f t its t').map Entry.item) =
      l.flatMap fun t' => (f t').map Entry.item := by
  refine flatMap_congr fun t' ht' => ?_
  rw [update_of_ne fun heq : t' = t => h (heq ▸ ht')]

theorem Queue.Sound.waiting_serves {ten : String} {tq : TenantQueue} {df : ℕ} (h : q.Sound)
    (hs : q.Serves e ten tq its df) :
    q.waiting.Perm (e.item :: (q.afterServing ten tq its df).waiting) := by
  have hr' : (q.afterServing ten tq its df).rotation = _ :=
    Queue.rotation_settle hs.cursor
  obtain ⟨hn, -⟩ := nodup_cons.mp (h.rotation_nodup hs.cursor)
  have ha := (q.afterServing ten tq its df).rotation_perm
  refine (q.rotation_perm.flatMap_right _).symm.trans
    (Perm.trans ?_ ((ha.flatMap_right _).cons e.item))
  rw [Queue.rotation_eq h.cursor_le hs.cursor, flatMap_cons, hs.itemsOf, hr',
    Queue.afterServing, Queue.itemsOf_settle]
  split_ifs with hi
  · rw [hi, flatMap_update_of_notMem hn]
    exact Perm.refl _
  · rw [flatMap_append, flatMap_update_of_notMem hn]
    simp only [flatMap_cons, flatMap_nil, append_nil, update_self, map_cons]
    exact perm_append_comm.cons _
  · rw [flatMap_cons, flatMap_update_of_notMem hn, update_self]
    exact Perm.refl _

theorem Queue.ServesAll.waiting {es : List Entry} (ha : q.ServesAll es q') (h : q.Sound) :
    q.waiting.Perm (es.map Entry.item ++ q'.waiting) := by
  induction ha with
  | nil q => exact Perm.refl _
  | cons first rest ih => exact (h.waiting_serves first).trans ((ih (h.serves first)).cons _)

theorem Queue.Sound.waiting_accept (h : q.Sound) :
    (q.accept e).waiting.Perm (q.waiting ++ [e.item]) := by
  have hj : e.tenant ∈ q.active ↔ q.itemsOf e.tenant ≠ [] := h.mem_active _
  unfold Queue.waiting
  rw [Queue.accept_active, Queue.itemsOf_accept]
  split_ifs with hno
  · have hn : e.tenant ∉ q.active := fun hm => hj.mp hm hno
    rw [flatMap_append, flatMap_update_of_notMem hn]
    simp [hno]
  · have hp := perm_cons_erase (hj.mpr hno)
    have hn : e.tenant ∉ q.active.erase e.tenant := h.nodup.not_mem_erase
    refine (hp.flatMap_right _).trans
      (Perm.trans ?_ ((hp.flatMap_right _).symm.append_right _))
    rw [flatMap_cons, flatMap_cons, flatMap_update_of_notMem hn, update_self,
      map_append, append_assoc, append_assoc]
    exact perm_append_comm.append_left _

variable {s : Plane.StoreState}

/-- An accepted item is one more in the world's queue. -/
theorem enqueue_simulates {pl : ℕ} {cancelled : Bool} {now : ℤ} {item : QueueItem}
    {enqueuedAt : Option ℤ} (h : q.Sound) (hs : (s.queue pl).Perm q.waiting)
    (hq' : q.enqueue cancelled now item enqueuedAt = .ok q') :
    ((Plane.storeWorld.next s ⟨.enqueue pl item, Plane.PutRes.queued⟩ :
      Plane.StoreState).queue pl).Perm q'.waiting := by
  unfold Queue.enqueue at hq'
  split_ifs at hq'
  obtain rfl := Except.ok.inj hq'
  show (update s.queue pl (s.queue pl ++ [item]) pl).Perm _
  rw [update_self]
  exact (hs.append_right _).trans
    (h.waiting_accept (e := ⟨item, enqueuedAt.getD now⟩)).symm

/-- A queue in which a step of one tenant waits when that of another becomes ready. -/
theorem ready_step_queued : ∃ q₀ q : Queue, newQueue {} = .ok q₀ ∧
    (q₀.accept ⟨readyStep "t" "1", 0⟩).enqueue false 0 (readyStep "u" "2") none = .ok q ∧
    ((Plane.storeWorld.next { queue := fun _ => [readyStep "t" "1"] }
      ⟨.enqueue 0 (readyStep "u" "2"), Plane.PutRes.queued⟩ : Plane.StoreState).queue 0).Perm
        q.waiting :=
  ⟨_, _, rfl, rfl, enqueue_simulates (newQueue_sound (rfl : newQueue {} = _)).1.accept (.refl _)
    (rfl : Queue.enqueue _ false 0 _ none = _)⟩

theorem append_diff_self {α : Type*} [DecidableEq α] (l m : List α) : (l ++ m).diff l = m := by
  induction l with
  | nil => rfl
  | cons a l ih => rw [cons_append, diff_cons, erase_cons_head, ih]

/-- What a call for slots hands out is an answer of the world, and leaves the world with the
items that are left in the queue. -/
theorem next_simulates {pl : ℕ} {n : ℤ} {out : List Entry} (h : q.Sound)
    (hs : (s.queue pl).Perm q.waiting) (hn : 0 < n) (hne : q.next false n = some (.ok (q', out))) :
    Plane.storeWorld.Answers s ⟨.nextItems pl n.toNat, some (out.map Entry.item)⟩ ∧
      ((Plane.storeWorld.next s ⟨.nextItems pl n.toNat, some (out.map Entry.item)⟩ :
        Plane.StoreState).queue pl).Perm q'.waiting := by
  obtain ⟨q₁, out₁, hne', ha, hl⟩ := h.next_eq_some hn
  rw [hne] at hne'
  cases hne'
  have hp := hs.trans (ha.waiting h)
  constructor
  · rintro its hi
    cases hi
    refine ⟨by rw [length_map, hl]; exact min_le_left _ _, ?_⟩
    exact (sublist_append_left _ _).subperm.trans hp.symm.subperm
  · show (update s.queue pl ((s.queue pl).diff (out.map Entry.item)) pl).Perm _
    rw [update_self]
    refine (hp.diff_right _).trans ?_
    rw [append_diff_self]

/-- One slot, and two tenants with a step each. -/
theorem ready_step_handed_out : ∃ (q₀ q : Queue) (out : List Entry), newQueue {} = .ok q₀ ∧
    ((q₀.accept ⟨readyStep "t" "1", 0⟩).accept ⟨readyStep "u" "2", 0⟩).next false 1 =
      some (.ok (q, out)) ∧
    Plane.storeWorld.Answers { queue := fun _ => [readyStep "t" "1", readyStep "u" "2"] }
      ⟨.nextItems 0 1, some (out.map Entry.item)⟩ := by
  have hs := ((newQueue_sound (rfl : newQueue {} = _)).1.accept
    (e := ⟨readyStep "t" "1", 0⟩)).accept (e := ⟨readyStep "u" "2", 0⟩)
  obtain ⟨q, out, hn, -⟩ := hs.next_eq_some Int.one_pos
  exact ⟨_, q, out, rfl, hn, (next_simulates hs (.refl _) Int.one_pos hn).1⟩

/-! ### The share of a tenant -/

def backlog (t : String) (tr : List Happening) : ℕ :=
  (arrivedFor t tr).length - (servedTo t tr).length

/-- The tenant has something queued after `before`, and after each happening of `after`. -/
def NeverEmpty (t : String) (before after : List Happening) : Prop :=
  ∀ k ≤ after.length, 0 < backlog t (before ++ after.take k)

/-- Between two items of a tenant that has something queued all the while, another tenant
is served at most its weight. -/
def FairShare (weight : String → ℕ+) (tr : List Happening) : Prop :=
  ∀ (before : List Happening) (e : Entry) (between : List Happening) (e' : Entry)
    (after : List Happening), tr = before ++ .served e :: between ++ .served e' :: after →
    e'.tenant = e.tenant → servedTo e.tenant between = [] →
    NeverEmpty e.tenant (before ++ [.served e]) between →
    ∀ a, a ≠ e.tenant → (servedTo a between).length ≤ weight a

/-- A tenant that joins the ring has not been served since the last item of any tenant that
the cursor has passed. -/
def JoinsBehind (q : Queue) (tr : List Happening) (e : Entry) : Prop :=
  q.itemsOf e.tenant = [] → ∀ t ∈ q.active.take q.cursor,
    servedTo e.tenant (tr.reverse.takeWhile fun h => (h.servedTo t).isNone) = []

instance (q : Queue) (tr : List Happening) (e : Entry) : Decidable (JoinsBehind q tr e) :=
  inferInstanceAs (Decidable (_ → _))

namespace Queue

/-- What a tenant can be served before the cursor passes it: the rest of its open turn, or
a turn. -/
def due (q : Queue) (a : String) : ℕ :=
  if q.turnOpen = true ∧ q.active[q.cursor]? = some a then
    (q.tenants a).elim 0 TenantQueue.deficit
  else q.weightFor a

variable {a : String}

theorem Sound.due_le (h : q.Sound) : q.due a ≤ q.weightFor a := by
  unfold due
  split_ifs with ho
  · obtain ⟨t, tq, hat, htq, -, hlt⟩ := h.turn ho.1
    obtain rfl := Option.some.inj (hat.symm.trans ho.2)
    rw [← h.weight t tq htq, htq]
    exact hlt.le
  · exact le_rfl

variable {tq : TenantQueue}

theorem Sound.due_eq_credit (h : q.Sound) (hat : q.active[q.index]? = some a)
    (htq : q.tenants a = some tq) : q.due a = q.credit tq := by
  unfold due credit
  by_cases ho : q.turnOpen = true
  · rw [if_pos ⟨ho, by rwa [← h.index_eq ho]⟩, if_pos ho, htq]
    rfl
  · have hz : tq.deficit = 0 := h.idle a tq htq fun h => absurd h ho
    rw [if_neg fun h => ho h.1, if_neg ho, hz, Nat.zero_add, h.weight a tq htq]

theorem Sound.due_of_ne (h : q.Sound) (hat : q.active[q.index]? = some t) (hne : a ≠ t) :
    q.due a = q.weightFor a := by
  refine if_neg fun ho => hne ?_
  rw [h.index_eq ho.1, ho.2] at hat
  exact Option.some.inj hat

theorem Sound.due_accept (h : q.Sound) (e : Entry) : (q.accept e).due a = q.due a := by
  by_cases ho : q.turnOpen = true
  · obtain ⟨t, tq, hat, htq, -⟩ := h.turn ho
    have hat' : (q.accept e).active[(q.accept e).cursor]? = some t := accept_at_cursor hat
    by_cases ha : a = t
    · subst ha
      obtain ⟨t', tq', hat'', htq', -⟩ := h.accept.turn ho
      obtain rfl := Option.some.inj (hat'.symm.trans hat'')
      unfold due
      rw [if_pos ⟨ho, hat'⟩, if_pos ⟨ho, hat⟩, htq, htq']
      obtain ⟨hn, -⟩ | ⟨old, hold, hd, -⟩ := of_accept_tenants htq'
      · rw [htq] at hn
        cases hn
      · rw [htq] at hold
        obtain rfl := Option.some.inj hold
        exact hd
    · unfold due
      rw [if_neg, if_neg]
      · rfl
      · exact fun h' => ha (Option.some.inj (h'.2.symm.trans hat))
      · exact fun h' => ha (Option.some.inj (h'.2.symm.trans hat'))
  · unfold due
    rw [if_neg fun h' => ho h'.1, if_neg fun h' => ho h'.1]
    rfl

theorem due_afterServing_held {its : List Entry} {df : ℕ} (hat : q.active[q.index]? = some a)
    (hi : its ≠ []) (hd : df ≠ 0) : (q.afterServing a tq its df).due a = df := by
  have ho : (q.afterServing a tq its df).turnOpen = true := by
    rw [afterServing, settle_turnOpen, decide_eq_true ⟨hi, hd⟩]
  have hat' : (q.afterServing a tq its df).active[
      (q.afterServing a tq its df).cursor]? = some a := by
    rw [afterServing, settle_active, settle_cursor, if_neg hi, if_neg fun h => hd h.2, hat]
  rw [due, if_pos ⟨ho, hat'⟩, afterServing, settle_tenants, update_self, if_neg hi]
  rfl

end Queue

variable {a : String}

/-- With `n` items served to `a` since the last item of `t`: `n` is at most the weight of
`a`, and what `a` can still be served before `t` is left out of it. -/
structure Within (q : Queue) (t a : String) (n : ℕ) : Prop where
  le : n ≤ q.weightFor a
  due : [a, t].Sublist q.rotation → n + q.due a ≤ q.weightFor a

theorem within_zero (h : q.Sound) : Within q t a 0 :=
  ⟨Nat.zero_le _, fun _ => by rw [Nat.zero_add]; exact h.due_le⟩

theorem before_of_accept (h : q.Sound) (ht : t ∈ q.active)
    (hb : [a, t].Sublist (q.accept e).rotation) : [a, t].Sublist q.rotation ∨
      (a = e.tenant ∧ q.itemsOf e.tenant = [] ∧ t ∈ q.active.take q.cursor) := by
  unfold Queue.rotation at hb ⊢
  rw [Queue.accept_active] at hb
  split_ifs at hb with hno
  · have hn : e.tenant ∉ q.active := fun hm => (h.mem_active _).mp hm hno
    rw [show (q.accept e).cursor = q.cursor from rfl, Rotation.rotate_concat h.cursor_le] at hb
    by_cases ha : a = e.tenant
    · subst ha
      refine .inr ⟨rfl, hno, Rotation.mem_of_before_insert ?_ hb⟩
      exact fun hm => hn (mem_of_mem_drop hm)
    · refine .inl ?_
      rw [rotate_eq_drop_append_take h.cursor_le]
      refine Rotation.sublist_of_insert ?_ hb
      have hne : e.tenant ≠ t := fun heq => hn (heq ▸ ht)
      simp [hne, Ne.symm ha]
  · exact .inl hb

theorem Within.accept {n : ℕ} (hw : Within q t a n) (h : q.Sound) (ht : t ∈ q.active)
    (hj : a = e.tenant → q.itemsOf e.tenant = [] → t ∈ q.active.take q.cursor → n = 0) :
    Within (q.accept e) t a n := by
  refine ⟨hw.le, fun hb => ?_⟩
  rw [h.due_accept]
  obtain hold | ⟨ha, hn, hta⟩ := before_of_accept h ht hb
  · exact hw.due hold
  · rw [hj ha hn hta, Nat.zero_add]
    exact h.due_le

/-- The cursor passes `a` before it gives `a` another turn, and then `t` comes first. -/
theorem Within.serves {ten : String} {tq : TenantQueue} {its : List Entry} {df n : ℕ}
    (hw : Within q t a n) (h : q.Sound) (ht : t ∈ q.active) (hne : a ≠ t)
    (hs : q.Serves e ten tq its df) (hte : ten ≠ t) :
    Within (q.afterServing ten tq its df) t a (n + if ten = a then 1 else 0) := by
  have hr := Queue.rotation_eq h.cursor_le hs.cursor
  have hr' : (q.afterServing ten tq its df).rotation = _ :=
    Queue.rotation_settle hs.cursor
  obtain ⟨hn, -⟩ := nodup_cons.mp (h.rotation_nodup hs.cursor)
  by_cases ha : ten = a
  · subst ha
    rw [if_pos rfl]
    have hm : t ∈ q.others := by
      have hm := q.rotation_perm.mem_iff.mpr ht
      rw [hr] at hm
      exact (mem_cons.mp hm).resolve_left (Ne.symm hne)
    have hdu := hw.due (by
      rw [hr]
      exact (singleton_sublist.mpr hm).cons_cons ten)
    rw [h.due_eq_credit hs.cursor hs.queue, hs.credit] at hdu
    refine ⟨by rw [Queue.afterServing, Queue.weightFor_settle]; omega, fun hb => ?_⟩
    rw [hr'] at hb
    split_ifs at hb with hi hd
    · exact absurd (hb.subset mem_cons_self) hn
    · exact absurd hb (Rotation.not_before_of_last hn hne)
    · rw [Queue.due_afterServing_held hs.cursor hi hd, Queue.afterServing, Queue.weightFor_settle]
      omega
  · rw [if_neg ha]
    refine ⟨by rw [Queue.afterServing, Queue.weightFor_settle]; exact hw.le, fun hb => ?_⟩
    have ho : [a, t].Sublist q.others := by
      have hno : ten ∉ [a, t] := by simp [ha, hte]
      rw [hr'] at hb
      split_ifs at hb
      · exact hb
      · have hsu := Rotation.sublist_of_insert hno hb
        rwa [append_nil] at hsu
      · exact Rotation.sublist_of_insert (l := []) hno hb
    have hdu := hw.due (by
      rw [hr]
      exact ho.cons ten)
    rw [h.due_of_ne hs.cursor (Ne.symm ha)] at hdu
    have hle : (q.afterServing ten tq its df).due a ≤ q.weightFor a := by
      have hle := (h.serves hs).due_le (a := a)
      rwa [Queue.afterServing, Queue.weightFor_settle] at hle
    rw [Queue.afterServing, Queue.weightFor_settle] at *
    omega

theorem Reaches.of_append {tr tr' : List Happening} (h : Reaches ok q₀ (tr ++ tr') q) :
    ∃ q', Reaches ok q₀ tr q' := by
  induction tr' using reverseRecOn generalizing q with
  | nil => exact ⟨q, by simpa using h⟩
  | append_singleton tr' x ih =>
    rw [← append_assoc] at h
    generalize hl : tr ++ tr' ++ [x] = l at h
    cases h with
    | start => simp at hl
    | arrived h _ | served h _ =>
      obtain ⟨rfl, -⟩ := append_inj' hl rfl
      exact ih h

theorem Reaches.weightFor (h : Reaches ok q₀ tr q) : q.weightFor a = q₀.weightFor a := by
  induction h with
  | start => rfl
  | arrived _ _ ih => exact ih
  | served _ _ ih => rw [Queue.afterServing, Queue.weightFor_settle, ih]

variable {before after : List Happening}

theorem servedTo_since (hn : servedTo t after = []) (he : e.tenant = t) :
    (before ++ .served e :: after).reverse.takeWhile (fun h => (h.servedTo t).isNone) =
      after.reverse := by
  have ha : ∀ h ∈ after.reverse, (h.servedTo t).isNone = true := by
    intro h hm
    rw [Option.isNone_iff_eq_none]
    exact filterMap_eq_nil_iff.mp hn h (mem_reverse.mp hm)
  rw [reverse_append, reverse_cons, append_assoc, singleton_append,
    takeWhile_append_of_pos ha, takeWhile_cons_of_neg (by simp [Happening.servedTo, he]),
    append_nil]

theorem snoc_split {α : Type*} {l before after : List α} {x y : α}
    (h : l ++ [x] = before ++ y :: after) :
    (after = [] ∧ x = y) ∨ ∃ after', after = after' ++ [x] ∧ l = before ++ y :: after' := by
  obtain rfl | ⟨after, z, rfl⟩ := after.eq_nil_or_concat'
  · exact .inl ⟨rfl, singleton_inj.mp (append_inj' h rfl).2⟩
  · rw [← cons_append, ← append_assoc] at h
    obtain ⟨hl, hx⟩ := append_inj' h rfl
    exact .inr ⟨after, by rw [singleton_inj.mp hx], hl⟩

theorem NeverEmpty.of_snoc {x : Happening} (h : NeverEmpty t before (after ++ [x])) :
    NeverEmpty t before after := by
  intro k hk
  have hl := h k (by rw [length_append]; omega)
  rwa [take_append_of_le_length hk] at hl

theorem NeverEmpty.last (h : NeverEmpty t before after) : 0 < backlog t (before ++ after) := by
  simpa using h after.length le_rfl

theorem Reaches.mem_active (h : Reaches ok q₀ tr q) (hq₀ : q₀.Sound)
    (he : ∀ t, q₀.itemsOf t = []) (hb : 0 < backlog t tr) : t ∈ q.active := by
  refine ((h.sound hq₀).mem_active t).mpr fun hn => ?_
  have ho := h.once (t := t) hq₀ he
  rw [hn, append_nil] at ho
  rw [backlog, ho, Nat.sub_self] at hb
  exact absurd hb (lt_irrefl 0)

variable {x : Entry}

theorem servedTo_snoc_arrived (tr : List Happening) :
    servedTo t (tr ++ [.arrived x]) = servedTo t tr := by
  simp [servedTo, Happening.servedTo]

theorem servedTo_snoc_served (tr : List Happening) :
    servedTo t (tr ++ [.served x]) = servedTo t tr ++ if x.tenant = t then [x] else [] := by
  unfold servedTo
  split_ifs with hx <;> simp [Happening.servedTo, hx]

/-- Since the last item of a tenant with something queued, every other one stays within its
weight. -/
theorem Reaches.within (h : Reaches JoinsBehind q₀ tr q) (hq₀ : q₀.Sound)
    (he : ∀ t, q₀.itemsOf t = []) (htr : tr = before ++ .served e :: after)
    (hn : servedTo e.tenant after = [])
    (hb : NeverEmpty e.tenant (before ++ [.served e]) after) (hne : a ≠ e.tenant) :
    Within q e.tenant a (servedTo a after).length := by
  induction h generalizing after with
  | start => simp at htr
  | @arrived tr q x hr hok ih =>
    obtain ⟨-, hx⟩ | ⟨af', rfl, rfl⟩ := snoc_split htr
    · cases hx
    · have haf := hb.of_snoc
      have ht := hr.mem_active hq₀ he (by simpa using haf.last)
      rw [servedTo_snoc_arrived] at hn ⊢
      have hw := ih rfl hn haf
      refine hw.accept (hr.sound hq₀) ht fun ha hi hta => ?_
      have hsi := hok hi e.tenant hta
      rw [servedTo_since hn rfl, ← ha, servedTo, filterMap_reverse, reverse_eq_nil_iff] at hsi
      exact length_eq_zero_iff.mpr hsi
  | @served tr q x ten tq its de hr hs ih =>
    have hq := hr.sound hq₀
    have ho : x.tenant = ten := hq.owner ten x (by rw [hs.itemsOf]; exact mem_cons_self)
    obtain ⟨rfl, -⟩ | ⟨af', rfl, rfl⟩ := snoc_split htr
    · exact within_zero (hq.serves hs)
    · have haf := hb.of_snoc
      have ht := hr.mem_active hq₀ he (by simpa using haf.last)
      rw [servedTo_snoc_served, ho, append_eq_nil_iff] at hn
      have hte : ten ≠ e.tenant := by
        rintro rfl
        simp at hn
      have hw := ih rfl hn.1 haf
      have hse := hw.serves hq ht hne hs hte
      rw [servedTo_snoc_served, ho, length_append]
      convert hse using 2
      split_ifs <;> rfl

/-- In every run in which tenants join behind those the cursor has passed, each tenant gets
its share. -/
theorem fair_share {cfg : QueueConfig} {q₀ : Queue} (h : newQueue cfg = .ok q₀) (calls : List Call)
    (hjoins : EachCall (arrivalOk JoinsBehind) q₀ [] calls) :
    ∃ q tr, q₀.run [] calls = some (q, tr) ∧ FairShare q₀.weightFor tr := by
  obtain ⟨hq₀, he⟩ := newQueue_sound h
  obtain ⟨q, tr, hru, hr⟩ := Reaches.run .start hq₀ hjoins
  refine ⟨q, tr, hru, ?_⟩
  rintro before e be e' after rfl - hn hb a hne
  obtain ⟨q', hr'⟩ := hr.of_append
  rw [← hr'.weightFor]
  exact (hr'.within hq₀ he rfl hn hb hne).le

/-! ### A tenant that comes back within the round -/

def entry (tenantID stepID : String) : Entry := ⟨readyStep tenantID stepID, 0⟩

/-- With the default weight of one, `a` is served twice between two items of `t`. -/
theorem refilledAtOnce_not_fair : ∃ q₀ q tr, newQueue {} = .ok q₀ ∧
    q₀.run [] refilledAtOnce = some (q, tr) ∧ ¬ FairShare q₀.weightFor tr := by
  refine ⟨_, _, _, rfl, rfl, fun hf => ?_⟩
  have hle := hf [.arrived (entry "t" "1"), .arrived (entry "t" "2"), .arrived (entry "a" "1")]
    (entry "t" "1") [.served (entry "a" "1"), .arrived (entry "a" "2"), .served (entry "a" "2")]
    (entry "t" "2") [] rfl rfl rfl (by unfold NeverEmpty; decide) "a" (by decide)
  revert hle
  decide

/-- Here `a` comes back after the second item of `t`. -/
def refilledLater : List Call :=
  [put "t" "1", put "t" "2", put "a" "1", .next false 1, .next false 1, .next false 1,
    put "a" "2", put "t" "3", .next false 2]

theorem refilledLater_fair : ∃ q₀ q tr, newQueue {} = .ok q₀ ∧
    q₀.run [] refilledLater = some (q, tr) ∧ FairShare q₀.weightFor tr := by
  obtain ⟨q, tr, hr, hf⟩ := fair_share (rfl : newQueue {} = _) refilledLater (by decide)
  exact ⟨_, q, tr, rfl, hr, hf⟩

end Dhole.Fairness
