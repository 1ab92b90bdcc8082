import Dhole.Plane
import Dhole.Rotation

/-! The weighted fair queue of a plane: one queue per tenant, a ring of the tenants that
have something queued, and a cursor into the ring. A turn gives a tenant its weight in
credit and each item costs one; a tenant whose queue is empty leaves the ring and loses
what is left of its credit. `next` is the loop of the source. Each item it hands out is one
`Serves`, the same step that a call for a single slot takes, so what is kept by an arrival
and by one item served is kept by every sequence of calls. -/

namespace Dhole.Fairness

open List
open Function (update update_self update_of_ne)
open Plane (QueueItem)

structure Entry where
  item : QueueItem
  enqueuedAt : ℤ
deriving DecidableEq

def Entry.tenant (e : Entry) : String := e.item.tenantID

structure TenantQueue where
  items : List Entry := []
  deficit : ℕ := 0
  weight : ℕ+
deriving DecidableEq

structure QueueConfig where
  weights : List (String × ℤ) := []
  defaultWeight : ℤ := 0

structure Queue where
  tenants : String → Option TenantQueue := fun _ => none
  active : List String := []
  cursor : ℕ := 0
  turnOpen : Bool := false
  pending : ℕ := 0
  weights : String → Option ℕ+
  defaultWeight : ℕ+

/-! ### A new queue -/

def positive (weight : ℤ) : Option ℕ+ :=
  if h : 0 < weight.toNat then some ⟨weight.toNat, h⟩ else none

def readWeights : List (String × ℤ) → Except Text (String → Option ℕ+)
  | [] => .ok fun _ => none
  | (tenant, weight) :: rest =>
    if tenant = "" then .error ["scheduler: queue weights: ", "tenant scope required"]
    else
      match positive weight with
      | none => .error ["scheduler: queue weight for ", .quoted tenant,
          " must be positive, got ", toString weight]
      | some w => do
        let weights ← readWeights rest
        .ok (update weights tenant (some w))

def newQueue (cfg : QueueConfig) : Except Text Queue := do
  let weights ← readWeights cfg.weights
  if cfg.defaultWeight = 0 then .ok { weights, defaultWeight := 1 }
  else
    match positive cfg.defaultWeight with
    | none => .error ["scheduler: default queue weight must be positive, got ",
        toString cfg.defaultWeight]
    | some defaultWeight => .ok { weights, defaultWeight }

namespace Queue

def weightFor (q : Queue) (tenantID : String) : ℕ+ :=
  (q.weights tenantID).getD q.defaultWeight

def itemsOf (q : Queue) (tenantID : String) : List Entry :=
  (q.tenants tenantID).elim [] TenantQueue.items

/-! ### Arrivals -/

/-- The tenant of the item joins the ring at the end of the list if it has nothing queued. -/
def accept (q : Queue) (e : Entry) : Queue :=
  let tq := (q.tenants e.tenant).getD { weight := q.weightFor e.tenant }
  { q with
    tenants := update q.tenants e.tenant (some { tq with items := tq.items ++ [e] })
    active := if tq.items = [] then q.active ++ [e.tenant] else q.active
    pending := q.pending + 1 }

/-- An item whose `enqueuedAt` is zero is stamped with the time of the call. -/
def enqueue (q : Queue) (cancelled : Bool) (now : ℤ) (item : QueueItem)
    (enqueuedAt : Option ℤ) : Except Text Queue :=
  if cancelled then .error ["context canceled"]
  else if item.tenantID = "" then
    .error ["scheduler: enqueue ", item.runID, "/", item.stepID, ": ", "tenant scope required"]
  else if item.runID = "" ∨ item.stepID = "" then
    .error ["scheduler: enqueue: run and step are required"]
  else .ok (q.accept ⟨item, enqueuedAt.getD now⟩)

/-! ### Service -/

structure Turn where
  items : List Entry
  deficit : ℕ
  pending : ℕ
  out : List Entry

/-- The inner loop: items go out while there is credit and a slot is free. -/
def spend (slots : ℕ) : List Entry → ℕ → ℕ → List Entry → Turn
  | e :: items, deficit + 1, pending, out =>
    if out.length < slots then spend slots items deficit (pending - 1) (out ++ [e])
    else ⟨e :: items, deficit + 1, pending, out⟩
  | items, deficit, pending, out => ⟨items, deficit, pending, out⟩

/-- One quantum per turn: an open turn has had its credit. -/
def credit (q : Queue) (tq : TenantQueue) : ℕ :=
  if q.turnOpen then tq.deficit else tq.deficit + tq.weight

def index (q : Queue) : ℕ := Rotation.index q.active q.cursor

/-- The end of a turn. A tenant with nothing left leaves the ring and forfeits its credit,
one that has spent its credit is passed over, and one whose turn the slots ran out on
stays at the cursor. -/
def settle (q : Queue) (tenant : String) (tq : TenantQueue) (items : List Entry)
    (deficit pending : ℕ) : Queue :=
  let q := { q with
    tenants := update q.tenants tenant (some { tq with
      items
      deficit := if items = [] then 0 else deficit })
    cursor := q.index
    turnOpen := true
    pending }
  if items = [] then { q with active := q.active.eraseIdx q.cursor, turnOpen := false }
  else if deficit = 0 then { q with turnOpen := false, cursor := q.cursor + 1 }
  else q

/-- The outer loop, one turn at a time. There is no result when a tenant of the ring has no
queue, which the source would not survive either, or when the fuel runs out. -/
def nextLoop (slots : ℕ) : ℕ → Queue → List Entry → Option (Queue × List Entry)
  | 0, _, _ => none
  | fuel + 1, q, out =>
    if out.length < slots ∧ 0 < q.pending ∧ 0 < q.active.length then do
      let tenant ← q.active[q.index]?
      let tq ← q.tenants tenant
      let turn := spend slots tq.items (q.credit tq) q.pending out
      let q := q.settle tenant tq turn.items turn.deficit turn.pending
      if turn.items = [] ∨ turn.deficit = 0 then nextLoop slots fuel q turn.out
      else some (q, turn.out)
    else some (q, out)

/-- Every turn hands out an item, so there are at most `slots` turns. -/
def next (q : Queue) (cancelled : Bool) (slots : ℤ) : Option (Except Text (Queue × List Entry)) :=
  if cancelled then some (.error ["context canceled"])
  else if slots ≤ 0 then
    some (.error ["scheduler: next: slots must be positive, got ", toString slots])
  else (nextLoop slots.toNat (slots.toNat + 1) q []).map .ok

end Queue

/-! ### Calls and what happens in them -/

inductive Call where
  | enqueue (cancelled : Bool) (now : ℤ) (item : QueueItem) (enqueuedAt : Option ℤ)
  | next (cancelled : Bool) (slots : ℤ)

inductive Happening where
  | arrived (e : Entry)
  | served (e : Entry)

/-- A call that fails leaves the queue as it was. -/
def Queue.call (q : Queue) : Call → Option (Queue × List Happening)
  | .enqueue cancelled now item enqueuedAt =>
    match q.enqueue cancelled now item enqueuedAt with
    | .error _ => some (q, [])
    | .ok q' => some (q', [.arrived ⟨item, enqueuedAt.getD now⟩])
  | .next cancelled slots => do
    match ← q.next cancelled slots with
    | .error _ => some (q, [])
    | .ok (q', out) => some (q', out.map .served)

def Queue.run (q : Queue) (tr : List Happening) : List Call → Option (Queue × List Happening)
  | [] => some (q, tr)
  | c :: calls => do
    let (q', happened) ← q.call c
    q'.run (tr ++ happened) calls

/-! ### One item at a time -/

namespace Queue

def rotation (q : Queue) : List String := q.active.rotate q.cursor

/-- What holds of the queue between two items that it hands out. -/
structure Sound (q : Queue) : Prop where
  cursor_le : q.cursor ≤ q.active.length
  nodup : q.active.Nodup
  mem_active : ∀ t, t ∈ q.active ↔ q.itemsOf t ≠ []
  pending : q.pending = (q.active.map fun t => (q.itemsOf t).length).sum
  owner : ∀ t, ∀ e ∈ q.itemsOf t, e.tenant = t
  weight : ∀ t tq, q.tenants t = some tq → tq.weight = q.weightFor t
  idle : ∀ t tq, q.tenants t = some tq → (q.turnOpen = true → q.active[q.cursor]? ≠ some t) →
    tq.deficit = 0
  turn : q.turnOpen = true → ∃ t tq, q.active[q.cursor]? = some t ∧ q.tenants t = some tq ∧
    0 < tq.deficit ∧ tq.deficit < tq.weight

structure Serves (q : Queue) (e : Entry) (tenant : String) (tq : TenantQueue)
    (items : List Entry) (deficit : ℕ) : Prop where
  cursor : q.active[q.index]? = some tenant
  queue : q.tenants tenant = some tq
  items : tq.items = e :: items
  credit : q.credit tq = deficit + 1

def afterServing (q : Queue) (tenant : String) (tq : TenantQueue) (items : List Entry)
    (deficit : ℕ) : Queue :=
  q.settle tenant tq items deficit (q.pending - 1)

section Settle

variable {q : Queue} {ten : String} {tq : TenantQueue} {its : List Entry}
  {df pending : ℕ}

theorem itemsOf_eq_update {q q' : Queue} {t : String} {tq : TenantQueue}
    (h : q'.tenants = update q.tenants t (some tq)) : q'.itemsOf = update q.itemsOf t tq.items := by
  funext t'
  unfold itemsOf
  rw [h]
  by_cases heq : t' = t
  · subst heq
    simp
  · simp [update_of_ne heq]

theorem settle_tenants : (q.settle ten tq its df pending).tenants = update q.tenants ten
    (some { tq with
      items := its
      deficit := if its = [] then 0 else df }) := by
  unfold settle
  split_ifs <;> rfl

theorem itemsOf_settle : (q.settle ten tq its df pending).itemsOf = update q.itemsOf ten its :=
  itemsOf_eq_update settle_tenants

@[simp] theorem settle_pending : (q.settle ten tq its df pending).pending = pending := by
  unfold settle
  split_ifs <;> rfl

@[simp] theorem weightFor_settle (t : String) :
    (q.settle ten tq its df pending).weightFor t = q.weightFor t := by
  unfold settle
  split_ifs <;> rfl

theorem settle_active : (q.settle ten tq its df pending).active =
    if its = [] then q.active.eraseIdx q.index else q.active := by
  unfold settle
  split_ifs <;> rfl

theorem settle_cursor : (q.settle ten tq its df pending).cursor =
    if its ≠ [] ∧ df = 0 then q.index + 1 else q.index := by
  unfold settle
  split_ifs <;> simp_all

theorem settle_turnOpen : (q.settle ten tq its df pending).turnOpen =
    decide (its ≠ [] ∧ df ≠ 0) := by
  unfold settle
  split_ifs <;> simp_all

def others (q : Queue) : List String := q.active.drop (q.index + 1) ++ q.active.take q.index

theorem rotation_eq (hle : q.cursor ≤ q.active.length) (hat : q.active[q.index]? = some ten) :
    q.rotation = ten :: q.others := by
  unfold rotation
  rw [← Rotation.rotate_index hle]
  exact Rotation.rotate_eq_cons hat

theorem rotation_settle (hat : q.active[q.index]? = some ten) :
    (q.settle ten tq its df pending).rotation = if its = [] then q.others
      else if df = 0 then q.others ++ [ten] else ten :: q.others := by
  obtain ⟨hlt, -⟩ := List.getElem?_eq_some_iff.mp hat
  unfold rotation
  rw [settle_active, settle_cursor]
  by_cases hi : its = []
  · simp only [hi, ne_eq, not_true_eq_false]
    exact Rotation.rotate_eraseIdx hlt
  · by_cases hd : df = 0
    · simp only [hi, hd, ne_eq, not_false_eq_true]
      exact Rotation.rotate_succ hat
    · simp only [hi, hd, and_false]
      exact Rotation.rotate_eq_cons hat

end Settle

variable {q : Queue} {e : Entry} {ten t : String} {tq tq' : TenantQueue} {its : List Entry}
  {df : ℕ}

theorem rotation_perm (q : Queue) : q.rotation.Perm q.active := rotate_perm _ _

theorem Sound.index_eq (h : q.Sound) (ho : q.turnOpen = true) : q.index = q.cursor := by
  obtain ⟨t, -, hat, -⟩ := h.turn ho
  obtain ⟨hlt, -⟩ := List.getElem?_eq_some_iff.mp hat
  exact if_neg (by omega)

theorem Sound.deficit_of_ne (h : q.Sound) (hat : q.active[q.index]? = some ten)
    (hne : t ≠ ten) (htq : q.tenants t = some tq') : tq'.deficit = 0 := by
  refine h.idle t tq' htq fun ho heq => hne ?_
  rw [h.index_eq ho, heq] at hat
  exact Option.some.inj hat

theorem Sound.credit_pos (h : q.Sound) (hat : q.active[q.index]? = some ten)
    (htq : q.tenants ten = some tq) : 0 < q.credit tq ∧ q.credit tq ≤ tq.weight := by
  unfold credit
  by_cases ho : q.turnOpen = true
  · obtain ⟨t, tq', hat', htq', hp, hlt⟩ := h.turn ho
    rw [h.index_eq ho, hat'] at hat
    obtain rfl := Option.some.inj hat
    rw [htq] at htq'
    obtain rfl := Option.some.inj htq'
    rw [if_pos ho]
    exact ⟨hp, hlt.le⟩
  · have hz : tq.deficit = 0 := h.idle ten tq htq fun h => absurd h ho
    rw [if_neg ho, hz, Nat.zero_add]
    exact ⟨tq.weight.pos, le_rfl⟩

theorem sum_update_of_notMem {f : String → List Entry} {l : List String} (h : t ∉ l) :
    (l.map fun t' => (update f t its t').length).sum = (l.map fun t' => (f t').length).sum := by
  refine congrArg List.sum (map_congr_left fun t' ht' => ?_)
  rw [update_of_ne fun heq : t' = t => h (heq ▸ ht')]

theorem Serves.itemsOf (hs : q.Serves e ten tq its df) : q.itemsOf ten = e :: its := by
  unfold Queue.itemsOf
  rw [hs.queue]
  exact hs.items

theorem Sound.rotation_nodup (h : q.Sound) (hat : q.active[q.index]? = some ten) :
    (ten :: q.others).Nodup := by
  rw [← rotation_eq h.cursor_le hat]
  exact q.rotation_perm.nodup_iff.mpr h.nodup

theorem Sound.mem_others (h : q.Sound) (hat : q.active[q.index]? = some ten)
    (hne : t ≠ ten) : t ∈ q.others ↔ q.itemsOf t ≠ [] := by
  rw [← h.mem_active, ← q.rotation_perm.mem_iff, rotation_eq h.cursor_le hat]
  simp [hne]

theorem Sound.pending_eq (h : q.Sound) (hs : q.Serves e ten tq its df) :
    q.pending = its.length + 1 + (q.others.map fun t => (q.itemsOf t).length).sum := by
  rw [h.pending, ← (q.rotation_perm.map _).sum_eq, rotation_eq h.cursor_le hs.cursor,
    map_cons, sum_cons, hs.itemsOf, length_cons]

theorem Serves.cursor_le (hs : q.Serves e ten tq its df) :
    (q.afterServing ten tq its df).cursor ≤ (q.afterServing ten tq its df).active.length := by
  obtain ⟨hlt, -⟩ := List.getElem?_eq_some_iff.mp hs.cursor
  rw [afterServing, settle_cursor, settle_active]
  split_ifs <;> simp_all [length_eraseIdx] <;> omega

section Served

variable (h : q.Sound) (hs : q.Serves e ten tq its df)

include h hs

theorem Sound.nodup_served : (q.afterServing ten tq its df).active.Nodup := by
  have hn := h.rotation_nodup hs.cursor
  rw [← (rotation_perm _).nodup_iff, afterServing, rotation_settle hs.cursor]
  split_ifs
  · exact (nodup_cons.mp hn).2
  · rwa [(perm_append_singleton ten q.others).nodup_iff]
  · exact hn

theorem Sound.mem_active_served (t : String) : t ∈ (q.afterServing ten tq its df).active ↔
    (q.afterServing ten tq its df).itemsOf t ≠ [] := by
  obtain ⟨hno, -⟩ := nodup_cons.mp (h.rotation_nodup hs.cursor)
  rw [← (rotation_perm _).mem_iff, afterServing, rotation_settle hs.cursor, itemsOf_settle]
  by_cases hne : t = ten
  · split_ifs <;> simp_all
  · rw [update_of_ne hne, ← h.mem_others hs.cursor hne]
    split_ifs <;> simp [hne]

theorem Sound.pending_served : (q.afterServing ten tq its df).pending =
    ((q.afterServing ten tq its df).active.map
      fun t => ((q.afterServing ten tq its df).itemsOf t).length).sum := by
  obtain ⟨hno, -⟩ := nodup_cons.mp (h.rotation_nodup hs.cursor)
  have hpe := h.pending_eq hs
  have hre : (q.others.map fun t => (update q.itemsOf ten its t).length).sum = _ :=
    sum_update_of_notMem hno
  rw [← ((rotation_perm _).map _).sum_eq, afterServing, settle_pending, rotation_settle hs.cursor,
    itemsOf_settle]
  split_ifs with hi hd
  · simp only [hi, length_nil] at hpe
    omega
  · rw [map_append, sum_append]
    simp only [map_cons, map_nil, sum_cons, sum_nil, update_self]
    omega
  · rw [map_cons, sum_cons, update_self]
    omega

theorem Sound.owner_served {e' : Entry} (he' : e' ∈ (q.afterServing ten tq its df).itemsOf t) :
    e'.tenant = t := by
  rw [afterServing, itemsOf_settle] at he'
  by_cases hne : t = ten
  · subst hne
    rw [update_self] at he'
    exact h.owner t e' (by rw [hs.itemsOf]; exact mem_cons_of_mem _ he')
  · rw [update_of_ne hne] at he'
    exact h.owner t e' he'

theorem Sound.weight_served (htq : (q.afterServing ten tq its df).tenants t = some tq') :
    tq'.weight = (q.afterServing ten tq its df).weightFor t := by
  rw [afterServing, settle_tenants] at htq
  rw [afterServing, weightFor_settle]
  by_cases hne : t = ten
  · subst hne
    rw [update_self] at htq
    obtain rfl := Option.some.inj htq
    exact h.weight t tq hs.queue
  · rw [update_of_ne hne] at htq
    exact h.weight t tq' htq

theorem Sound.idle_served (htq : (q.afterServing ten tq its df).tenants t = some tq')
    (hnt : (q.afterServing ten tq its df).turnOpen = true →
      (q.afterServing ten tq its df).active[(q.afterServing ten tq its df).cursor]? ≠ some t) :
    tq'.deficit = 0 := by
  rw [afterServing, settle_tenants] at htq
  by_cases hne : t = ten
  · subst hne
    rw [update_self] at htq
    obtain rfl := Option.some.inj htq
    rw [afterServing, settle_turnOpen, settle_active, settle_cursor] at hnt
    by_contra hpo
    split_ifs at hpo with hi
    · exact hpo rfl
    · refine hnt (decide_eq_true ⟨hi, hpo⟩) ?_
      simpa [hi, hpo] using hs.cursor
  · rw [update_of_ne hne] at htq
    exact h.deficit_of_ne hs.cursor hne htq

theorem Sound.turn_served (ho : (q.afterServing ten tq its df).turnOpen = true) : ∃ t tq',
    (q.afterServing ten tq its df).active[(q.afterServing ten tq its df).cursor]? = some t ∧
      (q.afterServing ten tq its df).tenants t = some tq' ∧ 0 < tq'.deficit ∧
      tq'.deficit < tq'.weight := by
  rw [afterServing, settle_turnOpen] at ho
  obtain ⟨hi, hd⟩ := of_decide_eq_true ho
  obtain ⟨-, hle⟩ := h.credit_pos hs.cursor hs.queue
  have hc := hs.credit
  refine ⟨ten, _, ?_, by rw [afterServing, settle_tenants, update_self], ?_⟩
  · simp [afterServing, settle_active, settle_cursor, hi, hd, hs.cursor]
  · simp only [hi, ↓reduceIte]
    omega

theorem Sound.serves : (q.afterServing ten tq its df).Sound where
  cursor_le := hs.cursor_le
  nodup := h.nodup_served hs
  mem_active := h.mem_active_served hs
  pending := h.pending_served hs
  owner _ _ := h.owner_served hs
  weight _ _ := h.weight_served hs
  idle _ _ := h.idle_served hs
  turn := h.turn_served hs

end Served

/-! ### Arrivals keep the queue sound -/

theorem itemsOf_getD (q : Queue) (t : String) (weight : ℕ+) :
    ((q.tenants t).getD { weight }).items = q.itemsOf t := by
  unfold itemsOf
  cases q.tenants t <;> rfl

theorem accept_tenants : (q.accept e).tenants = update q.tenants e.tenant
    (some { (q.tenants e.tenant).getD { weight := q.weightFor e.tenant } with
      items := q.itemsOf e.tenant ++ [e] }) := by
  rw [← itemsOf_getD q e.tenant (q.weightFor e.tenant)]
  rfl

theorem itemsOf_accept :
    (q.accept e).itemsOf = update q.itemsOf e.tenant (q.itemsOf e.tenant ++ [e]) :=
  itemsOf_eq_update accept_tenants

theorem of_accept_tenants {tq : TenantQueue} (h : (q.accept e).tenants t = some tq) :
    (q.tenants t = none ∧ tq.deficit = 0 ∧ tq.weight = q.weightFor t) ∨
      ∃ old, q.tenants t = some old ∧ tq.deficit = old.deficit ∧ tq.weight = old.weight := by
  rw [accept_tenants] at h
  by_cases hne : t = e.tenant
  · subst hne
    rw [update_self] at h
    obtain rfl := Option.some.inj h
    cases hold : q.tenants e.tenant with
    | none => exact .inl ⟨rfl, rfl, rfl⟩
    | some old => exact .inr ⟨old, rfl, rfl, rfl⟩
  · rw [update_of_ne hne] at h
    exact .inr ⟨tq, h, rfl, rfl⟩

theorem accept_active : (q.accept e).active =
    if q.itemsOf e.tenant = [] then q.active ++ [e.tenant] else q.active := by
  rw [← itemsOf_getD q e.tenant (q.weightFor e.tenant)]
  rfl

theorem prefix_accept_active : q.active <+: (q.accept e).active := by
  rw [accept_active]
  split_ifs
  · exact prefix_append _ _
  · exact prefix_rfl

theorem accept_at_cursor (h : q.active[q.cursor]? = some t) :
    (q.accept e).active[(q.accept e).cursor]? = some t := by
  obtain ⟨j, ha⟩ := prefix_accept_active
  obtain ⟨hlt, -⟩ := List.getElem?_eq_some_iff.mp h
  rw [← ha, ← h]
  exact getElem?_append_left hlt

theorem sum_update_of_mem {f : String → List Entry} {l : List String} {its : List Entry}
    (hl : l.Nodup) (h : t ∈ l) : (l.map fun t' => (update f t its t').length).sum + (f t).length =
      (l.map fun t' => (f t').length).sum + its.length := by
  have hn : t ∉ l.erase t := hl.not_mem_erase
  have hp := perm_cons_erase h
  rw [(hp.map _).sum_eq, (hp.map fun t' => (f t').length).sum_eq, map_cons,
    map_cons, sum_cons, sum_cons, sum_update_of_notMem hn, update_self]
  omega

section Accepted

variable (h : q.Sound)

include h

theorem Sound.nodup_accept : (q.accept e).active.Nodup := by
  rw [accept_active]
  split_ifs with hn
  · have hno : e.tenant ∉ q.active := fun hm => (h.mem_active _).mp hm hn
    exact nodup_append.mpr ⟨h.nodup, nodup_singleton _, by
      rintro a ha b hb rfl
      exact hno (mem_singleton.mp hb ▸ ha)⟩
  · exact h.nodup

theorem Sound.mem_active_accept (t : String) :
    t ∈ (q.accept e).active ↔ (q.accept e).itemsOf t ≠ [] := by
  have hj : e.tenant ∈ q.active ↔ q.itemsOf e.tenant ≠ [] := h.mem_active _
  rw [accept_active, itemsOf_accept]
  by_cases hne : t = e.tenant
  · subst hne
    split_ifs with hn <;> simp_all
  · rw [update_of_ne hne, ← h.mem_active]
    split_ifs <;> simp [hne]

theorem Sound.pending_accept : (q.accept e).pending =
    ((q.accept e).active.map fun t => ((q.accept e).itemsOf t).length).sum := by
  have hj : e.tenant ∈ q.active ↔ q.itemsOf e.tenant ≠ [] := h.mem_active _
  show q.pending + 1 = _
  rw [h.pending, accept_active, itemsOf_accept]
  split_ifs with hn
  · have hno : e.tenant ∉ q.active := fun hm => hj.mp hm hn
    rw [map_append, sum_append, sum_update_of_notMem hno]
    simp [hn]
  · have hs : (q.active.map fun t => (update q.itemsOf e.tenant
        (q.itemsOf e.tenant ++ [e]) t).length).sum + _ = _ :=
      sum_update_of_mem h.nodup (hj.mpr hn)
    rw [length_append, length_singleton] at hs
    omega

theorem Sound.owner_accept {e' : Entry} (he' : e' ∈ (q.accept e).itemsOf t) : e'.tenant = t := by
  rw [itemsOf_accept] at he'
  by_cases hne : t = e.tenant
  · subst hne
    rw [update_self, mem_append, mem_singleton] at he'
    obtain he' | rfl := he'
    · exact h.owner _ e' he'
    · rfl
  · rw [update_of_ne hne] at he'
    exact h.owner t e' he'

theorem Sound.turn_accept (ho : q.turnOpen = true) : ∃ t tq,
    (q.accept e).active[(q.accept e).cursor]? = some t ∧ (q.accept e).tenants t = some tq ∧
      0 < tq.deficit ∧ tq.deficit < tq.weight := by
  obtain ⟨t, tq, hat, htq, hd⟩ := h.turn ho
  by_cases hne : t = e.tenant
  · subst hne
    refine ⟨_, _, accept_at_cursor hat, by rw [accept_tenants, update_self], ?_⟩
    rw [htq]
    exact hd
  · refine ⟨t, tq, accept_at_cursor hat, ?_, hd⟩
    rw [accept_tenants, update_of_ne hne, htq]

theorem Sound.accept : (q.accept e).Sound where
  cursor_le := h.cursor_le.trans prefix_accept_active.length_le
  nodup := h.nodup_accept
  mem_active := h.mem_active_accept
  pending := h.pending_accept
  owner _ _ := h.owner_accept
  weight t tq htq := by
    obtain ⟨-, -, hw⟩ | ⟨old, hold, -, hw⟩ := of_accept_tenants htq
    · exact hw
    · exact hw.trans (h.weight t old hold)
  idle t tq htq hnt := by
    obtain ⟨-, hz, -⟩ | ⟨old, hold, hd, -⟩ := of_accept_tenants htq
    · exact hz
    · exact hd.trans (h.idle t old hold fun ho hat => hnt ho (accept_at_cursor hat))
  turn := h.turn_accept

end Accepted

/-! ### A call for slots serves one item after the other -/

section Next

variable {slots : ℕ}

inductive ServesAll : Queue → List Entry → Queue → Prop
  | nil (q : Queue) : ServesAll q [] q
  | cons {q q' : Queue} {e : Entry} {es : List Entry} {tenant : String} {tq : TenantQueue}
      {items : List Entry} {deficit : ℕ} (first : q.Serves e tenant tq items deficit)
      (rest : ServesAll (q.afterServing tenant tq items deficit) es q') : ServesAll q (e :: es) q'

variable {q₁ q₂ : Queue} {es : List Entry}

variable (h : ServesAll q₁ es q₂)

include h

theorem ServesAll.append {q₃ : Queue} {es' : List Entry}
    (h' : ServesAll q₂ es' q₃) : ServesAll q₁ (es ++ es') q₃ := by
  induction h with
  | nil q => exact h'
  | cons first rest ih => exact .cons first (ih h')

theorem ServesAll.sound (hq : q₁.Sound) : q₂.Sound := by
  induction h with
  | nil q => exact hq
  | cons first rest ih => exact ih (hq.serves first)

theorem ServesAll.pending (hq : q₁.Sound) : es.length + q₂.pending = q₁.pending := by
  induction h with
  | nil q => simp
  | cons first rest ih =>
    have hp := hq.pending_eq first
    have hr := ih (hq.serves first)
    simp only [afterServing, settle_pending] at hr
    rw [length_cons]
    omega

omit h

theorem Sound.at_index (h : q.Sound) (hp : 0 < q.pending) :
    ∃ ten tq, q.active[q.index]? = some ten ∧ q.tenants ten = some tq ∧ tq.items ≠ [] := by
  have hne : q.active ≠ [] := by
    intro hn
    rw [h.pending, hn] at hp
    exact absurd hp (lt_irrefl 0)
  have hlt : q.index < q.active.length := Rotation.index_lt hne
  have hi := (h.mem_active q.active[q.index]).mp (getElem_mem hlt)
  unfold itemsOf at hi
  cases htq : q.tenants q.active[q.index] with
  | none => simp [htq] at hi
  | some tq => exact ⟨_, tq, getElem?_eq_getElem hlt, htq, by simpa [htq] using hi⟩

theorem settle_afterServing {its' : List Entry} {df' pending : ℕ}
    (hat : q.active[q.index]? = some ten) (hie : its ≠ []) (hd : df ≠ 0) :
    (q.afterServing ten tq its df).settle ten { tq with items := its, deficit := df } its' df'
      pending = q.settle ten tq its' df' pending := by
  obtain ⟨hlt, -⟩ := List.getElem?_eq_some_iff.mp hat
  have hi : Rotation.index q.active q.index = q.index := if_neg (by omega)
  unfold afterServing settle
  simp only [hie, hd, ↓reduceIte, Function.update_idem, index]
  simp only [index] at hi
  rw [hi]

theorem afterServing_held (hat : q.active[q.index]? = some ten) (hi : its ≠ [])
    (hd : df ≠ 0) {q' : Queue} (hq' : q' = q.afterServing ten tq its df) :
    q'.active[q'.index]? = some ten ∧ q'.tenants ten = some { tq with items := its, deficit := df } ∧
      q'.credit { tq with items := its, deficit := df } = df := by
  obtain ⟨hlt, -⟩ := List.getElem?_eq_some_iff.mp hat
  have hin : Rotation.index q.active q.index = q.index := if_neg (by omega)
  have ha : q'.active = q.active := by
    rw [hq', afterServing, settle_active, if_neg hi]
  have hc : q'.cursor = q.index := by
    rw [hq', afterServing, settle_cursor, if_neg fun h => hd h.2]
  refine ⟨?_, ?_, ?_⟩
  · rw [index, ha, hc, hin, hat]
  · rw [hq', afterServing, settle_tenants, update_self, if_neg hi]
  · rw [credit, hq', afterServing, settle_turnOpen, if_pos (decide_eq_true ⟨hi, hd⟩)]

variable {out : List Entry}

/-- The inner loop serves at least one item, and stops with credit and items left only when
the slots ran out. -/
theorem servesAll_spend (hat : q.active[q.index]? = some ten) (htq : q.tenants ten = some tq)
    (hc : q.credit tq = df + 1) {e : Entry} (hi : tq.items = e :: its)
    (hsl : out.length < slots) {turn : Turn}
    (ht : turn = spend slots (e :: its) (df + 1) q.pending out) :
    ∃ taken, taken ≠ [] ∧ turn.out = out ++ taken ∧ turn.out.length ≤ slots ∧
      ServesAll q taken (q.settle ten tq turn.items turn.deficit turn.pending) ∧
      (turn.items = [] ∨ turn.deficit = 0 ∨ turn.out.length = slots) := by
  induction its generalizing q tq out df e with
  | nil =>
    rw [spend, if_pos hsl] at ht
    subst ht
    exact ⟨[e], cons_ne_nil _ _, by simp [spend], by simp [spend]; omega,
      .cons ⟨hat, htq, hi, hc⟩ (.nil _), .inl (by simp [spend])⟩
  | cons e' its ih =>
    have hs : q.Serves e ten tq (e' :: its) df := ⟨hat, htq, hi, hc⟩
    rw [spend, if_pos hsl] at ht
    cases df with
    | zero =>
      subst ht
      exact ⟨[e], cons_ne_nil _ _, by simp [spend], by simp [spend]; omega,
        .cons hs (.nil _), .inr (.inl (by simp [spend]))⟩
    | succ df =>
      by_cases hf : (out ++ [e]).length < slots
      · -- The turn goes on from the queue after the first item.
        obtain ⟨hat', htq', hc'⟩ := afterServing_held hat
          (cons_ne_nil e' its) (Nat.succ_ne_zero df)
          (Eq.refl (q.afterServing ten tq (e' :: its) (df + 1)))
        have hp : (q.afterServing ten tq (e' :: its) (df + 1)).pending =
            q.pending - 1 := settle_pending
        obtain ⟨taken, -, ho, hle, ha, he⟩ := ih hat' htq' hc' rfl hf ht
        rw [settle_afterServing hat (cons_ne_nil _ _) (Nat.succ_ne_zero _)] at ha
        exact ⟨e :: taken, cons_ne_nil _ _, by rw [ho]; simp, hle, .cons hs ha, he⟩
      · rw [spend, if_neg hf] at ht
        subst ht
        refine ⟨[e], cons_ne_nil _ _, rfl, by simp; omega, .cons hs (.nil _), .inr (.inr ?_)⟩
        simp at hf ⊢
        omega

/-- The loop returns, with as many items as there are slots and as are pending. -/
theorem nextLoop_eq_some {fuel : ℕ} (hq : q.Sound) (hle : out.length ≤ slots)
    (hf : slots < fuel + out.length) :
    ∃ q' taken, nextLoop slots fuel q out = some (q', out ++ taken) ∧ ServesAll q taken q' ∧
      taken.length = min (slots - out.length) q.pending := by
  induction fuel generalizing q out with
  | zero => omega
  | succ fuel ih =>
    rw [nextLoop]
    by_cases hgo : out.length < slots ∧ 0 < q.pending
    · obtain ⟨hs, hpo⟩ := hgo
      obtain ⟨ten, tq, hat, htq, hne⟩ := hq.at_index hpo
      obtain ⟨hlt, -⟩ := List.getElem?_eq_some_iff.mp hat
      obtain ⟨e, its, hi⟩ := exists_cons_of_ne_nil hne
      obtain ⟨df, hc⟩ := Nat.exists_eq_succ_of_ne_zero (hq.credit_pos hat htq).1.ne'
      rw [if_pos ⟨hs, hpo, by omega⟩]
      simp only [hat, htq, Option.bind_eq_bind, Option.bind_some, hi, hc]
      generalize htu : spend slots (e :: its) df.succ q.pending out = turn
      obtain ⟨taken, ht, ho, hle', ha, he⟩ :=
        servesAll_spend hat htq hc hi hs htu.symm
      have hl : turn.out.length = out.length + taken.length := by rw [ho, length_append]
      have ht' : 0 < taken.length := length_pos_of_ne_nil ht
      have hp := ha.pending hq
      split_ifs with hm
      · obtain ⟨q', rest, hru, ha', hr⟩ := ih (ha.sound hq) hle' (by omega)
        refine ⟨q', taken ++ rest, by rw [hru, ho, append_assoc], ha.append ha', ?_⟩
        rw [length_append]
        omega
      · refine ⟨_, taken, by rw [ho], ha, ?_⟩
        have hfu : turn.out.length = slots := by tauto
        omega
    · rw [if_neg fun h => hgo ⟨h.1, h.2.1⟩]
      refine ⟨q, [], by rw [append_nil], .nil q, ?_⟩
      rw [length_nil]
      omega

theorem Sound.next_eq_some (hq : q.Sound) {n : ℤ} (hn : 0 < n) :
    ∃ q' out, q.next false n = some (.ok (q', out)) ∧ ServesAll q out q' ∧
      out.length = min n.toNat q.pending := by
  obtain ⟨q', out, hr, ha, hl⟩ := nextLoop_eq_some hq (Nat.zero_le n.toNat)
    (by simp : n.toNat < n.toNat + 1 + ([] : List Entry).length)
  refine ⟨q', out, ?_, ha, hl⟩
  rw [next, if_neg Bool.false_ne_true, if_neg (by omega), hr]
  rfl

end Next

end Queue

end Dhole.Fairness
