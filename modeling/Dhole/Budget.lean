import Dhole.KV
import Dhole.Operations

/-! The concurrency budget of a pipeline: a counting semaphore in a bucket that the planes
share. A slot is one key. It is taken by creating the key, kept by rewriting it at the
revision it was last written at, and given back by deleting it at that revision. The server
drops a key that was not rewritten for a while; here it may drop any key at any time. -/

namespace Dhole.Budget

open Interleave Prog KV List

structure SlotKey where
  tenantID : String
  pipelineID : String
  index : ℕ
deriving DecidableEq

structure SlotRecord where
  tenantID : String
  pipelineID : String
  slot : ℕ
  planeID : String
  acquiredAt : ℤ
deriving DecidableEq

abbrev SlotOp := KV.Op SlotKey fun _ => SlotRecord

def budgetSig : Sig where
  Op := SlotOp
  Res := KV.Op.Res

abbrev BudgetProg := Prog budgetSig

abbrev BudgetEvent := Interleave.Event budgetSig

abbrev BudgetHistory := List (Act budgetSig)

def create (key : SlotKey) (record : SlotRecord) : BudgetProg WriteRes :=
  perform (S := budgetSig) (.create key record)

def get (key : SlotKey) : BudgetProg (GetRes SlotRecord) := perform (S := budgetSig) (.get key)

def update (key : SlotKey) (record : SlotRecord) (revision : ℕ) : BudgetProg WriteRes :=
  perform (S := budgetSig) (.update key record revision)

def deleteAt (key : SlotKey) (revision : ℕ) : BudgetProg WriteRes :=
  perform (S := budgetSig) (.deleteAt key revision)

def delete (key : SlotKey) : BudgetProg WriteRes := perform (S := budgetSig) (.delete key)

/-! ### Configuration -/

structure Budgets where
  limits : String × String → Option ℕ
  fallback : ℕ
  plane : String

def Budgets.limitFor (b : Budgets) (tenantID pipelineID : String) : ℕ :=
  (b.limits (tenantID, pipelineID)).getD b.fallback

/-! ### Slots -/

structure BudgetSlot where
  key : SlotKey
  revision : ℕ
deriving DecidableEq

/-- The slots are tried in order; one that is taken, or lost to a race, is passed over. -/
def acquireFrom (b : Budgets) (tenantID pipelineID : String) (acquiredAt : ℤ) :
    ℕ → ℕ → BudgetProg (Option BudgetSlot)
  | 0, _ => pure none
  | remaining + 1, index => do
    let key := ⟨tenantID, pipelineID, index⟩
    match ← create key ⟨tenantID, pipelineID, index, b.plane, acquiredAt⟩ with
    | .ok revision => pure (some ⟨key, revision⟩)
    | .conflict | .failed _ => acquireFrom b tenantID pipelineID acquiredAt remaining (index + 1)

/-- `refused` when the context has ended or the plane is closed. -/
def acquire (b : Budgets) (tenantID pipelineID : String) (refused : Bool) (acquiredAt : ℤ) :
    BudgetProg (Option BudgetSlot) :=
  if tenantID = "" ∨ pipelineID = "" ∨ refused then pure none
  else acquireFrom b tenantID pipelineID acquiredAt (b.limitFor tenantID pipelineID) 0

def renewOnce (slot : BudgetSlot) : BudgetProg (Option BudgetSlot) := do
  match ← get slot.key with
  | .found record revision =>
    if revision = slot.revision then
      match ← update slot.key record slot.revision with
      | .ok revision => pure (some { slot with revision })
      | .conflict | .failed _ => pure none
    else pure none
  | .notFound | .failed => pure none

/-- The renewals of a slot until one is refused, or until it is released or the plane closes.
The slot is left at the revision it was last known at. -/
def renew : ℕ → BudgetSlot → BudgetProg BudgetSlot
  | 0, slot => pure slot
  | n + 1, slot => do
    match ← renewOnce slot with
    | some slot => renew n slot
    | none => pure slot

def release (slot : BudgetSlot) : BudgetProg Unit := do
  let _ ← deleteAt slot.key slot.revision

/-- What becomes of one acquisition: whether the plane closes before the slot is registered,
how many ticks of renewal pass, and whether it is released after them. -/
structure Acquisition where
  tenantID : String
  pipelineID : String
  refused : Bool := false
  acquiredAt : ℤ := 0
  closed : Bool := false
  renewals : ℕ := 0
  released : Bool := true

def hold (b : Budgets) (a : Acquisition) : BudgetProg Unit := do
  match ← acquire b a.tenantID a.pipelineID a.refused a.acquiredAt with
  | none => pure ()
  | some slot =>
    if a.closed then pure ()
    else
      let slot ← renew a.renewals slot
      if a.released then release slot else pure ()

/-- The server drops keys that have come of age. -/
def ageOut : List SlotKey → BudgetProg Unit
  | [] => pure ()
  | key :: keys => do
    let _ ← delete key
    ageOut keys

inductive Actor where
  | holder (b : Budgets) (a : Acquisition)
  | server (keys : List SlotKey)

def Actor.prog : Actor → BudgetProg Unit
  | .holder b a => hold b a
  | .server keys => ageOut keys

def budgetWorld : World budgetSig where
  State := Bucket SlotKey fun _ => SlotRecord
  init := Bucket.empty
  Answers b e := KV.Answers b e.op e.res
  next b e := KV.next b e.op e.res

abbrev Runs (actors : ℕ → Actor) (tr : BudgetHistory) : Prop :=
  Reach budgetWorld (fun i => (actors i).prog) tr

/-! ### What a holder writes, and why -/

def Wrote (h : List BudgetEvent) (key : SlotKey) (revision : ℕ) : Prop :=
  (∃ record, ⟨.create key record, WriteRes.ok revision⟩ ∈ h) ∨
    ∃ record old, ⟨.update key record old, WriteRes.ok revision⟩ ∈ h

theorem Wrote.mono {h g : List BudgetEvent} {key : SlotKey} {rv : ℕ}
    (hw : Wrote h key rv) (hs : h ⊆ g) : Wrote g key rv := by
  obtain ⟨record, hm⟩ | ⟨record, old, hm⟩ := hw
  · exact .inl ⟨record, hs hm⟩
  · exact .inr ⟨record, old, hs hm⟩

/-- A holder creates slots below its limit, and touches a slot only at a revision it wrote
itself. -/
def Permitted (actor : Actor) (h : List BudgetEvent) (e : BudgetEvent) : Prop :=
  match actor, (e.op : SlotOp) with
  | .holder .., .get _ => True
  | .holder b _, .create key _ => key.index < b.limitFor key.tenantID key.pipelineID
  | .holder .., .update key _ revision => Wrote h key revision
  | .holder .., .deleteAt key revision => Wrote h key revision
  | .server _, .delete _ => True
  | _, _ => False

variable {b : Budgets} {a : Acquisition} {h : List BudgetEvent}

theorem wp_acquireFrom {tid pid : String} {acquiredAt : ℤ} (remaining index : ℕ)
    (hl : remaining + index = b.limitFor tid pid) :
    wp (Permitted (.holder b a)) (acquireFrom b tid pid acquiredAt remaining index)
      (fun g slot => ∀ s, slot = some s → Wrote g s.key s.revision) h := by
  induction remaining generalizing index h with
  | zero => simp [acquireFrom]
  | succ remaining ih =>
    intro r
    refine ⟨by simp only [Permitted]; omega, ?_⟩
    cases r with
    | ok rv =>
      rintro s ⟨⟩
      exact .inl ⟨_, mem_concat_self⟩
    | conflict | failed landed => exact ih (index + 1) (by omega)

theorem wp_renewOnce {slot : BudgetSlot} (hs : Wrote h slot.key slot.revision) :
    wp (Permitted (.holder b a)) (renewOnce slot)
      (fun g renewed => ∀ s, renewed = some s → Wrote g s.key s.revision) h := by
  intro r
  refine ⟨trivial, ?_⟩
  cases r with
  | found record rv =>
    show wp _ (if rv = slot.revision then _ else pure none) _ _
    split_ifs
    · intro r'
      refine ⟨hs.mono (subset_append_left _ _), ?_⟩
      cases r' with
      | ok re' =>
        rintro s ⟨⟩
        exact .inr ⟨_, _, mem_concat_self⟩
      | conflict | failed landed => rintro s ⟨⟩
    · rintro s ⟨⟩
  | notFound | failed => rintro s ⟨⟩

theorem wp_renew {slot : BudgetSlot} (n : ℕ) (hs : Wrote h slot.key slot.revision) :
    wp (Permitted (.holder b a)) (renew n slot) (fun g s => Wrote g s.key s.revision) h := by
  induction n generalizing slot h with
  | zero => exact hs
  | succ n ih =>
    rw [renew, wp_bind]
    refine wp_mono (wp_renewOnce hs) fun g re hr => ?_
    cases re with
    | none => exact hs.mono (subset_append_left _ _)
    | some s => exact ih (hr s rfl)

theorem wp_hold : wp (Permitted (.holder b a)) (hold b a) (fun _ _ => True) [] := by
  rw [hold, wp_bind]
  have ha : wp (Permitted (.holder b a))
      (acquire b a.tenantID a.pipelineID a.refused a.acquiredAt)
      (fun g slot => ∀ s, slot = some s → Wrote g s.key s.revision) [] := by
    unfold acquire
    split_ifs
    · rintro s ⟨⟩
    · exact wp_acquireFrom _ 0 (Nat.add_zero _)
  -- The slot, if there is one, is renewed and released at revisions its holder wrote.
  refine wp_mono ha fun g slot hsl => ?_
  cases slot with
  | none => trivial
  | some slot =>
    split_ifs
    · trivial
    · rw [wp_bind]
      exact wp_mono (wp_renew a.renewals (hsl slot rfl)) fun g' s hs r => ⟨hs, trivial⟩
    · rw [wp_bind]
      exact wp_mono (wp_renew a.renewals (hsl slot rfl)) fun _ _ _ => trivial

theorem wp_ageOut (keys : List SlotKey) (server : List SlotKey) :
    wp (Permitted (.server server)) (ageOut keys) (fun _ _ => True) h := by
  induction keys generalizing h with
  | nil => trivial
  | cons key keys ih => exact fun r => ⟨trivial, ih⟩

theorem wp_prog (A : Actor) : wp (Permitted A) A.prog (fun _ _ => True) [] := by
  cases A with
  | holder b a => exact wp_hold
  | server keys => exact wp_ageOut keys keys

/-! ### Histories -/

def took (key : SlotKey) : BudgetEvent → Bool
  | ⟨.create k _, r⟩ => decide (k = key) && (WriteRes.landed r).isSome
  | _ => false

def holderOf (key : SlotKey) (tr : BudgetHistory) : Option ℕ :=
  (tr.reverse.find? fun a => took key a.event).map Act.actor

variable {As : ℕ → Actor} {tr : BudgetHistory} {i : ℕ} {e : BudgetEvent} {key : SlotKey}
  {rv : ℕ}

abbrev cellOf (tr : BudgetHistory) (key : SlotKey) : Cell SlotRecord := budgetWorld.state tr key

theorem holderOf_snoc (tr : BudgetHistory) (a : Act budgetSig) (key : SlotKey) :
    holderOf key (tr ++ [a]) = if took key a.event then some a.actor else holderOf key tr := by
  unfold holderOf
  split <;> simp_all

theorem cellOf_snoc (tr : BudgetHistory) (a : Act budgetSig) (key : SlotKey) :
    cellOf (tr ++ [a]) key = KV.next (budgetWorld.state tr) a.event.op a.event.res key :=
  congrFun (World.state_snoc budgetWorld tr a) key

theorem cellOf_snoc_of_written {cell : Cell SlotRecord}
    (hw : (e.op : SlotOp).written e.res = some ⟨key, cell⟩) : cellOf (tr ++ [⟨i, e⟩]) key = cell :=
  (cellOf_snoc tr ⟨i, e⟩ key).trans (next_of_written hw)

theorem rev_lt_of_took (han : budgetWorld.Answers (budgetWorld.state tr) e)
    (ht : took key e = true) : (cellOf tr key).rev < (cellOf (tr ++ [⟨i, e⟩]) key).rev := by
  obtain ⟨op, r⟩ := e
  cases op with
  | create k record =>
    simp only [took, Bool.and_eq_true, decide_eq_true_eq, Option.isSome_iff_exists] at ht
    obtain ⟨rfl, rv, hl⟩ := ht
    have hw : (KV.Op.create k record : SlotOp).written r = some ⟨k, rv, some record⟩ := by
      simp [Op.written, hl]
    have hc : cellOf (tr ++ [⟨i, ⟨.create k record, r⟩⟩]) k = ⟨rv, some record⟩ :=
      cellOf_snoc_of_written hw
    have ha : KV.Answers (cellOf tr) (.create k record : SlotOp) r := han
    rw [hc]
    exact rev_lt_of_written ha hw
  | _ => cases ht

/-- What a holder wrote last, it still holds: the slot is at that revision only if nobody has
taken it since. -/
structure Holds (actors : ℕ → Actor) (tr : BudgetHistory) (i : ℕ) (key : SlotKey) (revision : ℕ) :
    Prop where
  le : revision ≤ (cellOf tr key).rev
  holder : revision = (cellOf tr key).rev → holderOf key tr = some i
  limit : ∃ b a, actors i = .holder b a ∧ key.index < b.limitFor key.tenantID key.pipelineID

theorem Holds.snoc {j : ℕ} (h : Holds As tr i key rv)
    (ha : budgetWorld.Answers (budgetWorld.state tr) e) : Holds As (tr ++ [⟨j, e⟩]) i key rv := by
  have hc : cellOf (tr ++ [⟨j, e⟩]) key = cellOf tr key ∨
      (cellOf tr key).rev < (cellOf (tr ++ [⟨j, e⟩]) key).rev := by
    rw [cellOf_snoc]
    exact cell_next ha key
  have hle := h.le
  obtain hs | hlt := hc
  · refine ⟨by rwa [hs], fun heq => ?_, h.limit⟩
    have hn : took key e = false := by
      by_contra ht
      rw [Bool.not_eq_false] at ht
      have hlt : (cellOf tr key).rev < (cellOf (tr ++ [⟨j, e⟩]) key).rev := rev_lt_of_took ha ht
      rw [hs] at hlt
      exact lt_irrefl _ hlt
    rw [holderOf_snoc]
    simp only [hn]
    exact h.holder (by rwa [hs] at heq)
  · exact ⟨by omega, fun heq => by omega, h.limit⟩

theorem holds_of_wrote (htr : Guarded budgetWorld (fun i => Permitted (As i)) tr)
    (hw : Wrote (own i tr) key rv) : Holds As tr i key rv := by
  induction htr generalizing i key rv with
  | nil =>
    obtain ⟨record, hm⟩ | ⟨record, old, hm⟩ := hw <;> cases hm
  | @snoc tr j e htr han hp ih =>
    by_cases hj : j = i
    · subst hj
      obtain ⟨record, hm⟩ | ⟨record, old, hm⟩ := hw
      · obtain hm | rfl := by simpa using hm
        · exact (ih (.inl ⟨record, hm⟩)).snoc han
        · have hc : cellOf (tr ++ [⟨j, ⟨.create key record, WriteRes.ok rv⟩⟩]) key =
              ⟨rv, some record⟩ := cellOf_snoc_of_written rfl
          refine ⟨by rw [hc], fun _ => ?_, ?_⟩
          · rw [holderOf_snoc]
            simp [took, WriteRes.landed]
          · cases ha : As j with
            | holder b a => exact ⟨b, a, rfl, by simpa [Permitted, ha] using hp⟩
            | server keys => simp [Permitted, ha] at hp
      · obtain hm | rfl := by simpa using hm
        · exact (ih (.inr ⟨record, old, hm⟩)).snoc han
        · have hc : cellOf (tr ++ [⟨j, ⟨.update key record old, WriteRes.ok rv⟩⟩]) key =
              ⟨rv, some record⟩ := cellOf_snoc_of_written rfl
          have hold : Holds As tr j key old := by
            cases ha : As j with
            | holder b a => exact ih (by simpa [Permitted, ha] using hp)
            | server keys => simp [Permitted, ha] at hp
          have hr : (cellOf tr key).rev = old := han.1
          refine ⟨by rw [hc], fun _ => ?_, hold.limit⟩
          rw [holderOf_snoc]
          exact hold.holder hr.symm
    · rw [own_snoc_of_ne hj] at hw
      exact (ih hw).snoc han

/-- What a write of a key can be: the server drops it, a holder takes it where there is no
slot, or a holder writes at a revision of its own. -/
inductive WroteAt (actors : ℕ → Actor) (tr : BudgetHistory) (i : ℕ) (key : SlotKey)
    (cell : Cell SlotRecord) : Prop
  | dropped (keys : List SlotKey) (hactor : actors i = .server keys) (hcell : cell.live = none)
  | taken (b : Budgets) (a : Acquisition) (hactor : actors i = .holder b a)
      (hindex : key.index < b.limitFor key.tenantID key.pipelineID)
      (hfree : (cellOf tr key).live = none)
  | kept (hwrote : Wrote (own i tr) key (cellOf tr key).rev)

theorem wroteAt_of_written {cell : Cell SlotRecord}
    (hans : budgetWorld.Answers (budgetWorld.state tr) e) (hp : Permitted (As i) (own i tr) e)
    (hw : (e.op : SlotOp).written e.res = some ⟨key, cell⟩) : WroteAt As tr i key cell := by
  obtain ⟨op, r⟩ := e
  have han : KV.Answers (cellOf tr) (op : SlotOp) r := hans
  cases ha : As i with
  | server keys =>
    rw [ha] at hp
    cases op with
    | delete k =>
      simp only [Op.written, Option.map_eq_some_iff, Sigma.mk.injEq] at hw
      obtain ⟨rev, -, rfl, hc⟩ := hw
      obtain rfl := eq_of_heq hc
      exact .dropped keys ha rfl
    | _ => exact hp.elim
  | holder b a =>
    rw [ha] at hp
    cases op with
    | create k record =>
      simp only [Op.written, Option.map_eq_some_iff] at hw
      obtain ⟨rev, hl, rfl, -⟩ := hw
      exact .taken b a ha hp (Write.of_landed han hl).1
    | update k record old | deleteAt k old =>
      simp only [Op.written, Option.map_eq_some_iff, Sigma.mk.injEq] at hw
      obtain ⟨rev, hl, rfl, -⟩ := hw
      have hr : (cellOf tr k).rev = old := (Write.of_landed han hl).1
      exact .kept (hr ▸ hp)
    | get k | listKeys => cases hw
    | put k record | delete k => exact hp.elim

theorem index_lt_of_live {tid pid : String} {limit index : ℕ}
    (hli : ∀ i b a, As i = .holder b a → b.limitFor tid pid = limit)
    (htr : Guarded budgetWorld (fun i => Permitted (As i)) tr)
    (hl : (cellOf tr ⟨tid, pid, index⟩).live ≠ none) : index < limit := by
  induction htr with
  | nil => exact absurd rfl hl
  | @snoc tr j e htr han hp ih =>
    obtain hs | ⟨cell, hc, hw⟩ := next_cases
      (budgetWorld.state tr) e.op e.res ⟨tid, pid, index⟩
    · rw [cellOf_snoc, hs] at hl
      exact ih hl
    · cases wroteAt_of_written han hp hw with
      | dropped keys ha hn =>
        rw [cellOf_snoc, hc] at hl
        exact absurd hn hl
      | taken b a ha hi hf => exact hli j b a ha ▸ hi
      | kept hwr =>
        obtain ⟨b, a, ha, hi⟩ := (holds_of_wrote htr hwr).limit
        exact hli j b a ha ▸ hi

/-- The budget of a pipeline: never more slots than its limit, and a holder writes only where
there is no slot, or on the slot that it took itself. -/
structure BudgetKept (actors : ℕ → Actor) (tenantID pipelineID : String) (limit : ℕ)
    (tr : BudgetHistory) : Prop where
  at_most : ∀ us vs, tr = us ++ vs →
    {index | (cellOf us ⟨tenantID, pipelineID, index⟩).live ≠ none}.encard ≤ limit
  own_slot : ∀ us a vs b acquisition key cell, tr = us ++ a :: vs →
    actors a.actor = .holder b acquisition →
    (a.event.op : SlotOp).written a.event.res = some ⟨key, cell⟩ →
    (cellOf us key).live = none ∨ holderOf key us = some a.actor

/-- In every interleaving of acquisitions, renewals and releases by planes that agree on the
limit, with slots that may age out at any time. -/
theorem budget_kept (actors : ℕ → Actor) (tenantID pipelineID : String) (limit : ℕ)
    (hlimit : ∀ i b a, actors i = .holder b a → b.limitFor tenantID pipelineID = limit)
    (tr : BudgetHistory) (htr : Runs actors tr) : BudgetKept actors tenantID pipelineID limit tr := by
  have hg : Guarded budgetWorld (fun i => Permitted (actors i)) tr :=
    htr.guarded fun i => wp_prog (actors i)
  constructor
  case at_most =>
    rintro us vs rfl
    have hsu : {index | (cellOf us ⟨tenantID, pipelineID, index⟩).live ≠ none} ⊆
        (Finset.range limit : Set ℕ) := by
      intro index hl
      rw [Finset.coe_range]
      exact index_lt_of_live hlimit hg.of_append hl
    refine (Set.encard_le_encard hsu).trans ?_
    rw [Set.encard_coe_eq_coe_finsetCard, Finset.card_range]
  case own_slot =>
    rintro us ⟨i, e⟩ vs b ac key cell rfl ha hw
    obtain ⟨han, hp⟩ := hg.at_split
    cases wroteAt_of_written han hp hw with
    | dropped keys hs _ =>
      rw [hs] at ha
      cases ha
    | taken _ _ _ _ hf => exact .inl hf
    | kept hwr => exact .inr ((holds_of_wrote hg.of_append hwr).holder rfl)

/-! ### Two planes and one slot -/

def onePlane (plane : String) : Budgets where
  limits := fun _ => none
  fallback := 1
  plane

/-- The slot of the first plane ages out and the second one takes it; then the first renews
and releases. -/
def lateRelease : ℕ → Actor
  | 0 => .holder (onePlane "a") { tenantID := "acme", pipelineID := "p", renewals := 1 }
  | 1 => .holder (onePlane "b") { tenantID := "acme", pipelineID := "p" }
  | _ => .server [⟨"acme", "p", 0⟩]

def lateReleaseRun : BudgetHistory :=
  exec budgetWorld (fun _ b op => KV.resolve [] b op) (fun i => (lateRelease i).prog)
    [0, 2, 1, 0, 0]

theorem lateReleaseRun_runs : Runs lateRelease lateReleaseRun :=
  exec_reach budgetWorld _ (fun _ b op => KV.resolve_answers [] b op) _ _

/-- The second plane keeps its slot. -/
theorem lateRelease_kept : BudgetKept lateRelease "acme" "p" 1 lateReleaseRun ∧
    lateReleaseRun.length = 5 ∧ (cellOf lateReleaseRun ⟨"acme", "p", 0⟩).live =
      some ⟨"acme", "p", 0, "b", 0⟩ := by
  refine ⟨budget_kept lateRelease "acme" "p" 1 ?_ _ lateReleaseRun_runs, rfl, rfl⟩
  rintro (_ | _ | i) b a ha <;> cases ha <;> rfl

end Dhole.Budget
