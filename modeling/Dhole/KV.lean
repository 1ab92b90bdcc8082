import Dhole.Interleave

/-! A key-value bucket whose every write gets a revision. A key's cell holds the
revision of its last write, deletions included, and the value if there is one. `create`
writes only where there is no value, `update` and `deleteAt` only at the revision they
name; `put` and `delete` are unconditional. A call can fail, and a write that failed
may have taken effect all the same: the answer records whether it did, which is for the
world to know and not for the caller. Each call is one atomic step, and revisions only
have to grow per key. -/

namespace Dhole.KV

open Interleave

variable {K : Type} {V : K → Type}

inductive Op (K : Type) (V : K → Type) where
  | get (k : K)
  | create (k : K) (v : V k)
  | update (k : K) (v : V k) (rev : ℕ)
  | put (k : K) (v : V k)
  | delete (k : K)
  | deleteAt (k : K) (rev : ℕ)
  | listKeys

inductive GetRes (β : Type) where
  | found (v : β) (rev : ℕ)
  | notFound
  | failed

/-- The answer to a write. A failed one may have landed at a revision. -/
inductive WriteRes where
  | ok (rev : ℕ)
  | conflict
  | failed (landed : Option ℕ)

def Op.Res : Op K V → Type
  | .get k => GetRes (V k)
  | .create .. | .update .. | .put .. | .delete _ | .deleteAt .. => WriteRes
  | .listKeys => Option (List K)

def WriteRes.landed : WriteRes → Option ℕ
  | .ok rev => some rev
  | .conflict => none
  | .failed landed => landed

def GetRes.isFailed {β : Type} : GetRes β → Bool
  | .failed => true
  | .found .. | .notFound => false

def WriteRes.isFailed : WriteRes → Bool
  | .failed _ => true
  | .ok _ | .conflict => false

def WriteRes.isConflict : WriteRes → Bool
  | .conflict => true
  | .ok _ | .failed _ => false

def Op.Failed : (op : Op K V) → op.Res → Prop
  | .get _, r => GetRes.isFailed r
  | .create .., r | .update .., r | .put .., r | .delete _, r | .deleteAt .., r =>
    WriteRes.isFailed r
  | .listKeys, r => r = none

structure Cell (β : Type) where
  rev : ℕ := 0
  live : Option β := none

def Cell.entry {β : Type} (c : Cell β) : Option (β × ℕ) := c.live.map fun v => (v, c.rev)

abbrev Bucket (K : Type) (V : K → Type) := (k : K) → Cell (V k)

def Bucket.empty : Bucket K V := fun _ => {}

def Op.written : (op : Op K V) → op.Res → Option ((k : K) × Cell (V k))
  | .create k v, r | .update k v _, r | .put k v, r =>
    (WriteRes.landed r).map fun rev => ⟨k, rev, some v⟩
  | .delete k, r | .deleteAt k _, r => (WriteRes.landed r).map fun rev => ⟨k, rev, none⟩
  | .get _, _ | .listKeys, _ => none

def next [DecidableEq K] (b : Bucket K V) (op : Op K V) (r : op.Res) : Bucket K V :=
  match op.written r with
  | none => b
  | some ⟨k, cell⟩ => Function.update b k cell

/-- A write that took effect got a larger revision and its condition held; one that
was refused lost its condition. -/
def Write (cell : Cell β) (condition : Prop) : WriteRes → Prop
  | .ok rev | .failed (some rev) => condition ∧ cell.rev < rev
  | .conflict => ¬ condition
  | .failed none => True

def Answers (b : Bucket K V) : (op : Op K V) → op.Res → Prop
  | .get k, .found v rev => (b k).entry = some (v, rev)
  | .get k, .notFound => (b k).live = none
  | .get _, .failed => True
  | .create k _, r => Write (b k) ((b k).live = none) r
  | .update k _ rev, r => Write (b k) ((b k).rev = rev) r
  | .put k _, r => Write (b k) True r
  | .delete k, r => Write (b k) True r
  | .deleteAt k rev, r => Write (b k) ((b k).rev = rev) r
  | .listKeys, _ => True

/-! ### Revisions -/

section Revisions

variable [DecidableEq K] {b : Bucket K V} {op : Op K V} {r : op.Res} {k : K}

theorem Write.of_landed {β : Type} {cell : Cell β} {condition : Prop} {r : WriteRes} {rev : ℕ}
    (h : Write cell condition r) (hl : r.landed = some rev) : condition ∧ cell.rev < rev := by
  cases r with
  | ok rev' =>
    obtain rfl : rev' = rev := by simpa [WriteRes.landed] using hl
    exact h
  | conflict => simp [WriteRes.landed] at hl
  | failed landed =>
    obtain rfl : landed = some rev := by simpa [WriteRes.landed] using hl
    exact h

theorem next_of_written {cell : Cell (V k)} (hw : op.written r = some ⟨k, cell⟩) :
    next b op r k = cell := by
  simp [next, hw]

theorem next_cases (b : Bucket K V) (op : Op K V) (r : op.Res) (k : K) :
    next b op r k = b k ∨ ∃ cell, next b op r k = cell ∧ op.written r = some ⟨k, cell⟩ := by
  rcases hop : op.written r with _ | ⟨k', cell⟩
  · exact .inl (by simp [next, hop])
  · by_cases hk : k = k'
    · subst hk
      exact .inr ⟨cell, next_of_written hop, rfl⟩
    · exact .inl (by simp [next, hop, Function.update_of_ne hk])

omit [DecidableEq K] in
theorem rev_lt_of_written (h : Answers b op r) {cell : Cell (V k)}
    (hw : op.written r = some ⟨k, cell⟩) : (b k).rev < cell.rev := by
  cases op <;> simp only [Op.written, Option.map_eq_some_iff, Sigma.mk.injEq, reduceCtorEq] at hw
  all_goals
    obtain ⟨rev, hl, rfl, hc⟩ := hw
    obtain rfl := eq_of_heq hc
    exact (Write.of_landed h hl).2

theorem cell_next (h : Answers b op r) (k : K) :
    next b op r k = b k ∨ (b k).rev < (next b op r k).rev := by
  refine (next_cases b op r k).imp_right ?_
  rintro ⟨cell, rfl, hw⟩
  exact rev_lt_of_written h hw

end Revisions

/-! ### Cells over a history -/

section Stands

variable {S : Sig} {w : World S} {G : ℕ → List (Event S) → Event S → Prop} {β : Type}
  {f : w.State → Cell β} {us vs : List (Act S)}

variable (hstep : ∀ s e, w.Answers s e → f (w.next s e) = f s ∨ (f s).rev < (f (w.next s e)).rev)
  (htr : Guarded w G (us ++ vs))

include hstep htr

theorem cell_append : f (w.state (us ++ vs)) = f (w.state us) ∨
      (f (w.state us)).rev < (f (w.state (us ++ vs))).rev := by
  induction vs using List.reverseRecOn with
  | nil => exact .inl (by rw [List.append_nil])
  | append_singleton vs a ih =>
    rw [← List.append_assoc] at htr ⊢
    rw [World.state_snoc]
    obtain hs | hlt := hstep _ _ htr.last.1
    · rw [hs]
      exact ih htr.of_append
    · obtain hb | hb := ih htr.of_append
      · exact .inr (hb ▸ hlt)
      · exact .inr (hb.trans hlt)

theorem cell_stands (hr : (f (w.state (us ++ vs))).rev = (f (w.state us)).rev) :
    f (w.state (us ++ vs)) = f (w.state us) := by
  obtain hs | hlt := cell_append hstep htr
  · exact hs
  · exact absurd hr hlt.ne'

end Stands

/-! ### A bucket that answers every call -/

def resolveWrite {β : Type} (cell : Cell β) (condition : Prop) [Decidable condition] : WriteRes :=
  if condition then .ok (cell.rev + 1) else .conflict

theorem resolveWrite_write {β : Type} (cell : Cell β) (condition : Prop) [Decidable condition] :
    Write cell condition (resolveWrite cell condition) := by
  unfold resolveWrite
  split
  case isTrue h => exact ⟨h, Nat.lt_succ_self _⟩
  case isFalse h => exact h

def resolve (keys : List K) (b : Bucket K V) : (op : Op K V) → op.Res
  | .get k =>
    match (b k).live with
    | some v => .found v (b k).rev
    | none => .notFound
  | .create k _ => resolveWrite (b k) ((b k).live.isNone)
  | .update k _ rev => resolveWrite (b k) ((b k).rev = rev)
  | .put k _ => resolveWrite (b k) True
  | .delete k => resolveWrite (b k) True
  | .deleteAt k rev => resolveWrite (b k) ((b k).rev = rev)
  | .listKeys => some keys

theorem resolve_answers (keys : List K) (b : Bucket K V) (op : Op K V) :
    Answers b op (resolve keys b op) := by
  cases op with
  | get k =>
    cases hl : (b k).live with
    | none =>
      rw [resolve, hl]
      exact hl
    | some v => simp [resolve, hl, Answers, Cell.entry]
  | create k v => simpa [Answers, resolve] using resolveWrite_write (b k) ((b k).live.isNone)
  | update k v rev | deleteAt k rev => exact resolveWrite_write _ _
  | put k v | delete k => exact resolveWrite_write (b k) True
  | listKeys => trivial

def failure : (op : Op K V) → op.Res
  | .get _ => .failed
  | .create .. | .update .. | .put .. | .delete _ | .deleteAt .. => .failed none
  | .listKeys => none

theorem failure_answers (b : Bucket K V) (op : Op K V) : Answers b op (failure op) := by
  cases op <;> trivial

end Dhole.KV
