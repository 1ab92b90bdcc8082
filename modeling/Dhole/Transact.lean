import Dhole.Compose
import Dhole.Moments

/-! Transactions on shared tables. A transaction sees what is committed by the time of each of its
statements together with its own changes, and its changes reach the tables when it is committed.
A statement may take locks, which are held until the transaction ends, and may be answered only
if others do not hold what it needs. In a serial store one transaction is open at a time. A call
may fail, and a commit that failed may have taken effect all the same. -/

namespace Dhole.Transact

open Interleave Prog List
open Function (update update_self update_of_ne)

/-- How the transactions of a store stand to each other. -/
inductive Isolation where
  | serial
  | readCommitted
deriving DecidableEq

/-- Tables, and the statements on them: how one may be answered given the tables its transaction
sees and the locks of others, what it changes, and what it locks. -/
structure Schema where
  Tables : Type
  Write : Type
  apply : Tables → Write → Tables
  Query : Type
  Ans : Query → Type
  Lock : Type
  decLock : DecidableEq Lock
  answers : Tables → (Lock → Bool) → (q : Query) → Ans q → Prop
  writes : Tables → (q : Query) → Ans q → List Write
  locks : Tables → (q : Query) → Ans q → List Lock

attribute [instance] Schema.decLock

/-! ### The store -/

structure Pending (D : Schema) where
  writes : List D.Write := []
  locks : List D.Lock := []

structure State (D : Schema) where
  tables : D.Tables
  opened : ℕ := 0
  pending : ℕ → Option (Pending D) := fun _ => none

inductive CommitRes where
  | ok
  | failed (landed : Bool)

inductive Op (D : Schema) where
  | begin
  | query (tx : ℕ) (q : D.Query)
  | read (q : D.Query)
  | commit (tx : ℕ)
  | rollback (tx : ℕ)
  | abandon (tx : ℕ)

abbrev txSig (D : Schema) : Sig where
  Op := Op D
  Res
    | .begin => Option ℕ
    | .query _ q => Option (D.Ans q)
    | .read q => Option (D.Ans q)
    | .commit _ => CommitRes
    | .rollback _ => Unit
    | .abandon _ => Unit

abbrev TxEvent (D : Schema) := Interleave.Event (txSig D)

variable {D : Schema}

namespace State

def isOpen (s : State D) (tx : ℕ) : Bool := (s.pending tx).isSome

def view (s : State D) (tx : ℕ) : D.Tables :=
  ((s.pending tx).elim [] Pending.writes).foldl D.apply s.tables

def held (s : State D) (tx : ℕ) (l : D.Lock) : Bool :=
  (List.range s.opened).any fun other =>
    decide (other ≠ tx) && (s.pending other).elim false fun p => decide (l ∈ p.locks)

def begin (s : State D) : State D :=
  { s with opened := s.opened + 1, pending := update s.pending s.opened (some {}) }

def record (s : State D) (tx : ℕ) (writes : List D.Write) (locks : List D.Lock) : State D :=
  let extended := (s.pending tx).map fun p => ⟨p.writes ++ writes, p.locks ++ locks⟩
  { s with pending := update s.pending tx extended }

def conclude (s : State D) (tx : ℕ) (landed : Bool) : State D :=
  { s with
    tables := if landed then s.view tx else s.tables
    pending := update s.pending tx none }

end State

def answers (iso : Isolation) (s : State D) : TxEvent D → Prop
  | ⟨.begin, some tx⟩ =>
    tx = s.opened ∧ (iso = .serial → ∀ other < s.opened, s.isOpen other = false)
  | ⟨.query tx q, some r⟩ => s.isOpen tx = true ∧ D.answers (s.view tx) (s.held tx) q r
  | ⟨.read q, some r⟩ => D.answers s.tables (fun _ => false) q r
  | ⟨.commit tx, .ok⟩ => s.isOpen tx = true
  | ⟨.commit tx, .failed true⟩ => s.isOpen tx = true
  | _ => True

def next (s : State D) : TxEvent D → State D
  | ⟨.begin, some _⟩ => s.begin
  | ⟨.query tx q, some r⟩ => s.record tx (D.writes (s.view tx) q r) (D.locks (s.view tx) q r)
  | ⟨.commit tx, .ok⟩ => s.conclude tx true
  | ⟨.commit tx, .failed landed⟩ => s.conclude tx landed
  | ⟨.rollback tx, _⟩ => s.conclude tx false
  | ⟨.abandon tx, _⟩ => s.conclude tx false
  | _ => s

abbrev txWorld (D : Schema) (iso : Isolation) (init : D.Tables) : World (txSig D) where
  State := State D
  init := { tables := init }
  Answers := answers iso
  next := next

/-! ### What a call does -/

inductive Ends (tx : ℕ) : Bool → TxEvent D → Prop
  | commit : Ends tx true ⟨.commit tx, CommitRes.ok⟩
  | failed (landed : Bool) : Ends tx landed ⟨.commit tx, CommitRes.failed landed⟩
  | rollback (r : Unit) : Ends tx false ⟨.rollback tx, r⟩
  | abandon (r : Unit) : Ends tx false ⟨.abandon tx, r⟩

variable {s : State D} {e : TxEvent D} {tx other : ℕ} {iso : Isolation} {l : D.Lock}

/-- A call leaves the store as it is, or begins a transaction, or is a statement of one, or ends
one. -/
theorem next_cases (s : State D) (e : TxEvent D) :
    next s e = s ∨ (∃ tx, e = ⟨.begin, some tx⟩ ∧ next s e = s.begin) ∨
      (∃ tx q r, e = ⟨.query tx q, some r⟩ ∧
        next s e = s.record tx (D.writes (s.view tx) q r) (D.locks (s.view tx) q r)) ∨
      ∃ tx landed, Ends tx landed e ∧ next s e = s.conclude tx landed := by
  obtain ⟨op, r⟩ := e
  cases op with
  | begin =>
    rcases (r : Option ℕ) with _ | tx
    · exact .inl rfl
    · exact .inr (.inl ⟨tx, rfl, rfl⟩)
  | query tx q =>
    rcases (r : Option (D.Ans q)) with _ | r
    · exact .inl rfl
    · exact .inr (.inr (.inl ⟨tx, q, r, rfl, rfl⟩))
  | read q => exact .inl rfl
  | commit tx =>
    rcases (r : CommitRes) with _ | landed
    · exact .inr (.inr (.inr ⟨tx, true, .commit, rfl⟩))
    · exact .inr (.inr (.inr ⟨tx, landed, .failed landed, rfl⟩))
  | rollback tx => exact .inr (.inr (.inr ⟨tx, false, .rollback r, rfl⟩))
  | abandon tx => exact .inr (.inr (.inr ⟨tx, false, .abandon r, rfl⟩))

@[simp] theorem State.begin_pending (s : State D) :
    s.begin.pending = update s.pending s.opened (some {}) := rfl

@[simp] theorem State.record_pending (s : State D) (tx : ℕ) (ws : List D.Write)
    (ls : List D.Lock) : (s.record tx ws ls).pending = update s.pending tx
      ((s.pending tx).map fun p => ⟨p.writes ++ ws, p.locks ++ ls⟩) := rfl

@[simp] theorem State.conclude_pending (s : State D) (tx : ℕ) (landed : Bool) :
    (s.conclude tx landed).pending = update s.pending tx none := rfl

/-- What is under way after a call: a transaction as it was, one that has just begun, or one with
the changes and the locks of its statement. -/
theorem pending_next {p : Pending D} (h : (next s e).pending tx = some p) :
    (s.pending tx = some p ∧ ∀ q r, e ≠ ⟨.query tx q, some r⟩) ∨
      (tx = s.opened ∧ (∃ tx', e = ⟨.begin, some tx'⟩) ∧ p = {}) ∨
      ∃ q r p', e = ⟨.query tx q, some r⟩ ∧ s.pending tx = some p' ∧
        p = ⟨p'.writes ++ D.writes (s.view tx) q r, p'.locks ++ D.locks (s.view tx) q r⟩ := by
  by_cases hq : ∃ q r, e = ⟨.query tx q, some r⟩
  · obtain ⟨q, r, rfl⟩ := hq
    rw [show next s _ = s.record tx _ _ from rfl, State.record_pending, update_self] at h
    obtain ⟨p', hp', rfl⟩ := Option.map_eq_some_iff.mp h
    exact .inr (.inr ⟨q, r, p', rfl, hp', rfl⟩)
  have hn : ∀ q r, e ≠ ⟨.query tx q, some r⟩ := fun q r heq => hq ⟨q, r, heq⟩
  obtain heq | ⟨tx', rfl, heq⟩ | ⟨tx', q, r, rfl, heq⟩ | ⟨tx', landed, -, heq⟩ := next_cases s e
  · exact .inl ⟨heq ▸ h, hn⟩
  · rw [heq, State.begin_pending] at h
    by_cases hne : tx = s.opened
    · rw [hne, update_self] at h
      exact .inr (.inl ⟨hne, ⟨tx', rfl⟩, (Option.some.inj h).symm⟩)
    · rw [update_of_ne hne] at h
      exact .inl ⟨h, hn⟩
  · have hne : tx ≠ tx' := by
      rintro rfl
      exact hn q r rfl
    rw [heq, State.record_pending, update_of_ne hne] at h
    exact .inl ⟨h, hn⟩
  · rw [heq, State.conclude_pending] at h
    by_cases hne : tx = tx'
    · rw [hne, update_self] at h
      cases h
    · rw [update_of_ne hne] at h
      exact .inl ⟨h, hn⟩

theorem pending_of_ends {landed : Bool} (he : Ends tx landed e) : (next s e).pending tx = none := by
  cases he <;> exact update_self ..

theorem tables_next : (next s e).tables = s.tables ∨
    ∃ tx, Ends tx true e ∧ (next s e).tables = s.view tx := by
  obtain heq | ⟨tx, rfl, heq⟩ | ⟨tx, q, r, rfl, heq⟩ | ⟨tx, landed, he, heq⟩ := next_cases s e
  · exact .inl (by rw [heq])
  · exact .inl (by rw [heq]; rfl)
  · exact .inl (by rw [heq]; rfl)
  · cases landed with
    | false => exact .inl (by rw [heq]; rfl)
    | true => exact .inr ⟨tx, he, by rw [heq]; rfl⟩

theorem isOpen_of_ends (he : Ends tx true e) (ha : answers iso s e) : s.isOpen tx = true := by
  cases he with
  | commit | failed => exact ha

def Numbered (s : State D) : Prop := ∀ tx, s.opened ≤ tx → s.pending tx = none

theorem Numbered.lt (hs : Numbered s) (ho : s.isOpen tx = true) : tx < s.opened := by
  by_contra hge
  rw [State.isOpen, hs tx (not_lt.mp hge)] at ho
  cases ho

theorem opened_le_next : s.opened ≤ (next s e).opened := by
  obtain heq | ⟨tx, rfl, heq⟩ | ⟨tx, q, r, rfl, heq⟩ | ⟨tx, landed, he, heq⟩ := next_cases s e
  · rw [heq]
  · exact Nat.le_succ _
  · rfl
  · rw [heq]
    rfl

theorem Numbered.next (hs : Numbered s) : Numbered (next s e) := by
  intro tx hle
  by_contra hne
  obtain ⟨p, hp⟩ := Option.ne_none_iff_exists'.mp hne
  have hold : s.pending tx = none := hs tx (opened_le_next.trans hle)
  obtain ⟨hp, -⟩ | ⟨rfl, ⟨tx', rfl⟩, -⟩ | ⟨q, r, p', -, hp, -⟩ := pending_next hp
  · rw [hold] at hp
    cases hp
  · exact absurd hle (Nat.lt_succ_self _).not_ge
  · rw [hold] at hp
    cases hp

theorem isOpen_of_next (hlt : tx < s.opened) (h : (next s e).isOpen tx = true) :
    s.isOpen tx = true := by
  obtain ⟨p, hp⟩ := Option.isSome_iff_exists.mp h
  obtain ⟨hp, -⟩ | ⟨rfl, -, -⟩ | ⟨q, r, p', -, hp, -⟩ := pending_next hp
  · exact Option.isSome_of_eq_some hp
  · exact absurd hlt (lt_irrefl _)
  · exact Option.isSome_of_eq_some hp

/-! ### Serial stores -/

variable {G : ℕ → List (TxEvent D) → TxEvent D → Prop} {init : D.Tables} {tr : List (Act (txSig D))}
  {n m : ℕ}

theorem numbered_state (tr : List (Act (txSig D))) : Numbered ((txWorld D iso init).state tr) := by
  induction tr using reverseRecOn with
  | nil => exact fun _ _ => rfl
  | append_singleton tr a ih =>
    rw [World.state_snoc]
    exact Numbered.next ih

theorem opened_le_append (us vs : List (Act (txSig D))) :
    ((txWorld D iso init).state us).opened ≤ ((txWorld D iso init).state (us ++ vs)).opened := by
  induction vs using reverseRecOn with
  | nil => rw [append_nil]
  | append_singleton vs a ih =>
    rw [← append_assoc, World.state_snoc]
    exact ih.trans opened_le_next

def Single (s : State D) : Prop :=
  ∀ tx other, s.isOpen tx = true → s.isOpen other = true → tx = other

theorem Single.next (hnu : Numbered s) (hs : Single s) (ha : answers .serial s e) :
    Single (next s e) := by
  -- one under way was so before, when none is, or has just begun
  have hb : ∀ {tx}, (Transact.next s e).isOpen tx = true → s.isOpen tx = true ∨
      (tx = s.opened ∧ ∀ other, s.isOpen other = false) := by
    intro tx hop
    obtain ⟨p, hp⟩ := Option.isSome_iff_exists.mp hop
    obtain ⟨hp, -⟩ | ⟨rfl, ⟨tx', rfl⟩, -⟩ | ⟨q, r, p', -, hp, -⟩ := pending_next hp
    · exact .inl (Option.isSome_of_eq_some hp)
    · refine .inr ⟨rfl, fun other => ?_⟩
      by_cases hlt : other < s.opened
      · exact ha.2 rfl other hlt
      · rw [State.isOpen, hnu other (not_lt.mp hlt)]
        rfl
    · exact .inl (Option.isSome_of_eq_some hp)
  intro tx other htx ho
  rcases hb htx with hold | ⟨rfl, hn⟩
  · rcases hb ho with hold' | ⟨-, hn⟩
    · exact hs tx other hold hold'
    · exact absurd (hold.symm.trans (hn tx)) Bool.noConfusion
  · rcases hb ho with hold' | ⟨rfl, -⟩
    · exact absurd (hold'.symm.trans (hn other)) Bool.noConfusion
    · rfl

theorem Single.tables_next (hs : Single s) (ha : answers .serial s e) (ho : s.isOpen tx = true)
    (ho' : (Transact.next s e).isOpen tx = true) : (Transact.next s e).tables = s.tables := by
  obtain ht | ⟨tx', he, -⟩ := Transact.tables_next
  · exact ht
  · obtain rfl := hs tx tx' ho (isOpen_of_ends he ha)
    rw [State.isOpen, pending_of_ends he] at ho'
    cases ho'

variable {us vs : List (Act (txSig D))}

theorem isOpen_of_append (hlt : tx < ((txWorld D iso init).state us).opened)
    (ho : ((txWorld D iso init).state (us ++ vs)).isOpen tx = true) :
    ((txWorld D iso init).state us).isOpen tx = true := by
  induction vs using reverseRecOn with
  | nil => rwa [append_nil] at ho
  | append_singleton vs a ih =>
    rw [← append_assoc, World.state_snoc] at ho
    exact ih (isOpen_of_next (hlt.trans_le (opened_le_append us vs)) ho)

theorem Guarded.single (htr : Guarded (txWorld D .serial init) G tr) :
    Single ((txWorld D .serial init).state tr) := by
  induction htr with
  | nil => exact fun _ _ h => by cases h
  | @snoc tr i e htr ha hg ih =>
    rw [World.state_snoc]
    exact ih.next (numbered_state tr) ha

theorem serial_steady (htr : Guarded (txWorld D .serial init) G (us ++ vs))
    (ho : ((txWorld D .serial init).state us).isOpen tx = true)
    (ho' : ((txWorld D .serial init).state (us ++ vs)).isOpen tx = true) :
    ((txWorld D .serial init).state (us ++ vs)).tables =
      ((txWorld D .serial init).state us).tables := by
  have hlt := (numbered_state us).lt ho
  induction vs using reverseRecOn with
  | nil => rw [append_nil]
  | append_singleton vs a ih =>
    rw [← append_assoc] at htr ho' ⊢
    have ha := htr.last.1
    have hm : ((txWorld D .serial init).state (us ++ vs)).isOpen tx = true :=
      isOpen_of_append (hlt.trans_le (opened_le_append us vs)) ho'
    rw [← ih htr.of_append hm, World.state_snoc]
    rw [World.state_snoc] at ho'
    exact (Guarded.single htr.of_append).tables_next ha hm ho'

/-! ### Locks -/

def State.locked (s : State D) (tx : ℕ) (l : D.Lock) : Prop :=
  ∃ p, s.pending tx = some p ∧ l ∈ p.locks

/-- A statement takes only locks that others do not hold. -/
def Schema.Exclusive (D : Schema) : Prop :=
  ∀ t held q (r : D.Ans q), D.answers t held q r → ∀ l ∈ D.locks t q r, held l = false

def Disjoint (s : State D) : Prop :=
  ∀ tx other l, s.locked tx l → s.locked other l → tx = other

theorem held_of_locked (hs : Numbered s) (hne : other ≠ tx) (hl : s.locked other l) :
    s.held tx l = true := by
  obtain ⟨p, hp, hl⟩ := hl
  have hlt : other < s.opened := hs.lt (by rw [State.isOpen, hp]; rfl)
  refine any_eq_true.mpr ⟨other, mem_range.mpr hlt, ?_⟩
  simp [hne, hp, hl]

theorem locked_of_next (h : (next s e).locked tx l) :
    s.locked tx l ∨ ∃ q r, e = ⟨.query tx q, some r⟩ ∧ l ∈ D.locks (s.view tx) q r := by
  obtain ⟨p, hp, hl⟩ := h
  obtain ⟨hp, -⟩ | ⟨-, -, rfl⟩ | ⟨q, r, p', rfl, hp', rfl⟩ := pending_next hp
  · exact .inl ⟨p, hp, hl⟩
  · cases hl
  · rcases mem_append.mp hl with hl | hl
    · exact .inl ⟨p', hp', hl⟩
    · exact .inr ⟨q, r, rfl, hl⟩

theorem Disjoint.next (hD : D.Exclusive) (hn : Numbered s) (hs : Disjoint s)
    (ha : answers iso s e) : Disjoint (next s e) := by
  intro tx other l htx ho
  by_contra hne
  rcases locked_of_next htx with hold | ⟨q, r, rfl, hl⟩
  · rcases locked_of_next ho with hold' | ⟨q, r, rfl, hl⟩
    · exact hne (hs tx other l hold hold')
    · have hf := hD _ _ q r ha.2 l hl
      rw [held_of_locked hn hne hold] at hf
      cases hf
  · rcases locked_of_next ho with hold' | ⟨q', r', heq, -⟩
    · have hf := hD _ _ q r ha.2 l hl
      rw [held_of_locked hn (Ne.symm hne) hold'] at hf
      cases hf
    · cases heq
      exact hne rfl

theorem disjoint_state (hD : D.Exclusive) (htr : Guarded (txWorld D iso init) G tr) :
    Disjoint ((txWorld D iso init).state tr) := by
  induction htr with
  | nil => rintro tx other l ⟨p, hp, -⟩; cases hp
  | @snoc tr i e htr ha hg ih =>
    rw [World.state_snoc]
    exact ih.next hD (numbered_state tr) ha

def Schema.Protects (D : Schema) {β : Type} (l : D.Lock) (f : D.Tables → β) : Prop :=
  ∀ t held q (r : D.Ans q), D.answers t held q r → l ∉ D.locks t q r →
    ∀ w ∈ D.writes t q r, ∀ t', f (D.apply t' w) = f t'

def Untouched {β : Type} (l : D.Lock) (f : D.Tables → β) (s : State D) : Prop :=
  ∀ tx p, s.pending tx = some p → l ∉ p.locks → ∀ w ∈ p.writes, ∀ t, f (D.apply t w) = f t

variable {β : Type} {f : D.Tables → β}

theorem Untouched.next (hD : D.Protects l f) (hs : Untouched l f s) (ha : answers iso s e) :
    Untouched l f (next s e) := by
  intro tx p hp hl w hw
  obtain ⟨hp, -⟩ | ⟨-, -, rfl⟩ | ⟨q, r, p', rfl, hp', rfl⟩ := pending_next hp
  · exact hs tx p hp hl w hw
  · cases hw
  · obtain ⟨hl', hn⟩ := not_or.mp fun h => hl (mem_append.mpr h)
    rcases mem_append.mp hw with hw | hw
    · exact hs tx p' hp' hl' w hw
    · exact hD _ _ q r ha.2 hn w hw

theorem foldl_untouched {ws : List D.Write} {t : D.Tables}
    (hws : ∀ w ∈ ws, ∀ t, f (D.apply t w) = f t) : f (ws.foldl D.apply t) = f t := by
  induction ws generalizing t with
  | nil => rfl
  | cons w ws ih =>
    obtain ⟨hw, hws⟩ := forall_mem_cons.mp hws
    rw [foldl_cons, ih hws, hw]

theorem protected_next (hs : Untouched l f s) (hd : Disjoint s) (hl : s.locked tx l)
    (ho : (next s e).isOpen tx = true) : f (next s e).tables = f s.tables := by
  obtain ht | ⟨tx', he, ht⟩ := tables_next
  · rw [ht]
  · rw [ht, State.view]
    cases hp : s.pending tx' with
    | none => rfl
    | some p =>
      refine foldl_untouched (hs tx' p hp fun hl' => ?_)
      obtain rfl : tx = tx' := hd tx tx' l hl ⟨p, hp, hl'⟩
      rw [State.isOpen, pending_of_ends he] at ho
      cases ho

theorem untouched_state (hD : D.Protects l f) (htr : Guarded (txWorld D iso init) G tr) :
    Untouched l f ((txWorld D iso init).state tr) := by
  induction htr with
  | nil => rintro tx p ⟨⟩
  | @snoc tr i e htr ha hg ih =>
    rw [World.state_snoc]
    exact ih.next hD ha

theorem locked_next (hl : s.locked tx l) (ho : (next s e).isOpen tx = true)
    (hs : Numbered s) : (next s e).locked tx l := by
  obtain ⟨p, hp, hl⟩ := hl
  have hlt : tx < s.opened := hs.lt (by rw [State.isOpen, hp]; rfl)
  obtain ⟨p', hp'⟩ := Option.isSome_iff_exists.mp ho
  refine ⟨p', hp', ?_⟩
  obtain ⟨hold, -⟩ | ⟨rfl, -, -⟩ | ⟨q, r, p₀, -, hold, rfl⟩ := pending_next hp'
  · exact Option.some.inj (hp.symm.trans hold) ▸ hl
  · exact absurd hlt (lt_irrefl _)
  · exact mem_append_left _ (Option.some.inj (hp.symm.trans hold) ▸ hl)

/-- What a lock protects stands as long as the transaction that took it is under way. -/
theorem protected_steady {us vs : List (Act (txSig D))} (hX : D.Exclusive) (hD : D.Protects l f)
    (htr : Guarded (txWorld D iso init) G (us ++ vs))
    (hl : ((txWorld D iso init).state us).locked tx l)
    (ho : ((txWorld D iso init).state (us ++ vs)).isOpen tx = true) :
    f ((txWorld D iso init).state (us ++ vs)).tables = f ((txWorld D iso init).state us).tables ∧
      ((txWorld D iso init).state (us ++ vs)).locked tx l := by
  induction vs using reverseRecOn with
  | nil => exact ⟨by rw [append_nil], by rwa [append_nil]⟩
  | append_singleton vs a ih =>
    rw [← append_assoc] at htr ho ⊢
    have hlt : tx < ((txWorld D iso init).state (us ++ vs)).opened := by
      obtain ⟨p, hp, -⟩ := hl
      have hs : tx < ((txWorld D iso init).state us).opened :=
        (numbered_state us).lt (by rw [State.isOpen, hp]; rfl)
      exact hs.trans_le (opened_le_append us vs)
    have hm : ((txWorld D iso init).state (us ++ vs)).isOpen tx = true :=
      isOpen_of_append hlt ho
    obtain ⟨hsa, hlo⟩ := ih htr.of_append hm
    rw [World.state_snoc] at ho ⊢
    have hi := untouched_state hD htr.of_append
    exact ⟨(protected_next hi (disjoint_state hX htr.of_append) hlo ho).trans hsa,
      locked_next hlo ho (numbered_state _)⟩

/-! ### Where transactions and their changes come from -/

variable {i j : ℕ}

theorem begun_lt (htr : Guarded (txWorld D iso init) G tr)
    (hm : ⟨i, ⟨.begin, some tx⟩⟩ ∈ tr) : tx < ((txWorld D iso init).state tr).opened := by
  induction htr with
  | nil => cases hm
  | @snoc tr k e htr ha hg ih =>
    rw [World.state_snoc]
    rcases mem_append.mp hm with hm | hm
    · exact (ih hm).trans_le opened_le_next
    · obtain ⟨rfl, rfl⟩ : i = k ∧ (⟨.begin, some tx⟩ : TxEvent D) = e := by simpa using hm
      exact ha.1 ▸ Nat.lt_succ_self _

theorem begun_unique (htr : Guarded (txWorld D iso init) G tr)
    (hi : ⟨i, ⟨.begin, some tx⟩⟩ ∈ tr) (hj : ⟨j, ⟨.begin, some tx⟩⟩ ∈ tr) : i = j := by
  induction htr with
  | nil => cases hi
  | @snoc tr k e htr ha hg ih =>
    have hn : ∀ l, ⟨l, ⟨.begin, some tx⟩⟩ ∈ tr → (⟨.begin, some tx⟩ : TxEvent D) ≠ e := by
      rintro l hl rfl
      exact (ha.1 ▸ begun_lt htr hl).false
    rcases mem_append.mp hi with hi' | hi'
    · rcases mem_append.mp hj with hj' | hj'
      · exact ih hi' hj'
      · have hla : j = k ∧ (⟨.begin, some tx⟩ : TxEvent D) = e := by simpa using hj'
        exact absurd hla.2 (hn i hi')
    · have hla : i = k ∧ (⟨.begin, some tx⟩ : TxEvent D) = e := by simpa using hi'
      rcases mem_append.mp hj with hj' | hj'
      · exact absurd hla.2 (hn j hj')
      · have hla' : j = k ∧ (⟨.begin, some tx⟩ : TxEvent D) = e := by simpa using hj'
        exact hla.1.trans hla'.1.symm

variable {p : Pending D}

theorem write_origin {w : D.Write} (hp : ((txWorld D iso init).state tr).pending tx = some p)
    (hw : w ∈ p.writes) : ∃ i q r t, ⟨i, ⟨.query tx q, some r⟩⟩ ∈ tr ∧ w ∈ D.writes t q r := by
  induction tr using reverseRecOn generalizing p with
  | nil => cases hp
  | append_singleton tr a ih =>
    obtain ⟨k, e⟩ := a
    have hold : ∀ p, ((txWorld D iso init).state tr).pending tx = some p → w ∈ p.writes →
        ∃ i q r t, ⟨i, ⟨.query tx q, some r⟩⟩ ∈ tr ++ [⟨k, e⟩] ∧ w ∈ D.writes t q r := by
      intro p hp hw
      obtain ⟨i, q, r, t, hm, hw⟩ := ih hp hw
      exact ⟨i, q, r, t, mem_append_left _ hm, hw⟩
    rw [World.state_snoc] at hp
    obtain ⟨hp, -⟩ | ⟨-, -, rfl⟩ | ⟨q, r, p', rfl, hp', rfl⟩ := pending_next hp
    · exact hold p hp hw
    · cases hw
    · rcases mem_append.mp hw with hw | hw
      · exact hold p' hp' hw
      · exact ⟨k, q, r, _, by simp, hw⟩

/-- What this call adds to the changes of the transaction, where that depends on no table. -/
def stmtWrites (W : (q : D.Query) → D.Ans q → List D.Write) (tx : ℕ) : TxEvent D → List D.Write
  | ⟨.query tx' q, some r⟩ => if tx' = tx then W q r else []
  | _ => []

variable {W : (q : D.Query) → D.Ans q → List D.Write}

theorem stmtWrites_of_ne {e : TxEvent D} (hne : ∀ q r, e ≠ ⟨.query tx q, some r⟩) :
    stmtWrites W tx e = [] := by
  unfold stmtWrites
  split
  · rename_i q r
    refine if_neg ?_
    rintro rfl
    exact hne q r rfl
  · rfl

def InOwn (h : List (TxEvent D)) : TxEvent D → Prop
  | ⟨.query tx _, _⟩ => (⟨.begin, some tx⟩ : TxEvent D) ∈ h
  | _ => True

theorem stmtWrites_before (htr : Guarded (txWorld D iso init) (fun _ => InOwn) tr)
    (htx : tx = ((txWorld D iso init).state tr).opened) :
    (own i tr).flatMap (stmtWrites W tx) = [] := by
  refine flatMap_eq_nil_iff.mpr fun d hd => ?_
  obtain ⟨op, r⟩ := d
  cases op with
  | query tx' q =>
    rcases (r : Option (D.Ans q)) with _ | r
    · rfl
    refine if_neg fun heq => ?_
    obtain ⟨us, vs, hs⟩ := append_of_mem (mem_of_mem_own hd)
    have htr' := htr
    rw [hs] at htr'
    have hb : ⟨i, (⟨.begin, some tx'⟩ : TxEvent D)⟩ ∈ tr := by
      rw [hs]
      exact mem_append_left _ (mem_of_mem_own (htr'.at_split).2)
    have hlt := begun_lt htr hb
    rw [heq, htx] at hlt
    exact hlt.false
  | _ => rfl

/-- The changes of a transaction are those its beginner made, in order. -/
theorem pending_writes_own (hW : ∀ t q r, D.writes t q r = W q r)
    (htr : Guarded (txWorld D iso init) (fun _ => InOwn) tr)
    (hp : ((txWorld D iso init).state tr).pending tx = some p) (hi : ⟨i, ⟨.begin, some tx⟩⟩ ∈ tr) :
    p.writes = (own i tr).flatMap (stmtWrites W tx) := by
  induction htr generalizing p with
  | nil => cases hi
  | @snoc tr k e htr ha ho ih =>
    rw [World.state_snoc] at hp
    have ho' : own i (tr ++ [⟨k, e⟩]) = own i tr ++ if k = i then [e] else [] := by
      by_cases hk : k = i
      · subst hk
        simp
      · simp [own_snoc_of_ne hk, hk]
    rw [ho', flatMap_append]
    have hb : (∀ tx', e ≠ ⟨.begin, some tx'⟩) → ⟨i, ⟨.begin, some tx⟩⟩ ∈ tr := by
      intro hne
      rcases mem_append.mp hi with hi | hi
      · exact hi
      · have hl : i = k ∧ (⟨.begin, some tx⟩ : TxEvent D) = e := by simpa using hi
        exact absurd hl.2.symm (hne tx)
    obtain ⟨hold, hn⟩ | ⟨rfl, ⟨tx', rfl⟩, rfl⟩ | ⟨q, r, p', rfl, hold, rfl⟩ := pending_next hp
    · -- a call of no consequence to the transaction
      have hi' : ⟨i, ⟨.begin, some tx⟩⟩ ∈ tr := by
        rcases mem_append.mp hi with hi | hi
        · exact hi
        obtain ⟨-, rfl⟩ : i = k ∧ (⟨.begin, some tx⟩ : TxEvent D) = e := by simpa using hi
        rw [ha.1, numbered_state tr _ le_rfl] at hold
        cases hold
      rw [ih hold hi']
      by_cases hk : k = i <;> simp [stmtWrites_of_ne hn]
    · rw [stmtWrites_before htr rfl]
      by_cases hk : k = i <;> simp [stmtWrites]
    · have hi' := hb (by rintro tx' ⟨⟩)
      obtain rfl : i = k := begun_unique htr hi' (mem_of_mem_own ho)
      rw [ih hold hi', hW]
      simp [stmtWrites]

/-! ### Running in a transaction -/

variable {T : Sig} {ε α : Type}

abbrev TxProg (D : Schema) (T : Sig) := Prog ((txSig D).sum T)

/-- A statement of a transaction; a failed one ends the program with the error. -/
def query (tx : ℕ) (q : D.Query) (err : ε) : ExceptT ε (TxProg D T) (D.Ans q) := do
  match ← perform (S := (txSig D).sum T) (.inl (.query tx q)) with
  | none => throw err
  | some r => pure r

/-- Begins a transaction, runs the body in it, and commits it if the body returned; otherwise it
is rolled back. -/
def withTx (onBegin onCommit : ε) (body : ℕ → ExceptT ε (TxProg D T) α) :
    ExceptT ε (TxProg D T) α := do
  match ← perform (S := (txSig D).sum T) (.inl .begin) with
  | none => throw onBegin
  | some tx =>
    match ← (ExceptT.lift (body tx).run : ExceptT ε (TxProg D T) (Except ε α)) with
    | .error err =>
      let _ ← perform (S := (txSig D).sum T) (.inl (.rollback tx))
      throw err
    | .ok a =>
      match ← perform (S := (txSig D).sum T) (.inl (.commit tx)) with
      | .ok => pure a
      | .failed _ =>
        let _ ← perform (S := (txSig D).sum T) (.inl (.rollback tx))
        throw onCommit

abbrev SumEvent (D : Schema) (T : Sig) := Interleave.Event ((txSig D).sum T)

def begun (tx : ℕ) : SumEvent D T := ⟨.inl .begin, some tx⟩

def answered (tx : ℕ) (q : D.Query) (r : D.Ans q) : SumEvent D T := ⟨.inl (.query tx q), some r⟩

def committed (tx : ℕ) : SumEvent D T := ⟨.inl (.commit tx), CommitRes.ok⟩

variable {G : List (SumEvent D T) → SumEvent D T → Prop} {h : List (SumEvent D T)} {err : ε}
  {E : List (SumEvent D T) → ε → Prop}

theorem wpx_query {tx : ℕ} {q : D.Query} {Q : List (SumEvent D T) → D.Ans q → Prop}
    (hG : ∀ r, G h ⟨.inl (.query tx q), r⟩) (hok : ∀ r, Q (h ++ [answered tx q r]) r)
    (hf : E (h ++ [⟨.inl (.query tx q), none⟩]) err) :
    wpx G (query tx q err : ExceptT ε (TxProg D T) (D.Ans q)) Q E h := by
  refine wpx_perform_bind.mpr fun r => ⟨hG r, ?_⟩
  rcases (r : Option (D.Ans q)) with _ | r
  · exact hf
  · exact hok r

variable {onBegin onCommit : ε} {body : ℕ → ExceptT ε (TxProg D T) α}

/-- The rule of a transaction: its statements are justified one by one, and so is the commit at
their end. -/
theorem wpx_withTx {Q : List (SumEvent D T) → α → Prop}
    (hl : ∀ g k err, E g err → E (g ++ k) err) (hb : ∀ r, G h ⟨.inl .begin, r⟩)
    (hn : E (h ++ [⟨.inl .begin, none⟩]) onBegin) (hr : ∀ g tx r, G g ⟨.inl (.rollback tx), r⟩)
    (hf : ∀ g tx landed, E (g ++ [⟨.inl (.commit tx), CommitRes.failed landed⟩]) onCommit)
    (hbo : ∀ tx, wpx G (body tx)
      (fun g a => (∀ r, G g ⟨.inl (.commit tx), r⟩) ∧ Q (g ++ [committed tx]) a) E
      (h ++ [begun tx])) : wpx G (withTx onBegin onCommit body) Q E h := by
  refine wpx_perform_bind.mpr fun r => ⟨hb r, ?_⟩
  rcases (r : Option ℕ) with _ | tx
  · exact hn
  refine wp_run_lift_bind.mpr (wp_mono (hbo tx) ?_)
  rintro g (err | a) hq
  · exact wpx_perform_bind.mpr fun u =>
      ⟨hr _ tx u, hl _ _ _ hq⟩
  · obtain ⟨hc, hd⟩ := hq
    refine wpx_perform_bind.mpr fun r => ⟨hc r, ?_⟩
    rcases (r : CommitRes) with _ | landed
    · exact hd
    · exact wpx_perform_bind.mpr fun u =>
        ⟨hr _ tx u, hl _ _ _ (hf _ tx landed)⟩

theorem wpe_query {tx : ℕ} {q : D.Query} {Q : List (SumEvent D T) → D.Ans q → Prop}
    (hG : ∀ r, G h ⟨.inl (.query tx q), r⟩) (hok : ∀ r, Q (h ++ [answered tx q r]) r) :
    wpe G (query tx q err : ExceptT ε (TxProg D T) (D.Ans q)) Q h :=
  wpe_of_wpx (E := fun _ _ => True) (wpx_query hG hok trivial)

theorem wpe_withTx {Q : List (SumEvent D T) → α → Prop} (hb : ∀ r, G h ⟨.inl .begin, r⟩)
    (hr : ∀ g tx r, G g ⟨.inl (.rollback tx), r⟩) (hbo : ∀ tx, wpe G (body tx)
      (fun g a => (∀ r, G g ⟨.inl (.commit tx), r⟩) ∧ Q (g ++ [committed tx]) a)
      (h ++ [begun tx])) : wpe G (withTx onBegin onCommit body) Q h :=
  wpe_of_wpx (wpx_withTx (fun _ _ _ _ => trivial) hb trivial hr
    (fun _ _ _ => trivial) fun tx => wpx_of_wpe (hbo tx))

/-! ### A store among other things -/

section Among

variable {v : World T} {G : ℕ → List (SumEvent D T) → SumEvent D T → Prop}
  {tr us vs : List (Act ((txSig D).sum T))}

def storeIn (iso : Isolation) (init : D.Tables) (v : World T)
    (tr : List (Act ((txSig D).sum T))) : State D :=
  (((txWorld D iso init).sum v).state tr).1

theorem storeIn_eq_left (tr : List (Act ((txSig D).sum T))) :
    storeIn iso init v tr = (txWorld D iso init).state (leftActs tr) :=
  World.sum_state_fst tr

theorem storeIn_snoc (iso : Isolation) (init : D.Tables) (v : World T)
    (tr : List (Act ((txSig D).sum T))) (a : Act ((txSig D).sum T)) :
    storeIn iso init v (tr ++ [a]) = storeIn iso init v tr ∨ ∃ e : TxEvent D, a.event = e.inl ∧
        storeIn iso init v (tr ++ [a]) = next (storeIn iso init v tr) e := by
  obtain ⟨i, op | op, r⟩ := a
  · refine .inr ⟨⟨op, r⟩, rfl, ?_⟩
    rw [storeIn, World.state_snoc]
    rfl
  · refine .inl ?_
    rw [storeIn, World.state_snoc]
    rfl

def stated (W : (q : D.Query) → D.Ans q → List D.Write) (tx : ℕ) (h : List (SumEvent D T)) :
    List D.Write :=
  (lefts h).flatMap (stmtWrites W tx)

theorem stated_append (h k : List (SumEvent D T)) :
    stated W tx (h ++ k) = stated W tx h ++ stated W tx k := by
  rw [stated, lefts_append, flatMap_append]
  rfl

@[simp] theorem stated_nil : stated W tx ([] : List (SumEvent D T)) = [] := rfl

@[simp] theorem stated_answered (q : D.Query) (r : D.Ans q) :
    stated W tx [(answered tx q r : SumEvent D T)] = W q r := by
  simp [stated, lefts, answered, Interleave.Event.left?, stmtWrites]

theorem mem_stated {h : List (SumEvent D T)} {w : D.Write} (hw : w ∈ stated W tx h) :
    ∃ q r, answered tx q r ∈ h ∧ w ∈ W q r := by
  obtain ⟨⟨op, r⟩, he, hw⟩ := mem_flatMap.mp hw
  cases op with
  | query tx' q =>
    rcases (r : Option (D.Ans q)) with _ | r
    · cases hw
    by_cases htx : tx' = tx
    · subst htx
      exact ⟨q, r, mem_lefts.mp he, by simpa [stmtWrites] using hw⟩
    · simp [stmtWrites, htx] at hw
  | _ => cases hw

def Owns (h : List (SumEvent D T)) : SumEvent D T → Prop
  | ⟨.inl (.query tx _), _⟩ => begun tx ∈ h
  | ⟨.inl (.commit tx), _⟩ => begun tx ∈ h
  | _ => True

theorem Guarded.inOwn (hG : ∀ i h e, G i h e → Owns h e)
    (htr : Guarded ((txWorld D iso init).sum v) G tr) :
    Guarded (txWorld D iso init) (fun _ => InOwn) (leftActs tr) := by
  refine Guarded.left (fun i h e hg => ?_) htr
  have ho := hG i h e.inl hg
  obtain ⟨op, r⟩ := e
  cases op with
  | query tx q => exact mem_lefts.mpr ho
  | _ => trivial

theorem begun_mem_left {h : ℕ} (hi : begun tx ∈ own h tr) :
    ⟨h, (⟨.begin, some tx⟩ : TxEvent D)⟩ ∈ leftActs tr :=
  mem_leftActs.mpr (mem_of_mem_own hi)

theorem begun_own_unique {j : ℕ} (htr : Guarded ((txWorld D iso init).sum v) G tr)
    (hi : begun tx ∈ own i tr) (hj : begun tx ∈ own j tr) : i = j := by
  have hl : Guarded (txWorld D iso init) (fun _ _ _ => True) (leftActs tr) :=
    Guarded.left (fun _ _ _ _ => trivial) htr
  exact begun_unique hl (begun_mem_left hi) (begun_mem_left hj)

variable (hG : ∀ i h e, G i h e → Owns h e) (hW : ∀ t q r, D.writes t q r = W q r) (htr : Guarded
  ((txWorld D iso init).sum v) G tr)

include hG hW htr

theorem pending_stated {p : Pending D}
    (hp : (storeIn iso init v tr).pending tx = some p) (hi : begun tx ∈ own i tr) :
    p.writes = stated W tx (own i tr) := by
  rw [storeIn_eq_left] at hp
  rw [pending_writes_own hW (Guarded.inOwn hG htr) hp (begun_mem_left hi), own_leftActs]
  rfl

theorem view_stated (ho : (storeIn iso init v tr).isOpen tx = true) (hi : begun tx ∈ own i tr) :
    (storeIn iso init v tr).view tx =
      (stated W tx (own i tr)).foldl D.apply (storeIn iso init v tr).tables := by
  obtain ⟨p, hp⟩ := Option.isSome_iff_exists.mp ho
  rw [State.view, hp, ← pending_stated hG hW htr hp hi]
  rfl

omit hG hW htr

def lands : SumEvent D T → Option ℕ
  | ⟨.inl (.commit tx), CommitRes.ok⟩ => some tx
  | ⟨.inl (.commit tx), CommitRes.failed true⟩ => some tx
  | _ => none

theorem commit_of_lands {e : SumEvent D T}
    (htr : Guarded ((txWorld D iso init).sum v) G (tr ++ [⟨i, e⟩])) (h : lands e = some tx) :
    (storeIn iso init v tr).isOpen tx = true ∧
      ∃ r, e = ⟨.inl (.commit tx), r⟩ ∧ G i (own i tr) ⟨.inl (.commit tx), r⟩ ∧
        Ends (D := D) tx true ⟨.commit tx, r⟩ := by
  obtain ⟨ha, hg⟩ := htr.last
  unfold lands at h
  split at h
  · cases h
    exact ⟨ha, _, rfl, hg, .commit⟩
  · cases h
    exact ⟨ha, _, rfl, hg, .failed true⟩
  · cases h

def landed (W : (q : D.Query) → D.Ans q → List D.Write) (us : List (Act ((txSig D).sum T)))
    (a : Act ((txSig D).sum T)) : List D.Write :=
  (lands a.event).elim [] fun tx => stated W tx (own a.actor us)

theorem tables_landed (hG : ∀ i h e, G i h e → Owns h e) (hW : ∀ t q r, D.writes t q r = W q r)
    {a : Act ((txSig D).sum T)} (htr : Guarded ((txWorld D iso init).sum v) G (tr ++ [a])) :
    (storeIn iso init v (tr ++ [a])).tables =
      (landed W tr a).foldl D.apply (storeIn iso init v tr).tables := by
  obtain ⟨i, e⟩ := a
  cases hl : lands e with
  | some tx =>
    obtain ⟨ho, r, rfl, hg, he⟩ := commit_of_lands htr hl
    have hc : (storeIn iso init v (tr ++ [⟨i, ⟨.inl (.commit tx), r⟩⟩])).tables =
        (storeIn iso init v tr).view tx := by
      rw [storeIn, World.state_snoc]
      cases he with
      | commit => rfl
      | failed => rfl
    rw [hc, view_stated hG hW htr.of_append ho (hG _ _ _ hg), landed, hl]
    rfl
  | none =>
    rw [landed, hl]
    obtain hs | ⟨d, hd, hn⟩ := storeIn_snoc iso init v tr ⟨i, e⟩
    · rw [hs]
      rfl
    obtain rfl : e = d.inl := hd
    obtain ht | ⟨tx, he, -⟩ := tables_next
    · rw [hn, ht]
      rfl
    · cases he <;> cases hl

theorem stated_fresh (hG : ∀ i h e, G i h e → Owns h e)
    (htr : Guarded ((txWorld D iso init).sum v) G tr) {g k : List (SumEvent D T)}
    (how : own i tr = g ++ begun tx :: k) : stated W tx g = [] := by
  obtain ⟨n, hn, hp, -⟩ := own_split how
  rw [eq_take_append hn] at htr
  have ho : tx = (storeIn iso init v (tr.take n)).opened := (htr.at_split).1.1
  rw [storeIn_eq_left] at ho
  have hb := stmtWrites_before (W := W) (i := i) (Guarded.inOwn hG htr.of_append) ho
  rwa [own_leftActs, hp] at hb

theorem serial_stands (htr : Guarded ((txWorld D .serial init).sum v) G (us ++ vs))
    (ho : (storeIn .serial init v us).isOpen tx = true)
    (ho' : (storeIn .serial init v (us ++ vs)).isOpen tx = true) :
    (storeIn .serial init v (us ++ vs)).tables = (storeIn .serial init v us).tables := by
  have hl : Guarded (txWorld D .serial init) (fun _ _ _ => True) (leftActs (us ++ vs)) :=
    Guarded.left (fun _ _ _ _ => trivial) htr
  rw [storeIn_eq_left] at ho ho' ⊢
  rw [storeIn_eq_left]
  rw [leftActs_append] at hl ho' ⊢
  exact serial_steady hl ho ho'

theorem lock_stands {β : Type} {f : D.Tables → β} (hX : D.Exclusive) (hD : D.Protects l f)
    (htr : Guarded ((txWorld D iso init).sum v) G (us ++ vs))
    (hl : (storeIn iso init v us).locked tx l)
    (ho : (storeIn iso init v (us ++ vs)).isOpen tx = true) :
    f (storeIn iso init v (us ++ vs)).tables = f (storeIn iso init v us).tables := by
  have hle : Guarded (txWorld D iso init) (fun _ _ _ => True) (leftActs (us ++ vs)) :=
    Guarded.left (fun _ _ _ _ => trivial) htr
  rw [storeIn_eq_left] at hl ho ⊢
  rw [storeIn_eq_left]
  rw [leftActs_append] at hle ho ⊢
  exact (protected_steady hX hD hle hl ho).1

theorem locked_stands (hX : D.Exclusive) (htr : Guarded ((txWorld D iso init).sum v) G (us ++ vs))
    (hl : (storeIn iso init v us).locked tx l)
    (ho : (storeIn iso init v (us ++ vs)).isOpen tx = true) :
    (storeIn iso init v (us ++ vs)).locked tx l := by
  have hle : Guarded (txWorld D iso init) (fun _ _ _ => True) (leftActs (us ++ vs)) :=
    Guarded.left (fun _ _ _ _ => trivial) htr
  have hD : D.Protects l fun _ => () := fun _ _ _ _ _ _ _ _ _ => rfl
  rw [storeIn_eq_left] at hl ho ⊢
  rw [leftActs_append] at hle ho ⊢
  exact (protected_steady hX hD hle hl ho).2

theorem isOpen_between {ws : List (Act ((txSig D).sum T))}
    (ho : (storeIn iso init v us).isOpen tx = true)
    (hl : (storeIn iso init v (us ++ vs ++ ws)).isOpen tx = true) :
    (storeIn iso init v (us ++ vs)).isOpen tx = true := by
  rw [storeIn_eq_left] at ho hl ⊢
  rw [leftActs_append _ ws] at hl
  have hlt := (numbered_state (leftActs us)).lt ho
  refine isOpen_of_append (hlt.trans_le ?_) hl
  rw [leftActs_append]
  exact opened_le_append _ _

theorem not_open_of_free {tx' : ℕ} (hX : D.Exclusive)
    (htr : Guarded ((txWorld D iso init).sum v) G (us ++ vs))
    (hl : (storeIn iso init v us).locked tx l) (hne : tx ≠ tx')
    (hf : (storeIn iso init v (us ++ vs)).held tx' l = false) :
    (storeIn iso init v (us ++ vs)).isOpen tx = false := by
  by_contra ho
  have hlo := locked_stands hX htr hl (Bool.eq_true_of_not_eq_false ho)
  have hn : Numbered (storeIn iso init v (us ++ vs)) := by
    rw [storeIn_eq_left]
    exact numbered_state _
  rw [held_of_locked hn hne hlo] at hf
  cases hf

theorem tables_keep {I : D.Tables → Prop} (hI : ∀ t w, I t → I (D.apply t w))
    (h : I (storeIn iso init v us).tables) : I (storeIn iso init v (us ++ vs)).tables := by
  have hf : ∀ (ws : List D.Write) t, I t → I (ws.foldl D.apply t) := by
    intro ws
    induction ws with
    | nil => exact fun t ht => ht
    | cons w ws ih => exact fun t ht => ih _ (hI t w ht)
  induction vs using reverseRecOn with
  | nil => rwa [append_nil]
  | append_singleton vs a ih =>
    rw [← append_assoc]
    obtain hs | ⟨e, -, hn⟩ := storeIn_snoc iso init v (us ++ vs) a
    · rwa [hs]
    rw [hn]
    obtain hta | ⟨tx, -, hta⟩ := tables_next
    · rwa [hta]
    · rw [hta]
      exact hf _ _ ih

theorem storeIn_answered {q : D.Query} {r : D.Ans q}
    (htr : Guarded ((txWorld D iso init).sum v) G (us ++ ⟨i, answered tx q r⟩ :: vs)) :
    (storeIn iso init v us).isOpen tx = true ∧
      D.answers ((storeIn iso init v us).view tx) ((storeIn iso init v us).held tx) q r ∧
      (storeIn iso init v (us ++ [⟨i, answered tx q r⟩])).tables = (storeIn iso init v us).tables ∧
      ∀ l ∈ D.locks ((storeIn iso init v us).view tx) q r,
        (storeIn iso init v (us ++ [⟨i, answered tx q r⟩])).locked tx l := by
  obtain ⟨ho, ha⟩ := (htr.at_split).1
  have hn : storeIn iso init v (us ++ [⟨i, answered tx q r⟩]) =
      (storeIn iso init v us).record tx (D.writes ((storeIn iso init v us).view tx) q r)
        (D.locks ((storeIn iso init v us).view tx) q r) := by
    rw [storeIn, World.state_snoc]
    rfl
  refine ⟨ho, ha, by rw [hn]; rfl, fun l hl => ?_⟩
  obtain ⟨p, hp⟩ := Option.isSome_iff_exists.mp ho
  have hpe := State.record_pending (storeIn iso init v us) tx
  rw [hn, State.locked, hpe, update_self, show (storeIn iso init v us).pending tx = some p from hp]
  exact ⟨_, rfl, mem_append_right _ hl⟩

theorem answers_unstated (hG : ∀ i h e, G i h e → Owns h e) (hW : ∀ t q r, D.writes t q r = W q r)
    {q : D.Query} {r : D.Ans q}
    (htr : Guarded ((txWorld D iso init).sum v) G (us ++ ⟨i, answered tx q r⟩ :: vs))
    (hn : stated W tx (own i us) = []) :
    D.answers (storeIn iso init v us).tables ((storeIn iso init v us).held tx) q r := by
  obtain ⟨ho, ha, -, -⟩ := storeIn_answered htr
  have hb : begun tx ∈ own i us := hG _ _ _ (htr.at_split).2
  rwa [view_stated hG hW htr.of_append ho hb, hn] at ha

end Among

/-! ### Answers -/

/-- Statements answered by evaluating them; nothing where one has to wait. -/
structure Resolver (D : Schema) where
  ans : D.Tables → (D.Lock → Bool) → (q : D.Query) → Option (D.Ans q)
  sound : ∀ t held q r, ans t held q = some r → D.answers t held q r

/-- Answers in which nothing fails that need not. -/
def honest (iso : Isolation) (ρ : Resolver D) (s : State D) : (op : Op D) → (txSig D).Res op
  | .begin => if iso = .serial → ∀ other < s.opened, s.isOpen other = false then some s.opened
    else none
  | .query tx q => if s.isOpen tx = true then ρ.ans (s.view tx) (s.held tx) q else none
  | .read q => ρ.ans s.tables (fun _ => false) q
  | .commit tx => if s.isOpen tx = true then .ok else .failed false
  | .rollback _ => ()
  | .abandon _ => ()

theorem honest_answers (iso : Isolation) (ρ : Resolver D) (s : State D) (op : Op D) :
    answers iso s ⟨op, honest iso ρ s op⟩ := by
  cases op with
  | begin => exact answers_ite (A := answers iso s) .begin (fun h => ⟨rfl, h⟩) fun _ => trivial
  | query tx q =>
    refine answers_ite (A := answers iso s) (.query tx q) (fun ho => ?_) fun _ => trivial
    cases ha : ρ.ans (s.view tx) (s.held tx) q with
    | none => trivial
    | some r => exact ⟨ho, ρ.sound _ _ q r ha⟩
  | read q =>
    change answers iso s ⟨.read q, ρ.ans s.tables (fun _ => false) q⟩
    cases ha : ρ.ans s.tables (fun _ => false) q with
    | none => trivial
    | some r => exact ρ.sound _ _ q r ha
  | commit tx => exact answers_ite (A := answers iso s) (.commit tx) id fun _ => trivial
  | rollback tx => trivial
  | abandon tx => trivial

end Dhole.Transact
