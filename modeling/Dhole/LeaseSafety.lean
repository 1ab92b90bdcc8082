import Dhole.LeaseProtocol

/-! The safety of leases over every interleaving. The revision of a claim only grows, so
a claim that is still at the revision somebody read is still what they read. From this
follow the order of the fences, that a take replaces only an earlier attempt, and that a
token once dead stays dead. -/

namespace Dhole.Lease

open Interleave Prog KV List

abbrev LeaseHistory := List (Act leaseSig)

def LeaseTrace (tr : LeaseHistory) : Prop :=
  Guarded leaseWorld (fun _ h e => ∃ call, Justified call h e) tr

def claimCell (tr : LeaseHistory) (c : StepKey) : Cell ClaimRecord := leaseWorld.state tr (.claim c)

def renewCell (tr : LeaseHistory) (c : StepKey) : Cell RenewRecord := leaseWorld.state tr (.renew c)

/-- The token is the current lease: what a validation that read now would find. -/
def Valid (tr : LeaseHistory) (t : Token) : Prop :=
  ∃ r, (claimCell tr t.value).entry = some (r, t.fence)

/-- The event took the lease with a record, and its write got this fence. -/
def Took (e : LeaseEvent) (c : StepKey) (data : ClaimRecord) (fence : ℕ) : Prop :=
  ∃ r : WriteRes, r.landed = some fence ∧
    (e = createdClaim c data r ∨ ∃ rev, e = updatedClaim c data rev r)

theorem guarded_of_reach {cs : ℕ → Call} {tr : LeaseHistory}
    (h : Reach leaseWorld (fun i => (cs i).prog) tr) :
    Guarded leaseWorld (fun i => Justified (cs i)) tr :=
  h.guarded fun i => (cs i).wp_prog

theorem LeaseTrace.of_reach {cs : ℕ → Call} {tr : LeaseHistory}
    (h : Reach leaseWorld (fun i => (cs i).prog) tr) : LeaseTrace tr :=
  (guarded_of_reach h).mono fun i _ _ hj => ⟨cs i, hj⟩

section Cells

variable {G : ℕ → List LeaseEvent → LeaseEvent → Prop} {tr us : LeaseHistory} {b : Bucket Key Val}
  {e : LeaseEvent}

theorem next_cell (h : leaseWorld.Answers b e) (k : Key) :
    leaseWorld.next b e k = b k ∨ (b k).rev < (leaseWorld.next b e k).rev := by
  obtain ⟨op, r⟩ := e
  cases op with
  | kv op => exact cell_next h k
  | now | cancelled => exact .inl rfl

variable (h : Guarded leaseWorld G (tr ++ us))

include h

theorem cell_mono (k : Key) : leaseWorld.state (tr ++ us) k = leaseWorld.state tr k ∨
      (leaseWorld.state tr k).rev < (leaseWorld.state (tr ++ us) k).rev := by
  induction us using reverseRecOn with
  | nil => simp
  | append_singleton us a ih =>
    rw [← append_assoc] at h ⊢
    have hs := next_cell h.at_split.1 k
    rw [World.state_snoc]
    rcases ih h.of_append with hsa | hlt
    · rwa [hsa] at hs
    · rcases hs with heq | hlt'
      · exact .inr (heq ▸ hlt)
      · exact .inr (hlt.trans hlt')

theorem cell_eq_of_rev_eq {k : Key}
    (hr : (leaseWorld.state (tr ++ us) k).rev = (leaseWorld.state tr k).rev) :
    leaseWorld.state (tr ++ us) k = leaseWorld.state tr k := by
  rcases cell_mono h k with heq | hlt
  · exact heq
  · omega

theorem rev_le (k : Key) : (leaseWorld.state tr k).rev ≤ (leaseWorld.state (tr ++ us) k).rev := by
  rcases cell_mono h k with heq | hlt
  · rw [heq]
  · exact hlt.le

omit h

variable {data : ClaimRecord}

theorem Took.cells {c : StepKey} {fc : ℕ} (ht : Took e c data fc) (h : leaseWorld.Answers b e) :
    leaseWorld.next b e (.claim c) = ⟨fc, some data⟩ ∧ (b (.claim c)).rev < fc := by
  obtain ⟨r, hl, rfl | ⟨rev, rfl⟩⟩ := ht
  · have h : KV.Answers b (.create (.claim c) data) r := h
    have hw : (Op.create (.claim c) data : KV.Op Key Val).written r =
        some ⟨.claim c, fc, some data⟩ := by simp [Op.written, hl]
    exact ⟨next_of_written hw, rev_lt_of_written h hw⟩
  · have h : KV.Answers b (.update (.claim c) data rev) r := h
    have hw : (Op.update (.claim c) data rev : KV.Op Key Val).written r =
        some ⟨.claim c, fc, some data⟩ := by simp [Op.written, hl]
    exact ⟨next_of_written hw, rev_lt_of_written h hw⟩

theorem Took.fence_le {a : Act leaseSig} {c : StepKey} {fc : ℕ} (ht : Took a.event c data fc)
    (h : Guarded leaseWorld G (tr ++ a :: us)) : fc ≤ (claimCell (tr ++ a :: us) c).rev := by
  have hc := (ht.cells h.at_split.1).1
  rw [append_cons] at h
  have hle := rev_le h (.claim c)
  rw [World.state_snoc, hc, ← append_cons] at hle
  exact hle

end Cells

/-! ### What one event can change -/

variable {tr : LeaseHistory} {a : Act leaseSig} {c : StepKey}

theorem claimCell_snoc (h : LeaseTrace (tr ++ [a])) (c : StepKey) :
    claimCell (tr ++ [a]) c = claimCell tr c ∨
      (∃ data fc, Took a.event c data fc ∧ claimCell (tr ++ [a]) c = ⟨fc, some data⟩) ∨
      ∃ rev res fc, a.event = deletedClaim c rev res ∧ WriteRes.landed res = some fc ∧
        claimCell (tr ++ [a]) c = ⟨fc, none⟩ := by
  obtain ⟨ha, call, hj⟩ := h.at_split
  obtain ⟨i, op, r⟩ := a
  simp only [claimCell, World.state_snoc]
  cases op with
  | now | cancelled => exact .inl rfl
  | kv op =>
    obtain hs | ⟨cell, hn, hw⟩ := next_cases (leaseWorld.state tr) op r (.claim c)
    · exact .inl hs
    right
    rw [show leaseWorld.next (leaseWorld.state tr) ⟨.kv op, r⟩ (.claim c) = cell from hn]
    cases op with
    | get k | listKeys => simp [Op.written] at hw
    | create k v =>
      obtain ⟨rev, hl, hk⟩ := Option.map_eq_some_iff.mp hw
      cases hk
      exact .inl ⟨v, rev, ⟨r, hl, .inl rfl⟩, rfl⟩
    | update k v rev₀ =>
      obtain ⟨rev, hl, hk⟩ := Option.map_eq_some_iff.mp hw
      cases hk
      exact .inl ⟨v, rev, ⟨r, hl, .inr ⟨rev₀, rfl⟩⟩, rfl⟩
    | put k v | delete k =>
      obtain ⟨rev, hl, hk⟩ := Option.map_eq_some_iff.mp hw
      cases hk
      exact hj.elim
    | deleteAt k rev₀ =>
      obtain ⟨rev, hl, hk⟩ := Option.map_eq_some_iff.mp hw
      cases hk
      exact .inr ⟨rev₀, r, rev, rfl, hl, rfl⟩

theorem renewCell_snoc (h : LeaseTrace (tr ++ [a])) (c : StepKey) :
    renewCell (tr ++ [a]) c = renewCell tr c ∨
      (∃ rn res rev, a.event = wroteRenewal c rn res ∧ WriteRes.landed res = some rev ∧
        renewCell (tr ++ [a]) c = ⟨rev, some rn⟩) ∨
      ∃ res rev, a.event = deletedRenewal c res ∧ WriteRes.landed res = some rev ∧
        renewCell (tr ++ [a]) c = ⟨rev, none⟩ := by
  obtain ⟨ha, call, hj⟩ := h.at_split
  obtain ⟨i, op, r⟩ := a
  simp only [renewCell, World.state_snoc]
  cases op with
  | now | cancelled => exact .inl rfl
  | kv op =>
    obtain hs | ⟨cell, hn, hw⟩ := next_cases (leaseWorld.state tr) op r (.renew c)
    · exact .inl hs
    right
    rw [show leaseWorld.next (leaseWorld.state tr) ⟨.kv op, r⟩ (.renew c) = cell from hn]
    cases op with
    | get k | listKeys => simp [Op.written] at hw
    | create k v | update k v rev₀ | deleteAt k rev₀ =>
      obtain ⟨rev, hl, hk⟩ := Option.map_eq_some_iff.mp hw
      cases hk
      exact hj.elim
    | put k v =>
      obtain ⟨rev, hl, hk⟩ := Option.map_eq_some_iff.mp hw
      cases hk
      exact .inl ⟨v, r, rev, rfl, hl, rfl⟩
    | delete k =>
      obtain ⟨rev, hl, hk⟩ := Option.map_eq_some_iff.mp hw
      cases hk
      exact .inr ⟨r, rev, rfl, hl, rfl⟩

section Safety

variable {cs : ℕ → Call} {us vs : LeaseHistory} {b : Act leaseSig} {data data' : ClaimRecord}
  {fc fence' fc' : ℕ}

theorem fence_lt_of_took (h : LeaseTrace (tr ++ a :: us ++ b :: vs)) (ha : Took a.event c data fc)
    (hb : Took b.event c data' fc') : fc < fc' := by
  have hle := ha.fence_le h.of_append
  exact hle.trans_lt (hb.cells h.at_split.1).2

variable {i rev : ℕ} {r : ClaimRecord}

theorem entry_of_sawClaim (h : LeaseTrace tr) (hsaw : sawClaim c (.found r rev) ∈ own i tr) :
    ∃ us vs, tr = us ++ ⟨i, sawClaim c (.found r rev)⟩ :: vs ∧
      (claimCell us c).entry = some (r, rev) := by
  obtain ⟨us, vs, rfl⟩ := append_of_mem (mem_of_mem_own hsaw)
  exact ⟨us, vs, rfl, h.at_split.1⟩

theorem rev_of_entry {β : Type} {cell : Cell β} {r : β} (h : cell.entry = some (r, rev)) :
    cell.rev = rev := by
  obtain ⟨_, -, hr⟩ := Option.map_eq_some_iff.mp h
  exact congrArg Prod.snd hr

variable (h : LeaseTrace tr) (hsaw : sawClaim c (.found r rev) ∈ own i tr)

include h hsaw

theorem rev_le_of_sawClaim : rev ≤ (claimCell tr c).rev := by
  obtain ⟨us, vs, rfl, he⟩ := entry_of_sawClaim h hsaw
  exact (rev_of_entry he).ge.trans (rev_le h (.claim c))

theorem entry_of_rev_eq (hr : (claimCell tr c).rev = rev) :
    (claimCell tr c).entry = some (r, rev) := by
  obtain ⟨us, vs, rfl, he⟩ := entry_of_sawClaim h hsaw
  have hs : claimCell (us ++ ⟨i, sawClaim c (.found r rev)⟩ :: vs) c = claimCell us c :=
    cell_eq_of_rev_eq h (hr.trans (rev_of_entry he).symm)
  rw [hs, he]

omit h hsaw

theorem attempt_lt_of_took (h : LeaseTrace (tr ++ a :: us)) (ha : Took a.event c data fc)
    (hli : (claimCell tr c).entry = some (r, rev)) : r.attempt < data.attempt := by
  obtain ⟨i, e⟩ := a
  obtain ⟨han, call, hj⟩ := h.at_split
  obtain ⟨res, hl, rfl | ⟨rev₀, rfl⟩⟩ := ha
  · have hn : (claimCell tr c).live = none := (Write.of_landed han hl).1
    simp [Cell.entry, hn] at hli
  · have hr : (claimCell tr c).rev = rev₀ := (Write.of_landed han hl).1
    obtain ⟨-, r₀, hsaw, hlt⟩ := hj
    have he := entry_of_rev_eq h.of_append (hsaw.subset (mem_singleton_self _)) hr
    rw [hli, Option.some.injEq, Prod.mk.injEq] at he
    rwa [he.1]

variable {t : Token}

theorem Valid.unique {t' : Token} (h : Valid tr t) (h' : Valid tr t') (hv : t.value = t'.value) :
    t = t' := by
  obtain ⟨r, hr⟩ := h
  obtain ⟨r', hr'⟩ := h'
  cases t
  cases t'
  simp_all

def HandedOut (tr : LeaseHistory) (t : Token) : Prop :=
  ∃ a ∈ tr, ∃ data, Took a.event t.value data t.fence

theorem HandedOut.fence_le (h : LeaseTrace tr) (ht : HandedOut tr t) :
    t.fence ≤ (claimCell tr t.value).rev := by
  obtain ⟨a, ha, data, hto⟩ := ht
  obtain ⟨us, vs, rfl⟩ := append_of_mem ha
  exact hto.fence_le h

theorem not_valid_append (h : LeaseTrace (tr ++ us)) (ht : HandedOut tr t) (hd : ¬ Valid tr t) :
    ¬ Valid (tr ++ us) t := by
  rintro ⟨r, he⟩
  have hr := rev_of_entry he
  have hle := ht.fence_le h.of_append
  have hm : (claimCell tr t.value).rev ≤ (claimCell (tr ++ us) t.value).rev := rev_le h _
  have hs : claimCell (tr ++ us) t.value = claimCell tr t.value :=
    cell_eq_of_rev_eq h (show (claimCell (tr ++ us) t.value).rev = (claimCell tr t.value).rev by omega)
  exact hd ⟨r, hs ▸ he⟩

theorem handedOut_of_returns (hr : Returns (cs i).prog (own i tr) (.token (.ok t))) :
    ∃ a ∈ tr, a.actor = i ∧ ∃ data, Took a.event t.value data t.fence := by
  obtain ⟨data, _, -, hm⟩ := wp_returns ((cs i).wp_prog (h := [])) hr
  rcases hm with hm | ⟨rev, hm⟩
  · exact ⟨_, mem_of_mem_own hm, rfl, data, _, rfl, .inl rfl⟩
  · exact ⟨_, mem_of_mem_own hm, rfl, data, _, rfl, .inr ⟨rev, rfl⟩⟩

theorem valid_of_returns (h : Reach leaseWorld (fun i => (cs i).prog) tr)
    (hc : cs i = .validate t) (hr : Returns (cs i).prog (own i tr) (.done (.ok ()))) :
    ∃ us a vs, tr = us ++ a :: vs ∧ a.actor = i ∧ Valid us t := by
  obtain ⟨-, hv⟩ := wp_returns ((cs i).wp_prog (h := [])) hr
  obtain ⟨r, hsaw⟩ := hv t hc
  obtain ⟨us, vs, rfl, he⟩ := entry_of_sawClaim (.of_reach h) (hsaw.subset (mem_singleton_self _))
  exact ⟨us, _, vs, rfl, rfl, r, he⟩

end Safety

structure LeaseSafe (calls : ℕ → Call) (tr : LeaseHistory) : Prop where
  /-- A token a call returns is that of a take of its own. -/
  handed_out : ∀ i t, Returns (calls i).prog (own i tr) (.token (.ok t)) →
    ∃ a ∈ tr, a.actor = i ∧ ∃ data, Took a.event t.value data t.fence
  fences_increase : ∀ us a vs b ws c data data' fence fence',
    tr = us ++ a :: vs ++ b :: ws → Took a.event c data fence → Took b.event c data' fence' →
    fence < fence'
  larger_attempt : ∀ us a vs c data fence r rev, tr = us ++ a :: vs → Took a.event c data fence →
    (claimCell us c).entry = some (r, rev) → r.attempt < data.attempt
  one_valid : ∀ us vs t t', tr = us ++ vs → Valid us t → Valid us t' → t.value = t'.value → t = t'
  /-- A validation succeeds only by reading while its token is current. -/
  validated : ∀ i t, calls i = .validate t →
    Returns (calls i).prog (own i tr) (.done (.ok ())) →
    ∃ us a vs, tr = us ++ a :: vs ∧ a.actor = i ∧ Valid us t
  /-- A token handed out and not current now is not current later, and no validation
  made from now on succeeds. -/
  dead_stays_dead : ∀ us vs t, tr = us ++ vs → HandedOut us t → ¬ Valid us t →
    ¬ Valid tr t ∧ ∀ i, calls i = .validate t → own i us = [] →
      ¬ Returns (calls i).prog (own i tr) (.done (.ok ()))

/-- Leases are safe in every interleaving of the manager's calls. -/
theorem lease_safe (calls : ℕ → Call) (tr : LeaseHistory)
    (h : Reach leaseWorld (fun i => (calls i).prog) tr) : LeaseSafe calls tr where
  handed_out i t hret := handedOut_of_returns hret
  fences_increase us a vs b ws c data data' fence fence' htr ha hb := by
    subst htr
    exact fence_lt_of_took (.of_reach h) ha hb
  larger_attempt us a vs c data fence r rev htr ha hl := by
    subst htr
    exact attempt_lt_of_took (.of_reach h) ha hl
  one_valid us vs t t' _ ht ht' hv := ht.unique ht' hv
  validated i t hc hret := valid_of_returns h hc hret
  dead_stays_dead us vs t htr ho hd := by
    subst htr
    have hta := LeaseTrace.of_reach h
    refine ⟨not_valid_append hta ho hd, fun i hc hn hret => ?_⟩
    -- the read of the validation falls after the token died
    obtain ⟨us', a, vs', hs, rfl, hva⟩ := valid_of_returns h hc hret
    rcases append_eq_append_iff.mp hs with ⟨ws, rfl, -⟩ | ⟨ws, rfl, hws⟩
    · rw [hs] at hta
      exact not_valid_append hta.of_append ho hd hva
    · rcases ws with _ | ⟨b, ws⟩
      · exact hd (by simpa using hva)
      · obtain ⟨rfl, -⟩ := cons.inj hws
        simp [own] at hn

def twoClaims : ℕ → Call
  | 0 => .claim "acme" "run" "build" 1 60
  | 1 => .claim "acme" "run" "build" 2 60
  | _ => .validate ⟨⟨"acme", "run", "build"⟩, 1⟩

/-- The second claim supersedes the first, whose token is dead from then on. -/
theorem lease_safe_twoClaims :
    LeaseSafe twoClaims (run twoClaims (fun n => n) [] [0, 0, 0, 1, 1, 1, 2]) ∧
      claimCell (run twoClaims (fun n => n) [] [0, 0, 0, 1, 1, 1, 2]) ⟨"acme", "run", "build"⟩ =
        ⟨2, some ⟨"acme", "run", "build", 2, 60, 63, false⟩⟩ :=
  ⟨lease_safe _ _ (run_reach _ _ _ _), by rfl⟩

end Dhole.Lease
