import Dhole.Journal

/-! Leases inside the histories of the whole system, read by position. The claim of a step
is what the last take or deletion left, its fence only grows, and a lease that stays where
it is keeps every take of the same or an earlier attempt away. -/

namespace Dhole.System

open Interleave Prog Plane Lease Scheduler KV

def claimOf (tr : History) (c : StepKey) : Cell ClaimRecord := (planeWorld.state tr).1 (.claim c)

theorem claimOf_eq (tr : History) (c : StepKey) : claimOf tr c = claimCell (leftActs tr) c :=
  congrFun (World.sum_state_fst tr) (Key.claim c)

def TookAt (tr : History) (n i : ℕ) (c : StepKey) (data : ClaimRecord) (fence : ℕ) : Prop :=
  ∃ e, tr[n]? = some ⟨i, e.inl⟩ ∧ Took e c data fence

def RemovedAt (tr : History) (n : ℕ) (c : StepKey) (fence : ℕ) : Prop :=
  ∃ i res, tr[n]? = some ⟨i, (deletedClaim c fence res).inl⟩ ∧ (WriteRes.landed res).isSome

variable {D : Definitions} {As : ℕ → Actor} {tr : History} {i j n m : ℕ} {c : StepKey}
  {r data data' : ClaimRecord} {fc fc' : ℕ}

theorem PlaneTrace.leaseTrace (htr : PlaneTrace D As tr) : LeaseTrace (leftActs tr) := by
  refine Guarded.left ?_ htr
  rintro i h ⟨op, r⟩ ⟨call, -, hj⟩
  exact ⟨call, hj⟩

variable (htr : PlaneTrace D As tr)

include htr

theorem claimOf_take_mono (hnm : n ≤ m) (c : StepKey) :
    claimOf (tr.take m) c = claimOf (tr.take n) c ∨
      (claimOf (tr.take n) c).rev < (claimOf (tr.take m) c).rev := by
  refine htr.ordered (R := fun (s s' : planeWorld.State) => s'.1 (.claim c) = s.1 (.claim c) ∨
    (s.1 (.claim c)).rev < (s'.1 (.claim c)).rev) (fun _ => .inl rfl) ?_ ?_ hnm
  · rintro s t u (hst | hst) (htu | htu)
    · exact .inl (htu.trans hst)
    · exact .inr (hst ▸ htu)
    · exact .inr (htu ▸ hst)
    · exact .inr (hst.trans htu)
  · rintro i h s ⟨op | op, res⟩ ha -
    · exact next_cell ha (.claim c)
    · exact .inl rfl

theorem rev_take_mono (hnm : n ≤ m) (c : StepKey) :
    (claimOf (tr.take n) c).rev ≤ (claimOf (tr.take m) c).rev := by
  rcases claimOf_take_mono htr hnm c with heq | hlt
  · rw [heq]
  · exact hlt.le

theorem TookAt.cells (hto : TookAt tr n i c data fc) :
    claimOf (tr.take (n + 1)) c = ⟨fc, some data⟩ ∧ (claimOf (tr.take n) c).rev < fc := by
  obtain ⟨e, hn, ht⟩ := hto
  rw [claimOf, state_take_succ hn]
  exact ht.cells (htr.at_get hn).1

theorem entry_of_saw (hn : tr[n]? = some ⟨i, (sawClaim c (.found r fc)).inl⟩) :
    (claimOf (tr.take n) c).entry = some (r, fc) :=
  (htr.at_get hn).1

theorem TookAt.fence_lt (ha : TookAt tr n i c data fc) (hb : TookAt tr m j c data' fc')
    (hnm : n < m) : fc < fc' := by
  have hle := rev_take_mono htr (Nat.succ_le_of_lt hnm) c
  have hr := congrArg Cell.rev (ha.cells htr).1
  have hlt := (hb.cells htr).2
  exact (hr ▸ hle).trans_lt hlt

theorem TookAt.unique (ha : TookAt tr n i c data fc) (hb : TookAt tr m j c data' fc) :
    n = m := by
  rcases lt_trichotomy n m with hlt | heq | hlt
  · exact absurd (ha.fence_lt htr hb hlt) (lt_irrefl _)
  · exact heq
  · exact absurd (hb.fence_lt htr ha hlt) (lt_irrefl _)

theorem TookAt.entry (ha : TookAt tr n i c data fc) (hnm : n < m)
    (he : (claimOf (tr.take m) c).entry = some (r, fc)) : r = data := by
  have hc := (ha.cells htr).1
  rcases claimOf_take_mono htr (Nat.succ_le_of_lt hnm) c with heq | hlt
  · rw [heq, hc] at he
    simpa [Cell.entry] using he.symm
  · rw [hc, rev_of_entry he] at hlt
    exact absurd hlt (lt_irrefl _)

theorem claimOf_step (n : ℕ) (c : StepKey) :
    claimOf (tr.take (n + 1)) c = claimOf (tr.take n) c ∨ (∃ i data fc, TookAt tr n i c data fc ∧
        ∀ r rev, (claimOf (tr.take n) c).entry = some (r, rev) → r.attempt < data.attempt) ∨
      (RemovedAt tr n c (claimOf (tr.take n) c).rev ∧
        (claimOf (tr.take (n + 1)) c).live = none) := by
  cases hn : tr[n]? with
  | none =>
    have hle := List.getElem?_eq_none_iff.mp hn
    rw [List.take_of_length_le hle, List.take_of_length_le (hle.trans n.le_succ)]
    exact .inl rfl
  | some a =>
    obtain ⟨i, op | op, res⟩ := a
    · have hl := PlaneTrace.leaseTrace (htr.take (n + 1))
      have hs : leftActs (tr.take (n + 1)) = leftActs (tr.take n) ++ [⟨i, ⟨op, res⟩⟩] := by
        rw [take_succ_of_get hn, leftActs_append]
        rfl
      rw [hs] at hl
      rcases claimCell_snoc hl c with hsa | ⟨data, fc, ht, -⟩ |
        ⟨rev, res', fc, hev, hla, hc⟩
      · left
        rw [claimOf_eq, claimOf_eq, hs, hsa]
      · refine .inr (.inl ⟨i, data, fc, ⟨⟨op, res⟩, hn, ht⟩, fun r rev he => ?_⟩)
        rw [claimOf_eq] at he
        exact attempt_lt_of_took hl ht he
      · right
        right
        cases hev
        have ha : KV.Answers (planeWorld.state (tr.take n)).1 (.deleteAt (.claim c) rev) res' :=
          (htr.at_get hn).1
        have hr : (claimOf (tr.take n) c).rev = rev := (Write.of_landed ha hla).1
        refine ⟨hr ▸ ⟨i, res', hn, by simp [hla]⟩, ?_⟩
        rw [claimOf_eq, hs, hc]
    · left
      rw [claimOf, state_take_succ hn]
      rfl

theorem took_of_entry (he : (claimOf (tr.take n) c).entry = some (r, fc)) :
    ∃ k < n, ∃ i, TookAt tr k i c r fc := by
  induction n with
  | zero => cases he
  | succ n ih =>
    rcases claimOf_step htr n c with hs | ⟨i, data, f, ht, -⟩ | ⟨-, hn⟩
    · rw [hs] at he
      obtain ⟨k, hkn, i, ht⟩ := ih he
      exact ⟨k, hkn.trans n.lt_succ_self, i, ht⟩
    · rw [(ht.cells htr).1] at he
      obtain ⟨rfl, rfl⟩ : data = r ∧ f = fc := by simpa [Cell.entry] using he
      exact ⟨n, n.lt_succ_self, i, ht⟩
    · rw [Cell.entry, hn] at he
      cases he

theorem TookAt.names (ha : TookAt tr n i c data fc) :
    c = ⟨data.tenantID, data.runID, data.stepID⟩ := by
  obtain ⟨e, hn, hto⟩ := ha
  have hp := (htr.at_get hn).2
  obtain ⟨call, at_, ht⟩ : ∃ (call : Call) (at_ : ℤ), call.takes at_ = some (c, data) := by
    obtain ⟨res, -, rfl | ⟨rev, rfl⟩⟩ := hto
    all_goals
      obtain ⟨call, -, ⟨at_, ht⟩, -⟩ := hp
      exact ⟨call, at_, ht⟩
  have hm : ∀ {tid rid sid att ttl offered},
      Call.takes.make at_ tid rid sid att ttl offered = some (c, data) →
      c = ⟨data.tenantID, data.runID, data.stepID⟩ := by
    intro tid rid sid att ttl offered hm
    unfold Call.takes.make claimKey at hm
    split_ifs at hm
    cases hm
    rfl
  cases call with
  | claim | offer => exact hm ht
  | _ => cases ht

theorem entry_or_larger (hnm : n ≤ m) (he : (claimOf (tr.take n) c).entry = some (r, fc))
    (hk : ∀ k, n ≤ k → k < m → ¬ RemovedAt tr k c fc) :
    (claimOf (tr.take m) c).entry = some (r, fc) ∨
      ∃ k i data fc', n ≤ k ∧ k < m ∧ TookAt tr k i c data fc' ∧ r.attempt < data.attempt := by
  induction m, hnm using Nat.le_induction with
  | base => exact .inl he
  | succ m hnm ih =>
    rcases ih fun k hnk hkm => hk k hnk (by omega) with he | ⟨k, i, data, fc', hnk, hkm, ht, hlt⟩
    · rcases claimOf_step htr m c with hs | ⟨i, data, fc', ht, hlt⟩ | ⟨hr, -⟩
      · rw [hs]
        exact .inl he
      · exact .inr ⟨m, i, data, fc', hnm, by omega, ht, hlt r fc he⟩
      · rw [rev_of_entry he] at hr
        exact absurd hr (hk m hnm (by omega))
    · exact .inr ⟨k, i, data, fc', hnk, by omega, ht, hlt⟩

theorem larger_of_took (hnm : n ≤ m) (he : (claimOf (tr.take n) c).entry = some (r, fc))
    (hk : ∀ k, n ≤ k → k < m → ¬ RemovedAt tr k c fc) (ht : TookAt tr m i c data fc') :
    ∃ k i data fc', n ≤ k ∧ k ≤ m ∧ TookAt tr k i c data fc' ∧ r.attempt < data.attempt := by
  rcases entry_or_larger htr hnm he hk with he | ⟨k, j, data', f, hnk, hkm, ht', hlt⟩
  · rcases claimOf_step htr m c with hs | ⟨j, data', f, ht', hlt⟩ | ⟨⟨j, res, hm, -⟩, -⟩
    · have hc := ht.cells htr
      rw [hs] at hc
      rw [hc.1] at hc
      exact absurd hc.2 (lt_irrefl _)
    · exact ⟨m, j, data', f, hnm, le_rfl, ht', hlt r fc he⟩
    · obtain ⟨e, hm', res', -, rfl | ⟨rev, rfl⟩⟩ := ht <;>
        · rw [hm] at hm'
          cases hm'
  · exact ⟨k, j, data', f, hnk, hkm.le, ht', hlt⟩

end Dhole.System
