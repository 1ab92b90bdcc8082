import Dhole.LeaseSafety

/-! What a renewal is worth. The renewal lives under its own key, and neither the write of
a renewal nor the deletion of a claim is conditional on it. So a renewal that returned can
still be lost: to a deletion decided before it was written, to a stale holder's write over
it, to a sweep's clean-up. The conditions below name these steps; in every history without
them an accepted lease stays, and a stale renewal changes nothing exactly where there is
nothing of the newer lease to overwrite. -/

namespace Dhole.Lease

open Interleave Prog KV List

/-- The renewal that counts for the live claim: the one of its own fence. -/
def liveRenewal (tr : LeaseHistory) (c : StepKey) : Option RenewRecord :=
  match (claimCell tr c).entry, (renewCell tr c).live with
  | some (_, fence), some rn => if rn.fence = fence then some rn else none
  | _, _ => none

/-- The deadline of the live lease and whether it counts as accepted. -/
def leaseStatus (tr : LeaseHistory) (c : StepKey) : Option (ℤ × Bool) :=
  (claimCell tr c).entry.map fun p => deadlineOf p.2 p.1 (renewCell tr c).live

theorem liveRenewal_eq_some_iff {tr : LeaseHistory} {c : StepKey} {rn : RenewRecord} :
    liveRenewal tr c = some rn ↔
      (∃ r, (claimCell tr c).entry = some (r, rn.fence)) ∧ (renewCell tr c).live = some rn := by
  unfold liveRenewal
  cases (claimCell tr c).entry with
  | none => simp
  | some p =>
    cases (renewCell tr c).live with
    | none => simp
    | some rn' =>
      obtain ⟨r, fc⟩ := p
      dsimp only
      split
      · rename_i hf
        subst hf
        simp only [Option.some.injEq, Prod.mk.injEq]
        constructor
        · rintro rfl
          exact ⟨⟨r, rfl, rfl⟩, rfl⟩
        · exact fun h => h.2
      · rename_i hf
        simp only [reduceCtorEq, Option.some.injEq, false_iff, not_and]
        rintro ⟨-, -, rfl⟩ rfl
        exact hf rfl

/-! ### Acceptance -/

def LastRead (c : StepKey) (seen : GetRes RenewRecord) (h : List LeaseEvent) : Prop :=
  [sawRenewal c seen] <:+ h ∨ ∃ t, [sawRenewal c seen, sawNow t] <:+ h

/-- No step is in the way of a renewal: a deletion of the claim finds the renewal as its
actor read it, a write of the renewal keeps the fence and does not bring the deadline
forward where the renewal of the live fence is written over, and a deletion of the
renewal does not meet one of the live fence. -/
def Undisturbed (us : LeaseHistory) (a : Act leaseSig) : Prop :=
  (∀ c rev res seen, a.event = deletedClaim c rev res → (WriteRes.landed res).isSome →
    LastRead c seen (own a.actor us) → renewalRead seen = some (renewCell us c).live) ∧
  (∀ c rn res held, a.event = wroteRenewal c rn res → (WriteRes.landed res).isSome →
    liveRenewal us c = some held → rn.fence = held.fence ∧ held.expiresAt ≤ rn.expiresAt) ∧
  ∀ c res, a.event = deletedRenewal c res → (WriteRes.landed res).isSome → liveRenewal us c = none

/-- The call renewed the lease and returned, and wrote this deadline. -/
def Renewed (calls : ℕ → Call) (us : LeaseHistory) (i : ℕ) (t : Token) (limit : ℤ) : Prop :=
  calls i = .renew t ∧ Returns (calls i).prog (own i us) (.done (.ok ())) ∧
    ∃ rev, wroteRenewal t.value ⟨t.fence, limit⟩ (.ok rev) ∈ own i us

/-- After a renewal has returned, the lease is not removed by a withdrawal, and by a sweep
only once its clock is past the deadline the renewal wrote. -/
def AcceptanceDurable (calls : ℕ → Call) (tr : LeaseHistory) : Prop :=
  ∀ us a vs i t limit res, tr = us ++ a :: vs → a.event = deletedClaim t.value t.fence res →
    (WriteRes.landed res).isSome → Renewed calls us i t limit →
    (∀ t', calls a.actor ≠ .withdraw t') ∧
      (calls a.actor = .expire → ∃ now, [sawNow now] <:+ own a.actor us ∧ limit < now)

variable {tr : LeaseHistory} {cs : ℕ → Call} {c : StepKey} {a : Act leaseSig} {rn : RenewRecord}
  {res : WriteRes}

theorem fence_le_of_wroteRenewal (h : LeaseTrace tr) (hm : a ∈ tr)
    (ha : a.event = wroteRenewal c rn res) : rn.fence ≤ (claimCell tr c).rev := by
  obtain ⟨us, vs, rfl⟩ := append_of_mem hm
  obtain ⟨i, e⟩ := a
  obtain rfl : e = wroteRenewal c rn res := ha
  obtain ⟨-, call, -, r, t, hs, -⟩ := h.at_split
  have hle := rev_le_of_sawClaim h.of_append (hs.subset (mem_cons_self ..))
  exact hle.trans (rev_le h (.claim c))

theorem renewCell_of_wroteRenewal (ha : a.event = wroteRenewal c rn res)
    (hl : (WriteRes.landed res).isSome) : (renewCell (tr ++ [a]) c).live = some rn := by
  obtain ⟨i, e⟩ := a
  obtain rfl : e = wroteRenewal c rn res := ha
  obtain ⟨rev, hr⟩ := Option.isSome_iff_exists.mp hl
  have hw : (Op.put (.renew c) rn : KV.Op Key Val).written res = some ⟨.renew c, rev, some rn⟩ := by
    simp [Op.written, hr]
  have hc : renewCell (tr ++ [⟨i, wroteRenewal c rn res⟩]) c = ⟨rev, some rn⟩ := by
    rw [renewCell, World.state_snoc]
    exact next_of_written hw
  rw [hc]

variable {r : ClaimRecord}

/-- In an undisturbed history every renewal of the live fence still counts, at its own
deadline or a later one. -/
theorem renewal_kept (h : LeaseTrace tr) (hu : Throughout Undisturbed tr) (hm : a ∈ tr)
    (ha : a.event = wroteRenewal c rn res) (hl : (WriteRes.landed res).isSome)
    (hli : (claimCell tr c).entry = some (r, rn.fence)) :
    ∃ held, liveRenewal tr c = some held ∧ held.fence = rn.fence ∧
      rn.expiresAt ≤ held.expiresAt := by
  induction tr using reverseRecOn generalizing r with
  | nil => simp at hm
  | append_singleton tr b ih =>
    rcases mem_append.mp hm with hm | hb
    · obtain ⟨-, hp, hd⟩ := hu.last
      rcases claimCell_snoc h c with hs | ⟨data, fc, ht, hc⟩ | ⟨_, _, fc, -, -, hc⟩
      · rw [hs] at hli
        obtain ⟨held, hh, hf, hle⟩ := ih h.of_append hu.of_append hm hli
        rcases renewCell_snoc h c with hr | ⟨rn', res', rev', hev, hl', hc'⟩ |
          ⟨res', rev', hev, hl', -⟩
        · refine ⟨held, ?_, hf, hle⟩
          rw [liveRenewal_eq_some_iff] at hh ⊢
          rwa [hs, hr]
        · obtain ⟨hf', hle'⟩ := hp c rn' res' held hev (by simp [hl']) hh
          refine ⟨rn', ?_, hf'.trans hf, hle.trans hle'⟩
          rw [liveRenewal_eq_some_iff, hs, hc']
          exact ⟨⟨r, by rw [hli, hf', hf]⟩, rfl⟩
        · rw [hd c res' hev (by simp [hl'])] at hh
          cases hh
      · -- the claim has just moved to a fence no renewal was ever written for
        have hle := fence_le_of_wroteRenewal h.of_append hm ha
        have hlt : (claimCell tr c).rev < fc := (ht.cells h.at_split.1).2
        rw [hc] at hli
        obtain rfl : fc = rn.fence := by simpa using rev_of_entry hli
        omega
      · simp [hc, Cell.entry] at hli
    · obtain rfl : a = b := by simpa using hb
      refine ⟨rn, ?_, rfl, le_rfl⟩
      rw [liveRenewal_eq_some_iff]
      exact ⟨⟨r, hli⟩, renewCell_of_wroteRenewal ha hl⟩

theorem le_deadlineOf {fc : ℕ} (hf : rn.fence = fc) :
    (deadlineOf fc r (some rn)).2 = true ∧ rn.expiresAt ≤ (deadlineOf fc r (some rn)).1 := by
  unfold deadlineOf
  dsimp only
  rw [if_neg (by simpa using hf)]
  split
  · exact ⟨rfl, le_rfl⟩
  · rename_i hlt
    push Not at hlt
    exact ⟨rfl, hlt.2.le⟩

/-- In every history whose steps are undisturbed, acceptance is durable. -/
theorem acceptance_durable (calls : ℕ → Call) (tr : LeaseHistory)
    (h : Reach leaseWorld (fun i => (calls i).prog) tr) (hund : Throughout Undisturbed tr) :
    AcceptanceDurable calls tr := by
  rintro us ⟨j, e⟩ vs i t li res rfl rfl hl ⟨-, -, rev, hp⟩
  obtain ⟨ha, r, seen, re, hr, hc⟩ := (guarded_of_reach h).at_split
  have ht := (LeaseTrace.of_reach h).of_append
  have hcl : sawClaim t.value (.found r t.fence) ∈ own j us := by
    rcases hc with ⟨-, hsa, -⟩ | ⟨-, now, hsa, -⟩ <;> exact hsa.subset (by simp)
  have hla : LastRead t.value seen (own j us) := by
    rcases hc with ⟨-, hsa, -⟩ | ⟨-, now, hsa, -⟩
    · exact .inl ((suffix_cons _ _).trans hsa)
    · exact .inr ⟨now, (suffix_cons _ _).trans hsa⟩
  obtain ⟨rev', hre'⟩ := Option.isSome_iff_exists.mp hl
  have hlv := entry_of_rev_eq ht hcl (Write.of_landed ha hre').1
  -- the remover saw the renewal that counts, so it saw a holder with at least this deadline
  obtain ⟨held, hh, hf, hle⟩ := renewal_kept ht hund.of_append (mem_of_mem_own hp) rfl
    rfl hlv
  have hs := (hund us _ vs rfl).1 t.value t.fence res seen rfl hl hla
  rw [(liveRenewal_eq_some_iff.mp hh).2, hr, Option.some.injEq] at hs
  subst hs
  obtain ⟨hac, hli⟩ := le_deadlineOf (r := r) hf
  rcases hc with ⟨-, -, hfr⟩ | ⟨he, now, hsa, -, hn⟩
  · rw [hac] at hfr
    cases hfr
  · refine ⟨fun t' hw => ?_, fun _ => ⟨now, ?_, ?_⟩⟩
    · rw [he] at hw
      cases hw
    · exact List.IsSuffix.trans ⟨[_, _], rfl⟩ hsa
    · exact hle.trans_lt (hli.trans_lt hn)

def build : StepKey := ⟨"acme", "run", "build"⟩

def offerWithdrawRenew : ℕ → Call
  | 0 => .offer "acme" "run" "build" 1 60
  | 1 => .withdraw ⟨build, 1⟩
  | _ => .renew ⟨build, 1⟩

/-- The withdrawal has read that nobody renewed when the renewal is written and returns;
then it deletes the lease. -/
def withdrawnAfterRenewal : LeaseHistory :=
  run offerWithdrawRenew (fun n => n) [] [0, 0, 0, 1, 1, 2, 2, 2, 1]

theorem withdrawnAfterRenewal_not_durable :
    Reach leaseWorld (fun i => (offerWithdrawRenew i).prog) withdrawnAfterRenewal ∧
      ¬ AcceptanceDurable offerWithdrawRenew withdrawnAfterRenewal := by
  refine ⟨run_reach _ _ _ _, fun h => ?_⟩
  have hr : Renewed offerWithdrawRenew (withdrawnAfterRenewal.take 8) 2 ⟨build, 1⟩ 66 := by
    refine ⟨rfl, ?_, 1, ?_⟩
    · exact .cons (.cons (.cons (.nil _)))
    · exact mem_of_mem_getLast? rfl
  exact (h (withdrawnAfterRenewal.take 8) ⟨1, deletedClaim build 1 (.ok 2)⟩ [] 2 ⟨build, 1⟩ 66 (.ok 2)
    rfl rfl rfl hr).1 ⟨build, 1⟩ rfl

def renewedThenWithdrawn : LeaseHistory :=
  run offerWithdrawRenew (fun n => n) [] [0, 0, 0, 2, 2, 2, 1, 1]

theorem renewedThenWithdrawn_durable : AcceptanceDurable offerWithdrawRenew renewedThenWithdrawn ∧
      (claimCell renewedThenWithdrawn build).rev = 1 := by
  refine ⟨acceptance_durable _ _ (run_reach _ _ _ _) ?_, rfl⟩
  rw [throughout_iff_from]
  refine ⟨?_, ?_, ?_, ?_, ?_, ?_, ?_, ?_, trivial⟩
  all_goals
    refine ⟨?_, ?_, ?_⟩
    · rintro c rev res seen ⟨⟩
    · rintro c rn res held ⟨⟩ - hh <;> cases hh
    · rintro c res ⟨⟩

/-! ### Stale renewals -/

/-- No step of a renewal with an overtaken token changes the newer lease. -/
def StalePowerless (calls : ℕ → Call) (tr : LeaseHistory) : Prop :=
  ∀ us a vs t r fence, tr = us ++ a :: vs → calls a.actor = .renew t →
    (claimCell us t.value).entry = some (r, fence) → t.fence < fence →
    leaseStatus (us ++ [a]) t.value = leaseStatus us t.value

/-- When a renewal with an overtaken token is written, the newer lease has no renewal of its
own, or it is a claim whose renewal does not reach beyond its first deadline. -/
def OvertakenHarmless (calls : ℕ → Call) (us : LeaseHistory) (a : Act leaseSig) : Prop :=
  ∀ t rn res r fence held, calls a.actor = .renew t → a.event = wroteRenewal t.value rn res →
    (WriteRes.landed res).isSome → (claimCell us t.value).entry = some (r, fence) →
    t.fence < fence → liveRenewal us t.value = some held →
    r.offered = false ∧ held.expiresAt ≤ r.expiresAt

variable {fc : ℕ}

theorem leaseStatus_eq (hl : (claimCell tr c).entry = some (r, fc)) :
    leaseStatus tr c = some (deadlineOf fc r (liveRenewal tr c)) := by
  unfold leaseStatus liveRenewal
  rw [hl]
  cases (renewCell tr c).live with
  | none => rfl
  | some rn =>
    dsimp only [Option.map_some]
    split
    · rfl
    · rename_i hf
      simp [deadlineOf, hf]

theorem deadlineOf_none_eq_iff {held : RenewRecord} (hf : held.fence = fc) :
    deadlineOf fc r none = deadlineOf fc r (some held) ↔
      r.offered = false ∧ held.expiresAt ≤ r.expiresAt := by
  unfold deadlineOf
  dsimp only
  rw [if_neg (by simpa using hf)]
  cases r.offered with
  | true => simp
  | false =>
    simp only [Bool.false_eq_true, false_or, Bool.not_false, true_and]
    split
    · simp only [Prod.mk.injEq, and_true]
      omega
    · simp only [true_iff]
      omega

theorem liveRenewal_of_stale {rn : RenewRecord} {res : WriteRes} (h : LeaseTrace (tr ++ [a]))
    (ha : a.event = wroteRenewal c rn res) (hl : (WriteRes.landed res).isSome)
    (hli : (claimCell tr c).entry = some (r, fc)) (hlt : rn.fence < fc) :
    (claimCell (tr ++ [a]) c).entry = some (r, fc) ∧ liveRenewal (tr ++ [a]) c = none := by
  have hc : claimCell (tr ++ [a]) c = claimCell tr c := by
    rcases claimCell_snoc h c with hs | ⟨data, f, ⟨_, _, hev⟩, -⟩ | ⟨_, _, _, hev, -⟩
    · exact hs
    · rcases hev with hev | ⟨_, hev⟩ <;> rw [ha] at hev <;> cases hev
    · rw [ha] at hev
      cases hev
  refine ⟨hc ▸ hli, ?_⟩
  rw [Option.eq_none_iff_forall_ne_some]
  intro held hh
  obtain ⟨⟨r', hr'⟩, hrn⟩ := liveRenewal_eq_some_iff.mp hh
  rw [renewCell_of_wroteRenewal ha hl, Option.some.injEq] at hrn
  subst hrn
  rw [hc, hli, Option.some.injEq, Prod.mk.injEq] at hr'
  omega

/-- A renewal writes its own token's fence, and nothing but renewals. -/
theorem leaseStatus_renew_step {t : Token} (h : LeaseTrace (tr ++ [a]))
    (hj : Justified (.renew t) (own a.actor tr) a.event) :
    (∃ rn res, a.event = wroteRenewal t.value rn res ∧ rn.fence = t.fence ∧
        (WriteRes.landed res).isSome) ∨
      leaseStatus (tr ++ [a]) t.value = leaseStatus tr t.value := by
  have hcl : claimCell (tr ++ [a]) t.value = claimCell tr t.value := by
    rcases claimCell_snoc h t.value with hs | ⟨data, f, ⟨res, -, hev⟩, -⟩ | ⟨rev, res, f, hev, -⟩
    · exact hs
    · rcases hev with hev | ⟨rev, hev⟩ <;> rw [hev] at hj <;> obtain ⟨⟨_, ht⟩, -⟩ := hj <;>
        cases ht
    · rw [hev] at hj
      obtain ⟨_, _, _, -, ⟨hc, -⟩ | ⟨hc, -⟩⟩ := hj <;> cases hc
  rcases renewCell_snoc h t.value with hs | ⟨rn, res, rev, hev, hl, -⟩ | ⟨res, rev, hev, -⟩
  · right
    rw [leaseStatus, leaseStatus, hcl, hs]
  · left
    rw [hev] at hj
    obtain ⟨hc, -⟩ := hj
    exact ⟨rn, res, hev, (congrArg Token.fence (Call.renew.inj hc)).symm, by simp [hl]⟩
  · rw [hev] at hj
    obtain ⟨hc, -⟩ := hj
    cases hc

/-- A stale holder is powerless exactly in the histories in which every renewal written with
an overtaken token finds no renewal of the newer lease to take away. -/
theorem stalePowerless_iff (calls : ℕ → Call) (tr : LeaseHistory)
    (h : Reach leaseWorld (fun i => (calls i).prog) tr) :
    StalePowerless calls tr ↔ Throughout (OvertakenHarmless calls) tr := by
  have hG := guarded_of_reach h
  have ht := LeaseTrace.of_reach h
  constructor
  · rintro hst us a vs rfl t rn res r fence held hc ha hl hli hlt hh
    have hs := hst us a vs t r fence rfl hc hli hlt
    have hj : Justified (calls a.actor) (own a.actor us) a.event := hG.at_split.2
    rw [hc, ha] at hj
    have hrn : rn.fence = t.fence := (congrArg Token.fence (Call.renew.inj hj.1)).symm
    rw [append_cons] at ht
    obtain ⟨hli', hn⟩ := liveRenewal_of_stale ht.of_append ha hl hli (hrn ▸ hlt)
    rw [leaseStatus_eq hli, leaseStatus_eq hli', hn, hh, Option.some.injEq] at hs
    obtain ⟨⟨r', hr'⟩, -⟩ := liveRenewal_eq_some_iff.mp hh
    rw [hli, Option.some.injEq, Prod.mk.injEq] at hr'
    exact (deadlineOf_none_eq_iff hr'.2.symm).mp hs
  · rintro hha us a vs t r fence rfl hc hli hlt
    have hj : Justified (calls a.actor) (own a.actor us) a.event := hG.at_split.2
    rw [hc] at hj
    rw [append_cons] at ht
    rcases leaseStatus_renew_step ht.of_append hj with ⟨rn, res, ha, hf, hl⟩ | hs
    · obtain ⟨hli', hn⟩ := liveRenewal_of_stale ht.of_append ha hl hli (hf ▸ hlt)
      rw [leaseStatus_eq hli, leaseStatus_eq hli', hn, Option.some.injEq]
      cases hh : liveRenewal us t.value with
      | none => rfl
      | some held =>
        obtain ⟨⟨r', hr'⟩, -⟩ := liveRenewal_eq_some_iff.mp hh
        rw [hli, Option.some.injEq, Prod.mk.injEq] at hr'
        exact (deadlineOf_none_eq_iff hr'.2.symm).mpr
          (hha us a vs rfl t rn res r fence held hc ha hl hli hlt hh)
    · exact hs

/-- Two attempts are offered, and each offer is renewed once. -/
def twoOffers : ℕ → Call
  | 0 => .offer "acme" "run" "build" 1 60
  | 1 => .renew ⟨build, 1⟩
  | 2 => .offer "acme" "run" "build" 2 60
  | _ => .renew ⟨build, 2⟩

/-- The first renewal has checked its token when the second attempt is offered and accepted;
then it is written. -/
def overtakenRenewal : LeaseHistory :=
  run twoOffers (fun n => n) [] [0, 0, 0, 1, 2, 2, 2, 3, 3, 3, 1, 1]

theorem overtakenRenewal_not_powerless :
    Reach leaseWorld (fun i => (twoOffers i).prog) overtakenRenewal ∧
      leaseStatus (overtakenRenewal.take 11) build = some (68, true) ∧
      leaseStatus overtakenRenewal build = some (64, false) ∧
      ¬ StalePowerless twoOffers overtakenRenewal := by
  refine ⟨run_reach _ _ _ _, rfl, rfl, fun h => ?_⟩
  have hs := h (overtakenRenewal.take 11) ⟨1, wroteRenewal build ⟨1, 70⟩ (.ok 2)⟩ [] ⟨build, 1⟩
    ⟨"acme", "run", "build", 2, 60, 64, true⟩ 2 rfl rfl rfl (by decide)
  cases hs

/-- The overtaken renewal is written before the newer lease is renewed. -/
def harmlessRenewal : LeaseHistory :=
  run twoOffers (fun n => n) [] [0, 0, 0, 1, 2, 2, 2, 1, 1, 3, 3, 3]

theorem harmlessRenewal_powerless :
    StalePowerless twoOffers harmlessRenewal ∧ leaseStatus harmlessRenewal build = some (70, true) := by
  refine ⟨(stalePowerless_iff _ _ (run_reach _ _ _ _)).mpr ?_, rfl⟩
  rw [throughout_iff_from]
  refine ⟨?_, ?_, ?_, ?_, ?_, ?_, ?_, ?_, ?_, ?_, ?_, ?_, trivial⟩
  all_goals
    rintro ⟨value, old⟩ rn res r fence held hc ⟨⟩ - hl hlt hh <;> cases hh

end Dhole.Lease
