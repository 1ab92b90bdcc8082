import Dhole.Lease

/-! What the lease manager's programs do to the bucket, read one program at a time.
Every write a call makes is justified by what the same call has just read: a take by the
record it read over, a renewal by the claim it found at its fence, a deletion by the claim
and the renewal it read. This is all that the results about many planes use. -/

namespace Dhole.Lease

open Interleave Prog KV List

abbrev LeaseEvent := Event leaseSig

def sawClaim (c : StepKey) (r : GetRes ClaimRecord) : LeaseEvent := ⟨.kv (.get (.claim c)), r⟩

def sawRenewal (c : StepKey) (r : GetRes RenewRecord) : LeaseEvent := ⟨.kv (.get (.renew c)), r⟩

def sawNow (t : ℤ) : LeaseEvent := ⟨.now, t⟩

def wroteRenewal (c : StepKey) (rn : RenewRecord) (r : WriteRes) : LeaseEvent :=
  ⟨.kv (.put (.renew c) rn), r⟩

def createdClaim (c : StepKey) (data : ClaimRecord) (r : WriteRes) : LeaseEvent :=
  ⟨.kv (.create (.claim c) data), r⟩

def updatedClaim (c : StepKey) (data : ClaimRecord) (rev : ℕ) (r : WriteRes) : LeaseEvent :=
  ⟨.kv (.update (.claim c) data rev), r⟩

def deletedRenewal (c : StepKey) (r : WriteRes) : LeaseEvent := ⟨.kv (.delete (.renew c)), r⟩

def sawCancelled (r : Bool) : LeaseEvent := ⟨.cancelled, r⟩

def deletedClaim (c : StepKey) (rev : ℕ) (r : WriteRes) : LeaseEvent :=
  ⟨.kv (.deleteAt (.claim c) rev), r⟩

def Failed : LeaseEvent → Prop
  | ⟨.kv op, r⟩ => op.Failed r
  | ⟨.now, _⟩ | ⟨.cancelled, _⟩ => False

def lostRace : LeaseEvent → Bool
  | ⟨.kv (.create ..), r⟩ | ⟨.kv (.update ..), r⟩ => WriteRes.isConflict r
  | _ => false

/-- The renewal a read of its key came to; a failed read comes to none. -/
def renewalRead : GetRes RenewRecord → Option (Option RenewRecord)
  | .found rn _ => some (some rn)
  | .notFound => some none
  | .failed => none

/-- The key and record a claim or an offer made at time `t` writes. -/
def Call.takes (t : ℤ) : Call → Option (StepKey × ClaimRecord)
  | .claim tenantID runID stepID attempt ttl => make tenantID runID stepID attempt ttl false
  | .offer tenantID runID stepID attempt ttl => make tenantID runID stepID attempt ttl true
  | _ => none
where
  make (tenantID runID stepID : String) (attempt : ℕ) (ttl : ℤ) (offered : Bool) :
      Option (StepKey × ClaimRecord) :=
    match claimKey tenantID runID stepID with
    | .error _ => none
    | .ok key => some (key, { tenantID, runID, stepID, attempt, ttlNanos := ttl,
                              expiresAt := t + ttl, offered })

/-- A call may delete a claim it read at this revision: a withdrawal of an offer without
a holder, a sweep of a lease past its deadline. -/
def MayDelete (call : Call) (h : List LeaseEvent) (c : StepKey) (rev : ℕ) : Prop :=
  ∃ r seen renewal, renewalRead seen = some renewal ∧
    ((call = .withdraw ⟨c, rev⟩ ∧ [sawClaim c (.found r rev), sawRenewal c seen] <:+ h ∧
        (deadlineOf rev r renewal).2 = false) ∨
      (call = .expire ∧ ∃ t, [sawClaim c (.found r rev), sawRenewal c seen, sawNow t] <:+ h ∧
        (deadlineOf rev r renewal).2 = true ∧ (deadlineOf rev r renewal).1 < t))

/-- What a call has seen when it makes an event. -/
def Justified (call : Call) (h : List LeaseEvent) : LeaseEvent → Prop
  | ⟨.kv (.create (.claim c) data), _⟩ =>
    (∃ t, call.takes t = some (c, data)) ∧ [sawClaim c .notFound] <:+ h
  | ⟨.kv (.update (.claim c) data rev), _⟩ =>
    (∃ t, call.takes t = some (c, data)) ∧
      ∃ r, [sawClaim c (.found r rev)] <:+ h ∧ r.attempt < data.attempt
  | ⟨.kv (.put (.renew c) rn), _⟩ =>
    call = .renew ⟨c, rn.fence⟩ ∧
      ∃ r t, [sawClaim c (.found r rn.fence), sawNow t] <:+ h ∧ rn.expiresAt = t + r.ttlNanos
  | ⟨.kv (.deleteAt (.claim c) rev), _⟩ => MayDelete call h c rev
  | ⟨.kv (.delete (.renew c)), _⟩ =>
    call = .expire ∧ ∃ rev rev', [deletedClaim c rev (.ok rev')] <:+ h
  | ⟨.kv (.get _), _⟩ | ⟨.kv .listKeys, _⟩ | ⟨.now, _⟩ | ⟨.cancelled, _⟩ => True
  | ⟨.kv (.create (.renew _) _), _⟩ | ⟨.kv (.update (.renew _) _ _), _⟩
  | ⟨.kv (.put (.claim _) _), _⟩ | ⟨.kv (.delete (.claim _)), _⟩
  | ⟨.kv (.deleteAt (.renew _) _), _⟩ => False

/-- What a call has seen when it returns a reply. -/
def Answered (call : Call) (h : List LeaseEvent) : Reply → Prop
  | .token (.ok t) => ∃ data at_, call.takes at_ = some (t.value, data) ∧
      (createdClaim t.value data (.ok t.fence) ∈ h ∨
        ∃ rev, updatedClaim t.value data rev (.ok t.fence) ∈ h)
  | .done (.ok _) =>
    (∀ t, call = .renew t → ∃ r at_ rev, [sawClaim t.value (.found r t.fence), sawNow at_,
        wroteRenewal t.value ⟨t.fence, at_ + r.ttlNanos⟩ (.ok rev)] <:+ h) ∧
      ∀ t, call = .validate t → ∃ r, [sawClaim t.value (.found r t.fence)] <:+ h
  | _ => True

variable {α : Type} {G : List LeaseEvent → LeaseEvent → Prop} {h : List LeaseEvent}

/-! ### The calls of the bucket -/

variable {c : StepKey} {data : ClaimRecord} {rn : RenewRecord} {rev : ℕ}
  {Q : List LeaseEvent → α → Prop}

theorem wp_getClaim {f : GetRes ClaimRecord → LeaseProg α} : wp G (getClaim c >>= f) Q h ↔
      ∀ r, G h (sawClaim c r) ∧ wp G (f r) Q (h ++ [sawClaim c r]) := Iff.rfl

variable {f : WriteRes → LeaseProg α}

theorem wp_createClaim : wp G (createClaim c data >>= f) Q h ↔
      ∀ r, G h (createdClaim c data r) ∧ wp G (f r) Q (h ++ [createdClaim c data r]) := Iff.rfl

theorem wp_updateClaim : wp G (updateClaim c data rev >>= f) Q h ↔
      ∀ r, G h (updatedClaim c data rev r) ∧
        wp G (f r) Q (h ++ [updatedClaim c data rev r]) := Iff.rfl

theorem wp_putRenewal : wp G (putRenewal c rn >>= f) Q h ↔
      ∀ r, G h (wroteRenewal c rn r) ∧ wp G (f r) Q (h ++ [wroteRenewal c rn r]) := Iff.rfl

theorem wp_deleteClaimAt : wp G (deleteClaimAt c rev >>= f) Q h ↔
      ∀ r, G h (deletedClaim c rev r) ∧ wp G (f r) Q (h ++ [deletedClaim c rev r]) := Iff.rfl

theorem wp_now {f : ℤ → LeaseProg α} :
    wp G (now >>= f) Q h ↔ ∀ t, G h (sawNow t) ∧ wp G (f t) Q (h ++ [sawNow t]) := Iff.rfl

theorem wp_cancelled {f : Bool → LeaseProg α} : wp G (cancelled >>= f) Q h ↔
      ∀ r, G h (sawCancelled r) ∧ wp G (f r) Q (h ++ [sawCancelled r]) := Iff.rfl

/-! ### The operations -/

theorem wp_current {t : Token} {Q : List LeaseEvent → Except LeaseErr ClaimRecord → Prop}
    (hG : ∀ r, G h (sawClaim t.value r))
    (hok : ∀ r, Q (h ++ [sawClaim t.value (.found r t.fence)]) (.ok r))
    (he : ∀ g e, (e = .fenced ∨ ∃ d ∈ g, Failed d) → Q (h ++ g) (.error e)) :
    wp G (current t) Q h := by
  unfold current
  split
  · simpa using he [] .fenced (.inl rfl)
  · rw [wp_getClaim]
    intro r
    refine ⟨hG r, ?_⟩
    rcases r with ⟨rec, rev⟩ | _ | _
    · dsimp only
      split
      · rename_i hr
        subst hr
        exact hok rec
      · exact he _ _ (.inl rfl)
    · exact he _ _ (.inl rfl)
    · exact he _ _ (.inr ⟨_, mem_singleton_self _, rfl⟩)

variable {key : StepKey}

theorem wp_deadline {fc : ℕ} {r : ClaimRecord}
    {Q : List LeaseEvent → Except LeaseErr (ℤ × Bool) → Prop} (hG : ∀ x, G h (sawRenewal key x))
    (hok : ∀ seen renewal, renewalRead seen = some renewal →
      Q (h ++ [sawRenewal key seen]) (.ok (deadlineOf fc r renewal)))
    (he : ∀ g e, Q (h ++ g) (.error e)) : wp G (deadline key fc r) Q h := by
  intro seen
  refine ⟨hG seen, ?_⟩
  rcases seen with ⟨rn, rev⟩ | _ | _
  · exact hok (.found rn rev) (some rn) rfl
  · exact hok .notFound none rfl
  · exact he _ _

/-- Why a take gives up: the step is leased for this attempt already, a call failed, or it
lost every race it may lose. -/
def GaveUp (races : ℕ) (g : List LeaseEvent) (e : LeaseErr) : Prop :=
  e = .alreadyOffered ∨ (∃ d ∈ g, Failed d) ∨ races ≤ g.countP lostRace

/-- The loop writes over what it has just read, and returns the revision of a write. -/
theorem wp_takeLoop {data : ClaimRecord} {Q : List LeaseEvent → Except LeaseErr Token → Prop}
    {n : ℕ} (hg : ∀ g r, G (h ++ g) (sawClaim key r))
    (hcr : ∀ g r, G (h ++ g ++ [sawClaim key .notFound]) (createdClaim key data r))
    (hup : ∀ g cur rev r, cur.attempt < data.attempt →
      G (h ++ g ++ [sawClaim key (.found cur rev)]) (updatedClaim key data rev r))
    (hc : ∀ g fc, Q (h ++ g ++ [createdClaim key data (.ok fc)]) (.ok ⟨key, fc⟩))
    (hu : ∀ g rev fc, Q (h ++ g ++ [updatedClaim key data rev (.ok fc)])
      (.ok ⟨key, fc⟩)) (he : ∀ g e, GaveUp n g e → Q (h ++ g) (.error e)) :
    wp G (takeLoop key data n) Q h := by
  suffices ∀ m g, n ≤ m + g.countP lostRace → wp G (takeLoop key data m) Q (h ++ g) by
    simpa using this n [] (by simp)
  intro m
  induction m with
  | zero => exact fun g hn => he g _ (.inr (.inr (by omega)))
  | succ m ih =>
    intro g hn
    rw [takeLoop, wp_getClaim]
    intro seen
    refine ⟨hg g seen, ?_⟩
    rcases seen with ⟨cur, rev⟩ | _ | _
    · dsimp only
      split
      · rw [append_assoc]
        exact he _ _ (.inl rfl)
      · rw [wp_updateClaim]
        intro r
        refine ⟨hup g cur rev r (by omega), ?_⟩
        rcases r with fc | _ | landed
        · have := hu (g ++ [sawClaim key (.found cur rev)]) rev fc
          rwa [← append_assoc] at this
        · rw [append_assoc, append_assoc]
          refine ih _ ?_
          exact hn.trans (by simp [lostRace, sawClaim, updatedClaim, WriteRes.isConflict]; omega)
        · rw [append_assoc, append_assoc]
          exact he _ _ (.inr (.inl ⟨updatedClaim key data rev (.failed landed), by simp, rfl⟩))
    · rw [wp_createClaim]
      intro r
      refine ⟨hcr g r, ?_⟩
      rcases r with fc | _ | landed
      · have := hc (g ++ [sawClaim key .notFound]) fc
        rwa [← append_assoc] at this
      · rw [append_assoc, append_assoc]
        refine ih _ ?_
        exact hn.trans (by simp [lostRace, sawClaim, createdClaim, WriteRes.isConflict]; omega)
      · rw [append_assoc, append_assoc]
        exact he _ _ (.inr (.inl ⟨createdClaim key data (.failed landed), by simp, rfl⟩))
    · rw [append_assoc]
      exact he _ _ (.inr (.inl ⟨sawClaim key .failed, by simp, rfl⟩))

/-! ### What every call does -/

variable {tid rid sid : String} {att : ℕ} {offered : Bool}

theorem wp_take {call : Call} {ttl : ℤ} {Q : List LeaseEvent → Except LeaseErr Token → Prop}
    (hca : ∀ t, call.takes t = Call.takes.make t tid rid sid att ttl offered)
    (hc : ∀ g key data at_ fc, call.takes at_ = some (key, data) →
      Q (h ++ g ++ [createdClaim key data (.ok fc)]) (.ok ⟨key, fc⟩))
    (hu : ∀ g key data at_ rev fc, call.takes at_ = some (key, data) →
      Q (h ++ g ++ [updatedClaim key data rev (.ok fc)]) (.ok ⟨key, fc⟩))
    (he : ∀ g e, (claimKey tid rid sid = .error e ∨ ttl ≤ 0 ∨
      GaveUp maxOfferRaces g e) → Q (h ++ g) (.error e)) :
    wp (Justified call) (take tid rid sid att ttl offered) Q h := by
  unfold take record
  cases hk : claimKey tid rid sid with
  | error e => simpa using he [] e (.inl hk)
  | ok key =>
    dsimp only
    split
    · simpa using he [] .ttlNotPositive (.inr (.inl (by assumption)))
    rw [wp_bind, wp_now]
    intro t
    refine ⟨trivial, ?_⟩
    have ht : call.takes t = some (key,
        { tenantID := tid, runID := rid, stepID := sid, attempt := att, ttlNanos := ttl,
          expiresAt := t + ttl, offered }) := by
      rw [hca, Call.takes.make, hk]
    apply wp_takeLoop
    · intros
      trivial
    · exact fun g r => ⟨⟨t, ht⟩, suffix_append _ _⟩
    · exact fun g cur rev r hlt => ⟨⟨t, ht⟩, cur, suffix_append _ _, hlt⟩
    · intro g fc
      have := hc ([sawNow t] ++ g) key _ t fc ht
      rwa [← append_assoc] at this
    · intro g rev fc
      have := hu ([sawNow t] ++ g) key _ t rev fc ht
      rwa [← append_assoc] at this
    · intro g e hg
      rw [append_assoc]
      refine he _ e (.inr (.inr (hg.imp_right (Or.imp ?_ ?_))))
      · exact fun ⟨d, hd, hf⟩ => ⟨d, mem_append_right _ hd, hf⟩
      · rw [countP_append]
        omega

theorem wp_take_answered {call : Call} {ttl : ℤ}
    (hc : ∀ t, call.takes t = Call.takes.make t tid rid sid att ttl offered) :
    wp (Justified call) (take tid rid sid att ttl offered)
      (fun g r => Answered call g (.token r)) h := by
  apply wp_take hc
  · exact fun g key data at_ fe ht => ⟨data, at_, ht, .inl (by simp)⟩
  · exact fun g key data at_ rev fe ht => ⟨data, at_, ht, .inr ⟨rev, by simp⟩⟩
  · intros
    trivial

variable {t : Token}

theorem wp_renew :
    wp (Justified (.renew t)) (renew t) (fun g r => Answered (.renew t) g (.done r)) h := by
  rw [renew, wp_bind]
  apply wp_current
  · exact fun _ => trivial
  · intro r
    rw [wp_now]
    intro at_
    refine ⟨trivial, ?_⟩
    rw [wp_putRenewal]
    intro res
    refine ⟨⟨rfl, r, at_, by simp, rfl⟩, ?_⟩
    rcases res with rev | _ | _
    · refine ⟨?_, by simp⟩
      rintro t' ⟨⟩
      exact ⟨r, at_, rev, by simp⟩
    · trivial
    · trivial
  · exact fun _ _ _ => trivial

theorem wp_validate {Q : List LeaseEvent → Except LeaseErr Unit → Prop}
    (hok : ∀ r, Q (h ++ [sawClaim t.value (.found r t.fence)]) (.ok ()))
    (he : ∀ g e, (e = .fenced ∨ ∃ d ∈ g, Failed d) → Q (h ++ g) (.error e)) :
    wp (Justified (.validate t)) (validate t) Q h := by
  rw [validate, wp_bind]
  apply wp_current
  · exact fun _ => trivial
  · exact hok
  · exact he

theorem wp_withdraw :
    wp (Justified (.withdraw t)) (withdraw t) (fun g r => Answered (.withdraw t) g (.done r)) h := by
  rw [withdraw, wp_bind]
  apply wp_current
  · exact fun _ => trivial
  · intro r
    rw [wp_bind]
    apply wp_deadline
    · exact fun _ => trivial
    · intro seen re hr
      dsimp only
      split
      · trivial
      rename_i hf
      intro res
      refine ⟨⟨r, seen, re, hr, .inl ⟨rfl, by simp, by simpa using hf⟩⟩, ?_⟩
      rcases res with rev | _ | _
      · exact ⟨by simp, by simp⟩
      · trivial
      · trivial
    · exact fun _ _ => trivial
  · exact fun _ _ _ => trivial

/-- The orphan is the claim the sweep read and deleted. -/
def Swept (g : List LeaseEvent) (orphan : Orphan) : Prop :=
  ∃ c r rev, sawClaim c (.found r rev) ∈ g ∧
    orphan = ⟨r.tenantID, r.runID, r.stepID, r.attempt, rev⟩

theorem Swept.mono {g g' : List LeaseEvent} {orphan : Orphan} (hs : Swept g orphan)
    (hsu : g ⊆ g') : Swept g' orphan := by
  obtain ⟨c, r, rev, hsa, ho⟩ := hs
  exact ⟨c, r, rev, hsu hsa, ho⟩

theorem wp_expireOne {c : StepKey} : wp (Justified .expire) (expireOne c)
      (fun g r => ∀ orphan, r = .ok (some orphan) → Swept g orphan) h := by
  rw [expireOne, wp_getClaim]
  intro seen
  refine ⟨trivial, ?_⟩
  rcases seen with ⟨r, rev⟩ | _ | _
  · rw [wp_bind]
    apply wp_deadline
    · exact fun _ => trivial
    · intro seen re hr
      dsimp only
      split
      · rintro orphan ⟨⟩
      rename_i hh
      rw [wp_now]
      intro at_
      refine ⟨trivial, ?_⟩
      split
      · rintro orphan ⟨⟩
      rw [wp_deleteClaimAt]
      intro res
      have hm : MayDelete .expire
          (h ++ [sawClaim c (.found r rev)] ++ [sawRenewal c seen] ++ [sawNow at_]) c rev :=
        ⟨r, seen, re, hr, .inr ⟨rfl, at_, by simp, by simpa using hh, by omega⟩⟩
      refine ⟨hm, ?_⟩
      rcases res with rev' | _ | _
      · refine fun _ => ⟨⟨rfl, rev, rev', suffix_append _ _⟩, ?_⟩
        rintro orphan ⟨⟩
        exact ⟨c, r, rev, by simp, rfl⟩
      · rintro orphan ⟨⟩
      · rintro orphan ⟨⟩
    · rintro _ _ orphan ⟨⟩
  · rintro orphan ⟨⟩
  · rintro orphan ⟨⟩

theorem wp_expireKeys (keys : List Key) (orphans : List Orphan)
    (hor : ∀ orphan ∈ orphans, Swept h orphan) :
    wp (Justified .expire) (expireKeys keys orphans) (fun g r => ∀ orphan ∈ r.1, Swept g orphan) h := by
  induction keys generalizing h orphans with
  | nil => exact hor
  | cons key keys ih =>
    have hk : ∀ g, ∀ orphan ∈ orphans, Swept (h ++ g) orphan := fun g orphan ho =>
      (hor orphan ho).mono (subset_append_left _ _)
    unfold expireKeys
    rw [wp_cancelled]
    intro stop
    refine ⟨trivial, ?_⟩
    split
    · exact hk _
    cases key with
    | renew c => exact ih _ (hk _)
    | claim c =>
      rw [wp_bind]
      refine wp_mono wp_expireOne fun g r hr => ?_
      rw [append_assoc] at hr ⊢
      rcases r with e | _ | orphan
      · exact fun orphan ho => by cases ho
      · exact ih _ (hk _)
      · refine ih _ fun o ho => ?_
        rcases mem_append.mp ho with ho | ho
        · exact hk _ o ho
        · obtain rfl : o = orphan := by simpa using ho
          exact hr o rfl

theorem wp_expire :
    wp (Justified .expire) expire (fun g r => ∀ orphan ∈ r.1, Swept g orphan) h := by
  intro keys
  refine ⟨trivial, ?_⟩
  rcases keys with _ | keys
  · exact fun orphan ho => nomatch ho
  · exact wp_expireKeys keys [] (by simp)

theorem wp_unacceptedKeys (keys : List Key) (waiting : List Waiting) :
    wp (Justified .unaccepted) (unacceptedKeys keys waiting) (fun _ _ => True) h := by
  induction keys generalizing h waiting with
  | nil => trivial
  | cons key keys ih =>
    unfold unacceptedKeys
    rw [wp_cancelled]
    intro stop
    refine ⟨trivial, ?_⟩
    split
    · trivial
    cases key with
    | renew c => exact ih _
    | claim c =>
      rw [wp_getClaim]
      intro seen
      refine ⟨trivial, ?_⟩
      rcases seen with ⟨r, rev⟩ | _ | _
      · dsimp only
        split
        · exact ih _
        rw [wp_bind]
        apply wp_deadline
        · exact fun _ => trivial
        · intro seen re _
          dsimp only
          split
          · exact ih _
          · exact ih _
        · exact fun _ _ => trivial
      · exact ih _
      · trivial

theorem wp_unaccepted : wp (Justified .unaccepted) unaccepted (fun _ _ => True) h := by
  intro keys
  refine ⟨trivial, ?_⟩
  rcases keys with _ | keys
  · trivial
  · exact wp_unacceptedKeys keys []

/-- Every call justifies the events it makes and the reply it gives. -/
theorem Call.wp_prog (call : Call) : wp (Justified call) call.prog (Answered call) h := by
  cases call with
  | claim tid rid sid att ttl | offer tid rid sid att ttl =>
    rw [Call.prog, map_eq, wp_bind]
    exact wp_take_answered fun _ => rfl
  | renew t =>
    rw [Call.prog, map_eq, wp_bind]
    exact wp_renew
  | validate t =>
    rw [Call.prog, map_eq, wp_bind]
    refine wp_validate (fun r => ⟨by simp, ?_⟩) fun _ _ _ => trivial
    rintro t' ⟨⟩
    exact ⟨r, suffix_append _ _⟩
  | expire =>
    rw [Call.prog, map_eq, wp_bind]
    exact wp_mono wp_expire fun _ _ _ => trivial
  | unaccepted =>
    rw [Call.prog, map_eq, wp_bind]
    exact wp_unaccepted
  | withdraw t =>
    rw [Call.prog, map_eq, wp_bind]
    exact wp_withdraw

end Dhole.Lease
