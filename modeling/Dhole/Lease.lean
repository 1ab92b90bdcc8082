import Dhole.KV

/-! The lease manager on a key-value bucket. A step's claim and its renewals live under
two keys; the revision of the claim is the fence its holder carries. Every operation
below is several calls on the bucket, in the order the code makes them, so an operation
of another plane can fall between any two of them. Keys are the triple they encode, and
a value is the record stored under its kind of key. -/

namespace Dhole.Lease

open Interleave Prog KV

/-- The step a claim key names. The zero value is the empty key. -/
structure StepKey where
  tenant : String := ""
  run : String := ""
  step : String := ""
deriving DecidableEq

inductive Key where
  | claim (c : StepKey)
  | renew (c : StepKey)
deriving DecidableEq

structure ClaimRecord where
  tenantID : String
  runID : String
  stepID : String
  attempt : ℕ
  ttlNanos : ℤ
  expiresAt : ℤ
  offered : Bool
deriving DecidableEq

/-- A renewal names the fence it belongs to. -/
structure RenewRecord where
  fence : ℕ
  expiresAt : ℤ
deriving DecidableEq

def Val : Key → Type
  | .claim _ => ClaimRecord
  | .renew _ => RenewRecord

/-- The calls of the lease manager: the bucket, the plane's clock, and whether the
caller's context has ended. -/
inductive Op where
  | kv (op : KV.Op Key Val)
  | now
  | cancelled

def leaseSig : Sig where
  Op := Op
  Res
    | .kv op => op.Res
    | .now => ℤ
    | .cancelled => Bool

abbrev LeaseProg := Prog leaseSig

def getClaim (c : StepKey) : LeaseProg (GetRes ClaimRecord) :=
  perform (S := leaseSig) (.kv (.get (.claim c)))

def getRenewal (c : StepKey) : LeaseProg (GetRes RenewRecord) :=
  perform (S := leaseSig) (.kv (.get (.renew c)))

def createClaim (c : StepKey) (r : ClaimRecord) : LeaseProg WriteRes :=
  perform (S := leaseSig) (.kv (.create (.claim c) r))

def updateClaim (c : StepKey) (r : ClaimRecord) (rev : ℕ) : LeaseProg WriteRes :=
  perform (S := leaseSig) (.kv (.update (.claim c) r rev))

def putRenewal (c : StepKey) (r : RenewRecord) : LeaseProg WriteRes :=
  perform (S := leaseSig) (.kv (.put (.renew c) r))

def deleteClaimAt (c : StepKey) (rev : ℕ) : LeaseProg WriteRes :=
  perform (S := leaseSig) (.kv (.deleteAt (.claim c) rev))

def deleteRenewal (c : StepKey) : LeaseProg WriteRes :=
  perform (S := leaseSig) (.kv (.delete (.renew c)))

def listKeys : LeaseProg (Option (List Key)) := perform (S := leaseSig) (.kv .listKeys)

def now : LeaseProg ℤ := perform (S := leaseSig) .now

def cancelled : LeaseProg Bool := perform (S := leaseSig) .cancelled

/-! ### Tokens, orphans and errors -/

structure Token where
  value : StepKey := {}
  fence : ℕ := 0
deriving DecidableEq

structure Orphan where
  tenantID : String
  runID : String
  stepID : String
  attempt : ℕ
  fence : ℕ
deriving DecidableEq

structure Waiting where
  tenantID : String
  runID : String
  stepID : String
  attempt : ℕ
  fence : ℕ
  offeredAt : ℤ
deriving DecidableEq

inductive LeaseErr where
  | fenced
  | alreadyOffered
  | tenantRequired
  | runAndStepRequired
  | ttlNotPositive
  | keptChanging
  | unavailable
  | cancelled
deriving DecidableEq

def claimKey (tenantID runID stepID : String) : Except LeaseErr StepKey :=
  if tenantID = "" then .error .tenantRequired
  else if runID = "" ∨ stepID = "" then .error .runAndStepRequired
  else .ok ⟨tenantID, runID, stepID⟩

def Waiting.token (w : Waiting) : Token :=
  match claimKey w.tenantID w.runID w.stepID with
  | .ok key => ⟨key, w.fence⟩
  | .error _ => ⟨{}, w.fence⟩

/-! ### Taking a lease -/

/-- The key and the record a claim or an offer writes. -/
def record (tenantID runID stepID : String) (attempt : ℕ) (ttl : ℤ) (offered : Bool) :
    LeaseProg (Except LeaseErr (StepKey × ClaimRecord)) :=
  match claimKey tenantID runID stepID with
  | .error e => pure (.error e)
  | .ok key =>
    if ttl ≤ 0 then pure (.error .ttlNotPositive)
    else do
      let t ← now
      pure (.ok (key, { tenantID, runID, stepID, attempt, ttlNanos := ttl, expiresAt := t + ttl,
                        offered }))

/-- What a compare-and-set comes to: a lost race reads again. -/
def settleTake (key : StepKey) (retry : LeaseProg (Except LeaseErr Token)) :
    WriteRes → LeaseProg (Except LeaseErr Token)
  | .ok fence => pure (.ok ⟨key, fence⟩)
  | .conflict => retry
  | .failed _ => pure (.error .unavailable)

/-- The compare-and-set loop of `take`, over the races it may still lose. -/
def takeLoop (key : StepKey) (data : ClaimRecord) : ℕ → LeaseProg (Except LeaseErr Token)
  | 0 => pure (.error .keptChanging)
  | n + 1 => do
    match ← getClaim key with
    | .failed => pure (.error .unavailable)
    | .notFound => settleTake key (takeLoop key data n) (← createClaim key data)
    | .found current rev =>
      if current.attempt ≥ data.attempt then pure (.error .alreadyOffered)
      else settleTake key (takeLoop key data n) (← updateClaim key data rev)

def maxOfferRaces : ℕ := 8

def take (tenantID runID stepID : String) (attempt : ℕ) (ttl : ℤ) (offered : Bool) :
    LeaseProg (Except LeaseErr Token) := do
  match ← record tenantID runID stepID attempt ttl offered with
  | .error e => pure (.error e)
  | .ok (key, data) => takeLoop key data maxOfferRaces

def claim (tenantID runID stepID : String) (attempt : ℕ) (ttl : ℤ) :
    LeaseProg (Except LeaseErr Token) :=
  take tenantID runID stepID attempt ttl false

def offer (tenantID runID stepID : String) (attempt : ℕ) (ttl : ℤ) :
    LeaseProg (Except LeaseErr Token) :=
  take tenantID runID stepID attempt ttl true

/-! ### Holding a lease -/

/-- The claim a token names, if the token is the current lease. -/
def current (t : Token) : LeaseProg (Except LeaseErr ClaimRecord) :=
  if t.value = {} ∨ t.fence = 0 then pure (.error .fenced)
  else do
    match ← getClaim t.value with
    | .notFound => pure (.error .fenced)
    | .failed => pure (.error .unavailable)
    | .found r rev => if rev = t.fence then pure (.ok r) else pure (.error .fenced)

/-- The renewal is written unconditionally, after the check. -/
def renew (t : Token) : LeaseProg (Except LeaseErr Unit) := do
  match ← current t with
  | .error e => pure (.error e)
  | .ok r =>
    let at_ ← now
    match ← putRenewal t.value { fence := t.fence, expiresAt := at_ + r.ttlNanos } with
    | .ok _ => pure (.ok ())
    | .conflict | .failed _ => pure (.error .unavailable)

def validate (t : Token) : LeaseProg (Except LeaseErr Unit) := do
  match ← current t with
  | .error e => pure (.error e)
  | .ok _ => pure (.ok ())

/-- The deadline of a claim under the renewal read beside it, and whether it has a
holder. Only a renewal of the same fence counts. -/
def deadlineOf (fence : ℕ) (r : ClaimRecord) : Option RenewRecord → ℤ × Bool
  | none => (r.expiresAt, !r.offered)
  | some renewal =>
    if renewal.fence ≠ fence then (r.expiresAt, !r.offered)
    else if r.offered ∨ renewal.expiresAt ≥ r.expiresAt then (renewal.expiresAt, true)
    else (r.expiresAt, true)

def deadline (key : StepKey) (fence : ℕ) (r : ClaimRecord) :
    LeaseProg (Except LeaseErr (ℤ × Bool)) := do
  match ← getRenewal key with
  | .notFound => pure (.ok (deadlineOf fence r none))
  | .failed => pure (.error .unavailable)
  | .found renewal _ => pure (.ok (deadlineOf fence r (some renewal)))

/-! ### Ending a lease -/

/-- Deletes the claim at the revision that was read. Losing the race is no error. -/
def expireOne (key : StepKey) : LeaseProg (Except LeaseErr (Option Orphan)) := do
  match ← getClaim key with
  | .notFound => pure (.ok none)
  | .failed => pure (.error .unavailable)
  | .found r rev =>
    match ← deadline key rev r with
    | .error e => pure (.error e)
    | .ok (limit, accepted) =>
      if !accepted then pure (.ok none)
      else
        let at_ ← now
        if at_ ≤ limit then pure (.ok none)
        else
          match ← deleteClaimAt key rev with
          | .conflict | .failed _ => pure (.ok none)
          | .ok _ =>
            let _ ← deleteRenewal key
            pure (.ok (some { tenantID := r.tenantID, runID := r.runID, stepID := r.stepID,
                              attempt := r.attempt, fence := rev }))

/-- The sweep over the keys listed; what an error or a cancelled context cuts off is
not looked at. -/
def expireKeys : List Key → List Orphan → LeaseProg (List Orphan × Option LeaseErr)
  | [], orphans => pure (orphans, none)
  | key :: keys, orphans => do
    if ← cancelled then pure (orphans, some .cancelled)
    else
      match key with
      | .renew _ => expireKeys keys orphans
      | .claim c =>
        match ← expireOne c with
        | .error e => pure ([], some e)
        | .ok none => expireKeys keys orphans
        | .ok (some orphan) => expireKeys keys (orphans ++ [orphan])

def expire : LeaseProg (List Orphan × Option LeaseErr) := do
  match ← listKeys with
  | none => pure ([], some .unavailable)
  | some keys => expireKeys keys []

def withdraw (t : Token) : LeaseProg (Except LeaseErr Unit) := do
  match ← current t with
  | .error e => pure (.error e)
  | .ok r =>
    match ← deadline t.value t.fence r with
    | .error e => pure (.error e)
    | .ok (_, accepted) =>
      if accepted then pure (.error .fenced)
      else
        match ← deleteClaimAt t.value t.fence with
        | .ok _ => pure (.ok ())
        | .conflict => pure (.error .fenced)
        | .failed _ => pure (.error .unavailable)

/-- The offers among the keys listed that no renewal has accepted. -/
def unacceptedKeys : List Key → List Waiting → LeaseProg (List Waiting × Option LeaseErr)
  | [], waiting => pure (waiting, none)
  | key :: keys, waiting => do
    if ← cancelled then pure (waiting, some .cancelled)
    else
      match key with
      | .renew _ => unacceptedKeys keys waiting
      | .claim c =>
        match ← getClaim c with
        | .notFound => unacceptedKeys keys waiting
        | .failed => pure ([], some .unavailable)
        | .found r rev =>
          if !r.offered then unacceptedKeys keys waiting
          else
            match ← deadline c rev r with
            | .error e => pure ([], some e)
            | .ok (_, accepted) =>
              if accepted then unacceptedKeys keys waiting
              else unacceptedKeys keys (waiting ++
                [{ tenantID := r.tenantID, runID := r.runID, stepID := r.stepID,
                   attempt := r.attempt, fence := rev, offeredAt := r.expiresAt - r.ttlNanos }])

def unaccepted : LeaseProg (List Waiting × Option LeaseErr) := do
  match ← listKeys with
  | none => pure ([], some .unavailable)
  | some keys => unacceptedKeys keys []

/-! ### The manager as a system -/

inductive Call where
  | claim (tenantID runID stepID : String) (attempt : ℕ) (ttl : ℤ)
  | offer (tenantID runID stepID : String) (attempt : ℕ) (ttl : ℤ)
  | renew (t : Token)
  | validate (t : Token)
  | expire
  | unaccepted
  | withdraw (t : Token)

inductive Reply where
  | token (r : Except LeaseErr Token)
  | done (r : Except LeaseErr Unit)
  | orphans (r : List Orphan × Option LeaseErr)
  | waiting (r : List Waiting × Option LeaseErr)

def Call.prog : Call → LeaseProg Reply
  | .claim tenantID runID stepID attempt ttl =>
    Reply.token <$> Lease.claim tenantID runID stepID attempt ttl
  | .offer tenantID runID stepID attempt ttl =>
    Reply.token <$> Lease.offer tenantID runID stepID attempt ttl
  | .renew t => Reply.done <$> Lease.renew t
  | .validate t => Reply.done <$> Lease.validate t
  | .expire => Reply.orphans <$> Lease.expire
  | .unaccepted => Reply.waiting <$> Lease.unaccepted
  | .withdraw t => Reply.done <$> Lease.withdraw t

/-- The bucket answers its calls; a clock and a context may answer anything. -/
def leaseWorld : World leaseSig where
  State := Bucket Key Val
  init := Bucket.empty
  Answers b
    | ⟨.kv op, r⟩ => KV.Answers b op r
    | ⟨.now, _⟩ => True
    | ⟨.cancelled, _⟩ => True
  next b
    | ⟨.kv op, r⟩ => KV.next b op r
    | ⟨.now, _⟩ => b
    | ⟨.cancelled, _⟩ => b

def resolve (clock : ℕ → ℤ) (keys : List Key) (n : ℕ) (b : Bucket Key Val) :
    (op : leaseSig.Op) → leaseSig.Res op
  | .kv op => KV.resolve keys b op
  | .now => clock n
  | .cancelled => false

theorem resolve_answers (clock : ℕ → ℤ) (keys : List Key) (n : ℕ) (b : leaseWorld.State)
    (op : leaseSig.Op) : leaseWorld.Answers b ⟨op, resolve clock keys n b op⟩ := by
  cases op with
  | kv op => exact KV.resolve_answers keys b op
  | now => trivial
  | cancelled => trivial

def run (calls : ℕ → Call) (clock : ℕ → ℤ) (keys : List Key) (schedule : List ℕ) :
    List (Act leaseSig) :=
  exec leaseWorld (resolve clock keys) (fun i => (calls i).prog) schedule

theorem run_reach (cs : ℕ → Call) (clock : ℕ → ℤ) (keys : List Key) (sch : List ℕ) :
    Reach leaseWorld (fun i => (cs i).prog) (run cs clock keys sch) :=
  exec_reach leaseWorld _ (resolve_answers clock keys) _ _

end Dhole.Lease
