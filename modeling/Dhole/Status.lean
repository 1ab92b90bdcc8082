import Dhole.Codecs
import Dhole.Outbox

/-! What a status may decide. The fence of a status is a text that carries a key of the lease
bucket, and the status is applied when that key is at the revision in the fence. Nothing compares
the key with the run and the step of the status, or the attempt of what is stored there with its
attempt. So the fence of any live lease lets any step be decided, and so does one that is made
from the key of a renewal. -/

namespace Dhole.System

def Payload.isVerdict : Payload → Bool
  | .stepSucceeded _ | .stepFailed => true
  | _ => false

theorem isVerdict_of_inert {pa : Payload} (h : pa.inert = true) : Payload.isVerdict pa = false := by
  cases pa <;> first | rfl | cases h

end Dhole.System

namespace Dhole.Status

open Wire Codecs Lease
open Plane (JobStatus)
open Scheduler (terminalEvent)

/-! ### The check -/

inductive Entry where
  | claim (r : ClaimRecord)
  | renewal (r : RenewRecord)
  | other

/-- A renewal decodes as a claim too, without the fields it lacks. -/
def Entry.claimRecord : Entry → Option ClaimRecord
  | .claim r => some r
  | .renewal r => some ⟨"", "", "", 0, 0, r.expiresAt, false⟩
  | .other => none

abbrev Bucket := Bytes → KV.GetRes Entry

def current (kv : Bucket) (t : Codecs.Token) : Except LeaseErr ClaimRecord :=
  if t.value = [] ∨ t.fence = 0 then .error .fenced
  else
    match kv t.value with
    | .notFound => .error .fenced
    | .failed => .error .unavailable
    | .found e revision =>
      if revision ≠ t.fence.toNat then .error .fenced
      else match e.claimRecord with
        | none => .error .unavailable
        | some record => .ok record

inductive StatusErr where
  | fence (e : FenceErr)
  | tenantRequired
  | validating (e : LeaseErr)
  | load

/-- The tenant and the payload of the event that is appended for the run, the step and the attempt
of the status, if one is. -/
def onStatus (kv : Bucket) (load : Bytes → String → Option RunState) (st : JobStatus String) :
    Except StatusErr (Option (Bytes × Payload)) :=
  match Codecs.decodeFence st.fence with
  | .error e => .error (.fence e)
  | .ok (tenantID, token) =>
    if tenantID = [] then .error .tenantRequired
    else
      match current kv token with
      | .error .fenced => .ok none
      | .error e => .error (.validating e)
      | .ok _ =>
        match terminalEvent st with
        | none => .ok none
        | some payload =>
          match load tenantID st.runID with
          | none => .error .load
          | some state =>
            if (state.terminal st.stepID).isSome then .ok none else .ok (some (tenantID, payload))

/-! ### What it lets in -/

def IsKeyOf (tenantID : Bytes) (st : JobStatus String) (key : Bytes) : Prop :=
  ∃ text, claimKey tenantID (utf8 st.runID) (utf8 st.stepID) = .ok text ∧ key = utf8 text

/-- The fence is a token that is current for the lease key of the very attempt reported. -/
def FencedTo (kv : Bucket) (tenantID : Bytes) (st : JobStatus String) : Prop :=
  ∃ token r, Codecs.decodeFence st.fence = .ok (tenantID, token) ∧ IsKeyOf tenantID st token.value ∧
    current kv token = .ok r ∧ kv token.value = .found (.claim r) token.fence.toNat ∧
    r.attempt = st.attempt

/-- The key in the fence is the one of what the status reports, and what is stored there is the
claim of the attempt it reports. -/
def NamesItsLease (kv : Bucket) (st : JobStatus String) : Prop :=
  ∀ tenantID token, Codecs.decodeFence st.fence = .ok (tenantID, token) →
    IsKeyOf tenantID st token.value ∧ ∀ e revision, kv token.value = .found e revision →
      ∃ r, e = .claim r ∧ r.attempt = st.attempt

variable {kv : Bucket} {load : Bytes → String → Option RunState} {st : JobStatus String} {tid : Bytes}
  {pa : Payload} {t : Codecs.Token} {r : ClaimRecord}

theorem current_ok (h : current kv t = .ok r) :
    ∃ e, kv t.value = .found e t.fence.toNat ∧ e.claimRecord = some r := by
  unfold current at h
  split at h
  · cases h
  · split at h
    · cases h
    · cases h
    · rename_i e revision he
      split at h
      · cases h
      · rename_i hr
        split at h <;> cases h
        exact ⟨e, by rw [he, not_not.mp hr], ‹_›⟩

theorem current_of_onStatus (h : onStatus kv load st = .ok (some (tid, pa))) :
    ∃ token r, Codecs.decodeFence st.fence = .ok (tid, token) ∧ current kv token = .ok r := by
  unfold onStatus at h
  split at h
  · cases h
  · rename_i tenantID token hd
    split at h
    · cases h
    · split at h
      · cases h
      · cases h
      · rename_i r hc
        split at h
        · cases h
        · split at h
          · cases h
          · split at h <;> cases h
            exact ⟨token, r, hd, hc⟩

/-- A verdict that a status brings is fenced to the attempt it decides exactly where the status
names what its lease is for. -/
theorem status_fenced_iff (kv : Bucket) (load : Bytes → String → Option RunState) (st : JobStatus String)
    (tenantID : Bytes) (payload : Payload)
    (happends : onStatus kv load st = .ok (some (tenantID, payload))) :
    FencedTo kv tenantID st ↔ NamesItsLease kv st := by
  constructor
  · rintro ⟨token, r, hd, hk, -, he, ha⟩ tenantID' token' hd'
    cases hd.symm.trans hd'
    refine ⟨hk, fun e revision he' => ⟨r, ?_, ha⟩⟩
    cases he.symm.trans he'
    rfl
  · intro hn
    obtain ⟨token, r, hd, hc⟩ := current_of_onStatus happends
    obtain ⟨e, he, hr⟩ := current_ok hc
    obtain ⟨hk, hcl⟩ := hn tenantID token hd
    obtain ⟨r', rfl, ha⟩ := hcl e _ he
    cases hr
    exact ⟨token, r, hd, hk, hc, he, ha⟩

/-! ### One step's fence on another step's status -/

/-- The keys of the claims of two steps of a run, and of the renewal of the first one. -/
def keyA : Bytes := utf8 "lease.YWNtZQ.cnVu.YQ"

def keyB : Bytes := utf8 "lease.YWNtZQ.cnVu.Yg"

def renewA : Bytes := utf8 "renew.YWNtZQ.cnVu.YQ"

def claimOf (stepID : String) : ClaimRecord := ⟨"acme", "run", stepID, 1, 30, 60, true⟩

def bothDispatched : Bucket := fun key =>
  if key = keyA then .found (.claim (claimOf "a")) 1
  else if key = keyB then .found (.claim (claimOf "b")) 2
  else if key = renewA then .found (.renewal ⟨1, 90⟩) 3
  else .notFound

def statusOfA (key : Bytes) (fence : UInt64) : JobStatus String where
  runID := "run"
  stepID := "a"
  attempt := 1
  phase := .succeeded
  fence := Codecs.encodeFence (utf8 "acme") ⟨key, fence⟩

def undecided (_ : Bytes) (_ : String) : Option RunState := some {}

theorem fence_statusOfA (key : Bytes) (fence : UInt64) :
    Codecs.decodeFence (statusOfA key fence).fence = .ok (utf8 "acme", ⟨key, fence⟩) :=
  decodeFence_encodeFence _ _

theorem isKeyOf_statusOfA {key k : Bytes} {fence : UInt64} :
    IsKeyOf (utf8 "acme") (statusOfA key fence) k ↔ k = keyA := by
  have hk : claimKey (utf8 "acme") (utf8 "run") (utf8 "a") = .ok "lease.YWNtZQ.cnVu.YQ" := by rfl
  simp [IsKeyOf, statusOfA, hk, keyA]

theorem onStatus_statusOfA {key : Bytes} {fence : UInt64} {r : ClaimRecord}
    (h : current bothDispatched ⟨key, fence⟩ = .ok r) :
    onStatus bothDispatched undecided (statusOfA key fence) =
      .ok (some (utf8 "acme", .stepSucceeded [])) := by
  have ht : utf8 "acme" ≠ [] := by decide
  simp only [onStatus, fence_statusOfA, h]
  rfl

theorem not_fencedTo_statusOfA {key : Bytes} {fence : UInt64} (hne : key ≠ keyA) :
    ¬ FencedTo bothDispatched (utf8 "acme") (statusOfA key fence) := by
  rintro ⟨token, r, hd, hk, -⟩
  cases (fence_statusOfA key fence).symm.trans hd
  exact hne (isKeyOf_statusOfA.mp hk)

/-- The status of `a` decides `a` with the fence of `b`, and with one made from a renewal. -/
theorem statusOfA_by_b_not_fenced :
    (onStatus bothDispatched undecided (statusOfA keyB 2) =
        .ok (some (utf8 "acme", .stepSucceeded [])) ∧
      ¬ FencedTo bothDispatched (utf8 "acme") (statusOfA keyB 2)) ∧
    onStatus bothDispatched undecided (statusOfA renewA 3) =
        .ok (some (utf8 "acme", .stepSucceeded [])) ∧
      ¬ FencedTo bothDispatched (utf8 "acme") (statusOfA renewA 3) :=
  ⟨⟨onStatus_statusOfA rfl, not_fencedTo_statusOfA (by decide)⟩,
    onStatus_statusOfA rfl, not_fencedTo_statusOfA (by decide)⟩

theorem statusOfA_by_a_fenced : FencedTo bothDispatched (utf8 "acme") (statusOfA keyA 1) := by
  refine (status_fenced_iff bothDispatched undecided _ _ _
    (onStatus_statusOfA rfl)).mpr fun tenantID token hd => ?_
  cases (fence_statusOfA keyA 1).symm.trans hd
  refine ⟨isKeyOf_statusOfA.mpr rfl, fun e revision he => ⟨claimOf "a", ?_, rfl⟩⟩
  cases he
  rfl

end Dhole.Status
