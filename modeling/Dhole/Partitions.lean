import Dhole.Compose
import Dhole.Dag
import Dhole.KV
import Dhole.Moments

/-! The partition ring of a deployment. Runs are spread over partitions by a hash of their ids, and a
plane advances the runs of the partitions it holds. A claim is a record with a deadline under a key
of its own. In one pass a plane announces itself, reads who is there and who claims what, gives back
what is more than its share, renews the rest, takes what nobody live claims, and then replaces its
local view by what it has written. -/

namespace Dhole.Partitions

open Interleave Prog KV List

/-! ### Keys and records -/

inductive Key where
  | claim (deploymentID : String) (part : ℕ)
  | member (deploymentID instanceID : String)
deriving DecidableEq

structure Record where
  deploymentID : String
  instanceID : String
  partition : ℕ := 0
  expiresAt : ℤ
deriving DecidableEq

abbrev BucketOp := KV.Op Key fun _ => Record

abbrev Claims := Bucket Key fun _ => Record

def fnv1a (data : List UInt8) : ℕ :=
  data.foldl (fun hash b => (hash ^^^ b.toNat) * 1099511628211 % 2 ^ 64) 14695981039346656037

def partitionFor (runID : String) (n : ℕ) : ℕ :=
  if n = 0 then 0 else fnv1a runID.toUTF8.toList % n

inductive Op where
  | kv (op : BucketOp)
  | now
  | publish (parts : List ℕ)
  | forget (part : ℕ)

abbrev partSig : Sig where
  Op := Op
  Res
    | .kv op => op.Res
    | .now => ℤ
    | .publish _ => Unit
    | .forget _ => Unit

abbrev PartEvent := Interleave.Event partSig

/-- The bucket, and the time of the last look at the clock, which all planes share. -/
structure State where
  bucket : Claims := Bucket.empty
  clock : ℤ := 0

def answers (s : State) : PartEvent → Prop
  | ⟨.kv op, r⟩ => KV.Answers s.bucket op r
  | ⟨.now, t⟩ => s.clock ≤ t
  | _ => True

def next (s : State) : PartEvent → State
  | ⟨.kv op, r⟩ => { s with bucket := KV.next s.bucket op r }
  | ⟨.now, t⟩ => { s with clock := t }
  | _ => s

abbrev partWorld (init : State) : World partSig where
  State := State
  init := init
  Answers := answers
  next := next

/-! ### One pass -/

inductive Err where
  | instanceRequired
  | announcing (instanceID : String)
  | listing
  | reading (key : Key)
  | foreign (key : Key) (deploymentID : String)

abbrev PartM := Prog partSig

structure Ring where
  deploymentID : String
  count : ℕ
  ttl : ℤ
  count_pos : 0 < count
  ttl_pos : 0 < ttl

structure Ownership where
  holder : String
  expiresAt : ℤ
  revision : ℕ
deriving DecidableEq

abbrev Owners := ℕ → Option Ownership

def kv (op : BucketOp) : PartM op.Res := perform (S := partSig) (.kv op)

def expired (deadline : ℤ) : PartM Bool := do
  let t ← perform (S := partSig) .now
  pure (decide (deadline < t))

namespace Ring

variable (ρ : Ring)

def deadline : PartM ℤ := do
  let t ← perform (S := partSig) .now
  pure (t + ρ.ttl)

def announce (instanceID : String) : ExceptT Err PartM Unit := do
  let expiresAt ← ρ.deadline
  let rec' : Record := { deploymentID := ρ.deploymentID, instanceID, expiresAt }
  match ← kv (.put (.member ρ.deploymentID instanceID) rec') with
  | .ok _ => pure ()
  | _ => throw (.announcing instanceID)

/-- The records among these keys; one that has vanished is skipped. -/
def readAll (wanted : Key → Bool) : List Key → ExceptT Err PartM (List (Record × ℕ))
  | [] => pure []
  | key :: keys =>
    if wanted key = false then readAll wanted keys
    else do
      match ← kv (.get key) with
      | .notFound => readAll wanted keys
      | .failed => throw (.reading key)
      | .found found rev =>
        if found.deploymentID ≠ ρ.deploymentID then throw (.foreign key found.deploymentID)
        else
          let rest ← readAll wanted keys
          pure ((found, rev) :: rest)

def records (wanted : Key → Bool) : ExceptT Err PartM (List (Record × ℕ)) := do
  match ← kv .listKeys with
  | none => throw .listing
  | some keys => ρ.readAll wanted keys

def isMember : Key → Bool
  | .member deploymentID _ => deploymentID = ρ.deploymentID
  | .claim .. => false

def isClaim : Key → Bool
  | .claim deploymentID _ => deploymentID = ρ.deploymentID
  | .member .. => false

def othersAlive (instanceID : String) : List (Record × ℕ) → PartM (List String)
  | [] => pure []
  | (found, _) :: rest =>
    if found.instanceID = instanceID then othersAlive instanceID rest
    else do
      if ← expired found.expiresAt then othersAlive instanceID rest
      else
        let others ← othersAlive instanceID rest
        pure (found.instanceID :: others)

def liveMembers (instanceID : String) : ExceptT Err PartM (List String) := do
  let found ← ρ.records ρ.isMember
  let others ← othersAlive instanceID found
  pure ((Dag.sortStrings (instanceID :: others)).destutter (· ≠ ·))

/-- Who claims what, whether or not the claim is still good. -/
def ownersOf : List (Record × ℕ) → Owners :=
  List.foldl (fun owners (found, revision) =>
    if found.partition < ρ.count then
      Function.update owners found.partition
        (some { holder := found.instanceID, expiresAt := found.expiresAt, revision })
    else owners) fun _ => none

def owners : ExceptT Err PartM Owners := do
  let found ← ρ.records ρ.isClaim
  pure (ρ.ownersOf found)

/-- Of these partitions, those whose claim is this plane's and still good. -/
def mineAmong (owners : Owners) (instanceID : String) : List ℕ → PartM (List ℕ)
  | [] => pure []
  | part :: parts =>
    match owners part with
    | none => mineAmong owners instanceID parts
    | some o =>
      if o.holder ≠ instanceID then mineAmong owners instanceID parts
      else do
        if ← expired o.expiresAt then mineAmong owners instanceID parts
        else
          let rest ← mineAmong owners instanceID parts
          pure (part :: rest)

def revisionOf (owners : Owners) (part : ℕ) : ℕ := (owners part).elim 0 Ownership.revision

/-- The local view drops a partition before its claim is given back. -/
def giveBack (owners : Owners) : List ℕ → PartM Unit
  | [] => pure ()
  | part :: parts => do
    let _ ← perform (S := partSig) (.forget part)
    let _ ← kv (.deleteAt (.claim ρ.deploymentID part) (revisionOf owners part))
    giveBack owners parts

def write (instanceID : String) (part : ℕ) (at_ : Option ℕ) : PartM Bool := do
  let expiresAt ← ρ.deadline
  let claim : Record := { deploymentID := ρ.deploymentID, instanceID, partition := part, expiresAt }
  match at_ with
  | some revision =>
    match ← kv (.update (.claim ρ.deploymentID part) claim revision) with
    | .ok _ => pure true
    | _ => pure false
  | none =>
    match ← kv (.create (.claim ρ.deploymentID part) claim) with
    | .ok _ => pure true
    | _ => pure false

def renew (owners : Owners) (instanceID : String) : List ℕ → PartM (List ℕ)
  | [] => pure []
  | part :: parts => do
    if ← ρ.write instanceID part (some (revisionOf owners part)) then
      let rest ← renew owners instanceID parts
      pure (part :: rest)
    else
      let _ ← perform (S := partSig) (.forget part)
      renew owners instanceID parts

def isFree (owners : Owners) (part : ℕ) : PartM Bool :=
  match owners part with
  | none => pure true
  | some o => expired o.expiresAt

def take (owners : Owners) (instanceID : String) (share : ℕ) : List ℕ → List ℕ → PartM (List ℕ)
  | [], mine => pure mine
  | part :: parts, mine =>
    if share ≤ mine.length then pure mine
    else if part ∈ mine then take owners instanceID share parts mine
    else do
      if ← isFree owners part then
        if ← ρ.write instanceID part ((owners part).map Ownership.revision) then
          take owners instanceID share parts (mine ++ [part])
        else take owners instanceID share parts mine
      else take owners instanceID share parts mine

/-- The ceiling, so that the shares cover the ring. -/
def share (members : ℕ) : ℕ := (ρ.count + members - 1) / members

def reach (start : ℕ) : List ℕ := (List.range ρ.count).map fun offset => (start + offset) % ρ.count

/-- What a plane does once it has read the bucket. -/
def settle (instanceID : String) (members : List String) (owners : Owners) : PartM (List ℕ) := do
  let share := ρ.share members.length
  let mine ← mineAmong owners instanceID (List.range ρ.count)
  ρ.giveBack owners (mine.drop share).reverse
  let kept ← ρ.renew owners instanceID (mine.take share)
  let start := members.idxOf instanceID * ρ.count / members.length
  let mine ← ρ.take owners instanceID share (ρ.reach start) kept
  let _ ← perform (S := partSig) (.publish (mine.insertionSort (· ≤ ·)))
  pure (mine.insertionSort (· ≤ ·))

def claimPartitions (instanceID : String) : ExceptT Err PartM (List ℕ) :=
  if instanceID = "" then throw .instanceRequired
  else do
    ρ.announce instanceID
    let members ← ρ.liveMembers instanceID
    let owners ← ρ.owners
    ρ.settle instanceID members owners

/-- A plane that makes so many passes, one after the other; one that fails changes nothing. -/
def passes (instanceID : String) : ℕ → PartM Unit
  | 0 => pure ()
  | n + 1 => do
    let _ ← (ρ.claimPartitions instanceID).run
    passes instanceID n

end Ring

/-! ### What a plane knows of itself -/

/-- The local view: `held`. -/
def view : List PartEvent → List ℕ :=
  List.foldl (fun held e => match e with
    | ⟨.publish parts, _⟩ => parts
    | ⟨.forget part, _⟩ => held.filter fun p => p ≠ part
    | _ => held) []

def wrote : PartEvent → Option ℕ
  | ⟨.kv (.update (.claim _ part) ..), .ok _⟩ => some part
  | ⟨.kv (.create (.claim _ part) _), .ok _⟩ => some part
  | _ => none

/-- The partitions claimed in a pass whose outcome has not been published. -/
def unpublished : List PartEvent → List ℕ :=
  List.foldl (fun parts e => match e with
    | ⟨.publish _, _⟩ => []
    | e => (wrote e).elim parts fun part => part :: parts) []

def readAt (key : Key) (found : Record) (rev : ℕ) : PartEvent := ⟨.kv (.get key), .found found rev⟩

/-- The claim at this revision was read, and is the plane's own or was found expired. -/
def Ring.Open (ρ : Ring) (instanceID : String) (h : List PartEvent) (part rev : ℕ) : Prop :=
  ∃ q found, readAt (.claim ρ.deploymentID q) found rev ∈ h ∧ found.partition = part ∧
    (found.instanceID = instanceID ∨ ∃ t, ⟨.now, t⟩ ∈ h ∧ found.expiresAt < t)

/-- A claim is written in the plane's own name, over one that is open to it. -/
def Ring.Claims (ρ : Ring) (instanceID : String) (h : List PartEvent) (key : Key) (claim : Record)
    (at_ : Option ℕ) : Prop :=
  key = .claim ρ.deploymentID claim.partition ∧ claim.instanceID = instanceID ∧
    ∀ rev ∈ at_, ρ.Open instanceID h claim.partition rev

/-- What a plane has seen before it makes a call. -/
def Ring.Justified (ρ : Ring) (instanceID : String) (h : List PartEvent) : PartEvent → Prop
  | ⟨.kv (.create key claim), _⟩ => ρ.Claims instanceID h key claim none
  | ⟨.kv (.update key claim rev), _⟩ => ρ.Claims instanceID h key claim (some rev)
  | ⟨.kv (.deleteAt key rev), _⟩ => ∃ q found, key = .claim ρ.deploymentID found.partition ∧
    readAt (.claim ρ.deploymentID q) found rev ∈ h ∧ found.instanceID = instanceID ∧
    found.partition ∉ view h ∧ found.partition ∉ unpublished h
  | ⟨.kv (.put key _), _⟩ => key = .member ρ.deploymentID instanceID
  | ⟨.kv (.delete _), _⟩ => False
  | ⟨.publish parts, _⟩ => ∀ part ∈ parts, part ∈ unpublished h
  | _ => True

variable {h : List PartEvent} {e : PartEvent}

theorem view_snoc (h : List PartEvent) (e : PartEvent) : view (h ++ [e]) =
    match e with
    | ⟨.publish parts, _⟩ => parts
    | ⟨.forget part, _⟩ => (view h).filter fun p => p ≠ part
    | _ => view h := by
  rw [view, foldl_append]
  rfl

theorem unpublished_snoc (h : List PartEvent) (e : PartEvent) : unpublished (h ++ [e]) =
    match e with
    | ⟨.publish _, _⟩ => []
    | e => (wrote e).elim (unpublished h) fun part => part :: unpublished h := by
  rw [unpublished, foldl_append]
  rfl

/-! ### The calls of a pass -/

variable {ρ : Ring} {iid : String} {owners : Owners}

def Ring.Read (ρ : Ring) (owners : Owners) (h : List PartEvent) : Prop :=
  ∀ part o, owners part = some o → ∃ q found,
    readAt (.claim ρ.deploymentID q) found o.revision ∈ h ∧ found.partition = part ∧
      found.instanceID = o.holder ∧ found.expiresAt = o.expiresAt

def AllMine (owners : Owners) (instanceID : String) (parts : List ℕ) : Prop :=
  ∀ part ∈ parts, ∃ o, owners part = some o ∧ o.holder = instanceID

theorem Ring.Read.append (hr : ρ.Read owners h) (g : List PartEvent) : ρ.Read owners (h ++ g) := by
  intro part o ho
  obtain ⟨q, found, hm, hf⟩ := hr part o ho
  exact ⟨q, found, mem_append_left _ hm, hf⟩

theorem Ring.Open.append {part rev : ℕ} (ho : ρ.Open iid h part rev) (g : List PartEvent) :
    ρ.Open iid (h ++ g) part rev := by
  obtain ⟨q, found, hm, hp, hof⟩ := ho
  refine ⟨q, found, mem_append_left _ hm, hp, hof.imp_right ?_⟩
  rintro ⟨t, ht, hlt⟩
  exact ⟨t, mem_append_left _ ht, hlt⟩

theorem unpublished_now (h : List PartEvent) (t : ℤ) :
    unpublished (h ++ [⟨.now, t⟩]) = unpublished h := unpublished_snoc h _

theorem wp_expired (deadline : ℤ) : wp (ρ.Justified iid) (expired deadline)
    (fun k past => unpublished k = unpublished h ∧
      (past = true → ∃ t, ⟨.now, t⟩ ∈ k ∧ deadline < t)) h :=
  wp_bind.mpr fun t => ⟨trivial, unpublished_now h t,
    fun hp => ⟨t, mem_concat_self, of_decide_eq_true hp⟩⟩

theorem wpx_announce : wpx (ρ.Justified iid) (ρ.announce iid)
    (fun k _ => unpublished k = unpublished h) (fun k _ => unpublished k = unpublished h) h := by
  refine wp_run_lift_bind.mpr (wp_bind.mpr fun t => ⟨trivial, ?_⟩)
  refine wp_run_lift_bind.mpr fun r => ⟨rfl, ?_⟩
  have hs : unpublished (h ++ [⟨.now, t⟩] ++ [(⟨.kv (.put _ _), r⟩ : PartEvent)]) =
      unpublished h := (unpublished_snoc _ _).trans (unpublished_now h t)
  rcases (r : WriteRes) with rev | _ | landed <;> exact hs

theorem wpx_readAll (wanted : Key → Bool) (keys : List Key) :
    wpx (ρ.Justified iid) (ρ.readAll wanted keys)
      (fun k found => unpublished k = unpublished h ∧ ∀ r rev, (r, rev) ∈ found →
        ∃ key, wanted key = true ∧ readAt key r rev ∈ k)
      (fun k _ => unpublished k = unpublished h) h := by
  induction keys generalizing h with
  | nil => exact ⟨rfl, by simp⟩
  | cons key keys ih =>
    unfold Ring.readAll
    split
    · exact ih
    case isFalse hw =>
      refine wp_run_lift_bind.mpr fun r => ⟨trivial, ?_⟩
      have hs : unpublished (h ++ [(⟨.kv (.get key), r⟩ : PartEvent)]) = unpublished h :=
        unpublished_snoc h _
      rcases (r : GetRes Record) with ⟨found, rev⟩ | _ | _
      · change wpx _ (if found.deploymentID ≠ ρ.deploymentID then _ else _) _ _ _
        split
        · exact hs
        refine wpx_bind.mpr (wpx_mono ih ?_ ?_)
        · rintro g rest ⟨hqu, hf⟩
          refine ⟨hqu.trans hs, fun r rev' hm => ?_⟩
          rcases mem_cons.mp hm with heq | hm
          · cases heq
            refine ⟨key, by simpa using hw, ?_⟩
            exact mem_append_left _ mem_concat_self
          · exact hf r rev' hm
        · exact fun g err hqu => hqu.trans hs
      · exact wpx_mono ih (fun g rest hq => ⟨hq.1.trans hs, hq.2⟩)
          fun g err hqu => hqu.trans hs
      · exact hs

theorem wpx_records (wanted : Key → Bool) : wpx (ρ.Justified iid) (ρ.records wanted)
      (fun k found => unpublished k = unpublished h ∧ ∀ r rev, (r, rev) ∈ found →
        ∃ key, wanted key = true ∧ readAt key r rev ∈ k)
      (fun k _ => unpublished k = unpublished h) h := by
  refine wp_run_lift_bind.mpr fun r => ⟨trivial, ?_⟩
  have hs : unpublished (h ++ [(⟨.kv .listKeys, r⟩ : PartEvent)]) = unpublished h :=
    unpublished_snoc h _
  rcases (r : Option (List Key)) with _ | keys
  · exact hs
  · exact wpx_mono (wpx_readAll wanted keys) (fun g rest hq => ⟨hq.1.trans hs, hq.2⟩)
      fun g err hqu => hqu.trans hs

theorem wp_othersAlive (found : List (Record × ℕ)) :
    wp (ρ.Justified iid) (Ring.othersAlive iid found)
      (fun k _ => unpublished k = unpublished h) h := by
  induction found generalizing h with
  | nil => exact rfl
  | cons r rest ih =>
    unfold Ring.othersAlive
    split
    · exact ih
    refine wp_bind.mpr (wp_mono (wp_expired _) fun g la hg => ?_)
    cases la with
    | true => exact wp_mono ih fun g' _ hg' => hg'.trans hg.1
    | false => exact wp_bind.mpr (wp_mono ih fun g' _ hg' => hg'.trans hg.1)

theorem wpx_liveMembers : wpx (ρ.Justified iid) (ρ.liveMembers iid)
    (fun k _ => unpublished k = unpublished h) (fun k _ => unpublished k = unpublished h) h := by
  refine wpx_bind.mpr (wpx_mono (wpx_records ρ.isMember) (fun g found hq => ?_) fun g err hq => hq)
  exact wp_run_lift_bind.mpr (wp_mono (wp_othersAlive found) fun g' _ hg' => hg'.trans hq.1)

theorem ownersOf_snoc (found : List (Record × ℕ)) (c : Record) (rev : ℕ) :
    ρ.ownersOf (found ++ [(c, rev)]) =
      if c.partition < ρ.count then
        Function.update (ρ.ownersOf found) c.partition
          (some { holder := c.instanceID, expiresAt := c.expiresAt, revision := rev })
      else ρ.ownersOf found := by
  rw [Ring.ownersOf, foldl_append]
  rfl

theorem of_ownersOf {found : List (Record × ℕ)} {part : ℕ} {o : Ownership}
    (ho : ρ.ownersOf found part = some o) : part < ρ.count ∧ ∃ c, (c, o.revision) ∈ found ∧
      c.partition = part ∧ c.instanceID = o.holder ∧ c.expiresAt = o.expiresAt := by
  induction found using reverseRecOn with
  | nil => cases ho
  | append_singleton found entry ih =>
    obtain ⟨c, rev⟩ := entry
    have hr : ρ.ownersOf found part = some o → part < ρ.count ∧ ∃ c',
        (c', o.revision) ∈ found ++ [(c, rev)] ∧ c'.partition = part ∧ c'.instanceID = o.holder ∧
          c'.expiresAt = o.expiresAt := by
      intro ho
      obtain ⟨hlt, c', hm, hf⟩ := ih ho
      exact ⟨hlt, c', mem_append_left _ hm, hf⟩
    rw [ownersOf_snoc] at ho
    split at ho
    case isTrue hlt =>
      by_cases hp : part = c.partition
      · subst hp
        rw [Function.update_self] at ho
        obtain rfl := Option.some.inj ho
        exact ⟨hlt, c, by simp, rfl, rfl, rfl⟩
      · rw [Function.update_of_ne hp] at ho
        exact hr ho
    case isFalse => exact hr ho

theorem read_ownersOf {found : List (Record × ℕ)}
    (hf : ∀ r rev, (r, rev) ∈ found → ∃ key, ρ.isClaim key = true ∧ readAt key r rev ∈ h) :
    ρ.Read (ρ.ownersOf found) h := by
  intro part o ho
  obtain ⟨-, c, hm, hp, hh, he⟩ := of_ownersOf ho
  obtain ⟨key, hk, hr⟩ := hf c o.revision hm
  cases key with
  | claim de q =>
    obtain rfl : de = ρ.deploymentID := of_decide_eq_true hk
    exact ⟨q, c, hr, hp, hh, he⟩
  | member => cases hk

theorem wpx_owners : wpx (ρ.Justified iid) ρ.owners
    (fun k owners => unpublished k = unpublished h ∧ ρ.Read owners k)
    (fun k _ => unpublished k = unpublished h) h :=
  wpx_bind.mpr (wpx_mono (wpx_records ρ.isClaim)
    (fun _ _ hq => ⟨hq.1, read_ownersOf hq.2⟩) fun _ _ hq => hq)

theorem wp_mineAmong (parts : List ℕ) : wp (ρ.Justified iid) (Ring.mineAmong owners iid parts)
      (fun k mine => unpublished k = unpublished h ∧ AllMine owners iid mine) h := by
  induction parts generalizing h with
  | nil => exact ⟨rfl, by simp [AllMine]⟩
  | cons part parts ih =>
    unfold Ring.mineAmong
    cases ho : owners part with
    | none => exact ih
    | some o =>
      change wp _ (if o.holder ≠ iid then _ else _) _ _
      split
      · exact ih
      case isFalse hm =>
        refine wp_bind.mpr (wp_mono (wp_expired _) fun g la hg => ?_)
        cases la with
        | true => exact wp_mono ih fun g' mine hq => ⟨hq.1.trans hg.1, hq.2⟩
        | false =>
          refine wp_bind.mpr (wp_mono ih fun g' mine hq => ⟨hq.1.trans hg.1, ?_⟩)
          exact forall_mem_cons.mpr ⟨⟨o, ho, not_not.mp hm⟩, hq.2⟩

theorem wp_giveBack {parts : List ℕ} (hr : ρ.Read owners h)
    (hm : AllMine owners iid parts) (hn : unpublished h = []) :
    wp (ρ.Justified iid) (ρ.giveBack owners parts) (fun k _ => unpublished k = []) h := by
  induction parts generalizing h with
  | nil => exact hn
  | cons part parts ih =>
    obtain ⟨⟨o, ho, hh⟩, hre⟩ := forall_mem_cons.mp hm
    refine wp_bind.mpr fun u => ⟨trivial, wp_bind.mpr fun r => ⟨?_, ?_⟩⟩
    · obtain ⟨q, found, hme, rfl, hi, -⟩ := hr part o ho
      refine ⟨q, found, rfl, ?_, hi.trans hh, ?_, ?_⟩
      · rw [Ring.revisionOf, ho]
        exact mem_append_left _ hme
      · rw [view_snoc]
        simp
      · rw [unpublished_snoc]
        rw [hn]
        exact not_mem_nil
    · refine ih ((hr.append _).append _) hre ?_
      rw [unpublished_snoc, unpublished_snoc]
      exact hn

theorem wp_write {part : ℕ} {at_ : Option ℕ} (hat : ∀ rev ∈ at_, ρ.Open iid h part rev) :
    wp (ρ.Justified iid) (ρ.write iid part at_)
      (fun k ok => (∀ p ∈ unpublished h, p ∈ unpublished k) ∧ (ok = true → part ∈ unpublished k))
      h := by
  refine wp_bind.mpr (wp_bind.mpr fun t => ⟨trivial, ?_⟩)
  cases at_ with
  | some revision | none =>
    refine wp_bind.mpr fun r => ⟨⟨rfl, rfl, fun rev hr => (hat rev hr).append _⟩, ?_⟩
    rcases (r : WriteRes) with rev | _ | landed <;>
      (change _ ∧ _; rw [unpublished_snoc, unpublished_now]; simp +contextual [wrote])

theorem wp_renew {parts : List ℕ} (hr : ρ.Read owners h) (hm : AllMine owners iid parts) :
    wp (ρ.Justified iid) (ρ.renew owners iid parts)
      (fun k kept => (∀ p ∈ unpublished h, p ∈ unpublished k) ∧ ∀ p ∈ kept, p ∈ unpublished k)
      h := by
  induction parts generalizing h with
  | nil => exact ⟨fun _ hp => hp, by simp⟩
  | cons part parts ih =>
    obtain ⟨⟨o, ho, hh⟩, hre⟩ := forall_mem_cons.mp hm
    have hop : ∀ rev ∈ some (Ring.revisionOf owners part), ρ.Open iid h part rev := by
      rintro rev ⟨⟩
      rw [Ring.revisionOf, ho]
      obtain ⟨q, found, hme, hp, hi, -⟩ := hr part o ho
      exact ⟨q, found, hme, hp, .inl (hi.trans hh)⟩
    refine wp_bind.mpr (wp_mono (wp_write hop) fun g ok hw => ?_)
    cases ok with
    | true =>
      refine wp_bind.mpr (wp_mono (ih (hr.append _) hre)
        fun g' kept hq => ⟨fun p hp => hq.1 p (hw.1 p hp), ?_⟩)
      exact forall_mem_cons.mpr ⟨hq.1 part (hw.2 rfl), hq.2⟩
    | false =>
      refine wp_bind.mpr fun u => ⟨trivial, ?_⟩
      change wp _ (ρ.renew owners iid parts) _ _
      refine wp_mono (ih ((hr.append _).append _) hre)
        fun g' kept hq => ⟨fun p hp => hq.1 p ?_, hq.2⟩
      rw [unpublished_snoc]
      exact hw.1 p hp

theorem wp_isFree (hr : ρ.Read owners h) (part : ℕ) :
    wp (ρ.Justified iid) (Ring.isFree owners part)
      (fun k free => unpublished k = unpublished h ∧ (free = true →
        ∀ rev ∈ (owners part).map Ownership.revision, ρ.Open iid k part rev)) h := by
  unfold Ring.isFree
  cases ho : owners part with
  | none => exact ⟨rfl, by rintro - rev ⟨⟩⟩
  | some o =>
    refine wp_mono (wp_expired _) fun g free hg => ⟨hg.1, ?_⟩
    rintro hf rev ⟨⟩
    obtain ⟨q, found, hme, hp, -, he⟩ := hr part o ho
    obtain ⟨t, ht, hlt⟩ := hg.2 hf
    exact ⟨q, found, mem_append_left _ hme, hp, .inr ⟨t, ht, he ▸ hlt⟩⟩

theorem wp_take (share : ℕ) (parts : List ℕ) {mine : List ℕ} (hr : ρ.Read owners h)
    (hm : ∀ p ∈ mine, p ∈ unpublished h) :
    wp (ρ.Justified iid) (ρ.take owners iid share parts mine)
      (fun k taken => ∀ p ∈ taken, p ∈ unpublished k) h := by
  induction parts generalizing h mine with
  | nil => exact hm
  | cons part parts ih =>
    unfold Ring.take
    split
    · exact hm
    split
    · exact ih hr hm
    refine wp_bind.mpr (wp_mono (wp_isFree hr part) fun g free hg => ?_)
    have hm' : ∀ p ∈ mine, p ∈ unpublished (h ++ g) := hg.1 ▸ hm
    cases free with
    | false => exact ih (hr.append _) hm'
    | true =>
      refine wp_bind.mpr (wp_mono (wp_write (hg.2 rfl)) fun g' ok hw => ?_)
      have hr' := (hr.append g).append g'
      have hm'' : ∀ p ∈ mine, p ∈ unpublished (h ++ g ++ g') :=
        fun p hp => hw.1 p (hm' p hp)
      cases ok with
      | false => exact ih hr' hm''
      | true =>
        refine ih hr' fun p hp => ?_
        rcases mem_append.mp hp with hp | hp
        · exact hm'' p hp
        · exact mem_singleton.mp hp ▸ hw.2 rfl

theorem wp_settle {members : List String} (hr : ρ.Read owners h) (hn : unpublished h = []) :
    wp (ρ.Justified iid) (ρ.settle iid members owners) (fun k _ => unpublished k = []) h := by
  refine wp_bind.mpr (wp_mono (wp_mineAmong _) fun g₁ mine hm => ?_)
  have hs : AllMine owners iid (mine.drop (ρ.share members.length)).reverse :=
    fun p hp => hm.2 p (drop_subset _ _ (mem_reverse.mp hp))
  refine wp_bind.mpr (wp_mono (wp_giveBack (hr.append _) hs (hm.1.trans hn)) fun g₂ _ hb => ?_)
  have hr' := (hr.append g₁).append g₂
  refine wp_bind.mpr (wp_mono (wp_renew hr' fun p hp => hm.2 p (take_subset _ _ hp))
    fun g₃ kept hk => ?_)
  refine wp_bind.mpr (wp_mono (wp_take _ _ (hr'.append g₃) hk.2) fun g₄ taken ht => ?_)
  refine wp_bind.mpr fun u => ⟨fun p hp => ht p ((mem_insertionSort _).mp hp), ?_⟩
  exact unpublished_snoc _ _

theorem wp_claimPartitions (hn : unpublished h = []) :
    wp (ρ.Justified iid) (ρ.claimPartitions iid).run (fun k _ => unpublished k = []) h := by
  suffices hx : wpx (ρ.Justified iid) (ρ.claimPartitions iid)
      (fun k _ => unpublished k = []) (fun k _ => unpublished k = []) h by
    refine wp_mono hx ?_
    rintro g (err | pa) hq <;> exact hq
  unfold Ring.claimPartitions
  split
  · exact hn
  refine wpx_bind.mpr (wpx_mono wpx_announce (fun g₁ _ h₁ => ?_) fun g _ hq => hq.trans hn)
  refine wpx_bind.mpr (wpx_mono wpx_liveMembers (fun g₂ m h₂ => ?_)
    fun g _ hq => hq.trans (h₁.trans hn))
  refine wpx_bind.mpr (wpx_mono wpx_owners (fun g₃ owners h₃ => ?_)
    fun g _ hq => hq.trans (h₂.trans (h₁.trans hn)))
  exact wp_bind.mpr (wp_mono (wp_settle h₃.2 (h₃.1.trans (h₂.trans (h₁.trans hn))))
    fun g _ hq => hq)

theorem wp_passes (n : ℕ) (hn : unpublished h = []) :
    wp (ρ.Justified iid) (ρ.passes iid n) (fun _ _ => True) h := by
  induction n generalizing h with
  | zero => trivial
  | succ n ih => exact wp_bind.mpr (wp_mono (wp_claimPartitions hn) fun g _ hg => ih hg)

end Dhole.Partitions
