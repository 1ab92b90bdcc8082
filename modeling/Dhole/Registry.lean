import Dhole.KV
import Dhole.Moments

/-! The registry of engines. An engine instance is a record under its key in a bucket whose keys age
out. An announcement, a heartbeat and a drain each read the record, compute the next one from it and
write that at the revision they read, over again if somebody else was faster: what is written was
computed from the record it replaces. -/

namespace Dhole.Registry

open Interleave Prog KV

inductive State where
  | registering
  | ready
  | draining
  | gone
deriving DecidableEq

structure Job where
  runID : String
  stepID : String
  attempt : ℕ
  fenceToken : String
deriving DecidableEq

structure Key where
  tenantID : String
  engineID : String
deriving DecidableEq

structure Record where
  tenantID : String
  engineID : String
  state : State
  capabilities : List ℤ
  os : String
  arch : String
  slots : ℕ
  protocolVersions : List ℕ
  negotiated : ℕ
  engineTypes : List String
  tier : String
  environmentIdentity : String
  inFlight : ℕ
  jobs : List Job
deriving DecidableEq

def Record.key (r : Record) : Key := ⟨r.tenantID, r.engineID⟩

structure EngineRegistration where
  engineID : String
  capabilities : List ℤ := []
  os : String := ""
  arch : String := ""
  slots : ℕ := 0
  protocolVersions : List ℕ := []
  engineTypes : List String := []
  tier : String := ""
  environmentIdentity : String := ""

structure EngineHeartbeat where
  engineID : String
  inFlight : List Job := []

inductive Err where
  | engineRequired
  | unsupportedProtocol (versions : List ℕ)
  | slots (n : ℕ)
  | notRegistered
  | unavailable
  | gaveUp

/-! ### Negotiation -/

def protocolVersion : ℕ := 3

def supportedWindow : ℕ := 1

def oldestAccepted (ours : ℕ) : ℕ := if ours ≤ supportedWindow then 1 else ours - supportedWindow

def negotiateAgainst (ours : ℕ) (engineVersions : List ℕ) : Option ℕ :=
  engineVersions.foldl (fun best v =>
    if v < oldestAccepted ours ∨ ours < v then best
    else match best with
      | none => some v
      | some b => if b < v then some v else some b) none

/-! ### The next record -/

inductive Stop where
  | noChange
  | refused (err : Err)

/-- Saying again what it is does not change what an instance has proven. -/
def stateAfterReannouncement : State → State
  | .ready => .ready
  | .draining => .draining
  | .registering => .registering
  | .gone => .registering

def announced (tenantID : String) (r : EngineRegistration) (negotiated : ℕ) :
    Option Record → Except Stop Record
  | none => .ok
    { tenantID, engineID := r.engineID, state := .registering, capabilities := r.capabilities,
      os := r.os, arch := r.arch, slots := r.slots, protocolVersions := r.protocolVersions,
      negotiated, engineTypes := r.engineTypes, tier := r.tier,
      environmentIdentity := r.environmentIdentity, inFlight := 0, jobs := [] }
  | some prev => .ok
    { tenantID, engineID := r.engineID, state := stateAfterReannouncement prev.state,
      capabilities := r.capabilities, os := r.os, arch := r.arch, slots := r.slots,
      protocolVersions := r.protocolVersions, negotiated, engineTypes := r.engineTypes,
      tier := r.tier, environmentIdentity := r.environmentIdentity, inFlight := prev.inFlight,
      jobs := prev.jobs }

/-- A drain finishes with the heartbeat that holds nothing. -/
def stateAfterHeartbeat (inFlight : ℕ) : State → State
  | .draining => if inFlight = 0 then .gone else .draining
  | .registering => .ready
  | .ready => .ready
  | .gone => .gone

def beaten (h : EngineHeartbeat) : Option Record → Except Stop Record
  | none => .error (.refused .notRegistered)
  | some rec =>
    if rec.state = .gone then .error (.refused .notRegistered)
    else .ok { rec with
      inFlight := h.inFlight.length
      jobs := h.inFlight
      state := stateAfterHeartbeat h.inFlight.length rec.state }

def drained : Option Record → Except Stop Record
  | none => .error (.refused .notRegistered)
  | some rec =>
    if rec.state = .draining ∨ rec.state = .gone then .error .noChange
    else .ok { rec with state := .draining }

variable {before : Option Record} {next : Record}

theorem beaten_eq_ok {h : EngineHeartbeat} (hn : beaten h before = .ok next) :
    ∃ prev, before = some prev ∧ prev.state ≠ .gone ∧ next = { prev with
      inFlight := h.inFlight.length
      jobs := h.inFlight
      state := stateAfterHeartbeat h.inFlight.length prev.state } := by
  cases before with
  | none => cases hn
  | some prev =>
    rw [beaten] at hn
    split at hn
    · cases hn
    · cases hn
      exact ⟨prev, rfl, ‹_›, rfl⟩

theorem drained_eq_ok (hn : drained before = .ok next) :
    ∃ prev, before = some prev ∧ ¬ (prev.state = .draining ∨ prev.state = .gone) ∧
      next = { prev with state := .draining } := by
  cases before with
  | none => cases hn
  | some prev =>
    rw [drained] at hn
    split at hn
    · cases hn
    · cases hn
      exact ⟨prev, rfl, ‹_›, rfl⟩

/-! ### Programs -/

abbrev EngineOp := KV.Op Key fun _ => Record

abbrev regSig : Sig where
  Op := EngineOp
  Res op := op.Res

abbrev RegEvent := Interleave.Event regSig

abbrev RegProg := Prog regSig

abbrev regWorld : World regSig where
  State := Bucket Key fun _ => Record
  init := Bucket.empty
  Answers b e := KV.Answers b e.op e.res
  next b e := KV.next b e.op e.res

def modifyAttempts : ℕ := 5

def modifyFrom (key : Key) (fn : Option Record → Except Stop Record) : ℕ → RegProg (Except Err Unit)
  | 0 => pure (.error .gaveUp)
  | n + 1 => do
    match ← perform (S := regSig) (.get key) with
    | .failed => pure (.error .unavailable)
    | .notFound =>
      match fn none with
      | .error .noChange => pure (.ok ())
      | .error (.refused err) => pure (.error err)
      | .ok next =>
        match ← perform (S := regSig) (.create next.key next) with
        | .ok _ => pure (.ok ())
        | .conflict => modifyFrom key fn n
        | .failed _ => pure (.error .unavailable)
    | .found prev rev =>
      match fn (some prev) with
      | .error .noChange => pure (.ok ())
      | .error (.refused err) => pure (.error err)
      | .ok next =>
        match ← perform (S := regSig) (.update next.key next rev) with
        | .ok _ => pure (.ok ())
        | .conflict => modifyFrom key fn n
        | .failed _ => pure (.error .unavailable)

def modify (key : Key) (fn : Option Record → Except Stop Record) : RegProg (Except Err Unit) :=
  modifyFrom key fn modifyAttempts

def register (tenantID : String) (r : EngineRegistration) : RegProg (Except Err Unit) :=
  if r.engineID = "" then pure (.error .engineRequired)
  else match negotiateAgainst protocolVersion r.protocolVersions with
    | none => pure (.error (.unsupportedProtocol r.protocolVersions))
    | some negotiated =>
      if 2 ^ 31 - 1 < r.slots then pure (.error (.slots r.slots))
      else modify ⟨tenantID, r.engineID⟩ (announced tenantID r negotiated)

def heartbeat (tenantID : String) (h : EngineHeartbeat) : RegProg (Except Err Unit) :=
  if h.engineID = "" then pure (.error .engineRequired)
  else modify ⟨tenantID, h.engineID⟩ (beaten h)

/-- An engine that the registry does not hold is drained already. -/
def drain (tenantID engineID : String) : RegProg (Except Err Unit) :=
  if engineID = "" then pure (.ok ())
  else do
    match ← modify ⟨tenantID, engineID⟩ drained with
    | .error .notRegistered => pure (.ok ())
    | r => pure r

/-- What is called: the handles of tenants by any number of writers; and a key that is not
rewritten ages out. -/
inductive Call where
  | register (tenantID : String) (r : EngineRegistration)
  | heartbeat (tenantID : String) (h : EngineHeartbeat)
  | drain (tenantID engineID : String)
  | ageOut (key : Key)

namespace Call

def prog : Call → RegProg (Except Err Unit)
  | .register tenantID r => Registry.register tenantID r
  | .heartbeat tenantID h => Registry.heartbeat tenantID h
  | .drain tenantID engineID => Registry.drain tenantID engineID
  | .ageOut key => do
    let _ ← perform (S := regSig) (.delete key)
    pure (.ok ())

def key : Call → Key
  | .register tenantID r => ⟨tenantID, r.engineID⟩
  | .heartbeat tenantID h => ⟨tenantID, h.engineID⟩
  | .drain tenantID engineID => ⟨tenantID, engineID⟩
  | .ageOut key => key

inductive Computes : Call → Option Record → Record → Prop
  | register {tenantID : String} {r : EngineRegistration} {negotiated : ℕ} {prev : Option Record}
      {next : Record} (h : announced tenantID r negotiated prev = .ok next) :
      Computes (.register tenantID r) prev next
  | heartbeat {tenantID : String} {h : EngineHeartbeat} {prev : Option Record} {next : Record}
      (hnext : beaten h prev = .ok next) : Computes (.heartbeat tenantID h) prev next
  | drain {tenantID engineID : String} {prev : Option Record} {next : Record}
      (hnext : drained prev = .ok next) : Computes (.drain tenantID engineID) prev next

def beats : Call → Bool
  | .heartbeat .. => true
  | _ => false

def Justified (c : Call) (h : List RegEvent) : RegEvent → Prop
  | ⟨.get k, _⟩ => k = c.key
  | ⟨.create k v, _⟩ => k = v.key ∧ (∃ g, h = g ++ [⟨.get c.key, .notFound⟩]) ∧ c.Computes none v
  | ⟨.update k v rev, _⟩ => k = v.key ∧
      ∃ g prev, h = g ++ [⟨.get c.key, .found prev rev⟩] ∧ c.Computes (some prev) v
  | ⟨.delete k, _⟩ => c = .ageOut k
  | _ => False

end Call

variable {c : Call} {h : List RegEvent} {fn : Option Record → Except Stop Record}

theorem wp_modifyFrom (hfn : ∀ prev next, fn prev = .ok next → c.Computes prev next) (n : ℕ) :
    wp c.Justified (modifyFrom c.key fn n) (fun _ _ => True) h := by
  induction n generalizing h with
  | zero => trivial
  | succ n ih =>
    refine wp_bind.mpr fun res => ⟨rfl, ?_⟩
    cases res with
    | failed => trivial
    | notFound =>
      rcases hn : fn none with (_ | err) | next
      · trivial
      · trivial
      · refine wp_bind.mpr fun res => ⟨⟨rfl, ⟨_, rfl⟩, hfn _ _ hn⟩, ?_⟩
        rcases (res : WriteRes) with _ | _ | _
        · trivial
        · exact ih
        · trivial
    | found prev rev =>
      change wp _ (match fn (some prev) with
        | .error .noChange => _
        | .error (.refused err) => _
        | .ok next => _) _ _
      rcases hn : fn (some prev) with (_ | err) | next
      · trivial
      · trivial
      · refine wp_bind.mpr fun res => ⟨⟨rfl, _, prev, rfl, hfn _ _ hn⟩, ?_⟩
        rcases (res : WriteRes) with _ | _ | _
        · trivial
        · exact ih
        · trivial

theorem wp_prog (c : Call) : wp c.Justified c.prog (fun _ _ => True) [] := by
  cases c with
  | register t r =>
    change wp _ (register t r) _ _
    unfold register
    split
    · trivial
    split
    · trivial
    split
    · trivial
    · exact wp_modifyFrom (fun _ _ hn => .register hn) _
  | heartbeat t h =>
    change wp _ (heartbeat t h) _ _
    unfold heartbeat
    split
    · trivial
    · exact wp_modifyFrom (fun _ _ hn => .heartbeat hn) _
  | drain t en =>
    change wp _ (drain t en) _ _
    unfold drain
    split
    · trivial
    · refine wp_bind.mpr (wp_mono (wp_modifyFrom
        (fun _ _ hn => .drain hn) _) fun _ _ _ => ?_)
      split <;> trivial
  | ageOut key => exact wp_bind.mpr fun _ => ⟨rfl, trivial⟩

/-! ### Histories -/

abbrev RegHistory := List (Act regSig)

abbrev cellOf (tr : RegHistory) (key : Key) : Cell Record := regWorld.state tr key

def stateAt (tr : RegHistory) (key : Key) : Option State := (cellOf tr key).live.map Record.state

abbrev Histories (calls : ℕ → Call) (tr : RegHistory) : Prop :=
  Guarded regWorld (fun i => (calls i).Justified) tr

def Writes (a : Act regSig) (key : Key) (next : Record) : Prop :=
  ∃ rev, KV.Op.written (K := Key) (V := fun _ => Record) a.event.op a.event.res =
    some ⟨key, rev, some next⟩

variable {calls cs : ℕ → Call} {tr us vs : RegHistory} {i rev : ℕ} {a : Act regSig} {key : Key}
  {prev : Record} {g : List RegEvent}

theorem cellOf_step (key : Key) (b : regWorld.State) (e : RegEvent) (ha : regWorld.Answers b e) :
    regWorld.next b e key = b key ∨ (b key).rev < (regWorld.next b e key).rev :=
  cell_next ha key

theorem read_stands (htr : Histories cs us)
    (ho : own i us = g ++ [⟨.get key, .found prev rev⟩]) (hre : (cellOf us key).rev = rev) :
    (cellOf us key).live = some prev := by
  obtain ⟨xs, ys, rfl, -, -⟩ := exists_split_of_own ho
  have ha : (cellOf xs key).entry = some (prev, rev) := (htr.at_split).1
  obtain ⟨v, hl, heq⟩ := Option.map_eq_some_iff.mp ha
  obtain ⟨rfl, hr⟩ := Prod.mk.inj heq
  have hs := cell_stands (f := fun b : regWorld.State => b key) (cellOf_step key) htr
    (hre.trans hr.symm)
  exact (congrArg Cell.live hs).trans hl

theorem cellOf_snoc (tr : RegHistory) (a : Act regSig) (key : Key) :
    cellOf (tr ++ [a]) key = KV.next (regWorld.state tr) a.event.op a.event.res key :=
  congrFun (World.state_snoc regWorld tr a) key

theorem cellOf_snoc_of_writes (hw : Writes a key next) :
    (cellOf (tr ++ [a]) key).live = some next := by
  obtain ⟨rev, hw⟩ := hw
  rw [cellOf_snoc, next_of_written hw]

theorem cellOf_cases (tr : RegHistory) (a : Act regSig) (key : Key) :
    cellOf (tr ++ [a]) key = cellOf tr key ∨
      (∃ rev, KV.Op.written (K := Key) (V := fun _ => Record) a.event.op a.event.res =
        some ⟨key, rev, none⟩) ∨ ∃ next, Writes a key next := by
  rw [cellOf_snoc]
  refine (next_cases _ a.event.op a.event.res key).imp_right ?_
  rintro ⟨⟨rev, _ | next⟩, -, hw⟩
  · exact .inl ⟨rev, hw⟩
  · exact .inr ⟨next, rev, hw⟩

theorem Call.Computes.key_eq (hc : c.Computes before next)
    (hb : ∀ prev, before = some prev → prev.key = c.key) : next.key = c.key := by
  cases hc with
  | register h =>
    cases before with
    | none | some prev =>
      cases h
      rfl
  | heartbeat hn =>
    obtain ⟨prev, rfl, -, rfl⟩ := beaten_eq_ok hn
    exact hb prev rfl
  | drain hn =>
    obtain ⟨prev, rfl, -, rfl⟩ := drained_eq_ok hn
    exact hb prev rfl

theorem Writes.key_eq (hw : Writes a key next) (hj : c.Justified g a.event) : next.key = key := by
  obtain ⟨i, op, r⟩ := a
  obtain ⟨rev, hw⟩ := hw
  cases op with
  | create k v | update k v rev₀ =>
    obtain ⟨rev', -, heq⟩ := Option.map_eq_some_iff.mp hw
    cases heq
    exact hj.1.symm
  | put k v | deleteAt k rev => exact hj.elim
  | get k => cases hw
  | delete k =>
    obtain ⟨rev', -, heq⟩ := Option.map_eq_some_iff.mp hw
    cases heq
  | listKeys => cases hw

theorem homed (htr : Histories cs tr) (hl : (cellOf tr key).live = some prev) : prev.key = key := by
  induction tr using List.reverseRecOn with
  | nil => cases hl
  | append_singleton tr a ih =>
    obtain hs | ⟨rev, hd⟩ | ⟨next, hw⟩ := cellOf_cases tr a key
    · rw [hs] at hl
      exact ih htr.of_append hl
    · rw [cellOf_snoc, next_of_written hd] at hl
      cases hl
    · rw [cellOf_snoc_of_writes hw] at hl
      cases hl
      exact hw.key_eq htr.last.2

/-- Who writes has computed the record from the one that it replaces, under a key of its own. -/
theorem computes_of_writes (htr : Histories cs (us ++ [a])) (hw : Writes a key next) :
    key = (cs a.actor).key ∧ (cs a.actor).Computes (cellOf us key).live next := by
  obtain ⟨i, op, r⟩ := a
  obtain ⟨ha, hj⟩ := htr.last
  obtain rfl := hw.key_eq hj
  obtain ⟨rev, hw⟩ := hw
  cases op with
  | create k v =>
    obtain ⟨rev', hl, heq⟩ := Option.map_eq_some_iff.mp hw
    cases heq
    obtain ⟨-, -, hc⟩ := hj
    have hf : (cellOf us next.key).live = none := (Write.of_landed ha hl).1
    rw [hf]
    exact ⟨hc.key_eq (by rintro prev ⟨⟩), hc⟩
  | update k v rev₀ =>
    obtain ⟨rev', hl, heq⟩ := Option.map_eq_some_iff.mp hw
    cases heq
    obtain ⟨-, g, prev, ho, hc⟩ := hj
    have hh : prev.key = (cs i).key := by
      obtain ⟨xs, ys, rfl, -, -⟩ := exists_split_of_own ho
      have hr : (cellOf xs (cs i).key).entry = some (prev, rev₀) := (htr.of_append.at_split).1
      obtain ⟨v, hli, heq⟩ := Option.map_eq_some_iff.mp hr
      cases heq
      exact homed htr.of_append.of_append hli
    have hk : next.key = (cs i).key := by
      refine hc.key_eq ?_
      rintro _ ⟨⟩
      exact hh
    have hat : (cellOf us next.key).rev = rev₀ := (Write.of_landed ha hl).1
    rw [hk] at hat ⊢
    exact ⟨rfl, by rwa [read_stands htr.of_append ho hat]⟩
  | put k v | deleteAt k rev => exact hj.elim
  | get k => cases hw
  | delete k =>
    obtain ⟨rev', hl, heq⟩ := Option.map_eq_some_iff.mp hw
    cases heq
  | listKeys => cases hw

/-! ### States -/

inductive Step (c : Call) : Option State → Option State → Prop
  | stay (s : Option State) : Step c s s
  | aged (s : Option State) : Step c s none
  | announce (s : Option State) (hs : s = none ∨ s = some .registering ∨ s = some .gone) :
      Step c s (some .registering)
  | prove (s : State) (hc : c.beats = true) (hs : s = .registering ∨ s = .ready) :
      Step c (some s) (some .ready)
  | drain (s : State) (hs : s = .registering ∨ s = .ready) : Step c (some s) (some .draining)
  | leave : Step c (some .draining) (some .gone)

theorem Call.Computes.step (hc : c.Computes before next) :
    Step c (before.map Record.state) (some next.state) := by
  cases hc with
  | register h =>
    cases before with
    | none =>
      cases h
      exact .announce _ (.inl rfl)
    | some prev =>
      cases h
      change Step _ (some prev.state) (some (stateAfterReannouncement prev.state))
      cases prev.state with
      | registering | ready | draining => exact .stay _
      | gone => exact .announce _ (.inr (.inr rfl))
  | @heartbeat _ h _ _ hn =>
    obtain ⟨prev, rfl, hg, rfl⟩ := beaten_eq_ok hn
    change Step _ (some prev.state) (some (stateAfterHeartbeat h.inFlight.length prev.state))
    cases hs : prev.state with
    | registering => exact .prove _ rfl (.inl rfl)
    | ready => exact .prove _ rfl (.inr rfl)
    | draining =>
      rw [stateAfterHeartbeat]
      split
      · exact .leave
      · exact .stay _
    | gone => exact absurd hs hg
  | drain hn =>
    obtain ⟨prev, rfl, hs, rfl⟩ := drained_eq_ok hn
    refine .drain _ ?_
    cases hst : prev.state with
    | registering => exact .inl rfl
    | ready => exact .inr rfl
    | draining => exact absurd (.inl hst) hs
    | gone => exact absurd (.inr hst) hs

def Accepts (calls : ℕ → Call) (a : Act regSig) (key : Key) : Prop :=
  (calls a.actor).beats = true ∧ ∃ next, Writes a key next

theorem stateAt_snoc (htr : Histories cs (us ++ [a])) (key : Key) :
    stateAt (us ++ [a]) key = stateAt us key ∨ stateAt (us ++ [a]) key = none ∨
      (∃ next, Writes a key next) ∧
        Step (cs a.actor) (stateAt us key) (stateAt (us ++ [a]) key) := by
  obtain hs | ⟨rev, hd⟩ | ⟨next, hw⟩ := cellOf_cases us a key
  · exact .inl (by rw [stateAt, hs]; rfl)
  · exact .inr (.inl (by rw [stateAt, cellOf_snoc, next_of_written hd]; rfl))
  · refine .inr (.inr ⟨⟨next, hw⟩, ?_⟩)
    have hst := (computes_of_writes htr hw).2.step
    rwa [stateAt, stateAt, cellOf_snoc_of_writes hw]

/-- An instance that is ready has been so since a heartbeat of it was recorded. -/
theorem ready_since (htr : Histories cs tr) (hr : stateAt tr key = some .ready) :
    ∃ us a vs, tr = us ++ a :: vs ∧ Accepts cs a key ∧
      ∀ vs₁ vs₂, vs = vs₁ ++ vs₂ → stateAt (us ++ a :: vs₁) key = some .ready := by
  induction tr using List.reverseRecOn with
  | nil => cases hr
  | append_singleton tr a ih =>
    -- ready already before the call
    have hold : stateAt tr key = some .ready → ∃ us b vs, tr ++ [a] = us ++ b :: vs ∧
        Accepts cs b key ∧
        ∀ vs₁ vs₂, vs = vs₁ ++ vs₂ → stateAt (us ++ b :: vs₁) key = some .ready := by
      intro hb
      obtain ⟨us, b, vs, rfl, ha, hsi⟩ := ih htr.of_append hb
      refine ⟨us, b, vs ++ [a], by simp, ha, fun vs₁ vs₂ heq => ?_⟩
      rcases List.eq_nil_or_concat vs₂ with rfl | ⟨vs₂, a', rfl⟩
      · rw [List.append_nil] at heq
        rw [← heq, ← List.cons_append, ← List.append_assoc]
        exact hr
      · rw [List.concat_eq_append, ← List.append_assoc] at heq
        exact hsi vs₁ vs₂ (List.append_inj' heq rfl).1
    obtain hsa | hn | ⟨hw, hst⟩ := stateAt_snoc htr key
    · exact hold (hsa.symm.trans hr)
    · rw [hr] at hn
      cases hn
    · rw [hr] at hst
      generalize hb : stateAt tr key = before at hst
      cases hst with
      | stay => exact hold hb
      | prove s hc hs =>
        refine ⟨tr, a, [], rfl, ⟨hc, hw⟩, fun vs₁ vs₂ heq => ?_⟩
        obtain rfl : vs₁ = [] := (List.append_eq_nil_iff.mp heq.symm).1
        exact hr

/-- An instance that drains goes on draining until it is gone or has aged out. -/
theorem draining_until (htr : Histories cs (us ++ vs)) (hd : stateAt us key = some .draining) :
    stateAt (us ++ vs) key = some .draining ∨ ∃ vs₁ vs₂, vs = vs₁ ++ vs₂ ∧
      (stateAt (us ++ vs₁) key = some .gone ∨ stateAt (us ++ vs₁) key = none) := by
  induction vs using List.reverseRecOn with
  | nil => exact .inl (by rwa [List.append_nil])
  | append_singleton vs a ih =>
    rw [← List.append_assoc] at htr ⊢
    obtain hb | ⟨vs₁, vs₂, rfl, hl⟩ := ih htr.of_append
    · obtain hsa | hn | ⟨-, hst⟩ := stateAt_snoc htr key
      · exact .inl (hsa.trans hb)
      · exact .inr ⟨vs ++ [a], [], by simp, .inr (by rwa [← List.append_assoc])⟩
      · rw [hb] at hst
        generalize ha : stateAt (us ++ vs ++ [a]) key = after at hst
        have he : after = some .gone ∨ after = none → ∃ vs₁ vs₂, vs ++ [a] = vs₁ ++ vs₂ ∧
            (stateAt (us ++ vs₁) key = some .gone ∨ stateAt (us ++ vs₁) key = none) := by
          intro h
          refine ⟨vs ++ [a], [], by simp, ?_⟩
          rw [← List.append_assoc, ha]
          exact h
        cases hst with
        | stay | drain _ hs => exact .inl rfl
        | aged => exact .inr (he (.inr rfl))
        | announce _ hs => rcases hs with hs | hs | hs <;> cases hs
        | prove _ _ hs => rcases hs with hs | hs <;> cases hs
        | leave => exact .inr (he (.inl rfl))
    · exact .inr ⟨vs₁, vs₂ ++ [a], by simp, hl⟩

theorem accepts_alive (htr : Histories cs (us ++ [a])) (ha : Accepts cs a key) :
    ∃ s, stateAt us key = some s ∧ s ≠ .gone := by
  obtain ⟨hb, next, hw⟩ := ha
  obtain ⟨-, hc⟩ := computes_of_writes htr hw
  generalize hbe : (cellOf us key).live = before at hc
  generalize cs a.actor = c at hc hb
  cases hc with
  | heartbeat hn =>
    obtain ⟨prev, rfl, hg, -⟩ := beaten_eq_ok hn
    exact ⟨prev.state, by rw [stateAt, hbe]; rfl, hg⟩
  | _ => cases hb

/-- The life cycle of engines under any interleaving of announcements, heartbeats, drains and keys
that age out. A ready instance has been ready since a heartbeat of it was recorded; a draining one
drains until it is gone or has aged out; heartbeats are recorded only of instances that are not gone;
and every record is computed from the one that it replaces. -/
theorem engine_life_cycle (htr : Reach regWorld (fun i => (calls i).prog) tr) :
    (∀ key, stateAt tr key = some .ready → ∃ us a vs, tr = us ++ a :: vs ∧ Accepts calls a key ∧
      ∀ vs₁ vs₂, vs = vs₁ ++ vs₂ → stateAt (us ++ a :: vs₁) key = some .ready) ∧
    (∀ us vs ws key, tr = us ++ vs ++ ws → stateAt us key = some .draining →
      stateAt (us ++ vs) key = some .ready → ∃ vs₁ vs₂, vs = vs₁ ++ vs₂ ∧
        (stateAt (us ++ vs₁) key = some .gone ∨ stateAt (us ++ vs₁) key = none)) ∧
    (∀ us a vs key, tr = us ++ a :: vs → Accepts calls a key →
      ∃ s, stateAt us key = some s ∧ s ≠ .gone) ∧
    ∀ us a vs key next, tr = us ++ a :: vs → Writes a key next →
      (calls a.actor).Computes (cellOf us key).live next := by
  have hg : Histories calls tr := htr.guarded fun i => wp_prog (calls i)
  refine ⟨fun key hr => ready_since hg hr, ?_, ?_, ?_⟩
  · rintro us vs ws key rfl hd hr
    obtain hs | hl := draining_until hg.of_append hd
    · rw [hr] at hs
      cases hs
    · exact hl
  · rintro us a vs key rfl ha
    rw [List.append_cons] at hg
    exact accepts_alive hg.of_append ha
  · rintro us a vs key next rfl hw
    rw [List.append_cons] at hg
    exact (computes_of_writes hg.of_append hw).2

/-! ### An engine that announces itself again -/

def runner : Key := ⟨"acme", "runner"⟩

def announcement : EngineRegistration := { engineID := "runner", protocolVersions := [3] }

/-- An engine announces itself, beats, and announces itself again. -/
def announcedTwice : ℕ → Call
  | 0 => .register "acme" announcement
  | 1 => .heartbeat "acme" { engineID := "runner" }
  | _ => .register "acme" announcement

def announcedTwiceRun : RegHistory :=
  exec regWorld (fun _ b op => resolve [runner] b op) (fun i => (announcedTwice i).prog)
    [0, 0, 1, 1, 2, 2]

theorem announcedTwice_reach : Reach regWorld (fun i => (announcedTwice i).prog) announcedTwiceRun :=
  exec_reach _ _ (fun _ => resolve_answers [runner]) _ _

theorem announced_twice_since_heartbeat : stateAt announcedTwiceRun runner = some .ready ∧
      ∃ us a vs, announcedTwiceRun = us ++ a :: vs ∧ Accepts announcedTwice a runner ∧
        ∀ vs₁ vs₂, vs = vs₁ ++ vs₂ → stateAt (us ++ a :: vs₁) runner = some .ready :=
  ⟨by decide +kernel,
    (engine_life_cycle announcedTwice_reach).1 runner (by decide +kernel)⟩

/-- The instance is ready after it was registered anew from a state that is not draining, with a
record that replaced the one before it, and no heartbeat came after that. -/
theorem ready_without_later_heartbeat :
    Reach regWorld (fun i => (announcedTwice i).prog) announcedTwiceRun ∧
      stateAt (announcedTwiceRun.take 4) runner = some .ready ∧
      (announcedTwiceRun.drop 4).map Act.actor = [2, 2] ∧ (announcedTwice 2).beats = false ∧
      (cellOf (announcedTwiceRun.take 4) runner).rev < (cellOf announcedTwiceRun runner).rev ∧
      stateAt announcedTwiceRun runner = some .ready :=
  ⟨announcedTwice_reach, by decide +kernel, by decide +kernel, rfl, by decide +kernel,
    by decide +kernel⟩

end Dhole.Registry
