import Dhole.Lexical
import Dhole.Policy
import Dhole.Routing
import Dhole.TaintFlow

/-! The decision before a step is placed. A plane puts the step, and then each secret it
declares, to the policy of its tier, with what only the run and the fleet know: whether the
plugin the revision pinned is signed, which triggers reach the step, and what the engines it
could go to advertise. Anything but an allow denies. The engines are those `matching` returns
of the ones the tenant registered, while the subject of the dispatch is bound by every engine
of the tier that serves the step. -/

namespace Dhole.Permit

open Plane Scheduler Policy Routing Taint Lexical List

/-! ### Provenance -/

structure Upstream where
  url : String
  allowedIdentities : List String

/-- What checking a signature comes to. A store that cannot be read refuses. -/
inductive Verification where
  | accepted
  | refused
  | failed (err : Text)

/-- The signature store and the registry of upstreams, by tenant. -/
structure Provenance where
  sigs : Option (String → BareDigest → List String → Verification)
  ups : Option (String → String → Except Text (Option Upstream))

def defaultTag : String := "latest"

/-- The namespace of a reference `namespace/name` or `namespace/name:tag`. -/
def splitPluginRef (ref : String) : Option String :=
  let (rest, tag) := (cutLast ':' ref.toList).getD (ref.toList, defaultTag.toList)
  match cutAt '/' rest with
  | none => none
  | some (space, name) =>
    if space = [] ∨ name = [] ∨ tag = [] then none else some (String.ofList space)

def parseDigestText (text : String) : Option BareDigest := BareDigest.parse text

/-- The upstream a reference belongs to, if it belongs to one. -/
def federation (ups : String → String → Except Text (Option Upstream)) (tenantID pluginRef : String) :
    Except Text (Option Upstream) :=
  if "://".toList <:+: pluginRef.toList then .ok none
  else match splitPluginRef pluginRef with
    | none => .ok none
    | some space => ups tenantID space

/-- Whether the reference, pinned to the digest, is signed, the upstream it came from, and the
error if there was one. -/
def Provenance.provenance (p : Provenance) (tenantID pluginRef pinnedDigest : String) :
    Bool × String × Option Text :=
  if tenantID.toList.all isSpace then (false, "", some ["plugins: tenant scope required"])
  else match p.sigs, p.ups with
    | some verify, some ups =>
      match federation ups tenantID pluginRef with
      | .error e => (false, "", some e)
      | .ok none => (false, "", none)
      | .ok (some u) =>
        match parseDigestText pinnedDigest with
        | none => (false, u.url, none)
        | some digest =>
          match verify tenantID digest u.allowedIdentities with
          | .accepted => (true, u.url, none)
          | .refused => (false, u.url, none)
          | .failed e => (false, u.url, some e)
    | _, _ =>
      (false, "", some ["plugins: provenance needs a signature store and an upstream registry"])

/-! ### The fleet of a tenant -/

/-- A registered engine, under the tenant it was registered for. -/
structure Enrolled extends Member where
  tenantID : String

def instances (fleet : List Enrolled) (tenantID : String) : List Instance :=
  (fleet.filter fun e => e.tenantID = tenantID && e.state ≠ .gone).map fun e =>
    e.toMember.instance_

/-! ### The decision -/

/-- What a plane decides on: its own settings, the run's revision and taint, and the state of
the components it asks. -/
structure Facts where
  cfg : Config
  tier : String
  tenantID : String
  revisionID : String
  pipeline : Pipeline
  step : Step
  taint : RunTaint
  lockfile : Except Text (String → String)
  provenance : Provenance
  fleet : List Enrolled
  outage : Option Text := none

def Facts.pinnedDigest (f : Facts) : Except Text String :=
  f.lockfile.map fun lockfile => lockfile f.step.pluginRef

def Facts.pinned (f : Facts) : Bool × String × Option Text :=
  match f.pinnedDigest with
  | .error e => (false, "",
      some ([.lit "reading the lockfile of revision ", .quoted f.revisionID, .lit ": "] ++ e))
  | .ok digest => f.provenance.provenance f.tenantID f.step.pluginRef digest

/-- Every capability of an engine that could take the step, in the order of their numbers. -/
def Facts.reachableCapabilities (f : Facts) : Except Text (List Capability) :=
  if isBuiltin f.step then .ok []
  else match f.outage with
    | some e => .error ([.lit "scheduler: listing engines for ", .lit f.tenantID, .lit ": "] ++ e)
    | none => .ok (((matching (requirements f.cfg f.step) (instances f.fleet f.tenantID)).flatMap
        Instance.capabilities).dedup.mergeSort fun a b => decide (a.number.toInt ≤ b.number.toInt))

def Facts.input (f : Facts) (signed : Bool) (upstream : String) (engineCaps : List Capability) :
    Input :=
  let sources := taintSources f.pipeline f.step f.taint
  { tier := f.tier
    tenantID := f.tenantID
    subject := "step:" ++ f.step.id
    capabilities := f.step.capabilities
    effectClass := f.step.effectClass
    pluginRef := f.step.pluginRef
    signed
    upstream
    tainted := decide (sources ≠ [])
    taintSources := sources
    engineCapabilities := engineCaps }

structure PolicyDenied where
  tier : String
  rule : String
  reason : Text
  pluginRef : String
  signed : Bool
  upstream : String
  secret : String := ""
deriving DecidableEq

inductive Verdict where
  | permitted
  | denied (record : PolicyDenied)
deriving DecidableEq

/-- What one evaluation meets: the source as it is then, and the error of the audit, if any. -/
structure Turn where
  source : Source
  refusal : Option Text := none

def Turn.floored (floor : TierPolicy) (t : Turn) : Turn :=
  { t with source := withFloor t.source floor }

variable (cel : Cel)

/-- An evaluation that errs denies with the error as its reason. -/
def decideOne (turn : Turn) (cache : Cache cel) (i : Input) : Decision × Cache cel :=
  match evaluate cel turn.source turn.refusal cache i with
  | ((d, none), cache) => (d, cache)
  | ((d, some e), cache) => (⟨false, d.rule, [.lit "policy error: "] ++ e⟩, cache)

def Facts.denial (f : Facts) (d : Decision) (signed : Bool) (upstream secret : String) :
    PolicyDenied where
  tier := f.tier
  rule := d.rule
  reason := d.reason
  pluginRef := f.step.pluginRef
  signed
  upstream
  secret

/-- The inputs one after the other, each with the secret it is about; the first that is not
allowed ends it. -/
def Facts.decideAll (f : Facts) (turns : ℕ → Turn) :
    ℕ → Cache cel → List (Input × String) → Verdict × Cache cel
  | _, cache, [] => (.permitted, cache)
  | n, cache, (i, secret) :: inputs =>
    match decideOne cel (turns n) cache i with
    | (d, cache) =>
      if d.allow then f.decideAll turns (n + 1) cache inputs
      else (.denied (f.denial d i.signed i.upstream secret), cache)

def Facts.inputs (f : Facts) (i : Input) : List (Input × String) :=
  (i, "") :: f.step.secrets.map fun s =>
    ({ i with subject := "secret:" ++ s.name, secretName := s.name }, s.name)

/-- Whether the step may be placed. `turns` is what each evaluation meets. -/
def Facts.permit (f : Facts) (turns : ℕ → Turn) (cache : Cache cel) :
    Except Text Verdict × Cache cel :=
  if !f.cfg.policy then (.ok .permitted, cache)
  else match f.pinned with
    | (signed, upstream, some e) =>
      let reason : Text := [.lit "the provenance of ", .quoted f.step.pluginRef,
        .lit " could not be established: "] ++ e
      (.ok (.denied (f.denial ⟨false, "", reason⟩ signed upstream "")), cache)
    | (signed, upstream, none) =>
      match f.reachableCapabilities with
      | .error e => (.error e, cache)
      | .ok engineCaps =>
        let (verdict, cache) :=
          f.decideAll cel turns 0 cache (f.inputs (f.input signed upstream engineCaps))
        (.ok verdict, cache)

/-! ### The floor of the untrusted tier -/

def untrustedTier : String := "untrusted"

def signedPlugins : Rule where
  id := "tier.untrusted-signed-plugins"
  expression := "input.tier != \"untrusted\" || input.signed"
  reason := "work in the untrusted tier may run only plugins with a verified signature"

def unprivilegedEngines : Rule where
  id := "tier.untrusted-unprivileged-engines"
  expression := "input.tier != \"untrusted\" || !(\"PRIVILEGED\" in input.engine_capabilities)"
  reason := "work in the untrusted tier may not reach an engine advertising PRIVILEGED"

def noAtMostOnce : Rule where
  id := "tier.untrusted-no-at-most-once"
  expression := "input.tier != \"untrusted\" || input.effect_class != \"AT_MOST_ONCE\""
  reason := "work in the untrusted tier may not run an at-most-once step; " ++
    "only an agent's approval gate can admit one"

def untrustedTierRules : List Rule := [signedPlugins, unprivilegedEngines, noAtMostOnce]

def privilegedEngine : Rule where
  id := "taint.privileged-engine"
  expression := "!input.tainted || !(\"PRIVILEGED\" in input.engine_capabilities)"
  reason := "untrusted data may not be dispatched to an engine advertising " ++
    "PRIVILEGED; clear it through a sanitisation gate first"

def effectfulStep : Rule where
  id := "taint.effectful-step"
  expression := "!input.tainted || input.effect_class == \"PURE\""
  reason := "an effectful step may not act on untrusted data until a " ++
    "sanitisation gate clears it"

def builtinPolicy : TierPolicy := ⟨"builtin/1", [privilegedEngine, effectfulStep]⟩

def dispatchFloor : TierPolicy where
  revision := "floor/1(" ++ builtinPolicy.revision ++ ")"
  rules := builtinPolicy.rules ++ untrustedTierRules

/-- The program of an expression permits exactly what satisfies `P`. -/
def Means (e : String) (P : Activation → Prop) : Prop :=
  ∀ p, cel.compile e = .program p → ∀ a, cel.eval p a = .ok (some true) ↔ P a

/-- The language reads the three expressions as they are written. -/
structure ReadsFloor : Prop where
  signed : Means cel signedPlugins.expression fun a => a.tier ≠ untrustedTier ∨ a.signed = true
  unprivileged : Means cel unprivilegedEngines.expression fun a =>
    a.tier ≠ untrustedTier ∨ "PRIVILEGED" ∉ a.engineCapabilities
  repeatable : Means cel noAtMostOnce.expression fun a =>
    a.tier ≠ untrustedTier ∨ a.effectClass ≠ "AT_MOST_ONCE"

/-! ### What is permitted in the untrusted tier -/

/-- The digest the revision pinned has a signature of a signer allowed for its upstream. -/
def Facts.SignedPin (f : Facts) : Prop :=
  ∃ pin verify ups u digest, f.pinnedDigest = .ok pin ∧ f.provenance.sigs = some verify ∧
    f.provenance.ups = some ups ∧ federation ups f.tenantID f.step.pluginRef = .ok (some u) ∧
    parseDigestText pin = some digest ∧
    verify f.tenantID digest u.allowedIdentities = .accepted

def Facts.Bound (f : Facts) (digest : String → String) (e : Enrolled) : Prop :=
  dispatchSubject digest f.tier f.step ∈ e.agent.bound digest

def Enrolled.Privileged (e : Enrolled) : Prop :=
  Capability.privileged ∈ advertisedCapabilities e.agent.toEngineConfig

/-- The plugin is signed, the effects may be repeated, and no engine that is registered and
bound to the subject is privileged. -/
structure Facts.Floored (f : Facts) (digest : String → String) : Prop where
  signed : f.SignedPin
  repeatable : 1 < (Effects.retryPolicy f.step).maxAttempts
  unprivileged : ∀ e ∈ f.fleet, e.state ≠ .gone → f.Bound digest e → ¬ e.Privileged

/-- The step declares its effects, and the privileged engines bound to the subject are among
those the decision looks at. -/
structure Facts.Covered (f : Facts) (digest : String → String) : Prop where
  declared : f.step.effectClass = .pure ∨ f.step.effectClass = .idempotent ∨
    f.step.effectClass = .atMostOnce
  reached : ∀ e ∈ f.fleet, e.state ≠ .gone → f.Bound digest e → e.Privileged →
    e.tenantID = f.tenantID ∧ eligible (requirements f.cfg f.step) e.toMember.instance_ = true

section Untrusted

variable {cel} {f : Facts} {floor : TierPolicy} {cache : Cache cel} {turns : ℕ → Turn}
  {upstream : String}

theorem signedPin_of_pinned (h : f.pinned = (true, upstream, none)) : f.SignedPin := by
  unfold Facts.pinned at h
  split at h
  · cases h
  rename_i pin hl
  unfold Provenance.provenance at h
  split at h
  · cases h
  split at h
  · rename_i verify ups hv hup
    split at h
    · cases h
    · cases h
    rename_i u hu
    split at h
    · cases h
    rename_i di hd
    split at h
    · rename_i ha
      exact ⟨pin, verify, ups, u, di, hl, hv, hup, hu, hd, ha⟩
    · cases h
    · cases h
  · cases h

variable {caps : List Capability}

theorem mem_reachableCapabilities (hb : isBuiltin f.step = false)
    (h : f.reachableCapabilities = .ok caps) {e : Enrolled} (he : e ∈ f.fleet)
    (ht : e.tenantID = f.tenantID) (hs : e.state ≠ .gone)
    (hel : eligible (requirements f.cfg f.step) e.toMember.instance_ = true) {c : Capability}
    (hc : c ∈ advertisedCapabilities e.agent.toEngineConfig) : c ∈ caps := by
  unfold Facts.reachableCapabilities at h
  rw [hb] at h
  split at h
  · contradiction
  split at h
  · cases h
  obtain rfl := Except.ok.inj h
  rw [mem_mergeSort, mem_dedup, mem_flatMap]
  refine ⟨e.toMember.instance_, mem_filter.mpr ⟨?_, hel⟩, hc⟩
  exact mem_map_of_mem (mem_filter.mpr ⟨he, by simp [ht, hs]⟩)

theorem reachableCapabilities_eq_nil (hb : isBuiltin f.step = false) (ho : f.outage = none)
    (h : ∀ e ∈ f.fleet, eligible (requirements f.cfg f.step) e.toMember.instance_ = true →
      advertisedCapabilities e.agent.toEngineConfig = []) : f.reachableCapabilities = .ok [] := by
  have hn : (matching (requirements f.cfg f.step) (instances f.fleet f.tenantID)).flatMap
      Instance.capabilities = [] := by
    rw [flatMap_eq_nil_iff]
    intro x hx
    obtain ⟨hl, hel⟩ := mem_filter.mp hx
    obtain ⟨e, he, rfl⟩ := mem_map.mp hl
    exact h e (mem_filter.mp he).1 hel
  unfold Facts.reachableCapabilities
  rw [hb, ho, hn]
  simp

variable {i : Input}

theorem decideAll_cons_iff {n : ℕ} {secret : String} {inputs : List (Input × String)} :
    (f.decideAll cel turns n cache ((i, secret) :: inputs)).1 = .permitted ↔
      (decideOne cel (turns n) cache i).1.allow = true ∧
        (f.decideAll cel turns (n + 1) (decideOne cel (turns n) cache i).2 inputs).1 =
          .permitted := by
  rw [Facts.decideAll]
  cases ha : (decideOne cel (turns n) cache i).1.allow <;> simp [ha]

theorem decideOne_allow {turn : Turn} : (decideOne cel turn cache i).1.allow = true ↔
      (evaluate cel turn.source turn.refusal cache i).1.2 = none ∧
        (evaluate cel turn.source turn.refusal cache i).1.1.allow = true := by
  unfold decideOne
  rcases evaluate cel turn.source turn.refusal cache i with ⟨⟨d, _ | e⟩, cache'⟩ <;> simp

/-- A step of a plane with a policy is permitted if its provenance and the fleet are known and
every question about it is answered with an allow. -/
theorem permit_eq {signed : Bool} (hpolicy : f.cfg.policy = true)
    (hp : f.pinned = (signed, upstream, none)) (hc : f.reachableCapabilities = .ok caps) :
    (f.permit cel turns cache).1 =
      .ok (f.decideAll cel turns 0 cache (f.inputs (f.input signed upstream caps))).1 := by
  unfold Facts.permit
  rw [hpolicy, hp, hc]
  rfl

theorem evaluate_of_permit (hpolicy : f.cfg.policy = true)
    (h : (f.permit cel turns cache).1 = .ok .permitted) :
    ∃ signed upstream caps, f.pinned = (signed, upstream, none) ∧
      f.reachableCapabilities = .ok caps ∧ (evaluate cel (turns 0).source (turns 0).refusal cache
        (f.input signed upstream caps)).1.1.allow = true := by
  rcases hp : f.pinned with ⟨signed, upstream, _ | e⟩
  · cases hc : f.reachableCapabilities with
    | error e =>
      unfold Facts.permit at h
      rw [hpolicy, hp, hc] at h
      cases h
    | ok caps =>
      rw [permit_eq hpolicy hp hc] at h
      have hf := (decideAll_cons_iff.mp (Except.ok.inj h)).1
      exact ⟨signed, upstream, caps, rfl, rfl, (decideOne_allow.mp hf).2⟩
  · unfold Facts.permit at h
    rw [hpolicy, hp] at h
    cases h

theorem means_of_holds {r : Rule} {P : Activation → Prop} (hm : Means cel r.expression P)
    (h : Holds cel r i) : P (inputMap i) := by
  obtain ⟨c, hc, he⟩ := h
  unfold compileRule at hc
  split at hc
  · cases hc
  split at hc
  · cases hc
  · cases hc
  · cases hc
  rename_i p hp
  obtain rfl := Except.ok.inj hc
  exact (hm p hp _).mp he

variable (hcel : ReadsFloor cel) (hfloor : untrustedTierRules ⊆ floor.rules)
  (hcache : StartsWith cel floor cache) (hpolicy : f.cfg.policy = true)
  (htier : f.tier = untrustedTier)

include hcel hfloor hcache hpolicy htier

theorem floor_of_permit
    (h : (f.permit cel (fun n => (turns n).floored floor) cache).1 = .ok .permitted) :
    f.SignedPin ∧ shortEffectClass f.step.effectClass ≠ "AT_MOST_ONCE" ∧
      ∃ caps, f.reachableCapabilities = .ok caps ∧ "PRIVILEGED" ∉ caps.map shortCapability := by
  obtain ⟨si, upstream, caps, hp, hca, ha⟩ := evaluate_of_permit hpolicy h
  have hh : ∀ r ∈ untrustedTierRules, Holds cel r (f.input si upstream caps) :=
    fun r hr => floor_holds hcache ha (hfloor hr)
  have hs := means_of_holds hcel.signed (hh signedPlugins (by simp [untrustedTierRules]))
  have he := means_of_holds hcel.unprivileged
    (hh unprivilegedEngines (by simp [untrustedTierRules]))
  have hc := means_of_holds hcel.repeatable
    (hh noAtMostOnce (by simp [untrustedTierRules]))
  obtain rfl : si = true := hs.resolve_left (not_not.mpr htier)
  exact ⟨signedPin_of_pinned hp, hc.resolve_left (not_not.mpr htier), caps, hca,
    he.resolve_left (not_not.mpr htier)⟩

/-- Of what the floor is to keep out, a permitted step can only have an undeclared effect class
or an engine that was not looked at. -/
theorem floored_iff_covered (hbu : isBuiltin f.step = false)
    (h : (f.permit cel (fun n => (turns n).floored floor) cache).1 = .ok .permitted)
    (digest : String → String) : f.Floored digest ↔ f.Covered digest := by
  obtain ⟨hsi, hcl, caps, hca, hpr⟩ :=
    floor_of_permit hcel hfloor hcache hpolicy htier h
  constructor
  · intro hf
    refine ⟨?_, fun e he hs hb hp =>
      absurd hp (hf.unprivileged e he hs hb)⟩
    by_contra hu
    push Not at hu
    have hr := hf.repeatable
    rw [Effects.retryPolicy, if_neg hu.1, if_neg hu.2.1] at hr
    exact absurd hr (by decide)
  · intro hc
    refine ⟨hsi, ?_, fun e he hs hb hp => ?_⟩
    · rcases hc.declared with hpu | hi | ho
      · rw [Effects.retryPolicy, if_pos hpu]
        decide
      · have hne : f.step.effectClass ≠ .pure := by
          rw [hi]
          decide
        rw [Effects.retryPolicy, if_neg hne, if_pos hi]
        decide
      · rw [ho] at hcl
        exact absurd rfl hcl
    · obtain ⟨ht, hel⟩ := hc.reached e he hs hb hp
      have hm := mem_reachableCapabilities hbu hca he ht hs hel hp
      exact hpr (mem_map.mpr ⟨_, hm, rfl⟩)

end Untrusted

end Dhole.Permit
