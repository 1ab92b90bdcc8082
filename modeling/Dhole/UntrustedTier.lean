import Dhole.Judgements
import Dhole.Permit

/-! The floor of the untrusted tier, from the decision to the dispatch. Every row of the outbox
has behind it a decision of its plane on the same step, made under the floor, whatever the
tier's own rules are and whatever is cached. The floor reads the effect class by its name and
the fleet through `matching`: a class that is not declared passes it although it is never
retried, and so does a privileged engine that takes from the subject but is not matched. -/

namespace Dhole.Permit

open Plane Scheduler Policy Routing Taint Dhole.System Interleave List

/-- How the planes come to their answers: the floor, the tier of each plane, and for each
place of the history what is decided on, what the evaluations meet and what the engine has
evaluated before. -/
structure Desk where
  floor : TierPolicy
  tier : ℕ → String
  facts : ℕ → Facts
  turns : ℕ → ℕ → Turn
  calls : ℕ → List Call

def Desk.verdict (D : Desk) (cel : Cel) (n : ℕ) : Except Text Verdict :=
  ((D.facts n).permit cel (fun k => (D.turns n k).floored D.floor)
    (after cel (fun _ => none) ((D.calls n).map (Call.floored D.floor)))).1

/-- Every answer that allowed a step is what the plane that got it decided on that step. -/
def Desk.Decides (D : Desk) (cel : Cel) (actors : ℕ → Actor) (tr : History) : Prop :=
  ∀ n j tenantID runID step, tr[n]? = some ⟨j, allowed tenantID runID step⟩ →
    (D.facts n).cfg = (actors j).cfg ∧ (D.facts n).tier = D.tier (actors j).cfg.plane ∧
    (D.facts n).tenantID = tenantID ∧ (D.facts n).step = step ∧
    D.verdict cel n = .ok .permitted

/-- Behind every dispatch of an untrusted plane there is a decision under the floor, and what
the floor is to keep out was kept out exactly if the effect class was declared and every
privileged engine bound to the subject was looked at. -/
theorem untrusted_dispatch_iff (cel : Cel) (hcel : ReadsFloor cel) (D : Desk)
    (hfloor : untrustedTierRules ⊆ D.floor.rules) (digest : String → String) (defs : Definitions)
    (actors : ℕ → Actor) (tr : History) (hruns : Runs defs actors tr)
    (hpolicy : ∀ i, (actors i).cfg.policy = true) (hdecides : D.Decides cel actors tr)
    (n i : ℕ) (tenantID runID : String) (events : List Dhole.Event) (rows : List JobDispatch)
    (res : TxRes) (hn : tr[n]? = some ⟨i, did (.commit tenantID runID events rows) res⟩)
    (htier : D.tier (actors i).cfg.plane = untrustedTier) (d : JobDispatch) (hd : d ∈ rows)
    (hengine : isBuiltin d.step = false) :
    ∃ k < n, (∃ j, tr[k]? = some ⟨j, allowed tenantID runID d.step⟩) ∧
      (D.facts k).step = d.step ∧ (D.facts k).tier = untrustedTier ∧
      ((D.facts k).Floored digest ↔ (D.facts k).Covered digest) := by
  obtain ⟨k, hk, j, hg, hp⟩ :=
    allowed_of_row hruns.planeTrace (hruns.judged hpolicy) hn hd
  obtain ⟨hcf, ho, -, hs, hv⟩ := hdecides k j tenantID runID d.step hg
  have htier : (D.facts k).tier = untrustedTier := by rw [ho, hp, htier]
  have hc : StartsWith cel D.floor
      (after cel (fun _ => none) ((D.calls k).map (Call.floored D.floor))) :=
    startsWith_after _ fun _ _ h => (nomatch h)
  refine ⟨k, hk, ⟨j, hg⟩, hs, htier, floored_iff_covered hcel hfloor hc ?_ htier ?_ hv digest⟩
  · rw [hcf, hpolicy j]
  · rw [hs, hengine]

/-! ### Planes of the untrusted tier -/

def floorLanguage : Cel where
  Prog := Activation → Bool
  compile := fun e =>
    if e = signedPlugins.expression then .program fun a => a.signed || a.tier != untrustedTier
    else if e = unprivilegedEngines.expression then
      .program fun a => !a.engineCapabilities.contains "PRIVILEGED" || a.tier != untrustedTier
    else if e = noAtMostOnce.expression then
      .program fun a => a.effectClass != "AT_MOST_ONCE" || a.tier != untrustedTier
    else if e = privilegedEngine.expression then
      .program fun a => !a.engineCapabilities.contains "PRIVILEGED" || !a.tainted
    else if e = effectfulStep.expression then
      .program fun a => !a.tainted || a.effectClass = "PURE"
    else if e = "true" then .program fun _ => true
    else .invalid ["undeclared reference"]
  eval := fun p a => .ok (some (p a))

theorem floorLanguage_reads : ReadsFloor floorLanguage where
  signed p hp a := by
    have hpr : floorLanguage.compile signedPlugins.expression =
        .program fun a => a.signed || a.tier != untrustedTier := rfl
    obtain rfl := Outcome.program.inj (hpr.symm.trans hp)
    simp [floorLanguage, or_comm]
  unprivileged p hp a := by
    have hpr : floorLanguage.compile unprivilegedEngines.expression =
        .program fun a => !a.engineCapabilities.contains "PRIVILEGED" ||
          a.tier != untrustedTier := rfl
    obtain rfl := Outcome.program.inj (hpr.symm.trans hp)
    simp [floorLanguage, or_comm]
  repeatable p hp a := by
    have hpr : floorLanguage.compile noAtMostOnce.expression =
        .program fun a => a.effectClass != "AT_MOST_ONCE" || a.tier != untrustedTier := rfl
    obtain rfl := Outcome.program.inj (hpr.symm.trans hp)
    simp [floorLanguage, or_comm]

def vouched : Provenance where
  sigs := some fun _ _ _ => .accepted
  ups := some fun _ _ => .ok (some ⟨"oci://registry", ["ci"]⟩)

def untrustedPlane : Config :=
  { ttl := 30, os := "linux", arch := "amd64", policy := true }

def engineOf (os : String) (caps : List Capability) : Enrolled where
  tenantID := "acme"
  state := .ready
  agent :=
    { tier := untrustedTier, kind := "process", os, arch := "amd64", executorCapabilities := caps
      tier_required := by decide, kind_valid := process_valid }

def openSource : Source := fun _ _ => .ok (some ⟨"1", [⟨"open", "true", ""⟩]⟩)

/-- A plane of the untrusted tier, with an open policy of its own, that decides on a step. -/
def untrustedDesk (step : Step) (fleet : List Enrolled) : Desk where
  floor := dispatchFloor
  tier := fun _ => untrustedTier
  facts := fun _ =>
    { cfg := untrustedPlane, tier := untrustedTier, tenantID := "acme", revisionID := "r1"
      pipeline := { id := "p", steps := [step] }, step, taint := ⟨fun _ => none, fun _ => []⟩
      lockfile := .ok fun _ => "sha256:ab", provenance := vouched, fleet }
  turns := fun _ _ => { source := openSource }
  calls := fun _ => []

def starter : ℕ → Actor := fun _ =>
  { cfg := untrustedPlane, fuel := 1, task := .startRun "acme" "run" "p" "r1" }

def untrustedRun (step : Step) (fleet : List Enrolled) : History :=
  run (fun _ _ _ => some { id := "p", steps := [step] }) starter
    { engines := instances fleet "acme" } (replicate 19 0)

def policyAsked? : PlaneEvent → Option (String × Step)
  | ⟨.inr (.ask (.policy tenantID _ step)), _⟩ => some (tenantID, step)
  | _ => none

variable {step : Step} {fleet : List Enrolled}

theorem untrustedDesk_decides
    (ha : (untrustedRun step fleet).filterMap (fun a => policyAsked? a.event) = [("acme", step)])
    (hv : ∀ n, (untrustedDesk step fleet).verdict floorLanguage n = .ok .permitted) :
    (untrustedDesk step fleet).Decides floorLanguage starter (untrustedRun step fleet) := by
  intro n j t ru s hn
  have hm : (t, s) ∈ (untrustedRun step fleet).filterMap fun a => policyAsked? a.event :=
    mem_filterMap.mpr ⟨_, mem_of_getElem? hn, rfl⟩
  rw [ha, mem_singleton] at hm
  obtain ⟨rfl, rfl⟩ := Prod.mk.inj hm
  exact ⟨rfl, rfl, rfl, rfl, hv n⟩

def signedStep : Step := { id := "build", pluginRef := "acme/build:v1", effectClass := .pure }

def undeclaredStep : Step := { id := "build", pluginRef := "acme/build:v1" }

/-- A fleet with one engine, and one with a privileged engine of another platform as well. -/
def linuxFleet : List Enrolled := [engineOf "linux" []]

def mixedFleet : List Enrolled := [engineOf "linux" [], engineOf "windows" [.privileged]]

theorem vouched_provenance : vouched.provenance "acme" "acme/build:v1" "sha256:ab" =
    (true, "oci://registry", none) := rfl

theorem eligible_untrusted (step : Step) (caps : List Capability) :
    eligible (requirements untrustedPlane step) (engineOf "windows" caps).toMember.instance_ =
      false := by
  simp [eligible, requirements, untrustedPlane, engineOf, Member.instance_, Agent.registered,
    platformMatches]

theorem advertised_nil (os : String) :
    advertisedCapabilities (engineOf os []).agent.toEngineConfig = [] := by
  simp [engineOf, advertisedCapabilities, normaliseCaps, compact]

theorem advertised_privileged (os : String) :
    advertisedCapabilities (engineOf os [.privileged]).agent.toEngineConfig = [.privileged] := by
  change compact ([Capability.privileged].mergeSort _) = [.privileged]
  rw [mergeSort_singleton, compact]
  simp

/-- The decision on a step of its own that reaches no privileged engine, by the rules. -/
theorem untrustedDesk_permitted (n : ℕ) (hp : step.pluginRef = "acme/build:v1")
    (hi : step.inputs = []) (hs : step.secrets = [])
    (hcl : shortEffectClass step.effectClass ≠ "AT_MOST_ONCE")
    (hca : ((untrustedDesk step fleet).facts n).reachableCapabilities = .ok []) :
    (untrustedDesk step fleet).verdict floorLanguage n = .ok .permitted := by
  have hpi : ((untrustedDesk step fleet).facts n).pinned = (true, "oci://registry", none) := by
    change vouched.provenance "acme" step.pluginRef "sha256:ab" = _
    rw [hp, vouched_provenance]
  have hta : taintSources { id := "p", steps := [step] } step ⟨fun _ => none, fun _ => []⟩ =
      [] := by
    simp [taintSources, sorted, Net.reaching, taintNet, ownSources, feeds, hi]
  let i := ((untrustedDesk step fleet).facts n).input true "oci://registry" []
  have ht : i.tainted = false := by
    simp [i, Facts.input, untrustedDesk, hta]
  have ha : (evaluate floorLanguage (withFloor openSource dispatchFloor) none (fun _ => none)
      i).1.1.allow = true := by
    change (judge floorLanguage _ i _).allow = true
    rw [judge_allow_iff]
    intro c hc
    simp only [mem_cons, not_mem_nil, or_false] at hc
    rcases hc with rfl | rfl | rfl | rfl | rfl | rfl
    · rfl
    · simp [floorLanguage, inputMap, ht]
    · rfl
    · rfl
    · simp [floorLanguage, inputMap, show i.effectClass = step.effectClass from rfl, hcl]
    · rfl
  rw [Desk.verdict, permit_eq rfl hpi hca]
  refine congrArg _ (decideAll_cons_iff.mpr ⟨decideOne_allow.mpr ⟨rfl, ha⟩, ?_⟩)
  change (Facts.decideAll _ _ _ _ _ (step.secrets.map _)).1 = _
  rw [hs]
  rfl

theorem untrustedDesk_unprivileged (n : ℕ) (hb : isBuiltin step = false)
    (hf : ∀ e ∈ fleet, e = engineOf "linux" [] ∨ e = engineOf "windows" [.privileged]) :
    ((untrustedDesk step fleet).facts n).reachableCapabilities = .ok [] := by
  refine reachableCapabilities_eq_nil hb rfl fun e he hel => ?_
  rcases hf e he with rfl | rfl
  · exact advertised_nil _
  · cases (eligible_untrusted step [.privileged]).symm.trans hel

theorem linuxFleet_decides : (untrustedDesk signedStep linuxFleet).Decides floorLanguage starter
    (untrustedRun signedStep linuxFleet) :=
  untrustedDesk_decides rfl fun n => untrustedDesk_permitted n rfl rfl rfl (by decide)
    (untrustedDesk_unprivileged n rfl (by simp [linuxFleet]))

theorem mixedFleet_decides : (untrustedDesk signedStep mixedFleet).Decides floorLanguage starter
    (untrustedRun signedStep mixedFleet) :=
  untrustedDesk_decides rfl fun n => untrustedDesk_permitted n rfl rfl rfl (by decide)
    (untrustedDesk_unprivileged n rfl (by simp [mixedFleet]))

theorem undeclared_decides : (untrustedDesk undeclaredStep linuxFleet).Decides floorLanguage starter
    (untrustedRun undeclaredStep linuxFleet) :=
  untrustedDesk_decides rfl fun n => untrustedDesk_permitted n rfl rfl rfl (by decide)
    (untrustedDesk_unprivileged n rfl (by simp [linuxFleet]))

def DispatchesAt (step : Step) (fleet : List Enrolled) (n : ℕ) : Prop :=
  ∃ events d res, (untrustedRun step fleet)[n]? =
      some ⟨0, did (.commit "acme" "run" events [d]) res⟩ ∧ d.step = step

theorem linuxFleet_dispatched : DispatchesAt signedStep linuxFleet 17 := ⟨_, _, _, rfl, rfl⟩

theorem mixedFleet_dispatched : DispatchesAt signedStep mixedFleet 17 := ⟨_, _, _, rfl, rfl⟩

theorem undeclared_dispatched : DispatchesAt undeclaredStep linuxFleet 18 := ⟨_, _, _, rfl, rfl⟩

theorem linuxFleet_floored : ∃ k < 17,
    ((untrustedDesk signedStep linuxFleet).facts k).Floored id := by
  obtain ⟨events, d, res, hn, hs⟩ := linuxFleet_dispatched
  obtain ⟨k, hk, -, -, -, hi⟩ := untrusted_dispatch_iff floorLanguage floorLanguage_reads
    (untrustedDesk signedStep linuxFleet)
    (subset_append_right _ _) id _ starter (untrustedRun signedStep linuxFleet)
    (run_runs _ _ _ _) (fun _ => rfl) linuxFleet_decides 17 0 "acme" "run" events [d] res hn rfl d
    (mem_singleton_self d) (by rw [hs]; rfl)
  refine ⟨k, hk, hi.mpr ⟨.inl rfl, fun e he _ _ hp => ?_⟩⟩
  obtain rfl := mem_singleton.mp he
  rw [Enrolled.Privileged, advertised_nil] at hp
  cases hp

/-- A step whose effects are not declared is dispatched, and so is one whose subject a privileged
engine of another platform takes from. -/
theorem undeclared_and_unseen_dispatched : (DispatchesAt undeclaredStep linuxFleet 18 ∧
      (untrustedDesk undeclaredStep linuxFleet).Decides floorLanguage starter
        (untrustedRun undeclaredStep linuxFleet) ∧
      ∀ k, ¬ ((untrustedDesk undeclaredStep linuxFleet).facts k).Floored id) ∧
    (DispatchesAt signedStep mixedFleet 17 ∧
      (untrustedDesk signedStep mixedFleet).Decides floorLanguage starter
        (untrustedRun signedStep mixedFleet) ∧
      ∀ k, ¬ ((untrustedDesk signedStep mixedFleet).facts k).Floored id) := by
  refine ⟨⟨undeclared_dispatched, undeclared_decides, fun k hf => ?_⟩,
    mixedFleet_dispatched, mixedFleet_decides, fun k hf => ?_⟩
  · have hr : 1 < (Effects.retryPolicy undeclaredStep).maxAttempts := hf.repeatable
    exact absurd hr (by decide)
  · have hs : (engineOf "windows" [.privileged]).agent.Serves signedStep := by
      refine ⟨?_, by simp [signedStep], .inl rfl⟩
      rw [advertised_privileged]
      decide
    have hb : ((untrustedDesk signedStep mixedFleet).facts k).Bound id
        (engineOf "windows" [.privileged]) :=
      (mem_bound_iff collisionFree_id ⟨untrustedTier, rfl⟩).mpr ⟨rfl, hs⟩
    refine hf.unprivileged (engineOf "windows" [.privileged])
      (by simp [untrustedDesk, mixedFleet]) (by simp [engineOf]) hb ?_
    rw [Enrolled.Privileged, advertised_privileged]
    exact mem_singleton_self _

end Dhole.Permit
