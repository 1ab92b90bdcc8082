import Dhole.CacheKey
import Dhole.Growth

/-! Where a result is looked up and where it is recorded. A pass looks a step up in the graph of
the run, with every fragment its log has by then, while the result of the step is recorded under
the revision as it was authored. -/

namespace Dhole.Cache

open Scheduler Dhole.System List

variable (defs : Definitions) (tenantID : String) (tier : Step → String)
  (lockfile : Std.ExtTreeMap String String)

/-- The step as it is looked up before it is dispatched. -/
def lookedUp (log : Log) (step : Step) : Option Placement :=
  (graphOf defs tenantID (RunState.ofLog log)).map fun p =>
    { placed p step (RunState.ofLog log) with tierIdentity := tier step, lockfile }

/-- The step as its result is recorded; one that the revision does not have is not pure. -/
def recorded (log : Log) (stepID : String) : Option Placement := do
  let state := RunState.ofLog log
  let p ← defs tenantID state.pipelineID state.revisionID
  let step ← findStep p stepID
  some { placed p step state with tierIdentity := tier step, lockfile }

def Placement.Sized (a : Placement) : Prop :=
  ∀ inputs, a.inputDigests = some inputs → (a.material inputs).Fits

variable {defs tenantID tier lockfile} {l log : Log} {step : Step} {a b : Placement} {g : Dag.Graph}

section Keys

variable (hcreated : CreatedOnce log) (hl : l <+: log) (hstarted : (RunState.ofLog l).created = true)
  (hlooked : lookedUp defs tenantID tier lockfile l step = some a)
  (hbuild : Dag.build (some a.pipeline) = .ok g) (hstep : step ∈ a.pipeline.steps)

include hcreated hl hstarted hlooked hbuild hstep

theorem recorded_eq_some (hr : recorded defs tenantID tier lockfile log step.id = some b) :
    a.step = b.step ∧ a.tierIdentity = b.tierIdentity ∧ a.lockfile = b.lockfile := by
  obtain ⟨p, hg, rfl⟩ := Option.map_eq_some_iff.mp hlooked
  obtain ⟨q, hq, hr⟩ := Option.bind_eq_some_iff.mp hr
  obtain ⟨s, hs, hr⟩ := Option.bind_eq_some_iff.mp hr
  cases hr
  obtain ⟨hp, hre, -⟩ := ofLog_of_prefix hcreated hl hstarted
  obtain ⟨q', hq', hsp⟩ := Option.bind_eq_some_iff.mp hg
  rw [hp, hre, hq'] at hq
  cases hq
  cases (Dynamic.findStep_of_mem (Dag.build_ok hbuild).1.1 hstep).symm.trans
    (findStep_spliceRealised hsp hs)
  exact ⟨rfl, rfl, rfl⟩

/-- The result of a step that was looked up is recorded under the same key exactly if the authored
revision has the step and feeds it the same digests. -/
theorem recorded_key_iff {sum : Wire.Bytes → String} {key : Digest} (hsum : Function.Injective sum)
    (hsized : a.Sized)
    (hrecorded : ∀ b, recorded defs tenantID tier lockfile log step.id = some b → b.Sized)
    (hkey : a.cacheKey sum = some key) :
    (recorded defs tenantID tier lockfile log step.id).bind (Placement.cacheKey sum) = some key ↔
      ∃ b digests digests', recorded defs tenantID tier lockfile log step.id = some b ∧
        a.inputDigests = some digests ∧ b.inputDigests = some digests' ∧
          (digests.map digestPair).Perm (digests'.map digestPair) := by
  obtain ⟨hel, digests, hd, rfl⟩ := cacheKey_eq_some.mp hkey
  have hs := fun b => recorded_eq_some (b := b) hcreated hl hstarted hlooked hbuild hstep
  constructor
  · intro h
    obtain ⟨b, hb, h⟩ := Option.bind_eq_some_iff.mp h
    obtain ⟨-, digests', hd', heq⟩ := cacheKey_eq_some.mp h
    have hm := encode_injective (hsized _ hd) (hrecorded b hb _ hd')
      (hsum (congrArg (·.hex) heq))
    exact ⟨b, digests, digests', hb, hd, hd', (material_eq_iff.mp hm).2.2.1⟩
  · rintro ⟨b, _, digests', hb, hlooked', hd', hp⟩
    cases hd.symm.trans hlooked'
    obtain ⟨hstep, ht, hlo⟩ := hs b hb
    have he : a.environment = b.environment := by
      rw [Placement.environment, Placement.environment, hstep, ht]
    refine Option.bind_eq_some_iff.mpr ⟨b, hb, cacheKey_eq_some.mpr ⟨?_, digests', hd', ?_⟩⟩
    · rw [← hstep, ← he]
      exact hel
    · rw [material_eq_iff.mpr ⟨by rw [hstep], he, hp, hlo⟩]

end Keys

def linked : Definitions := fun _ _ _ =>
  some { steps := [{ id := "main" }, { id := "util" }, linkStep], edges := linkEdges }

def linking : Log :=
  [⟨"", 0, .runCreated "p" "r1", 0⟩, ⟨"util", 1, .stepSucceeded [object "util"], 1⟩,
   ⟨"main", 1, .stepSucceeded [object "main"], 2⟩]

/-- The step with two inputs, as it is looked up when both have arrived. -/
def looked : Placement where
  pipeline := { steps := [{ id := "main" }, { id := "util" }, linkStep], edges := linkEdges }
  step := linkStep
  outputs := (RunState.ofLog linking).outputs
  tierIdentity := "sha256:env"

/-- Its result is recorded under the key it was looked up with. -/
theorem linking_recorded : looked.cacheKey plainSum ≠ none ∧
    (recorded linked "acme" (fun _ => "sha256:env") ∅
      (linking ++ [⟨"link", 1, .stepDispatched ⟨1, false⟩, 3⟩]) "link").bind
      (Placement.cacheKey plainSum) = looked.cacheKey plainSum := by
  have hlooked : lookedUp linked "acme" (fun _ => "sha256:env") ∅ linking linkStep = some looked := rfl
  have ho : CreatedOnce (linking ++ [⟨"link", 1, .stepDispatched ⟨1, false⟩, 3⟩]) := by
    simp [CreatedOnce, linking, Plane.createsRun]
  obtain ⟨g, hbuild⟩ := Lexical.isOk_iff.mp
    (by decide +kernel : (Dag.build (some looked.pipeline)).isOk = true)
  have hs : looked.Sized := by
    rintro inputs ⟨⟩
    exact fits_linked rfl rfl rfl (.refl _)
  refine ⟨by rintro ⟨⟩, (recorded_key_iff ho (prefix_append _ _) rfl hlooked hbuild (by simp [looked])
    plainSum_injective hs ?_ rfl).mpr ⟨_, _, _, rfl, rfl, rfl, .refl _⟩⟩
  rintro b ⟨⟩ inputs ⟨⟩
  exact fits_linked rfl rfl rfl (.refl _)

def oneStep (step : Step) : Definitions := fun _ _ _ => some { steps := [step] }

def compilation : Log := [⟨"", 0, .runCreated "p" "r1", 0⟩]

/-- The step comes in a fragment that the first step realises. -/
def fannedOut : Log :=
  compilation ++ [⟨"list", 1, .fragmentRealised { steps := [compileStep ∅ []] }, 0⟩]

theorem fragment_not_recorded :
    (∃ p, graphOf (oneStep { id := "list" }) "acme" (RunState.ofLog fannedOut) = some p ∧
      compileStep ∅ [] ∈ p.steps) ∧
    (lookedUp (oneStep { id := "list" }) "acme" (fun _ => "sha256:env") ∅ fannedOut
      (compileStep ∅ [])).bind (Placement.cacheKey plainSum) ≠ none ∧
    (recorded (oneStep { id := "list" }) "acme" (fun _ => "sha256:env") ∅ fannedOut
      "compile").bind (Placement.cacheKey plainSum) = none :=
  ⟨⟨_, rfl, by simp [Dynamic.spliced]⟩, nofun, rfl⟩

end Dhole.Cache
