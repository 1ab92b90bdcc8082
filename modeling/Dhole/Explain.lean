import Dhole.Routing

/-! The sentence a step that no engine takes is reported with. It names the first requirement that
nothing meets, looking at ever fewer engines: those that are ready, of these those on the platform,
of these those of the engine type. What it says is meant of the whole fleet, and it is true of the
whole fleet only where the engines that were not looked at do not contradict it. -/

namespace Dhole.Explain

open Plane Scheduler List
open Routing (Meets)

/-! ### The engines looked at -/

variable (req : Requirements) (fleet : List Instance)

def ready : List Instance := fleet.filter fun e => e.state = .ready

def onPlatform : List Instance :=
  (ready fleet).filter fun e => platformMatches req.os e.os && platformMatches req.arch e.arch

def onType : List Instance := (onPlatform req fleet).filter fun e => offersEngineType req.engineType e

def missing : Option Capability :=
  req.capabilities.find? fun c => c ≠ .unspecified && !(onType req fleet).any fun e => advertises e c

/-! ### Sentences -/

inductive Sentence where
  | noneRegistered
  | allDraining
  | noneReady
  | noneOnPlatform
  | noneOfType
  | noneAdvertises (c : Capability)
  | noneTogether
deriving DecidableEq

def Sentence.text : Sentence → String
  | .noneRegistered => "no engine is registered"
  | .allDraining => "every registered engine is draining"
  | .noneReady => "no registered engine is ready"
  | .noneOnPlatform => "no ready engine runs on " ++ platformName req.os req.arch
  | .noneOfType => "no ready engine offers engine type " ++ req.engineType
  | .noneAdvertises c => "no engine advertises capability " ++ shortCapability c
  | .noneTogether => "no single engine satisfies " ++ platformName req.os req.arch ++
      engineTypeClause req.engineType ++ " together with " ++ capabilityList req.capabilities

/-- What the sentence says of the fleet. -/
def Sentence.Holds : Sentence → Prop
  | .noneRegistered => fleet = []
  | .allDraining => ∀ e ∈ fleet, e.state = .draining
  | .noneReady => ∀ e ∈ fleet, e.state ≠ .ready
  | .noneOnPlatform => ∀ e ∈ fleet, e.state = .ready →
      ¬ (platformMatches req.os e.os = true ∧ platformMatches req.arch e.arch = true)
  | .noneOfType => ∀ e ∈ fleet, e.state = .ready → offersEngineType req.engineType e = false
  | .noneAdvertises c => ∀ e ∈ fleet, advertises e c = false
  | .noneTogether => ∀ e ∈ fleet, e.state = .ready → ¬ Meets req e

def diagnosis : Sentence :=
  if fleet = [] then .noneRegistered
  else if ready fleet = [] then
    if fleet.any fun e => e.state = .draining then .allDraining else .noneReady
  else if onPlatform req fleet = [] then .noneOnPlatform
  else if onType req fleet = [] then .noneOfType
  else (missing req fleet).elim .noneTogether .noneAdvertises

theorem explain_eq_text : explain req fleet = (diagnosis req fleet).text req := by
  unfold diagnosis
  split_ifs with hf hr hd hp ht
  · exact if_pos hf
  · exact (if_neg hf).trans ((if_pos hr).trans (if_pos hd))
  · exact (if_neg hf).trans ((if_pos hr).trans (if_neg hd))
  · exact (if_neg hf).trans ((if_neg hr).trans (if_pos hp))
  · exact (if_neg hf).trans ((if_neg hr).trans ((if_neg hp).trans (if_pos ht)))
  · refine (if_neg hf).trans ((if_neg hr).trans ((if_neg hp).trans ((if_neg ht).trans ?_)))
    split <;> rename_i hm
    · rw [show missing req fleet = some _ from hm]
      rfl
    · rw [show missing req fleet = none from hm]
      rfl

/-! ### Truth -/

/-- The engines that were not looked at do not contradict the sentence: none is left aside that is
not draining, that is elsewhere and of the engine type, that has the capability, or that meets all
of the requirements but has no slot. -/
@[mk_iff]
structure Covered : Prop where
  draining : ready fleet = [] → (∃ e ∈ fleet, e.state = .draining) → ∀ e ∈ fleet, e.state = .draining
  typed : onPlatform req fleet ≠ [] → onType req fleet = [] → ∀ e ∈ ready fleet,
    e ∉ onPlatform req fleet → offersEngineType req.engineType e = false
  advertised : onType req fleet ≠ [] → ∀ c ∈ missing req fleet, ∀ e ∈ fleet,
    e ∉ onType req fleet → advertises e c = false
  slotless : onType req fleet ≠ [] → missing req fleet = none → ∀ e ∈ onType req fleet,
    e.slots ≤ 0 → ¬ Meets req e

variable {req fleet}

theorem mem_ready {e : Instance} : e ∈ ready fleet ↔ e ∈ fleet ∧ e.state = .ready := by
  simp [ready]

theorem mem_onType {e : Instance} : e ∈ onType req fleet ↔ e ∈ ready fleet ∧
    (platformMatches req.os e.os = true ∧ platformMatches req.arch e.arch = true) ∧
      offersEngineType req.engineType e = true := by
  simp only [onType, onPlatform, mem_filter, Bool.and_eq_true, and_assoc]

theorem eligible_iff {e : Instance} :
    eligible req e = true ↔ e.state = .ready ∧ 0 < e.slots ∧ Meets req e := by
  simp [eligible, Meets, and_assoc]

/-- The sentence is true exactly if the engines left aside do not contradict it. -/
theorem truthful_iff (h : matching req fleet = []) :
    explain req fleet = (diagnosis req fleet).text req ∧ (diagnosis req fleet).Holds req fleet ↔
      Covered req fleet := by
  rw [and_iff_right (explain_eq_text req fleet), diagnosis, covered_iff]
  split_ifs with hf hr hd hp ht
  · simp [Sentence.Holds, hf, ready, onPlatform, onType]
  · have hp : onPlatform req fleet = [] := by simp [onPlatform, hr]
    have hd : ∃ e ∈ fleet, e.state = .draining := by simpa using hd
    simp [Sentence.Holds, hr, hp, onType, hd]
  · have hp : onPlatform req fleet = [] := by simp [onPlatform, hr]
    have hd : ¬ ∃ e ∈ fleet, e.state = .draining := by simpa using hd
    simpa [Sentence.Holds, hp, onType, hd, ready] using hr
  · have ht : onType req fleet = [] := by simp [onType, hp]
    have hn := hp
    rw [onPlatform, filter_eq_nil_iff] at hn
    refine iff_of_true (fun e he hs hm => hn e (mem_ready.mpr ⟨he, hs⟩) (by simp [hm])) ?_
    simp [hr, hp, ht]
  · have hn := ht
    rw [onType, filter_eq_nil_iff] at hn
    simp only [hr, hp, ht, ne_eq, not_true, not_false_eq_true, true_imp_iff, false_imp_iff,
      true_and, and_true]
    constructor
    · intro hno e he _
      exact hno e (mem_ready.mp he).1 (mem_ready.mp he).2
    · intro hno e he hs
      by_cases hon : e ∈ onPlatform req fleet
      · exact Bool.eq_false_iff.mpr (hn e hon)
      · exact hno e (mem_ready.mpr ⟨he, hs⟩) hon
  cases hm : missing req fleet with
  | none =>
    simp only [hr, ht, ne_eq, not_false_eq_true, false_imp_iff, true_imp_iff, true_and,
      Option.not_mem_none, implies_true]
    constructor
    · intro hno e he _
      obtain ⟨hmm, hs⟩ := mem_ready.mp (mem_onType.mp he).1
      exact hno e hmm hs
    · intro hno e he hs hme
      obtain ⟨ho, ha, ht, -⟩ := id hme
      have hon := mem_onType.mpr ⟨mem_ready.mpr ⟨he, hs⟩, ⟨ho, ha⟩, ht⟩
      -- an engine with a slot would have been matched
      refine hno e hon (not_lt.mp fun hsl => ?_) hme
      exact filter_eq_nil_iff.mp h e he (eligible_iff.mpr ⟨hs, hsl, hme⟩)
  | some c =>
    have hc := find?_some hm
    simp only [hr, hp, ht, ne_eq, not_false_eq_true, false_imp_iff, true_imp_iff, true_and,
      reduceCtorEq, and_true, Option.mem_some_iff, forall_eq']
    constructor
    · exact fun hno e he _ => hno e he
    · intro hno e he
      by_cases hon : e ∈ onType req fleet
      · simp only [Bool.and_eq_true, Bool.not_eq_true', any_eq_false] at hc
        exact Bool.eq_false_iff.mpr (hc.2 e hon)
      · exact hno e he hon

def engine (os : String) (types : List String) : Instance :=
  ⟨.ready, 1, os, "amd64", types, [], 0⟩

def onLinux : Requirements := ⟨"linux", "", [], "vm"⟩

theorem untyped_fleet_explained : matching onLinux [engine "linux" []] = [] ∧
    (diagnosis onLinux [engine "linux" []]).Holds onLinux [engine "linux" []] :=
  ⟨by decide, ((truthful_iff (by decide)).mpr
    ⟨by decide, by decide, by decide, fun h => absurd (by decide) h⟩).2⟩

/-- The one engine of the type is on another platform. -/
theorem type_elsewhere_denied : matching onLinux [engine "linux" [], engine "darwin" ["vm"]] = [] ∧
    diagnosis onLinux [engine "linux" [], engine "darwin" ["vm"]] = .noneOfType ∧
    ¬ Sentence.noneOfType.Holds onLinux [engine "linux" [], engine "darwin" ["vm"]] := by
  refine ⟨by decide, by decide, fun h => ?_⟩
  exact absurd (h (engine "darwin" ["vm"]) (by simp) rfl) (by decide)

end Dhole.Explain
