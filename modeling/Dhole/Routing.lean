import Dhole.Scheduler

/-! Where a dispatch goes. A plane publishes a step on a subject made of its tier, a hash of
the step's capabilities and, if the step names one, the engine kind; an engine binds the
subjects of its own tier for every set of capabilities it can serve. The plane decides with
`matching` over what the engines registered; the queue delivers by subject alone. The
subjects carry neither the operating system nor the architecture, and `matching` does not
look at the tier. -/

namespace Dhole.Routing

open Plane Scheduler List

/-! ### Capability sets -/

/-- `slices.Compact`: of a run of equal elements one stays. -/
def compact {α : Type} [DecidableEq α] : List α → List α
  | a :: b :: l => if a = b then compact (b :: l) else a :: compact (b :: l)
  | l => l

def normaliseCaps (caps : List Capability) : List Capability :=
  compact ((caps.filter fun c => c ≠ .unspecified).mergeSort fun a b =>
    decide (a.number.toInt ≤ b.number.toInt))

/-- What is hashed: the number of each capability on a line. -/
def hashedForm (caps : List Capability) : String :=
  String.ofList ((normaliseCaps caps).flatMap fun c => (toString c.number.toInt).toList ++ ['\n'])

/-- `digest` is the first sixteen hex digits of the SHA-256 sum. -/
def capsHash (digest : String → String) (caps : List Capability) : String := digest (hashedForm caps)

/-- Two sets of capabilities with one hash are the same set, and a hash is one token of a
subject. -/
structure CollisionFree (digest : String → String) : Prop where
  injective : ∀ caps caps', capsHash digest caps = capsHash digest caps' →
    normaliseCaps caps = normaliseCaps caps'
  token : ∀ caps, '.' ∉ (capsHash digest caps).toList

/-! ### Subjects -/

def hasForbidden (s : String) : Bool := s.toList.any fun c => c ∈ ".*> \t\r\n\x0c/\\".toList

/-- A tier that is one token of a subject and part of a stream's name. -/
def validTierToken (tier : String) : Bool :=
  tier ≠ "" && !hasForbidden tier &&
    decide ("DISPATCH_".utf8ByteSize + tier.utf8ByteSize ≤ 255)

def validKindToken (kind : String) : Bool :=
  kind.toList.all fun r => !(r = '.' || r = '*' || r = '>' || decide (r ≤ ' ') || r = '\x7f')

structure Tier where
  name : String
  valid : validTierToken name = true
deriving DecidableEq

def subjectDispatch (tier capsHash : String) : String := "job.dispatch." ++ tier ++ "." ++ capsHash

def subjectDispatchKind (tier capsHash kind : String) : String :=
  subjectDispatch tier capsHash ++ "." ++ kind

def dispatchSubject (digest : String → String) (tier : String) (step : Step) : String :=
  let hash := capsHash digest step.capabilities
  if step.engineType ≠ "" then subjectDispatchKind tier hash step.engineType
  else subjectDispatch tier hash

/-! ### Engines -/

/-- The configuration of an engine, with the platform it runs on. -/
structure EngineConfig where
  tier : String
  kind : String
  executorCapabilities : List Capability := []
  secrets : Bool := false
  slots : ℤ := 1
  os : String
  arch : String

structure Agent extends EngineConfig where
  tier_required : tier ≠ ""
  kind_valid : validKindToken kind = true

def advertisedCapabilities (cfg : EngineConfig) : List Capability :=
  normaliseCaps (cfg.executorCapabilities ++ if cfg.secrets then [.secrets] else [])

def maxAdvertisedCaps : ℕ := 8

/-- The members of `granted` whose bit is set. -/
def subsetAt (granted : List Capability) (mask : ℕ) : List Capability :=
  granted.zipIdx.filterMap fun (c, i) => if mask.testBit i then some c else none

def satisfiableCapsHashes (digest : String → String) (caps : List Capability) :
    Except Text (List String) :=
  let granted := normaliseCaps caps
  if granted.length > maxAdvertisedCaps then
    .error ["engine: ", toString granted.length, " capabilities advertised, at most ",
      toString maxAdvertisedCaps, " supported"]
  else .ok ((List.range (2 ^ granted.length)).map fun mask => capsHash digest (subsetAt granted mask))

def Agent.workQueues (a : Agent) (hashes : List String) : List String :=
  hashes.flatMap fun hash => subjectDispatch a.tier hash ::
    if a.kind = "" then [] else [subjectDispatchKind a.tier hash a.kind]

/-- The subjects the engine binds once it runs, none if it does not start. -/
def Agent.bound (digest : String → String) (a : Agent) : List String :=
  match satisfiableCapsHashes digest (advertisedCapabilities a.toEngineConfig) with
  | .error _ => []
  | .ok hashes => if validTierToken a.tier then a.workQueues hashes else []

def Agent.registered (a : Agent) (state : EngineState) : Instance where
  state
  slots := if a.slots ≤ 0 then 1 else a.slots
  os := a.os
  arch := a.arch
  engineTypes := [a.kind]
  capabilities := advertisedCapabilities a.toEngineConfig

/-! ### Normal forms -/

variable {caps gr s : List Capability} {c : Capability}

theorem mem_compact {α : Type} [DecidableEq α] {x : α} {l : List α} : x ∈ compact l ↔ x ∈ l := by
  fun_induction compact l with
  | case1 a l ih => simp [ih]
  | case2 a b l hne ih => simp [ih]
  | case3 l => rfl

def Increasing (caps : List Capability) : Prop :=
  caps.Pairwise fun a b => a.number.toInt < b.number.toInt

theorem increasing_compact {l : List Capability}
    (h : l.Pairwise fun a b => a.number.toInt ≤ b.number.toInt) :
    Increasing (compact l) := by
  fun_induction compact l with
  | case1 a l ih => exact ih h.of_cons
  | case2 a b l hne ih =>
    have hlt : a.number.toInt < b.number.toInt := by
      refine lt_of_le_of_ne (rel_of_pairwise_cons h mem_cons_self) fun heq => hne ?_
      exact congrArg OpenEnum.mk (Int32.toInt_inj.mp heq)
    refine pairwise_cons.mpr ⟨fun c hc => ?_, ih h.of_cons⟩
    obtain rfl | hc := mem_cons.mp (mem_compact.mp hc)
    · exact hlt
    · exact lt_of_lt_of_le hlt (rel_of_pairwise_cons h.of_cons hc)
  | case3 l hl =>
    match l, hl with
    | [], _ => exact Pairwise.nil
    | [a], _ => exact pairwise_singleton _ _
    | a :: b :: l, hl => exact absurd rfl (hl a b l)

theorem increasing_normaliseCaps (caps : List Capability) : Increasing (normaliseCaps caps) := by
  refine increasing_compact ?_
  have hs : ((caps.filter fun c => c ≠ .unspecified).mergeSort fun a b =>
      decide (a.number.toInt ≤ b.number.toInt)).Pairwise fun a b =>
        decide (a.number.toInt ≤ b.number.toInt) = true := by
    refine pairwise_mergeSort ?_ ?_ _
    · simp only [decide_eq_true_eq] at *
      omega
    · simp only [Bool.or_eq_true, decide_eq_true_eq]
      omega
  simpa using hs

theorem mem_normaliseCaps : c ∈ normaliseCaps caps ↔ c ∈ caps ∧ c ≠ .unspecified := by
  unfold normaliseCaps
  rw [mem_compact, mem_mergeSort, mem_filter, decide_eq_true_eq]

theorem Increasing.nodup (h : Increasing s) : s.Nodup :=
  h.imp fun hlt heq => (lt_irrefl _ (heq ▸ hlt)).elim

theorem Increasing.sublist (hs : Increasing s) (hg : Increasing gr) (hsu : s ⊆ gr) :
    s.Sublist gr :=
  sublist_of_subperm_of_pairwise (subperm_of_subset hs.nodup hsu) hs hg

theorem Increasing.eq (hs : Increasing s) (hg : Increasing gr) (h : ∀ c, c ∈ s ↔ c ∈ gr) : s = gr :=
  (hs.sublist hg fun c hc => (h c).mp hc).antisymm (hg.sublist hs fun c hc => (h c).mpr hc)

theorem normaliseCaps_normaliseCaps (caps : List Capability) :
    normaliseCaps (normaliseCaps caps) = normaliseCaps caps := by
  refine (increasing_normaliseCaps _).eq (increasing_normaliseCaps _) fun c => ?_
  rw [mem_normaliseCaps, mem_normaliseCaps]
  tauto

/-! ### Every subset has a mask -/

def pick : List Capability → ℕ → List Capability
  | [], _ => []
  | c :: granted, mask =>
    if mask.testBit 0 then c :: pick granted (mask / 2) else pick granted (mask / 2)

theorem filterMap_zipIdx_eq_pick (gr : List Capability) (mask k : ℕ) :
    (gr.zipIdx k).filterMap (fun (c, i) => if mask.testBit i then some c else none) =
      pick gr (mask >>> k) := by
  induction gr generalizing k with
  | nil => rfl
  | cons c gr ih =>
    have hb : (mask >>> k).testBit 0 = mask.testBit k := by
      rw [Nat.testBit_shiftRight, Nat.add_zero]
    have hr : mask >>> k / 2 = mask >>> (k + 1) := (Nat.shiftRight_succ mask k).symm
    rw [zipIdx_cons, pick, hr, ← ih (k + 1)]
    cases hm : mask.testBit k <;> simp [hm]

theorem subsetAt_eq_pick (gr : List Capability) (mask : ℕ) : subsetAt gr mask = pick gr mask :=
  filterMap_zipIdx_eq_pick gr mask 0

theorem pick_sublist (gr : List Capability) (mask : ℕ) : (pick gr mask).Sublist gr := by
  induction gr generalizing mask with
  | nil => exact List.Sublist.refl _
  | cons c gr ih =>
    rw [pick]
    split
    · exact (ih _).cons_cons c
    · exact (ih _).cons c

theorem exists_pick (h : s.Sublist gr) : ∃ mask < 2 ^ gr.length, pick gr mask = s := by
  induction h with
  | slnil => exact ⟨0, by simp, rfl⟩
  | @cons s gr c _ ih =>
    obtain ⟨mask, hlt, hp⟩ := ih
    refine ⟨2 * mask, by rw [length_cons]; omega, ?_⟩
    have hb : (2 * mask).testBit 0 = false := by simp
    rw [pick, hb, Nat.mul_div_cancel_left mask two_pos, hp]
    rfl
  | @cons_cons s gr c _ ih =>
    obtain ⟨mask, hlt, hp⟩ := ih
    refine ⟨2 * mask + 1, by rw [length_cons]; omega, ?_⟩
    have hb : (2 * mask + 1).testBit 0 = true := by simp
    rw [pick, hb, show (2 * mask + 1) / 2 = mask by omega, hp]
    rfl

/-! ### What an engine serves -/

variable {digest : String → String} {a : Agent} {step : Step}

/-- The engine grants every capability of the step, and its kind is the one the step names, if
it names one. -/
structure Agent.Serves (a : Agent) (step : Step) : Prop where
  starts : (advertisedCapabilities a.toEngineConfig).length ≤ maxAdvertisedCaps
  grants : ∀ c ∈ step.capabilities, c = .unspecified ∨ c ∈ advertisedCapabilities a.toEngineConfig
  kind : step.engineType = "" ∨ a.kind = step.engineType

theorem advertised_normal (cfg : EngineConfig) :
    normaliseCaps (advertisedCapabilities cfg) = advertisedCapabilities cfg :=
  normaliseCaps_normaliseCaps _

theorem mem_hashes_iff (hd : CollisionFree digest) {cfg : EngineConfig} {caps : List Capability} :
    (∃ mask < 2 ^ (advertisedCapabilities cfg).length,
        capsHash digest (subsetAt (advertisedCapabilities cfg) mask) = capsHash digest caps) ↔
      ∀ c ∈ caps, c = .unspecified ∨ c ∈ advertisedCapabilities cfg := by
  constructor
  · rintro ⟨mask, -, hh⟩ c hc
    by_cases hu : c = .unspecified
    · exact .inl hu
    · have hm : c ∈ normaliseCaps caps := mem_normaliseCaps.mpr ⟨hc, hu⟩
      rw [← hd.injective _ _ hh, mem_normaliseCaps, subsetAt_eq_pick] at hm
      exact .inr ((pick_sublist _ _).subset hm.1)
  · intro hg
    have hsu : normaliseCaps caps ⊆ advertisedCapabilities cfg := by
      intro c hc
      obtain ⟨hm, hne⟩ := mem_normaliseCaps.mp hc
      exact (hg c hm).resolve_left hne
    have hs : (normaliseCaps caps).Sublist (advertisedCapabilities cfg) :=
      (increasing_normaliseCaps caps).sublist (increasing_normaliseCaps _) hsu
    obtain ⟨mask, hlt, hp⟩ := exists_pick hs
    refine ⟨mask, hlt, ?_⟩
    rw [subsetAt_eq_pick, hp, capsHash, capsHash, hashedForm, normaliseCaps_normaliseCaps, hashedForm]

theorem token_inj {sep : Char} {s t x y : List Char} (hs : sep ∉ s) (ht : sep ∉ t)
    (h : s ++ sep :: x = t ++ sep :: y) : s = t ∧ x = y := by
  induction s generalizing t with
  | nil =>
    cases t with
    | nil => exact ⟨rfl, (cons.inj h).2⟩
    | cons c t => exact absurd (cons.inj h).1 fun hc => ht (hc ▸ mem_cons_self)
  | cons c s ih =>
    cases t with
    | nil => exact absurd (cons.inj h).1 fun hc => hs (hc ▸ mem_cons_self)
    | cons d t =>
      obtain ⟨rfl, hr⟩ := cons.inj h
      obtain ⟨rfl, rfl⟩ := ih (fun hm => hs (mem_cons_of_mem _ hm))
        (fun hm => ht (mem_cons_of_mem _ hm)) hr
      exact ⟨rfl, rfl⟩

theorem dot_notMem_of_valid {tier : String} (h : validTierToken tier = true) :
    '.' ∉ tier.toList := by
  intro hm
  simp only [validTierToken, hasForbidden, Bool.and_eq_true, Bool.not_eq_true', any_eq_false] at h
  exact h.1.2 _ hm (by decide)

/-- A subject past its first two tokens: the tier, the hash and the kind if there is one. -/
def subjectTail (tier hash : String) : Option String → List Char
  | none => tier.toList ++ '.' :: hash.toList
  | some kind => tier.toList ++ '.' :: (hash.toList ++ '.' :: kind.toList)

theorem subjectDispatch_toList (tier hash : String) :
    (subjectDispatch tier hash).toList = "job.dispatch.".toList ++ subjectTail tier hash none := by
  simp [subjectDispatch, subjectTail]

theorem subjectDispatchKind_toList (tier hash kind : String) :
    (subjectDispatchKind tier hash kind).toList =
      "job.dispatch.".toList ++ subjectTail tier hash (some kind) := by
  simp [subjectDispatchKind, subjectDispatch, subjectTail]

theorem subjectTail_inj {tier tier' hash hash' : String} {kind kind' : Option String}
    (ht : '.' ∉ tier.toList) (ht' : '.' ∉ tier'.toList) (hh : '.' ∉ hash.toList)
    (hh' : '.' ∉ hash'.toList) (h : subjectTail tier hash kind = subjectTail tier' hash' kind') :
    tier = tier' ∧ hash = hash' ∧ kind = kind' := by
  cases kind with
  | none =>
    cases kind' with
    | none =>
      obtain ⟨hti, hha⟩ := token_inj ht ht' h
      exact ⟨String.toList_inj.mp hti, String.toList_inj.mp hha, rfl⟩
    | some kind' =>
      obtain ⟨-, hr⟩ := token_inj ht ht' h
      exact absurd (hr ▸ by simp) hh
  | some kind =>
    cases kind' with
    | none =>
      obtain ⟨-, hr⟩ := token_inj ht ht' h
      exact absurd (hr.symm ▸ by simp) hh'
    | some kind' =>
      obtain ⟨hti, hr⟩ := token_inj ht ht' h
      obtain ⟨hha, hk⟩ := token_inj hh hh' hr
      exact ⟨String.toList_inj.mp hti, String.toList_inj.mp hha,
        congrArg some (String.toList_inj.mp hk)⟩

def stepKind (step : Step) : Option String := if step.engineType ≠ "" then some step.engineType else none

theorem dispatchSubject_toList (tier : String) (step : Step) :
    (dispatchSubject digest tier step).toList = "job.dispatch.".toList ++
      subjectTail tier (capsHash digest step.capabilities) (stepKind step) := by
  unfold dispatchSubject stepKind
  split_ifs
  · exact subjectDispatchKind_toList _ _ _
  · exact subjectDispatch_toList _ _

theorem mem_workQueues {ha : List String} {subject : String} :
    subject ∈ a.workQueues ha ↔ ∃ hash ∈ ha, ∃ kind : Option String,
      (kind = none ∨ a.kind ≠ "" ∧ kind = some a.kind) ∧
        subject.toList = "job.dispatch.".toList ++ subjectTail a.tier hash kind := by
  unfold Agent.workQueues
  rw [mem_flatMap]
  refine exists_congr fun hash => and_congr_right fun _ => ?_
  constructor
  · intro hm
    obtain rfl | hm := mem_cons.mp hm
    · exact ⟨none, .inl rfl, subjectDispatch_toList _ _⟩
    · split_ifs at hm with hk
      · cases hm
      · rw [mem_singleton.mp hm]
        exact ⟨some a.kind, .inr ⟨hk, rfl⟩, subjectDispatchKind_toList _ _ _⟩
  · rintro ⟨kind, rfl | ⟨hk, rfl⟩, hs⟩
    · rw [← subjectDispatch_toList, String.toList_inj] at hs
      exact mem_cons.mpr (.inl hs)
    · rw [← subjectDispatchKind_toList, String.toList_inj] at hs
      rw [if_neg hk]
      exact mem_cons.mpr (.inr (mem_singleton.mpr hs))

/-- An engine binds the subject of a step exactly if it is in the tier and serves the step. -/
theorem mem_bound_iff (hd : CollisionFree digest) (tier : Tier) :
    dispatchSubject digest tier.name step ∈ a.bound digest ↔ a.tier = tier.name ∧ a.Serves step := by
  have hdo := dot_notMem_of_valid tier.valid
  unfold Agent.bound satisfiableCapsHashes
  rw [advertised_normal]
  by_cases hs : (advertisedCapabilities a.toEngineConfig).length > maxAdvertisedCaps
  · rw [if_pos hs]
    simp only [not_mem_nil, false_iff]
    exact fun h => absurd h.2.starts (not_le.mpr hs)
  · rw [if_neg hs]
    dsimp only
    constructor
    · intro hme
      split_ifs at hme with hv
      · obtain ⟨hash, hh, kind, hk, hsu⟩ := mem_workQueues.mp hme
        obtain ⟨mask, hm, rfl⟩ := mem_map.mp hh
        rw [dispatchSubject_toList] at hsu
        obtain ⟨ht, hc, hst⟩ := subjectTail_inj hdo (dot_notMem_of_valid hv)
          (hd.token _) (hd.token _) (append_cancel_left hsu)
        refine ⟨ht.symm, not_lt.mp hs, (mem_hashes_iff hd).mp ⟨mask, mem_range.mp hm, hc.symm⟩, ?_⟩
        unfold stepKind at hst
        split_ifs at hst with he
        · obtain rfl | ⟨-, rfl⟩ := hk
          · cases hst
          · exact .inr (Option.some.inj hst).symm
        · exact .inl (not_not.mp he)
      · cases hme
    · rintro ⟨ht, -, hg, hk⟩
      rw [if_pos (ht ▸ tier.valid)]
      obtain ⟨mask, hm, hh⟩ := (mem_hashes_iff hd).mpr hg
      refine mem_workQueues.mpr ⟨_, mem_map.mpr ⟨mask, mem_range.mpr hm, rfl⟩,
        stepKind step, ?_, by rw [dispatchSubject_toList, hh, ht]⟩
      unfold stepKind
      split_ifs with he
      · have heq := hk.resolve_left he
        exact .inr ⟨heq ▸ he, congrArg some heq.symm⟩
      · exact .inl rfl

/-! ### Routing -/

structure Member where
  agent : Agent
  state : EngineState

def Member.instance_ (m : Member) : Instance := m.agent.registered m.state

def Meets (req : Requirements) (e : Instance) : Prop :=
  platformMatches req.os e.os = true ∧ platformMatches req.arch e.arch = true ∧
    offersEngineType req.engineType e = true ∧
    ∀ c ∈ req.capabilities, c = .unspecified ∨ advertises e c = true

/-- Whoever is bound to the subject of the step meets its requirements, and of the engines that
match one is bound to it. -/
structure Routes (digest : String → String) (cfg : Config) (tier : Tier) (fleet : List Member)
    (step : Step) : Prop where
  sound : ∀ m ∈ fleet, dispatchSubject digest tier.name step ∈ m.agent.bound digest →
    Meets (requirements cfg step) m.instance_
  reached : matching (requirements cfg step) (fleet.map Member.instance_) ≠ [] →
    ∃ m ∈ fleet, m.instance_ ∈ matching (requirements cfg step) (fleet.map Member.instance_) ∧
      dispatchSubject digest tier.name step ∈ m.agent.bound digest

/-- The engines of the tier that serve the step are on the platform of the plane, and if any
engine is eligible, one of the tier is that starts. -/
structure PlacedByTier (cfg : Config) (tier : Tier) (fleet : List Member) (step : Step) : Prop where
  platform : ∀ m ∈ fleet, m.agent.tier = tier.name → m.agent.Serves step →
    platformMatches cfg.os m.agent.os = true ∧ platformMatches cfg.arch m.agent.arch = true
  in_tier : (∃ m ∈ fleet, eligible (requirements cfg step) m.instance_ = true) →
    ∃ m ∈ fleet, eligible (requirements cfg step) m.instance_ = true ∧ m.agent.tier = tier.name ∧
      (advertisedCapabilities m.agent.toEngineConfig).length ≤ maxAdvertisedCaps

theorem meets_of_eligible {req : Requirements} {e : Instance} (h : eligible req e = true) :
    Meets req e := by
  simp only [eligible, Bool.and_eq_true, all_eq_true, Bool.or_eq_true, decide_eq_true_eq] at h
  exact ⟨h.1.1.1.2, h.1.1.2, h.1.2, h.2⟩

theorem serves_iff_meets {m : Member} {cfg : Config} {step : Step} :
    m.agent.Serves step ∧ platformMatches cfg.os m.agent.os = true ∧
        platformMatches cfg.arch m.agent.arch = true ↔ Meets (requirements cfg step) m.instance_ ∧
        (advertisedCapabilities m.agent.toEngineConfig).length ≤ maxAdvertisedCaps := by
  have ht : offersEngineType step.engineType m.instance_ = true ↔
      step.engineType = "" ∨ m.agent.kind = step.engineType := by
    rw [offersEngineType, Bool.or_eq_true, decide_eq_true_eq, contains_iff_mem]
    exact or_congr_right (mem_singleton.trans eq_comm)
  have hca : ∀ c, advertises m.instance_ c = true ↔
      c ∈ advertisedCapabilities m.agent.toEngineConfig := by
    simp [advertises, Member.instance_, Agent.registered]
  constructor
  · rintro ⟨⟨hs, hg, hk⟩, hos, ha⟩
    exact ⟨⟨hos, ha, ht.mpr hk, fun c hc => (hg c hc).imp_right (hca c).mpr⟩, hs⟩
  · rintro ⟨⟨hos, ha, hk, hg⟩, hs⟩
    exact ⟨⟨hs, fun c hc => (hg c hc).imp_right (hca c).mp, ht.mp hk⟩, hos, ha⟩

/-- For every fleet, plane and step. -/
theorem routes_iff_placedByTier (digest : String → String) (hdigest : CollisionFree digest)
    (cfg : Config) (tier : Tier) (fleet : List Member) (step : Step) :
    Routes digest cfg tier fleet step ↔ PlacedByTier cfg tier fleet step := by
  have hma : ∀ m ∈ fleet, m.instance_ ∈
      matching (requirements cfg step) (fleet.map Member.instance_) ↔
        eligible (requirements cfg step) m.instance_ = true := by
    intro m hm
    rw [matching, mem_filter]
    exact and_iff_right (mem_map_of_mem hm)
  have hso : matching (requirements cfg step) (fleet.map Member.instance_) ≠ [] ↔
      ∃ m ∈ fleet, eligible (requirements cfg step) m.instance_ = true := by
    rw [matching, Ne]
    simp
  constructor
  · rintro ⟨hsu, hr⟩
    refine ⟨fun m hm ht hs => ?_, fun ha => ?_⟩
    · have hme := hsu m hm ((mem_bound_iff hdigest tier).mpr ⟨ht, hs⟩)
      exact (serves_iff_meets.mpr ⟨hme, hs.starts⟩).2
    · obtain ⟨m, hm, hmm, hb⟩ := hr (hso.mpr ha)
      obtain ⟨ht, hs⟩ := (mem_bound_iff hdigest tier).mp hb
      exact ⟨m, hm, (hma m hm).mp hmm, ht, hs.starts⟩
  · rintro ⟨hp, hin⟩
    refine ⟨fun m hm hb => ?_, fun ha => ?_⟩
    · obtain ⟨ht, hs⟩ := (mem_bound_iff hdigest tier).mp hb
      exact (serves_iff_meets.mp ⟨hs, hp m hm ht hs⟩).1
    · obtain ⟨m, hm, he, ht, hst⟩ := hin (hso.mp ha)
      have hs := (serves_iff_meets.mpr ⟨meets_of_eligible he, hst⟩).1
      exact ⟨m, hm, (hma m hm).mpr he, (mem_bound_iff hdigest tier).mpr ⟨ht, hs⟩⟩

/-! ### An engine of the tier on another platform, and one of another tier -/

theorem isDigit_of_mem_repr {n : ℤ} {c : Char} (h : c ∈ (toString n).toList) :
    c = '-' ∨ c.isDigit = true := by
  have hn : ∀ m : ℕ, c ∈ m.repr.toList → c.isDigit = true := by
    intro m hm
    rw [Nat.repr_eq_ofList_toDigits, String.toList_ofList] at hm
    exact Nat.isDigit_of_mem_toDigits (by decide) (by decide) hm
  cases n with
  | ofNat m => exact .inr (hn m h)
  | negSucc m =>
    have hme : c ∈ ("-" ++ m.succ.repr).toList := h
    rw [String.toList_append, mem_append] at hme
    exact hme.imp (fun hc => by simpa using hc) (hn _)

theorem lines_injective {l l' : List Capability}
    (h : l.flatMap (fun c => (toString c.number.toInt).toList ++ ['\n']) =
      l'.flatMap fun c => (toString c.number.toInt).toList ++ ['\n']) : l = l' := by
  have hl : ∀ n : ℤ, '\n' ∉ (toString n).toList := fun n hm => by
    obtain hc | hc := isDigit_of_mem_repr hm <;> revert hc <;> decide
  induction l generalizing l' with
  | nil =>
    cases l' with
    | nil => rfl
    | cons c l' => simp at h
  | cons c l ih =>
    cases l' with
    | nil => simp at h
    | cons c' l' =>
      simp only [flatMap_cons, append_assoc] at h
      obtain ⟨hf, hr⟩ := token_inj (hl _) (hl _) h
      have hn := Int.repr_injective (String.toList_inj.mp hf)
      rw [ih hr, show c = c' from congrArg OpenEnum.mk (Int32.toInt_inj.mp hn)]

theorem collisionFree_id : CollisionFree id where
  injective caps caps' h := lines_injective (String.ofList_injective h)
  token caps hm := by
    simp only [capsHash, hashedForm, id, String.toList_ofList, mem_flatMap, mem_append] at hm
    obtain ⟨c, -, hc | hc⟩ := hm
    · obtain hc | hc := isDigit_of_mem_repr hc <;> revert hc <;> decide
    · revert hc
      decide

def linuxPlane : Config := { ttl := 30, os := "linux", arch := "amd64" }

def defaultTier : Tier := ⟨"default", rfl⟩

theorem process_valid : validKindToken "process" = true := rfl

def engineOn (tier os : String) (htier : tier ≠ "") : Member where
  state := .ready
  agent :=
    { tier, kind := "process", os, arch := "amd64", tier_required := htier, kind_valid := process_valid }

def plainStep : Step := { id := "build" }

theorem engineOn_serves (tier os : String) (ht : tier ≠ "") :
    (engineOn tier os ht).agent.Serves plainStep where
  starts := by simp [engineOn, advertisedCapabilities, normaliseCaps, compact]
  grants := by simp [plainStep]
  kind := .inl rfl

/-- A windows engine of the tier is bound to the subject of a step for linux; and with the only
eligible engine in another tier, nobody is bound to it. -/
theorem otherPlatform_not_routed : CollisionFree id ∧ ¬ Routes id linuxPlane defaultTier
      [engineOn "default" "linux" (by decide), engineOn "default" "windows" (by decide)] plainStep ∧
    ¬ Routes id linuxPlane defaultTier [engineOn "trusted" "linux" (by decide)] plainStep := by
  refine ⟨collisionFree_id, fun h => ?_, fun h => ?_⟩
  · have hme := h.sound (engineOn "default" "windows" (by decide)) (by simp)
      ((mem_bound_iff collisionFree_id defaultTier).mpr ⟨rfl, engineOn_serves _ _ _⟩)
    exact absurd hme.1 (by decide)
  · obtain ⟨m, hm, -, hb⟩ := h.reached (by
      simp [matching, eligible, engineOn, Member.instance_, Agent.registered, requirements, plainStep,
        linuxPlane, platformMatches, offersEngineType])
    obtain rfl := mem_singleton.mp hm
    exact absurd ((mem_bound_iff collisionFree_id defaultTier).mp hb).1 (by decide)

theorem samePlatform_routed : CollisionFree id ∧ Routes id linuxPlane defaultTier
    [engineOn "default" "linux" (by decide), engineOn "trusted" "linux" (by decide)] plainStep := by
  refine ⟨collisionFree_id,
    (routes_iff_placedByTier id collisionFree_id linuxPlane defaultTier _ plainStep).mpr ⟨?_, ?_⟩⟩
  · intro m hm _ _
    obtain rfl | rfl := by simpa using hm
    · exact ⟨rfl, rfl⟩
    · exact ⟨rfl, rfl⟩
  · refine fun _ => ⟨engineOn "default" "linux" (by decide), by simp, ?_, rfl,
      (engineOn_serves _ _ _).starts⟩
    simp [eligible, engineOn, Member.instance_, Agent.registered, requirements, plainStep,
      linuxPlane, platformMatches, offersEngineType]

end Dhole.Routing
