import Dhole.Partitions

/-! Who owns a run. A plane answers from its local view, which is renewed at the end of a pass; the
claim behind it ends by the clock. As long as a claim is taken over only when the plane it names has
dropped the partition, what a plane believes to hold is claimed in its name, so no two planes own the
same run. A pass that fails early drops nothing, and the claim may end in the meantime. -/

namespace Dhole.Partitions

open Interleave Prog KV List

/-- Planes with ids of their own, and how many passes each makes. -/
structure Fleet where
  ids : ℕ → String
  distinct : Function.Injective ids
  passes : ℕ → ℕ

/-- A bucket to start from: every claim of the deployment is kept under its partition. -/
structure Start (ρ : Ring) where
  state : State
  homed : ∀ part claim, (state.bucket (.claim ρ.deploymentID part)).live = some claim →
    claim.partition = part

abbrev PartHistory := List (Act partSig)

abbrev Histories (ρ : Ring) (fleet : Fleet) (start : Start ρ) (tr : PartHistory) : Prop :=
  Guarded (partWorld start.state) (fun i => ρ.Justified (fleet.ids i)) tr

abbrev claimAt {ρ : Ring} (start : Start ρ) (tr : PartHistory) (part : ℕ) : Option Record :=
  (((partWorld start.state).state tr).bucket (.claim ρ.deploymentID part)).live

/-- `Owns`, as the plane would answer now. -/
def Ring.owns (ρ : Ring) (tr : PartHistory) (i : ℕ) (runID : String) : Bool :=
  partitionFor runID ρ.count ∈ view (own i tr)

def believes (h : List PartEvent) (part : ℕ) : Bool := part ∈ view h ∨ part ∈ unpublished h

/-- The claim that takes effect with this call. -/
def landsClaim : PartEvent → Option (ℕ × Record)
  | ⟨.kv (.create (.claim _ part) claim), r⟩ => (WriteRes.landed r).map fun _ => (part, claim)
  | ⟨.kv (.update (.claim _ part) claim _), r⟩ => (WriteRes.landed r).map fun _ => (part, claim)
  | _ => none

/-- When a claim is taken over, the plane it named does not believe to hold the partition. -/
def yields {ρ : Ring} (fleet : Fleet) (start : Start ρ) (us : PartHistory) (a : Act partSig) :
    Bool :=
  match landsClaim a.event with
  | none => true
  | some (part, claim) =>
    match claimAt start us part with
    | none => true
    | some old => decide (old.instanceID = claim.instanceID) ||
        us.all fun b => decide (fleet.ids b.actor ≠ old.instanceID) ||
          !believes (own b.actor us) part

/-- No plane has paused beyond the lifetime of a claim that it goes by. -/
def Prompt {ρ : Ring} (fleet : Fleet) (start : Start ρ) (us : PartHistory) : Prop :=
  ∀ i part claim, believes (own i us) part = true → claimAt start us part = some claim →
    claim.instanceID = fleet.ids i → ((partWorld start.state).state us).clock ≤ claim.expiresAt

variable {ρ : Ring} {fleet : Fleet} {start : Start ρ} {tr us vs : PartHistory} {a : Act partSig}
  {i j part rev : ℕ} {claim found : Record}

theorem claim_next {s : State} {e : PartEvent} {h : List PartEvent} {iid : String}
    (hg : ρ.Justified iid h e) (ha : answers s e) (part : ℕ) :
    ((next s e).bucket (.claim ρ.deploymentID part) = s.bucket (.claim ρ.deploymentID part) ∧
        ∀ claim, landsClaim e ≠ some (part, claim)) ∨ (∃ claim, landsClaim e = some (part, claim) ∧
        ((next s e).bucket (.claim ρ.deploymentID part)).live = some claim ∧
        claim.partition = part ∧ claim.instanceID = iid) ∨
      ∃ rev r, e = ⟨.kv (.deleteAt (.claim ρ.deploymentID part) rev), r⟩ ∧
        (s.bucket (.claim ρ.deploymentID part)).rev = rev ∧
        ((next s e).bucket (.claim ρ.deploymentID part)).live = none := by
  obtain ⟨op, r⟩ := e
  cases op with
  | kv op =>
    have hkv : KV.Answers s.bucket op r := ha
    change (KV.next s.bucket op r _ = _ ∧ _) ∨
      (∃ claim, _ ∧ (KV.next s.bucket op r _).live = _ ∧ _) ∨
      ∃ rev r', _ ∧ _ ∧ (KV.next s.bucket op r _).live = _
    -- what a write of another key or one without effect comes to
    have hk : (∀ cell, op.written r ≠ some ⟨.claim ρ.deploymentID part, cell⟩) →
        KV.next s.bucket op r (.claim ρ.deploymentID part) =
          s.bucket (.claim ρ.deploymentID part) :=
      fun ho => (next_cases _ op r _).resolve_right
        fun ⟨cell, _, hw⟩ => ho cell hw
    cases op with
    | get key | listKeys => exact .inl ⟨rfl, by rintro _ ⟨⟩⟩
    | create key claim | update key claim rev' =>
      obtain ⟨rfl, hi, -⟩ := hg
      cases hl : WriteRes.landed r with
      | none => exact .inl ⟨hk (by simp [Op.written, hl]), by simp [landsClaim, hl]⟩
      | some rev =>
        by_cases hp : claim.partition = part
        · subst hp
          refine .inr (.inl ⟨claim, by simp [landsClaim, hl], ?_, rfl, hi⟩)
          simp [KV.next, Op.written, hl]
        · refine .inl ⟨hk fun cell hc => ?_, by simp [landsClaim, hp]⟩
          simp [Op.written, hp] at hc
    | put key claim =>
      obtain rfl : key = .member ρ.deploymentID iid := hg
      refine .inl ⟨hk fun cell hc => ?_, by rintro _ ⟨⟩⟩
      simp [Op.written] at hc
    | delete key => exact hg.elim
    | deleteAt key rev =>
      obtain ⟨q, found, rfl, -⟩ := hg
      cases hl : WriteRes.landed r with
      | none => exact .inl ⟨hk (by simp [Op.written, hl]), by rintro _ ⟨⟩⟩
      | some rev' =>
        by_cases hp : found.partition = part
        · subst hp
          exact .inr (.inr ⟨rev, r, rfl, (Write.of_landed hkv hl).1,
            by simp [KV.next, Op.written, hl]⟩)
        · refine .inl ⟨hk fun cell hc => ?_, by rintro _ ⟨⟩⟩
          simp [Op.written, hp] at hc
  | _ => exact .inl ⟨rfl, by rintro _ ⟨⟩⟩

theorem claimAt_snoc (htr : Histories ρ fleet start (us ++ [a])) (part : ℕ) :
    (claimAt start (us ++ [a]) part = claimAt start us part ∧
        ∀ claim, landsClaim a.event ≠ some (part, claim)) ∨
      (∃ claim, landsClaim a.event = some (part, claim) ∧
        claimAt start (us ++ [a]) part = some claim ∧ claim.partition = part ∧
        claim.instanceID = fleet.ids a.actor) ∨
      ∃ rev r, a.event = ⟨.kv (.deleteAt (.claim ρ.deploymentID part) rev), r⟩ ∧
        (((partWorld start.state).state us).bucket (.claim ρ.deploymentID part)).rev = rev ∧
        claimAt start (us ++ [a]) part = none := by
  obtain ⟨ha, hg⟩ := htr.last
  have hn : (partWorld start.state).state (us ++ [a]) =
      next ((partWorld start.state).state us) a.event := World.state_snoc _ _ _
  rw [claimAt, hn]
  obtain ⟨hs, hno⟩ | hw | hgi := claim_next hg ha part
  · exact .inl ⟨congrArg Cell.live hs, hno⟩
  · exact .inr (.inl hw)
  · exact .inr (.inr hgi)

theorem homed (htr : Histories ρ fleet start tr) (hc : claimAt start tr part = some claim) :
    claim.partition = part := by
  induction tr using reverseRecOn with
  | nil => exact start.homed part claim hc
  | append_singleton tr a ih =>
    obtain ⟨hs, -⟩ | ⟨cl', -, hne, hp, -⟩ | ⟨rev, r, -, -, hn⟩ := claimAt_snoc htr part
    · exact ih htr.of_append (hs ▸ hc)
    · obtain rfl := Option.some.inj (hne.symm.trans hc)
      exact hp
    · rw [hn] at hc
      cases hc

theorem claim_stands {q : ℕ} (htr : Histories ρ fleet start us)
    (hr : readAt (.claim ρ.deploymentID q) found rev ∈ own j us) (hp : found.partition = part)
    (hre : (((partWorld start.state).state us).bucket (.claim ρ.deploymentID part)).rev = rev) :
    claimAt start us part = some found := by
  obtain ⟨xs, ys, rfl⟩ := append_of_mem (mem_of_mem_own hr)
  have ha : (((partWorld start.state).state xs).bucket (.claim ρ.deploymentID q)).entry =
    some (found, rev) := (htr.at_split).1
  obtain ⟨fo', hl, heq⟩ := Option.map_eq_some_iff.mp ha
  obtain ⟨rfl, rfl⟩ : fo' = found ∧ _ = rev := Prod.mk.inj heq
  obtain rfl : part = q := hp.symm.trans (homed htr.of_append hl)
  have hs := cell_stands (f := fun s : State => s.bucket (.claim ρ.deploymentID part))
    (fun s e he => ?_) htr hre
  · rw [claimAt, hs]
    exact hl
  · obtain ⟨op, r⟩ := e
    cases op with
    | kv op => exact cell_next he _
    | _ => exact .inl rfl

theorem seen_le_clock {t : ℤ} (htr : Histories ρ fleet start us) (hm : ⟨.now, t⟩ ∈ own j us) :
    t ≤ ((partWorld start.state).state us).clock := by
  induction us using reverseRecOn with
  | nil => cases hm
  | append_singleton us a ih =>
    obtain ⟨i, op, r⟩ := a
    have ha := htr.last.1
    rw [World.state_snoc]
    rcases mem_append.mp (mem_of_mem_own hm) with hin | hin
    · have hle := ih htr.of_append (mem_own_of_mem hin)
      cases op with
      | now => exact hle.trans ha
      | _ => exact hle
    · cases mem_singleton.mp hin
      exact le_rfl

theorem of_landsClaim {e : PartEvent} (hl : landsClaim e = some (part, claim)) :
    ∃ d r rev, WriteRes.landed r = some rev ∧ (e = ⟨.kv (.create (.claim d part) claim), r⟩ ∨
      ∃ rev₀, e = ⟨.kv (.update (.claim d part) claim rev₀), r⟩) := by
  unfold landsClaim at hl
  split at hl
  · obtain ⟨rev, hla, heq⟩ := Option.map_eq_some_iff.mp hl
    cases heq
    exact ⟨_, _, rev, hla, .inl rfl⟩
  · obtain ⟨rev, hla, heq⟩ := Option.map_eq_some_iff.mp hl
    cases heq
    exact ⟨_, _, rev, hla, .inr ⟨_, rfl⟩⟩
  · cases hl

/-- Who overwrites the claim of another plane has found its deadline passed. -/
theorem yields_of_prompt (htr : Histories ρ fleet start (us ++ [a])) (hp : Prompt fleet start us) :
    yields fleet start us a = true := by
  obtain ⟨j, e⟩ := a
  obtain ⟨ha, hg⟩ := htr.last
  unfold yields
  split
  · rfl
  rename_i part claim hl
  cases hc : claimAt start us part with
  | none => rfl
  | some old =>
    simp only [Bool.or_eq_true, decide_eq_true_eq, all_eq_true, Bool.not_eq_true']
    obtain ⟨d, r, rev, hla, rfl | ⟨rev₀, rfl⟩⟩ := of_landsClaim hl
    · -- where there is a claim, none is created
      obtain ⟨hk, -⟩ := hg
      cases hk
      have hn : claimAt start us _ = none := (Write.of_landed ha hla).1
      rw [hn] at hc
      cases hc
    · obtain ⟨hk, hi, hop⟩ := hg
      cases hk
      obtain ⟨q, found, hr, hpa, hof⟩ := hop _ rfl
      have hst := claim_stands htr.of_append hr hpa (Write.of_landed ha hla).1
      obtain rfl := Option.some.inj (hc.symm.trans hst)
      rcases hof with hm | ⟨t, ht, hlt⟩
      · exact .inl (hm.trans hi.symm)
      refine .inr fun b _ => or_iff_not_imp_left.mpr fun hb => Bool.eq_false_iff.mpr fun hh => ?_
      exact absurd ((seen_le_clock htr.of_append ht).trans
        (hp b.actor _ _ hh hc (not_not.mp hb).symm)) (not_le.mpr hlt)

theorem wrote_lands {e : PartEvent} (hw : wrote e = some part) :
    ∃ claim, landsClaim e = some (part, claim) := by
  unfold wrote at hw
  split at hw
  · cases hw
    exact ⟨_, rfl⟩
  · cases hw
    exact ⟨_, rfl⟩
  · cases hw

/-- What a plane believes it believed before, or has just claimed. -/
theorem believes_snoc (htr : Histories ρ fleet start (us ++ [a]))
    (hh : believes (own i (us ++ [a])) part = true) :
    believes (own i us) part = true ∨ a.actor = i ∧ wrote a.event = some part := by
  obtain ⟨j, e⟩ := a
  by_cases hij : j = i
  · subst hij
    have hg : ρ.Justified (fleet.ids j) (own j us) e := htr.last.2
    rw [own_snoc_self] at hh
    have hc := of_decide_eq_true hh
    rw [view_snoc, unpublished_snoc] at hc
    obtain ⟨op, r⟩ := e
    cases op with
    | publish pa =>
      refine .inl (decide_eq_true (.inr ?_))
      rcases hc with hv | hn
      · exact hg part hv
      · exact absurd hn not_mem_nil
    | forget p =>
      refine .inl (decide_eq_true ?_)
      rcases hc with hv | hs
      · exact .inl (mem_of_mem_filter hv)
      · exact .inr hs
    | now => exact .inl (decide_eq_true hc)
    | kv op =>
      rcases hc with hv | hs
      · exact .inl (decide_eq_true (.inl hv))
      · change part ∈ (wrote ⟨.kv op, r⟩).elim _ _ at hs
        cases hw : wrote ⟨.kv op, r⟩ with
        | none =>
          rw [hw] at hs
          exact .inl (decide_eq_true (.inr hs))
        | some p =>
          rw [hw] at hs
          rcases mem_cons.mp hs with rfl | hs
          · exact .inr ⟨rfl, rfl⟩
          · exact .inl (decide_eq_true (.inr hs))
  · rw [own_snoc_of_ne hij] at hh
    exact .inl hh

theorem acted_of_believes (hh : believes (own i us) part = true) : ∃ b ∈ us, b.actor = i := by
  have hne : own i us ≠ [] := by
    intro hn
    rw [hn] at hh
    cases hh
  obtain ⟨e, he⟩ := exists_mem_of_ne_nil _ hne
  exact ⟨⟨i, e⟩, mem_of_mem_own he, rfl⟩

def Backed (fleet : Fleet) (start : Start ρ) (us : PartHistory) : Prop :=
  ∀ i part, believes (own i us) part = true →
    ∃ claim, claimAt start us part = some claim ∧ claim.instanceID = fleet.ids i

theorem Backed.snoc (hba : Backed fleet start us) (htr : Histories ρ fleet start (us ++ [a]))
    (hy : yields fleet start us a = true) : Backed fleet start (us ++ [a]) := by
  intro i part hh
  obtain hold | ⟨rfl, hw⟩ := believes_snoc htr hh
  · obtain ⟨claim, hc, hi⟩ := hba i part hold
    obtain ⟨hs, -⟩ | ⟨cl', hl, hnw, -, hby⟩ | ⟨rev, r, he, hre, -⟩ :=
      claimAt_snoc htr part
    · exact ⟨claim, hs.trans hc, hi⟩
    · -- a takeover would have found the plane without the partition
      refine ⟨cl', hnw, ?_⟩
      by_contra ho
      rw [yields, hl] at hy
      simp only [hc, Bool.or_eq_true, decide_eq_true_eq, all_eq_true] at hy
      rcases hy with heq | ha
      · exact ho (heq.symm.trans hi)
      · obtain ⟨b, hb, rfl⟩ := acted_of_believes hold
        rcases ha b hb with hne | hno
        · exact hne hi.symm
        · rw [hold] at hno
          cases hno
    · -- a plane gives back only what it has dropped itself
      exfalso
      obtain ⟨j, e⟩ := a
      obtain rfl : e = _ := he
      obtain ⟨q, found, hk, hr, hm, hv, hp⟩ := htr.last.2
      obtain rfl : part = found.partition := by cases hk; rfl
      have hf := claim_stands htr.of_append hr rfl hre
      obtain rfl := Option.some.inj (hc.symm.trans hf)
      obtain rfl : j = i := fleet.distinct (hm.symm.trans hi)
      rcases of_decide_eq_true hold with hin | hin
      · exact hv hin
      · exact hp hin
  · obtain ⟨claim, hl⟩ := wrote_lands hw
    obtain ⟨-, hn⟩ | ⟨cl', -, hnw, -, hby⟩ | ⟨rev, r, he, -⟩ := claimAt_snoc htr part
    · exact absurd hl (hn claim)
    · exact ⟨cl', hnw, hby⟩
    · rw [he] at hl
      cases hl

theorem backed (htr : Histories ρ fleet start tr)
    (hc : Throughout (fun us a => yields fleet start us a = true) tr) : Backed fleet start tr := by
  induction tr using reverseRecOn with
  | nil => rintro i part ⟨⟩
  | append_singleton tr a ih => exact (ih htr.of_append hc.of_append).snoc htr hc.last

/-- Whatever the interleaving, as long as no claim is taken over from a plane that still believes to
hold the partition, two planes never own the same run at the same moment. No claim is while no
plane pauses for longer than its claims last. -/
theorem single_partition_owner
    (htr : Reach (partWorld start.state) (fun i => ρ.passes (fleet.ids i) (fleet.passes i)) tr)
    (hcond : Throughout (fun us a => yields fleet start us a = true ∨ Prompt fleet start us) tr) :
    ∀ us vs i j runID, tr = us ++ vs → ρ.owns us i runID = true → ρ.owns us j runID = true →
      i = j := by
  have hg : Histories ρ fleet start tr := htr.guarded fun i => wp_passes (fleet.passes i) rfl
  have hy : Throughout (fun us a => yields fleet start us a = true) tr := by
    rintro us a vs rfl
    refine (hcond us a vs rfl).elim id (yields_of_prompt ?_)
    rw [append_cons] at hg
    exact hg.of_append
  rintro us vs i j runID rfl hi hj
  have hba := backed hg.of_append hy.of_append
  have hb : ∀ {i}, ρ.owns us i runID = true →
      believes (own i us) (partitionFor runID ρ.count) = true :=
    fun h => decide_eq_true (.inl (of_decide_eq_true h))
  obtain ⟨claim, hc, hci⟩ := hba i _ (hb hi)
  obtain ⟨cl', hc', hcj⟩ := hba j _ (hb hj)
  obtain rfl := Option.some.inj (hc.symm.trans hc')
  exact fleet.distinct (hci.symm.trans hcj)

/-! ### Two planes -/

def smallRing (count : ℕ) (hcount : 0 < count) : Ring where
  deploymentID := "d"
  count := count
  ttl := 10
  count_pos := hcount
  ttl_pos := by decide

def emptyStart (ρ : Ring) : Start ρ where
  state := {}
  homed := by rintro part claim ⟨⟩

/-- The first plane and those that join it, told apart by how long their ids are. -/
def joining (passes : ℕ → ℕ) : Fleet where
  ids i := String.ofList (replicate (i + 1) 'p')
  distinct i j h := by
    have hlength := congrArg String.length h
    simpa using hlength
  passes := passes

def listed (s : State) : List Key :=
  [Key.member "d" "p", .member "d" "pp", .claim "d" 0, .claim "d" 1].filter fun key =>
    (s.bucket key).live.isSome

/-- The clock shows `clock n` at the `n`th call, and these calls fail. -/
def scripted (clock : ℕ → ℤ) (fails : List ℕ) (n : ℕ) (s : State) :
    (op : partSig.Op) → partSig.Res op
  | .kv op => if n ∈ fails then failure op else resolve (listed s) s.bucket op
  | .now => max s.clock (clock n)
  | .publish _ => ()
  | .forget _ => ()

theorem scripted_answers (clock : ℕ → ℤ) (fails : List ℕ) (init : State) (n : ℕ) (s : State)
    (op : partSig.Op) : (partWorld init).Answers s ⟨op, scripted clock fails n s op⟩ := by
  cases op with
  | kv op =>
    change KV.Answers s.bucket op (if n ∈ fails then failure op else _)
    split
    · exact failure_answers _ _
    · exact resolve_answers _ _ _
  | now => exact le_max_left _ _
  | publish pa => trivial
  | forget part => trivial

def ring₁ : Ring := smallRing 1 (by decide)

def ring₂ : Ring := smallRing 2 (by decide)

def handoverFleet : Fleet := joining fun _ => 2

/-- The first plane claims both partitions, the second one announces itself, the first gives one
back and the second takes it. -/
def handover : PartHistory :=
  exec (partWorld {}) (scripted (fun _ => 0) [])
    (fun i => ring₂.passes (handoverFleet.ids i) (handoverFleet.passes i))
    (replicate 10 0 ++ replicate 12 1 ++ replicate 16 0 ++ replicate 11 1)

theorem handover_owners : (ring₂.owns handover 0 "a" = true ∧ ring₂.owns handover 1 "b" = true) ∧
      ∀ runID, ring₂.owns handover 0 runID = true → ring₂.owns handover 1 runID = false := by
  have hr : Reach (partWorld (emptyStart ring₂).state)
      (fun i => ring₂.passes (handoverFleet.ids i) (handoverFleet.passes i)) handover :=
    exec_reach _ _ (scripted_answers _ _ _) _ _
  have hy : Throughout
      (fun us a => yields handoverFleet (emptyStart ring₂) us a = true) handover := by
    decide +kernel
  refine ⟨by decide +kernel, fun runID h₀ => Bool.eq_false_iff.mpr fun h₁ => ?_⟩
  cases single_partition_owner hr (fun us a vs h => .inl (hy us a vs h)) handover [] 0 1 runID
    (append_nil _).symm h₀ h₁

def lapseFleet : Fleet := joining fun i => 2 - i

/-- The first plane claims the partition; its next pass fails with the announcement, and nothing more
of it follows. Later the second plane finds the claim expired and takes it over. -/
def lapse : PartHistory :=
  exec (partWorld {}) (scripted (fun n => if n < 10 then 0 else 20) [9])
    (fun i => ring₁.passes (lapseFleet.ids i) (lapseFleet.passes i))
    (replicate 10 0 ++ replicate 12 1)

/-- Both planes own the runs of the partition. -/
theorem lapsed_claim_owned_twice : Reach (partWorld (emptyStart ring₁).state)
        (fun i => ring₁.passes (lapseFleet.ids i) (lapseFleet.passes i)) lapse ∧
      ring₁.owns lapse 0 "run" = true ∧ ring₁.owns lapse 1 "run" = true :=
  ⟨exec_reach _ _ (scripted_answers _ _ _) _ _, by decide +kernel, by decide +kernel⟩

end Dhole.Partitions
