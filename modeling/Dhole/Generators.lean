import Dhole.Growth

/-! Generators that expand one run from several planes. A call reads the run's graph, reads the
log again for what the run has realised, checks its fragment against the graph it read, and
appends it. Nothing holds the log still in between, so what was checked is what is recorded
only if no other fragment was recorded since; under that condition the recorded fragments splice
again, one for a generator and no more than the bound. -/

namespace Dhole.Generators

open Interleave Prog Plane Scheduler Builtins Dhole.System List
open RunState (ofLog ofLog_snoc ofLog_append)

/-! ### A generator -/

/-- What the generators of a tenant are configured with: how many fragments one run may
realise. -/
structure Generator where
  tenantID : String
  max : ℕ
  max_pos : 0 < max := by decide

namespace Generator

variable (g : Generator)

/-- The run's graph with the fragment of the step spliced in. A fragment that is recorded is
used again; otherwise what the generator emits (nothing where it fails) is recorded once it
splices. -/
def realise (runID stepID : String) (parent : Pipeline) (emitted : Option Pipeline) :
    PlaneM Pipeline :=
  if runID = "" ∨ stepID = "" then throw .step
  else do
    let events ← replay g.tenantID runID
    let realised := events.filter fun e => (realisedFragment? e).isSome
    match (realised.filter fun e => e.stepID = stepID).getLast? with
    | some e =>
      match Dynamic.splice (some parent) stepID (realisedFragment? e) with
      | .ok spliced => pure spliced
      | .error _ => throw .step
    | none =>
      if realised.length ≥ g.max then do
        append g.tenantID runID stepID 0 .fragmentRefused
        throw .step
      else
        match emitted with
        | none => do
          append g.tenantID runID stepID 0 .fragmentRefused
          throw .step
        | some fragment =>
          match Dynamic.splice (some parent) stepID (some fragment) with
          | .error _ => do
            append g.tenantID runID stepID 0 .fragmentRefused
            throw .step
          | .ok spliced => do
            append g.tenantID runID stepID 0 (.fragmentRealised fragment)
            pure spliced

def expand (defs : Definitions) (runID stepID : String) (emitted : Option Pipeline) :
    PlaneM Pipeline := do
  let state ← Scheduler.load g.tenantID runID
  let parent ← readGraph defs g.tenantID state
  g.realise runID stepID parent emitted

end Generator

/-! ### Who writes to the log -/

def realised? (e : Dhole.Event) : Option Realised := (realisedFragment? e).map (⟨e.stepID, ·⟩)

def leaves (e : Dhole.Event) : Prop := createsRun e = false ∧ realised? e = none

/-- The call writes no event to the run's log that creates the run or grows its graph. -/
def LeavesGraph (tenantID runID : String) : planeSig.Op → Prop
  | .inr (.tx (.commit t r events _)) => t = tenantID → r = runID → ∀ e ∈ events, leaves e
  | _ => True

/-- What runs on the planes: calls of generators of the run, and anything else. -/
inductive Caller (tenantID runID : String) where
  | expand (stepID : String) (emitted : Option Pipeline)
  | other (p : PlaneProg Unit) (hp : p.Only (LeavesGraph tenantID runID))

def Caller.prog (defs : Definitions) (g : Generator) {runID : String} :
    Caller g.tenantID runID → PlaneProg Unit
  | .expand stepID emitted => System.discard (g.expand defs runID stepID emitted)
  | .other p _ => p

def worldFrom (start : planeWorld.State) : World planeSig := { planeWorld with init := start }

def logIn (s : planeWorld.State) (tenantID runID : String) : Log := s.2.store.log tenantID runID

def logAfter (start : planeWorld.State) (tr : History) (tenantID runID : String) : Log :=
  logIn ((worldFrom start).state tr) tenantID runID

/-- The run was created from a stored revision and has realised nothing. -/
structure Started (defs : Definitions) (tenantID runID : String) (base : Pipeline)
    (start : planeWorld.State) : Prop where
  revision : defs tenantID (ofLog (logIn start tenantID runID)).pipelineID
    (ofLog (logIn start tenantID runID)).revisionID = some base
  unexpanded : (ofLog (logIn start tenantID runID)).fragments = []

/-! ### The fragments of a log -/

variable {log : Log} {events es : List Dhole.Event} {s s' : Store} {tenantID tid rid : String}

theorem fragments_ofLog (log : Log) : (ofLog log).fragments = log.filterMap realised? := by
  induction log using reverseRecOn with
  | nil => rfl
  | append_singleton log e ih =>
    rw [ofLog_snoc, filterMap_append, ← ih]
    obtain ⟨id, attempt, pa, at_⟩ := e
    cases pa with
    | stepAttemptLost fe =>
      simp only [RunState.fold]
      split <;> simp [realised?, realisedFragment?]
    | _ => simp [RunState.fold, RunState.foldDispatched, realised?, realisedFragment?]

theorem fragments_appendAll (log : Log) (es : List Dhole.Event) :
    (ofLog (log.appendAll es)).fragments = (ofLog log).fragments ++ es.filterMap realised? := by
  rw [fragments_ofLog, fragments_ofLog]
  refine Log.filterMap_appendAll (fun e he => ?_) log es
  obtain ⟨id, attempt, pa, at_⟩ := e
  cases pa <;> first | exact ⟨rfl, rfl⟩ | exact absurd rfl he

theorem revision_appendAll (log : Log) (hev : ∀ e ∈ es, createsRun e = false) :
    (ofLog (log.appendAll es)).pipelineID = (ofLog log).pipelineID ∧
      (ofLog (log.appendAll es)).revisionID = (ofLog log).revisionID := by
  obtain ⟨new, hn, hs⟩ := appendAll_eq log es
  rw [hn, ofLog_append]
  obtain ⟨hp, hr, -⟩ := foldl_of_not_creates (ofLog log)
    fun e he => hev e (hs.subset he)
  exact ⟨hp, hr⟩

theorem log_write (t r : String) (es : List Dhole.Event) : (s.write t r es).log tid rid =
      (s.log tid rid).appendAll (if tid = t ∧ rid = r then es else []) := by
  by_cases hr : tid = t ∧ rid = r
  · rw [if_pos hr]
    exact if_pos hr
  · rw [if_neg hr]
    exact if_neg hr

theorem leaves_of_gate {parks approved : Bool} {sid : String} {at_ : ℤ} :
    ∀ e ∈ Store.decision sid approved parks at_, leaves e := by
  cases approved <;> cases parks <;>
    simp [Store.decision, leaves, createsRun, realised?, realisedFragment?]

/-- What a transaction appends to the log of a run: what a commit was given, or events that
leave the graph as it is. -/
theorem apply_appends {t : Tx} (h : t.apply s = some s') (tid rid : String) :
    ∃ es, s'.log tid rid = (s.log tid rid).appendAll es ∧
      ((∃ rows, t = .commit tid rid es rows) ∨ ∀ e ∈ es, leaves e) := by
  have hw : ∀ (t' r' : String) (es : List Dhole.Event), (∀ e ∈ es, leaves e) →
      ∃ new, (s.write t' r' es).log tid rid = (s.log tid rid).appendAll new ∧
        ((∃ rows, t = .commit tid rid new rows) ∨ ∀ e ∈ new, leaves e) := by
    intro t' r' es he
    refine ⟨_, log_write t' r' es, .inr ?_⟩
    split
    · exact he
    · simp
  cases t with
  | commit t r es rows =>
    simp only [Tx.apply] at h
    split at h
    · cases h
    cases h
    refine ⟨_, log_write t r es, ?_⟩
    split
    · rename_i hr
      obtain ⟨rfl, rfl⟩ := hr
      exact .inl ⟨rows, rfl⟩
    · exact .inr (by simp)
  | armTimer t r sid du at_ =>
    simp only [Tx.apply] at h
    split at h <;> cases h
    · exact ⟨[], rfl, .inr (by simp)⟩
    · exact hw _ _ _ (by simp [leaves, createsRun, realised?, realisedFragment?])
  | requestApproval t r sid pa at_ =>
    simp only [Tx.apply] at h
    split at h
    · cases h
    split at h <;> cases h
    · exact ⟨[], rfl, .inr (by simp)⟩
    · exact hw _ _ _ (by simp [leaves, createsRun, realised?, realisedFragment?])
  | decideGate t r sid approved at_ =>
    simp only [Tx.apply] at h
    split at h
    · cases h
    cases h
    exact hw _ _ _ leaves_of_gate
  | fireTimer t r sid at_ =>
    simp only [Tx.apply] at h
    split at h
    · cases h
    split at h
    · cases h
    split at h <;> cases h
    · exact ⟨[], rfl, .inr (by simp)⟩
    · exact hw _ _ _ (by simp [leaves, createsRun, realised?, realisedFragment?])

/-! ### What a call has checked -/

/-- The call read a graph into which the fragment splices, and a log with room for it and none
of its generator. -/
def Checked (defs : Definitions) (g : Generator) (runID : String) (h : List PlaneEvent)
    (stepID : String) (fragment : Pipeline) : Prop :=
  ∃ log log' parent spliced, sawLog g.tenantID runID log ∈ h ∧ sawLog g.tenantID runID log' ∈ h ∧
    graphOf defs g.tenantID (ofLog log) = some parent ∧
    Dynamic.splice (some parent) stepID (some fragment) = .ok spliced ∧
    stepID ∉ (ofLog log').fragments.map Realised.generator ∧
    (ofLog log').fragments.length < g.max

/-- A commit to the run leaves the graph as it is, or records one fragment that was checked. -/
def Justified (defs : Definitions) (g : Generator) (runID : String) (h : List PlaneEvent)
    (e : PlaneEvent) : Prop :=
  match e.op with
  | .inr (.tx (.commit t r events _)) => t = g.tenantID → r = runID → (∀ e ∈ events, leaves e) ∨
      ∃ stepID fragment at_, events = [{ stepID, payload := .fragmentRealised fragment, at_ }] ∧
        Checked defs g runID h stepID fragment
  | _ => True

variable {defs D : Definitions} {g : Generator} {stepID sid : String} {h : List PlaneEvent}
  {α : Type}

theorem justified_append {pd : Payload} {Q : List PlaneEvent → Unit → Prop}
    (hp : ∀ at_, leaves { stepID := sid, payload := pd, at_ } ∨ ∃ fr,
      pd = .fragmentRealised fr ∧ Checked D g rid h sid fr)
    (hQ : ∀ g, Q g ()) :
    wpe (Justified D g rid) (append g.tenantID rid sid 0 pd) Q h := by
  refine wpe_call_bind.mpr fun at_ => ⟨trivial, wpe_call_bind.mpr fun r => ⟨?_, ?_⟩⟩
  · intro _ _
    refine (hp at_).imp (by simp) ?_
    rintro ⟨fr, rfl, log, log', pa, spliced, hl, hl', hr⟩
    exact ⟨sid, fr, at_, rfl, log, log', pa, spliced, mem_append_left _ hl,
      mem_append_left _ hl', hr⟩
  · cases (r : TxRes) with
    | ok => exact (wpe_pure _).mpr (hQ _)
    | refused | failed landed => exact wpe_throw _

theorem not_mem_generators {log : Log}
    (hn : ((log.filter fun e => (realisedFragment? e).isSome).filter
      fun e => e.stepID = sid).getLast? = none) :
    sid ∉ (ofLog log).fragments.map Realised.generator := by
  rw [fragments_ofLog]
  rw [getLast?_eq_none_iff, filter_eq_nil_iff] at hn
  intro hm
  obtain ⟨r, hr, rfl⟩ := mem_map.mp hm
  obtain ⟨e, he, hre⟩ := mem_filterMap.mp hr
  obtain ⟨fr, hf, rfl⟩ := Option.map_eq_some_iff.mp hre
  exact hn e (mem_filter.mpr ⟨he, by simp [hf]⟩) (by simp)

theorem length_fragments (log : Log) : (ofLog log).fragments.length =
      (log.filter fun e => (realisedFragment? e).isSome).length := by
  rw [fragments_ofLog, length_filterMap_eq_countP, countP_eq_length_filter]
  simp [realised?]

theorem justified_realise {parent : Pipeline} {emitted : Option Pipeline} {log : Log}
    (hl : sawLog g.tenantID rid log ∈ h) (hg : graphOf D g.tenantID (ofLog log) = some parent) :
    wpe (Justified D g rid) (g.realise rid sid parent emitted) (fun _ _ => True) h := by
  have hr : ∀ k, wpe (Justified D g rid)
      (append g.tenantID rid sid 0 .fragmentRefused >>= fun _ =>
        (throw .step : PlaneM Pipeline)) (fun _ _ => True) k := fun k =>
    wpe_bind.mpr (justified_append (fun _ => .inl ⟨rfl, rfl⟩) fun _ => wpe_throw _)
  unfold Generator.realise
  split
  · exact wpe_throw _
  refine wpe_bind.mpr (wpe_call_bind.mpr fun r => ⟨trivial, ?_⟩)
  cases r with
  | none => exact wpe_throw _
  | some log' =>
    refine (wpe_pure _).mpr ?_
    dsimp only
    split
    · split
      · exact wpe_done
      · exact wpe_throw _
    rename_i hn
    split
    · exact hr _
    rename_i hro
    cases emitted with
    | none => exact hr _
    | some fr =>
      dsimp only
      split
      · exact hr _
      rename_i spliced hs
      refine wpe_bind.mpr (justified_append (fun at_ => .inr ⟨fr, rfl, ?_⟩) fun _ => wpe_done)
      refine ⟨log, log', parent, spliced, mem_append_left _ hl, by simp [sawLog], hg,
        hs, not_mem_generators hn, ?_⟩
      rw [length_fragments]
      exact not_le.mp hro

theorem Caller.justified (D : Definitions) (caller : Caller g.tenantID rid) (h : List PlaneEvent) :
    wp (Justified D g rid) (caller.prog D g) (fun _ _ => True) h := by
  cases caller with
  | expand sid em =>
    have hc : wpe (Justified D g rid) (g.expand D rid sid em)
        (fun _ _ => True) h := by
      refine wpe_bind.mpr (wpe_load_of (fun _ => trivial) fun log _ => ?_)
      refine wpe_readGraph_bind (fun _ => trivial) fun pa hpa answer => ?_
      exact justified_realise (mem_append_left _ (by simp)) hpa
    exact wp_bind.mpr (wp_mono hc fun _ _ _ => trivial)
  | other p hp =>
    refine wp_of_only (fun h e he => ?_) hp h
    obtain ⟨op | op, r⟩ := e
    · trivial
    cases op with
    | tx t =>
      cases t with
      | commit t r es rows => exact fun ht hr => .inl (he ht hr)
      | _ => trivial
    | _ => trivial

/-! ### Histories -/

/-- A fragment is recorded while the run has the fragments that every log the caller has read
of it had: none was recorded since. -/
def Undisturbed (start : planeWorld.State) (tenantID runID : String) (tr : History)
    (a : Act planeSig) : Prop :=
  match a.event.op with
  | .inr (.tx (.commit t r events _)) => t = tenantID → r = runID →
      (∃ e ∈ events, (realised? e).isSome) →
      ∀ log ∈ (own a.actor tr).filterMap (seenLog? tenantID runID),
        (ofLog log).fragments =
          (ofLog (logAfter start tr tenantID runID)).fragments
  | _ => True

instance (start : planeWorld.State) (tenantID runID : String) (tr : History) (a : Act planeSig) :
    Decidable (Undisturbed start tenantID runID tr a) := by
  unfold Undisturbed
  split <;> infer_instance

/-- The log's fragments splice again, one for a generator, and no more than the bound. -/
def Resplices (g : Generator) (base : Pipeline) (fs : List Realised) : Prop :=
  (fs.map Realised.generator).Nodup ∧ fs.length ≤ g.max ∧ (spliceRealised base fs).isSome

variable {runID : String} {base : Pipeline} {start : planeWorld.State}
  {callers : ℕ → Caller g.tenantID runID} {tr : History}

abbrev Expands (defs : Definitions) (g : Generator) {runID : String}
    (callers : ℕ → Caller g.tenantID runID) (start : planeWorld.State) (tr : History) : Prop :=
  Reach (worldFrom start) (fun i => (callers i).prog defs g) tr

theorem Expands.guarded (htr : Expands D g callers start tr) :
    Guarded (worldFrom start) (fun _ => Justified D g runID) tr :=
  Reach.guarded (fun i => (callers i).justified D []) htr

theorem log_snoc {a : Act planeSig} (htr : Expands D g callers start (tr ++ [a])) :
    ∃ es, logAfter start (tr ++ [a]) g.tenantID runID =
        (logAfter start tr g.tenantID runID).appendAll es ∧
      ((∀ e ∈ es, leaves e) ∨ ∃ sid fr at_ rows,
        es = [{ stepID := sid, payload := .fragmentRealised fr, at_ }] ∧
        a.event.op = .inr (.tx (.commit g.tenantID runID es rows)) ∧
        Checked D g runID (own a.actor tr) sid fr) := by
  obtain ⟨han, hj⟩ := Guarded.at_split htr.guarded
  unfold logAfter logIn
  rw [World.state_snoc]
  obtain ⟨i, op | op, r⟩ := a
  · exact ⟨[], rfl, .inl (by simp)⟩
  obtain hs | ⟨t, res, he, -, -, ha⟩ := storeNext_cases han
  · exact ⟨[], congrArg (Store.log · g.tenantID runID) hs, .inl (by simp)⟩
  cases he
  obtain ⟨es, hlo, hev⟩ := apply_appends ha g.tenantID runID
  refine ⟨es, hlo, ?_⟩
  rcases hev with ⟨rows, rfl⟩ | hl
  · refine (hj rfl rfl).imp_right ?_
    rintro ⟨sid, fr, at_, rfl, hc⟩
    exact ⟨sid, fr, at_, rows, rfl, rfl, hc⟩
  · exact .inl hl

theorem revision_logAfter (htr : Expands D g callers start tr) :
    (ofLog (logAfter start tr g.tenantID runID)).pipelineID =
        (ofLog (logIn start g.tenantID runID)).pipelineID ∧
      (ofLog (logAfter start tr g.tenantID runID)).revisionID =
        (ofLog (logIn start g.tenantID runID)).revisionID := by
  induction tr using reverseRecOn with
  | nil => exact ⟨rfl, rfl⟩
  | append_singleton tr a ih =>
    obtain ⟨es, hlo, hev⟩ := log_snoc htr
    have hk : ∀ e ∈ es, createsRun e = false := by
      rcases hev with hl | ⟨sid, fr, at_, rows, rfl, -⟩
      · exact fun e he => (hl e he).1
      · simp [createsRun]
    obtain ⟨hp, hr⟩ := revision_appendAll (logAfter start tr g.tenantID runID) hk
    obtain ⟨ihp, ihr⟩ := ih htr.of_append
    rw [hlo]
    exact ⟨hp.trans ihp, hr.trans ihr⟩

theorem revision_of_sawLog {i : ℕ} {log : Log} (htr : Expands D g callers start tr)
    (hs : sawLog g.tenantID runID log ∈ own i tr) :
    (ofLog log).pipelineID = (ofLog (logIn start g.tenantID runID)).pipelineID ∧
      (ofLog log).revisionID = (ofLog (logIn start g.tenantID runID)).revisionID := by
  obtain ⟨us, vs, rfl⟩ := append_of_mem (mem_of_mem_own hs)
  obtain ⟨ha, -⟩ := Guarded.at_split htr.guarded
  rw [ha log rfl]
  exact revision_logAfter htr.of_append

theorem seenLog?_of_sawLog {h : List PlaneEvent} {tid : String} {log : Log}
    (hs : sawLog tid runID log ∈ h) : log ∈ h.filterMap (seenLog? tid runID) :=
  mem_filterMap.mpr ⟨_, hs, if_pos ⟨rfl, rfl⟩⟩

theorem Resplices.snoc {fs : List Realised} {sid : String} {parent fr spliced : Pipeline}
    (hfs : Resplices g base fs) (hne : sid ∉ fs.map Realised.generator)
    (hr : fs.length < g.max) (hp : spliceRealised base fs = some parent)
    (hs : Dynamic.splice (some parent) sid (some fr) = .ok spliced) :
    Resplices g base (fs ++ [⟨sid, fr⟩]) := by
  obtain ⟨hn, -, -⟩ := hfs
  refine ⟨?_, by simpa using hr, ?_⟩
  · rw [map_append, nodup_append]
    refine ⟨hn, nodup_singleton _, fun id hid id' hid' heq => hne ?_⟩
    obtain rfl : id' = sid := by simpa using hid'
    exact heq ▸ hid
  · rw [spliceRealised_append, hp]
    simp [spliceRealised, hs]

theorem resplices_step {a : Act planeSig} (hst : Started D g.tenantID runID base start)
    (htr : Expands D g callers start (tr ++ [a])) (hu : Undisturbed start g.tenantID runID tr a)
    (ih : Resplices g base (ofLog (logAfter start tr g.tenantID runID)).fragments) :
    Resplices g base (ofLog (logAfter start (tr ++ [a]) g.tenantID runID)).fragments := by
  obtain ⟨es, hlo, hev⟩ := log_snoc htr
  rw [hlo, fragments_appendAll]
  rcases hev with hl | ⟨sid, fr, at_, rows, rfl, hop, hc⟩
  · rw [filterMap_eq_nil_iff.mpr fun e he => (hl e he).2, append_nil]
    exact ih
  obtain ⟨log, log', parent, spliced, hsa, hsa', hg, hsp, hn, hro⟩ := hc
  have hs : ∀ log, sawLog g.tenantID runID log ∈ own a.actor tr →
      (ofLog log).fragments =
        (ofLog (logAfter start tr g.tenantID runID)).fragments := by
    intro log hsa
    simp only [Undisturbed, hop] at hu
    exact hu trivial trivial ⟨_, mem_singleton_self _, rfl⟩ log (seenLog?_of_sawLog hsa)
  -- The graph the call read is the base with what the log still holds.
  have hpa : spliceRealised base
      (ofLog (logAfter start tr g.tenantID runID)).fragments = some parent := by
    obtain ⟨hp, hr⟩ := revision_of_sawLog htr.of_append hsa
    rw [graphOf, hp, hr, hst.revision, hs log hsa] at hg
    exact hg
  rw [hs log' hsa'] at hn hro
  exact ih.snoc hn hro hpa hsp

/-- The fragments a run records splice again, at most one for a generator and at most as many
as the bound, as long as each is recorded while the run has the fragments its caller read. -/
theorem realise_resplices (hstart : Started defs g.tenantID runID base start)
    (htr : Reach (worldFrom start) (fun i => (callers i).prog defs g) tr)
    (hund : Throughout (Undisturbed start g.tenantID runID) tr) :
    Resplices g base (ofLog (logAfter start tr g.tenantID runID)).fragments := by
  induction tr using reverseRecOn with
  | nil =>
    have hn : (ofLog (logAfter start [] g.tenantID runID)).fragments = [] :=
      hstart.unexpanded
    rw [hn]
    exact ⟨nodup_nil, Nat.zero_le _, rfl⟩
  | append_singleton tr a ih =>
    exact resplices_step hstart htr hund.last (ih htr.of_append hund.of_append)

/-! ### Two calls -/

def matrix : Pipeline where
  id := "matrix"
  steps := [{ id := "list", pluginRef := "builtin:generator" },
    { id := "scan", pluginRef := "builtin:generator" }]

def matrixDefs : Definitions := fun _ _ _ => some matrix

def single (id : String) : Pipeline where
  id := "single"
  steps := [{ id, pluginRef := "oci://build" }]

def matrixRun : planeWorld.State :=
  (planeWorld.init.1, { store := { log := fun t r =>
    if t = "acme" ∧ r = "run-1" then [{ payload := .runCreated "matrix" "1", at_ := 0 }]
    else [] } })

theorem matrixRun_started : Started matrixDefs "acme" "run-1" matrix matrixRun := ⟨rfl, rfl⟩

def calls (second emitted : String) : ℕ → Caller "acme" "run-1"
  | 0 => .expand "list" (some (single "build"))
  | 1 => .expand second (some (single emitted))
  | _ => .other (.ret ()) trivial

def oneAnd (more : ℕ) : Generator where
  tenantID := "acme"
  max := 1 + more
  max_pos := Nat.add_pos_left Nat.one_pos more

def expansions (more : ℕ) (second emitted : String) (schedule : List ℕ) : History :=
  exec (worldFrom matrixRun) ({} : Surroundings).resolve
    (fun i => (calls second emitted i).prog matrixDefs (oneAnd more)) schedule

theorem expansions_reach (more : ℕ) (second emitted : String) (sch : List ℕ) :
    Reach (worldFrom matrixRun) (fun i => (calls second emitted i).prog matrixDefs (oneAnd more))
      (expansions more second emitted sch) :=
  exec_reach (worldFrom matrixRun) _ ({} : Surroundings).resolve_answers _ _

def oneByOne : History := expansions 1 "scan" "test" (List.replicate 5 0 ++ List.replicate 5 1)

theorem oneByOne_resplices : (ofLog (logAfter matrixRun oneByOne "acme" "run-1")).fragments =
        [⟨"list", single "build"⟩, ⟨"scan", single "test"⟩] ∧ Resplices (oneAnd 1) matrix
        (ofLog (logAfter matrixRun oneByOne "acme" "run-1")).fragments :=
  ⟨rfl, realise_resplices matrixRun_started (expansions_reach 1 "scan" "test" _)
    (by decide)⟩

/-- Two calls for one generator: each reads the log before the other has written to it. -/
def atOnce : History := expansions 0 "list" "build" [0, 0, 0, 1, 1, 1, 0, 0, 1, 1]

theorem atOnce_not_spliced : Started matrixDefs "acme" "run-1" matrix matrixRun ∧
      Reach (worldFrom matrixRun)
        (fun i => (calls "list" "build" i).prog matrixDefs (oneAnd 0)) atOnce ∧
      (ofLog (logAfter matrixRun atOnce "acme" "run-1")).fragments =
        [⟨"list", single "build"⟩, ⟨"list", single "build"⟩] ∧
      (oneAnd 0).max = 1 ∧ spliceRealised matrix
        (ofLog (logAfter matrixRun atOnce "acme" "run-1")).fragments = none :=
  ⟨matrixRun_started, expansions_reach 0 "list" "build" _, rfl, rfl, rfl⟩

end Dhole.Generators
