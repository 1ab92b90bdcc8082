import Dhole.Journal

/-! The graph of a run as its log grows. A run is created once, by the first event of its
log, so every part of the log that has that event pins the same revision, and a longer part
only splices more fragments in. A step that is in the graph once is found in every later
graph, unchanged. -/

namespace Dhole.System

open Interleave Prog Plane Lease Scheduler List
open RunState (ofLog ofLog_append)

/-! ### The revision of a run -/

def CreatedOnce (log : Log) : Prop := ∀ e ∈ log.tail, createsRun e = false

variable {log l : Log} {es rest : List Dhole.Event} {e : Dhole.Event} {s : RunState}

theorem appendAll_eq (log : Log) (es : List Dhole.Event) :
    ∃ new, log.appendAll es = log ++ new ∧ new.Sublist es := by
  induction es generalizing log with
  | nil => exact ⟨[], (append_nil _).symm, List.Sublist.slnil⟩
  | cons e es ih =>
    obtain ⟨new, hn, hs⟩ := ih (log.append e)
    have ha : log.appendAll (e :: es) = log.append e ++ new := hn
    rcases Log.append_cases log e with heq | heq
    · exact ⟨new, by rw [ha, heq], hs.cons e⟩
    · exact ⟨e :: new, by rw [ha, heq, append_assoc]; rfl, hs.cons_cons e⟩

theorem CreatedOnce.appendAll (hl : CreatedOnce log) (hev : (∀ e ∈ es, createsRun e = false) ∨
      log = [] ∧ ∀ e ∈ es.tail, createsRun e = false) : CreatedOnce (log.appendAll es) := by
  obtain ⟨new, hne, hs⟩ := appendAll_eq log es
  rw [hne]
  intro e he
  rcases hev with hn | ⟨rfl, ht⟩
  · cases log with
    | nil => exact hn e (hs.subset (mem_of_mem_tail he))
    | cons a log =>
      rcases mem_append.mp he with he | he
      · exact hl e he
      · exact hn e (hs.subset he)
  · exact ht e (hs.tail.subset he)

theorem CreatedOnce.of_prefix (hlo : CreatedOnce log) (hl : l <+: log) : CreatedOnce l := by
  obtain ⟨rest, rfl⟩ := hl
  intro e he
  refine hlo e ?_
  cases l with
  | nil => cases he
  | cons a l => exact mem_append_left _ he

theorem fold_of_not_creates (s : RunState) (he : createsRun e = false) :
    (s.fold e).pipelineID = s.pipelineID ∧ (s.fold e).revisionID = s.revisionID ∧
      ∃ fs, (s.fold e).fragments = s.fragments ++ fs := by
  obtain ⟨id, att, pa, at_⟩ := e
  cases pa with
  | runCreated p r => cases he
  | fragmentRealised fragment => exact ⟨rfl, rfl, _, rfl⟩
  | stepAttemptLost fe =>
    simp only [RunState.fold]
    split <;> exact ⟨rfl, rfl, [], (append_nil _).symm⟩
  | _ => exact ⟨rfl, rfl, [], (append_nil _).symm⟩

theorem foldl_of_not_creates (s : RunState) (hre : ∀ e ∈ rest, createsRun e = false) :
    (rest.foldl RunState.fold s).pipelineID = s.pipelineID ∧
      (rest.foldl RunState.fold s).revisionID = s.revisionID ∧
      ∃ fs, (rest.foldl RunState.fold s).fragments = s.fragments ++ fs := by
  induction rest generalizing s with
  | nil => exact ⟨rfl, rfl, [], (append_nil _).symm⟩
  | cons e rest ih =>
    obtain ⟨hp, hr, fs, hfs⟩ := fold_of_not_creates s (hre e mem_cons_self)
    obtain ⟨hp', hr', fs', hfs'⟩ := ih (s.fold e) fun d hd => hre d (mem_cons_of_mem _ hd)
    exact ⟨hp'.trans hp, hr'.trans hr, fs ++ fs', by rw [foldl_cons, hfs', hfs, append_assoc]⟩

theorem ofLog_of_prefix (hlo : CreatedOnce log) (hl : l <+: log) (hc : (ofLog l).created = true) :
    (ofLog log).pipelineID = (ofLog l).pipelineID ∧ (ofLog log).revisionID = (ofLog l).revisionID ∧
      ∃ fs, (ofLog log).fragments = (ofLog l).fragments ++ fs := by
  obtain ⟨rest, rfl⟩ := hl
  rw [ofLog_append]
  refine foldl_of_not_creates _ fun e he => hlo e ?_
  cases l with
  | nil => cases hc
  | cons a l => exact mem_append_right _ he

/-! ### Splicing -/

variable {p q : Pipeline} {fs : List Realised} {id : String} {step : Step}

theorem spliceRealised_append (p : Pipeline) (fs gs : List Realised) :
    spliceRealised p (fs ++ gs) = (spliceRealised p fs).bind fun q => spliceRealised q gs := by
  induction fs generalizing p with
  | nil => rfl
  | cons r fs ih =>
    simp only [cons_append, spliceRealised]
    cases Dynamic.splice (some p) r.generator (some r.fragment) with
    | error e => rfl
    | ok next => exact ih next

theorem findStep_spliceRealised (h : spliceRealised p fs = some q)
    (hs : findStep p id = some step) : findStep q id = some step := by
  induction fs generalizing p with
  | nil =>
    cases h
    exact hs
  | cons r fs ih =>
    obtain ⟨next, hsp, h⟩ := spliceRealised_cons h
    exact ih h (Dynamic.findStep_splice hsp hs)

variable {D : Definitions} {tid : String}

theorem graphOf_of_prefix (hlo : CreatedOnce log) (hl : l <+: log) (hc : (ofLog l).created = true)
    (hq : graphOf D tid (ofLog log) = some q) :
    ∃ p fs, graphOf D tid (ofLog l) = some p ∧ spliceRealised p fs = some q ∧
      fs ⊆ (ofLog log).fragments := by
  obtain ⟨hp, hr, fs, hfs⟩ := ofLog_of_prefix hlo hl hc
  unfold graphOf at hq ⊢
  rw [hp, hr, hfs] at hq
  cases hd : D tid (ofLog l).pipelineID (ofLog l).revisionID with
  | none =>
    rw [hd] at hq
    cases hq
  | some base =>
    rw [hd, Option.bind_some, spliceRealised_append] at hq
    obtain ⟨p, hp, hq⟩ := Option.bind_eq_some_iff.mp hq
    exact ⟨p, fs, by simpa using hp, hq, hfs ▸ subset_append_right _ _⟩

/-! ### The step of an id -/

def StepOf (defs : Definitions) (log : Log) (tenantID id : String) (step : Step) : Prop :=
  ∃ l p, l <+: log ∧ (ofLog l).created = true ∧
    graphOf defs tenantID (ofLog l) = some p ∧ findStep p id = some step

variable {As : ℕ → Actor} {tr : History} {log' : Log} {rid : String} {step' : Step} {c : StepKey}
  {att : ℕ}

theorem StepOf.mono (hs : StepOf D log tid id step) (hl : log <+: log') :
    StepOf D log' tid id step := by
  obtain ⟨l, p, hp, hr⟩ := hs
  exact ⟨l, p, hp.trans hl, hr⟩

theorem StepOf.unique (hlo : CreatedOnce log) (hs : StepOf D log tid id step)
    (hs' : StepOf D log tid id step') : step = step' := by
  obtain ⟨l, p, hl, hcr, hgr, hfi⟩ := hs
  obtain ⟨l', p', hl', hcr', hgr', hfi'⟩ := hs'
  have hla : ∀ {l l' p p' s s'}, l <+: l' → l' <+: log → (ofLog l).created = true →
      graphOf D tid (ofLog l) = some p → findStep p id = some s →
      graphOf D tid (ofLog l') = some p' → findStep p' id = some s' → s = s' := by
    intro l l' p p' s s' hll hl' hc hg hf hg' hf'
    obtain ⟨p₀, fs, hp₀, hsp, -⟩ := graphOf_of_prefix (hlo.of_prefix hl') hll hc hg'
    rw [hg] at hp₀
    cases hp₀
    rw [findStep_spliceRealised hsp hf] at hf'
    exact Option.some.inj hf'
  rcases prefix_or_prefix_of_prefix hl hl' with hll | hll
  · exact hla hll hl' hcr hgr hfi hgr' hfi'
  · exact (hla hll hl hcr' hgr' hfi' hgr hfi).symm

theorem Ready.findStep {p : Pipeline} {g : Dag.Graph} (hb : Dag.build (some p) = .ok g)
    (hs : step ∈ p.steps) : findStep p step.id = some step :=
  Dynamic.findStep_of_mem (Dag.build_ok hb).1.1 hs

theorem WasReady.stepOf (hr : WasReady D log c step att) : StepOf D log c.tenant c.step step := by
  obtain ⟨l, hl, ho, p, g, hg, hb, hm, -, -, hid, -⟩ := hr
  exact ⟨l, p, hl, ho.1, hg, hid ▸ Ready.findStep hb hm⟩

theorem ChosenFrom.stepOf (hc : ChosenFrom D log c step att) :
    StepOf D log c.tenant c.step step := by
  cases hc with
  | ready hr => exact hr.stepOf
  | queued hl ho _ _ _ hg hs => exact ⟨_, _, hl, ho.1, hg, hs⟩

theorem createsRun_decision (sid : String) (approved parks : Bool) (at_ : ℤ) :
    ∀ e ∈ Store.decision sid approved parks at_, createsRun e = false := by
  cases approved <;> cases parks <;> simp [Store.decision, createsRun]

theorem Wrote.creates {A : Actor} {h : List PlaneEvent} {t : Tx} {es : List Dhole.Event}
    (hw : Wrote D A h log tid rid t es) :
    (∀ e ∈ es, createsRun e = false) ∨ log = [] ∧ ∀ e ∈ es.tail, createsRun e = false := by
  cases hw with
  | commit hg hf =>
    refine hf.imp_right fun hn => ⟨hn, ?_⟩
    cases hg <;> simp [createsRun]
  | awaitingTimer | awaitingApproval | fired => exact .inl (by simp [createsRun])
  | decided => exact .inl (createsRun_decision _ _ _ _)

theorem createdOnce_logOf (htr : PlaneTrace D As tr) (tid rid : String) :
    CreatedOnce (logOf tr tid rid) := by
  suffices ∀ n, CreatedOnce (logOf (tr.take n) tid rid) by
    simpa using this tr.length
  intro n
  induction n with
  | zero => exact fun e he => (nomatch he)
  | succ n ih =>
    rcases logOf_step htr n tid rid with hs | ⟨i, t, res, es, -, -, hg, hw⟩
    · rwa [hs]
    · rw [hg]
      exact ih.appendAll hw.creates

end Dhole.System
