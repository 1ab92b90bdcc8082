import Dhole.Taint
import Dhole.Reaching
import Dhole.Acyclic
import Dhole.Growth

/-! Which untrusted sources reach a step. The scheduler reads it anew for every decision from
the inputs of the run and the sanitisation records of its log: a step has the sources of the
run inputs bound to its free ports, and of every step that feeds it those the records of that
step did not clear. The search with its memo is compared with paths through the pipeline. Two
of its shortcuts show: a port is known by a text made of two names, and a record clears a
source for all inputs of the step at once. -/

namespace Dhole.Taint

open Dag List

structure RunTaint where
  inputs : Inputs
  sanitised : String → List String

def sanitisedBy (log : SanitisedLog) (id : String) : List String :=
  (log.filter fun e => e.stepID = id).flatMap fun e => e.record.sources

def portKey (step port : String) : String := step ++ "\x00" ++ port

def feeds (p : Pipeline) (id : String) : List String :=
  (p.edges.filter fun e => e.toStep = id).map Edge.fromStep

def fed (p : Pipeline) (key : String) : Bool :=
  p.edges.any fun e => portKey e.toStep e.toPort = key

def ownSources (p : Pipeline) (st : RunTaint) (s : Step) : Finset String :=
  s.inputs.foldl (fun acc port =>
    if fed p (portKey s.id port.name) then acc
    else acc ∪ (sources ((st.inputs port.name).getD .nil)).toFinset) ∅

def taintNet (p : Pipeline) (st : RunTaint) : Net String Step String where
  key := Step.id
  find := findStep p
  feeds := feeds p
  own := ownSources p st
  keeps id src := (st.sanitised id).contains src

/-- Every source whose data reaches the step, sorted. -/
def taintSources (p : Pipeline) (step : Step) (st : RunTaint) : List String :=
  sorted ((taintNet p st).reaching p.steps.length step fun _ => none).1

/-! ### Paths through the pipeline -/

def Precedes (p : Pipeline) (x y : String) : Prop :=
  ∃ e ∈ p.edges, e.fromStep = x ∧ e.toStep = y

def Free (p : Pipeline) (id port : String) : Prop :=
  ∀ e ∈ p.edges, ¬ (e.toStep = id ∧ e.toPort = port)

def Enters (p : Pipeline) (st : RunTaint) (s : String) (origin : Step) : Prop :=
  ∃ port ∈ origin.inputs, Free p origin.id port.name ∧
    ∃ v, st.inputs port.name = some v ∧ s ∈ sources v

def PassesOn (p : Pipeline) (st : RunTaint) (s : String) (x y : String) : Prop :=
  Precedes p x y ∧ s ∉ st.sanitised x

/-- There is a path to the step from one the source enters at, and no step on the way has the
source in its record. -/
def TaintReaches (p : Pipeline) (st : RunTaint) (s : String) (id : String) : Prop :=
  ∃ origin ∈ p.steps, Enters p st s origin ∧
    Relation.ReflTransGen (PassesOn p st s) origin.id id

/-- What an accepted pipeline has, whatever the order of its steps and edges. -/
structure Sound (p : Pipeline) : Prop where
  nodup : (p.steps.map Step.id).Nodup
  known : ∀ e ∈ p.edges, e.fromStep ∈ p.steps.map Step.id ∧ e.toStep ∈ p.steps.map Step.id
  acyclic : ∀ x, ¬ Relation.TransGen (Precedes p) x x

variable {p q : Pipeline} {g : Graph} {st : RunTaint} {s x y : String} {step : Step}

theorem not_self_of_acc {α : Type} {r : α → α → Prop} {a : α} (h : Acc r a) : ¬ r a a := by
  induction h with
  | intro a _ ih => exact fun ha => ih a ha ha

theorem sound_of_build (h : build (some p) = .ok g) : Sound p := by
  obtain ⟨⟨hn, -⟩, hen, -⟩ := build_ok h
  refine ⟨hn, hen, fun x hx => ?_⟩
  have ha : ∀ s ∈ p.steps, Acc (Precedes p) s.id :=
    build_induction h fun s _ ih => ⟨_, fun y ⟨e, he, hf, hto⟩ => hf ▸ ih e he hto⟩
  obtain ⟨y, ⟨e, he, rfl, -⟩, -⟩ := Relation.TransGen.head'_iff.mp hx
  obtain ⟨step, hs, hid⟩ := mem_map.mp (hen e he).1
  exact not_self_of_acc (hid ▸ ha step hs).transGen hx

theorem precedes_perm (h : q.edges.Perm p.edges) : Precedes q = Precedes p := by
  funext x y
  simp only [Precedes, h.mem_iff]

theorem Sound.perm (h : Sound p) (hs : q.steps.Perm p.steps) (hed : q.edges.Perm p.edges) :
    Sound q where
  nodup := ((hs.map Step.id).nodup_iff).mpr h.nodup
  known e he := by
    simp only [(hs.map Step.id).mem_iff]
    exact h.known e (hed.mem_iff.mp he)
  acyclic := by
    rw [precedes_perm hed]
    exact h.acyclic

theorem mem_feeds : x ∈ feeds p y ↔ Precedes p x y := by
  simp only [feeds, mem_map, mem_filter, decide_eq_true_eq]
  constructor
  · rintro ⟨e, ⟨he, hto⟩, hf⟩
    exact ⟨e, he, hf, hto⟩
  · rintro ⟨e, he, hf, hto⟩
    exact ⟨e, ⟨he, hto⟩, hf⟩

theorem Sound.findStep_isSome (h : Sound p) (hx : Precedes p x y) : (findStep p x).isSome := by
  obtain ⟨e, he, rfl, -⟩ := hx
  obtain ⟨step, hs, hid⟩ := mem_map.mp (h.known e he).1
  rw [← hid, Dynamic.findStep_of_mem h.nodup hs]
  rfl

theorem Sound.feeds_iff (h : Sound p) : (taintNet p st).Feeds x y ↔ Precedes p x y :=
  ⟨fun hx => mem_feeds.mp hx.1, fun hx => ⟨mem_feeds.mpr hx, h.findStep_isSome hx⟩⟩

theorem Sound.passes_iff (h : Sound p) : (taintNet p st).Passes s x y ↔ PassesOn p st s x y := by
  rw [Net.Passes, h.feeds_iff, PassesOn]
  simp [taintNet]

theorem mem_ownSources : s ∈ ownSources p st step ↔
    ∃ port ∈ step.inputs, fed p (portKey step.id port.name) = false ∧
      ∃ v, st.inputs port.name = some v ∧ s ∈ sources v := by
  have hb (name : String) : s ∈ sources ((st.inputs name).getD .nil) ↔
      ∃ v, st.inputs name = some v ∧ s ∈ sources v := by
    have hn : marks .nil = [] := marks_of_plain rfl
    cases st.inputs name <;> simp [hn]
  have hf (ps : List Port) (acc : Finset String) :
      s ∈ ps.foldl (fun acc port =>
        if fed p (portKey step.id port.name) then acc
        else acc ∪ (sources ((st.inputs port.name).getD .nil)).toFinset) acc ↔
      s ∈ acc ∨ ∃ port ∈ ps, fed p (portKey step.id port.name) = false ∧
        ∃ v, st.inputs port.name = some v ∧ s ∈ sources v := by
    induction ps generalizing acc with
    | nil => simp
    | cons port ps ih =>
      rw [foldl_cons, ih]
      split_ifs with hfe
      · simp [hfe]
      · rw [Finset.mem_union, mem_toFinset, hb, or_assoc]
        simp [hfe]
  rw [ownSources, hf, or_iff_right (Finset.notMem_empty s)]

theorem mem_taintSources (h : Sound p) (hs : step ∈ p.steps) :
    s ∈ taintSources p step st ↔ (taintNet p st).Arrives s step.id := by
  rw [taintSources, sorted, Finset.mem_sort]
  have hl : (p.steps.map Step.id).length ≤ p.steps.length := by simp
  refine Net.mem_reaching_iff
    (fun k a hk => (Dynamic.mem_of_findStep hk).2) (fun x hx => ?_) (fun k hk => ?_)
    (Dynamic.findStep_of_mem h.nodup hs) hl s
  · exact h.acyclic x (hx.lift id fun _ _ => h.feeds_iff.mp)
  · obtain ⟨a, ha⟩ := Option.isSome_iff_exists.mp hk
    obtain ⟨hm, rfl⟩ := Dynamic.mem_of_findStep ha
    exact mem_map_of_mem hm

theorem Sound.exists_step_iff (h : Sound p) {P : String → Step → Prop} :
    (∃ id a, findStep p id = some a ∧ P id a) ↔ ∃ a ∈ p.steps, P a.id a := by
  constructor
  · rintro ⟨id, a, hf, ha⟩
    obtain ⟨hm, rfl⟩ := Dynamic.mem_of_findStep hf
    exact ⟨a, hm, ha⟩
  · rintro ⟨a, hm, ha⟩
    exact ⟨a.id, a, Dynamic.findStep_of_mem h.nodup hm, ha⟩

theorem Sound.arrives_iff (h : Sound p) : (taintNet p st).Arrives s x ↔
    ∃ origin ∈ p.steps, s ∈ ownSources p st origin ∧
      Relation.ReflTransGen (PassesOn p st s) origin.id x := by
  have hp : (taintNet p st).Passes s = PassesOn p st s := by
    funext a b
    exact propext h.passes_iff
  rw [Net.Arrives, hp]
  exact h.exists_step_iff

/-! ### What the search finds -/

/-- The sources found for a step are those that reach it, and no order of the steps and edges
makes a difference. -/
def FindsReaching (p : Pipeline) : Prop :=
  ∀ st, ∀ step ∈ p.steps,
    (∀ s, s ∈ taintSources p step st ↔ TaintReaches p st s step.id) ∧
      ∀ q : Pipeline, q.steps.Perm p.steps → q.edges.Perm p.edges →
        taintSources q step st = taintSources p step st

/-- No free port of a step has the text of a port that an edge feeds. -/
def PortsApart (p : Pipeline) : Prop :=
  ∀ step ∈ p.steps, ∀ port ∈ step.inputs, Free p step.id port.name →
    ∀ e ∈ p.edges, portKey e.toStep e.toPort ≠ portKey step.id port.name

theorem fed_eq_false_iff {key : String} :
    fed p key = false ↔ ∀ e ∈ p.edges, portKey e.toStep e.toPort ≠ key := by
  simp [fed]

theorem free_of_fed {id port : String} (h : fed p (portKey id port) = false) : Free p id port := by
  rintro e he ⟨rfl, rfl⟩
  exact fed_eq_false_iff.mp h e he rfl

theorem mem_ownSources_iff (hpo : PortsApart p) (hs : step ∈ p.steps) :
    s ∈ ownSources p st step ↔ Enters p st s step := by
  rw [mem_ownSources]
  constructor
  · rintro ⟨port, hp, hfe, hv⟩
    exact ⟨port, hp, free_of_fed hfe, hv⟩
  · rintro ⟨port, hp, hf, hv⟩
    exact ⟨port, hp, fed_eq_false_iff.mpr (hpo step hs port hp hf), hv⟩

theorem taintSources_perm (h : Sound p) (hst : step ∈ p.steps)
    (hs : q.steps.Perm p.steps) (he : q.edges.Perm p.edges) :
    taintSources q step st = taintSources p step st := by
  have hf : fed q = fed p := by
    funext key
    exact he.any_eq
  have ho (origin : Step) : ownSources q st origin = ownSources p st origin := by
    simp only [ownSources, hf]
  have hp : PassesOn q st = PassesOn p st := by
    funext s x y
    rw [PassesOn, precedes_perm he, PassesOn]
  have hse : (taintSources q step st).toFinset = (taintSources p step st).toFinset := by
    ext s
    rw [mem_toFinset, mem_toFinset, mem_taintSources h hst,
      mem_taintSources (h.perm hs he) (hs.mem_iff.mpr hst), h.arrives_iff,
      (h.perm hs he).arrives_iff, hp]
    simp only [hs.mem_iff, ho]
  have hr : ((taintNet q st).reaching q.steps.length step fun _ => none).1 =
      ((taintNet p st).reaching p.steps.length step fun _ => none).1 := by
    simpa only [taintSources, sorted, Finset.sort_toFinset] using hse
  rw [taintSources, hr, taintSources]

/-- A free port with the text of a fed one is overlooked: what enters there is not found when
nothing else passes it on. -/
theorem overlooked_of_portKey (h : Sound p) (hs : step ∈ p.steps) {port : Port}
    (hp : port ∈ step.inputs) (hfr : Free p step.id port.name) {e : Edge} (he : e ∈ p.edges)
    (hk : portKey e.toStep e.toPort = portKey step.id port.name) : ¬ FindsReaching p := by
  intro hfi
  -- a run in which only this port receives the source, and every record has it
  let st : RunTaint :=
    ⟨fun name => if name = port.name then some (Value.mark .null "s") else none, fun _ => ["s"]⟩
  have hm : "s" ∈ sources (Value.mark .null "s") := by
    rw [mem_sources, self_mem_marks_mark_iff]
    exact .inl rfl
  have hr : TaintReaches p st "s" step.id :=
    ⟨step, hs, ⟨port, hp, hfr, _, if_pos rfl, hm⟩, .refl⟩
  have hf := ((hfi st step hs).1 "s").mpr hr
  rw [mem_taintSources h hs, h.arrives_iff] at hf
  obtain ⟨o, ho, how, hpa⟩ := hf
  rcases hpa.cases_tail with hid | ⟨y, -, -, hy⟩
  · obtain ⟨po', hp', hfe, v, hv, -⟩ := mem_ownSources.mp how
    have hn : po'.name = port.name := by
      by_contra hne
      simp [st, hne] at hv
    rw [hn, ← hid] at hfe
    exact fed_eq_false_iff.mp hfe e he hk
  · exact hy (mem_singleton_self "s")

/-- The search finds exactly what reaches a step along the edges, whatever the inputs and the
records, when no free port has the text of a fed one, and only then. -/
theorem taintSources_reaching_iff (hbuild : build (some p) = .ok g) :
    FindsReaching p ↔ PortsApart p := by
  have h := sound_of_build hbuild
  constructor
  · intro hf step hs port hpr hfr e he hk
    exact overlooked_of_portKey h hs hpr hfr he hk hf
  · intro hpo st step hs
    refine ⟨fun s => ?_, fun q hst hed => taintSources_perm h hs hst hed⟩
    rw [mem_taintSources h hs, h.arrives_iff]
    constructor
    · rintro ⟨o, ho, how, hp⟩
      exact ⟨o, ho, (mem_ownSources_iff hpo ho).mp how, hp⟩
    · rintro ⟨o, ho, hen, hp⟩
      exact ⟨o, ho, (mem_ownSources_iff hpo ho).mpr hen, hp⟩

def validateStep : Step where
  id := "validate"
  inputs := [{ name := "ref" }, { name := "body" }]
  outputs := [{ name := "out" }]

def deployStep : Step where
  id := "deploy"
  inputs := [{ name := "in" }]

/-- A step that validates what a trigger brought in, and one that deploys it. -/
def review : Pipeline where
  steps := [validateStep, deployStep]
  edges := [⟨"validate", "out", "deploy", "in", []⟩]

theorem review_build : ∃ g, build (some review) = .ok g := ⟨_, rfl⟩

theorem review_portsApart : PortsApart review := by
  simp only [PortsApart, Free]
  decide

theorem review_finds_reaching : FindsReaching review := by
  obtain ⟨g, hg⟩ := review_build
  exact (taintSources_reaching_iff hg).mpr review_portsApart

/-- The free port of one step and the fed port of another are known by one text. -/
def clashing : Pipeline where
  steps := [{ id := "src", outputs := [{ name := "out" }] },
            { id := "a", inputs := [{ name := "b\x00c" }] },
            { id := "a\x00b", inputs := [{ name := "c" }] }]
  edges := [⟨"src", "out", "a\x00b", "c", []⟩]

theorem clashing_not_finds_reaching :
    (∃ g, build (some clashing) = .ok g) ∧ ¬ FindsReaching clashing := by
  have hb : ∃ g, build (some clashing) = .ok g := ⟨_, rfl⟩
  refine ⟨hb, ?_⟩
  obtain ⟨g, hg⟩ := hb
  have hs : { id := "a", inputs := [{ name := "b\x00c" }] } ∈ clashing.steps := by
    simp [clashing]
  exact overlooked_of_portKey (sound_of_build hg) hs (mem_singleton_self _)
    (by simp [Free, clashing]) (mem_singleton_self _) (by decide)

/-! ### A record clears a source for every input -/

variable {ins : Inputs} {log log' : SanitisedLog}

def ReachesAround (p : Pipeline) (st : RunTaint) (s gate id : String) : Prop :=
  ∃ origin ∈ p.steps, s ∈ ownSources p st origin ∧
    Relation.ReflTransGen (fun a b => PassesOn p st s a b ∧ a ≠ gate) origin.id id

/-- The input carries the source: a run input bound to it does, or a step that feeds it and
that the source reaches passes the source on. -/
def InputCarries (p : Pipeline) (st : RunTaint) (s : String) (gate : Step) (port : Port) : Prop :=
  (Free p gate.id port.name ∧ ∃ v, st.inputs port.name = some v ∧ s ∈ sources v) ∨
    ∃ e ∈ p.edges, e.toStep = gate.id ∧ e.toPort = port.name ∧
      TaintReaches p st s e.fromStep ∧ s ∉ st.sanitised e.fromStep

def CarriedOutside (p : Pipeline) (st : RunTaint) (s : String) (gate : Step)
    (fields : List String) : Prop :=
  ∃ port ∈ gate.inputs, port.name ∉ fields ∧ InputCarries p st s gate port

/-- Where an input of the gate that is not cleared carries the source, every step that depends
on the gate and had the source has it still. -/
def KeptElsewhere (p : Pipeline) (inputs : Inputs) (log log' : SanitisedLog) (gate : Step)
    (fields : List String) (s : String) : Prop :=
  CarriedOutside p ⟨inputs, sanitisedBy log⟩ s gate fields →
    ∀ step ∈ p.steps, Relation.TransGen (Precedes p) gate.id step.id →
      s ∈ taintSources p step ⟨inputs, sanitisedBy log⟩ →
      s ∈ taintSources p step ⟨inputs, sanitisedBy log'⟩

theorem sanitisedBy_append (log : SanitisedLog) (e : Sanitised) (id : String) :
    sanitisedBy (log ++ [e]) id =
      sanitisedBy log id ++ if e.stepID = id then e.record.sources else [] := by
  by_cases h : e.stepID = id <;> simp [sanitisedBy, h]

theorem taintNet_append (p : Pipeline) (ins : Inputs) (log : SanitisedLog) (e : Sanitised) :
    taintNet p ⟨ins, sanitisedBy (log ++ [e])⟩ =
      (taintNet p ⟨ins, sanitisedBy log⟩).keepAlso e.stepID e.record.sources := by
  have hk : (taintNet p ⟨ins, sanitisedBy (log ++ [e])⟩).keeps =
      ((taintNet p ⟨ins, sanitisedBy log⟩).keepAlso e.stepID e.record.sources).keeps := by
    funext id src
    by_cases hid : e.stepID = id
    · subst hid
      simp [taintNet, Net.keepAlso, sanitisedBy_append]
    · simp [taintNet, Net.keepAlso, sanitisedBy_append, hid, Ne.symm hid]
  exact Net.ext rfl rfl rfl rfl hk

theorem Sound.arrivesAround_iff (h : Sound p) {st : RunTaint} {gate x : String} :
    (taintNet p st).ArrivesAround s gate x ↔ ReachesAround p st s gate x := by
  have hp : (fun a b => (taintNet p st).Passes s a b ∧ a ≠ gate) =
      fun a b => PassesOn p st s a b ∧ a ≠ gate := by
    funext a b
    rw [h.passes_iff]
  rw [Net.ArrivesAround, hp]
  exact h.exists_step_iff

/-- The dependents of a gate keep a source exactly when no cleared field had it, or the gate
did not have it to pass on, or every step the gate feeds has it from elsewhere. -/
theorem dependents_keep_iff (h : Sound p) {gate : Gate} {call : Sanitisation} {now : ℤ}
    {refusal : Option Text} {cleared : Inputs} {record : Record} {step : Step}
    (hse : step ∈ p.steps) (hid : gate.stepID = step.id)
    (hok : gate.sanitise (some ⟨log, refusal⟩) call now = .ok (cleared, record, log'))
    (ins : Inputs) (s : String) : (∀ t ∈ p.steps, Relation.TransGen (Precedes p) step.id t.id →
        s ∈ taintSources p t ⟨ins, sanitisedBy log⟩ →
        s ∈ taintSources p t ⟨ins, sanitisedBy log'⟩) ↔
      ((∃ f ∈ call.fields, ∃ v, call.inputs f = some v ∧ s ∈ sources v) →
        s ∈ taintSources p step ⟨ins, sanitisedBy log⟩ → s ∉ sanitisedBy log step.id →
        ∀ e ∈ p.edges, e.fromStep = step.id →
          ReachesAround p ⟨ins, sanitisedBy log⟩ s step.id e.toStep) := by
  obtain ⟨-, -, hs, store, hst, rfl⟩ := sanitise_ok hok
  obtain rfl : store = ⟨log, refusal⟩ := (Option.some.inj hst).symm
  let N := taintNet p ⟨ins, sanitisedBy log⟩
  have hn : taintNet p ⟨ins, sanitisedBy (log ++ [⟨gate.stepID, record, now⟩])⟩ =
      N.keepAlso step.id record.sources := by rw [taintNet_append, hid]
  have hfe : N.Feeds = Precedes p := by
    funext x y
    exact propext h.feeds_iff
  have hke : (∀ y, Relation.TransGen N.Feeds step.id y → N.Arrives s y →
      (N.keepAlso step.id record.sources).Arrives s y) ↔ _ := Net.arrives_keepAlso_iff
  rw [hs, hfe] at hke
  have hb (t : Step) (ht : t ∈ p.steps) :
      s ∈ taintSources p t ⟨ins, sanitisedBy log⟩ ↔ N.Arrives s t.id := mem_taintSources h ht
  have ha (t : Step) (ht : t ∈ p.steps) :
      s ∈ taintSources p t ⟨ins, sanitisedBy (log ++ [⟨gate.stepID, record, now⟩])⟩ ↔
        (N.keepAlso step.id record.sources).Arrives s t.id := by
    rw [mem_taintSources h ht, hn]
  have hk : N.keeps step.id s = false ↔ s ∉ sanitisedBy log step.id := by
    simp [N, taintNet]
  -- every step that depends on the gate is a step of the pipeline
  have hd : (∀ t ∈ p.steps, Relation.TransGen (Precedes p) step.id t.id →
      N.Arrives s t.id → (N.keepAlso step.id record.sources).Arrives s t.id) ↔
      ∀ y, Relation.TransGen (Precedes p) step.id y →
        N.Arrives s y → (N.keepAlso step.id record.sources).Arrives s y := by
    constructor
    · intro hal y hy
      obtain ⟨x, -, e, he, -, rfl⟩ := Relation.TransGen.tail'_iff.mp hy
      obtain ⟨t, ht, hti⟩ := mem_map.mp (h.known e he).2
      rw [← hti] at hy ⊢
      exact hal t ht hy
    · exact fun hal t _ => hal t.id
  have hed : (∀ y, Precedes p step.id y → N.ArrivesAround s step.id y) ↔
      ∀ e ∈ p.edges, e.fromStep = step.id →
        ReachesAround p ⟨ins, sanitisedBy log⟩ s step.id e.toStep := by
    constructor
    · exact fun hal e he hf => h.arrivesAround_iff.mp (hal _ ⟨e, he, hf, rfl⟩)
    · rintro hal y ⟨e, he, hf, rfl⟩
      exact h.arrivesAround_iff.mpr (hal e he hf)
  calc (∀ t ∈ p.steps, Relation.TransGen (Precedes p) step.id t.id →
        s ∈ taintSources p t ⟨ins, sanitisedBy log⟩ →
        s ∈ taintSources p t ⟨ins, sanitisedBy (log ++ [⟨gate.stepID, record, now⟩])⟩)
      ↔ ∀ t ∈ p.steps, Relation.TransGen (Precedes p) step.id t.id →
        N.Arrives s t.id → (N.keepAlso step.id record.sources).Arrives s t.id :=
        forall₂_congr fun t ht => by rw [hb t ht, ha t ht]
    _ ↔ _ := hd.trans hke
    _ ↔ _ := by rw [hb step hse, hk, hed]

/-- Clearing some inputs of a gate keeps a source that another input carries exactly when the
cleared ones did not carry it, or it is not the gate that passes it on. -/
theorem clearing_keeps_iff (hbuild : build (some p) = .ok g) {gate : Gate} {call : Sanitisation}
    {now : ℤ} {refusal : Option Text} {cleared : Inputs} {record : Record} {step : Step}
    (hstep : step ∈ p.steps) (hid : gate.stepID = step.id)
    (hok : gate.sanitise (some ⟨log, refusal⟩) call now = .ok (cleared, record, log'))
    (inputs : Inputs) (s : String) : KeptElsewhere p inputs log log' step call.fields s ↔
      (CarriedOutside p ⟨inputs, sanitisedBy log⟩ s step call.fields →
        (∃ f ∈ call.fields, ∃ v, call.inputs f = some v ∧ s ∈ sources v) →
        s ∈ taintSources p step ⟨inputs, sanitisedBy log⟩ → s ∉ sanitisedBy log step.id →
        ∀ e ∈ p.edges, e.fromStep = step.id →
          ReachesAround p ⟨inputs, sanitisedBy log⟩ s step.id e.toStep) :=
  imp_congr_right fun _ => dependents_keep_iff (sound_of_build hbuild) hstep hid hok inputs s

theorem mem_taintSources_of_carried (h : Sound p) (hp : PortsApart p) {st : RunTaint}
    {gate t : Step} {fields : List String} (hg : gate ∈ p.steps) (ht : t ∈ p.steps)
    (hcl : ∀ id, s ∉ st.sanitised id) (hc : CarriedOutside p st s gate fields)
    (hpt : Relation.TransGen (Precedes p) gate.id t.id) : s ∈ taintSources p t st := by
  have hpa : Relation.ReflTransGen (PassesOn p st s) gate.id t.id :=
    hpt.to_reflTransGen.lift id fun a _ hab => ⟨hab, hcl a⟩
  rw [mem_taintSources h ht, h.arrives_iff]
  obtain ⟨port, hpo, -, ⟨hf, hv⟩ | ⟨e, he, hto, -, ⟨o, ho, hen, hup⟩, hs⟩⟩ :=
    hc
  · exact ⟨gate, hg, (mem_ownSources_iff hp hg).mpr ⟨port, hpo, hf, hv⟩, hpa⟩
  · have hed : PassesOn p st s e.fromStep gate.id := ⟨⟨e, he, rfl, hto⟩, hs⟩
    exact ⟨o, ho, (mem_ownSources_iff hp ho).mpr hen, (hup.tail hed).trans hpa⟩

def mixedInputs : Inputs := fun name =>
  if name = "ref" then some pushedRef
  else if name = "body" then some (Value.mark .null "http:hook") else none

def pushedInputs : Inputs := fun name =>
  if name = "ref" ∨ name = "body" then some pushedRef else none

theorem body_carriedOutside (ins : Inputs) {v : Value} (hv : ins "body" = some v)
    (hs : s ∈ sources v) : CarriedOutside review ⟨ins, sanitisedBy []⟩ s validateStep ["ref"] :=
  ⟨{ name := "body" }, by simp [validateStep], by decide,
    .inl ⟨by simp [Free, review], v, hv, hs⟩⟩

theorem validate_precedes_deploy :
    Relation.TransGen (Precedes review) validateStep.id deployStep.id :=
  .single ⟨_, mem_singleton_self _, rfl, rfl⟩

/-- The record of the ref leaves what the body carries. -/
theorem mixedInputs_kept : ∃ cleared record log',
    refGate.sanitise (some ⟨[], none⟩) (clearRef mixedInputs) 0 = .ok (cleared, record, log') ∧
    CarriedOutside review ⟨mixedInputs, sanitisedBy []⟩ "http:hook" validateStep ["ref"] ∧
    KeptElsewhere review mixedInputs [] log' validateStep ["ref"] "http:hook" := by
  obtain ⟨g, hg⟩ := review_build
  have hok := sanitise_clearRef mixedInputs rfl isTainted_pushedRef
  have hb : "http:hook" ∈ sources (Value.mark .null "http:hook") := by
    rw [mem_sources, self_mem_marks_mark_iff]
    exact .inl rfl
  have hva : validateStep ∈ review.steps := by simp [review]
  refine ⟨_, _, _, hok, body_carriedOutside mixedInputs rfl hb,
    (clearing_keeps_iff hg hva rfl hok mixedInputs "http:hook").mpr ?_⟩
  rintro - ⟨f, hf, v, hv, hs⟩
  -- the ref has the push as its only source
  obtain rfl : f = "ref" := by simpa [clearRef] using hf
  obtain rfl := Option.some.inj hv
  have hst : marks (.string "main") = [] := marks_of_plain rfl
  rw [mem_sources, marks_of_mark? mark?_pushedRef] at hs
  simp [Fields.source, Fields.value, lookup, sourceField, valueField, hst,
    Value.getStringValue] at hs

/-- The record of the ref clears what the body still carries. -/
theorem pushedInputs_not_kept : ∃ cleared record log',
    refGate.sanitise (some ⟨[], none⟩) (clearRef pushedInputs) 0 = .ok (cleared, record, log') ∧
    "git:pushes" ∈ taintSources review deployStep ⟨pushedInputs, sanitisedBy []⟩ ∧
    ¬ KeptElsewhere review pushedInputs [] log' validateStep ["ref"] "git:pushes" := by
  obtain ⟨g, hg⟩ := review_build
  have hs := sound_of_build hg
  have hok := sanitise_clearRef pushedInputs rfl isTainted_pushedRef
  have hso : "git:pushes" ∈ sources pushedRef := by
    rw [pushedRef, mem_sources, self_mem_marks_mark_iff]
    exact .inl rfl
  have hc := body_carriedOutside pushedInputs rfl hso
  have hv : validateStep ∈ review.steps := by simp [review]
  refine ⟨_, _, _, hok, mem_taintSources_of_carried hs review_portsApart hv
    (by simp [review]) (by simp [sanitisedBy]) hc validate_precedes_deploy, fun hk => ?_⟩
  have how : "git:pushes" ∈ taintSources review validateStep ⟨pushedInputs, sanitisedBy []⟩ := by
    rw [mem_taintSources hs hv, hs.arrives_iff]
    exact ⟨validateStep, hv, (mem_ownSources_iff review_portsApart hv).mpr
      ⟨{ name := "ref" }, by simp [validateStep], by simp [Free, review],
        pushedRef, rfl, hso⟩, .refl⟩
  have ha := (dependents_keep_iff hs hv rfl hok pushedInputs "git:pushes").mp
    (hk hc) ⟨"ref", by simp [clearRef], pushedRef, rfl, hso⟩ how
    (by simp [sanitisedBy]) ⟨"validate", "out", "deploy", "in", []⟩ (mem_singleton_self _) rfl
  -- the only edge leaves the gate, and the step it feeds has no input of its own
  obtain ⟨o, ho, hsr, hp⟩ := ha
  rcases hp.cases_tail with hid | ⟨y, -, ⟨⟨e, he, rfl, -⟩, -⟩, hne⟩
  · have hm : o = validateStep ∨ o = deployStep := by simpa [review] using ho
    rcases hm with rfl | rfl
    · exact absurd hid (by decide)
    · obtain ⟨port, hpo, hf, -⟩ := mem_ownSources.mp hsr
      obtain rfl : port = { name := "in" } := by simpa [deployStep] using hpo
      exact absurd hf (by decide)
  · obtain rfl : e = ⟨"validate", "out", "deploy", "in", []⟩ := by simpa [review] using he
    exact hne rfl

end Dhole.Taint
