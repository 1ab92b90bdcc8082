import Dhole.Iterations

/-! A loop unrolled into its run. Each iteration is read from the controller that the one before
it left in the graph and is spliced in at that controller. A controller declares no outputs, so
from the second iteration on a step that enters the body finds no port there: the loop unrolls to
its maximum exactly if none of them declares an input and no id of an iteration is taken by the
pipeline. -/

namespace Dhole.Loop

open Dag Dhole.Dynamic Spec
open List hiding next

/-! ### One iteration after the other -/

/-- The next iteration, read from the step that decides it, and the step that decides the one
after it. -/
def iterateAt (lang : Language) (p : Pipeline) (id : String) : Option (Pipeline × String) :=
  match findStep p id with
  | none => none
  | some step =>
    match parseSpec lang step with
    | .error _ => none
    | .ok s =>
      match splice (some p) id s.fragment with
      | .error _ => none
      | .ok q => some (q, controllerID s.loop (s.iteration + 1))

def unroll (lang : Language) (p : Pipeline) (id : String) : ℕ → Option (Pipeline × String)
  | 0 => some (p, id)
  | n + 1 => (unroll lang p id n).bind fun (q, next) => iterateAt lang q next

/-! ### The fragment of an iteration -/

section Fragment

variable {t : Spec} {ps : List (Step × Port)}

def Spec.placed (t : Spec) (step : Step) : Step := { step with id := t.bodyStepID step.id }

def Spec.fragmentOf (t : Spec) (ports : List (Step × Port)) : Pipeline where
  id := t.loop ++ "." ++ formatUint t.iteration
  tenant := t.body.tenant
  steps := t.body.steps.map t.placed ++ [t.controller ports]
  edges := t.body.edges.map t.bodyEdge ++ ports.map fun (exit, port) => t.exitEdge exit port

theorem fragment_eq_some_iff {f : Pipeline} : t.fragment = some f ↔
    t.iteration ≤ t.max ∧ ∃ ps, t.exitPorts = some ps ∧ f = t.fragmentOf ps := by
  unfold Spec.fragment
  split
  · simp only [reduceCtorEq, false_iff]
    omega
  · simp only [Option.map_eq_some_iff, eq_comm (a := f)]
    exact ⟨fun h => ⟨by omega, h⟩, And.right⟩

theorem mapM_head_eq {l : List Step} (h : l.mapM (fun exit =>
    exit.outputs.head?.map fun port => (exit, port)) = some ps) :
    ps.map Prod.fst = l ∧ ∀ x ∈ ps, x.1.outputs.head? = some x.2 := by
  induction l generalizing ps with
  | nil =>
    obtain rfl : [] = ps := by simpa using h
    simp
  | cons exit l ih =>
    simp only [mapM_cons, Option.bind_eq_bind, Option.bind_eq_some_iff, Option.map_eq_some_iff,
      Option.pure_def, Option.some.injEq] at h
    obtain ⟨_, ⟨port, hp, rfl⟩, rest, hr, rfl⟩ := h
    obtain ⟨hf, ha⟩ := ih hr
    exact ⟨by simp [hf], forall_mem_cons.mpr ⟨hp, ha⟩⟩

theorem bodyStepID_inj {a b : String} (h : t.bodyStepID a = t.bodyStepID b) : a = b := by
  rw [bodyStepID_eq, bodyStepID_eq] at h
  exact (formatUint_dot_inj (dot_cancel h)).2

theorem bodyStepID_ne_controllerID (ht : 1 ≤ t.iteration) (a : String) :
    t.bodyStepID a ≠ controllerID t.loop (t.iteration + 1) := by
  rw [bodyStepID_eq, controllerID_eq ht]
  exact fun h => formatUint_ne_dot (dot_cancel h).symm

theorem ids_fragmentOf : (t.fragmentOf ps).steps.map Step.id = t.stepIDs := by
  simp [Spec.fragmentOf, Spec.stepIDs, Spec.placed, Spec.controller]

theorem nodup_stepIDs (ht : 1 ≤ t.iteration) : t.stepIDs.Nodup := by
  obtain ⟨g, hg⟩ := t.built
  obtain ⟨⟨hn, -⟩, -⟩ := build_ok hg
  rw [Spec.stepIDs, nodup_append]
  refine ⟨?_, nodup_singleton _, ?_⟩
  · have := hn.map (f := t.bodyStepID) fun a b => bodyStepID_inj
    simpa [Function.comp_def] using this
  · rintro x hx y hy rfl
    obtain ⟨step, -, hs⟩ := mem_map.mp hx
    exact bodyStepID_ne_controllerID ht step.id (hs.trans (mem_singleton.mp hy))

theorem stepIDs_ne_empty (ht : 1 ≤ t.iteration) {id : String} (hid : id ∈ t.stepIDs) : id ≠ "" := by
  rcases (mem_stepIDs ht).mp hid with ⟨step, -, rfl⟩ | rfl <;> simp

theorem ends_fragmentOf (hports : t.exitPorts = some ps) :
    ∀ e ∈ (t.fragmentOf ps).edges, e.fromStep ∈ (t.fragmentOf ps).steps.map Step.id ∧
      e.toStep ∈ (t.fragmentOf ps).steps.map Step.id := by
  obtain ⟨g, hg⟩ := t.built
  obtain ⟨-, hen, -⟩ := build_ok hg
  have hb : ∀ id ∈ t.body.steps.map Step.id, t.bodyStepID id ∈ t.stepIDs := by
    intro id hid
    obtain ⟨step, hs, rfl⟩ := mem_map.mp hid
    exact mem_append_left _ (mem_map_of_mem hs)
  obtain ⟨hf, -⟩ := mapM_head_eq hports
  rw [ids_fragmentOf]
  intro e he
  rcases mem_append.mp he with he | he
  · obtain ⟨d, hd, rfl⟩ := mem_map.mp he
    exact ⟨hb _ (hen d hd).1, hb _ (hen d hd).2⟩
  · obtain ⟨x, hx, rfl⟩ := mem_map.mp he
    have hei : x.1 ∈ t.exitSteps := hf ▸ mem_map_of_mem hx
    exact ⟨hb _ (mem_map_of_mem (mem_filter.mp hei).1), mem_append_right _ (by
      simp [Spec.exitEdge])⟩

theorem transGen_fragmentOf (ht : 1 ≤ t.iteration) {a y : String}
    (h : Relation.TransGen (Feeds (t.fragmentOf ps)) (t.bodyStepID a) y) :
    (∃ b, y = t.bodyStepID b ∧ Relation.TransGen (Feeds t.body) a b) ∨
      y = controllerID t.loop (t.iteration + 1) := by
  have hs : ∀ b z, Feeds (t.fragmentOf ps) (t.bodyStepID b) z →
      (∃ c, z = t.bodyStepID c ∧ Feeds t.body b c) ∨
        z = controllerID t.loop (t.iteration + 1) := by
    rintro b _ ⟨e, he, hf, rfl⟩
    rcases mem_append.mp he with he | he
    · obtain ⟨d, hd, rfl⟩ := mem_map.mp he
      exact .inl ⟨d.toStep, rfl, d, hd, bodyStepID_inj hf, rfl⟩
    · obtain ⟨x, -, rfl⟩ := mem_map.mp he
      exact .inr rfl
  have hl : ∀ z, ¬ Feeds (t.fragmentOf ps) (controllerID t.loop (t.iteration + 1)) z := by
    rintro _ ⟨e, he, hf, -⟩
    rcases mem_append.mp he with he | he
    · obtain ⟨d, -, rfl⟩ := mem_map.mp he
      exact bodyStepID_ne_controllerID ht _ hf
    · obtain ⟨x, -, rfl⟩ := mem_map.mp he
      exact bodyStepID_ne_controllerID ht _ hf
  induction h with
  | single h =>
    rcases hs _ _ h with ⟨c, rfl, hc⟩ | h
    · exact .inl ⟨c, rfl, .single hc⟩
    · exact .inr h
  | tail _ h ih =>
    rcases ih with ⟨b, rfl, hab⟩ | rfl
    · rcases hs _ _ h with ⟨c, rfl, hc⟩ | h
      · exact .inl ⟨c, rfl, hab.tail hc⟩
      · exact .inr h
    · exact absurd h (hl _)

theorem acyclic_fragmentOf (ht : 1 ≤ t.iteration) : Acyclic (t.fragmentOf ps) := by
  obtain ⟨g, hg⟩ := t.built
  intro id hc
  obtain ⟨_, ⟨e, he, hf, -⟩, -⟩ := Relation.TransGen.head'_iff.mp hc
  obtain ⟨a, rfl⟩ : ∃ a, id = t.bodyStepID a := by
    rcases mem_append.mp he with he | he
    · obtain ⟨d, -, rfl⟩ := mem_map.mp he
      exact ⟨_, hf.symm⟩
    · obtain ⟨x, -, rfl⟩ := mem_map.mp he
      exact ⟨_, hf.symm⟩
  rcases transGen_fragmentOf ht hc with ⟨b, hb, hab⟩ | h
  · obtain rfl := bodyStepID_inj hb
    exact build_acyclic hg a hab
  · exact bodyStepID_ne_controllerID ht a h

theorem entry_fragmentOf {step : Step} (h : Entry (t.fragmentOf ps) step) :
    (∃ b, Entry t.body b ∧ step = t.placed b) ∨ step.inputs = [] := by
  obtain ⟨hs, hn⟩ := h
  rcases mem_append.mp hs with hs | hs
  · obtain ⟨b, hb, rfl⟩ := mem_map.mp hs
    refine .inl ⟨b, ⟨hb, fun e he hto => ?_⟩, rfl⟩
    refine hn (t.bodyEdge e) (mem_append_left _ (mem_map_of_mem he)) ?_
    exact congrArg t.bodyStepID hto
  · obtain rfl := mem_singleton.mp hs
    cases ps with
    | nil => exact .inr rfl
    | cons x ps =>
      exact absurd rfl (hn (t.exitEdge x.1 x.2) (mem_append_right _ mem_cons_self))

theorem entry_placed (ht : 1 ≤ t.iteration) {b : Step} (h : Entry t.body b) :
    Entry (t.fragmentOf ps) (t.placed b) := by
  refine ⟨mem_append_left _ (mem_map_of_mem h.1), fun e he hto => ?_⟩
  rcases mem_append.mp he with he | he
  · obtain ⟨d, hd, rfl⟩ := mem_map.mp he
    exact h.2 d hd (bodyStepID_inj hto)
  · obtain ⟨x, -, rfl⟩ := mem_map.mp he
    exact bodyStepID_ne_controllerID ht b.id hto.symm

/-- What the iterations share: the ports of the exit steps connect, and the files the body's
steps read are carried by the pipeline. -/
def Spec.Placeable (t : Spec) (ports : List (Step × Port)) (files : List File) : Prop :=
  (∀ x ∈ ports, incompatible x.2.type x.2.type = []) ∧
    ∀ b ∈ t.body.steps, ∀ input ∈ b.fileInputs, input.path ∈ files.map File.path

variable (hports : t.exitPorts = some ps)

include hports

theorem mem_exitPorts {x : Step × Port} (hx : x ∈ ps) :
    x.1 ∈ t.body.steps ∧ findPort x.1.outputs x.2.name = some x.2 ∧
      findPort (t.controller ps).inputs x.1.id = some { x.2 with name := x.1.id } := by
  obtain ⟨hf, hh⟩ := mapM_head_eq hports
  obtain ⟨g, hg⟩ := t.built
  obtain ⟨⟨hn, -⟩, -⟩ := build_ok hg
  have he : x.1 ∈ t.exitSteps := hf ▸ mem_map_of_mem hx
  refine ⟨(mem_filter.mp he).1, ?_, ?_⟩
  · obtain ⟨rest, hr⟩ := head?_eq_some_iff.mp (hh x hx)
    simp [findPort, hr]
  · -- The exit steps have ids of their own, so no earlier input has this one's name.
    have hi : (ps.map fun y => y.1.id).Nodup := by
      have hs : t.exitSteps.map Step.id |>.Nodup :=
        hn.sublist ((filter_sublist).map Step.id)
      rw [← hf, map_map] at hs
      exact hs
    clear hf hh he hports
    simp only [Spec.controller, findPort]
    induction ps with
    | nil => simp at hx
    | cons y ps ih =>
      rw [map_cons, nodup_cons] at hi
      rcases mem_cons.mp hx with rfl | hx
      · simp
      · have hne : y.1.id ≠ x.1.id := fun h =>
          hi.1 (h ▸ mem_map_of_mem hx)
        simpa [hne] using ih hx hi.2

theorem typed_fragmentOf {q : Pipeline}
    (hpl : t.Placeable ps q.files) (hst : (t.fragmentOf ps).steps ⊆ q.steps) :
    (∀ e ∈ (t.fragmentOf ps).edges, Fits q e) ∧
      ∀ step ∈ (t.fragmentOf ps).steps, BindsFiles q step := by
  obtain ⟨g, hg⟩ := t.built
  obtain ⟨⟨hn, -⟩, -⟩ := build_ok hg
  obtain ⟨hf, hbi⟩ := (typeCheck_eq_nil_iff hn).mp t.checked
  have hp : ∀ b ∈ t.body.steps, t.placed b ∈ q.steps := fun b hb =>
    hst (mem_append_left _ (mem_map_of_mem hb))
  constructor
  · intro e he
    rcases mem_append.mp he with he | he
    · obtain ⟨d, hd, rfl⟩ := mem_map.mp he
      obtain ⟨source, hso, ta, ht, hsi, hti, hr⟩ := hf d hd
      exact ⟨_, hp source hso, _, hp ta ht,
        congrArg t.bodyStepID hsi, congrArg t.bodyStepID hti, hr⟩
    · obtain ⟨x, hx, rfl⟩ := mem_map.mp he
      obtain ⟨hei, ho, hin⟩ := mem_exitPorts hports hx
      exact ⟨_, hp x.1 hei, _, hst (mem_append_right _ mem_cons_self), rfl, rfl,
        x.2, _, ho, hin, hpl.1 x hx⟩
  · intro step hs
    rcases mem_append.mp hs with hs | hs
    · obtain ⟨b, hb, rfl⟩ := mem_map.mp hs
      exact fun input hi => ⟨hpl.2 b hb input hi, (hbi b hb input hi).2⟩
    · obtain rfl := mem_singleton.mp hs
      exact fun input hi => absurd hi not_mem_nil

theorem placeable_of_typed {q : Pipeline} (hq : Sound q) (hst : (t.fragmentOf ps).steps ⊆ q.steps)
    (he : (t.fragmentOf ps).edges ⊆ q.edges) : t.Placeable ps q.files := by
  have heq : ∀ a ∈ q.steps, ∀ b ∈ (t.fragmentOf ps).steps, a.id = b.id → a = b :=
    fun a ha b hb => inj_on_of_nodup_map hq.nodup ha (hst hb)
  constructor
  · intro x hx
    obtain ⟨hei, hou, hin⟩ := mem_exitPorts hports hx
    have hed : t.exitEdge x.1 x.2 ∈ (t.fragmentOf ps).edges :=
      mem_append_right _ (mem_map_of_mem hx)
    obtain ⟨source, hs, ta, ht, hsi, hti, output, input, ho, hi, hf⟩ :=
      hq.typed.1 _ (he hed)
    obtain rfl := heq source hs (t.placed x.1)
      (mem_append_left _ (mem_map_of_mem hei)) hsi
    obtain rfl := heq ta ht (t.controller ps)
      (mem_append_right _ mem_cons_self) hti
    obtain rfl : x.2 = output := by simpa [Spec.placed, Spec.exitEdge, hou] using ho
    obtain rfl : { x.2 with name := x.1.id } = input := by
      simpa [Spec.exitEdge, hin] using hi
    exact hf
  · intro b hb input hi
    exact (hq.typed.2 (t.placed b) (hst (mem_append_left _ (mem_map_of_mem hb))) input hi).1

omit hports

/-! ### Splicing at a controller -/

theorem graftEdges_eq_nil {f : Pipeline} {anchor : Step} {id : String}
    (h : ∀ step, Entry f step → step.inputs = []) : graftEdges anchor id f = [] := by
  refine filterMap_eq_nil_iff.mpr fun x hx => ?_
  obtain ⟨step, hs, hx⟩ := mem_flatMap.mp hx
  have he : Entry f step := by simpa [Entry, hasIncoming] using mem_filter.mp hs
  simp [h step he] at hx

/-- At a step without outputs an iteration splices into a sound graph exactly if no step that
enters the body declares an input and its ids are new. -/
theorem splice_fragmentOf_iff {q : Pipeline} {anchor : Step} {id : String} (hq : Sound q)
    (han : findAnchor q id = some anchor) (ho : anchor.outputs = [])
    (ht : 1 ≤ t.iteration) (hports : t.exitPorts = some ps) (hp : t.Placeable ps q.files) :
    (∃ r, splice (some q) id (some (t.fragmentOf ps)) = .ok r) ↔
      (∀ b, Entry t.body b → b.inputs = []) ∧ ∀ x ∈ t.stepIDs, x ∉ q.steps.map Step.id := by
  constructor
  · rintro ⟨r, hr⟩
    obtain ⟨anchor', han', -, rfl, ⟨hn, -⟩, -, hen, -⟩ := splice_ok_iff.mp hr
    obtain rfl : anchor = anchor' := Option.some.inj (han.symm.trans han')
    constructor
    · intro b hb
      refine eq_nil_iff_forall_not_mem.mpr fun input hi => ?_
      simpa [findPort, ho] using hen _ (entry_placed ht hb) input hi
    · intro x hx hm
      simp only [spliced, map_append] at hn
      exact (nodup_append.mp hn).2.2 _ hm _ (ids_fragmentOf ▸ hx) rfl
  · rintro ⟨hin, hne⟩
    have hen : ∀ step, Entry (t.fragmentOf ps) step → step.inputs = [] := by
      intro step hs
      rcases entry_fragmentOf hs with ⟨b, hb, rfl⟩ | h
      · exact hin b hb
      · exact h
    have hg : graftEdges anchor id (t.fragmentOf ps) = [] := graftEdges_eq_nil hen
    have hes := ends_fragmentOf hports
    have hed : (spliced q anchor id (t.fragmentOf ps)).edges =
        q.edges ++ (t.fragmentOf ps).edges := by simp [spliced, hg]
    have hst : (spliced q anchor id (t.fragmentOf ps)).steps =
        q.steps ++ (t.fragmentOf ps).steps := rfl
    obtain ⟨hf, hbi⟩ := typed_fragmentOf (q := spliced q anchor id (t.fragmentOf ps))
      hports hp (subset_append_right _ _)
    refine ⟨_, splice_ok_iff.mpr ⟨anchor, han, by simp [Spec.fragmentOf], rfl, ⟨?_, ?_⟩, ?_, ?_,
      ?_, ?_, ?_⟩⟩
    · rw [hst, map_append, nodup_append, ids_fragmentOf]
      exact ⟨hq.nodup, nodup_stepIDs ht, fun a ha b hb hab => hne b hb (hab ▸ ha)⟩
    · intro step hs
      rcases mem_append.mp hs with hs | hs
      · exact hq.named step hs
      · exact stepIDs_ne_empty ht (ids_fragmentOf ▸ mem_map_of_mem hs)
    · rw [hed, hst, map_append]
      intro e he
      rcases mem_append.mp he with he | he
      · exact ⟨mem_append_left _ (hq.ends e he).1, mem_append_left _ (hq.ends e he).2⟩
      · exact ⟨mem_append_right _ (hes e he).1, mem_append_right _ (hes e he).2⟩
    · intro step hs input hi
      simp [hen step hs] at hi
    · refine acyclic_append hed hq.ends hes (fun x hx => hne x ?_) hq.acyclic
        (acyclic_fragmentOf ht)
      rwa [ids_fragmentOf] at hx
    · rw [hed]
      intro e he
      rcases mem_append.mp he with he | he
      · exact fits_mono (subset_append_left _ _) (hq.typed.1 e he)
      · exact hf e he
    · intro step hs
      rcases mem_append.mp hs with hs | hs
      · exact hq.typed.2 step hs
      · exact hbi step hs

end Fragment

/-! ### The whole loop -/

/-- The graph holds the iterations up to the `n`th after the first, and the step decides the
next. -/
structure Unrolled (s : Spec) (ports : List (Step × Port)) (p : Pipeline) (n : ℕ) (q : Pipeline)
    (id : String) : Prop where
  sound : Sound q
  files : q.files = p.files
  kept : p.steps ⊆ q.steps
  names : ∀ x ∈ q.steps.map Step.id,
    x ∈ p.steps.map Step.id ∨ ∃ k ≤ n, x ∈ (s.after k).stepIDs
  last : findAnchor q id = some ((s.after n).controller ports)

variable {lang : Language} {s : Spec} {ps : List (Step × Port)} {p q r : Pipeline} {n : ℕ}
  {id : String}

theorem exitPorts_after (s : Spec) (n : ℕ) : (s.after n).exitPorts = s.exitPorts := by
  simp [Spec.exitPorts, Spec.exitSteps]

theorem placeable_after {files : List File} (h : s.Placeable ps files) (n : ℕ) :
    (s.after n).Placeable ps files := by
  simpa [Spec.Placeable] using h

theorem findStep_of_findAnchor {c : Step} (h : findAnchor q id = some c) :
    findStep q id = some c := by
  unfold findAnchor at h
  split at h
  · cases h
  · exact h

theorem fragment_of_splice {t : Spec} (h : splice (some q) id t.fragment = .ok r) :
    ∃ ps, t.exitPorts = some ps ∧ t.fragment = some (t.fragmentOf ps) := by
  cases hf : t.fragment with
  | none =>
    rw [hf] at h
    simp only [splice] at h
    split at h <;> cases h
  | some f =>
    obtain ⟨-, ps, hports, rfl⟩ := fragment_eq_some_iff.mp hf
    exact ⟨ps, hports, rfl⟩

theorem unrolled_of_splice (hports : s.exitPorts = some ps)
    (hfi : q.files = p.files) (hke : p.steps ⊆ q.steps) (hn : ∀ x ∈ q.steps.map Step.id,
      x ∈ p.steps.map Step.id ∨ ∃ k < n, x ∈ (s.after k).stepIDs)
    (h : splice (some q) id (s.after n).fragment = .ok r) :
    Unrolled s ps p n r (controllerID (s.after n).loop ((s.after n).iteration + 1)) := by
  obtain ⟨ps', hports', hf⟩ := fragment_of_splice h
  obtain rfl : ps = ps' := by simpa [exitPorts_after, hports] using hports'
  rw [hf] at h
  have hs := splice_steps h
  have hso := splice_sound h
  have hm : (s.after n).controller ps ∈ r.steps := by simp [hs, Spec.fragmentOf]
  refine ⟨hso, ?_, ?_, ?_, ?_⟩
  · obtain ⟨an, rfl, -⟩ := splice_ok h
    exact hfi
  · rw [hs]
    exact fun x hx => mem_append_left _ (hke hx)
  · rw [hs, map_append, ids_fragmentOf]
    intro x hx
    rcases mem_append.mp hx with hx | hx
    · exact (hn x hx).imp_right fun ⟨k, hk, hx⟩ => ⟨k, hk.le, hx⟩
    · exact .inr ⟨n, le_rfl, hx⟩
  · have hid : ((s.after n).controller ps).id ≠ "" := hso.named _ hm
    exact (if_neg hid).trans (findStep_of_mem hso.nodup hm)

theorem iterateAt_eq_some_iff {t : Spec} {c : Step} {id' : String} (hc : findStep p id = some c)
    (ht : parseSpec lang c = .ok t) : iterateAt lang p id = some (q, id') ↔
      splice (some p) id t.fragment = .ok q ∧ id' = controllerID t.loop (t.iteration + 1) := by
  simp only [iterateAt, hc, ht]
  cases splice (some p) id t.fragment with
  | error e => simp
  | ok q' => simp [eq_comm]

/-- The next iteration splices exactly if no step that enters the body declares an input and
the pipeline has none of its ids. -/
theorem Unrolled.step (h : Unrolled s ps p n q id) (hre : s.Read lang)
    (hfi : s.iteration = 1) (hn : n + 1 < s.max) (hports : s.exitPorts = some ps)
    (hp : s.Placeable ps p.files) :
    ((∃ r id', iterateAt lang q id = some (r, id')) ↔ (∀ b, Entry s.body b → b.inputs = []) ∧
        ∀ x ∈ (s.after (n + 1)).stepIDs, x ∉ p.steps.map Step.id) ∧
      ∀ r id', iterateAt lang q id = some (r, id') → Unrolled s ps p (n + 1) r id' := by
  have hma := hre.max_lt
  have hpo : 1 ≤ (s.after (n + 1)).iteration := by
    rw [Spec.after_iteration]
    omega
  have hpa : parseSpec lang ((s.after n).controller ps) = .ok (s.after (n + 1)) := by
    rw [Spec.after_succ]
    refine parseSpec_controller (hre.after n) ?_ ps
    rw [Spec.after_iteration]
    omega
  have hf : (s.after (n + 1)).fragment = some ((s.after (n + 1)).fragmentOf ps) := by
    refine fragment_eq_some_iff.mpr ⟨?_, ps, (exitPorts_after s _).trans hports, rfl⟩
    rw [Spec.after_iteration, Spec.after_max]
    omega
  have hi : ∀ r id', iterateAt lang q id = some (r, id') ↔
      splice (some q) id (s.after (n + 1)).fragment = .ok r ∧
        id' = controllerID (s.after (n + 1)).loop ((s.after (n + 1)).iteration + 1) :=
    fun r id' => iterateAt_eq_some_iff (findStep_of_findAnchor h.last) hpa
  constructor
  · have hs := splice_fragmentOf_iff h.sound h.last rfl hpo
      ((exitPorts_after s _).trans hports) (placeable_after (h.files ▸ hp) (n + 1))
    simp only [hi, exists_eq_right, hf, hs, Spec.after_body]
    refine and_congr_right fun _ => forall₂_congr fun x hx => not_congr ?_
    refine ⟨fun hm => ?_, fun hm => ?_⟩
    · rcases h.names x hm with hm | ⟨k, hk, hm⟩
      · exact hm
      · exact absurd hx (stepIDs_disjoint (by omega) (by omega) hm)
    · obtain ⟨b, hb, rfl⟩ := mem_map.mp hm
      exact mem_map_of_mem (h.kept hb)
  · intro r id' hr
    obtain ⟨hs, rfl⟩ := (hi r id').mp hr
    refine unrolled_of_splice hports h.files h.kept (fun x hx => ?_) hs
    exact (h.names x hx).imp_right fun ⟨k, hk, hx⟩ => ⟨k, by omega, hx⟩

theorem unrolled_of_unroll {step : Step} (hp : parseSpec lang step = .ok s)
    (hf : s.iteration = 1) (hst : findStep p step.id = some step)
    (hports : s.exitPorts = some ps) (hpl : s.Placeable ps p.files) {id : String}
    (hn : n < s.max) (h : unroll lang p step.id (n + 1) = some (q, id)) :
    Unrolled s ps p n q id := by
  obtain ⟨hr, -⟩ := parseSpec_ok hp
  induction n generalizing q id with
  | zero =>
    obtain ⟨hs, rfl⟩ := (iterateAt_eq_some_iff hst hp).mp h
    exact unrolled_of_splice hports rfl (Subset.refl _)
      (fun x hx => .inl hx) hs
  | succ n ih =>
    obtain ⟨⟨q', id'⟩, hq', hne⟩ := Option.bind_eq_some_iff.mp h
    exact ((ih (by omega) hq').step hr hf hn hports hpl).2 _ _ hne

/-- A loop whose first iteration splices at its step unrolls to its maximum exactly if, where
there is a second iteration, no step that enters the body declares an input, and the pipeline
has no id of an iteration after the first. -/
theorem unroll_isSome_iff (lang : Language) (step : Step) (s : Spec) (p q : Pipeline)
    (hparse : parseSpec lang step = .ok s) (hfirst : s.iteration = 1)
    (hstep : findStep p step.id = some step)
    (hsplice : splice (some p) step.id s.fragment = .ok q) :
    (∀ n ≤ s.max, (unroll lang p step.id n).isSome) ↔
      (2 ≤ s.max → ∀ b, Entry s.body b → b.inputs = []) ∧
        ∀ n, 1 ≤ n → n < s.max → ∀ id ∈ (s.after n).stepIDs, id ∉ p.steps.map Step.id := by
  obtain ⟨hr, -⟩ := parseSpec_ok hparse
  have hun : unroll lang p step.id 1 = some (q, controllerID s.loop (s.iteration + 1)) :=
    (iterateAt_eq_some_iff hstep hparse).mpr ⟨hsplice, rfl⟩
  obtain ⟨ports, hports, hp⟩ : ∃ ports, s.exitPorts = some ports ∧
      s.Placeable ports p.files := by
    obtain ⟨ports, hports, hf⟩ := fragment_of_splice hsplice
    rw [hf] at hsplice
    obtain ⟨an, rfl, -⟩ := splice_ok hsplice
    have hp : s.Placeable ports (spliced p an step.id (s.fragmentOf ports)).files :=
      placeable_of_typed hports (splice_sound hsplice) (subset_append_right _ _)
        fun e he => mem_append_left _ (mem_append_right _ he)
    exact ⟨ports, hports, hp⟩
  have hu : ∀ n r id, n < s.max → unroll lang p step.id (n + 1) = some (r, id) →
      Unrolled s ports p n r id :=
    fun n r id hn h => unrolled_of_unroll hparse hfirst hstep hports hp hn h
  constructor
  · intro ha
    have hb : ∀ n, n + 1 < s.max → (∀ b, Entry s.body b → b.inputs = []) ∧
        ∀ x ∈ (s.after (n + 1)).stepIDs, x ∉ p.steps.map Step.id := by
      intro n hn
      obtain ⟨⟨r', id'⟩, h'⟩ := Option.isSome_iff_exists.mp (ha (n + 2) (by omega))
      obtain ⟨⟨r, id⟩, h, hne⟩ := Option.bind_eq_some_iff.mp h'
      exact ((hu n r id (by omega) h).step hr hfirst hn hports hp).1.mp
        ⟨r', id', hne⟩
    refine ⟨fun hm => (hb 0 (by omega)).1, fun n hpo hn => ?_⟩
    obtain ⟨m, rfl⟩ : ∃ m, n = m + 1 := ⟨n - 1, by omega⟩
    exact (hb m hn).2
  · rintro ⟨hi, hnw⟩ n hn
    induction n with
    | zero => rfl
    | succ n ih =>
      cases n with
      | zero => exact hun ▸ rfl
      | succ n =>
        obtain ⟨⟨r, id⟩, h⟩ := Option.isSome_iff_exists.mp (ih (by omega))
        obtain ⟨r', id', hne⟩ := ((hu n r id (by omega) h).step hr hfirst hn hports
          hp).1.mpr ⟨hi (by omega), hnw (n + 1) (by omega) (by omega)⟩
        refine Option.isSome_iff_exists.mpr ⟨(r', id'), ?_⟩
        exact Option.bind_eq_some_iff.mpr ⟨(r, id), h, hne⟩

/-! ### A body with an input and one without -/

def oneStep (inputs : List Port) : Pipeline where
  id := "body"
  steps := [{ id := "build", pluginRef := "oci://build", inputs, outputs := [blobPort "image"] }]

/-- A language in which one text stands for the body. -/
def oneText (body : Pipeline) : Language where
  compiles _ := true
  decode raw := if raw = "body" then some body else none
  encode _ := "body"
  decode_encode h := by
    split at h
    · simpa using h
    · cases h
  encode_written _ := by decide

def refine : Step where
  id := "refine"
  pluginRef := "builtin:loop"
  outputs := [blobPort "source"]
  config := ((∅ : Std.ExtTreeMap String String).insert "body" "body").insert "max_iterations" "2"
    |>.insert "exit_condition" "state.done"

def release : Pipeline where
  id := "release"
  steps := [refine]

theorem oneStep_built (ins : List Port) : ∃ g, build (some (oneStep ins)) = .ok g := ⟨_, rfl⟩

def refineSpec (inputs : List Port) : Spec where
  loop := "refine"
  iteration := 1
  max := 2
  exitCondition := "state.done"
  body := oneStep inputs
  bodyText := "body"
  effectClass := .unspecified
  built := oneStep_built inputs
  checked := rfl

theorem refine_parsed (ins : List Port) :
    parseSpec (oneText (oneStep ins)) refine = .ok (refineSpec ins) := by
  with_unfolding_all rfl

/-- A body that takes nothing unrolls. -/
theorem refine_unrolls : (unroll (oneText (oneStep [])) release "refine" 2).isSome := by
  refine (unroll_isSome_iff (oneText (oneStep [])) refine (refineSpec []) release _
    (refine_parsed []) rfl rfl rfl).mpr ⟨fun _ b hb => ?_, fun n hp hn => ?_⟩ 2 le_rfl
  · obtain rfl := mem_singleton.mp hb.1
    rfl
  · obtain rfl : n = 1 := by
      have : n < 2 := hn
      omega
    decide +kernel

/-- A body that takes what the loop step produces splices once: the next controller does not
produce it. -/
theorem refine_stops : parseSpec (oneText (oneStep [blobPort "source"])) refine =
        .ok (refineSpec [blobPort "source"]) ∧
      (∃ q, splice (some release) "refine" (refineSpec [blobPort "source"]).fragment = .ok q) ∧
      (refineSpec [blobPort "source"]).max = 2 ∧
      unroll (oneText (oneStep [blobPort "source"])) release "refine" 2 = none :=
  ⟨refine_parsed _, ⟨_, rfl⟩, rfl, by decide +kernel⟩

end Dhole.Loop
