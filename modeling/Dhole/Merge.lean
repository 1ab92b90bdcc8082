import Dhole.Undo

/-! Rebasing an edit onto a head that has moved. An operation claims keys, and so does the
difference of two definitions; an edit whose keys nobody else's change has is applied to the
head instead of its base. The difference is computed with a map from step ids to steps, so of
the steps a definition lists under one id it reads the last, where the operations read the
first or all of them. The change an edit makes is the same in both places exactly when that
does not matter. -/

namespace Dhole

open FirstMatch List

/-! ### Keys -/

def edgeKey (edge : Edge) : String :=
  edge.fromStep ++ "|" ++ edge.fromPort ++ "|" ++ edge.toStep ++ "|" ++ edge.toPort

def lifeKey (id : String) : String := "life:" ++ id

def stepKey (id : String) : String := "step:" ++ id

def touchedByEdge (edge : Option Edge) : List String :=
  let edge := edge.getD { fromStep := "", fromPort := "", toStep := "", toPort := "" }
  ["edge:" ++ edgeKey edge, lifeKey edge.fromStep, lifeKey edge.toStep]

/-- What one operation claims. A kind nobody has classified claims the whole pipeline. -/
def touchedBy : Option Operation → List String
  | some (.addStep step) =>
    let id := step.elim "" Step.id
    [lifeKey id, stepKey id]
  | some (.removeStep id) => [lifeKey id, stepKey id]
  | some (.rename id _) => [stepKey id]
  | some (.setProperty id _ _) => [stepKey id]
  | some (.setStepConfig id _ _ _) => [stepKey id]
  | some (.setStepSecret id _ _ _ _) => [stepKey id]
  | some (.setStepCapability id _ _ _) => [stepKey id]
  | some (.connect edge) => touchedByEdge edge
  | some (.removeEdge edge) => touchedByEdge edge
  | some (.setFile ..) | none => ["pipeline"]

def stepsById (steps : List Step) : AList fun _ : String => Step :=
  steps.foldl (fun m step => m.insert step.id step) ∅

def changedSteps (steps : AList fun _ : String => Step) : List Step → List String
  | [] => steps.keys.flatMap fun id => [lifeKey id, stepKey id]
  | step :: after =>
    (match steps.lookup step.id with
      | none => [lifeKey step.id, stepKey step.id]
      | some old => if old = step then [] else [stepKey step.id]) ++
    changedSteps (steps.erase step.id) after

def edgeKeys (edges : List Edge) : AList fun _ : String => Unit :=
  edges.foldl (fun m edge => m.insert (edgeKey edge) ()) ∅

def changedEdges (edges : AList fun _ : String => Unit) : List Edge → List String
  | [] => edges.keys.map fun key => "edge:" ++ key
  | edge :: after =>
    if edgeKey edge ∈ edges then changedEdges (edges.erase (edgeKey edge)) after
    else ("edge:" ++ edgeKey edge) :: changedEdges edges after

/-- What the edits between two definitions did, from the definitions alone. -/
def changedBetween (before after : Pipeline) : List String :=
  "pipeline" :: changedSteps (stepsById before.steps) after.steps ++
    changedEdges (edgeKeys before.edges) after.edges

/-! ### The change an edit makes -/

structure Delta where
  stepsGone : Multiset Step
  stepsNew : Multiset Step
  edgesGone : Multiset Edge
  edgesNew : Multiset Edge
  filesGone : Multiset File
  filesNew : Multiset File
deriving DecidableEq

/-- What is in one definition and not in the other. A modified step is gone with its old
content and new with its new one. -/
def delta (p next : Pipeline) : Delta where
  stepsGone := (p.steps : Multiset Step) - next.steps
  stepsNew := (next.steps : Multiset Step) - p.steps
  edgesGone := (p.edges.map Edge.stripUnknown : Multiset Edge) - next.edges.map Edge.stripUnknown
  edgesNew := (next.edges.map Edge.stripUnknown : Multiset Edge) - p.edges.map Edge.stripUnknown
  filesGone := (p.files : Multiset File) - next.files
  filesNew := (next.files : Multiset File) - p.files

def applyAll (p : Pipeline) : List Operation → Except Text Pipeline
  | [] => .ok p
  | op :: ops =>
    match apply (some p) (some op) with
    | .error text => .error text
    | .ok a => applyAll a.next ops

/-- The edit, written for a base, is merged into the head the base was edited to. -/
structure Merges (base : Pipeline) (ops : List Operation) (op : Operation) (head : Pipeline)
    (b h : Applied) : Prop where
  edited : applyAll base ops = .ok head
  onBase : apply (some base) (some op) = .ok b
  onHead : apply (some head) (some op) = .ok h
  apart : ∀ key ∈ touchedBy (some op), key ∉ changedBetween base head

/-- The merged edit makes to the head the change its author made to the base. -/
def MergeSound (base : Pipeline) (ops : List Operation) (op : Operation) : Prop :=
  ∀ head b h, Merges base ops op head b h → delta head h.next = delta base b.next

/-! ### What untouched keys say -/

theorem lookup_stepsById (steps : List Step) (id : String) :
    (stepsById steps).lookup id = steps.reverse.find? fun s => s.id = id := by
  induction steps using reverseRecOn with
  | nil => rfl
  | append_singleton steps s ih =>
    have hf : stepsById (steps ++ [s]) = (stepsById steps).insert s.id s := by
      simp [stepsById]
    rw [hf, reverse_append, reverse_singleton, singleton_append]
    by_cases hs : s.id = id
    · subst hs
      simp
    · rw [AList.lookup_insert_ne (Ne.symm hs), ih]
      simp [hs]

theorem mem_edgeKeys (edges : List Edge) (key : String) :
    key ∈ edgeKeys edges ↔ ∃ e ∈ edges, edgeKey e = key := by
  induction edges using reverseRecOn with
  | nil => simp [edgeKeys]
  | append_singleton edges e ih =>
    have hf : edgeKeys (edges ++ [e]) = (edgeKeys edges).insert (edgeKey e) () := by
      simp [edgeKeys]
    rw [hf, AList.mem_insert, ih]
    simp only [mem_append, mem_singleton, or_and_right, exists_or, exists_eq_left]
    rw [or_comm, @eq_comm _ key]

/-- A step nobody is seen to have changed is listed as the map has it: once, or not at all. -/
theorem filter_of_stepKey_notMem {id : String} (steps : AList fun _ : String => Step)
    (after : List Step) (h : stepKey id ∉ changedSteps steps after) :
    after.filter (fun s => s.id = id) = (steps.lookup id).toList := by
  induction after generalizing steps with
  | nil =>
    have hg : steps.lookup id = none := by
      rw [AList.lookup_eq_none]
      intro hm
      exact h (mem_flatMap.mpr ⟨id, AList.mem_keys.mp hm, by simp⟩)
    simp [hg]
  | cons s after ih =>
    simp only [changedSteps, mem_append, not_or] at h
    have hr := ih _ h.2
    by_cases hs : s.id = id
    · subst hs
      cases hold : steps.lookup s.id with
      | none => simp [hold] at h
      | some old =>
        have heq : old = s := by
          by_contra hne
          simp [hold, hne] at h
        simp [hr, heq]
    · rw [AList.lookup_erase_ne (Ne.symm hs)] at hr
      simpa [hs] using hr

/-- An edge key nobody is seen to have changed names as many edges as the map has of it. -/
theorem countP_of_edgeKey_notMem {key : String} (edges : AList fun _ : String => Unit)
    (after : List Edge) (h : "edge:" ++ key ∉ changedEdges edges after) :
    after.countP (fun e => edgeKey e = key) = if key ∈ edges then 1 else 0 := by
  induction after generalizing edges with
  | nil =>
    have hg : key ∉ edges := fun hm => h (mem_map.mpr ⟨key, AList.mem_keys.mp hm, rfl⟩)
    simp [hg]
  | cons e after ih =>
    unfold changedEdges at h
    by_cases hk : edgeKey e = key
    · subst hk
      split_ifs at h with hm
      · have hr := ih _ h
        simp [hr, hm]
      · exact absurd (mem_cons_self ..) h
    · have hc : (e :: after).countP (fun e => edgeKey e = key) =
          after.countP fun e => edgeKey e = key := by simp [hk]
      rw [hc]
      split_ifs at h with hm
      · rw [ih _ h]
        simp [Ne.symm hk]
      · exact ih _ fun hin => h (mem_cons_of_mem _ hin)

/-! ### Edits of one step -/

def editedStep : Operation → Option String
  | .setProperty id _ _ | .setStepConfig id _ _ _ | .setStepSecret id _ _ _ _
  | .setStepCapability id _ _ _ | .rename id _ => some id
  | _ => none

def madeOf (op : Operation) (s : Step) : Step :=
  match apply (some { steps := [s] }) (some op) with
  | .ok a => a.next.steps.headD s
  | .error _ => s

theorem apply_edit_congr {op : Operation} {id : String} {p q : Pipeline} {s : Step} {a : Applied}
    (hop : editedStep op = some id) (hp : findStep p id = some s) (hq : findStep q id = some s)
    (h : apply (some p) (some op) = .ok a) :
    ∃ g, a.next = updateStep p id g ∧
      apply (some q) (some op) = .ok { a with next := updateStep q id g } := by
  cases op with
  | setProperty | setStepConfig | setStepSecret | setStepCapability | rename =>
    cases hop
    simp only [apply, applySetProperty, applySetStepConfig, applySetStepSecret,
      applySetStepCapability, applyRename, hp] at h ⊢
    repeat' split at h
    all_goals cases h
    all_goals exact ⟨_, rfl, by simp only [*, ↓reduceIte, Bool.false_eq_true]⟩
  | _ => cases hop

theorem updateFirst_const {α : Type*} {pick : α → Bool} {g : α → α} {l : List α} {a : α}
    (h : l.find? pick = some a) : updateFirst pick g l = updateFirst pick (fun _ => g a) l := by
  induction l with
  | nil => rfl
  | cons b l ih =>
    by_cases hb : pick b
    · obtain rfl : b = a := by simpa [hb] using h
      simp [updateFirst, hb]
    · have hr : l.find? pick = some a := by simpa [hb] using h
      simp [updateFirst, hb, ih hr]

theorem next_of_edit {op : Operation} {id : String} {p : Pipeline} {s : Step} {a : Applied}
    (hop : editedStep op = some id) (hs : findStep p id = some s)
    (h : apply (some p) (some op) = .ok a) : a.next = updateStep p id fun _ => madeOf op s := by
  have hid : s.id = id := findStep_id hs
  have hsi : findStep { steps := [s] } id = some s := by simp [findStep, hid]
  obtain ⟨g, hn, hm⟩ := apply_edit_congr hop hs hsi h
  have hg : madeOf op s = g s := by
    simp [madeOf, hm, updateStep, updateFirst, hid]
  rw [hn, hg]
  unfold updateStep
  rw [updateFirst_const hs]

theorem findStep_of_edit {op : Operation} {id : String} {p : Pipeline} {a : Applied}
    (hop : editedStep op = some id) (h : apply (some p) (some op) = .ok a) :
    ∃ s, findStep p id = some s := by
  by_contra hn
  have hn : findStep p id = none := by simpa [Option.eq_none_iff_forall_ne_some] using hn
  cases op <;> cases hop <;>
    simp [apply, applySetProperty, applySetStepConfig, applySetStepSecret,
      applySetStepCapability, applyRename, hn] at h

theorem next_id {p : Pipeline} {op : Option Operation} {a : Applied}
    (h : apply (some p) op = .ok a) : a.next.id = p.id := by
  obtain _ | op := op
  · cases h
  cases hop : editedStep op with
  | some id =>
    obtain ⟨s, hs⟩ := findStep_of_edit hop h
    rw [next_of_edit hop hs h]
    rfl
  | none =>
    cases op with
    | addStep step =>
      simp only [apply, applyAddStep] at h
      repeat' split at h
      all_goals cases h
      rfl
    | removeStep id =>
      simp only [apply, applyRemoveStep] at h
      repeat' split at h
      all_goals cases h
      rfl
    | connect edge =>
      simp only [apply, applyConnect] at h
      repeat' split at h
      all_goals cases h
      rfl
    | removeEdge edge =>
      simp only [apply, applyRemoveEdge] at h
      repeat' split at h
      all_goals cases h
      rfl
    | setFile path file =>
      simp only [apply, applySetFile] at h
      repeat' split at h
      all_goals cases h
      all_goals rfl
    | _ => cases hop

/-! ### Differences -/

theorem coe_updateFirst {α : Type*} {pick : α → Bool} {l : List α} {a b : α}
    (h : l.find? pick = some a) :
    (updateFirst pick (fun _ => b) l : Multiset α) + {a} = (l : Multiset α) + {b} := by
  induction l with
  | nil => simp at h
  | cons c l ih =>
    by_cases hc : pick c
    · obtain rfl : c = a := by simpa [hc] using h
      simp only [updateFirst, hc, if_true, ← Multiset.cons_coe, ← Multiset.singleton_add]
      abel
    · have hr : l.find? pick = some a := by simpa [hc] using h
      simp only [updateFirst, hc, ← Multiset.cons_coe, Multiset.cons_add, ih hr,
        Bool.false_eq_true, if_false]

section Differences

variable {α : Type*} [DecidableEq α] {m n : Multiset α} {a b x y : α}

theorem sub_of_replaced (h : n + {a} = m + {b}) : m - n = {a} - {b} ∧ n - m = {b} - {a} := by
  have hc : ∀ c, n.count c + ({a} : Multiset α).count c = m.count c + ({b} : Multiset α).count c :=
    fun c => by simpa using congrArg (Multiset.count c) h
  constructor
  all_goals
    ext c
    have := hc c
    simp only [Multiset.count_sub]
    omega

theorem singleton_sub_singleton (a b : α) :
    ({a} : Multiset α) - {b} = if a = b then 0 else {a} := by
  rw [Multiset.sub_singleton]
  split_ifs with hab
  · rw [hab, Multiset.erase_singleton]
  · exact Multiset.erase_of_notMem (by simpa using Ne.symm hab)

theorem replaced_eq_iff {f : α → α} :
    (({x} : Multiset α) - {f x} = {y} - {f y} ∧ ({f x} : Multiset α) - {x} = {f y} - {y}) ↔
      x = y ∨ f x = x ∧ f y = y := by
  constructor
  · rintro ⟨hg, -⟩
    rw [singleton_sub_singleton, singleton_sub_singleton] at hg
    by_cases hx : x = f x <;> by_cases hy : y = f y
    · exact .inr ⟨hx.symm, hy.symm⟩
    · simp [← hx, hy] at hg
    · simp [hx, ← hy] at hg
    · exact .inl (by simpa [hx, hy] using hg)
  · rintro (rfl | ⟨hx, hy⟩)
    · exact ⟨rfl, rfl⟩
    · simp [hx, hy]

theorem coe_sub_filter_not {pick : α → Bool} (l : List α) :
    (l : Multiset α) - (l.filter fun a => !pick a : List α) = (l.filter pick : List α) := by
  have hp : (l.filter pick ++ l.filter fun a => !pick a).Perm l := filter_append_perm pick l
  have hs : (l : Multiset α) = (l.filter pick : List α) + (l.filter fun a => !pick a : List α) := by
    exact (Multiset.coe_eq_coe.mpr hp).symm
  rw [hs, add_tsub_cancel_right]

theorem coe_filter_sub {pick : α → Bool} (l : List α) :
    (l.filter pick : Multiset α) - (l : Multiset α) = 0 :=
  tsub_eq_zero_of_le (Multiset.coe_le.mpr (filter_sublist.subperm))

end Differences

/-! ### Merging -/

def lastStep (p : Pipeline) (id : String) : Option Step := p.steps.reverse.find? fun s => s.id = id

/-- The base does not list what the operation names in ways that it would be read apart:
what is removed is listed once, and a step that is rewritten is the same first and last, or
is left as it is in both places. -/
def NamesOne (base : Pipeline) : Operation → Prop
  | .removeStep id => base.steps.countP (fun s => s.id = id) ≤ 1
  | .removeEdge edge => ∀ e ∈ edge, base.edges.countP (fun x => sameEdge x e) ≤ 1
  | op => ∀ id ∈ editedStep op, ∀ first ∈ findStep base id, ∀ last ∈ lastStep base id,
      first = last ∨ madeOf op first = first ∧ madeOf op last = last

theorem delta_steps (p : Pipeline) (steps : List Step) :
    delta p { p with steps } =
      { stepsGone := (p.steps : Multiset Step) - steps
        stepsNew := (steps : Multiset Step) - p.steps
        edgesGone := 0, edgesNew := 0, filesGone := 0, filesNew := 0 } := by
  simp [delta]

theorem delta_edges (p : Pipeline) (edges : List Edge) :
    delta p { p with edges } =
      { stepsGone := 0, stepsNew := 0, filesGone := 0, filesNew := 0
        edgesGone := (p.edges.map Edge.stripUnknown : Multiset Edge) - edges.map Edge.stripUnknown
        edgesNew := (edges.map Edge.stripUnknown : Multiset Edge) -
          p.edges.map Edge.stripUnknown } := by
  simp [delta]

variable {base head p : Pipeline} {ops : List Operation} {op : Operation} {a b h : Applied}
  {id : String}

theorem filter_head (hk : stepKey id ∉ changedBetween base head) :
    head.steps.filter (fun s => s.id = id) = (lastStep base id).toList := by
  have hs : stepKey id ∉ changedSteps (stepsById base.steps) head.steps := by
    intro hm
    exact hk (by simp [changedBetween, hm])
  rw [filter_of_stepKey_notMem _ _ hs, lookup_stepsById, lastStep]

theorem findStep_head (hk : stepKey id ∉ changedBetween base head) :
    findStep head id = lastStep base id := by
  rw [findStep, ← head?_filter, filter_head hk, Option.head?_toList]

theorem countP_head {e : Edge} (hk : "edge:" ++ edgeKey e ∉ changedBetween base head)
    (hb : 0 < base.edges.countP fun x => sameEdge x e) :
    head.edges.countP (fun x => edgeKey x = edgeKey e) = 1 := by
  have he : "edge:" ++ edgeKey e ∉ changedEdges (edgeKeys base.edges) head.edges := by
    intro hm
    exact hk (by simp [changedBetween, hm])
  obtain ⟨x, hx, hs⟩ := countP_pos_iff.mp hb
  have hxk : edgeKey x = edgeKey e := by
    simp only [sameEdge, Bool.and_eq_true, decide_eq_true_eq] at hs
    simp [edgeKey, hs]
  rw [countP_of_edgeKey_notMem _ _ he, if_pos ((mem_edgeKeys _ _).mpr ⟨x, hx, hxk⟩)]

theorem delta_edit {s : Step} (hop : editedStep op = some id) (hs : findStep p id = some s)
    (ha : apply (some p) (some op) = .ok a) :
    delta p a.next =
      { stepsGone := {s} - {madeOf op s}, stepsNew := {madeOf op s} - {s}
        edgesGone := 0, edgesNew := 0, filesGone := 0, filesNew := 0 } := by
  obtain ⟨hg, hn⟩ := sub_of_replaced (coe_updateFirst hs)
  rw [next_of_edit hop hs ha, updateStep, delta_steps, hg, hn]

theorem edit_sound_iff (hop : editedStep op = some id)
    (hk : stepKey id ∉ changedBetween base head) (hb : apply (some base) (some op) = .ok b)
    (hh : apply (some head) (some op) = .ok h) : delta head h.next = delta base b.next ↔
      ∀ first ∈ findStep base id, ∀ last ∈ lastStep base id,
        first = last ∨ madeOf op first = first ∧ madeOf op last = last := by
  obtain ⟨x, hx⟩ := findStep_of_edit hop hb
  obtain ⟨y, hy⟩ := findStep_of_edit hop hh
  have hl : lastStep base id = some y := by rw [← findStep_head hk, hy]
  rw [delta_edit hop hx hb, delta_edit hop hy hh, hx, hl]
  simp only [Delta.mk.injEq, and_true, Option.mem_some_iff, forall_eq']
  rw [replaced_eq_iff, eq_comm, and_comm]

theorem delta_removeStep (ha : applyRemoveStep p id = .ok a) :
    delta p a.next =
      { stepsGone := (p.steps.filter fun s => s.id = id : List Step), stepsNew := 0
        edgesGone := 0, edgesNew := 0, filesGone := 0, filesNew := 0 } := by
  unfold applyRemoveStep at ha
  split at ha
  · cases ha
  split at ha
  · cases ha
  cases ha
  rw [delta_steps, coe_sub_filter_not, coe_filter_sub]

theorem removeStep_sound_iff (hk : stepKey id ∉ changedBetween base head)
    (hb : applyRemoveStep base id = .ok b) (hh : applyRemoveStep head id = .ok h) :
    delta head h.next = delta base b.next ↔ base.steps.countP (fun s => s.id = id) ≤ 1 := by
  obtain ⟨y, hy⟩ : ∃ y, findStep head id = some y := by
    unfold applyRemoveStep at hh
    split at hh
    · cases hh
    · exact ⟨_, ‹_›⟩
  have hl : lastStep base id = some y := by rw [← findStep_head hk, hy]
  have hm : y ∈ base.steps.filter fun s => s.id = id := by
    have hin := mem_of_find?_eq_some hl
    have hid := find?_some hl
    exact mem_filter.mpr ⟨mem_reverse.mp hin, hid⟩
  rw [delta_removeStep hb, delta_removeStep hh, filter_head hk, hl, countP_eq_length_filter]
  simp only [Delta.mk.injEq, and_true, Option.toList_some]
  constructor
  · intro heq
    have hc := congrArg Multiset.card heq
    simp only [Multiset.coe_card, length_singleton] at hc
    omega
  · intro hle
    obtain ⟨z, hz⟩ : ∃ z, base.steps.filter (fun s => s.id = id) = [z] := by
      refine length_eq_one_iff.mp ?_
      have := length_pos_of_mem hm
      omega
    rw [hz] at hm ⊢
    rw [mem_singleton.mp hm]

theorem delta_removeEdge {e : Edge} (ha : applyRemoveEdge p (some e) = .ok a) :
    delta p a.next =
      { stepsGone := 0, stepsNew := 0
        edgesGone := Multiset.replicate (p.edges.countP fun x => sameEdge x e) e.stripUnknown
        edgesNew := 0, filesGone := 0, filesNew := 0 } := by
  simp only [applyRemoveEdge] at ha
  split at ha
  · cases ha
  cases ha
  have hg : ((p.edges.filter fun x => sameEdge x e).map Edge.stripUnknown) =
      List.replicate (p.edges.countP fun x => sameEdge x e) e.stripUnknown := by
    rw [countP_eq_length_filter]
    refine eq_replicate_iff.mpr ⟨by simp, fun y hy => ?_⟩
    obtain ⟨x, hx, rfl⟩ := mem_map.mp hy
    have hs := (mem_filter.mp hx).2
    simp only [sameEdge, Bool.and_eq_true, decide_eq_true_eq] at hs
    simp [Edge.stripUnknown, hs]
  have hk : (p.edges.filter fun x => !sameEdge x e).map Edge.stripUnknown =
      (p.edges.map Edge.stripUnknown).filter fun x => !sameEdge x e := by
    rw [filter_map]
    rfl
  rw [delta_edges, hk, coe_sub_filter_not, coe_filter_sub, filter_map]
  exact congrArg (fun l : List Edge => Delta.mk 0 0 (l : Multiset Edge) 0 0 0) hg

theorem removeEdge_sound_iff {e : Edge} (hke : "edge:" ++ edgeKey e ∉ changedBetween base head)
    (hb : applyRemoveEdge base (some e) = .ok b) (hh : applyRemoveEdge head (some e) = .ok h) :
    delta head h.next = delta base b.next ↔ base.edges.countP (fun x => sameEdge x e) ≤ 1 := by
  have hp {q : Pipeline} {a : Applied} (ha : applyRemoveEdge q (some e) = .ok a) :
      0 < q.edges.countP fun x => sameEdge x e := by
    simp only [applyRemoveEdge] at ha
    split at ha
    · cases ha
    · rename_i x hx
      have hs : sameEdge x e = true := by simpa using find?_some hx
      exact countP_pos_iff.mpr ⟨x, mem_of_find?_eq_some hx, hs⟩
  have hba := hp hb
  have ho : head.edges.countP (fun x => sameEdge x e) = 1 := by
    have hk := countP_head hke hba
    have hle := head.edges.countP_mono_left (p := fun x => sameEdge x e)
      (q := fun x => edgeKey x = edgeKey e) fun x _ hx => by
        simp only [sameEdge, Bool.and_eq_true, decide_eq_true_eq] at hx
        simp [edgeKey, hx]
    have := hp hh
    omega
  rw [delta_removeEdge hb, delta_removeEdge hh]
  simp only [Delta.mk.injEq, true_and, and_true]
  rw [(Multiset.replicate_left_injective _).eq_iff]
  omega

theorem delta_addStep {step : Option Step} (ha : applyAddStep p step = .ok a) :
    ∃ s ∈ step, delta p a.next =
      { stepsGone := 0, stepsNew := {s}, edgesGone := 0, edgesNew := 0
        filesGone := 0, filesNew := 0 } := by
  unfold applyAddStep at ha
  split at ha
  · cases ha
  rename_i s
  split_ifs at ha
  split at ha
  · cases ha
  cases ha
  refine ⟨s, rfl, ?_⟩
  rw [delta_steps, ← Multiset.coe_add, tsub_eq_zero_of_le (by simp), add_tsub_cancel_left]
  rfl

theorem delta_connect {edge : Option Edge} (ha : applyConnect p edge = .ok a) :
    ∃ e ∈ edge, delta p a.next =
      { stepsGone := 0, stepsNew := 0, edgesGone := 0, edgesNew := {e.stripUnknown}
        filesGone := 0, filesNew := 0 } := by
  unfold applyConnect at ha
  split at ha
  · cases ha
  rename_i e he
  split at ha
  · cases ha
  cases ha
  refine ⟨e, by rw [checkEdgeEndpoints_ok he]; rfl, ?_⟩
  rw [delta_edges, map_append, ← Multiset.coe_add, tsub_eq_zero_of_le (by simp),
    add_tsub_cancel_left]
  rfl

theorem merge_sound_iff (hm : Merges base ops op head b h) :
    delta head h.next = delta base b.next ↔ NamesOne base op := by
  obtain ⟨-, hb, hh, ha⟩ := hm
  cases op with
  | addStep step =>
    obtain ⟨s, hs, hba⟩ := delta_addStep hb
    obtain ⟨t, ht, hhe⟩ := delta_addStep hh
    obtain rfl : s = t := by simpa using hs.symm.trans ht
    simp [hba, hhe, NamesOne, editedStep]
  | removeStep id => exact removeStep_sound_iff (ha _ (by simp [touchedBy])) hb hh
  | connect edge =>
    obtain ⟨e, he, hba⟩ := delta_connect hb
    obtain ⟨e', he', hhe⟩ := delta_connect hh
    obtain rfl : e = e' := by simpa using he.symm.trans he'
    simp [hba, hhe, NamesOne, editedStep]
  | removeEdge edge =>
    cases edge with
    | none => cases hb
    | some e =>
      have hi := removeEdge_sound_iff (ha _ (by simp [touchedBy, touchedByEdge])) hb hh
      simpa [NamesOne] using hi
  | setFile path file =>
    exact absurd (by simp [changedBetween]) (ha "pipeline" (by simp [touchedBy]))
  | setProperty id property value | setStepConfig id key value remove
  | setStepSecret id env name remove index | setStepCapability id capability remove index
  | rename id name =>
    simpa [NamesOne, editedStep] using edit_sound_iff rfl (ha _ (by simp [touchedBy])) hb hh

/-- An edit that is merged makes the change its author made exactly when the base does not
list what it names more than once, so that it could be read apart. -/
theorem mergeSound_iff (base : Pipeline) (ops : List Operation) (op : Operation) :
    MergeSound base ops op ↔ ((∃ head b h, Merges base ops op head b h) → NamesOne base op) := by
  constructor
  · rintro hs ⟨head, b, h, hm⟩
    exact (merge_sound_iff hm).mp (hs head b h hm)
  · intro ho head b h hm
    exact (merge_sound_iff hm).mpr (ho ⟨head, b, h, hm⟩)

/-- Two steps under one id, of which the difference of two definitions reads the second. -/
def twoBuilds : Pipeline :=
  { id := "ci", steps := [{ id := "build", image := "golang" }, { id := "build", image := "node" }] }

def addedAgain : List Operation :=
  [.removeStep "build", .addStep (some { id := "build", image := "node" })]

theorem twoBuilds_rename_not_sound :
    ¬ MergeSound twoBuilds addedAgain (.rename "build" "Build") := by
  intro hs
  have hm : Merges twoBuilds addedAgain (.rename "build" "Build")
      { id := "ci", steps := [{ id := "build", image := "node" }] } _ _ :=
    { edited := rfl, onBase := rfl, onHead := rfl, apart := by decide }
  exact absurd (hs _ _ _ hm) (by decide)

end Dhole
