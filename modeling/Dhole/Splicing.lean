import Dhole.Acyclic
import Dhole.Dynamic

/-! What an accepted splice is. The checks of a graph and of its ports are stated without the
loops that make them, and so is the splice: the fragment's steps are new, every entry of the
fragment finds its ports at the generator, and the whole is acyclic and fits. Nothing is asked
of where the fragment's edges end, and the edges into an authored step are those it had exactly
if none of them ends there. -/

namespace Dhole.Dag

open List

/-! ### The port check -/

def Fits (p : Pipeline) (e : Edge) : Prop :=
  ∃ source ∈ p.steps, ∃ target ∈ p.steps, source.id = e.fromStep ∧ target.id = e.toStep ∧
    ∃ output input, findPort source.outputs e.fromPort = some output ∧
      findPort target.inputs e.toPort = some input ∧ incompatible output.type input.type = []

/-- Every file the step reads is carried by the pipeline and bound to a port it declares. -/
def BindsFiles (p : Pipeline) (s : Step) : Prop :=
  ∀ input ∈ s.fileInputs, input.path ∈ p.files.map File.path ∧
    (findPort s.inputs input.port).isSome

def WellTyped (p : Pipeline) : Prop :=
  (∀ e ∈ p.edges, Fits p e) ∧ ∀ s ∈ p.steps, BindsFiles p s

variable {p : Pipeline}

theorem stepNamed_eq_some_iff (hn : (p.steps.map Step.id).Nodup) {id : String} {s : Step} :
    stepNamed p id = some s ↔ s ∈ p.steps ∧ s.id = id := by
  constructor
  · intro h
    exact ⟨mem_reverse.mp (mem_of_find?_eq_some h), by simpa using find?_some h⟩
  · rintro ⟨hs, rfl⟩
    cases hf : stepNamed p s.id with
    | none => exact absurd (find?_eq_none.mp hf s (mem_reverse.mpr hs)) (by simp)
    | some t =>
      have ht : t ∈ p.steps := mem_reverse.mp (mem_of_find?_eq_some hf)
      have hid : t.id = s.id := by simpa using find?_some hf
      rw [inj_on_of_nodup_map hn ht hs hid]

theorem checkEdge_eq_nil_iff (hn : (p.steps.map Step.id).Nodup) (e : Edge) :
    checkEdge p e = [] ↔ Fits p e := by
  constructor
  · intro h
    unfold checkEdge at h
    split at h
    · cases h
    rename_i source hso
    split at h
    · cases h
    rename_i t hta
    split at h
    · cases h
    rename_i o ho
    split at h
    · cases h
    rename_i input hi
    have hw : incompatible o.type input.type = [] := by
      by_contra hne
      simp [hne] at h
    obtain ⟨hs, hsi⟩ := (stepNamed_eq_some_iff hn).mp hso
    obtain ⟨ht, hti⟩ := (stepNamed_eq_some_iff hn).mp hta
    exact ⟨source, hs, t, ht, hsi, hti, o, input, ho, hi, hw⟩
  · rintro ⟨source, hs, t, ht, hsi, hti, o, input, ho, hi, hw⟩
    have hso := (stepNamed_eq_some_iff hn).mpr ⟨hs, hsi⟩
    have hta := (stepNamed_eq_some_iff hn).mpr ⟨ht, hti⟩
    simp [checkEdge, hso, hta, ho, hi, hw]

theorem checkFileBinding_eq_nil_iff (s : Step) (input : FileInput) :
    checkFileBinding p s input = [] ↔
      input.path ∈ p.files.map File.path ∧ (findPort s.inputs input.port).isSome := by
  unfold checkFileBinding
  by_cases hp : input.path ∈ p.files.map File.path
  · cases hpo : findPort s.inputs input.port <;> simp [hp]
  · simp only [hp, false_and, iff_false]
    exact cons_ne_nil _ _

theorem typeCheck_eq_nil_iff (hn : (p.steps.map Step.id).Nodup) :
    typeCheck p = [] ↔ WellTyped p := by
  simp only [typeCheck, append_eq_nil_iff, flatMap_eq_nil_iff, WellTyped, BindsFiles,
    checkEdge_eq_nil_iff hn, checkFileBinding_eq_nil_iff]

end Dhole.Dag

namespace Dhole.Dynamic

open Dag List

/-! ### An accepted splice -/

/-- The step's ids are in the fragment and no edge of the fragment leads to it. -/
def Entry (fragment : Pipeline) (s : Step) : Prop :=
  s ∈ fragment.steps ∧ ∀ e ∈ fragment.edges, e.toStep ≠ s.id

variable {parent fragment fr result : Pipeline} {at_ : String}

theorem graft_diagnostics_eq_nil_iff {anchor : Step} :
    (graft anchor at_ fr).filterMap Sum.getRight? = [] ↔
      ∀ s, Entry fr s → ∀ input ∈ s.inputs, (findPort anchor.outputs input.name).isSome := by
  have he (s : Step) :
      s ∈ fr.steps.filter (fun s => !hasIncoming fr s.id) ↔ Entry fr s := by
    simp [Entry, hasIncoming]
  simp only [graft, filterMap_eq_nil_iff, mem_flatMap, mem_map, he]
  constructor
  · intro h s hs input hi
    have := h _ ⟨s, hs, input, hi, rfl⟩
    by_contra hn
    simp [graftPort, Option.not_isSome_iff_eq_none.mp hn] at this
  · rintro h _ ⟨s, hs, input, hi, rfl⟩
    obtain ⟨port, hp⟩ := Option.isSome_iff_exists.mp (h s hs input hi)
    simp [graftPort, hp]

/-- A splice is accepted exactly if the generator is a step of the pipeline, the fragment has
steps, the ids together are distinct and not empty, every edge has its ends among the steps,
every entry finds its ports at the generator, and the whole is acyclic and fits. -/
theorem splice_ok_iff : splice (some parent) at_ (some fr) = .ok result ↔
    ∃ anchor, findAnchor parent at_ = some anchor ∧ fr.steps ≠ [] ∧
      result = spliced parent anchor at_ fr ∧
      ((result.steps.map Step.id).Nodup ∧ ∀ s ∈ result.steps, s.id ≠ "") ∧
      (∀ e ∈ result.edges, e.fromStep ∈ result.steps.map Step.id ∧
        e.toStep ∈ result.steps.map Step.id) ∧ (∀ s, Entry fr s → ∀ input ∈ s.inputs,
        (findPort anchor.outputs input.name).isSome) ∧ Acyclic result ∧ WellTyped result := by
  constructor
  · intro h
    simp only [splice] at h
    split at h
    · cases h
    rename_i anchor han
    split at h
    · cases h
    rename_i hst
    split at h
    · cases h
    split at h
    · cases h
    rename_i g hg
    split at h
    · cases h
    rename_i hd
    cases h
    obtain ⟨hgr, ht⟩ := append_eq_nil_iff.mp (not_not.mp hd)
    obtain ⟨hi, he, ha⟩ := build_isOk_iff.mp ⟨g, hg⟩
    exact ⟨anchor, han, hst, rfl, hi, he, graft_diagnostics_eq_nil_iff.mp hgr,
      ha, (typeCheck_eq_nil_iff hi.1).mp ht⟩
  · rintro ⟨anchor, han, hst, rfl, hi, he, hgr, ha, ht⟩
    obtain ⟨g, hg⟩ := build_isOk_iff.mpr ⟨hi, he, ha⟩
    have hn : (parent.steps.map Step.id ++ fr.steps.map Step.id).Nodup := by
      simpa [spliced] using hi.1
    have hc : checkIDs at_ parent.id fr.steps (parent.steps.map Step.id) = .ok _ :=
      collectIDs_isOk hn fun s hs => hi.2 s (mem_append_right _ hs)
    simp only [splice, han, hst, if_false, hc, hg,
      graft_diagnostics_eq_nil_iff.mpr hgr, (typeCheck_eq_nil_iff hi.1).mpr ht,
      append_nil, ne_eq, not_true_eq_false]

/-! ### Two graphs side by side -/

/-- The step ids are distinct and not empty, the edges connect steps, nothing goes round, and
the ports fit. -/
structure Sound (p : Pipeline) : Prop where
  nodup : (p.steps.map Step.id).Nodup
  named : ∀ s ∈ p.steps, s.id ≠ ""
  ends : ∀ e ∈ p.edges, e.fromStep ∈ p.steps.map Step.id ∧ e.toStep ∈ p.steps.map Step.id
  acyclic : Acyclic p
  typed : WellTyped p

theorem splice_sound (h : splice (some parent) at_ (some fr) = .ok result) : Sound result := by
  obtain ⟨-, -, -, -, ⟨hn, hna⟩, he, -, ha, ht⟩ := splice_ok_iff.mp h
  exact ⟨hn, hna, he, ha, ht⟩

theorem fits_mono {e : Edge} (hs : parent.steps ⊆ result.steps) (h : Fits parent e) :
    Fits result e := by
  obtain ⟨source, hso, t, ht, hr⟩ := h
  exact ⟨source, hs hso, t, hs ht, hr⟩

theorem transGen_feeds_append {A : List String} {x y : String} {p f r : Pipeline}
    (hr : r.edges = p.edges ++ f.edges) (hp : ∀ e ∈ p.edges, e.toStep ∈ A)
    (hf : ∀ e ∈ f.edges, e.fromStep ∉ A) (hx : x ∈ A) (h : Relation.TransGen (Feeds r) x y) :
    y ∈ A ∧ Relation.TransGen (Feeds p) x y := by
  have hs : ∀ a b, a ∈ A → Feeds r a b → b ∈ A ∧ Feeds p a b := by
    rintro _ _ ha ⟨e, he, rfl, rfl⟩
    rcases mem_append.mp (hr ▸ he) with he | he
    · exact ⟨hp e he, e, he, rfl, rfl⟩
    · exact absurd ha (hf e he)
  induction h with
  | single hab =>
    obtain ⟨hb, hab⟩ := hs _ _ hx hab
    exact ⟨hb, .single hab⟩
  | tail _ hbc ih =>
    obtain ⟨hc, hbc⟩ := hs _ _ ih.1 hbc
    exact ⟨hc, ih.2.tail hbc⟩

theorem acyclic_append {p f r : Pipeline} (hr : r.edges = p.edges ++ f.edges)
    (hpe : ∀ e ∈ p.edges, e.fromStep ∈ p.steps.map Step.id ∧ e.toStep ∈ p.steps.map Step.id)
    (hfe : ∀ e ∈ f.edges, e.fromStep ∈ f.steps.map Step.id ∧ e.toStep ∈ f.steps.map Step.id)
    (hd : ∀ id ∈ f.steps.map Step.id, id ∉ p.steps.map Step.id) (hp : Acyclic p)
    (hf : Acyclic f) : Acyclic r := by
  intro id hc
  obtain ⟨_, ⟨e, he, hfr, -⟩, -⟩ := Relation.TransGen.head'_iff.mp hc
  rcases mem_append.mp (hr ▸ he) with he | he
  · refine hp id (transGen_feeds_append hr (fun e he => (hpe e he).2)
      (fun e he => hd _ (hfe e he).1) (hfr ▸ (hpe e he).1) hc).2
  · have hs : ({ r with edges := f.edges ++ p.edges } : Pipeline).edges =
        f.edges ++ p.edges := rfl
    have hc' : Relation.TransGen (Feeds { r with edges := f.edges ++ p.edges }) id id := by
      refine Relation.TransGen.mono (fun a b hab => ?_) _ _ hc
      obtain ⟨e, he, hen⟩ := hab
      exact ⟨e, mem_append.mpr (mem_append.mp (hr ▸ he)).symm, hen⟩
    exact hf id (transGen_feeds_append hs (fun e he => (hfe e he).2)
      (fun e he hm => hd _ hm (hpe e he).1) (hfr ▸ (hfe e he).1) hc').2

/-! ### The authored part -/

def into (p : Pipeline) (id : String) : List Edge := p.edges.filter fun e => e.toStep = id

theorem into_spliced {anchor : Step} {id : String} (hid : id ∉ fr.steps.map Step.id) :
    into (spliced parent anchor at_ fr) id = into parent id ++ into fr id := by
  have hg : (graftEdges anchor at_ fr).filter (fun e => e.toStep = id) = [] := by
    refine filter_eq_nil_iff.mpr fun e he => ?_
    simp only [decide_eq_true_eq]
    rintro rfl
    exact hid (mem_graftEdges he).2
  simp only [into, spliced, filter_append, hg, append_nil]

/-- An accepted splice keeps every step of the pipeline, has distinct step ids, and is acyclic
and well typed; and the steps of the pipeline have the incoming edges they had exactly if no edge
of the fragment ends at one of them. -/
theorem splice_additive_iff (h : splice (some parent) at_ (some fragment) = .ok result) :
    parent.steps <+: result.steps ∧ (result.steps.map Step.id).Nodup ∧ Acyclic result ∧
    WellTyped result ∧ ((∀ s ∈ parent.steps, into result s.id = into parent s.id) ↔
      ∀ e ∈ fragment.edges, e.toStep ∉ parent.steps.map Step.id) := by
  obtain ⟨an, -, -, rfl, ⟨hn, -⟩, -, -, ha, ht⟩ := splice_ok_iff.mp h
  refine ⟨prefix_append _ _, hn, ha, ht, ?_⟩
  have hne : ∀ s ∈ parent.steps, s.id ∉ fragment.steps.map Step.id := by
    intro s hs hm
    have hb : (parent.steps.map Step.id ++ fragment.steps.map Step.id).Nodup := by
      simpa [spliced] using hn
    exact (nodup_append.mp hb).2.2 _ (mem_map_of_mem hs) _ hm rfl
  constructor
  · intro hi e he hto
    obtain ⟨s, hs, hid⟩ := mem_map.mp hto
    have hno : into fragment s.id = [] := by
      have := hi s hs
      rwa [into_spliced (hne s hs), append_right_eq_self] at this
    exact filter_eq_nil_iff.mp hno e he (by simpa using hid.symm)
  · intro ho s hs
    rw [into_spliced (hne s hs), append_right_eq_self]
    refine filter_eq_nil_iff.mpr fun e he hto => ho e he ?_
    exact of_decide_eq_true hto ▸ mem_map_of_mem hs

/-! ### A fragment that feeds an authored step -/

def blobPort (name : String) : Port where
  name
  type := some { kind := some (.blob { mediaType := "application/octet-stream" }) }

def listThenDeploy : Pipeline where
  id := "release"
  steps := [{ id := "list", pluginRef := "builtin:generator", outputs := [blobPort "items"] },
    { id := "deploy", pluginRef := "oci://deploy", inputs := [blobPort "image"] }]

def oneBuild (edges : List Edge) : Pipeline where
  id := "matrix"
  steps := [{ id := "build", pluginRef := "oci://build", inputs := [blobPort "items"]
              outputs := [blobPort "image"] }]
  edges

def toDeploy : Edge where
  fromStep := "build"
  fromPort := "image"
  toStep := "deploy"
  toPort := "image"

def fromList : Edge where
  fromStep := "list"
  fromPort := "items"
  toStep := "build"
  toPort := "items"

def withBuild (edges : List Edge) : Pipeline :=
  { listThenDeploy with
    steps := listThenDeploy.steps ++ (oneBuild []).steps
    edges := edges ++ [fromList] }

theorem oneBuild_additive :
    splice (some listThenDeploy) "list" (some (oneBuild [])) = .ok (withBuild []) ∧
      Acyclic (withBuild []) ∧ WellTyped (withBuild []) ∧
      ∀ s ∈ listThenDeploy.steps, into (withBuild []) s.id = into listThenDeploy s.id := by
  have h : splice (some listThenDeploy) "list" (some (oneBuild [])) = .ok (withBuild []) := rfl
  obtain ⟨-, -, ha, ht, hi⟩ := splice_additive_iff h
  exact ⟨h, ha, ht, hi.mpr (by simp [oneBuild])⟩

/-- The fragment's own edge into the authored step is accepted. -/
theorem toDeploy_added :
    (∃ g, build (some listThenDeploy) = .ok g) ∧ typeCheck listThenDeploy = [] ∧
      splice (some listThenDeploy) "list" (some (oneBuild [toDeploy])) = .ok (withBuild [toDeploy]) ∧
      into listThenDeploy "deploy" = [] ∧ into (withBuild [toDeploy]) "deploy" = [toDeploy] :=
  ⟨⟨_, rfl⟩, rfl, rfl, rfl, rfl⟩

end Dhole.Dynamic
