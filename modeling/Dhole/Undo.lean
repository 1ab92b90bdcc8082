import Dhole.Operations

/-! When an edit can be taken back. The inverse an operation returns is itself
applied through `apply`, so it can be refused, and it can be accepted and put an
element back in another place than it was taken from. For each operation the
condition below is exactly the one under which its inverse restores the canonical
bytes. Removals append what they put back, so they undo only what was last; an
undo that removes is refused when something already names what was added. -/

namespace Dhole

open FirstMatch List

/-- The inverse of an accepted operation is accepted and restores the revision. -/
def Undone (sum256 : Wire.Bytes → Wire.Bytes) (p : Pipeline) (a : Applied) : Prop :=
  ∃ b, apply (some a.next) (some a.inverse) = .ok b ∧ canonicalBytes b.next = canonicalBytes p ∧
    contentHash sum256 b.next = contentHash sum256 p

/-- The condition under which an operation on a pipeline is undone by its inverse. -/
def UndoExact (p : Pipeline) : Operation → Prop
  | .addStep step => ∀ s ∈ step, ∀ e ∈ p.edges, e.fromStep ≠ s.id ∧ e.toStep ≠ s.id
  | .removeStep id => id ≠ "" ∧ LastOnly (fun s => s.id = id) p.steps
  | .connect _ => True
  | .removeEdge edge =>
    ∀ e ∈ edge, LastOnly (fun x => sameEdge x e) p.edges ∧
      ∃ x, checkEdgeEndpoints p "connect" (findEdge p e) = .ok x
  | .setProperty id property _ =>
    ∀ s ∈ findStep p id, (property = "effect_class" → s.effectClass.Declared) ∧
      (property = "lease_scope" → s.leaseScope.Declared)
  | .setStepConfig .. => True
  | .setStepSecret id env _ remove _ =>
    ∀ s ∈ findStep p id, ∀ i ∈ s.secrets.findIdx? (fun d => d.env = env), remove → i < 2 ^ 32
  | .setStepCapability id capability remove _ =>
    ∀ s ∈ findStep p id, ∀ i ∈ s.capabilities.findIdx? (fun c => c = capability),
      remove → i < 2 ^ 32
  | .setFile path none => LastOnly (fun f => f.path = path) p.files
  | .setFile path (some _) =>
    p.files.find? (fun f => f.path = path) = none → fileReader p path = none
  | .rename .. => True

theorem undone_iff {H : Wire.Bytes → Wire.Bytes} {p : Pipeline} {a : Applied} :
    Undone H p a ↔ ∃ b, apply (some a.next) (some a.inverse) = .ok b ∧
      b.next.stripUnknown = p.stripUnknown := by
  constructor
  · rintro ⟨b, hb, hby, -⟩
    exact ⟨b, hb, canonicalBytes_eq_iff.mp hby⟩
  · rintro ⟨b, hb, hs⟩
    have hby := canonicalBytes_eq_iff.mpr hs
    exact ⟨b, hb, hby, by rw [contentHash, contentHash, hby]⟩

/-! ### Views of a pipeline -/

theorem stripUnknown_steps_iff {p : Pipeline} {steps : List Step} :
    ({ p with steps } : Pipeline).stripUnknown = p.stripUnknown ↔
      steps.map Step.stripUnknown = p.steps.map Step.stripUnknown := by
  simp [Pipeline.stripUnknown]

theorem stripUnknown_edges_iff {p : Pipeline} {edges : List Edge} :
    ({ p with edges } : Pipeline).stripUnknown = p.stripUnknown ↔
      edges.map Edge.stripUnknown = p.edges.map Edge.stripUnknown := by
  simp [Pipeline.stripUnknown]

theorem stripUnknown_files_iff {p : Pipeline} {files : List File} :
    ({ p with files } : Pipeline).stripUnknown = p.stripUnknown ↔
      files.map File.stripUnknown = p.files.map File.stripUnknown := by
  simp [Pipeline.stripUnknown]

section Step

variable {p : Pipeline} {id : String} {s : Step} {f g : Step → Step}

theorem findStep_id (h : findStep p id = some s) : s.id = id := by
  simpa using find?_some h

theorem findStep_updateStep (hf : ∀ s, (f s).id = s.id) (h : findStep p id = some s) :
    findStep (updateStep p id f) id = some (f s) := by
  unfold findStep updateStep at *
  rw [find?_updateFirst (fun s hs => by simpa [hf] using hs), h, Option.map_some]

theorem stripUnknown_updateStep_iff (hf : ∀ s, (f s).id = s.id) (h : findStep p id = some s) :
    (updateStep (updateStep p id f) id g).stripUnknown = p.stripUnknown ↔
      (g (f s)).stripUnknown = s.stripUnknown := by
  unfold updateStep
  rw [updateFirst_updateFirst fun s hs => by simpa [hf] using hs]
  exact stripUnknown_steps_iff.trans (map_updateFirst_eq_iff Step.stripUnknown h)

end Step

/-! ### Steps and edges -/

variable {p : Pipeline} {a : Applied} {H : Wire.Bytes → Wire.Bytes}

theorem undone_addStep_iff {step : Option Step} (h : applyAddStep p step = .ok a) :
    Undone H p a ↔ UndoExact p (.addStep step) := by
  unfold applyAddStep at h
  split at h
  · cases h
  rename_i s
  split at h
  · cases h
  split at h
  · cases h
  rename_i hid hfr
  cases h
  have hn : ∀ t ∈ p.steps, ¬ t.id = s.id := by simpa [findStep] using hfr
  have hfind : findStep { p with steps := p.steps ++ [s] } s.id = some s :=
    LastOnly.find?_getLast (by simp) (by simpa using hn)
  have hk : (p.steps ++ [s]).filter (fun t => !decide (t.id = s.id)) = p.steps := by
    rw [filter_append, filter_eq_self.mpr (by simpa using hn)]
    simp
  simp only [undone_iff, apply, applyRemoveStep, hfind, UndoExact, Option.mem_some_iff, forall_eq']
  split
  · rename_i e he
    have hp := find?_some he
    have hm := mem_of_find?_eq_some he
    simp only [reduceCtorEq, false_and, exists_false, false_iff, not_forall]
    exact ⟨e, hm, by simpa [or_iff_not_imp_left] using hp⟩
  · rename_i hf
    have hf' : ∀ e ∈ p.edges, e.fromStep ≠ s.id ∧ e.toStep ≠ s.id := by
      simpa using hf
    simp only [Except.ok.injEq, exists_eq_left', hk]
    exact iff_of_true trivial hf'

theorem undone_removeStep_iff {id : String} (h : applyRemoveStep p id = .ok a) :
    Undone H p a ↔ UndoExact p (.removeStep id) := by
  unfold applyRemoveStep at h
  split at h
  · cases h
  rename_i s hfind
  split at h
  · cases h
  cases h
  have hid : s.id = id := findStep_id hfind
  have hg : findStep { p with steps := p.steps.filter fun t => !decide (t.id = id) } s.id = none := by
    simp [findStep, hid]
  simp only [undone_iff, apply, applyAddStep, UndoExact, hg]
  rw [hid]
  split
  · simp_all
  · rename_i hne
    simp only [Except.ok.injEq, exists_eq_left', ne_eq, hne, not_false_eq_true, true_and]
    exact stripUnknown_steps_iff.trans
      (map_filter_append_eq_iff Step.stripUnknown (fun t => t.id = id) hfind)

theorem sameEdge_self (e : Edge) : sameEdge e e = true := by simp [sameEdge]

theorem sameEdge_congr {r e : Edge} (h : sameEdge r e = true) (x : Edge) :
    sameEdge x r = sameEdge x e := by
  simp only [sameEdge, Bool.and_eq_true, decide_eq_true_eq] at h ⊢
  obtain ⟨⟨⟨h₁, h₂⟩, h₃⟩, h₄⟩ := h
  rw [h₁, h₂, h₃, h₄]

theorem checkEdgeEndpoints_ok {op : String} {edge : Option Edge} {e : Edge}
    (h : checkEdgeEndpoints p op edge = .ok e) : edge = some e := by
  unfold checkEdgeEndpoints at h
  repeat' split at h
  all_goals cases h
  rfl

theorem undone_connect {edge : Option Edge} (h : applyConnect p edge = .ok a) : Undone H p a := by
  unfold applyConnect at h
  split at h
  · cases h
  rename_i e he
  split at h
  · cases h
  rename_i hf
  cases h
  have hn : ∀ x ∈ p.edges, ¬ sameEdge x e = true := by simpa [findEdge] using hf
  have hfind : findEdge { p with edges := p.edges ++ [e] } e = some e :=
    LastOnly.find?_getLast (sameEdge_self e) hn
  have hk : (p.edges ++ [e]).filter (fun x => !sameEdge x e) = p.edges := by
    rw [filter_append, filter_eq_self.mpr (by simpa using hn)]
    simp [sameEdge_self]
  simp only [undone_iff, apply, applyRemoveEdge, hfind, Except.ok.injEq, exists_eq_left', hk]

theorem undone_removeEdge_iff {edge : Option Edge} (h : applyRemoveEdge p edge = .ok a) :
    Undone H p a ↔ UndoExact p (.removeEdge edge) := by
  unfold applyRemoveEdge at h
  split at h
  · cases h
  rename_i e
  split at h
  · cases h
  rename_i r hfind
  cases h
  have hs : sameEdge r e = true := by simpa using find?_some hfind
  have hg : findEdge { p with edges := p.edges.filter fun x => !sameEdge x e } r = none := by
    simp [findEdge, sameEdge_congr hs]
  have he : checkEdgeEndpoints { p with edges := p.edges.filter fun x => !sameEdge x e }
      "connect" (some r) = checkEdgeEndpoints p "connect" (some r) := rfl
  simp only [undone_iff, apply, applyConnect, UndoExact, he, hfind, Option.mem_some_iff, forall_eq']
  cases hc : checkEdgeEndpoints p "connect" (some r) with
  | error text => simp
  | ok x =>
    obtain rfl : r = x := by simpa using checkEdgeEndpoints_ok hc
    simp only [hg, Except.ok.injEq, exists_eq_left', exists_eq', and_true]
    exact stripUnknown_edges_iff.trans
      (map_filter_append_eq_iff Edge.stripUnknown (fun x => sameEdge x e) hfind)

/-! ### Scalar properties -/

theorem parseUint32_formatUint (n : UInt32) : parseUint32 (formatUint n.toNat) = some n := by
  unfold parseUint32
  rw [if_neg]
  · simp only [ofDigits_formatUint]
    rw [if_pos n.toNat_lt, UInt32.ofNat_toNat]
  · simp only [not_or, not_not, all_eq_true]
    refine ⟨fun h => formatUint_ne_nil n.toNat ?_, fun c hc => isDigit_of_mem_formatUint hc⟩
    rw [h]
    rfl

section Scalar

variable {s : Step} {id property value old : String} {assign : Step → Step}

theorem setScalar_assign_id (h : setScalar id property value s = .ok (old, assign)) (t : Step) :
    (assign t).id = t.id := by
  unfold setScalar at h
  repeat' split at h
  all_goals cases h
  all_goals rfl

theorem effectClass_ofName?_name_iff (c : EffectClass) :
    OpenEnum.ofName? c.name = some c ↔ c.Declared :=
  OpenEnum.ofName?_name_eq_some_iff (by decide) (by decide) c

theorem leaseScope_ofName?_name_iff (c : LeaseScope) :
    OpenEnum.ofName? c.name = some c ↔ c.Declared :=
  OpenEnum.ofName?_name_eq_some_iff (by decide) (by decide) c

/-- Setting the old text back restores the step. Only an enumeration can refuse it,
when the number it held has no name. -/
theorem setScalar_undo_iff (h : setScalar id property value s = .ok (old, assign)) :
    (∃ r, setScalar id property old (assign s) = .ok r ∧
      (r.2 (assign s)).stripUnknown = s.stripUnknown) ↔
      (property = "effect_class" → s.effectClass.Declared) ∧
        (property = "lease_scope" → s.leaseScope.Declared) := by
  unfold setScalar at h
  split at h
  · cases h
    simp [setScalar]
  · split at h
    · cases h
    cases h
    simp only [setScalar, ← effectClass_ofName?_name_iff]
    cases OpenEnum.ofName? s.effectClass.name with
    | none => simp
    | some c => simp [Step.stripUnknown]
  · split at h
    · cases h
    cases h
    simp only [setScalar, ← leaseScope_ofName?_name_iff]
    cases OpenEnum.ofName? s.leaseScope.name with
    | none => simp
    | some c => simp [Step.stripUnknown]
  · cases h
    simp [setScalar]
  · cases h
    simp [setScalar]
  · split at h
    · cases h
    cases h
    simp [setScalar, parseUint32_formatUint]
  · cases h

theorem undone_setProperty_iff (h : applySetProperty p id property value = .ok a) :
    Undone H p a ↔ UndoExact p (.setProperty id property value) := by
  unfold applySetProperty at h
  split at h
  · cases h
  rename_i s hfind
  split at h
  · cases h
  rename_i old assign hs
  cases h
  have hid := setScalar_assign_id hs
  simp only [undone_iff, apply, applySetProperty, findStep_updateStep hid hfind, UndoExact, hfind,
    Option.mem_some_iff, forall_eq', ← setScalar_undo_iff hs]
  cases setScalar id property old (assign s) with
  | error text => simp
  | ok r =>
    simp only [Except.ok.injEq, exists_eq_left']
    exact stripUnknown_updateStep_iff hid hfind

theorem undone_rename {name : String} (h : applyRename p id name = .ok a) : Undone H p a := by
  unfold applyRename at h
  split at h
  · cases h
  rename_i s hfind
  cases h
  have hid : ∀ t : Step, ({ t with name } : Step).id = t.id := fun _ => rfl
  simp only [undone_iff, apply, applyRename, findStep_updateStep hid hfind, Except.ok.injEq,
    exists_eq_left']
  exact (stripUnknown_updateStep_iff hid hfind).mpr rfl

/-- The config map after an edit of one key and the edit that takes it back. -/
theorem undone_setStepConfig {key : String} {remove : Bool}
    (h : applySetStepConfig p id key value remove = .ok a) : Undone H p a := by
  unfold applySetStepConfig at h
  split at h
  · cases h
  rename_i s hfind
  split at h
  · cases h
  rename_i hke
  have hi : ∀ t : Step, ({ t with config := t.config.insert key value } : Step).id = t.id :=
    fun _ => rfl
  have hd : ∀ t : Step, ({ t with config := t.config.erase key } : Step).id = t.id :=
    fun _ => rfl
  simp only at h
  split at h
  · split at h
    · cases h
    rename_i hh
    cases h
    obtain ⟨w, hw⟩ : ∃ w, s.config[key]? = some w := Option.isSome_iff_exists.mp (by simpa using hh)
    simp only [undone_iff, apply, applySetStepConfig, findStep_updateStep hd hfind, hke,
      if_false, hw, Option.isNone_some, Bool.false_eq_true, Except.ok.injEq,
      exists_eq_left']
    refine (stripUnknown_updateStep_iff hd hfind).mpr ?_
    have hb : (s.config.erase key).insert key w = s.config := by
      ext1 k
      by_cases hk : key = k <;> simp_all [Std.ExtTreeMap.getElem?_insert, Std.ExtTreeMap.getElem?_erase]
    simp [hb]
  · cases h
    simp only [undone_iff, apply, applySetStepConfig, findStep_updateStep hi hfind, hke,
      Std.ExtTreeMap.getElem?_insert_self, Option.isNone_some]
    cases hw : s.config[key]? with
    | none =>
      simp only [Option.isNone_none, if_true, Bool.false_eq_true, if_false, Except.ok.injEq,
        exists_eq_left']
      refine (stripUnknown_updateStep_iff hi hfind).mpr ?_
      have hb : (s.config.insert key value).erase key = s.config := by
        ext1 k
        by_cases hk : key = k <;>
          simp_all [Std.ExtTreeMap.getElem?_insert, Std.ExtTreeMap.getElem?_erase]
      simp [hb]
    | some w =>
      simp only [Option.isNone_some, Bool.false_eq_true, if_false,
        Except.ok.injEq, exists_eq_left']
      refine (stripUnknown_updateStep_iff hi hfind).mpr ?_
      have hb : (s.config.insert key value).insert key w = s.config := by
        ext1 k
        by_cases hk : key = k <;> simp_all [Std.ExtTreeMap.getElem?_insert]
      simp [hb]

end Scalar

/-! ### Bindings and declarations with a place -/

section Place

variable {id env name : String} {capability : Capability} {remove : Bool} {index : Option UInt32}
  {s : Step} {pos : ℕ} {diff : List Change}

theorem toNat_ofNat_eq_iff (i : ℕ) : (UInt32.ofNat i).toNat = i ↔ i < 2 ^ 32 := by
  rw [UInt32.toNat_ofNat', Nat.mod_eq_iff_lt (by decide)]

theorem toNat_ofNat_le (i : ℕ) : (UInt32.ofNat i).toNat ≤ i :=
  Nat.mod_le _ _

theorem countP_eq_zero_of_findIdx? {α : Type*} {pick : α → Bool} {l : List α}
    (h : l.findIdx? pick = none) : l.countP pick = 0 :=
  countP_eq_zero.mpr (by simpa using h)

theorem not_place_gt_length {α : Type*} {l : List α} (h : pos < l.length) :
    ¬ (UInt32.ofNat pos).toNat > (l.eraseIdx pos).length := by
  have := toNat_ofNat_le pos
  rw [length_eraseIdx_of_lt h]
  omega

variable (hfind : findStep p id = some s) (henv : isEnvName env)

include hfind henv

theorem undone_unbind_iff
    (hc : ¬ s.secrets.countP (fun d => d.env = env) > 1)
    (hpo : s.secrets.findIdx? (fun d => d.env = env) = some pos) :
    Undone H p
      { next := updateStep p id fun t => { t with secrets := t.secrets.eraseIdx pos }
        diff
        inverse := .setStepSecret id env (((s.secrets[pos]?).map StepSecret.name).getD "") false
          (some (UInt32.ofNat pos)) } ↔ pos < 2 ^ 32 := by
  obtain ⟨hlt, hp, -⟩ := findIdx?_eq_some_iff_getElem.mp hpo
  have hid : ∀ t : Step, ({ t with secrets := t.secrets.eraseIdx pos } : Step).id = t.id :=
    fun _ => rfl
  have hg := findIdx?_eraseIdx hpo (by omega)
  have hn : ((s.secrets[pos]?).map StepSecret.name).getD "" = s.secrets[pos].name := by
    simp [hlt]
  simp only [undone_iff, apply, applySetStepSecret, findStep_updateStep hid hfind, henv, hg,
    countP_eq_zero_of_findIdx? hg, Option.map_some, Option.getD_some, not_place_gt_length hlt,
    if_false, Bool.not_true, Bool.false_eq_true, not_lt_zero, Except.ok.injEq,
    exists_eq_left', hn]
  rw [stripUnknown_updateStep_iff hid hfind, ← toNat_ofNat_eq_iff,
    ← map_insertIdx_eraseIdx_eq_iff StepSecret.stripUnknown (fun d => d.env = env)
      (a := { name := s.secrets[pos].name, env }) hpo (toNat_ofNat_le pos)]
  · simp [Step.stripUnknown]
  · simpa [hlt, StepSecret.stripUnknown] using hp

theorem undone_rebind
    (hc : ¬ s.secrets.countP (fun d => d.env = env) > 1)
    (hpo : s.secrets.findIdx? (fun d => d.env = env) = some pos) :
    Undone H p
      { next := updateStep p id fun t => { t with secrets := t.secrets.set pos { name, env } }
        diff
        inverse := .setStepSecret id env (((s.secrets[pos]?).map StepSecret.name).getD "") false
          none } := by
  obtain ⟨hlt, hp, -⟩ := findIdx?_eq_some_iff_getElem.mp hpo
  have hid : ∀ t : Step, ({ t with secrets := t.secrets.set pos { name, env } } : Step).id = t.id :=
    fun _ => rfl
  have hat : (s.secrets.set pos { name, env }).findIdx? (fun d => d.env = env) = some pos :=
    findIdx?_set hpo (by simp)
  have hc' : ¬ (s.secrets.set pos { name, env }).countP (fun d => d.env = env) > 1 := by
    rw [countP_set hpo (by simp)]
    exact hc
  have hn : ((s.secrets[pos]?).map StepSecret.name).getD "" = s.secrets[pos].name := by
    simp [hlt]
  simp only [undone_iff, apply, applySetStepSecret, findStep_updateStep hid hfind, henv, hat,
    hc', if_false, Bool.not_true, Bool.false_eq_true, Option.isSome_none, Except.ok.injEq,
    exists_eq_left', hn]
  rw [stripUnknown_updateStep_iff hid hfind]
  have hb : ({ name := s.secrets[pos].name, env } : StepSecret).stripUnknown =
      s.secrets[pos].stripUnknown := by
    simpa [StepSecret.stripUnknown, eq_comm] using hp
  have hs : (s.secrets.map StepSecret.stripUnknown).set pos s.secrets[pos].stripUnknown =
      s.secrets.map StepSecret.stripUnknown := by
    rw [← map_set, set_getElem_self]
  simp [Step.stripUnknown, hb, hs]

theorem undone_bind
    (hn : s.secrets.findIdx? (fun d => d.env = env) = none) (hp : ¬ pos > s.secrets.length) :
    Undone H p
      { next := updateStep p id fun t => { t with secrets := t.secrets.insertIdx pos { name, env } }
        diff
        inverse := .setStepSecret id env "" true none } := by
  have hid : ∀ t : Step,
      ({ t with secrets := t.secrets.insertIdx pos { name, env } } : Step).id = t.id :=
    fun _ => rfl
  have hat : (s.secrets.insertIdx pos { name, env }).findIdx? (fun d => d.env = env) = some pos :=
    findIdx?_insertIdx hn (by simp) (by omega)
  have ho : (s.secrets.insertIdx pos { name, env }).countP (fun d => d.env = env) = 1 :=
    countP_insertIdx hn (by simp) (by omega)
  simp only [undone_iff, apply, applySetStepSecret, findStep_updateStep hid hfind, henv, hat,
    ho, if_false, Bool.not_true, Bool.false_eq_true, lt_self_iff_false,
    Except.ok.injEq, exists_eq_left']
  rw [stripUnknown_updateStep_iff hid hfind]
  simp

omit hfind henv

theorem undone_setStepSecret_iff (h : applySetStepSecret p id env name remove index = .ok a) :
    Undone H p a ↔ UndoExact p (.setStepSecret id env name remove index) := by
  unfold applySetStepSecret at h
  split at h
  · cases h
  rename_i s hfind
  split at h
  · cases h
  rename_i henv
  simp only [Bool.not_eq_true, Bool.not_eq_false'] at henv
  split at h
  · cases h
  rename_i hc
  simp only [UndoExact, hfind, Option.mem_some_iff]
  split at h
  · cases h
  · rename_i pos hp
    cases h
    simpa [hp] using undone_unbind_iff hfind henv hc hp
  · rename_i pos hp
    split at h
    · cases h
    cases h
    simpa using undone_rebind hfind henv hc hp
  · rename_i hn
    simp only at h
    split at h
    · cases h
    rename_i hp
    cases h
    simpa using undone_bind hfind henv hn hp

variable (hcap : ¬ (capability.name?.isNone ∨ capability = .unspecified))

include hfind hcap

theorem undone_withdraw_iff
    (hc : ¬ s.capabilities.countP (fun c => c = capability) > 1)
    (hpo : s.capabilities.findIdx? (fun c => c = capability) = some pos) :
    Undone H p
      { next := updateStep p id fun t => { t with capabilities := t.capabilities.eraseIdx pos }
        diff
        inverse := .setStepCapability id capability false (some (UInt32.ofNat pos)) } ↔
      pos < 2 ^ 32 := by
  obtain ⟨hlt, hp, -⟩ := findIdx?_eq_some_iff_getElem.mp hpo
  have hid : ∀ t : Step,
      ({ t with capabilities := t.capabilities.eraseIdx pos } : Step).id = t.id := fun _ => rfl
  have hg := findIdx?_eraseIdx hpo (by omega)
  simp only [undone_iff, apply, applySetStepCapability, findStep_updateStep hid hfind, hcap, hg,
    countP_eq_zero_of_findIdx? hg, Option.map_some, Option.getD_some, not_place_gt_length hlt,
    if_false, not_lt_zero, Except.ok.injEq, exists_eq_left']
  rw [stripUnknown_updateStep_iff hid hfind, ← toNat_ofNat_eq_iff,
    ← insertIdx_eraseIdx_eq_iff (a := capability) hpo (toNat_ofNat_le pos)]
  · simp [Step.stripUnknown]
  · simpa [hlt] using hp

theorem undone_declare
    (hn : s.capabilities.findIdx? (fun c => c = capability) = none)
    (hp : ¬ pos > s.capabilities.length) :
    Undone H p
      { next := updateStep p id fun t =>
          { t with capabilities := t.capabilities.insertIdx pos capability }
        diff
        inverse := .setStepCapability id capability true none } := by
  have hid : ∀ t : Step,
      ({ t with capabilities := t.capabilities.insertIdx pos capability } : Step).id = t.id :=
    fun _ => rfl
  have hat : (s.capabilities.insertIdx pos capability).findIdx? (fun c => c = capability) =
      some pos := findIdx?_insertIdx hn (by simp) (by omega)
  have ho : (s.capabilities.insertIdx pos capability).countP (fun c => c = capability) = 1 :=
    countP_insertIdx hn (by simp) (by omega)
  simp only [undone_iff, apply, applySetStepCapability, findStep_updateStep hid hfind, hcap, hat,
    ho, if_false, lt_self_iff_false, Except.ok.injEq, exists_eq_left']
  rw [stripUnknown_updateStep_iff hid hfind]
  simp

omit hfind hcap

theorem undone_setStepCapability_iff
    (h : applySetStepCapability p id capability remove index = .ok a) :
    Undone H p a ↔ UndoExact p (.setStepCapability id capability remove index) := by
  unfold applySetStepCapability at h
  split at h
  · cases h
  rename_i s hfind
  split at h
  · cases h
  rename_i hcap
  split at h
  · cases h
  rename_i hc
  simp only [UndoExact, hfind, Option.mem_some_iff]
  split at h
  · cases h
  · rename_i pos hp
    cases h
    simpa [hp] using undone_withdraw_iff hfind hcap hc hp
  · cases h
  · rename_i hn
    simp only at h
    split at h
    · cases h
    rename_i hp
    cases h
    simpa using undone_declare hfind hcap hn hp

end Place

/-! ### Files -/

variable {path : String} {file old : File} {diff : List Change}

theorem undone_detach_iff (hp : path ≠ "")
    (hold : p.files.find? (fun f => f.path = path) = some old) :
    Undone H p
      { next := { p with files := p.files.eraseP fun f => f.path = path }
        diff
        inverse := .setFile path (some old) } ↔ LastOnly (fun f => f.path = path) p.files := by
  obtain rfl : old.path = path := by simpa using find?_some hold
  simp only [undone_iff, apply, applySetFile, hp, if_false]
  cases hr : (p.files.eraseP fun f => f.path = old.path).find? (fun f => f.path = old.path) with
  | none =>
    simp only [Except.ok.injEq, exists_eq_left']
    exact stripUnknown_files_iff.trans
      (map_eraseP_append_eq_iff File.stripUnknown (fun f => f.path = old.path) hold hr)
  | some other =>
    -- another file at the path takes the one put back, so one is missing
    simp only [Except.ok.injEq, exists_eq_left']
    refine iff_of_false (fun h => ?_) (fun h => ?_)
    · have hma := congrArg List.length (stripUnknown_files_iff.mp h)
      have hm := mem_of_find?_eq_some hold
      rw [length_map, length_map, length_updateFirst,
        length_eraseP_of_mem hm (by simp)] at hma
      have := length_pos_of_mem hm
      omega
    · rw [h.eraseP_find?_eq_none] at hr
      cases hr

theorem undone_replace (hp : path ≠ "")
    (hold : p.files.find? (fun f => f.path = path) = some old) :
    Undone H p
      { next := { p with
          files := updateFirst (fun f => f.path = path) (fun _ => { file with path }) p.files }
        diff
        inverse := .setFile path (some old) } := by
  obtain rfl : old.path = path := by simpa using find?_some hold
  have hfind : (updateFirst (fun f => f.path = old.path) (fun _ => { file with path := old.path })
      p.files).find? (fun f => f.path = old.path) = some { file with path := old.path } := by
    rw [find?_updateFirst (by simp), hold, Option.map_some]
  simp only [undone_iff, apply, applySetFile, hp, if_false, hfind, Except.ok.injEq, exists_eq_left']
  rw [updateFirst_updateFirst (by simp)]
  exact stripUnknown_files_iff.mpr ((map_updateFirst_eq_iff File.stripUnknown hold).mpr rfl)

theorem undone_attach_iff (hp : path ≠ "")
    (hn : p.files.find? (fun f => f.path = path) = none) :
    Undone H p
      { next := { p with files := p.files ++ [{ file with path }] }
        diff
        inverse := .setFile path none } ↔ fileReader p path = none := by
  have hno : ∀ f ∈ p.files, ¬ f.path = path := by simpa using hn
  have hfind : (p.files ++ [{ file with path }]).find? (fun f => f.path = path) =
      some { file with path } := LastOnly.find?_getLast (by simp) (by simpa using hno)
  have he : (p.files ++ [{ file with path }]).eraseP (fun f => f.path = path) = p.files := by
    rw [eraseP_append_right _ (by simpa using hno)]
    simp
  have hr : fileReader { p with files := p.files ++ [{ file with path }] } path =
      fileReader p path := rfl
  simp only [undone_iff, apply, applySetFile, hp, hr]
  cases fileReader p path with
  | none => simp [he]
  | some re => simp

theorem undone_setFile_iff {file : Option File} (h : applySetFile p path file = .ok a) :
    Undone H p a ↔ UndoExact p (.setFile path file) := by
  unfold applySetFile at h
  split at h
  · cases h
  rename_i hp
  simp only at h
  split at h
  · cases h
  · rename_i old hold
    split at h
    · cases h
    cases h
    rw [hold]
    exact undone_detach_iff hp hold
  · rename_i old hold
    cases h
    simpa [UndoExact, hold] using undone_replace hp hold
  · rename_i hn
    cases h
    simpa [UndoExact, hn] using undone_attach_iff hp hn

/-- The inverse of an accepted operation restores the revision exactly under the
operation's own condition. -/
theorem undone_iff_undoExact (sum256 : Wire.Bytes → Wire.Bytes) (p : Pipeline) (op : Operation)
    (a : Applied) (h : apply (some p) (some op) = .ok a) : Undone sum256 p a ↔ UndoExact p op := by
  cases op with
  | addStep step => exact undone_addStep_iff h
  | removeStep id => exact undone_removeStep_iff h
  | connect edge => exact iff_of_true (undone_connect h) trivial
  | removeEdge edge => exact undone_removeEdge_iff h
  | setProperty id property value => exact undone_setProperty_iff h
  | setStepConfig id key value remove => exact iff_of_true (undone_setStepConfig h) trivial
  | setStepSecret id env name remove index => exact undone_setStepSecret_iff h
  | setStepCapability id capability remove index => exact undone_setStepCapability_iff h
  | setFile path file => exact undone_setFile_iff h
  | rename id name => exact iff_of_true (undone_rename h) trivial

def twoSteps : Pipeline := { id := "p", steps := [{ id := "a" }, { id := "b" }] }

/-- Removing the first of two steps and adding it back moves it behind the second. -/
theorem removeStep_first_not_undone :
    ∃ a b, apply (some twoSteps) (some (.removeStep "a")) = .ok a ∧
      apply (some a.next) (some a.inverse) = .ok b ∧
      canonicalBytes b.next ≠ canonicalBytes twoSteps := by
  refine ⟨_, _, rfl, rfl, fun h => ?_⟩
  have hs := congrArg (fun q => q.steps.map Step.id) (canonicalBytes_eq_iff.mp h)
  revert hs
  decide

theorem removeStep_last_undone :
    ∃ a, apply (some twoSteps) (some (.removeStep "b")) = .ok a ∧ Undone id twoSteps a :=
  ⟨_, rfl, (undone_iff_undoExact id twoSteps (.removeStep "b") _ rfl).mpr
    ⟨by decide, [{ id := "a" }], { id := "b" }, rfl, by decide, by decide⟩⟩

end Dhole
