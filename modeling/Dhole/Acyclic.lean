import Dhole.Dag

/-! What the search for a cycle proves. A step is blackened only after all its dependents are
black, so when the search ends without a cycle every chain of dependents ends, and there are
finitely many steps, so every chain of predecessors ends as well. -/

namespace Dhole.Dag

open List

def Graph.DependsOn (g : Graph) (y x : String) : Prop := y ∈ g.dependents x

namespace Search

variable (g : Graph)

def whites (s : Search) : ℕ := g.stepIDs.countP fun x => s.colour x = .white

def Grounded (s : Search) : Prop := ∀ x, s.colour x = .black → Acc g.DependsOn x

/-- A part of the search that is over: steps leave white and stay black, and no step is grey
that was not. -/
structure Explores (s s' : Search) : Prop where
  black : ∀ x, s.colour x = .black → s'.colour x = .black
  white : ∀ x, s'.colour x = .white → s.colour x = .white
  grey : ∀ x, s'.colour x = .grey → s.colour x = .grey
  grounded : s'.Grounded g

variable {g} {s t u : Search} {id : String}

theorem Explores.refl (h : s.Grounded g) : Explores g s s :=
  ⟨fun _ hx => hx, fun _ hx => hx, fun _ hx => hx, h⟩

theorem Explores.trans (h : Explores g s t) (h' : Explores g t u) : Explores g s u :=
  ⟨fun x hx => h'.black x (h.black x hx), fun x hx => h.white x (h'.white x hx),
    fun x hx => h.grey x (h'.grey x hx), h'.grounded⟩

theorem Explores.whites_le (h : Explores g s t) : whites g t ≤ whites g s :=
  countP_mono_left fun x _ hx => by
    simp only [decide_eq_true_eq] at hx ⊢
    exact h.white x hx

theorem whites_enter (hid : id ∈ g.stepIDs) (hw : s.colour id = .white) (path : List String) :
    whites g ⟨Function.update s.colour id .grey, path⟩ < whites g s := by
  obtain ⟨before, after, hi⟩ := append_of_mem hid
  have hle (l : List String) :
      l.countP (fun x => Function.update s.colour id .grey x = .white) ≤
        l.countP fun x => s.colour x = .white := by
    refine countP_mono_left fun x _ hx => ?_
    by_cases hxi : x = id
    · simp [hxi] at hx
    · simpa [hxi] using hx
  have hb := hle before
  have ha := hle after
  simp only [whites, hi, countP_append, countP_cons, hw, Function.update_self,
    decide_true, if_true, reduceCtorEq, decide_false, if_false]
  omega

theorem Grounded.enter {g : Graph} {s : Search} (hs : s.Grounded g) (id : String)
    (path : List String) : Grounded g ⟨Function.update s.colour id .grey, path⟩ := by
  intro x hx
  by_cases hxi : x = id
  · simp [hxi] at hx
  · exact hs x (by simpa [hxi] using hx)

theorem grounded_start (g : Graph) : Grounded g {} := fun x hx => by cases hx

theorem whites_start (g : Graph) : whites g {} ≤ g.stepIDs.length + 1 :=
  countP_le_length.trans (Nat.le_succ _)

end Search

variable {g : Graph} {s t : Search} {id : String}

theorem foldlM_explores {step : Search → String → Except (List String) Search} {fuel : ℕ}
    {s₀ : Search} (hst : ∀ s t d, d ∈ g.stepIDs → Search.Explores g s₀ s → s.whites g ≤ fuel →
      step s d = .ok t → Search.Explores g s t ∧ t.colour d = .black)
    (ids : List String) (hi : ∀ d ∈ ids, d ∈ g.stepIDs) (hs : Search.Explores g s₀ s)
    (hf : s.whites g ≤ fuel) (h : ids.foldlM step s = .ok t) :
    Search.Explores g s t ∧ ∀ d ∈ ids, t.colour d = .black := by
  induction ids generalizing s with
  | nil =>
    cases h
    exact ⟨.refl hs.grounded, by simp⟩
  | cons d ids ih =>
    cases hd : step s d with
    | error path => simp [hd, bind, Except.bind] at h
    | ok u =>
      have hr : ids.foldlM step u = .ok t := by simpa [hd, bind, Except.bind] using h
      obtain ⟨hsu, hb⟩ := hst s u d (hi d mem_cons_self) hs hf hd
      obtain ⟨hut, ha⟩ := ih (fun d hd => hi d (mem_cons_of_mem _ hd)) (hs.trans hsu)
        (hsu.whites_le.trans hf) hr
      exact ⟨hsu.trans hut, forall_mem_cons.mpr ⟨hut.black d hb, ha⟩⟩

/-- A visit of a white step that ends without a cycle leaves the step black. The fuel is
enough as long as there is as much of it as there are white steps. -/
theorem visit_explores (hdep : ∀ x, ∀ d ∈ g.dependents x, d ∈ g.stepIDs) (fuel : ℕ)
    (hid : id ∈ g.stepIDs) (hw : s.colour id = .white) (hs : s.Grounded g)
    (hfu : s.whites g ≤ fuel) (h : g.visit fuel id s = .ok t) :
    Search.Explores g s t ∧ t.colour id = .black := by
  induction fuel generalizing id s t with
  | zero =>
    have := Search.whites_enter hid hw []
    omega
  | succ fuel ih =>
    have hl := Search.whites_enter hid hw (s.path ++ [id])
    simp only [Graph.visit, bind, Except.bind] at h
    split at h
    · cases h
    rename_i left hf
    cases h
    obtain ⟨he, hb⟩ := foldlM_explores (fun s t d hd hs hle hst => by
      split at hst
      · cases hst
      · exact ih hd ‹_› hs.grounded hle hst
      · cases hst
        exact ⟨.refl hs.grounded, ‹_›⟩) _ (hdep id) (.refl (hs.enter id _)) (by omega) hf
    refine ⟨⟨fun x hx => ?_, fun x hx => ?_, fun x hx => ?_, fun x hx => ?_⟩, by simp⟩
    · by_cases hxi : x = id
      · simp [hxi]
      · simpa [hxi] using he.black x (by simpa [hxi] using hx)
    · by_cases hxi : x = id
      · simp [hxi] at hx
      · simpa [hxi] using he.white x (by simpa [hxi] using hx)
    · by_cases hxi : x = id
      · simp [hxi] at hx
      · simpa [hxi] using he.grey x (by simpa [hxi] using hx)
    · by_cases hxi : x = id
      · subst hxi
        exact ⟨_, fun d hd => he.grounded d (hb d hd)⟩
      · exact he.grounded x (by simpa [hxi] using hx)

theorem acc_of_findCycle (hdep : ∀ x, ∀ d ∈ g.dependents x, d ∈ g.stepIDs)
    (h : g.findCycle = none) : ∀ id ∈ g.stepIDs, Acc g.DependsOn id := by
  simp only [Graph.findCycle] at h
  split at h
  · rename_i t hse
    obtain ⟨he, hb⟩ := foldlM_explores (fun s t d hd hs hle hst => by
      split_ifs at hst with hw
      · exact visit_explores hdep _ hd hw hs.grounded hle hst
      · cases hst
        refine ⟨.refl hs.grounded, ?_⟩
        -- between two visits no step is grey
        cases hc : s.colour d with
        | white => exact absurd hc hw
        | grey => cases hs.grey d hc
        | black => rfl) _ (fun d hd => hd) (.refl (Search.grounded_start g))
          (Search.whites_start g) hse
    exact fun id hid => he.grounded id (hb id hid)
  · cases h

section Complete

theorem isOk_bind {ε α β : Type} {x : Except ε α} {f : α → Except ε β} (hx : ∃ a, x = .ok a)
    (hf : ∀ a, ∃ b, f a = .ok b) : ∃ b, (x >>= f) = .ok b := by
  obtain ⟨a, rfl⟩ := hx
  exact hf a

theorem foldlM_isOk {step : Search → String → Except (List String) Search} {fuel : ℕ}
    {s₀ : Search} {ids : List String} (hst : ∀ s, ∀ d ∈ ids, Search.Explores g s₀ s →
      s.whites g ≤ fuel → ∃ t, step s d = .ok t ∧ Search.Explores g s t)
    (hs : Search.Explores g s₀ s) (hf : s.whites g ≤ fuel) : ∃ t, ids.foldlM step s = .ok t := by
  induction ids generalizing s with
  | nil => exact ⟨s, rfl⟩
  | cons d ids ih =>
    obtain ⟨u, hu, hsu⟩ := hst s d mem_cons_self hs hf
    obtain ⟨t, ht⟩ := ih (fun s d hd => hst s d (mem_cons_of_mem _ hd)) (hs.trans hsu)
      (hsu.whites_le.trans hf)
    exact ⟨t, by simpa [hu, bind, Except.bind] using ht⟩

variable (hdep : ∀ x, ∀ d ∈ g.dependents x, d ∈ g.stepIDs) (hacyclic : ∀ x, ¬ Relation.TransGen
  (Function.swap g.DependsOn) x x)

include hdep hacyclic

/-- A visit ends without a cycle where there is none: every grey step leads to the step that
is visited, so an edge back to one of them would close a cycle. -/
theorem visit_isOk (fuel : ℕ)
    (hid : id ∈ g.stepIDs) (hwh : s.colour id = .white) (hs : s.Grounded g) (hf : s.whites g ≤ fuel)
    (hg : ∀ x, s.colour x = .grey → Relation.TransGen (Function.swap g.DependsOn) x id) :
    ∃ t, g.visit fuel id s = .ok t := by
  induction fuel generalizing id s with
  | zero => exact ⟨s, rfl⟩
  | succ fuel ih =>
    have hl := Search.whites_enter hid hwh (s.path ++ [id])
    refine isOk_bind (foldlM_isOk (fun u d hd hu hw => ?_) (.refl (hs.enter id _))
      (Nat.le_of_lt_succ (hl.trans_le hf))) fun t => ⟨_, rfl⟩
    have hdi : d ∈ g.stepIDs := hdep id d hd
    -- the dependent is one edge further than the step itself
    have hr : ∀ x, u.colour x = .grey →
        Relation.TransGen (Function.swap g.DependsOn) x d := by
      intro x hx
      have hx := hu.grey x hx
      by_cases hxi : x = id
      · subst hxi
        exact .single hd
      · exact .tail (hg x (by simpa [hxi] using hx)) hd
    cases hc : u.colour d with
    | grey => exact absurd (hr d hc) (hacyclic d)
    | white =>
      obtain ⟨v, hv⟩ := ih hdi hc hu.grounded hw hr
      exact ⟨v, hv, (visit_explores hdep fuel hdi hc hu.grounded hw hv).1⟩
    | black => exact ⟨u, rfl, .refl hu.grounded⟩

theorem findCycle_eq_none : g.findCycle = none := by
  have hse : ∃ t, g.stepIDs.foldlM (fun (s : Search) id =>
      if s.colour id = .white then g.visit (g.stepIDs.length + 1) id s else .ok s) {} =
        Except.ok t := by
    refine foldlM_isOk (fun s d hd hs hle => ?_) (.refl (Search.grounded_start g))
      (Search.whites_start g)
    by_cases hw : s.colour d = .white
    · obtain ⟨t, ht⟩ := visit_isOk hdep hacyclic _ hd hw hs.grounded hle
        fun x hx => by cases hs.grey x hx
      exact ⟨t, by rw [if_pos hw, ht],
        (visit_explores hdep _ hd hw hs.grounded hle ht).1⟩
    · exact ⟨s, if_neg hw, .refl hs.grounded⟩
  obtain ⟨t, ht⟩ := hse
  simp only [Graph.findCycle, ht]

end Complete

theorem build_acc {p : Pipeline} {g : Graph} (h : build (some p) = .ok g) :
    ∀ id ∈ p.steps.map Step.id, Acc g.DependsOn id := by
  obtain ⟨-, hen, hdep⟩ := build_ok h
  simp only [build] at h
  split at h
  · cases h
  rename_i known hk
  split at h
  · cases h
  split at h
  · cases h
  rename_i hc
  cases h
  obtain ⟨rfl, -, -⟩ := collectIDs_ok nodup_nil hk
  refine fun id hid => acc_of_findCycle (fun x d hd => ?_) hc id (mem_sortStrings.mpr hid)
  obtain ⟨e, he, -, rfl⟩ := (hdep x d).mp hd
  exact mem_sortStrings.mpr (hen e he).2

/-- What passes from the predecessors of a step to the step holds of every step of an accepted
pipeline. -/
theorem build_induction {p : Pipeline} {g : Graph} (h : build (some p) = .ok g)
    {P : String → Prop} (hst : ∀ s ∈ p.steps, (∀ e ∈ p.edges, e.toStep = s.id → P e.fromStep) → P s.id) :
    ∀ s ∈ p.steps, P s.id := by
  obtain ⟨-, hen, hdep⟩ := build_ok h
  have hac := build_acc h
  let Name := { x // x ∈ p.steps.map Step.id }
  let depends : Name → Name → Prop := InvImage g.DependsOn Subtype.val
  have hwf : WellFounded depends :=
    ⟨fun x => InvImage.accessible _ (hac x.1 x.2)⟩
  -- the chains of predecessors are the chains of dependents backwards, over finitely many steps
  let before : Name → Name → Prop := fun a b => Relation.TransGen depends b a
  have hi : Std.Irrefl before := ⟨fun a ha => hwf.transGen.irrefl.irrefl a ha⟩
  have hb : WellFounded before := Finite.wellFounded_of_trans_of_irrefl before
  have hal : ∀ x : Name, P x.1 := by
    intro x
    induction x using hb.induction with
    | _ x ih =>
      obtain ⟨s, hs, hsx⟩ := mem_map.mp x.2
      rw [← hsx]
      refine hst s hs fun e he het => ?_
      refine ih ⟨e.fromStep, (hen e he).1⟩ (.single ?_)
      exact (hdep _ _).mpr ⟨e, he, rfl, het.trans hsx⟩
  exact fun s hs => hal ⟨s.id, mem_map_of_mem hs⟩

/-! ### What a build accepts -/

def Feeds (p : Pipeline) (a b : String) : Prop := ∃ e ∈ p.edges, e.fromStep = a ∧ e.toStep = b

def Acyclic (p : Pipeline) : Prop := ∀ id, ¬ Relation.TransGen (Feeds p) id id

variable {p : Pipeline}

theorem build_acyclic {g : Graph} (h : build (some p) = .ok g) : Acyclic p := by
  obtain ⟨-, hen, hdep⟩ := build_ok h
  have ha := build_acc h
  intro id hc
  obtain ⟨b, ⟨e, he, rfl, -⟩, -⟩ := Relation.TransGen.head'_iff.mp hc
  have hb : Relation.TransGen g.DependsOn e.fromStep e.fromStep := by
    refine Relation.TransGen.swap _ _ (Relation.TransGen.mono (fun a b hab => ?_) _ _ hc)
    exact (hdep a b).mpr hab
  have hs := (ha _ (hen e he).1).transGen
  generalize e.fromStep = x at hs hb
  induction hs with
  | intro x _ ih => exact ih x hb hb

theorem collectIDs_isOk {ε : Type} {empty : ε} {duplicate : String → ε} {steps : List Step}
    {known : List String} (hn : (known ++ steps.map Step.id).Nodup) (hi : ∀ s ∈ steps, s.id ≠ "") :
    collectIDs empty duplicate steps known = .ok (known ++ steps.map Step.id) := by
  induction steps generalizing known with
  | nil => simp [collectIDs]
  | cons s steps ih =>
    have hne : s.id ∉ known := fun hm =>
      (nodup_append.mp hn).2.2 _ hm _ (by simp) rfl
    have hr : ((known ++ [s.id]) ++ steps.map Step.id).Nodup := by simpa using hn
    rw [collectIDs, if_neg (hi s mem_cons_self), if_neg hne,
      ih hr fun s hs => hi s (mem_cons_of_mem _ hs)]
    simp

theorem collectEdges_isOk {known : List String} {edges : List Edge}
    (he : ∀ e ∈ edges, e.fromStep ∈ known ∧ e.toStep ∈ known) (seen : List (String × String)) :
    ∃ pairs, collectEdges known edges seen = .ok pairs := by
  induction edges generalizing seen with
  | nil => exact ⟨seen, rfl⟩
  | cons e edges ih =>
    obtain ⟨⟨hf, hto⟩, hr⟩ := forall_mem_cons.mp he
    rw [collectEdges, if_neg (not_not.mpr hf), if_neg (not_not.mpr hto)]
    split
    · exact ih hr _
    · exact ih hr _

/-- A pipeline is accepted exactly if its step ids are distinct and not empty, its edges
connect steps it has, and they form no cycle. -/
theorem build_isOk_iff : (∃ g, build (some p) = .ok g) ↔
    ((p.steps.map Step.id).Nodup ∧ ∀ s ∈ p.steps, s.id ≠ "") ∧
    (∀ e ∈ p.edges, e.fromStep ∈ p.steps.map Step.id ∧ e.toStep ∈ p.steps.map Step.id) ∧
    Acyclic p := by
  constructor
  · rintro ⟨g, hg⟩
    obtain ⟨hi, hen, -⟩ := build_ok hg
    exact ⟨hi, hen, build_acyclic hg⟩
  · rintro ⟨⟨hn, hi⟩, hen, hacyclic⟩
    have hs : collectSteps p.id p.steps [] = .ok (p.steps.map Step.id) :=
      collectIDs_isOk hn hi
    obtain ⟨pa, hp⟩ := collectEdges_isOk hen []
    obtain ⟨hm, -⟩ := collectEdges_ok hp
    have hdep (a b : String) :
        b ∈ (Graph.ofPairs (p.steps.map Step.id) pa).dependents a ↔ Feeds p a b := by
      simp only [Graph.ofPairs, mem_sortStrings, mem_map, mem_filter, decide_eq_true_eq,
        Prod.exists, exists_eq_right, hm, not_mem_nil, false_or, Feeds]
    have hc : (Graph.ofPairs (p.steps.map Step.id) pa).findCycle = none := by
      refine findCycle_eq_none (fun x d hd => ?_) fun x hx => ?_
      · obtain ⟨e, he, -, rfl⟩ := (hdep x d).mp hd
        exact mem_sortStrings.mpr (hen e he).2
      · exact hacyclic x (Relation.TransGen.mono (fun a b hab => (hdep a b).mp hab) _ _ hx)
    refine ⟨Graph.ofPairs (p.steps.map Step.id) pa, ?_⟩
    simp only [build, hs, hp, hc]

end Dhole.Dag
