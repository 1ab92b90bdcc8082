import Mathlib

/-! Pipelines that start each other. An edge says that the downstream pipeline starts when the
upstream one finishes, and an edge is refused when the downstream pipeline already leads to the
upstream one. The search goes depth first and enters a pipeline once. -/

namespace Dhole.Completion

open List Relation
open Finset (mem_sdiff mem_insert_self)

/-! ### The search -/

/-- The edges of a tenant in the order they were added, upstream first. -/
abbrev Edges := List (String × String)

def Edges.next (E : Edges) (at_ : String) : List String :=
  (E.filter fun e => e.1 = at_).map Prod.snd

abbrev Found := Option (List String) × Finset String

def scan (goal : String) (walk : String → Finset String → Found) :
    List String → Finset String → Found
  | [], seen => (none, seen)
  | next :: rest, seen =>
    if next = goal then (some [next], seen)
    else match walk next seen with
      | (some path, seen) => (some (next :: path), seen)
      | (none, seen) => scan goal walk rest seen

def walk (E : Edges) (goal : String) : ℕ → String → Finset String → Found
  | 0, _, seen => (none, seen)
  | fuel + 1, at_, seen =>
    if at_ ∈ seen then (none, seen) else scan goal (walk E goal fuel) (E.next at_) (insert at_ seen)

/-- A pipeline that leads on has an edge, so the search is no deeper than there are edges. -/
def reach (E : Edges) (start goal : String) : Option (List String) :=
  if start = goal then some [] else (walk E goal (E.length + 1) start ∅).1

abbrev Registry := String → Edges

/-- A refusal names the path that the edge closes. -/
def add (r : Registry) (tenantID upstream downstream : String) : Except (List String) Registry :=
  match reach (r tenantID) downstream upstream with
  | some path => .error (upstream :: downstream :: path)
  | none => .ok (Function.update r tenantID (r tenantID ++ [(upstream, downstream)]))

/-- Calls for a tenant, an upstream and a downstream pipeline. A refusal changes nothing. -/
def after (calls : List (String × String × String)) : Registry :=
  calls.foldl (fun r (t, u, d) => (add r t u d).toOption.getD r) fun _ => []

/-! ### Paths -/

def Edges.Edge (E : Edges) (x y : String) : Prop := (x, y) ∈ E

def Edges.Acyclic (E : Edges) : Prop := ∀ x, ¬ TransGen E.Edge x x

/-- The path goes along edges from the pipeline to the goal. -/
def Leads (E : Edges) (goal : String) : String → List String → Prop
  | x, [] => x = goal
  | x, y :: path => E.Edge x y ∧ Leads E goal y path

variable {E : Edges} {x y u d start goal : String} {n : ℕ} {seen seen' t : Finset String}
  {path ys : List String}

theorem mem_next : y ∈ E.next x ↔ E.Edge x y := by
  simp [Edges.next, Edges.Edge]

theorem Leads.reflTransGen (h : Leads E goal x path) : ReflTransGen E.Edge x goal := by
  induction path generalizing x with
  | nil => exact h ▸ .refl
  | cons y path ih => exact .head h.1 (ih h.2)

theorem reflTransGen_concat (h : ReflTransGen (Edges.Edge (E ++ [(u, d)])) x y) :
    ReflTransGen E.Edge x y ∨ ReflTransGen E.Edge x u ∧ ReflTransGen E.Edge d y := by
  induction h with
  | refl => exact .inl .refl
  | tail _ he ih =>
    obtain he | ⟨rfl, rfl⟩ : E.Edge _ _ ∨ _ := by simpa [Edges.Edge] using he
    · exact ih.imp (·.tail he) (.imp_right (·.tail he))
    · exact .inr ⟨ih.elim id (·.1), .refl⟩

theorem acyclic_concat_iff (h : E.Acyclic) :
    Edges.Acyclic (E ++ [(u, d)]) ↔ ¬ ReflTransGen E.Edge d u := by
  constructor
  · refine fun ha hr => ha u (.head' (b := d) (by simp [Edges.Edge]) ?_)
    exact hr.lift id fun _ _ => mem_append_left _
  · intro hr x hx
    obtain ⟨z, he, hz⟩ := TransGen.head'_iff.mp hx
    obtain he | ⟨rfl, rfl⟩ : E.Edge x z ∨ x = u ∧ z = d := by simpa [Edges.Edge] using he
    · obtain hz | ⟨hzu, hdx⟩ := reflTransGen_concat hz
      · exact h x (.head' he hz)
      · exact hr (hdx.trans (hzu.head he))
    · exact hr ((reflTransGen_concat hz).elim id (·.1))

/-! ### What the search answers -/

/-- What was entered in between leads to nothing else, and not to the goal. -/
def Settles (E : Edges) (goal : String) (seen seen' : Finset String) : Prop :=
  seen ⊆ seen' ∧ ∀ x ∈ seen', x ∉ seen → ∀ y, E.Edge x y → y ≠ goal ∧ y ∈ seen'

theorem Settles.refl : Settles E goal seen seen := ⟨subset_rfl, fun _ hx hs => absurd hx hs⟩

theorem Settles.trans (h : Settles E goal seen t) (h' : Settles E goal t seen') :
    Settles E goal seen seen' := by
  refine ⟨h.1.trans h'.1, fun x hx hs y he => ?_⟩
  by_cases ht : x ∈ t
  · exact (h.2 x ht hs y he).imp_right (h'.1 ·)
  · exact h'.2 x hx ht y he

/-- A search along these successors of the pipeline that is over. -/
def Over (E : Edges) (goal x : String) (ys : List String) (seen : Finset String) : Found → Prop
  | (some path, _) => Leads E goal x path
  | (none, seen') => Settles E goal seen seen' ∧ ∀ y ∈ ys, y ≠ goal ∧ y ∈ seen'

theorem scan_over {f : String → Finset String → Found}
    (hf : ∀ y ∈ ys, y ≠ goal → ∀ t, seen ⊆ t → Over E goal y [y] t (f y t))
    (hys : ∀ y ∈ ys, E.Edge x y) : Over E goal x ys seen (scan goal f ys seen) := by
  induction ys generalizing seen with
  | nil => exact ⟨.refl, by simp⟩
  | cons y ys ih =>
    obtain ⟨he, hys⟩ := forall_mem_cons.mp hys
    obtain ⟨hy, hf⟩ := forall_mem_cons.mp hf
    rw [scan]
    split_ifs with hg
    · exact ⟨he, hg⟩
    have hr := hy hg seen subset_rfl
    generalize f y seen = r at hr
    obtain ⟨_ | path, t⟩ := r
    · have ho := ih (fun z hz hg u hu => hf z hz hg u (hr.1.1.trans hu)) hys
      dsimp only
      generalize scan goal f ys t = r at ho ⊢
      obtain ⟨_ | path, u⟩ := r
      · exact ⟨hr.1.trans ho.1, forall_mem_cons.mpr ⟨⟨hg, ho.1.1 (hr.2 y mem_cons_self).2⟩, ho.2⟩⟩
      · exact ho
    · exact ⟨he, hr⟩

def unseen (E : Edges) (seen : Finset String) : Finset String := (E.map Prod.fst).toFinset \ seen

theorem card_unseen_lt (he : E.Edge x y) (hx : x ∉ seen) (ht : insert x seen ⊆ t) :
    (unseen E t).card < (unseen E seen).card := by
  have ht' := (Finset.subset_insert ..).trans ht
  refine Finset.card_lt_card ⟨Finset.sdiff_subset_sdiff subset_rfl ht', fun hs => ?_⟩
  have := hs (mem_sdiff.mpr ⟨by simpa using ⟨y, he⟩, hx⟩)
  exact (mem_sdiff.mp this).2 (ht (mem_insert_self ..))

theorem walk_over (hg : x ≠ goal) (hn : (unseen E seen).card < n) :
    Over E goal x [x] seen (walk E goal n x seen) := by
  induction n generalizing x seen with
  | zero => omega
  | succ n ih =>
    rw [walk]
    split_ifs with hx
    · exact ⟨.refl, by simp [hg, hx]⟩
    have ho := scan_over (fun y hy hg t ht => ih hg
      ((card_unseen_lt (mem_next.mp hy) hx ht).trans_le (by omega))) fun y => mem_next.mp
    generalize scan goal _ _ _ = r at ho ⊢
    obtain ⟨_ | path, t⟩ := r
    · obtain ⟨⟨hs, ht⟩, hys⟩ := ho
      have hxt := hs (mem_insert_self ..)
      refine ⟨⟨(Finset.subset_insert ..).trans hs, fun z hz hzs y he => ?_⟩, by simp [hg, hxt]⟩
      by_cases hzx : z = x
      · exact hys y (mem_next.mpr (hzx ▸ he))
      · exact ht z hz (by simp [hzx, hzs]) y he
    · exact ho

theorem reach_cases (E : Edges) (start goal : String) :
    (∃ path, reach E start goal = some path ∧ Leads E goal start path) ∨
    reach E start goal = none ∧ ¬ ReflTransGen E.Edge start goal := by
  unfold reach
  split_ifs with hg
  · exact .inl ⟨[], rfl, hg⟩
  have hc : (unseen E ∅).card < E.length + 1 := by
    simpa [unseen] using toFinset_card_le (E.map Prod.fst)
  have ho := walk_over hg hc
  generalize walk E goal _ _ _ = r at ho
  obtain ⟨_ | path, t⟩ := r
  · refine .inr ⟨rfl, fun hr => ?_⟩
    obtain ⟨⟨-, ht⟩, hs⟩ := ho
    -- whatever the start leads to was entered, and none of it is the goal
    have hin : ∀ z, ReflTransGen E.Edge start z → z ≠ goal ∧ z ∈ t := fun z hz => by
      induction hz with
      | refl => exact hs start mem_cons_self
      | tail _ he ih => exact ht _ ih.2 (by simp) _ he
    exact (hin goal hr).1 rfl
  · exact .inl ⟨path, rfl, ho⟩

/-! ### The registry -/

theorem after_concat (calls : List (String × String × String)) (t u d t' : String) :
    after (calls ++ [(t, u, d)]) t' =
      if t' = t ∧ (add (after calls) t u d).isOk then after calls t' ++ [(u, d)]
      else after calls t' := by
  rw [after, foldl_concat, ← after]
  unfold add
  cases h : reach (after calls t) d u with
  | some path => simp [h, Except.toOption, Except.toBool]
  | none =>
    by_cases ht : t' = t
    · subst ht
      simp [h, Except.toOption, Except.toBool]
    · simp [h, Except.toOption, ht]

theorem isOk_add_iff (r : Registry) (t u d : String) :
    (add r t u d).isOk ↔ ¬ ReflTransGen (r t).Edge d u := by
  unfold add
  obtain ⟨path, h, hl⟩ | ⟨h, hr⟩ := reach_cases (r t) d u
  · simp [h, hl.reflTransGen, Except.toBool]
  · simp [h, hr, Except.toBool]

theorem acyclic_after (calls : List (String × String × String)) (t : String) :
    (after calls t).Acyclic := by
  induction calls using reverseRecOn generalizing t with
  | nil =>
    intro x hx
    obtain ⟨z, he, -⟩ := TransGen.head'_iff.mp hx
    simp [after, Edges.Edge] at he
  | append_singleton calls c ih =>
    obtain ⟨t', u, d⟩ := c
    rw [after_concat]
    split_ifs with h
    · obtain ⟨rfl, ha⟩ := h
      exact (acyclic_concat_iff (ih t)).mpr ((isOk_add_iff _ t u d).mp ha)
    · exact ih t

/-- After any calls no tenant has a cycle; an edge is refused exactly when it would close one; an
accepted call leaves the edges there were and its own, a refused one those there were; and the
refusal names a way along edges from its end back to its start. -/
theorem completion_acyclic (calls : List (String × String × String)) (t u d : String) :
    (after calls t).Acyclic ∧
    ((add (after calls) t u d).isOk ↔ Edges.Acyclic (after calls t ++ [(u, d)])) ∧
    (∀ t', after (calls ++ [(t, u, d)]) t' =
      if t' = t ∧ (add (after calls) t u d).isOk then after calls t' ++ [(u, d)]
      else after calls t') ∧
    ∀ path, add (after calls) t u d = .error path →
      ∃ rest, path = u :: d :: rest ∧ Leads (after calls t) u d rest := by
  have ha := acyclic_after calls t
  refine ⟨ha, ?_, after_concat calls t u d, fun path hp => ?_⟩
  · rw [acyclic_concat_iff ha, isOk_add_iff]
  · unfold add at hp
    obtain ⟨rest, h, hl⟩ | ⟨h, -⟩ := reach_cases (after calls t) d u
    · rw [h] at hp
      cases hp
      exact ⟨rest, rfl, hl⟩
    · rw [h] at hp
      cases hp

end Dhole.Completion
