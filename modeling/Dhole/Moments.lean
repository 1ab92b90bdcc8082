import Dhole.Interleave

/-! Histories read by position. The act at position `n` finds the world as the first `n`
acts left it, so the order of two acts is the order of two numbers, and what an actor had
seen by then is its part of the first `n`. -/

namespace Dhole.Interleave

open List

variable {S : Sig} {w : World S} {G : ℕ → List (Event S) → Event S → Prop}
  {tr : List (Act S)} {a : Act S} {n m : ℕ}

theorem eq_take_append (hn : tr[n]? = some a) : tr = tr.take n ++ a :: tr.drop (n + 1) := by
  obtain ⟨hlt, rfl⟩ := List.getElem?_eq_some_iff.mp hn
  rw [getElem_cons_drop, take_append_drop]

theorem take_succ_of_get (hn : tr[n]? = some a) : tr.take (n + 1) = tr.take n ++ [a] := by
  rw [take_add_one, hn]
  rfl

theorem get_take (hnm : n < m) : (tr.take m)[n]? = tr[n]? :=
  getElem?_take_of_lt hnm

theorem Guarded.take (h : Guarded w G tr) (n : ℕ) : Guarded w G (tr.take n) := by
  rw [← take_append_drop n tr] at h
  exact h.of_append

theorem Guarded.at_get (h : Guarded w G tr) (hn : tr[n]? = some a) :
    w.Answers (w.state (tr.take n)) a.event ∧ G a.actor (own a.actor (tr.take n)) a.event := by
  rw [eq_take_append hn] at h
  exact h.at_split

theorem state_take_succ (hn : tr[n]? = some a) :
    w.state (tr.take (n + 1)) = w.next (w.state (tr.take n)) a.event := by
  rw [take_succ_of_get hn, World.state_snoc]

theorem Guarded.ordered {R : w.State → w.State → Prop} (hr : ∀ s, R s s)
    (ht : ∀ s t u, R s t → R t u → R s u)
    (hs : ∀ i h s e, w.Answers s e → G i h e → R s (w.next s e)) (h : Guarded w G tr)
    (hnm : n ≤ m) : R (w.state (tr.take n)) (w.state (tr.take m)) := by
  induction m, hnm using Nat.le_induction with
  | base => exact hr _
  | succ m hnm ih =>
    cases hm : tr[m]? with
    | none =>
      have hl := List.getElem?_eq_none_iff.mp hm
      rw [take_of_length_le hl] at ih
      rwa [take_of_length_le (hl.trans m.le_succ)]
    | some a =>
      rw [state_take_succ hm]
      exact ht _ _ _ ih (hs _ _ _ _ (h.at_get hm).1 (h.at_get hm).2)

variable {I : w.State → Prop}

theorem state_take_keeps (hnm : n ≤ m) (hn : I (w.state (tr.take n)))
    (hs : ∀ k a, n ≤ k → k < m → tr[k]? = some a → I (w.state (tr.take k)) →
      I (w.next (w.state (tr.take k)) a.event)) : I (w.state (tr.take m)) := by
  induction m, hnm using Nat.le_induction with
  | base => exact hn
  | succ m hnm ih =>
    have hm := ih fun k a hk hkm => hs k a hk (hkm.trans m.lt_succ_self)
    cases ha : tr[m]? with
    | none =>
      have hl := List.getElem?_eq_none_iff.mp ha
      rw [take_of_length_le hl] at hm
      rwa [take_of_length_le (hl.trans m.le_succ)]
    | some a =>
      rw [state_take_succ ha]
      exact hs m a hnm m.lt_succ_self ha hm

/-! ### What an actor had seen -/

variable {i : ℕ} {e : Event S} {h₀ h₁ : List (Event S)}

theorem own_cons_self (e : Event S) (tr : List (Act S)) : own i (⟨i, e⟩ :: tr) = e :: own i tr := by
  simp [own]

theorem own_cons_of_ne {j : ℕ} (hj : j ≠ i) (e : Event S) (tr : List (Act S)) :
    own i (⟨j, e⟩ :: tr) = own i tr := by
  simp [own, hj]

theorem own_split (ho : own i tr = h₀ ++ e :: h₁) :
    ∃ n, tr[n]? = some ⟨i, e⟩ ∧ own i (tr.take n) = h₀ ∧ own i (tr.drop (n + 1)) = h₁ := by
  induction tr generalizing h₀ with
  | nil => simp at ho
  | cons a tr ih =>
    obtain ⟨j, d⟩ := a
    by_cases hj : j = i
    · subst hj
      rw [own_cons_self] at ho
      rcases h₀ with _ | ⟨d₀, h₀⟩
      · obtain ⟨rfl, rfl⟩ := cons.inj ho
        exact ⟨0, rfl, rfl, rfl⟩
      · obtain ⟨rfl, hr⟩ := cons.inj ho
        obtain ⟨n, hn, hpr, hp⟩ := ih hr
        refine ⟨n + 1, hn, ?_, hp⟩
        rw [take_succ_cons, own_cons_self, hpr]
    · rw [own_cons_of_ne hj] at ho
      obtain ⟨n, hn, hpr, hp⟩ := ih ho
      refine ⟨n + 1, hn, ?_, hp⟩
      rw [take_succ_cons, own_cons_of_ne hj, hpr]

theorem exists_split_of_own (ho : own i tr = h₀ ++ e :: h₁) :
    ∃ us vs, tr = us ++ ⟨i, e⟩ :: vs ∧ own i us = h₀ ∧ own i vs = h₁ := by
  obtain ⟨n, hn, hpr, hp⟩ := own_split ho
  exact ⟨tr.take n, tr.drop (n + 1), eq_take_append hn, hpr, hp⟩

theorem mem_own_of_get (hn : tr[n]? = some ⟨i, e⟩) : e ∈ own i tr := by
  have hm := mem_of_getElem? hn
  exact mem_map.mpr ⟨⟨i, e⟩, mem_filter.mpr ⟨hm, by simp⟩, rfl⟩

theorem get_of_mem_own (he : e ∈ own i tr) : ∃ n : ℕ, tr[n]? = some ⟨i, e⟩ := by
  obtain ⟨n, hn⟩ := mem_iff_getElem?.mp (mem_of_mem_own he)
  exact ⟨n, hn⟩

theorem get_of_mem_own_take (he : e ∈ own i (tr.take m)) : ∃ n < m, tr[n]? = some ⟨i, e⟩ := by
  obtain ⟨n, hn⟩ := get_of_mem_own he
  have hlt : n < m := by
    have := (List.getElem?_eq_some_iff.mp hn).1
    rw [length_take] at this
    omega
  exact ⟨n, hlt, by rwa [get_take hlt] at hn⟩

theorem own_take_split (ho : own i (tr.take m) = h₀ ++ e :: h₁) :
    ∃ n < m, tr[n]? = some ⟨i, e⟩ ∧ own i (tr.take n) = h₀ ∧
      (∀ k d, n < k → k < m → tr[k]? = some ⟨i, d⟩ → d ∈ h₁) ∧
      ∀ d ∈ h₁, ∃ k, n < k ∧ k < m ∧ tr[k]? = some ⟨i, d⟩ := by
  obtain ⟨n, hn, hpr, hp⟩ := own_split ho
  have hlt : n < m := by
    have := (List.getElem?_eq_some_iff.mp hn).1
    rw [length_take] at this
    omega
  have hg : ∀ k d, ((tr.take m).drop (n + 1))[k]? = some (⟨i, d⟩ : Act S) ↔
      n + 1 + k < m ∧ tr[n + 1 + k]? = some ⟨i, d⟩ := by
    intro k d
    rw [getElem?_drop]
    by_cases hk : n + 1 + k < m
    · simp [hk]
    · simp [hk]
  refine ⟨n, hlt, by rwa [get_take hlt] at hn, ?_, ?_, ?_⟩
  · rwa [take_take, min_eq_left hlt.le] at hpr
  · intro k d hnk hkm hk
    rw [← hp]
    refine mem_own_of_get (n := k - (n + 1)) ((hg _ d).mpr ?_)
    rw [show n + 1 + (k - (n + 1)) = k by omega]
    exact ⟨hkm, hk⟩
  · intro d hd
    rw [← hp] at hd
    obtain ⟨k, hk⟩ := get_of_mem_own hd
    obtain ⟨hkm, hk⟩ := (hg k d).mp hk
    exact ⟨n + 1 + k, by omega, hkm, hk⟩

/-! ### A program that runs alone -/

def World.AnswersAll (w : World S) : w.State → List (Event S) → Prop
  | _, [] => True
  | s, e :: h => w.Answers s e ∧ w.AnswersAll (w.next s e) h

def World.after (w : World S) (s : w.State) (h : List (Event S)) : w.State := h.foldl w.next s

/-- A run of one program from a state on, with nobody else calling. -/
def Alone {α : Type} (w : World S) (s : w.State) (p : Prog S α) (h : List (Event S)) : Prop :=
  (∃ q, Prog.Steps p h q) ∧ w.AnswersAll s h

variable {s : w.State} {h g : List (Event S)}

theorem World.answersAll_append :
    w.AnswersAll s (h ++ g) ↔ w.AnswersAll s h ∧ w.AnswersAll (w.after s h) g := by
  induction h generalizing s with
  | nil => simp [World.AnswersAll, World.after]
  | cons e h ih =>
    simp only [cons_append, World.AnswersAll, ih, and_assoc]
    rfl

theorem World.after_append (s : w.State) (h g : List (Event S)) :
    w.after s (h ++ g) = w.after (w.after s h) g := foldl_append

theorem World.after_snoc (s : w.State) (h : List (Event S)) (e : Event S) :
    w.after s (h ++ [e]) = w.next (w.after s h) e := by
  rw [World.after_append]
  rfl

variable {α : Type} {p : Prog S α}

theorem Alone.of_append (ha : Alone w s p (h ++ g)) : Alone w s p h := by
  obtain ⟨⟨q, hs⟩, han⟩ := ha
  exact ⟨hs.of_append, (World.answersAll_append.mp han).1⟩

theorem Alone.at_split {e : Event S} {F : List (Event S) → Event S → Prop}
    {Q : List (Event S) → α → Prop} (hF : wp F p Q []) (ha : Alone w s p (h ++ e :: g)) :
    F h e ∧ w.Answers (w.after s h) e := by
  rw [append_cons] at ha
  obtain ⟨⟨q, hs⟩, han⟩ := ha.of_append
  exact ⟨by simpa using wp_guard hF hs, (World.answersAll_append.mp han).2.1⟩

theorem World.after_keeps (hs : I s)
    (hst : ∀ h₀ e h₁, h = h₀ ++ e :: h₁ → I (w.after s h₀) → I (w.next (w.after s h₀) e)) :
    I (w.after s h) := by
  induction h using reverseRecOn with
  | nil => exact hs
  | append_singleton h e ih =>
    rw [World.after_snoc]
    refine hst h e [] rfl (ih fun h₀ e₀ h₁ heq => hst h₀ e₀ (h₁ ++ [e]) ?_)
    rw [heq]
    simp

/-- The first calls of a program that runs alone, with the answers of a resolver. -/
def World.solo {α : Type} (w : World S) (resolve : w.State → (op : S.Op) → S.Res op) :
    ℕ → w.State → Prog S α → List (Event S)
  | 0, _, _ => []
  | _ + 1, _, .ret _ => []
  | n + 1, s, .call op k =>
    ⟨op, resolve s op⟩ :: w.solo resolve n (w.next s ⟨op, resolve s op⟩) (k (resolve s op))

variable {res : w.State → (op : S.Op) → S.Res op}

theorem World.solo_alone (hr : ∀ s op, w.Answers s ⟨op, res s op⟩) (n : ℕ) (s : w.State)
    (p : Prog S α) : Alone w s p (w.solo res n s p) := by
  induction n generalizing s p with
  | zero => exact ⟨⟨p, .nil p⟩, trivial⟩
  | succ n ih =>
    cases p with
    | ret a => exact ⟨⟨.ret a, .nil _⟩, trivial⟩
    | call op k =>
      obtain ⟨⟨q, hs⟩, ha⟩ := ih (w.next s ⟨op, res s op⟩) (k (res s op))
      exact ⟨⟨q, .cons hs⟩, hr s op, ha⟩

def World.soloRest {α : Type} (w : World S) (resolve : w.State → (op : S.Op) → S.Res op) :
    ℕ → w.State → Prog S α → Prog S α
  | 0, _, p => p
  | _ + 1, _, .ret a => .ret a
  | n + 1, s, .call op k =>
    w.soloRest resolve n (w.next s ⟨op, resolve s op⟩) (k (resolve s op))

theorem World.solo_steps (res : w.State → (op : S.Op) → S.Res op) (n : ℕ) (s : w.State)
    (p : Prog S α) : Prog.Steps p (w.solo res n s p) (w.soloRest res n s p) := by
  induction n generalizing s p with
  | zero => exact .nil p
  | succ n ih =>
    cases p with
    | ret a => exact .nil _
    | call op k => exact .cons (ih _ _)

theorem World.solo_events {P : Event S → Prop} (hr : ∀ s op, P ⟨op, res s op⟩) (n : ℕ)
    (s : w.State) (p : Prog S α) : ∀ e ∈ w.solo res n s p, P e := by
  induction n generalizing s p with
  | zero => exact fun _ he => absurd he not_mem_nil
  | succ n ih =>
    cases p with
    | ret a => exact fun _ he => absurd he not_mem_nil
    | call op k => exact forall_mem_cons.mpr ⟨hr s op, ih _ _⟩

/-- The last part of a history, where only one actor acts, is a run of its program alone. -/
theorem Reach.alone {progs : ℕ → Prog S α} {us vs : List (Act S)} (h : Reach w progs (us ++ vs))
    (hn : own i us = []) (ho : ∀ a ∈ vs, a.actor = i) :
    Alone w (w.state us) (progs i) (vs.map Act.event) := by
  have how : ∀ vs : List (Act S), (∀ a ∈ vs, a.actor = i) → own i vs = vs.map Act.event := by
    intro vs ho
    rw [own, filter_eq_self.mpr fun a ha => by simpa using ho a ha]
  obtain ⟨q, hs⟩ := h.steps i
  rw [own_append, hn, how vs ho] at hs
  refine ⟨⟨q, hs⟩, ?_⟩
  clear hs ho
  induction vs using reverseRecOn with
  | nil => trivial
  | append_singleton vs a ih =>
    rw [← append_assoc] at h
    rw [map_append, World.answersAll_append]
    refine ⟨ih h.of_append, ?_, trivial⟩
    have hst : w.after (w.state us) (vs.map Act.event) = w.state (us ++ vs) := by
      rw [World.after, World.state, World.state, foldl_append, foldl_map]
    rw [hst]
    generalize hv : us ++ vs ++ [a] = v at h
    cases h with
    | nil => simp at hv
    | snoc _ han _ =>
      obtain ⟨rfl, ha⟩ := append_inj' hv rfl
      obtain rfl := singleton_inj.mp ha
      exact han

end Dhole.Interleave
