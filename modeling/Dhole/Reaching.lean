import Mathlib

/-! Collecting along a graph with a memo. Every node has tokens of its own and receives those
of the nodes that feed it, less the tokens a node keeps to itself. The search asks the feeding
nodes in turn and writes down what it has collected for a node before it goes on, so a node
with many dependents is collected once. On a graph without cycles what it finds is what
arrives along some path. -/

namespace Dhole

open Function (update update_of_ne)

/-- Nodes under their keys, the keys of the nodes that feed a node, and the tokens a node has
and those it keeps back. -/
@[ext] structure Net (κ α σ : Type) where
  key : α → κ
  find : κ → Option α
  feeds : κ → List κ
  own : α → Finset σ
  keeps : κ → σ → Bool

namespace Net

variable {κ α σ : Type}

/-! ### Paths -/

def Feeds (N : Net κ α σ) (x y : κ) : Prop := x ∈ N.feeds y ∧ (N.find x).isSome

def Passes (N : Net κ α σ) (s : σ) (x y : κ) : Prop := N.Feeds x y ∧ N.keeps x s = false

/-- There is a path to the node from one that has the token, and no node on the way keeps it. -/
def Arrives (N : Net κ α σ) (s : σ) (k : κ) : Prop :=
  ∃ k₀ a₀, N.find k₀ = some a₀ ∧ s ∈ N.own a₀ ∧ Relation.ReflTransGen (N.Passes s) k₀ k

variable {N : Net κ α σ} {s : σ} {k x : κ} {a : α}

theorem arrives_iff (hf : N.find k = some a) :
    N.Arrives s k ↔ s ∈ N.own a ∨ ∃ x, N.Passes s x k ∧ N.Arrives s x := by
  constructor
  · rintro ⟨k₀, a₀, hk₀, hs, hp⟩
    rcases hp.cases_tail with rfl | ⟨x, hx, hpa⟩
    · obtain rfl := Option.some.inj (hk₀.symm.trans hf)
      exact .inl hs
    · exact .inr ⟨x, hpa, k₀, a₀, hk₀, hs, hx⟩
  · rintro (hs | ⟨x, hpa, k₀, a₀, hk₀, hs, hp⟩)
    · exact ⟨k, a, hf, hs, .refl⟩
    · exact ⟨k₀, a₀, hk₀, hs, hp.tail hpa⟩

/-! ### The memo -/

abbrev Memo (κ σ : Type) := κ → Option (Finset σ)

variable {memo memo' : Memo κ σ} {nodes : List κ}

def Exact (N : Net κ α σ) (tokens : Finset σ) (k : κ) : Prop := ∀ s, s ∈ tokens ↔ N.Arrives s k

/-- A part of the search that is over: it left the entries of the memo and added exact ones. -/
structure Extends (N : Net κ α σ) (memo memo' : Memo κ σ) : Prop where
  kept : ∀ k, memo k ≠ none → memo' k = memo k
  exact : ∀ k tokens, memo' k = some tokens → memo k = some tokens ∨ N.Exact tokens k

theorem Extends.refl (memo : Memo κ σ) : N.Extends memo memo := ⟨fun _ _ => rfl, fun _ _ => .inl⟩

def unvisited (nodes : List κ) (memo : Memo κ σ) : ℕ := nodes.countP fun k => memo k = none

theorem unvisited_mono (h : ∀ k, memo k ≠ none → memo' k ≠ none) :
    unvisited nodes memo' ≤ unvisited nodes memo :=
  List.countP_mono_left fun k _ hk => by
    simp only [decide_eq_true_eq] at hk ⊢
    by_contra hne
    exact h k hne hk

/-! ### The search -/

variable [DecidableEq κ] [DecidableEq σ]

/-- One node that feeds: what it passes on is added to the tokens of the node under `k`. -/
def receive (N : Net κ α σ) (k : κ) (collect : α → Memo κ σ → Finset σ × Memo κ σ)
    (acc : Finset σ × Memo κ σ) (x : κ) : Finset σ × Memo κ σ :=
  match N.find x with
  | none => acc
  | some b =>
    let got := collect b acc.2
    let tokens := acc.1 ∪ got.1.filter fun s => N.keeps x s = false
    (tokens, update got.2 k (some tokens))

/-- The tokens that arrive at a node, and the memo afterwards. A node is in the memo before
the search goes on to those that feed it, so its depth is at most the number of nodes. -/
def reaching (N : Net κ α σ) : ℕ → α → Memo κ σ → Finset σ × Memo κ σ
  | fuel, a, memo =>
    match memo (N.key a) with
    | some got => (got, memo)
    | none =>
      match fuel with
      | 0 => (∅, memo)
      | fuel + 1 => (N.feeds (N.key a)).foldl (N.receive (N.key a) (N.reaching fuel))
          (N.own a, update memo (N.key a) (some (N.own a)))

omit [DecidableEq σ] in
theorem unvisited_update (hk : k ∈ nodes) (hn : memo k = none) (tokens : Finset σ) :
    unvisited nodes (update memo k (some tokens)) < unvisited nodes memo := by
  obtain ⟨before, after, rfl⟩ := List.append_of_mem hk
  have hle (l : List κ) : unvisited l (update memo k (some tokens)) ≤ unvisited l memo :=
    unvisited_mono fun x hx => by
      by_cases hxk : x = k
      · simp [hxk]
      · rwa [update_of_ne hxk]
  have hb := hle before
  have ha := hle after
  simp only [unvisited, List.countP_append, List.countP_cons, hn, Function.update_self,
    decide_true, if_true, reduceCtorEq, decide_false, Bool.false_eq_true, if_false] at *
  omega

/-- The search at the node under `k`, with this much of the feeding nodes done: the memo has
what was collected so far, and apart from that it only grew by exact entries. -/
structure Collected (N : Net κ α σ) (memo : Memo κ σ) (k : κ) (a : α) (done : List κ)
    (acc : Finset σ × Memo κ σ) : Prop where
  current : acc.2 k = some acc.1
  tokens : ∀ s, s ∈ acc.1 ↔
    s ∈ N.own a ∨ ∃ x ∈ done, (N.find x).isSome ∧ N.keeps x s = false ∧ N.Arrives s x
  kept : ∀ y, y ≠ k → memo y ≠ none → acc.2 y = memo y
  exact : ∀ y, y ≠ k → ∀ tokens, acc.2 y = some tokens → memo y = some tokens ∨ N.Exact tokens y

omit [DecidableEq σ] in
theorem Collected.start (memo : Memo κ σ) (k : κ) (a : α) :
    N.Collected memo k a [] (N.own a, update memo k (some (N.own a))) where
  current := by simp
  tokens s := by simp
  kept y hy _ := update_of_ne hy _ _
  exact y hy tokens h := .inl (by simpa only [update_of_ne hy] using h)

variable {done : List κ} {acc : Finset σ × Memo κ σ}

/-- What one feeding node adds, given that asking it is exact. -/
theorem Collected.receive {collect : α → Memo κ σ → Finset σ × Memo κ σ}
    (h : N.Collected memo k a done acc) (hak : ∀ b, N.find x = some b →
      N.Exact (collect b acc.2).1 x ∧ N.Extends acc.2 (collect b acc.2).2) :
    N.Collected memo k a (done ++ [x]) (N.receive k collect acc x) := by
  unfold Net.receive
  split
  · rename_i hx
    refine ⟨h.current, fun s => ?_, h.kept, h.exact⟩
    rw [h.tokens]
    simp [hx, or_and_right, exists_or]
  · rename_i b hx
    obtain ⟨hg, het⟩ := hak b hx
    refine ⟨by simp, fun s => ?_, fun y hy hne => ?_, fun y hy tokens ht => ?_⟩
    · rw [Finset.mem_union, Finset.mem_filter, h.tokens, hg s]
      simp only [List.mem_append, List.mem_singleton, or_and_right, exists_or, exists_eq_left, hx,
        Option.isSome_some, true_and, or_assoc, and_comm]
    · have ha : acc.2 y = memo y := h.kept y hy hne
      simp only [update_of_ne hy]
      rw [het.kept y (ha ▸ hne), ha]
    · simp only [update_of_ne hy] at ht
      rcases het.exact y tokens ht with hold | he
      · exact h.exact y hy tokens hold
      · exact .inr he

omit [DecidableEq κ] [DecidableEq σ] in
theorem Collected.exact_tokens (hf : N.find k = some a)
    (h : N.Collected memo k a (N.feeds k) acc) : N.Exact acc.1 k := by
  intro s
  rw [h.tokens, arrives_iff hf]
  simp only [Passes, Feeds, and_assoc]

omit [DecidableEq σ] in
theorem Collected.extends (hn : memo k = none) (h : N.Collected memo k a done acc)
    (he : N.Exact acc.1 k) : N.Extends memo acc.2 where
  kept y hy := h.kept y (by rintro rfl; exact hy hn) hy
  exact y tokens ht := by
    by_cases hyk : y = k
    · subst hyk
      obtain rfl := Option.some.inj (h.current.symm.trans ht)
      exact .inr he
    · exact h.exact y hyk tokens ht

section Search

variable (hkey : ∀ k a, N.find k = some a → N.key a = k)
  (hacyclic : ∀ k, ¬ Relation.TransGen N.Feeds k k)
  (hnodes : ∀ k, (N.find k).isSome → k ∈ nodes)

include hkey hacyclic hnodes

/-- The search is exact where the entries it meets are. Along the nodes that feed a node, and
those that feed them, it never meets the node itself, whose entry is not yet exact. -/
theorem reaching_exact (fuel : ℕ) (a : α) (memo : Memo κ σ) (hf : N.find (N.key a) = some a)
    (hfu : unvisited nodes memo ≤ fuel)
    (hm : ∀ k tokens, Relation.ReflTransGen N.Feeds k (N.key a) → memo k = some tokens →
      N.Exact tokens k) :
    N.Exact (N.reaching fuel a memo).1 (N.key a) ∧ N.Extends memo (N.reaching fuel a memo).2 := by
  induction fuel generalizing a memo with
  | zero =>
    cases he : memo (N.key a) with
    | some got =>
      simp only [reaching, he]
      exact ⟨hm _ _ .refl he, .refl memo⟩
    | none =>
      have hl := unvisited_update (hnodes _ (by simp [hf])) he (N.own a)
      omega
  | succ fuel ih =>
    cases he : memo (N.key a) with
    | some got =>
      simp only [reaching, he]
      exact ⟨hm _ _ .refl he, .refl memo⟩
    | none =>
      have hl := unvisited_update (hnodes _ (by simp [hf])) he (N.own a)
      have hlo (todo : List κ) : ∀ done acc, done ++ todo = N.feeds (N.key a) →
          N.Collected memo (N.key a) a done acc →
          N.Collected memo (N.key a) a (N.feeds (N.key a))
            (todo.foldl (N.receive (N.key a) (N.reaching fuel)) acc) := by
        induction todo with
        | nil =>
          intro done acc hd h
          rwa [← hd, List.append_nil]
        | cons x todo io =>
          intro done acc hd h
          refine io (done ++ [x]) _ (by simpa using hd) (h.receive fun b hb => ?_)
          have hxb : N.key b = x := hkey x b hb
          have hfe : N.Feeds x (N.key a) :=
            ⟨by simp [← hd], by simp [hb]⟩
          rw [← hxb]
          refine ih b acc.2 (by rw [hxb, hb]) ?_ fun y tokens hp ht => ?_
          · have hle : unvisited nodes acc.2 ≤
                unvisited nodes (update memo (N.key a) (some (N.own a))) :=
              unvisited_mono fun y hy => by
                by_cases hya : y = N.key a
                · rw [hya, h.current]
                  simp
                · rw [update_of_ne hya] at hy
                  rw [h.kept y hya hy]
                  exact hy
            omega
          · rw [hxb] at hp
            have hup : Relation.TransGen N.Feeds y (N.key a) := .tail' hp hfe
            have hya : y ≠ N.key a := by
              rintro rfl
              exact hacyclic _ hup
            rcases h.exact y hya tokens ht with hold | hea
            · exact hm y tokens hup.to_reflTransGen hold
            · exact hea
      have hd := hlo _ [] _ rfl (Collected.start memo (N.key a) a)
      have hea := hd.exact_tokens hf
      simp only [reaching, he]
      exact ⟨hea, hd.extends he hea⟩

theorem mem_reaching_iff (hf : N.find (N.key a) = some a) {fuel : ℕ}
    (hfu : nodes.length ≤ fuel) (s : σ) :
    s ∈ (N.reaching fuel a fun _ => none).1 ↔ N.Arrives s (N.key a) :=
  (reaching_exact hkey hacyclic hnodes fuel a (fun _ => none) hf
    (List.countP_le_length.trans hfu) (fun _ _ _ h => by cases h)).1 s

end Search

/-! ### A node that keeps more back -/

def keepAlso (N : Net κ α σ) (k : κ) (tokens : List σ) : Net κ α σ :=
  { N with keeps := fun x s => N.keeps x s || (decide (x = k) && tokens.contains s) }

def ArrivesAround (N : Net κ α σ) (s : σ) (k y : κ) : Prop :=
  ∃ k₀ a₀, N.find k₀ = some a₀ ∧ s ∈ N.own a₀ ∧
    Relation.ReflTransGen (fun a b => N.Passes s a b ∧ a ≠ k) k₀ y

variable {y : κ} {tokens : List σ}

theorem passes_keepAlso {a b : κ} :
    (N.keepAlso k tokens).Passes s a b ↔ N.Passes s a b ∧ ¬ (a = k ∧ s ∈ tokens) := by
  simp only [Passes, Feeds, keepAlso, Bool.or_eq_false_iff, Bool.and_eq_false_iff,
    decide_eq_false_iff_not, List.contains_eq_mem, not_and_or, and_assoc]

theorem arrives_keepAlso_of_mem (hs : s ∈ tokens) :
    (N.keepAlso k tokens).Arrives s y ↔ N.ArrivesAround s k y := by
  have hp : (N.keepAlso k tokens).Passes s = fun a b => N.Passes s a b ∧ a ≠ k := by
    funext a b
    simp [passes_keepAlso, hs]
  rw [Arrives, hp]
  rfl

theorem arrives_keepAlso_of_not_mem (hs : s ∉ tokens) :
    (N.keepAlso k tokens).Arrives s y ↔ N.Arrives s y := by
  have hp : (N.keepAlso k tokens).Passes s = N.Passes s := by
    funext a b
    simp [passes_keepAlso, hs]
  rw [Arrives, hp]
  rfl

omit [DecidableEq κ] [DecidableEq σ] in
theorem arrivesAround_of_feeds
    (h : N.Arrives s k → N.keeps k s = false → ∀ y, N.Feeds k y → N.ArrivesAround s k y)
    (hy : N.Arrives s y) : N.ArrivesAround s k y := by
  obtain ⟨k₀, a₀, hk₀, hs, hpa⟩ := hy
  induction hpa with
  | refl => exact ⟨k₀, a₀, hk₀, hs, .refl⟩
  | @tail b y hb hp ih =>
    by_cases hbk : b = k
    · subst hbk
      exact h ⟨k₀, a₀, hk₀, hs, hb⟩ hp.2 y hp.1
    · obtain ⟨k₁, a₁, hk₁, hs₁, ha⟩ := ih
      exact ⟨k₁, a₁, hk₁, hs₁, ha.tail ⟨hp, hbk⟩⟩

/-- A node may keep a token back without its dependents losing it exactly when those it feeds
have the token from elsewhere. -/
theorem arrives_keepAlso_iff :
    (∀ y, Relation.TransGen N.Feeds k y → N.Arrives s y → (N.keepAlso k tokens).Arrives s y) ↔
      (s ∈ tokens → N.Arrives s k → N.keeps k s = false →
        ∀ y, N.Feeds k y → N.ArrivesAround s k y) := by
  constructor
  · intro h hs hk hke y hf
    have hy : N.Arrives s y := by
      obtain ⟨k₀, a₀, hk₀, hs₀, hp⟩ := hk
      exact ⟨k₀, a₀, hk₀, hs₀, hp.tail ⟨hf, hke⟩⟩
    exact (arrives_keepAlso_of_mem hs).mp (h y (.single hf) hy)
  · intro h y _ hy
    by_cases hs : s ∈ tokens
    · exact (arrives_keepAlso_of_mem hs).mpr (arrivesAround_of_feeds (h hs) hy)
    · exact (arrives_keepAlso_of_not_mem hs).mpr hy

end Net

end Dhole
