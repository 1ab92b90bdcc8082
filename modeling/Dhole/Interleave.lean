import Mathlib

/-! Programs that call a shared world, and the histories of many of them running at
once. A program is a tree of calls; each call is one atomic step of the world, and
between two calls of a program any number of calls of others may fall. A history is
the list of all calls with their answers, in the order they took effect, so what one
program has seen is the sublist of its own calls. `wp` proves, for one program read on
its own, that every call it makes is justified by what it has seen before; `Guarded`
is what is left of the programs then, and invariants are proved by induction on it. -/

namespace Dhole.Interleave

open List

structure Sig where
  Op : Type
  Res : Op → Type

structure Event (S : Sig) where
  op : S.Op
  res : S.Res op

inductive Prog (S : Sig) (α : Type) where
  | ret (a : α)
  | call (op : S.Op) (k : S.Res op → Prog S α)

variable {S : Sig} {α β : Type}

namespace Prog

def bind : Prog S α → (α → Prog S β) → Prog S β
  | ret a, f => f a
  | call op k, f => call op fun r => (k r).bind f

instance : Monad (Prog S) where
  pure := ret
  bind := bind

def perform (op : S.Op) : Prog S (S.Res op) := call op ret

@[simp] theorem pure_eq (a : α) : (pure a : Prog S α) = ret a := rfl

@[simp] theorem ret_bind (a : α) (f : α → Prog S β) : (ret a >>= f) = f a := rfl

@[simp] theorem call_bind (op : S.Op) (k : S.Res op → Prog S α) (f : α → Prog S β) :
    (call op k >>= f) = call op fun r => k r >>= f := rfl

@[simp] theorem perform_bind (op : S.Op) (f : S.Res op → Prog S β) :
    (perform op >>= f) = call op f := rfl

@[simp] theorem map_eq (f : α → β) (p : Prog S α) : f <$> p = p >>= fun a => ret (f a) := rfl

/-- The program makes these calls, gets these answers, and is then at the last program. -/
inductive Steps : Prog S α → List (Event S) → Prog S α → Prop
  | nil (p : Prog S α) : Steps p [] p
  | cons {op : S.Op} {k : S.Res op → Prog S α} {r : S.Res op} {h : List (Event S)} {q : Prog S α} :
      Steps (k r) h q → Steps (call op k) (⟨op, r⟩ :: h) q

def Returns (p : Prog S α) (h : List (Event S)) (a : α) : Prop := Steps p h (ret a)

variable {p q : Prog S α} {h g : List (Event S)}

theorem Steps.append {r : Prog S α} (hp : Steps p h q) (hq : Steps q g r) : Steps p (h ++ g) r := by
  induction hp with
  | nil p => exact hq
  | cons _ ih => exact .cons (ih hq)

theorem Steps.of_append (hs : Steps p (h ++ g) q) : ∃ m, Steps p h m := by
  induction h generalizing p with
  | nil => exact ⟨p, .nil p⟩
  | cons e h ih =>
    cases hs with
    | cons hs =>
      obtain ⟨m, hm⟩ := ih hs
      exact ⟨m, .cons hm⟩

theorem Steps.snoc {p : Prog S α} {op : S.Op} {k : S.Res op → Prog S α} {h : List (Event S)}
    (hp : Steps p h (call op k)) (r : S.Res op) : Steps p (h ++ [⟨op, r⟩]) (k r) :=
  hp.append (.cons (.nil _))

end Prog

open Prog

/-! ### Reasoning about one program -/

/-- Every call the program makes after having seen `h` satisfies `G`, whatever it is
answered, and when it returns `Q` holds. -/
def wp (G : List (Event S) → Event S → Prop) :
    Prog S α → (List (Event S) → α → Prop) → List (Event S) → Prop
  | ret a, Q, h => Q h a
  | call op k, Q, h => ∀ r : S.Res op, G h ⟨op, r⟩ ∧ wp G (k r) Q (h ++ [⟨op, r⟩])

variable {G : List (Event S) → Event S → Prop} {Q R : List (Event S) → α → Prop}
  {h g : List (Event S)} {p : Prog S α}

@[simp] theorem wp_ret (a : α) : wp G (ret a) Q h = Q h a := rfl

@[simp] theorem wp_call (op : S.Op) (k : S.Res op → Prog S α) : wp G (call op k) Q h =
      ∀ r : S.Res op, G h ⟨op, r⟩ ∧ wp G (k r) Q (h ++ [⟨op, r⟩]) := rfl

theorem wp_mono (hp : wp G p Q h) (hQ : ∀ g a, Q (h ++ g) a → R (h ++ g) a) : wp G p R h := by
  induction p generalizing h with
  | ret a => simpa using hQ [] a (by simpa using hp)
  | call op k ih =>
    intro r
    refine ⟨(hp r).1, ih r (hp r).2 fun g a hq => ?_⟩
    rw [append_assoc] at hq ⊢
    exact hQ _ a hq

theorem wp_bind {f : α → Prog S β} {Q : List (Event S) → β → Prop} :
    wp G (p >>= f) Q h ↔ wp G p (fun g a => wp G (f a) Q g) h := by
  induction p generalizing h with
  | ret a => rfl
  | call op k ih => exact forall_congr' fun r => and_congr_right fun _ => ih r

variable {q : Prog S α}

theorem wp_steps (hp : wp G p Q h) (hs : Steps p g q) : wp G q Q (h ++ g) := by
  induction hs generalizing h with
  | nil p => simpa using hp
  | @cons op k r g q _ ih => simpa using ih (hp r).2

theorem wp_guard {e : Event S} (hp : wp G p Q h) (hs : Steps p (g ++ [e]) q) : G (h ++ g) e := by
  induction g generalizing h p with
  | nil =>
    cases hs with
    | cons _ => simpa using (hp _).1
  | cons d g ih =>
    cases hs with
    | cons hs => simpa using ih (hp _).2 hs

theorem wp_returns {a : α} (hp : wp G p Q h) (hs : Returns p g a) : Q (h ++ g) a :=
  wp_steps hp hs

/-! ### Histories -/

structure Act (S : Sig) where
  actor : ℕ
  event : Event S

def own (i : ℕ) (tr : List (Act S)) : List (Event S) :=
  (tr.filter fun a => a.actor = i).map Act.event

@[simp] theorem own_nil (i : ℕ) : own i ([] : List (Act S)) = [] := rfl

theorem own_append (i : ℕ) (tr us : List (Act S)) : own i (tr ++ us) = own i tr ++ own i us := by
  simp [own]

variable {i : ℕ}

@[simp] theorem own_snoc_self (i : ℕ) (tr : List (Act S)) (e : Event S) :
    own i (tr ++ [⟨i, e⟩]) = own i tr ++ [e] := by
  simp [own]

theorem own_snoc_of_ne {j : ℕ} (h : i ≠ j) (tr : List (Act S)) (e : Event S) :
    own j (tr ++ [⟨i, e⟩]) = own j tr := by
  simp [own, h]

theorem mem_of_mem_own {tr : List (Act S)} {e : Event S} (h : e ∈ own i tr) : ⟨i, e⟩ ∈ tr := by
  obtain ⟨⟨j, d⟩, ha, rfl⟩ := mem_map.mp h
  obtain ⟨hm, hj⟩ := mem_filter.mp ha
  obtain rfl : j = i := by simpa using hj
  exact hm

theorem mem_own_of_mem {tr : List (Act S)} {e : Event S} (h : ⟨i, e⟩ ∈ tr) : e ∈ own i tr :=
  mem_map.mpr ⟨_, mem_filter.mpr ⟨h, by simp⟩, rfl⟩

/-- The shared world: how it may answer a call and what the call leaves behind. -/
structure World (S : Sig) where
  State : Type
  init : State
  Answers : State → Event S → Prop
  next : State → Event S → State

def World.state (w : World S) (tr : List (Act S)) : w.State :=
  tr.foldl (fun s a => w.next s a.event) w.init

theorem answers_ite {A : Event S → Prop} (op : S.Op) {P : Prop} [Decidable P] {r r' : S.Res op}
    (h : P → A ⟨op, r⟩) (h' : ¬ P → A ⟨op, r'⟩) : A ⟨op, if P then r else r'⟩ := by
  split
  · exact h ‹_›
  · exact h' ‹_›

@[simp] theorem World.state_nil (w : World S) : w.state [] = w.init := rfl

@[simp] theorem World.state_snoc (w : World S) (tr : List (Act S)) (a : Act S) :
    w.state (tr ++ [a]) = w.next (w.state tr) a.event := by
  simp [World.state]

/-- The histories of a world on which actor `i` runs the program `progs i`. -/
inductive Reach (w : World S) (progs : ℕ → Prog S α) : List (Act S) → Prop
  | nil : Reach w progs []
  | snoc {tr : List (Act S)} {i : ℕ} {e : Event S} {q : Prog S α} :
      Reach w progs tr → w.Answers (w.state tr) e → Steps (progs i) (own i tr ++ [e]) q →
      Reach w progs (tr ++ [⟨i, e⟩])

/-- The histories in which every call is answered by the world and justified by what
its actor has seen. -/
inductive Guarded (w : World S) (G : ℕ → List (Event S) → Event S → Prop) :
    List (Act S) → Prop
  | nil : Guarded w G []
  | snoc {tr : List (Act S)} {i : ℕ} {e : Event S} :
      Guarded w G tr → w.Answers (w.state tr) e → G i (own i tr) e → Guarded w G (tr ++ [⟨i, e⟩])

variable {w : World S} {progs : ℕ → Prog S α} {G : ℕ → List (Event S) → Event S → Prop}
  {tr us : List (Act S)}

theorem Reach.guarded {Q : ℕ → List (Event S) → α → Prop}
    (hG : ∀ i, wp (G i) (progs i) (Q i) []) (h : Reach w progs tr) : Guarded w G tr := by
  induction h with
  | nil => exact .nil
  | snoc _ ha hs ih => exact .snoc ih ha (by simpa using wp_guard (hG _) hs)

theorem Guarded.mono {G' : ℕ → List (Event S) → Event S → Prop}
    (hG : ∀ i h e, G i h e → G' i h e) (h : Guarded w G tr) : Guarded w G' tr := by
  induction h with
  | nil => exact .nil
  | snoc _ ha hg ih => exact .snoc ih ha (hG _ _ _ hg)

theorem Reach.steps (h : Reach w progs tr) (i : ℕ) : ∃ q, Steps (progs i) (own i tr) q := by
  induction h with
  | nil => exact ⟨_, .nil _⟩
  | @snoc tr j e q _ _ hs ih =>
    by_cases hj : j = i
    · subst hj
      exact ⟨q, by simpa using hs⟩
    · rwa [own_snoc_of_ne hj]

theorem Reach.of_append (h : Reach w progs (tr ++ us)) : Reach w progs tr := by
  induction us using reverseRecOn with
  | nil => simpa using h
  | append_singleton us a ih =>
    rw [← append_assoc] at h
    generalize hv : tr ++ us ++ [a] = v at h
    cases h with
    | nil => simp at hv
    | snoc h' _ _ =>
      obtain ⟨rfl, -⟩ := append_inj' hv rfl
      exact ih h'

theorem Guarded.of_append (h : Guarded w G (tr ++ us)) : Guarded w G tr := by
  induction us using reverseRecOn with
  | nil => simpa using h
  | append_singleton us a ih =>
    rw [← append_assoc] at h
    generalize hv : tr ++ us ++ [a] = v at h
    cases h with
    | nil => simp at hv
    | snoc h' _ _ =>
      obtain ⟨rfl, -⟩ := append_inj' hv rfl
      exact ih h'

theorem Guarded.at_split {a : Act S} (h : Guarded w G (tr ++ a :: us)) :
    w.Answers (w.state tr) a.event ∧ G a.actor (own a.actor tr) a.event := by
  have hp : Guarded w G (tr ++ [a]) := by
    rw [append_cons] at h
    exact h.of_append
  generalize hv : tr ++ [a] = v at hp
  cases hp with
  | nil => simp at hv
  | @snoc _ i e _ han hG =>
    obtain ⟨rfl, ha⟩ := append_inj' hv rfl
    obtain rfl : a = ⟨i, e⟩ := by simpa using ha
    exact ⟨han, hG⟩

theorem Guarded.last {a : Act S} (h : Guarded w G (tr ++ [a])) :
    w.Answers (w.state tr) a.event ∧ G a.actor (own a.actor tr) a.event :=
  h.at_split

/-! ### Conditions on every step -/

/-- Every act of the history meets a condition on what came before it. -/
def Throughout (P : List (Act S) → Act S → Prop) (tr : List (Act S)) : Prop :=
  ∀ us a vs, tr = us ++ a :: vs → P us a

variable {P : List (Act S) → Act S → Prop} {a : Act S}

theorem Throughout.of_append (h : Throughout P (tr ++ us)) : Throughout P tr := by
  rintro vs a ws rfl
  exact h vs a (ws ++ us) (by simp)

theorem Throughout.last (h : Throughout P (tr ++ [a])) : P tr a := h tr a [] rfl

theorem throughout_snoc (h : Throughout P tr) (ha : P tr a) : Throughout P (tr ++ [a]) := by
  intro us b vs heq
  rcases eq_nil_or_concat vs with rfl | ⟨vs, c, rfl⟩
  · obtain ⟨rfl, hb⟩ := append_inj' heq rfl
    obtain rfl : a = b := by simpa using hb
    exact ha
  · rw [concat_eq_append, ← cons_append, ← append_assoc] at heq
    exact h us b vs (append_inj' heq rfl).1

def throughoutFrom (P : List (Act S) → Act S → Prop) (us : List (Act S)) : List (Act S) → Prop
  | [] => True
  | a :: vs => P us a ∧ throughoutFrom P (us ++ [a]) vs

theorem throughout_of_from (h : Throughout P us) {vs : List (Act S)}
    (hvs : throughoutFrom P us vs) : Throughout P (us ++ vs) := by
  induction vs generalizing us with
  | nil => simpa using h
  | cons a vs ih =>
    rw [append_cons]
    exact ih (throughout_snoc h hvs.1) hvs.2

theorem throughout_iff_from : Throughout P tr ↔ throughoutFrom P [] tr := by
  constructor
  · suffices ∀ us, Throughout P (us ++ tr) → throughoutFrom P us tr from this []
    induction tr with
    | nil => exact fun _ _ => trivial
    | cons a tr ih =>
      intro us h
      exact ⟨h us a tr rfl, ih (us ++ [a]) (by simpa using h)⟩
  · exact fun h => throughout_of_from (fun us a vs heq => by simp at heq) h

instance decidableThroughoutFrom [∀ us a, Decidable (P us a)] :
    (us vs : List (Act S)) → Decidable (throughoutFrom P us vs)
  | _, [] => .isTrue trivial
  | us, a :: vs =>
    have := decidableThroughoutFrom (us ++ [a]) vs
    inferInstanceAs (Decidable (P us a ∧ throughoutFrom P (us ++ [a]) vs))

instance [∀ us a, Decidable (P us a)] : Decidable (Throughout P tr) :=
  decidable_of_iff _ throughout_iff_from.symm

/-! ### Running a schedule -/

variable (w : World S) (resolve res : ℕ → w.State → (op : S.Op) → S.Res op)

/-- Runs the actors in the order of a schedule, each for one call, with the answers of a
resolver. An actor that has returned is passed over. -/
def execFrom (threads : ℕ → Prog S α) (tr : List (Act S)) (s : w.State) :
    List ℕ → List (Act S)
  | [] => tr
  | i :: schedule =>
    match threads i with
    | .ret _ => execFrom threads tr s schedule
    | .call op k =>
      let e : Event S := ⟨op, resolve tr.length s op⟩
      execFrom (Function.update threads i (k e.res)) (tr ++ [⟨i, e⟩]) (w.next s e) schedule

def exec (progs : ℕ → Prog S α) (schedule : List ℕ) : List (Act S) :=
  execFrom w resolve progs [] w.init schedule

def restFrom (threads : ℕ → Prog S α) (n : ℕ) (s : w.State) : List ℕ → ℕ → Prog S α
  | [] => threads
  | i :: schedule =>
    match threads i with
    | .ret _ => restFrom threads n s schedule
    | .call op k =>
      let e : Event S := ⟨op, resolve n s op⟩
      restFrom (Function.update threads i (k e.res)) (n + 1) (w.next s e) schedule

def rest (progs : ℕ → Prog S α) (schedule : List ℕ) : ℕ → Prog S α :=
  restFrom w resolve progs 0 w.init schedule

variable {threads : ℕ → Prog S α}

theorem execFrom_reach (hr : ∀ n s op, w.Answers s ⟨op, res n s op⟩) (sch : List ℕ)
    (htr : Reach w progs tr) (ht : ∀ j, Steps (progs j) (own j tr) (threads j)) :
    Reach w progs (execFrom w res threads tr (w.state tr) sch) := by
  induction sch generalizing threads tr with
  | nil => exact htr
  | cons i sch ih =>
    unfold execFrom
    split
    · exact ih htr ht
    · rename_i op k hi
      have hsn := (hi ▸ ht i : Steps (progs i) (own i tr) (.call op k)).snoc
        (res tr.length (w.state tr) op)
      have hs := World.state_snoc w tr ⟨i, ⟨op, res tr.length (w.state tr) op⟩⟩
      dsimp only at hs ⊢
      rw [← hs]
      refine ih (.snoc htr (hr _ _ _) hsn) fun j => ?_
      by_cases hj : j = i
      · subst hj
        simpa using hsn
      · rw [own_snoc_of_ne (Ne.symm hj), Function.update_of_ne hj]
        exact ht j

/-- What a schedule runs to is a history, when the resolver answers as the world may. -/
theorem exec_reach (hr : ∀ n s op, w.Answers s ⟨op, res n s op⟩) (progs : ℕ → Prog S α)
    (sch : List ℕ) : Reach w progs (exec w res progs sch) :=
  execFrom_reach w res hr sch .nil fun _ => .nil _

theorem execFrom_steps {s : w.State} (sch : List ℕ)
    (ht : ∀ j, Steps (progs j) (own j tr) (threads j)) (j : ℕ) :
    Steps (progs j) (own j (execFrom w res threads tr s sch))
      (restFrom w res threads tr.length s sch j) := by
  induction sch generalizing threads tr s with
  | nil => exact ht j
  | cons i sch ih =>
    cases hi : threads i with
    | ret a =>
      simp only [execFrom, restFrom, hi]
      exact ih ht
    | call op k =>
      simp only [execFrom, restFrom, hi]
      have hs := (hi ▸ ht i : Steps (progs i) (own i tr) (.call op k)).snoc
        (res tr.length s op)
      let a : Act S := ⟨i, ⟨op, res tr.length s op⟩⟩
      rw [show tr.length + 1 = (tr ++ [a]).length by simp]
      refine ih fun j => ?_
      by_cases hj : j = i
      · subst hj
        simpa using hs
      · rw [own_snoc_of_ne (Ne.symm hj), Function.update_of_ne hj]
        exact ht j

theorem exec_steps (progs : ℕ → Prog S α) (sch : List ℕ) (j : ℕ) :
    Steps (progs j) (own j (exec w res progs sch)) (rest w res progs sch j) :=
  execFrom_steps w res sch (fun _ => .nil _) j

variable {P : Event S → Prop}

theorem execFrom_events (hr : ∀ n s op, P ⟨op, res n s op⟩) {s : w.State} (sch : List ℕ)
    (htr : ∀ a ∈ tr, P a.event) : ∀ a ∈ execFrom w res threads tr s sch, P a.event := by
  induction sch generalizing threads tr s with
  | nil => exact htr
  | cons i sch ih =>
    unfold execFrom
    split
    · exact ih htr
    · refine ih fun a ha => ?_
      rcases mem_append.mp ha with ha | ha
      · exact htr a ha
      · rw [mem_singleton.mp ha]
        exact hr _ _ _

theorem exec_events (hr : ∀ n s op, P ⟨op, res n s op⟩) (progs : ℕ → Prog S α)
    (sch : List ℕ) : ∀ a ∈ exec w res progs sch, P a.event :=
  execFrom_events w res hr sch fun _ ha => absurd ha not_mem_nil

end Dhole.Interleave
