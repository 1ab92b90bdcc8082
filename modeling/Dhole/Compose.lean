import Dhole.Interleave

/-! Programs over two worlds at once. The calls of a sum of signatures are those of
either side, and its world is the two worlds side by side, so a history of the sum is two
histories woven together: what one side's theory says of its own histories holds of that
side of the whole. The second part reasons about programs that stop at an error. -/

namespace Dhole.Interleave

open List

variable {S T : Sig} {α β : Type}

/-! ### Two signatures -/

def Sig.sum (S T : Sig) : Sig where
  Op := S.Op ⊕ T.Op
  Res
    | .inl op => S.Res op
    | .inr op => T.Res op

def Event.inl (e : Event S) : Event (S.sum T) := ⟨.inl e.op, e.res⟩

def Event.left? : Event (S.sum T) → Option (Event S)
  | ⟨.inl op, r⟩ => some ⟨op, r⟩
  | ⟨.inr _, _⟩ => none

theorem Event.left?_eq_some {e : Event (S.sum T)} {d : Event S} (h : e.left? = some d) :
    e = d.inl := by
  obtain ⟨op | op, r⟩ := e
  · cases h
    rfl
  · cases h

def lefts (h : List (Event (S.sum T))) : List (Event S) := h.filterMap Event.left?

theorem lefts_append (h g : List (Event (S.sum T))) : lefts (h ++ g) = lefts h ++ lefts g :=
  filterMap_append

@[simp] theorem lefts_map_inl (g : List (Event S)) :
    lefts (g.map Event.inl : List (Event (S.sum T))) = g := by
  induction g with
  | nil => rfl
  | cons e g ih => exact congrArg (e :: ·) ih

theorem mem_lefts {h : List (Event (S.sum T))} {e : Event S} : e ∈ lefts h ↔ e.inl ∈ h := by
  constructor
  · intro he
    obtain ⟨d, hd, hl⟩ := mem_filterMap.mp he
    rwa [← Event.left?_eq_some hl]
  · exact fun he => mem_filterMap.mpr ⟨_, he, rfl⟩

def Prog.inl : Prog S α → Prog (S.sum T) α
  | .ret a => .ret a
  | .call op k => .call (S := S.sum T) (.inl op) fun r => (k r).inl

theorem wp_inl {G : List (Event (S.sum T)) → Event (S.sum T) → Prop}
    {GS : List (Event S) → Event S → Prop} {Q : List (Event (S.sum T)) → α → Prop}
    {QS : List (Event S) → α → Prop} {p : Prog S α} {h : List (Event (S.sum T))}
    (hp : wp GS p QS (lefts h)) (hG : ∀ g e, GS (lefts h ++ g) e → G (h ++ g.map Event.inl) e.inl)
    (hQ : ∀ g a, QS (lefts h ++ g) a → Q (h ++ g.map Event.inl) a) : wp G p.inl Q h := by
  induction p generalizing h with
  | ret a =>
    have hq := hQ [] a (by simpa using hp)
    rwa [map_nil, append_nil] at hq
  | call op k ih =>
    intro r
    have hn := hG [] ⟨op, r⟩ (by simpa using (hp r).1)
    rw [map_nil, append_nil] at hn
    have hl : lefts (h ++ [⟨.inl op, r⟩] : List (Event (S.sum T))) = lefts h ++ [⟨op, r⟩] :=
      lefts_append _ _
    have hs : ∀ g : List (Event S),
        h ++ [(⟨.inl op, r⟩ : Event (S.sum T))] ++ g.map Event.inl =
          h ++ ((⟨op, r⟩ :: g).map Event.inl) := fun g => by simp [Event.inl]
    refine ⟨hn, ih r ?_ ?_ ?_⟩
    · rw [hl]
      exact (hp r).2
    · intro g e he
      rw [hs]
      exact hG _ e (by simpa [hl] using he)
    · intro g a ha
      rw [hs]
      exact hQ _ a (by simpa [hl] using ha)

/-! ### Two worlds -/

def leftActs (tr : List (Act (S.sum T))) : List (Act S) :=
  tr.filterMap fun a => a.event.left?.map fun e => ⟨a.actor, e⟩

theorem leftActs_append (tr us : List (Act (S.sum T))) :
    leftActs (tr ++ us) = leftActs tr ++ leftActs us :=
  filterMap_append

variable {tr : List (Act (S.sum T))}

theorem mem_leftActs {i : ℕ} {e : Event S} : ⟨i, e⟩ ∈ leftActs tr ↔ ⟨i, e.inl⟩ ∈ tr := by
  constructor
  · intro h
    obtain ⟨⟨j, d⟩, hm, hd⟩ := mem_filterMap.mp h
    obtain ⟨e', he', heq⟩ := Option.map_eq_some_iff.mp hd
    cases heq
    rwa [← Event.left?_eq_some he']
  · exact fun h => mem_filterMap.mpr ⟨_, h, rfl⟩

theorem own_leftActs (i : ℕ) (tr : List (Act (S.sum T))) :
    own i (leftActs tr) = lefts (own i tr) := by
  induction tr using reverseRecOn with
  | nil => rfl
  | append_singleton tr a ih =>
    obtain ⟨j, op | op, r⟩ := a
    all_goals
      rw [leftActs_append, own_append, ih, own_append]
      by_cases hj : j = i <;> simp [leftActs, own, lefts, Event.left?, hj]

def World.sum (w : World S) (v : World T) : World (S.sum T) where
  State := w.State × v.State
  init := (w.init, v.init)
  Answers s
    | ⟨.inl op, r⟩ => w.Answers s.1 ⟨op, r⟩
    | ⟨.inr op, r⟩ => v.Answers s.2 ⟨op, r⟩
  next s
    | ⟨.inl op, r⟩ => (w.next s.1 ⟨op, r⟩, s.2)
    | ⟨.inr op, r⟩ => (s.1, v.next s.2 ⟨op, r⟩)

variable {w : World S} {v : World T}

theorem World.sum_state_fst (tr : List (Act (S.sum T))) :
    ((w.sum v).state tr).1 = w.state (leftActs tr) := by
  induction tr using reverseRecOn with
  | nil => rfl
  | append_singleton tr a ih =>
    obtain ⟨j, op | op, r⟩ := a
    · have hl : leftActs (tr ++ [(⟨j, ⟨.inl op, r⟩⟩ : Act (S.sum T))]) =
          leftActs tr ++ [⟨j, ⟨op, r⟩⟩] := leftActs_append _ _
      rw [hl, World.state_snoc, World.state_snoc, ← ih]
      rfl
    · have hl : leftActs (tr ++ [(⟨j, ⟨.inr op, r⟩⟩ : Act (S.sum T))]) = leftActs tr :=
        (leftActs_append _ _).trans (append_nil _)
      rw [hl, World.state_snoc, ← ih]
      rfl

theorem Guarded.left {G : ℕ → List (Event (S.sum T)) → Event (S.sum T) → Prop}
    {GS : ℕ → List (Event S) → Event S → Prop}
    (hG : ∀ i h e, G i h (Event.inl e) → GS i (lefts h) e) (h : Guarded (w.sum v) G tr) :
    Guarded w GS (leftActs tr) := by
  induction h with
  | nil => exact .nil
  | @snoc tr i e htr ha hg ih =>
    obtain ⟨op | op, r⟩ := e
    · have hl : leftActs (tr ++ [(⟨i, ⟨.inl op, r⟩⟩ : Act (S.sum T))]) =
          leftActs tr ++ [⟨i, ⟨op, r⟩⟩] := leftActs_append _ _
      rw [hl]
      refine .snoc ih ?_ ?_
      · rw [← World.sum_state_fst]
        exact ha
      · rw [own_leftActs]
        exact hG i _ ⟨op, r⟩ hg
    · have hl : leftActs (tr ++ [(⟨i, ⟨.inr op, r⟩⟩ : Act (S.sum T))]) = leftActs tr :=
        (leftActs_append _ _).trans (append_nil _)
      rwa [hl]

/-! ### Programs that stop at an error -/

section Errors

variable {ε : Type} {G : List (Event S) → Event S → Prop} {h : List (Event S)}
  {x : ExceptT ε (Prog S) α} {f : α → ExceptT ε (Prog S) β} {Q R : List (Event S) → α → Prop}

/-- As `wp`, for a program that may fail; nothing is asked of a failure. -/
def wpe (G : List (Event S) → Event S → Prop) (x : ExceptT ε (Prog S) α)
    (Q : List (Event S) → α → Prop) (h : List (Event S)) : Prop :=
  wp G x.run (fun g r => ∀ a, r = .ok a → Q g a) h

@[simp] theorem wpe_pure (a : α) : wpe G (pure a : ExceptT ε (Prog S) α) Q h ↔ Q h a := by
  constructor
  · exact fun hq => hq a rfl
  · rintro hq _ ⟨⟩
    exact hq

@[simp] theorem wpe_throw (e : ε) : wpe G (throw e : ExceptT ε (Prog S) α) Q h := by
  rintro a ⟨⟩

theorem wp_run_bind {Q : List (Event S) → Except ε β → Prop} :
    wp G (x >>= f).run Q h ↔
      wp G x.run (fun g r => match r with
        | .ok a => wp G (f a).run Q g
        | .error e => Q g (.error e)) h := by
  rw [ExceptT.run_bind, wp_bind]
  constructor
  all_goals
    intro hx
    refine wp_mono hx ?_
    rintro g (e | a) hq <;> exact hq

variable {p : Prog S α}

theorem wp_run_lift_bind {Q : List (Event S) → Except ε β → Prop} :
    wp G ((liftM p : ExceptT ε (Prog S) α) >>= f).run Q h ↔
      wp G p (fun g a => wp G (f a).run Q g) h := by
  have hr : (liftM p : ExceptT ε (Prog S) α).run = p >>= fun a => pure (.ok a) := rfl
  rw [wp_run_bind, hr, wp_bind]
  rfl

theorem wpe_bind {Q : List (Event S) → β → Prop} :
    wpe G (x >>= f) Q h ↔ wpe G x (fun g a => wpe G (f a) Q g) h := by
  rw [wpe, wp_run_bind]
  constructor
  · intro hx
    refine wp_mono hx ?_
    rintro g (e | a) hq b ⟨⟩
    exact hq
  · intro hx
    refine wp_mono hx ?_
    rintro g (e | a) hq
    · rintro b ⟨⟩
    · exact hq a rfl

theorem wpe_lift : wpe G (liftM p : ExceptT ε (Prog S) α) Q h ↔ wp G p Q h := by
  have hr : (liftM p : ExceptT ε (Prog S) α).run = p >>= fun a => pure (.ok a) := rfl
  rw [wpe, hr, wp_bind]
  constructor
  · exact fun hp => wp_mono hp fun g a hq => hq a rfl
  · intro hp
    refine wp_mono hp ?_
    rintro g a hq _ ⟨⟩
    exact hq

theorem wpe_perform_bind {op : S.Op} {f : S.Res op → ExceptT ε (Prog S) β}
    {Q : List (Event S) → β → Prop} :
    wpe G ((liftM (Prog.perform op) : ExceptT ε (Prog S) (S.Res op)) >>= f) Q h ↔
      ∀ r, G h ⟨op, r⟩ ∧ wpe G (f r) Q (h ++ [⟨op, r⟩]) := by
  rfl

theorem wpe_mono (hx : wpe G x Q h) (hQ : ∀ g a, Q (h ++ g) a → R (h ++ g) a) : wpe G x R h :=
  wp_mono hx fun g _ hq a ha => hQ g a (hq a ha)

theorem wpe_done {a : α} : wpe G (pure a : ExceptT ε (Prog S) α) (fun _ _ => True) h :=
  (wpe_pure a).mpr trivial

theorem wpe_return_if {c : Prop} [Decidable c] {a : α} (hx : ¬ c → wpe G x (fun _ _ => True) h) :
    wpe G (if c then pure a else x) (fun _ _ => True) h := by
  split
  · exact wpe_done
  · exact hx ‹_›

theorem wpe_throw_if {c : Prop} [Decidable c] {err : ε} (hx : ¬ c → wpe G x Q h) :
    wpe G (if c then throw err else x) Q h := by
  split
  · exact wpe_throw err
  · exact hx ‹_›

theorem wpe_seq {Q : List (Event S) → β → Prop} (hx : wpe G x (fun _ _ => True) h)
    (hf : ∀ g a, wpe G (f a) Q (h ++ g)) : wpe G (x >>= f) Q h :=
  wpe_bind.mpr (wpe_mono hx fun g a _ => hf g a)

/-- As `wpe`, with what holds where the program fails. -/
def wpx (G : List (Event S) → Event S → Prop) (x : ExceptT ε (Prog S) α)
    (Q : List (Event S) → α → Prop) (E : List (Event S) → ε → Prop) (h : List (Event S)) : Prop :=
  wp G x.run (fun g r => match r with
    | .ok a => Q g a
    | .error err => E g err) h

section

variable {E : List (Event S) → ε → Prop}

@[simp] theorem wpx_pure (a : α) :
    wpx G (pure a : ExceptT ε (Prog S) α) Q E h ↔ Q h a := Iff.rfl

@[simp] theorem wpx_throw (err : ε) :
    wpx G (throw err : ExceptT ε (Prog S) α) Q E h ↔ E h err := Iff.rfl

theorem wpx_of_wpe (hx : wpe G x Q h) : wpx G x Q (fun _ _ => True) h := by
  refine wp_mono hx ?_
  rintro g (err | a) hq
  · trivial
  · exact hq a rfl

theorem wpe_of_wpx (hx : wpx G x Q E h) : wpe G x Q h := by
  refine wp_mono hx ?_
  rintro g r hq a rfl
  exact hq

theorem wpx_bind {Q : List (Event S) → β → Prop} :
    wpx G (x >>= f) Q E h ↔ wpx G x (fun g a => wpx G (f a) Q E g) E h := by
  rw [wpx, wp_run_bind]
  constructor
  all_goals
    intro hx
    refine wp_mono hx ?_
    rintro g (err | a) hq <;> exact hq

theorem wpx_perform_bind {op : S.Op} {f : S.Res op → ExceptT ε (Prog S) β}
    {Q : List (Event S) → β → Prop} :
    wpx G ((liftM (Prog.perform op) : ExceptT ε (Prog S) (S.Res op)) >>= f) Q E h ↔
      ∀ r, G h ⟨op, r⟩ ∧ wpx G (f r) Q E (h ++ [⟨op, r⟩]) := by
  rfl

theorem wpx_mono {F : List (Event S) → ε → Prop} (hx : wpx G x Q E h)
    (hQ : ∀ g a, Q (h ++ g) a → R (h ++ g) a)
    (hE : ∀ g err, E (h ++ g) err → F (h ++ g) err) : wpx G x R F h := by
  refine wp_mono hx ?_
  rintro g (err | a) hq
  · exact hE g err hq
  · exact hQ g a hq

end

end Errors

/-! ### Programs that make only some calls -/

section Only

variable {ε : Type} {P : S.Op → Prop} {G : List (Event S) → Event S → Prop}
  {x : ExceptT ε (Prog S) α}

/-- Every call of the program satisfies `P`, whatever the answers. -/
def Prog.Only (P : S.Op → Prop) : Prog S α → Prop
  | .ret _ => True
  | .call op k => P op ∧ ∀ r, (k r).Only P

variable {p : Prog S α}

@[grind ←] theorem Prog.Only.pure (a : α) : (pure a : Prog S α).Only P := trivial

@[grind ←] theorem Prog.Only.perform {op : S.Op} (h : P op) : (perform op).Only P :=
  ⟨h, fun _ => trivial⟩

@[grind ←] theorem Prog.Only.bind {f : α → Prog S β} (hp : p.Only P) (hf : ∀ a, (f a).Only P) :
    (p >>= f).Only P := by
  induction p with
  | ret a => exact hf a
  | call op k ih => exact ⟨hp.1, fun r => ih r (hp.2 r)⟩

theorem Prog.Only.inl {P : (S.sum T).Op → Prop} (hP : ∀ op, P (.inl op)) (p : Prog S α) :
    (p.inl : Prog (S.sum T) α).Only P := by
  induction p with
  | ret a => trivial
  | call op k ih => exact ⟨hP op, fun r => ih r⟩

theorem Prog.Only.sum_inl {P : S.Op → Prop} (hp : p.Only P) :
    (p.inl : Prog (S.sum T) α).Only (Sum.elim P fun _ => False) := by
  induction p with
  | ret a => trivial
  | call op k ih => exact ⟨hp.1, fun r => ih r (hp.2 r)⟩

variable (hG : ∀ h e, P e.op → G h e) (hp : p.Only P) (h : List (Event S))

include hG hp h

theorem wp_of_only : wp G p (fun _ _ => True) h := by
  induction p generalizing h with
  | ret a => trivial
  | call op k ih => exact fun r => ⟨hG h ⟨op, r⟩ hp.1, ih r (hp.2 r) _⟩

theorem wp_appended_of_only : wp G p (fun g _ => ∃ g', g = h ++ g' ∧ ∀ e ∈ g', P e.op) h := by
  induction p generalizing h with
  | ret a => exact ⟨[], by simp, by simp⟩
  | call op k ih =>
    refine fun r => ⟨hG h ⟨op, r⟩ hp.1, wp_mono (ih r (hp.2 r) _) ?_⟩
    rintro _ _ ⟨g', hg, ho⟩
    refine ⟨⟨op, r⟩ :: g', by simp [hg], ?_⟩
    simpa using ⟨hp.1, ho⟩

omit hG hp h

def OnlyCalls (P : S.Op → Prop) (x : ExceptT ε (Prog S) α) : Prop := x.run.Only P

variable {f : α → ExceptT ε (Prog S) β}

@[grind ←] theorem OnlyCalls.pure (a : α) : OnlyCalls P (pure a : ExceptT ε (Prog S) α) := trivial

@[grind ←] theorem OnlyCalls.throw (e : ε) :
    OnlyCalls P (throw e : ExceptT ε (Prog S) α) := trivial

@[grind ←] theorem OnlyCalls.bind (hx : OnlyCalls P x) (hf : ∀ a, OnlyCalls P (f a)) :
    OnlyCalls P (x >>= f) := by
  refine Prog.Only.bind hx fun r => ?_
  cases r with
  | ok a => exact hf a
  | error e => trivial

@[grind ←] theorem OnlyCalls.lift (hp : p.Only P) :
    OnlyCalls P (monadLift p : ExceptT ε (Prog S) α) :=
  Prog.Only.bind hp fun _ => trivial

@[grind ←] theorem OnlyCalls.outcome (hx : OnlyCalls P x) {ε' : Type} :
    OnlyCalls P (ExceptT.lift x.run : ExceptT ε' (Prog S) (Except ε α)) :=
  Prog.Only.bind hx fun _ => trivial

theorem wpe_of_only (hG : ∀ h e, P e.op → G h e) (hx : OnlyCalls P x) (h : List (Event S)) :
    wpe G x (fun _ _ => True) h :=
  wp_mono (wp_of_only hG hx h) fun _ _ _ _ _ => trivial

theorem wpe_bind_of_only {Q : List (Event S) → α → Prop} {R : List (Event S) → β → Prop}
    {h : List (Event S)} (hx : OnlyCalls P x) (hw : wpe G x Q h)
    (hf : ∀ g a, (∀ e ∈ g, P e.op) → Q (h ++ g) a → wpe G (f a) R (h ++ g)) :
    wpe G (x >>= f) R h := by
  suffices hp : ∀ (p : Prog S (Except ε α)) (Q : List (Event S) → Except ε α → Prop) h,
      p.Only P → wp G p Q h → wp G p (fun g r => Q g r ∧ ∃ g', g = h ++ g' ∧ ∀ e ∈ g', P e.op) h by
    refine wpe_bind.mpr (wp_mono (hp x.run _ h hx hw) ?_)
    rintro g r ⟨hq, g', hg, ho⟩ a ha
    rw [hg] at hq ⊢
    exact hf g' a ho (hq a ha)
  intro p
  induction p with
  | ret r => exact fun Q h _ hw => ⟨hw, [], by simp, by simp⟩
  | call op k ih =>
    intro Q h hp hw r
    refine ⟨(hw r).1, wp_mono (ih r Q _ (hp.2 r) (hw r).2) ?_⟩
    rintro g b ⟨hq, g', hg, ho⟩
    refine ⟨hq, ⟨op, r⟩ :: g', by rw [hg]; simp, ?_⟩
    simpa using ⟨hp.1, ho⟩

end Only

end Dhole.Interleave
