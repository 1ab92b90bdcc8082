import Mathlib

/-! Lists read as text: a list without the blanks at its ends, and what readers that may refuse
come to. What a list and its trimmed form can begin with tells them apart wherever they differ. -/

namespace Dhole.Lexical

open List

variable {α : Type*} {p : α → Bool} {l m w v : List α} {c : α}

/-! ### Trimming -/

def trim (p : α → Bool) (l : List α) : List α := (l.dropWhile p).rdropWhile p

/-- The white space of Unicode. -/
def isSpace (c : Char) : Bool :=
  c ∈ ['\t', '\n', '\x0b', '\x0c', '\r', ' ', '\u0085', '\u00a0', '\u1680', '\u2028', '\u2029',
    '\u202f', '\u205f', '\u3000'] || ('\u2000' ≤ c && c ≤ '\u200a')

def trimSpace (s : String) : String := String.ofList (trim isSpace s.toList)

def Tight (p : α → Bool) (l : List α) : Prop :=
  (∀ c, l.head? = some c → p c = false) ∧ ∀ c, l.getLast? = some c → p c = false

theorem trim_split (p : α → Bool) (l : List α) :
    ∃ w v, l = w ++ trim p l ++ v ∧ (∀ c ∈ w, p c) ∧ ∀ c ∈ v, p c := by
  refine ⟨l.takeWhile p, (l.dropWhile p).rtakeWhile p, ?_, fun c => mem_takeWhile_imp,
    fun c => mem_rtakeWhile_imp⟩
  rw [append_assoc, trim, rdropWhile_append_rtakeWhile, takeWhile_append_dropWhile]

theorem tight_trim (p : α → Bool) (l : List α) : Tight p (trim p l) := by
  constructor
  · intro c hc
    obtain ⟨v, hv⟩ : trim p l <+: l.dropWhile p := rdropWhile_prefix _ _
    have hh : (l.dropWhile p).head? = some c := by rw [← hv, head?_append, hc]; rfl
    simpa [hh] using head?_dropWhile_not p l
  · intro c hc
    have hne : trim p l ≠ [] := by
      intro h
      simp [h] at hc
    have hl : (trim p l).getLast hne = c := by
      rwa [getLast?_eq_some_getLast hne, Option.some.injEq] at hc
    rw [← hl]
    exact eq_false_of_ne_true (rdropWhile_last_not p (l.dropWhile p) hne)

theorem dropWhile_append_eq (hw : ∀ c ∈ w, p c) (hm : ∀ c, m.head? = some c → p c = false) :
    (w ++ m).dropWhile p = m := by
  induction w with
  | nil =>
    cases m with
    | nil => rfl
    | cons c m => simp [hm c rfl]
  | cons c w ih =>
    rw [cons_append, dropWhile_cons_of_pos (hw c mem_cons_self)]
    exact ih fun d hd => hw d (mem_cons_of_mem _ hd)

theorem trim_append (hw : ∀ c ∈ w, p c) (hm : Tight p m) (hv : ∀ c ∈ v, p c) :
    trim p (w ++ m ++ v) = m := by
  have hb : (m ++ v).rdropWhile p = m := by
    rw [List.rdropWhile, reverse_append, dropWhile_append_eq, reverse_reverse]
    · exact fun c hc => hv c (mem_reverse.mp hc)
    · simpa using hm.2
  cases m with
  | nil =>
    rw [append_nil, trim, dropWhile_eq_nil_iff.mpr]
    · rfl
    · exact fun c hc => (mem_append.mp hc).elim (hw c) (hv c)
  | cons c m =>
    rw [trim, append_assoc, dropWhile_append_eq hw, hb]
    exact fun d hd => hm.1 d (by simpa using hd)

theorem trim_eq_self (hl : Tight p l) : trim p l = l := by
  simpa using trim_append (w := []) (v := []) (by simp) hl (by simp)

theorem trim_eq_nil_iff : trim p l = [] ↔ ∀ c ∈ l, p c := by
  constructor
  · intro h
    obtain ⟨w, v, hl, hw, hv⟩ := trim_split p l
    rw [h, append_nil] at hl
    rw [hl]
    exact fun c hc => (mem_append.mp hc).elim (hw c) (hv c)
  · intro h
    simpa using trim_append (m := []) (v := []) h ⟨by simp, by simp⟩ (by simp)

/-- Where a list is not trimmed, it and its trimmed form stay apart before a separator. -/
theorem append_cons_ne_trim (hl : l ≠ trim p l) (hc : p c = false) :
    l ++ c :: w ≠ trim p l ++ c :: v := by
  intro heq
  obtain ⟨a, b, hs, ha, hb⟩ := trim_split p l
  cases a with
  | cons d a =>
    -- It begins with a blank, and what is trimmed does not, nor does the separator.
    have hh : (trim p l ++ c :: v).head? = some d := by
      rw [← heq, hs]
      rfl
    have hd : p d = true := ha d mem_cons_self
    cases hf : (trim p l).head? with
    | none =>
      obtain rfl : c = d := by simpa [hf] using hh
      simp [hc] at hd
    | some e =>
      obtain rfl : e = d := by simpa [hf] using hh
      simp [(tight_trim p l).1 e hf] at hd
  | nil =>
    cases b with
    | nil => exact hl (by simpa using hs)
    | cons d b =>
      have hfr : l ++ c :: w = trim p l ++ d :: (b ++ c :: w) := by
        nth_rewrite 1 [hs]
        simp
      obtain ⟨rfl, -⟩ := cons_eq_cons.mp (append_cancel_left (hfr.symm.trans heq))
      simp [hc] at hb

theorem append_cons_inj {l' w' : List α} (hl : c ∉ l) (hl' : c ∉ l')
    (h : l ++ c :: w = l' ++ c :: w') : l = l' ∧ w = w' := by
  induction l generalizing l' with
  | nil =>
    cases l' with
    | nil => exact ⟨rfl, (cons_eq_cons.mp h).2⟩
    | cons d l' => simp [(cons_eq_cons.mp h).1] at hl'
  | cons d l ih =>
    cases l' with
    | nil => simp [(cons_eq_cons.mp h).1] at hl
    | cons d' l' =>
      obtain ⟨rfl, ht⟩ := cons_eq_cons.mp h
      obtain ⟨rfl, rfl⟩ := ih (not_mem_of_not_mem_cons hl) (not_mem_of_not_mem_cons hl')
        ht
      exact ⟨rfl, rfl⟩

section Cut

variable {α : Type} [DecidableEq α]

/-- `strings.Cut` at a character: what stands before its first occurrence and after it. -/
def cutAt (sep : α) : List α → Option (List α × List α)
  | [] => none
  | c :: cs => if c = sep then some ([], cs) else (cutAt sep cs).map fun (a, b) => (c :: a, b)

/-- What stands before the last occurrence of a character and after it. -/
def cutLast (sep : α) (cs : List α) : Option (List α × List α) :=
  (cutAt sep cs.reverse).map fun (b, a) => (a.reverse, b.reverse)

variable {sep : α} {a b l : List α}

theorem cutAt_append (ha : sep ∉ a) : cutAt sep (a ++ sep :: b) = some (a, b) := by
  induction a with
  | nil => simp [cutAt]
  | cons c a ih =>
    have hc : c ≠ sep := fun h => ha (h ▸ mem_cons_self)
    simp [cutAt, hc, ih (not_mem_of_not_mem_cons ha)]

theorem eq_of_cutAt (h : cutAt sep l = some (a, b)) : l = a ++ sep :: b := by
  induction l generalizing a with
  | nil => cases h
  | cons c l ih =>
    rw [cutAt] at h
    split at h
    · rename_i hc
      cases h
      rw [hc]
      rfl
    · obtain ⟨⟨a', b'⟩, hcu, heq⟩ := Option.map_eq_some_iff.mp h
      cases heq
      rw [ih hcu]
      rfl

theorem not_mem_of_cutAt (h : cutAt sep l = some (a, b)) : sep ∉ a := by
  induction l generalizing a with
  | nil => cases h
  | cons c l ih =>
    rw [cutAt] at h
    split at h
    · cases h
      exact not_mem_nil
    · rename_i hc
      obtain ⟨⟨a', b'⟩, hcu, heq⟩ := Option.map_eq_some_iff.mp h
      cases heq
      simp [Ne.symm hc, ih hcu]

theorem cutAt_eq_some : cutAt sep l = some (a, b) ↔ l = a ++ sep :: b ∧ sep ∉ a := by
  constructor
  · exact fun h => ⟨eq_of_cutAt h, not_mem_of_cutAt h⟩
  · rintro ⟨rfl, ha⟩
    exact cutAt_append ha

end Cut

/-- The parts of a text between its white space. -/
def fields (s : String) : List String :=
  ((s.toList.splitOnP isSpace).filter (· ≠ [])).map String.ofList

/-! ### Readers -/

variable {ε : Type*} {β γ : Type} {x : Except ε β} {f : β → Except ε γ} {out : γ}

theorem bind_eq_ok_iff : (x >>= f) = .ok out ↔ ∃ a, x = .ok a ∧ f a = .ok out := by
  cases x <;> simp [bind, Except.bind]

theorem isOk_iff : x.isOk = true ↔ ∃ a, x = .ok a := by
  cases x <;> simp [Except.toBool]

theorem ite_throw_eq_ok_iff {P : Prop} [Decidable P] {e : ε} {rest : Except ε γ} :
    (if P then throw e else rest) = .ok out ↔ ¬ P ∧ rest = .ok out := by
  by_cases hP : P <;> simp [hP, throw]

end Dhole.Lexical
