import Mathlib

/-! Texts compared letter by letter. Two texts either extend one another or part at a letter, and
texts made of parts of equal length are compared part by part. Numerals of a fixed width are in
the order of their numbers. -/

namespace Dhole.Numerals

open List

/-! ### Comparing lists -/

section Lex

variable {α : Type*} [LinearOrder α] {u v x y p : List α} {a b : α}

theorem append_lt_append_iff (h : u.length = v.length) :
    u ++ x < v ++ y ↔ u < v ∨ u = v ∧ x < y := by
  induction u generalizing v with
  | nil =>
    obtain rfl := length_eq_zero_iff.mp h.symm
    simp
  | cons a u ih =>
    cases v with
    | nil => cases h
    | cons b v =>
      rw [cons_append, cons_append, cons_lt_cons_iff, cons_lt_cons_iff,
        ih (Nat.succ.inj h), cons.injEq]
      tauto

theorem append_cons_lt_iff (hne : a ≠ b) : p ++ a :: x < p ++ b :: y ↔ a < b := by
  rw [append_lt_append_iff rfl, cons_lt_cons_iff]
  simp [hne]

theorem part_cases (u v : List α) : u <+: v ∨ v <+: u ∨
    ∃ p a b x y, a ≠ b ∧ u = p ++ a :: x ∧ v = p ++ b :: y := by
  induction u generalizing v with
  | nil => exact .inl nil_prefix
  | cons a u ih =>
    cases v with
    | nil => exact .inr (.inl nil_prefix)
    | cons b v =>
      by_cases hab : a = b
      · subst hab
        obtain h | h | ⟨p, c, d, x, y, hne, rfl, rfl⟩ := ih v
        · exact .inl (cons_prefix_cons.mpr ⟨rfl, h⟩)
        · exact .inr (.inl (cons_prefix_cons.mpr ⟨rfl, h⟩))
        · exact .inr (.inr ⟨a :: p, c, d, x, y, hne, rfl, rfl⟩)
      · exact .inr (.inr ⟨[], a, b, u, v, hab, rfl, rfl⟩)

end Lex

/-! ### Numerals -/

def digitChar (d : ℕ) : Char := Char.ofNat (48 + d)

def fixed : ℕ → ℕ → List Char
  | 0, _ => []
  | w + 1, n => fixed w (n / 10) ++ [digitChar (n % 10)]

variable {w n m : ℕ} {c : Char}

theorem digitChar_lt_iff {d e : ℕ} (hd : d < 10) (he : e < 10) :
    digitChar d < digitChar e ↔ d < e := by
  have ha : ∀ d e : Fin 10, digitChar d < digitChar e ↔ d < e := by decide
  exact ha ⟨d, hd⟩ ⟨e, he⟩

theorem digitChar_bounds {d : ℕ} (hd : d < 10) : '0' ≤ digitChar d ∧ digitChar d ≤ '9' := by
  have ha : ∀ d : Fin 10, '0' ≤ digitChar d ∧ digitChar d ≤ '9' := by decide
  exact ha ⟨d, hd⟩

theorem digitChar_inj {d e : ℕ} (hd : d < 10) (he : e < 10) (h : digitChar d = digitChar e) :
    d = e := by
  refine le_antisymm (not_lt.mp fun hlt => ?_) (not_lt.mp fun hlt => ?_)
  · exact absurd ((digitChar_lt_iff he hd).mpr hlt) (h ▸ lt_irrefl _)
  · exact absurd ((digitChar_lt_iff hd he).mpr hlt) (h ▸ lt_irrefl _)

@[simp] theorem length_fixed (w n : ℕ) : (fixed w n).length = w := by
  induction w generalizing n with
  | zero => rfl
  | succ w ih => simp [fixed, ih]

theorem bounds_of_mem_fixed (h : c ∈ fixed w n) : '0' ≤ c ∧ c ≤ '9' := by
  induction w generalizing n with
  | zero => cases h
  | succ w ih =>
    rcases mem_append.mp h with h | h
    · exact ih h
    · rw [mem_singleton.mp h]
      exact digitChar_bounds (Nat.mod_lt _ (by decide))

theorem fixed_succ_cons (w n : ℕ) : ∃ c l, fixed (w + 1) n = c :: l ∧ '0' ≤ c := by
  obtain ⟨c, l, hcl⟩ : ∃ c l, fixed (w + 1) n = c :: l :=
    exists_cons_of_length_eq_add_one (length_fixed _ _)
  have hme : c ∈ fixed (w + 1) n := by
    rw [hcl]
    exact mem_cons_self
  exact ⟨c, l, hcl, (bounds_of_mem_fixed hme).1⟩

theorem fixed_add (w v n : ℕ) : fixed (w + v) n = fixed w (n / 10 ^ v) ++ fixed v n := by
  induction v generalizing n with
  | zero => simp [fixed]
  | succ v ih =>
    rw [← Nat.add_assoc, fixed, ih, fixed, Nat.div_div_eq_div_mul, ← Nat.pow_succ', append_assoc]

variable (hn : n < 10 ^ w) (hm : m < 10 ^ w)

include hn hm

theorem fixed_inj (h : fixed w n = fixed w m) : n = m := by
  induction w generalizing n m with
  | zero => omega
  | succ w ih =>
    obtain ⟨hi, hl⟩ := append_inj' h rfl
    have hd := ih (by omega) (by omega) hi
    have hmo := digitChar_inj (Nat.mod_lt n (by decide)) (Nat.mod_lt m (by decide))
      (singleton_inj.mp hl)
    omega

theorem fixed_eq_iff : fixed w n = fixed w m ↔ n = m :=
  ⟨fixed_inj hn hm, congrArg _⟩

theorem fixed_lt_iff : fixed w n < fixed w m ↔ n < m := by
  induction w generalizing n m with
  | zero =>
    have : n = m := by omega
    simp [this]
  | succ w ih =>
    have hn' : n / 10 < 10 ^ w := by omega
    have hm' : m / 10 < 10 ^ w := by omega
    rw [fixed, fixed, append_lt_append_iff (by simp), ih hn' hm', fixed_eq_iff hn' hm',
      cons_lt_cons_iff, digitChar_lt_iff (Nat.mod_lt n (by decide)) (Nat.mod_lt m (by decide))]
    simp only [not_lt_nil, and_false, or_false]
    omega

end Dhole.Numerals
