import Mathlib.Data.List.Rotate

/-! The order in which the members of a ring come up, counted from a cursor: `l.rotate n`.
A member that leaves at the cursor, one that is passed over and one that joins at the end
of the list each change that order in one place. -/

namespace Dhole.Rotation

open List

variable {α : Type*} {l r s : List α} {a b x : α} {n : ℕ}

/-- The cursor may stand past the end of the list; then it is the first member's turn. -/
def index (l : List α) (n : ℕ) : ℕ := if l.length ≤ n then 0 else n

theorem index_lt (h : l ≠ []) : index l n < l.length := by
  have hp : 0 < l.length := length_pos_of_ne_nil h
  unfold index
  split <;> omega

theorem rotate_index (h : n ≤ l.length) : l.rotate (index l n) = l.rotate n := by
  unfold index
  split
  · rw [show n = l.length by omega]
    simp
  · rfl

theorem rotate_eq_cons (h : l[n]? = some a) : l.rotate n = a :: (l.drop (n + 1) ++ l.take n) := by
  obtain ⟨hlt, rfl⟩ := List.getElem?_eq_some_iff.mp h
  rw [rotate_eq_drop_append_take hlt.le, drop_eq_getElem_cons hlt, cons_append]

theorem rotate_succ (h : l[n]? = some a) :
    l.rotate (n + 1) = l.drop (n + 1) ++ l.take n ++ [a] := by
  rw [← rotate_rotate, rotate_eq_cons h, rotate_cons_succ, rotate_zero]

theorem rotate_eraseIdx (h : n < l.length) :
    (l.eraseIdx n).rotate n = l.drop (n + 1) ++ l.take n := by
  have hl : (l.take n).length = n := by simp [h.le]
  have ha := rotate_append_length_eq (l.take n) (l.drop (n + 1))
  rwa [hl, ← eraseIdx_eq_take_drop_succ] at ha

theorem rotate_concat (h : n ≤ l.length) : (l ++ [a]).rotate n = l.drop n ++ a :: l.take n := by
  have hle : n ≤ (l ++ [a]).length := by simp; omega
  rw [rotate_eq_drop_append_take hle, drop_append_of_le_length h,
    take_append_of_le_length h, append_assoc, singleton_append]

/-! ### Who comes before whom -/

theorem sublist_of_insert (hx : x ∉ s) (h : s.Sublist (l ++ x :: r)) : s.Sublist (l ++ r) := by
  obtain ⟨s₁, s₂, rfl, h₁, h₂⟩ := sublist_append_iff.mp h
  have hx₂ : x ∉ s₂ := fun hm => hx (mem_append_right _ hm)
  cases h₂ with
  | cons _ h₂ => exact h₁.append h₂
  | cons_cons _ h₂ => exact absurd mem_cons_self hx₂

theorem not_before_of_last (ha : a ∉ l) (hab : a ≠ b) : ¬ [a, b].Sublist (l ++ [a]) := by
  intro h
  have hs := (reverse_sublist.mpr h)
  simp only [reverse_cons, reverse_nil, nil_append, reverse_append] at hs
  cases hs with
  | cons _ hs =>
    have hm := hs.subset (mem_cons_of_mem _ (mem_singleton_self a))
    exact ha (mem_reverse.mp hm)
  | cons_cons _ hs => exact hab rfl

theorem mem_of_before_insert (ha : a ∉ l) (h : [a, b].Sublist (l ++ a :: r)) : b ∈ r := by
  induction l with
  | nil =>
    cases h with
    | cons _ h | cons_cons _ h => exact h.subset (by simp)
  | cons c l ih =>
    simp only [mem_cons, not_or] at ha
    cases h with
    | cons _ h => exact ih ha.2 h
    | cons_cons _ h => exact absurd rfl ha.1

end Dhole.Rotation
