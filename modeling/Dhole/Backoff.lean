import Dhole.RunLog

/-! How long a step that failed waits for its next attempt. The wait of the policy is doubled once
for every attempt after the first and cut off at a ceiling. The count of doublings is an unsigned
difference, so that a step with no attempt at all waits as long as one with very many. -/

namespace Dhole.Effects

/-- How often the loop doubles the wait before it ends. -/
def doublings : ℕ → ℤ → ℕ
  | 0, _ => 0
  | n + 1, wait => if wait * 2 ≥ maxBackoff then 1 else doublings n (wait * 2) + 1

def Policy.loops (p : Policy) (attempt : ℕ) : ℕ :=
  if p.backoff ≤ 0 then 0 else doublings ((attempt + (2 ^ 32 - 1)) % 2 ^ 32) p.backoff

variable {w : ℤ} {n : ℕ}

theorem doubled_eq_min (hw : 0 < w) : doubled n w = min (w * 2 ^ n) maxBackoff := by
  induction n generalizing w with
  | zero =>
    rw [doubled, pow_zero]
    split <;> omega
  | succ n ih =>
    rw [doubled]
    split
    · have hpow : (1 : ℤ) ≤ 2 ^ n := one_le_pow₀ (by norm_num)
      rw [min_eq_right]
      calc maxBackoff ≤ w * 2 := ‹_›
        _ ≤ w * 2 * 2 ^ n := le_mul_of_one_le_right (by omega) hpow
        _ = w * 2 ^ (n + 1) := by ring
    · rw [ih (by omega), mul_assoc, ← pow_succ']

theorem doublings_le {k : ℕ} (h : maxBackoff ≤ w * 2 ^ (k + 1)) : doublings n w ≤ k + 1 := by
  induction n generalizing w k with
  | zero => exact Nat.zero_le _
  | succ n ih =>
    rw [doublings]
    split
    · omega
    · cases k with
      | zero => simp at h; omega
      | succ k =>
        have hk : maxBackoff ≤ w * 2 * 2 ^ (k + 1) := by rwa [mul_assoc, ← pow_succ']
        exact Nat.succ_le_succ (ih hk)

variable {p : Policy}

theorem backoff_of_pos (hp : 0 < p.backoff) (hn : n < 2 ^ 32) :
    backoff p (n + 1) = min (p.backoff * 2 ^ n) maxBackoff := by
  rw [backoff, if_neg (by omega), doubled_eq_min hp,
    show (n + 1 + (2 ^ 32 - 1)) % 2 ^ 32 = n by omega]

theorem ceiling_le (hp : 5 * second ≤ p.backoff) {k : ℕ} (hk : 6 ≤ k) :
    maxBackoff ≤ p.backoff * 2 ^ k := by
  have hpow : (2 : ℤ) ^ 6 ≤ 2 ^ k := pow_le_pow_right₀ (by norm_num) hk
  unfold second at hp
  calc maxBackoff ≤ 5000000000 * 2 ^ 6 := by norm_num [maxBackoff, second]
    _ ≤ p.backoff * 2 ^ k := mul_le_mul (by omega) hpow (by positivity) (by omega)

theorem backoff_zero (hp : 5 * second ≤ p.backoff) : backoff p 0 = maxBackoff := by
  have hpo : 0 < p.backoff := by unfold second at hp; omega
  rw [backoff, if_neg (by omega), doubled_eq_min hpo]
  exact min_eq_right (ceiling_le hp (by omega))

theorem retryPolicy_backoff (step : Step) :
    (retryPolicy step).backoff = 0 ∨ 5 * second ≤ (retryPolicy step).backoff := by
  unfold retryPolicy atMostOnce second
  split_ifs <;> simp

theorem backoff_bounds (step : Step) (n : ℕ) : (retryPolicy step).loops n ≤ 6 ∧
    0 ≤ backoff (retryPolicy step) n ∧ backoff (retryPolicy step) n ≤ maxBackoff := by
  obtain hp | hp := retryPolicy_backoff step
  · simp [Policy.loops, backoff, hp, maxBackoff, second]
  · have hpo : 0 < (retryPolicy step).backoff := by unfold second at hp; omega
    rw [Policy.loops, backoff, if_neg (by omega), if_neg (by omega), doubled_eq_min hpo]
    refine ⟨doublings_le (ceiling_le hp le_rfl), le_min (by positivity) ?_, min_le_right _ _⟩
    norm_num [maxBackoff, second]

/-- The wait is bounded, and it does not shrink from one number of attempts to a larger one exactly
if the smaller one is not zero, or the waits are all zero or the larger one has met the ceiling. -/
theorem backoff_sound_iff (step : Step) {m n : ℕ} (hmn : m ≤ n) (hn : n < 2 ^ 32) :
    (∀ k, (retryPolicy step).loops k ≤ 6 ∧ 0 ≤ backoff (retryPolicy step) k ∧
        backoff (retryPolicy step) k ≤ maxBackoff) ∧
      backoff (retryPolicy step) m ≤ backoff (retryPolicy step) n ↔
    0 < m ∨ n = 0 ∨ (retryPolicy step).backoff = 0 ∨
      maxBackoff ≤ (retryPolicy step).backoff * 2 ^ (n - 1) := by
  refine (and_iff_right (backoff_bounds step)).trans ?_
  obtain hp | hp := retryPolicy_backoff step
  · simp [backoff, hp]
  have hpo : 0 < (retryPolicy step).backoff := by unfold second at hp; omega
  cases n with
  | zero => simp [Nat.le_zero.mp hmn]
  | succ n =>
    rw [backoff_of_pos hpo (by omega)]
    cases m with
    | zero => simp [backoff_zero hp, hpo.ne']
    | succ m =>
      rw [backoff_of_pos hpo (by omega)]
      have hpow : (2 : ℤ) ^ m ≤ 2 ^ n := pow_le_pow_right₀ (by norm_num) (by omega)
      have hle := min_le_min_right maxBackoff (mul_le_mul_of_nonneg_left hpow hpo.le)
      simpa using hle

def lint : Step := { id := "lint", effectClass := .pure }

theorem lint_second_wait : 1 ≤ 2 ∧ 2 < 2 ^ 32 ∧
    backoff (retryPolicy lint) 1 ≤ backoff (retryPolicy lint) 2 :=
  ⟨by decide, by decide, ((backoff_sound_iff lint (by decide) (by decide)).mpr (.inl one_pos)).2⟩

theorem lint_unattempted_wait : backoff (retryPolicy lint) 1 < backoff (retryPolicy lint) 0 := by
  decide

end Dhole.Effects
