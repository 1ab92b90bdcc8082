import Dhole.Numerals
import Dhole.RunStore

/-! Times as the run store keeps them: as text. The format drops the trailing zeros of the
fraction, and the whole fraction if it is zero, so that within one second the texts are in the
order of the times only where neither fraction extends the other. -/

namespace Dhole.Timestamps

open Numerals RunStore List

/-! ### The calendar -/

def isLeap (year : ℤ) : Bool := year % 4 = 0 ∧ (year % 100 ≠ 0 ∨ year % 400 = 0)

def daysIn (year : ℤ) (month : ℕ) : ℕ :=
  if month = 2 then if isLeap year then 29 else 28
  else if month = 4 ∨ month = 6 ∨ month = 9 ∨ month = 11 then 30 else 31

def daysBeforeMonth (year : ℤ) (month : ℕ) : ℕ :=
  ((List.range (month - 1)).map fun k => daysIn year (k + 1)).sum

def daysBeforeYear (year : ℤ) : ℤ :=
  365 * (year - 1) + (year - 1) / 4 - (year - 1) / 100 + (year - 1) / 400

structure Instant where
  year : ℤ
  month : ℕ
  day : ℕ
  hour : ℕ
  minute : ℕ
  second : ℕ
  nanosecond : ℕ
  month_mem : 1 ≤ month ∧ month ≤ 12
  day_mem : 1 ≤ day ∧ day ≤ daysIn year month
  clock_lt : hour < 24 ∧ minute < 60 ∧ second < 60
  nanosecond_lt : nanosecond < 10 ^ 9

namespace Instant

def days (t : Instant) : ℤ := daysBeforeYear t.year + daysBeforeMonth t.year t.month + t.day

/-- Nanoseconds since the beginning of year one. -/
def instant (t : Instant) : ℤ :=
  (((t.days - 1) * 24 + t.hour) * 60 + t.minute) * 60000000000 + t.second * 1000000000 +
    t.nanosecond

instance : LE Instant := ⟨fun a b => a.instant ≤ b.instant⟩

instance (a b : Instant) : Decidable (a ≤ b) := inferInstanceAs (Decidable (a.instant ≤ b.instant))

end Instant

/-! ### The format -/

def padded (n : ℕ) : List Char := fixed (max 4 (Nat.log 10 n + 1)) n

def yearText (year : ℤ) : List Char :=
  if year < 0 then '-' :: padded (-year).toNat else padded year.toNat

def fraction (nanosecond : ℕ) : List Char := (fixed 9 nanosecond).rdropWhile (· = '0')

def fractionText (nanosecond : ℕ) : List Char :=
  if fraction nanosecond = [] then [] else '.' :: fraction nanosecond

/-- `time.RFC3339Nano`, in UTC. -/
def Instant.format (t : Instant) : List Char :=
  yearText t.year ++ ('-' :: fixed 2 t.month ++ ('-' :: fixed 2 t.day ++ ('T' :: fixed 2 t.hour ++
    (':' :: fixed 2 t.minute ++ (':' :: fixed 2 t.second ++
      (fractionText t.nanosecond ++ ['Z']))))))

/-! ### Times in the order of their fields -/

variable {year : ℤ} {m m' : ℕ}

theorem daysBeforeYear_succ (year : ℤ) :
    daysBeforeYear (year + 1) = daysBeforeYear year + if isLeap year then 366 else 365 := by
  unfold daysBeforeYear isLeap
  by_cases h4 : year % 4 = 0
  · by_cases h100 : year % 100 = 0
    · by_cases h400 : year % 400 = 0
      · simp [h4, h400]
        omega
      · simp [h4, h100, h400]
        omega
    · simp [h4, h100]
      omega
  · simp [h4]
    omega

theorem daysBeforeYear_mono {y z : ℤ} (h : y ≤ z) : daysBeforeYear y ≤ daysBeforeYear z := by
  unfold daysBeforeYear
  omega

theorem daysBeforeMonth_succ (hm : 1 ≤ m) :
    daysBeforeMonth year (m + 1) = daysBeforeMonth year m + daysIn year m := by
  obtain ⟨k, rfl⟩ : ∃ k, m = k + 1 := ⟨m - 1, by omega⟩
  simp [daysBeforeMonth, range_succ]

theorem daysBeforeMonth_mono (hm : 1 ≤ m) (h : m ≤ m') :
    daysBeforeMonth year m ≤ daysBeforeMonth year m' := by
  induction h with
  | refl => exact le_rfl
  | @step k hk ih =>
    rw [daysBeforeMonth_succ (hm.trans hk)]
    omega

theorem daysBeforeMonth_year (year : ℤ) :
    daysBeforeMonth year 13 = if isLeap year then 366 else 365 := by
  cases h : isLeap year <;> simp [daysBeforeMonth, daysIn, h, range_succ]

def Instant.stamp (t : Instant) : ℤ :=
  ((((t.year * 100 + t.month) * 100 + t.day) * 100 + t.hour) * 100 + t.minute) * 100 + t.second

variable {a b : Instant}

theorem days_le_month (t : Instant) :
    t.days ≤ daysBeforeYear t.year + daysBeforeMonth t.year (t.month + 1) := by
  have hd := t.day_mem.2
  rw [Instant.days, daysBeforeMonth_succ t.month_mem.1]
  omega

theorem days_le_year (t : Instant) : t.days ≤ daysBeforeYear (t.year + 1) := by
  have hmo := t.month_mem
  have hm : daysBeforeMonth t.year (t.month + 1) ≤ daysBeforeMonth t.year 13 :=
    daysBeforeMonth_mono (by omega) (by omega)
  have hle := days_le_month t
  rw [daysBeforeMonth_year] at hm
  rw [daysBeforeYear_succ]
  split at hm <;> rename_i hl <;> simp only [hl] <;> simp <;> omega

theorem days_lt_of_year (h : a.year < b.year) : a.days < b.days := by
  have hle := days_le_year a
  have hm : daysBeforeYear (a.year + 1) ≤ daysBeforeYear b.year := daysBeforeYear_mono (by omega)
  have hd := b.day_mem.1
  have hb : b.days = daysBeforeYear b.year + daysBeforeMonth b.year b.month + b.day := rfl
  omega

theorem days_lt_of_month (hy : a.year = b.year) (h : a.month < b.month) : a.days < b.days := by
  have hle := days_le_month a
  have hm : daysBeforeMonth b.year (a.month + 1) ≤ daysBeforeMonth b.year b.month :=
    daysBeforeMonth_mono (by omega) (by omega)
  have hd := b.day_mem.1
  have hb : b.days = daysBeforeYear b.year + daysBeforeMonth b.year b.month + b.day := rfl
  rw [hy] at hle
  omega

theorem days_sub (hy : a.year = b.year) (hm : a.month = b.month) :
    a.days - b.days = a.day - b.day := by
  rw [Instant.days, Instant.days, hy, hm]
  omega

theorem fields_le (t : Instant) :
    (1 ≤ t.month ∧ t.month ≤ 12) ∧ t.day ≤ 31 ∧ t.hour < 24 ∧ t.minute < 60 ∧ t.second < 60 := by
  have hd := t.day_mem.2
  refine ⟨t.month_mem, ?_, t.clock_lt⟩
  unfold daysIn at hd
  split at hd
  · split at hd <;> omega
  · split at hd <;> omega

theorem instant_lt_of_stamp_lt (h : a.stamp < b.stamp) : a.instant < b.instant := by
  have ha := fields_le a
  have hb := fields_le b
  have hna := a.nanosecond_lt
  unfold Instant.stamp at h
  unfold Instant.instant
  rcases lt_trichotomy a.year b.year with hy | hy | hy
  · have hd := days_lt_of_year hy
    omega
  · rcases lt_trichotomy a.month b.month with hm | hm | hm
    · have hd := days_lt_of_month hy hm
      omega
    · have hd := days_sub hy hm
      omega
    · omega
  · omega

theorem instant_sub_of_stamp_eq (h : a.stamp = b.stamp) :
    a.instant - b.instant = a.nanosecond - b.nanosecond := by
  have ha := fields_le a
  have hb := fields_le b
  unfold Instant.stamp at h
  have hy : a.year = b.year := by omega
  have hm : a.month = b.month := by omega
  have hd := days_sub hy hm
  unfold Instant.instant
  omega

theorem instant_le_iff : a ≤ b ↔
    a.stamp < b.stamp ∨ a.stamp = b.stamp ∧ a.nanosecond ≤ b.nanosecond := by
  change a.instant ≤ b.instant ↔ _
  rcases lt_trichotomy a.stamp b.stamp with h | h | h
  · have hlt := instant_lt_of_stamp_lt h
    simp [h, hlt.le]
  · have hs := instant_sub_of_stamp_eq h
    omega
  · have hlt := instant_lt_of_stamp_lt h
    constructor
    · omega
    · rintro (h' | ⟨h', -⟩) <;> omega

/-! ### Fractions -/

variable {n : ℕ}

def fractionTail (n : ℕ) : List Char := fractionText n ++ ['Z']

theorem fraction_append (n : ℕ) :
    fixed 9 n = fraction n ++ List.replicate (9 - (fraction n).length) '0' := by
  have hs : fraction n ++ (fixed 9 n).rtakeWhile (· = '0') = fixed 9 n :=
    rdropWhile_append_rtakeWhile
  have hl : (fraction n).length + ((fixed 9 n).rtakeWhile (· = '0')).length = 9 := by
    rw [← length_append, hs, length_fixed]
  have hz : (fixed 9 n).rtakeWhile (· = '0') =
      List.replicate (9 - (fraction n).length) '0' := by
    refine eq_replicate_iff.mpr ⟨by omega, fun c hc => ?_⟩
    simpa using mem_rtakeWhile_imp hc
  rw [← hz, hs]

theorem bounds_of_mem_fraction {c : Char} (h : c ∈ fraction n) : '0' ≤ c ∧ c ≤ '9' := by
  refine bounds_of_mem_fixed (w := 9) (n := n) ?_
  rw [fraction_append]
  exact mem_append_left _ h

theorem fraction_inj (hn : n < 10 ^ 9) (hm : m < 10 ^ 9) (h : fraction n = fraction m) : n = m := by
  refine fixed_inj hn hm ?_
  rw [fraction_append n, fraction_append m, h]

theorem not_lt_replicate {l : List Char} {k : ℕ} (hl : ∀ c ∈ l, '0' ≤ c) (hk : l.length = k) :
    ¬ l < List.replicate k '0' := by
  induction l generalizing k with
  | nil =>
    subst hk
    simp
  | cons c l ih =>
    obtain ⟨hc, hl⟩ := forall_mem_cons.mp hl
    subst hk
    rw [length_cons, replicate_succ, cons_lt_cons_iff]
    rintro (hlt | ⟨-, hlt⟩)
    · exact absurd hlt (not_lt.mpr hc)
    · exact ih hl rfl hlt

/-- A fraction that goes on is of a later time, and its text is before that of the shorter one. -/
theorem tail_lt_of_extends (hn : n < 10 ^ 9) (hm : m < 10 ^ 9) {d : Char} {r : List Char}
    (h : fraction m = fraction n ++ d :: r) : n < m ∧ fractionTail m < fractionTail n := by
  have hd : d ≤ '9' := (bounds_of_mem_fraction (by rw [h]; simp)).2
  constructor
  · have hne : n ≠ m := by
      rintro rfl
      have hl := congrArg List.length h
      simp at hl
    have hle : ¬ m < n := by
      rw [← fixed_lt_iff hm hn]
      have hf : fixed 9 m = fraction n ++
          (d :: r ++ List.replicate (9 - (fraction m).length) '0') := by
        rw [fraction_append m, ← append_assoc, ← h]
      have hl : (d :: r ++ List.replicate (9 - (fraction m).length) '0').length =
          9 - (fraction n).length := by
        have hl := congrArg List.length hf
        rw [length_fixed, length_append] at hl
        omega
      rw [hf, fraction_append n, append_lt_append_iff rfl]
      rintro (hlt | ⟨-, hlt⟩)
      · exact lt_irrefl _ hlt
      · refine not_lt_replicate (fun c hc => ?_) hl hlt
        rcases mem_append.mp hc with hc | hc
        · exact (bounds_of_mem_fraction (by rw [h]; exact mem_append_right _ hc)).1
        · rw [eq_of_mem_replicate hc]
    omega
  · have hlo : fractionText m = '.' :: (fraction n ++ d :: r) := by
      rw [fractionText, h, if_neg (by simp)]
    by_cases hs : fraction n = []
    · rw [fractionTail, fractionTail, hlo, fractionText, if_pos hs]
      exact cons_lt_cons_iff.mpr (.inl (by decide))
    · rw [fractionTail, fractionTail, hlo, fractionText, if_neg hs]
      have hp : '.' :: (fraction n ++ d :: r) ++ ['Z'] =
          ('.' :: fraction n) ++ d :: (r ++ ['Z']) := by simp
      have hz : d < 'Z' := lt_of_le_of_lt hd (by decide)
      rw [hp, append_cons_lt_iff hz.ne]
      exact hz

theorem tail_lt_of_parts (hn : n < 10 ^ 9) (hm : m < 10 ^ 9) {p x y : List Char} {c d : Char}
    (hne : c ≠ d) (hfn : fraction n = p ++ c :: x) (hfm : fraction m = p ++ d :: y) :
    (n < m ↔ c < d) ∧ (fractionTail n < fractionTail m ↔ c < d) := by
  constructor
  · rw [← fixed_lt_iff hn hm, fraction_append n, fraction_append m]
    rw [show fraction n ++ List.replicate (9 - (fraction n).length) '0' =
        p ++ c :: (x ++ List.replicate (9 - (fraction n).length) '0') by rw [hfn]; simp,
      show fraction m ++ List.replicate (9 - (fraction m).length) '0' =
        p ++ d :: (y ++ List.replicate (9 - (fraction m).length) '0') by rw [hfm]; simp]
    exact append_cons_lt_iff hne
  · have ht : ∀ {k e z}, fraction k = p ++ e :: z →
        fractionTail k = ('.' :: p) ++ e :: (z ++ ['Z']) := by
      intro k e z hk
      rw [fractionTail, fractionText, hk]
      simp
    rw [ht hfn, ht hfm]
    exact append_cons_lt_iff hne

def Apart (n m : ℕ) : Prop := fraction n <+: fraction m ∨ fraction m <+: fraction n → n = m

instance : Decidable (Apart n m) := inferInstanceAs (Decidable (_ → _))

theorem tail_le_iff (hn : n < 10 ^ 9) (hm : m < 10 ^ 9) :
    (fractionTail n ≤ fractionTail m ↔ n ≤ m) ↔ Apart n m := by
  have hp : ∀ {k l : ℕ}, k < 10 ^ 9 → l < 10 ^ 9 → fraction k <+: fraction l → k ≠ l →
      k < l ∧ fractionTail l < fractionTail k := by
    intro k l hk hl hpr hne
    obtain ⟨r, hr⟩ := hpr
    cases r with
    | nil =>
      rw [append_nil] at hr
      exact absurd (fraction_inj hk hl hr) hne
    | cons d r => exact tail_lt_of_extends hk hl hr.symm
  by_cases hnm : n = m
  · subst hnm
    simp [Apart]
  obtain hpr | hpr | ⟨p, c, d, x, y, hne, hfn, hfm⟩ := part_cases (fraction n) (fraction m)
  · obtain ⟨hlt, ht⟩ := hp hn hm hpr hnm
    simp [Apart, hpr, hnm, hlt.le, ht]
  · obtain ⟨hlt, ht⟩ := hp hm hn hpr (Ne.symm hnm)
    simp [Apart, hpr, hnm, hlt, ht.le]
  · have ha : Apart n m := by
      rintro (hpr | hpr)
      · rw [hfn, hfm, prefix_append_right_inj, cons_prefix_cons] at hpr
        exact absurd hpr.1 hne
      · rw [hfn, hfm, prefix_append_right_inj, cons_prefix_cons] at hpr
        exact absurd hpr.1 (Ne.symm hne)
    obtain ⟨hnu, ht⟩ := tail_lt_of_parts hm hn (Ne.symm hne) hfm hfn
    simp only [ha, iff_true]
    rw [← not_lt, ← not_lt, ht, hnu]

/-! ### Texts -/

theorem padded_of_lt {n : ℕ} (hn : n < 10 ^ 4) : padded n = fixed 4 n := by
  have hl : Nat.log 10 n < 4 := Nat.log_lt_of_lt_pow' (by decide) hn
  rw [padded, max_eq_left (by omega)]

theorem yearText_of_le {year : ℤ} (h₀ : 0 ≤ year) (h : year ≤ 9999) :
    yearText year = fixed 4 year.toNat := by
  rw [yearText, if_neg (by omega), padded_of_lt (by omega)]

theorem part_lt_iff {c : Char} {w n m : ℕ} {x y : List Char} (hn : n < 10 ^ w) (hm : m < 10 ^ w) :
    c :: fixed w n ++ x < c :: fixed w m ++ y ↔ n < m ∨ n = m ∧ x < y := by
  rw [append_lt_append_iff (by simp), cons_lt_cons_iff, fixed_lt_iff hn hm, cons.injEq,
    fixed_eq_iff hn hm]
  simp

/-- Years of four digits: the texts down to the second are in the order of the times. -/
theorem format_lt_iff (ha : 0 ≤ a.year ∧ a.year ≤ 9999) (hb : 0 ≤ b.year ∧ b.year ≤ 9999) :
    a.format < b.format ↔ a.stamp < b.stamp ∨
      a.stamp = b.stamp ∧ fractionTail a.nanosecond < fractionTail b.nanosecond := by
  have hfa := fields_le a
  have hfb := fields_le b
  have hy : ∀ {x y : List Char}, fixed 4 a.year.toNat ++ x < fixed 4 b.year.toNat ++ y ↔
      a.year.toNat < b.year.toNat ∨ a.year.toNat = b.year.toNat ∧ x < y := by
    intro x y
    rw [append_lt_append_iff (by simp), fixed_lt_iff (by omega) (by omega),
      fixed_eq_iff (by omega) (by omega)]
  rw [Instant.format, Instant.format, yearText_of_le ha.1 ha.2, yearText_of_le hb.1 hb.2, hy,
    part_lt_iff (by omega) (by omega), part_lt_iff (by omega) (by omega),
    part_lt_iff (by omega) (by omega), part_lt_iff (by omega) (by omega),
    part_lt_iff (by omega) (by omega)]
  change _ ∨ _ ∧ (_ ∨ _ ∧ (_ ∨ _ ∧ (_ ∨ _ ∧ (_ ∨ _ ∧ (_ ∨ _ ∧
    fractionTail a.nanosecond < fractionTail b.nanosecond))))) ↔ _
  unfold Instant.stamp
  by_cases ht : fractionTail a.nanosecond < fractionTail b.nanosecond
  · simp only [ht, and_true]
    omega
  · simp only [ht, and_false, or_false]
    omega

def leading (year : ℤ) : ℤ := (year.toNat / 10 ^ (Nat.log 10 year.toNat - 3) : ℕ)

theorem format_le_of_long_year (ha : 0 ≤ a.year ∧ a.year ≤ 9999) (hb : 9999 < b.year) :
    a.format ≤ b.format ↔ a.year ≤ leading b.year := by
  obtain ⟨k, hk⟩ : ∃ k, Nat.log 10 b.year.toNat = k + 4 := by
    have hlo : 4 ≤ Nat.log 10 b.year.toNat :=
      Nat.le_log_of_pow_le (by decide) (by omega)
    exact ⟨Nat.log 10 b.year.toNat - 4, by omega⟩
  have hle : b.year.toNat / 10 ^ (k + 1) < 10 ^ 4 := by
    have hlt := Nat.lt_pow_succ_log_self (b := 10) (by decide) b.year.toNat
    rw [Nat.div_lt_iff_lt_mul (by positivity), ← pow_add]
    convert hlt using 2
    omega
  have hy : yearText b.year =
      fixed 4 (b.year.toNat / 10 ^ (k + 1)) ++ fixed (k + 1) b.year.toNat := by
    rw [yearText, if_neg (by omega), padded, hk, max_eq_right (by omega),
      show k + 4 + 1 = 4 + (k + 1) by omega, fixed_add]
  have hl : leading b.year = (b.year.toNat / 10 ^ (k + 1) : ℕ) := by
    rw [leading, hk]
    rfl
  have hn : ∀ x y : List Char, ¬ fixed (k + 1) b.year.toNat ++ x < '-' :: y := by
    intro x y
    obtain ⟨c, l, hcl, hc⟩ := fixed_succ_cons k b.year.toNat
    rw [hcl, cons_append, cons_lt_cons_iff]
    rintro (hlt | ⟨rfl, -⟩)
    · exact absurd (hc.trans_lt hlt) (by decide)
    · exact absurd hc (by decide)
  rw [← not_lt, Instant.format, Instant.format, hy, yearText_of_le ha.1 ha.2, append_assoc,
    append_lt_append_iff (by simp), fixed_lt_iff hle (by omega)]
  have hs := hn ('-' :: fixed 2 b.month ++ ('-' :: fixed 2 b.day ++ ('T' :: fixed 2 b.hour ++
    (':' :: fixed 2 b.minute ++ (':' :: fixed 2 b.second ++
      (fractionText b.nanosecond ++ ['Z'])))))) (fixed 2 a.month ++ ('-' :: fixed 2 a.day ++
    ('T' :: fixed 2 a.hour ++ (':' :: fixed 2 a.minute ++ (':' :: fixed 2 a.second ++
      (fractionText a.nanosecond ++ ['Z']))))))
  rw [show ('-' :: fixed 2 a.month ++ ('-' :: fixed 2 a.day ++ _) : List Char) =
    '-' :: (fixed 2 a.month ++ ('-' :: fixed 2 a.day ++ _)) from rfl]
  simp only [hs, and_false, or_false]
  omega

theorem format_lt_of_negative_year (ha : 0 ≤ a.year ∧ a.year ≤ 9999) (hb : b.year < 0) :
    b.format < a.format := by
  obtain ⟨c, l, hcl, hc⟩ := fixed_succ_cons 3 a.year.toNat
  rw [Instant.format, Instant.format, yearText, if_pos hb, yearText_of_le ha.1 ha.2, hcl]
  exact cons_lt_cons_iff.mpr (.inl (lt_of_lt_of_le (by decide) hc))

/-- The condition under which the text of one time says whether the other has come. -/
def Agrees (due now : Instant) : Prop :=
  if 9999 < now.year then due.year ≤ leading now.year
  else due.stamp = now.stamp → Apart due.nanosecond now.nanosecond

instance (due now : Instant) : Decidable (Agrees due now) :=
  inferInstanceAs (Decidable (if 9999 < now.year then due.year ≤ leading now.year
    else due.stamp = now.stamp → Apart due.nanosecond now.nanosecond))

theorem format_le_iff (ha : 0 ≤ a.year ∧ a.year ≤ 9999) :
    (a.format ≤ b.format ↔ a ≤ b) ↔ Agrees a b := by
  have hs : ∀ {c d : Instant}, c.year < d.year → c.stamp < d.stamp := by
    intro c d h
    have hc := fields_le c
    unfold Instant.stamp
    omega
  rw [Agrees]
  split
  · rename_i hl
    have hle : a ≤ b := instant_le_iff.mpr (.inl (hs (by omega)))
    rw [format_le_of_long_year ha hl]
    simp [hle]
  by_cases hn : b.year < 0
  · have hlt := hs (c := b) (d := a) (by omega)
    have hno : ¬ a ≤ b := by
      rw [instant_le_iff]
      omega
    have ht := format_lt_of_negative_year ha hn
    simp only [not_le.mpr ht, hno, true_iff]
    omega
  have hb : 0 ≤ b.year ∧ b.year ≤ 9999 := by omega
  rw [← not_lt, format_lt_iff hb ha, instant_le_iff]
  rcases lt_trichotomy a.stamp b.stamp with h | h | h
  · simp [h, h.ne, h.ne', h.not_gt]
  · rw [← tail_le_iff a.nanosecond_lt b.nanosecond_lt]
    simp [h]
  · simp [h, h.ne', h.not_gt]

/-! ### Timers -/

/-- A timer as it was armed: its due time has to be written out as JSON, which knows years of four
digits only. -/
structure Armed where
  key : TimerKey
  due : Instant
  fired : Bool
  year_mem : 0 ≤ due.year ∧ due.year ≤ 9999

def Armed.row (t : Armed) : TimerRow := ⟨t.key, t.due.format, t.fired⟩

def tablesOf (timers : List Armed) : Tables := { timers := timers.map Armed.row }

/-- The texts of times are in the order of the times exactly where neither fraction of a second
extends the other, and a poll that has room for all it finds claims exactly the outstanding timers
that are due if and only if that holds of each of them. -/
theorem due_chronological_iff (now : Instant) : (∀ due : Instant, 0 ≤ due.year ∧ due.year ≤ 9999 →
      ((due.format ≤ now.format ↔ due ≤ now) ↔ Agrees due now)) ∧
    ∀ (timers : List Armed) (batch : ℕ),
      ((tablesOf timers).due (fun _ => false) now.format).length ≤ batch →
      ((∀ t ∈ timers, t.row ∈ (tablesOf timers).claim (fun _ => false) now.format batch ↔
          t.fired = false ∧ t.due ≤ now) ↔ ∀ t ∈ timers, t.fired = false → Agrees t.due now) := by
  refine ⟨fun due hd => format_le_iff hd, fun timers batch hr => ?_⟩
  refine forall₂_congr fun t ht => ?_
  have hm : t.row ∈ (tablesOf timers).timers := mem_map_of_mem ht
  rw [Tables.claim, take_of_length_le hr, mem_due, ← format_le_iff t.year_mem]
  simp only [hm, true_and, and_true]
  change (t.fired = false ∧ t.due.format ≤ now.format ↔ _) ↔ _
  cases t.fired <;> simp

def noon : Instant := ⟨2026, 1, 5, 12, 0, 0, 0, by decide, by decide, by decide, by decide⟩

def quarterPast : Instant :=
  ⟨2026, 1, 5, 12, 0, 0, 250000000, by decide, by decide, by decide, by decide⟩

def halfPast : Instant :=
  ⟨2026, 1, 5, 12, 0, 0, 500000000, by decide, by decide, by decide, by decide⟩

def threeQuartersPast : Instant :=
  ⟨2026, 1, 5, 12, 0, 0, 750000000, by decide, by decide, by decide, by decide⟩

def armedFor (due : Instant) (h : 0 ≤ due.year ∧ due.year ≤ 9999) : Armed :=
  ⟨⟨"acme", "run-1", "wait"⟩, due, false, h⟩

def aroundHalf : List Armed :=
  [armedFor quarterPast (by decide), armedFor threeQuartersPast (by decide)]

theorem quarter_due_at_half : quarterPast.format ≤ halfPast.format ∧
    ∀ t ∈ aroundHalf, t.row ∈ (tablesOf aroundHalf).claim (fun _ => false) halfPast.format 100 ↔
      t.fired = false ∧ t.due ≤ halfPast :=
  ⟨(((due_chronological_iff halfPast).1 quarterPast (by decide)).mpr (by decide +kernel)).mpr
    (by decide), ((due_chronological_iff halfPast).2 aroundHalf 100 (by decide +kernel)).mpr
      (by decide +kernel)⟩

/-- A poll at noon claims a timer that is due half a second later, and a poll half a second past
noon misses one that was due at noon. -/
theorem half_second_fires_early : ((armedFor halfPast (by decide)).row ∈
        (tablesOf [armedFor halfPast (by decide)]).claim (fun _ => false) noon.format 100 ∧
      ¬ halfPast ≤ noon) ∧ (armedFor noon (by decide)).row ∉
        (tablesOf [armedFor noon (by decide)]).claim (fun _ => false) halfPast.format 100 ∧
      noon ≤ halfPast := by
  decide +kernel

end Dhole.Timestamps
