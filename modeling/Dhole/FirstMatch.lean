import Mathlib

/-! Lists edited at the first element a predicate picks. An element is rewritten in
place, removed, or removed and appended again, and the lemmas say when the list
that went in comes out. The predicate is read on images under a map, because two
elements that only differ in what the map forgets are to count as equal. Of a list that
grows at its end the last element picked is what counts. -/

namespace Dhole.FirstMatch

open List

variable {α β : Type*} {pick : α → Bool} {f g : α → α} {l : List α} {a : α}

def updateFirst (pick : α → Bool) (f : α → α) : List α → List α
  | [] => []
  | a :: l => if pick a then f a :: l else a :: updateFirst pick f l

theorem find?_updateFirst (hf : ∀ a, pick a → pick (f a)) (l : List α) :
    (updateFirst pick f l).find? pick = (l.find? pick).map f := by
  induction l with
  | nil => rfl
  | cons a l ih =>
    by_cases ha : pick a
    · simp [updateFirst, ha, hf a ha]
    · simp [updateFirst, ha, ih]

theorem updateFirst_updateFirst (hf : ∀ a, pick a → pick (f a)) (l : List α) :
    updateFirst pick g (updateFirst pick f l) = updateFirst pick (fun a => g (f a)) l := by
  induction l with
  | nil => rfl
  | cons a l ih =>
    by_cases ha : pick a
    · simp [updateFirst, ha, hf a ha]
    · simp [updateFirst, ha, ih]

theorem length_updateFirst (l : List α) : (updateFirst pick f l).length = l.length := by
  induction l with
  | nil => rfl
  | cons a l ih =>
    by_cases ha : pick a
    · simp [updateFirst, ha]
    · simp [updateFirst, ha, ih]

/-- Rewriting the element found is seen through a map exactly when the map tells the
old element from the new one. -/
theorem map_updateFirst_eq_iff (view : α → β) (hf : l.find? pick = some a) :
    (updateFirst pick f l).map view = l.map view ↔ view (f a) = view a := by
  induction l with
  | nil => simp at hf
  | cons b l ih =>
    by_cases hb : pick b
    · obtain rfl : b = a := by simpa [hb] using hf
      simp [updateFirst, hb]
    · have hr : l.find? pick = some a := by simpa [hb] using hf
      simpa [updateFirst, hb] using ih hr

/-! ### Removing and putting back -/

def LastOnly (pick : α → Bool) (l : List α) : Prop :=
  ∃ init a, l = init ++ [a] ∧ pick a ∧ ∀ b ∈ init, ¬ pick b

theorem LastOnly.find?_getLast {init : List α} (ha : pick a) (hin : ∀ b ∈ init, ¬ pick b) :
    (init ++ [a]).find? pick = some a :=
  find?_eq_some_iff_append.mpr ⟨ha, init, [], rfl, fun b hb => by simpa using hin b hb⟩

/-- Whatever list without picked elements is put before the element found, it is the
rest of the list only if that element was the last one and the only one. -/
theorem append_eq_iff_lastOnly {rest : List α} (hr : ∀ b ∈ rest, ¬ pick b)
    (hs : LastOnly pick l → rest = l.dropLast) (hf : l.find? pick = some a) :
    rest ++ [a] = l ↔ LastOnly pick l := by
  constructor
  · intro h
    have ha : pick a := find?_some hf
    exact ⟨rest, a, h.symm, ha, hr⟩
  · intro h
    rw [hs h]
    obtain ⟨init, x, rfl, hx, hin⟩ := h
    rw [LastOnly.find?_getLast hx hin, Option.some.injEq] at hf
    rw [dropLast_concat, hf]

theorem filter_append_eq_iff (hf : l.find? pick = some a) :
    (l.filter fun b => !pick b) ++ [a] = l ↔ LastOnly pick l := by
  refine append_eq_iff_lastOnly (fun b hb => ?_) (fun h => ?_) hf
  · simpa using (mem_filter.mp hb).2
  · obtain ⟨init, x, rfl, hx, hin⟩ := h
    have hk : init.filter (fun b => !pick b) = init :=
      filter_eq_self.mpr fun b hb => by simpa using hin b hb
    simp [hk, hx]

theorem eraseP_append_eq_iff (hf : l.find? pick = some a) (hr : (l.eraseP pick).find? pick = none) :
    l.eraseP pick ++ [a] = l ↔ LastOnly pick l := by
  refine append_eq_iff_lastOnly (fun b hb => ?_) (fun h => ?_) hf
  · simpa using find?_eq_none.mp hr b hb
  · obtain ⟨init, x, rfl, hx, hin⟩ := h
    rw [eraseP_append_right _ hin]
    simp [hx]

theorem LastOnly.eraseP_find?_eq_none (h : LastOnly pick l) :
    (l.eraseP pick).find? pick = none := by
  obtain ⟨init, x, rfl, hx, hin⟩ := h
  rw [eraseP_append_right _ hin]
  simpa [hx] using hin

theorem LastOnly.map_iff (view : α → β) {q : β → Bool} :
    LastOnly q (l.map view) ↔ LastOnly (fun a => q (view a)) l := by
  constructor
  · rintro ⟨init, b, hl, hb, hin⟩
    obtain ⟨l₁, l₂, rfl, rfl, ht⟩ := map_eq_append_iff.mp hl
    obtain ⟨x, rfl, rfl⟩ := map_eq_singleton_iff.mp ht
    exact ⟨l₁, x, rfl, hb, fun a ha => hin _ (mem_map_of_mem ha)⟩
  · rintro ⟨init, x, rfl, hx, hin⟩
    refine ⟨init.map view, view x, by simp, hx, fun b hb => ?_⟩
    obtain ⟨a, ha, rfl⟩ := mem_map.mp hb
    exact hin a ha

/-! ### The last element picked -/

/-- The last element that is picked, each by what stands before it. -/
def LastPick (picks : List α → α → Prop) (l : List α) (a : α) : Prop :=
  ∃ us vs, l = us ++ a :: vs ∧ picks us a ∧
    ∀ ws b zs, vs = ws ++ b :: zs → ¬ picks (us ++ a :: ws) b

variable {picks : List α → α → Prop} {b : α}

theorem not_lastPick_nil : ¬ LastPick picks [] a := fun ⟨_, _, h, _⟩ => by simp at h

theorem lastPick_concat : LastPick picks (l ++ [b]) a ↔
    picks l b ∧ a = b ∨ ¬ picks l b ∧ LastPick picks l a := by
  constructor
  · rintro ⟨us, vs, h, hp, hvs⟩
    obtain rfl | ⟨vs, c, rfl⟩ := eq_nil_or_concat' vs
    · obtain ⟨rfl, hb⟩ := append_inj' h rfl
      obtain rfl := singleton_inj.mp hb
      exact .inl ⟨hp, rfl⟩
    · rw [← cons_append, ← append_assoc] at h
      obtain ⟨rfl, hb⟩ := append_inj' h rfl
      obtain rfl := singleton_inj.mp hb
      exact .inr ⟨hvs vs b [] rfl, us, vs, rfl, hp, fun ws d zs hd =>
        hvs ws d (zs ++ [b]) (by simp [hd])⟩
  · rintro (⟨hp, rfl⟩ | ⟨hn, us, vs, rfl, hp, hvs⟩)
    · exact ⟨l, [], rfl, hp, by simp⟩
    · refine ⟨us, vs ++ [b], by simp, hp, fun ws d zs h => ?_⟩
      obtain rfl | ⟨zs, c, rfl⟩ := eq_nil_or_concat' zs
      · obtain ⟨rfl, hb⟩ := append_inj' h rfl
        exact singleton_inj.mp hb ▸ hn
      · rw [← cons_append, ← append_assoc] at h
        exact hvs ws d zs (append_inj' h rfl).1

theorem LastPick.eq {c : α} (h : LastPick picks l a) (h' : LastPick picks l c) : a = c := by
  induction l using reverseRecOn with
  | nil => exact absurd h not_lastPick_nil
  | append_singleton l b ih =>
    rw [lastPick_concat] at h h'
    obtain ⟨hp, rfl⟩ | ⟨hn, h⟩ := h
    · exact (h'.resolve_right fun h => h.1 hp).2.symm
    · exact ih h (h'.resolve_left fun h => hn h.1).2

/-! ### Positions -/

variable {i k : ℕ}

/-- An element taken out at its own position and put back no later is in its place
only at that position. -/
theorem insertIdx_eraseIdx_eq_iff (hi : l.findIdx? pick = some i) (hk : k ≤ i)
    (ha : l[i]? = some a) : (l.eraseIdx i).insertIdx k a = l ↔ k = i := by
  obtain ⟨hlt, hp, hf⟩ := findIdx?_eq_some_iff_getElem.mp hi
  obtain rfl : l[i] = a := by simpa [hlt] using ha
  constructor
  · intro h
    by_contra hne
    have hki : k < i := by omega
    -- the element now sits at `k`, where the list held one the predicate does not pick
    have hat : l[k]? = some l[i] := by
      have hl : k < ((l.eraseIdx i).insertIdx k l[i]).length := by rw [h]; omega
      conv_lhs => rw [← h]
      rw [getElem?_eq_getElem hl, getElem_insertIdx_self]
    have hk' : l[k] = l[i] := by simpa [show k < l.length by omega] using hat
    exact hf k hki (hk' ▸ hp)
  · rintro rfl
    exact insertIdx_eraseIdx_getElem hlt

theorem findIdx?_insertIdx (hn : l.findIdx? pick = none) (ha : pick a) (hk : k ≤ l.length) :
    (l.insertIdx k a).findIdx? pick = some k := by
  have hno : ∀ x ∈ l, ¬ pick x := by simpa using findIdx?_eq_none_iff.mp hn
  have hl : k < (l.insertIdx k a).length := by
    rw [length_insertIdx]; split <;> omega
  refine findIdx?_eq_some_iff_getElem.mpr ⟨hl, ?_, fun j hj => ?_⟩
  · rw [getElem_insertIdx_self]; exact ha
  · rw [getElem_insertIdx_of_lt hj]
    exact hno _ (getElem_mem _)

theorem countP_insertIdx (hn : l.findIdx? pick = none) (ha : pick a) (hk : k ≤ l.length) :
    (l.insertIdx k a).countP pick = 1 := by
  have hno : ∀ x ∈ l, ¬ pick x := by simpa using findIdx?_eq_none_iff.mp hn
  rw [(perm_insertIdx a l hk).countP_eq, countP_cons, countP_eq_zero.mpr hno]
  simp [ha]

variable (hi : l.findIdx? pick = some i)

include hi

theorem findIdx?_eraseIdx (hc : l.countP pick ≤ 1) : (l.eraseIdx i).findIdx? pick = none := by
  obtain ⟨hlt, hp, -⟩ := findIdx?_eq_some_iff_getElem.mp hi
  have hpe := (getElem_cons_eraseIdx_perm hlt).countP_eq pick
  rw [countP_cons, if_pos hp] at hpe
  have hz : (l.eraseIdx i).countP pick = 0 := by omega
  simpa using countP_eq_zero.mp hz

theorem findIdx?_set (ha : pick a) : (l.set i a).findIdx? pick = some i := by
  obtain ⟨hlt, -, hf⟩ := findIdx?_eq_some_iff_getElem.mp hi
  refine findIdx?_eq_some_iff_getElem.mpr ⟨by simpa using hlt, by simpa using ha, ?_⟩
  intro j hj
  rw [getElem_set_ne (by omega)]
  exact hf j hj

theorem countP_set (ha : pick a) : (l.set i a).countP pick = l.countP pick := by
  obtain ⟨hlt, hp, -⟩ := findIdx?_eq_some_iff_getElem.mp hi
  have hpo : 0 < l.countP pick := countP_pos_iff.mpr ⟨_, getElem_mem hlt, hp⟩
  rw [List.countP_set hlt, if_pos hp, if_pos ha]
  omega

omit hi

/-! ### Elements picked once -/

theorem countP_le_one_of_pairwise (h : l.Pairwise fun a b => ¬ (pick a ∧ pick b)) :
    l.countP pick ≤ 1 := by
  rw [countP_eq_length_filter]
  have hf := h.sublist (filter_sublist (p := pick))
  match hl : l.filter pick, hf with
  | [], _ => simp
  | [_], _ => simp
  | a :: b :: rest, hp =>
    have ha := (mem_filter.mp (hl ▸ mem_cons_self : a ∈ l.filter pick)).2
    have hb := (mem_filter.mp (hl ▸ mem_cons_of_mem a mem_cons_self : b ∈ l.filter pick)).2
    exact absurd ⟨ha, hb⟩ ((pairwise_cons.mp hp).1 b mem_cons_self)

theorem eq_of_countP_le_one {b : α} (h : l.countP pick ≤ 1) (ha : a ∈ l) (hb : b ∈ l)
    (hpa : pick a) (hpb : pick b) : a = b := by
  rw [countP_eq_length_filter] at h
  have hm : a ∈ l.filter pick := mem_filter.mpr ⟨ha, hpa⟩
  have hm' : b ∈ l.filter pick := mem_filter.mpr ⟨hb, hpb⟩
  match hl : l.filter pick with
  | [] =>
    rw [hl] at hm
    cases hm
  | [c] =>
    rw [hl] at hm hm'
    rw [mem_singleton.mp hm, mem_singleton.mp hm']
  | c :: d :: rest =>
    rw [hl] at h
    simp at h

/-! ### Elements seen through a map -/

variable (view : α → β) (q : β → Bool)

theorem map_filter_append_eq_iff (hf : l.find? (fun b => q (view b)) = some a) :
    ((l.filter fun b => !q (view b)) ++ [a]).map view = l.map view ↔
      LastOnly (fun b => q (view b)) l := by
  have hm : (l.map view).find? q = some (view a) := by
    rw [find?_map]
    exact congrArg (Option.map view) hf
  rw [← LastOnly.map_iff view, ← filter_append_eq_iff hm, map_append, filter_map]
  rfl

theorem map_eraseP_append_eq_iff (hf : l.find? (fun b => q (view b)) = some a)
    (hr : (l.eraseP fun b => q (view b)).find? (fun b => q (view b)) = none) :
    ((l.eraseP fun b => q (view b)) ++ [a]).map view = l.map view ↔
      LastOnly (fun b => q (view b)) l := by
  have hm : (l.map view).find? q = some (view a) := by
    rw [find?_map]
    exact congrArg (Option.map view) hf
  have hg : ((l.map view).eraseP q).find? q = none := by
    rw [eraseP_map, find?_map]
    exact congrArg (Option.map view) hr
  rw [← LastOnly.map_iff view, ← eraseP_append_eq_iff hm hg, map_append, eraseP_map]
  rfl

theorem map_insertIdx_eraseIdx_eq_iff {i k : ℕ} (hi : l.findIdx? (fun b => q (view b)) = some i)
    (hk : k ≤ i) (ha : (l.map view)[i]? = some (view a)) :
    ((l.eraseIdx i).insertIdx k a).map view = l.map view ↔ k = i := by
  have hm : (l.map view).findIdx? q = some i := by
    rw [findIdx?_map]
    exact hi
  rw [map_insertIdx, ← eraseIdx_map, insertIdx_eraseIdx_eq_iff hm hk ha]

end Dhole.FirstMatch
