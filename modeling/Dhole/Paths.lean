import Mathlib

/-! Slash-separated paths, read lexically. A path is resolved segment by segment: empty segments
and single dots stand for nothing, and a double dot takes back the segment before it where there
is one. Two paths are cleaned to one text exactly if they start from the same place and resolve to
the same segments. -/

namespace Dhole.Paths

open List

variable {α : Type*} [DecidableEq α]

structure Marks (α : Type*) where
  sep : α
  dot : α
  sep_ne_dot : sep ≠ dot

namespace Marks

variable (m : Marks α)

/-! ### Cleaning -/

def segments (path : List α) : List (List α) := path.splitOn m.sep

def rooted (path : List α) : Bool := path.head? = some m.sep

def enter (rooted : Bool) (segs : List (List α)) (seg : List α) : List (List α) :=
  if seg = [] ∨ seg = [m.dot] then segs
  else if seg = [m.dot, m.dot] then
    match segs.getLast? with
    | some last => if last = [m.dot, m.dot] then segs ++ [seg] else segs.dropLast
    | none => if rooted then segs else segs ++ [seg]
  else segs ++ [seg]

def resolve (path : List α) : List (List α) :=
  (m.segments path).foldl (m.enter (m.rooted path)) []

def render (rooted : Bool) (segs : List (List α)) : List α :=
  if rooted then m.sep :: [m.sep].intercalate segs
  else if segs = [] then [m.dot]
  else [m.sep].intercalate segs

def clean (path : List α) : List α := m.render (m.rooted path) (m.resolve path)

def join (elems : List (List α)) : List α :=
  match elems.filter (· ≠ []) with
  | [] => []
  | elems => m.clean ([m.sep].intercalate elems)

/-! ### What cleaning keeps -/

def Name (seg : List α) : Prop := seg ≠ [] ∧ seg ≠ [m.dot] ∧ m.sep ∉ seg

variable {m} {p q seg : List α} {segs segs' : List (List α)} {r r' : Bool}

theorem sep_not_mem_of_segments (h : seg ∈ m.segments p) : m.sep ∉ seg := by
  induction p generalizing seg with
  | nil =>
    obtain rfl : seg = [] := by simpa [segments] using h
    simp
  | cons c p ih =>
    rw [segments, List.splitOn, splitOnP_cons_eq_if_modifyHead] at h
    split at h
    · rcases mem_cons.mp h with rfl | h
      · simp
      · exact ih h
    · rename_i hc
      have hc : m.sep ≠ c := fun heq => hc (by simp [heq])
      obtain ⟨first, rest, hsp⟩ := exists_cons_of_ne_nil
        (splitOnP_ne_nil (· == m.sep) p)
      have hm : ∀ s ∈ first :: rest, m.sep ∉ s := fun s hs =>
        ih (by rwa [segments, List.splitOn, hsp])
      rw [hsp] at h
      rcases mem_cons.mp h with rfl | h
      · exact fun hin => (mem_cons.mp hin).elim hc (hm first mem_cons_self)
      · exact hm seg (mem_cons_of_mem _ h)

theorem names_enter (hse : ∀ s ∈ segs, m.Name s) (hsp : m.sep ∉ seg) :
    ∀ s ∈ m.enter r segs seg, m.Name s := by
  have hp : seg ≠ [] → seg ≠ [m.dot] → ∀ s ∈ segs ++ [seg], m.Name s := by
    intro hne hd s hs
    rcases mem_append.mp hs with hs | hs
    · exact hse s hs
    · rw [mem_singleton.mp hs]
      exact ⟨hne, hd, hsp⟩
  unfold enter
  split
  · exact hse
  rename_i hn
  obtain ⟨hne, hd⟩ := not_or.mp hn
  split
  · split
    · split
      · exact hp hne hd
      · exact fun s hs => hse s (mem_of_mem_dropLast hs)
    · split
      · exact hse
      · exact hp hne hd
  · exact hp hne hd

theorem names_foldl (hse : ∀ s ∈ segs, m.Name s) (hsp : ∀ s ∈ segs', m.sep ∉ s) :
    ∀ s ∈ segs'.foldl (m.enter r) segs, m.Name s := by
  induction segs' generalizing segs with
  | nil => exact hse
  | cons seg segs' ih =>
    exact ih (names_enter hse (hsp seg mem_cons_self))
      fun s hs => hsp s (mem_cons_of_mem _ hs)

theorem names_resolve (p : List α) : ∀ s ∈ m.resolve p, m.Name s :=
  names_foldl (by simp) fun _ hs => sep_not_mem_of_segments hs

/-! ### Rendering -/

omit [DecidableEq α] in
theorem head?_intercalate (hs : ∀ s ∈ segs, m.Name s) :
    ([m.sep].intercalate segs).head? ≠ some m.sep := by
  cases segs with
  | nil => simp
  | cons seg segs =>
    obtain ⟨hne, -, hse⟩ := hs seg mem_cons_self
    obtain ⟨c, cs, rfl⟩ := exists_cons_of_ne_nil hne
    have hc : c ≠ m.sep := fun h => hse (h ▸ mem_cons_self)
    cases segs <;> simpa [List.intercalate] using hc

omit [DecidableEq α] in
theorem intercalate_eq_nil_iff (hs : ∀ s ∈ segs, m.Name s) :
    [m.sep].intercalate segs = [] ↔ segs = [] := by
  refine ⟨fun h => ?_, fun h => by simp [h]⟩
  cases segs with
  | nil => rfl
  | cons seg segs =>
    obtain ⟨hne, -⟩ := hs seg mem_cons_self
    cases segs <;> simp_all [List.intercalate]

theorem intercalate_inj (hse : ∀ s ∈ segs, m.Name s) (hse' : ∀ s ∈ segs', m.Name s)
    (h : [m.sep].intercalate segs = [m.sep].intercalate segs') : segs = segs' := by
  by_cases hn : segs = []
  · rw [hn, eq_comm, ← intercalate_eq_nil_iff hse', ← h, hn]
    rfl
  · have hn' : segs' ≠ [] := fun h' => hn (by
      rw [← intercalate_eq_nil_iff hse, h, h']
      rfl)
    rw [← splitOn_intercalate m.sep (fun s hs => (hse s hs).2.2) hn, h,
      splitOn_intercalate m.sep (fun s hs => (hse' s hs).2.2) hn']

omit [DecidableEq α] in
theorem head?_render_false (hs : ∀ s ∈ segs, m.Name s) :
    (m.render false segs).head? ≠ some m.sep := by
  rw [render, if_neg (by decide)]
  split
  · simpa using m.sep_ne_dot.symm
  · exact head?_intercalate hs

theorem render_false_inj (hse : ∀ s ∈ segs, m.Name s) (hse' : ∀ s ∈ segs', m.Name s)
    (h : m.render false segs = m.render false segs') : segs = segs' := by
  -- A single dot is no name, so it stands for no segment at all.
  have hd : ∀ {segs : List (List α)}, (∀ s ∈ segs, m.Name s) →
      [m.sep].intercalate segs ≠ [m.dot] := by
    intro segs hse heq
    have hn : ∀ s ∈ [[m.dot]], m.sep ∉ s := by simpa using m.sep_ne_dot
    have hsp : ([m.sep].intercalate segs).splitOn m.sep = [[m.dot]] := by
      rw [heq]
      exact splitOn_intercalate m.sep hn (by simp)
    have hne : segs ≠ [] := fun h => by simp [h] at heq
    rw [splitOn_intercalate m.sep (fun s hs => (hse s hs).2.2) hne] at hsp
    exact (hse [m.dot] (by simp [hsp])).2.1 rfl
  simp only [render, Bool.false_eq_true, if_false] at h
  split at h
  · split at h
    · simp_all
    · exact absurd h.symm (hd hse')
  · split at h
    · exact absurd h (hd hse)
    · exact intercalate_inj hse hse' h

theorem render_inj (hs : ∀ s ∈ segs, m.Name s) (hs' : ∀ s ∈ segs', m.Name s)
    (h : m.render r segs = m.render r' segs') : r = r' ∧ segs = segs' := by
  have hr : ∀ segs, (m.render true segs).head? = some m.sep := fun segs => rfl
  cases r with
  | true =>
    cases r' with
    | true => exact ⟨rfl, intercalate_inj hs hs' (cons_eq_cons.mp h).2⟩
    | false => exact absurd (h ▸ hr segs) (head?_render_false hs')
  | false =>
    cases r' with
    | true => exact absurd (h ▸ hr segs') (head?_render_false hs)
    | false => exact ⟨rfl, render_false_inj hs hs' h⟩

theorem clean_eq_clean_iff :
    m.clean p = m.clean q ↔ m.rooted p = m.rooted q ∧ m.resolve p = m.resolve q :=
  ⟨render_inj (names_resolve p) (names_resolve q), fun ⟨hr, hs⟩ => by rw [clean, clean, hr, hs]⟩

/-! ### Paths without double dots -/

def names (m : Marks α) (path : List α) : List (List α) :=
  (m.segments path).filter fun seg => seg ≠ [] ∧ seg ≠ [m.dot]

theorem foldl_enter (hup : [m.dot, m.dot] ∉ segs') : segs'.foldl (m.enter r) segs =
      segs ++ segs'.filter fun seg => seg ≠ [] ∧ seg ≠ [m.dot] := by
  induction segs' generalizing segs with
  | nil => simp
  | cons seg segs' ih =>
    obtain ⟨hs, hr⟩ := not_or.mp (mt mem_cons.mpr hup)
    rw [foldl_cons, ih hr, enter]
    split
    · rename_i hn
      rw [filter_cons_of_neg (by rcases hn with rfl | rfl <;> simp)]
    · rename_i hna
      obtain ⟨hne, hd⟩ := not_or.mp hna
      rw [if_neg (Ne.symm hs), filter_cons_of_pos (by simp [hne, hd]), append_assoc,
        singleton_append]

theorem segments_append (p q : List α) :
    m.segments (p ++ m.sep :: q) = m.segments p ++ m.segments q :=
  splitOn_append_cons_self p q

end Marks

end Dhole.Paths
