import Mathlib
import Dhole.Dag

/-! Marks on structured values. A mark is a wrapper around the value it marks and is made of
the same struct values a payload is made of, so everything here is a recursion over values
that may look like marks at any depth. `walk` reads the marks inside a value, `untainted`
removes them, and a gate clears the marks of the fields it is asked to clear and records in
the log of the run what it cleared. -/

namespace Dhole.Taint

open Dag List

/-! ### Values -/

/-- A `structpb.Value`: `nil` is the nil pointer and `unset` a message without a kind. The
fields of a struct are listed in the order a walk meets them. -/
inductive Value where
  | nil
  | unset
  | null
  | number (bits : BitVec 64)
  | string (s : String)
  | bool (b : Bool)
  | struct (fields : List (String × Value))
  | list (values : List Value)

abbrev Fields := List (String × Value)

namespace Value

def getFields : Value → Fields
  | struct fields => fields
  | _ => []

def getStringValue : Value → String
  | string s => s
  | _ => ""

def children : Value → List Value
  | struct fields => fields.map Prod.snd
  | list values => values
  | _ => []

theorem sizeOf_child {v c : Value} (h : c ∈ v.children) : sizeOf c < sizeOf v := by
  cases v with
  | struct fields =>
    obtain ⟨f, hf, rfl⟩ := mem_map.mp h
    have hs := sizeOf_lt_of_mem hf
    have hp : sizeOf f.2 < sizeOf f := by
      cases f
      simp
    simp only [struct.sizeOf_spec]
    omega
  | list va =>
    have hs := sizeOf_lt_of_mem (show c ∈ va from h)
    simp only [list.sizeOf_spec]
    omega
  | _ => cases h

/-- The second value is the first or stands somewhere inside it. -/
inductive Part : Value → Value → Prop
  | refl (v : Value) : Part v v
  | child {v c u : Value} : c ∈ v.children → Part c u → Part v u

end Value

def taintField : String := "$dhole.taint"

def sourceField : String := "source"

def valueField : String := "value"

def Fields.source (m : Fields) : String := ((m.lookup sourceField).getD .nil).getStringValue

def Fields.value (m : Fields) : Value := (m.lookup valueField).getD .nil

def Fields.others (m : Fields) : Fields := m.eraseP fun f => f.1 == valueField

/-- The fields of the mark at the top of a value, if there is one: the value is a struct with
one field, and in it a struct with a source and a value. -/
def Value.mark? (v : Value) : Option Fields :=
  if v.getFields.length ≠ 1 then none
  else match v.getFields.lookup taintField with
    | some (.struct m) =>
      if (m.lookup valueField).isNone then none
      else if (m.lookup sourceField).isNone then none
      else some m
    | _ => none

section Shape

variable {v : Value} {m : Fields}

theorem mem_of_lookup {k : String} {x : Value} (h : m.lookup k = some x) : (k, x) ∈ m := by
  obtain ⟨l, l', rfl, -⟩ := lookup_eq_some_iff.mp h
  simp

def Fields.Marks (m : Fields) : Prop :=
  (m.lookup valueField).isSome ∧ (m.lookup sourceField).isSome

theorem shape_of_mark? (h : v.mark? = some m) :
    v = .struct [(taintField, .struct m)] ∧ m.Marks := by
  unfold Value.mark? at h
  split_ifs at h with hl
  obtain ⟨f, hf⟩ := length_eq_one_iff.mp (not_not.mp hl)
  cases v with
  | struct fields =>
    obtain rfl : fields = [f] := hf
    obtain ⟨k, w⟩ := f
    simp only [Value.getFields] at h
    split at h
    · rename_i m' hm'
      split_ifs at h with hv hs
      obtain rfl : m' = m := Option.some.inj h
      have hme := mem_of_lookup hm'
      simp only [mem_singleton] at hme
      obtain ⟨rfl, rfl⟩ := hme
      exact ⟨rfl, by simpa [Option.isSome_iff_ne_none] using hv,
        by simpa using hs⟩
    · cases h
  | _ => simp [Value.getFields] at hf

theorem mark?_eq_some_iff : v.mark? = some m ↔ v = .struct [(taintField, .struct m)] ∧ m.Marks := by
  refine ⟨shape_of_mark?, ?_⟩
  rintro ⟨rfl, hv, hs⟩
  simp [Value.mark?, Value.getFields, Option.isSome_iff_ne_none.mp hv,
    Option.isSome_iff_ne_none.mp hs]

variable (h : v.mark? = some m)

include h

theorem mem_value : (valueField, m.value) ∈ m := by
  obtain ⟨-, hv, -⟩ := shape_of_mark? h
  obtain ⟨x, hx⟩ := Option.isSome_iff_exists.mp hv
  simpa [Fields.value, hx] using mem_of_lookup hx

theorem children_of_mark? : v.children = [.struct m] := by
  rw [(shape_of_mark? h).1]
  rfl

theorem value_mem_children : m.value ∈ (Value.struct m).children :=
  mem_map_of_mem (mem_value h)

theorem sizeOf_value : sizeOf m.value < sizeOf v := by
  have hi : sizeOf (Value.struct m) < sizeOf v :=
    Value.sizeOf_child (by rw [children_of_mark? h]; exact mem_singleton_self _)
  exact (Value.sizeOf_child (value_mem_children h)).trans hi

theorem mark?_inner : (Value.struct m).mark? = none := by
  by_contra hne
  obtain ⟨m', hm'⟩ := Option.ne_none_iff_exists'.mp hne
  obtain ⟨heq, -⟩ := shape_of_mark? hm'
  have hv := mem_value h
  rw [Value.struct.inj heq, mem_singleton] at hv
  exact absurd (congrArg Prod.fst hv) (show valueField ≠ taintField by decide)

theorem field_cases {f : String × Value} (hf : f ∈ m) : f.2 = m.value ∨ f ∈ m.others := by
  obtain ⟨-, hv, -⟩ := shape_of_mark? h
  obtain ⟨x, hx⟩ := Option.isSome_iff_exists.mp hv
  obtain ⟨l, l', hm, hl⟩ := lookup_eq_some_iff.mp hx
  have ho : m.others = l ++ l' := by
    have hk : ∀ b ∈ l, ¬ (b.1 == valueField) = true := fun b hb => by
      rw [beq_iff_eq]
      exact fun heq => by simpa [heq] using hl b hb
    rw [Fields.others, hm, eraseP_append_right _ hk, eraseP_cons_of_pos (by simp)]
  rw [hm, mem_append, mem_cons] at hf
  rw [ho, mem_append]
  rcases hf with hf | rfl | hf
  · exact .inr (.inl hf)
  · exact .inl (by simp [Fields.value, hx])
  · exact .inr (.inr hf)

end Shape

/-- Values by the two ways a function looks into them: through a mark to the value it carries,
and otherwise into everything directly inside. -/
theorem Value.mark_induction {P : Value → Prop} (hmark : ∀ v m, v.mark? = some m → P m.value → P v)
    (hplain : ∀ v, v.mark? = none → (∀ c ∈ v.children, P c) → P v) (v : Value) : P v := by
  induction hn : sizeOf v using Nat.strong_induction_on generalizing v with
  | _ n ih =>
    subst hn
    cases h : v.mark? with
    | none => exact hplain v h fun c hc => ih _ (sizeOf_child hc) c rfl
    | some m => exact hmark v m h (ih _ (sizeOf_value h) _ rfl)

/-! ### Walking the marks -/

variable {σ α β : Type}

/-- A loop that calls `visit` for each element and is over when a call returns `false`. -/
def visitAll (visit : α → σ → σ × Bool) : List α → σ → σ × Bool
  | [], st => (st, true)
  | a :: l, st =>
    match visit a st with
    | (st, false) => (st, false)
    | (st, true) => visitAll visit l st

theorem visitAll_append (visit : α → σ → σ × Bool) (l l' : List α) (st : σ) :
    visitAll visit (l ++ l') st =
      match visitAll visit l st with
      | (st, false) => (st, false)
      | (st, true) => visitAll visit l' st := by
  induction l generalizing st with
  | nil => rfl
  | cons a l ih =>
    simp only [cons_append, visitAll]
    rcases visit a st with ⟨st, _ | _⟩
    · rfl
    · exact ih st

theorem visitAll_flatMap {visit : α → σ → σ × Bool} {loop : β → σ → σ × Bool} {g : β → List α}
    {l : List β} (h : ∀ b ∈ l, ∀ st, loop b st = visitAll visit (g b) st) (st : σ) :
    visitAll loop l st = visitAll visit (l.flatMap g) st := by
  induction l generalizing st with
  | nil => rfl
  | cons b l ih =>
    rw [flatMap_cons, visitAll_append, visitAll, h b mem_cons_self]
    rcases visitAll visit (g b) st with ⟨st, _ | _⟩
    · rfl
    · exact ih (fun b hb => h b (mem_cons_of_mem _ hb)) st

theorem visitAll_map (visit : α → σ → σ × Bool) (f : β → α) (l : List β) (st : σ) :
    visitAll visit (l.map f) st = visitAll (fun b => visit (f b)) l st := by
  induction l generalizing st with
  | nil => rfl
  | cons b l ih =>
    simp only [map_cons, visitAll]
    rcases visit (f b) st with ⟨st, _ | _⟩
    · rfl
    · exact ih st

/-- Calls `visit` for every mark inside the value, until a call returns `false`. -/
def walk {σ : Type} (visit : String → σ → σ × Bool) (v : Value) (st : σ) : σ × Bool :=
  match _h : v.mark? with
  | some m =>
    match visit m.source st with
    | (st, false) => (st, false)
    | (st, true) => walk visit m.value st
  | none =>
    match v with
    | .struct fields => visitAll (fun f => walk visit f.1.2) fields.attach st
    | .list values => visitAll (fun item => walk visit item.1) values.attach st
    | _ => (st, true)
termination_by sizeOf v
decreasing_by
  · exact sizeOf_value _h
  · exact Value.sizeOf_child (mem_map_of_mem f.2)
  · exact Value.sizeOf_child item.2

def isTainted (v : Value) : Bool := (walk (fun _ _ => (true, false)) v false).1

def sorted (seen : Finset String) : List String := seen.sort

def sources (v : Value) : List String :=
  sorted (walk (fun s seen => (insert s seen, true)) v ∅).1

def marks (v : Value) : List String :=
  match _h : v.mark? with
  | some m => m.source :: marks m.value
  | none => v.children.attach.flatMap fun c => marks c.1
termination_by sizeOf v
decreasing_by
  · exact sizeOf_value _h
  · exact Value.sizeOf_child c.2

variable {v : Value} {m : Fields}

theorem marks_of_mark? (h : v.mark? = some m) : marks v = m.source :: marks m.value := by
  rw [marks]
  split <;> simp_all

theorem marks_of_plain (h : v.mark? = none) : marks v = v.children.flatMap marks := by
  rw [marks]
  split
  · simp_all
  · simp

theorem walk_of_mark? (visit : String → σ → σ × Bool) (h : v.mark? = some m) (st : σ) :
    walk visit v st =
      match visit m.source st with
      | (st, false) => (st, false)
      | (st, true) => walk visit m.value st := by
  rw [walk]
  split <;> simp_all

theorem walk_of_plain (visit : String → σ → σ × Bool) (h : v.mark? = none) (st : σ) :
    walk visit v st = visitAll (walk visit) v.children st := by
  rw [walk]
  split
  · simp_all
  · cases v with
    | struct fields =>
      calc visitAll (fun f => walk visit f.1.2) fields.attach st
          = visitAll (walk visit) (fields.attach.map fun f => f.1.2) st :=
            (visitAll_map (walk visit) (fun f => f.1.2) fields.attach st).symm
        _ = visitAll (walk visit) (Value.struct fields).children st := by
            rw [attach_map_val]
            rfl
    | list va =>
      calc visitAll (fun item => walk visit item.1) va.attach st
          = visitAll (walk visit) (va.attach.map Subtype.val) st :=
            (visitAll_map (walk visit) Subtype.val va.attach st).symm
        _ = visitAll (walk visit) (Value.list va).children st := by
            rw [attach_map_subtype_val]
            rfl
    | _ => rfl

theorem walk_eq (visit : String → σ → σ × Bool) (v : Value) (st : σ) :
    walk visit v st = visitAll visit (marks v) st := by
  induction v using Value.mark_induction generalizing st with
  | hmark v m h ih =>
    rw [walk_of_mark? visit h, marks_of_mark? h, visitAll]
    rcases visit m.source st with ⟨st, _ | _⟩
    · rfl
    · exact ih st
  | hplain v h ih =>
    rw [walk_of_plain visit h, marks_of_plain h]
    exact visitAll_flatMap ih st

theorem isTainted_iff : isTainted v = true ↔ marks v ≠ [] := by
  rw [isTainted, walk_eq]
  cases marks v <;> simp [visitAll]

theorem visitAll_insert (l : List String) (seen : Finset String) :
    visitAll (fun s (seen : Finset String) => (insert s seen, true)) l seen =
      (seen ∪ l.toFinset, true) := by
  induction l generalizing seen with
  | nil => simp [visitAll]
  | cons s l ih =>
    calc visitAll (fun s (seen : Finset String) => (insert s seen, true)) l (insert s seen)
        = (insert s seen ∪ l.toFinset, true) := ih _
      _ = (seen ∪ (s :: l).toFinset, true) := by
          rw [toFinset_cons, Finset.insert_union, Finset.union_insert]

theorem sources_eq (v : Value) : sources v = (marks v).toFinset.sort := by
  rw [sources, sorted, walk_eq, visitAll_insert, Finset.empty_union]

@[simp] theorem mem_sources {s : String} : s ∈ sources v ↔ s ∈ marks v := by
  rw [sources_eq, Finset.mem_sort, mem_toFinset]

/-! ### Marking -/

def Value.orNull : Value → Value
  | nil => null
  | v => v

/-- Wraps a value as data a source let in. A value that is a mark is left as it is. -/
def Value.mark (v : Value) (source : String) : Value :=
  match v.orNull.mark? with
  | some _ => v.orNull
  | none => .struct [(taintField, .struct [(sourceField, .string source), (valueField, v.orNull)])]

/-- The marked value is tainted by the source, and by every source a part of it carries. -/
def Value.Recorded (v : Value) (s : String) : Prop :=
  isTainted (v.mark s) = true ∧ s ∈ sources (v.mark s) ∧
    ∀ u, v.Part u → ∀ x ∈ sources u, x ∈ sources (v.mark s)

/-- The part stands in a field of a mark besides the value the mark carries. -/
def Value.Hides (v u : Value) : Prop :=
  ∃ w m, v.Part w ∧ w.mark? = some m ∧ ∃ f ∈ m.others, f.2.Part u

variable {s : String}

theorem mark_of_mark? (h : v.mark? = some m) : v.mark s = v := by
  have hs : v.orNull = v := by
    obtain ⟨rfl, -⟩ := shape_of_mark? h
    rfl
  simp [Value.mark, hs, h]

theorem marks_mark_of_plain (h : v.mark? = none) : marks (v.mark s) = s :: marks v := by
  have hp : v.orNull.mark? = none := by cases v <;> first | rfl | exact h
  have hs : marks v.orNull = marks v := by
    cases v with
    | nil => rw [marks_of_plain hp, marks_of_plain h]; rfl
    | _ => rfl
  have hm : (v.mark s).mark? = some [(sourceField, .string s), (valueField, v.orNull)] :=
    mark?_eq_some_iff.mpr ⟨by simp [Value.mark, hp], rfl, rfl⟩
  rw [marks_of_mark? hm, ← hs]
  rfl

theorem mem_marks_mark {x : String} (h : x ∈ marks v) : x ∈ marks (v.mark s) := by
  cases hv : v.mark? with
  | some m => rwa [mark_of_mark? hv]
  | none =>
    rw [marks_mark_of_plain hv]
    exact mem_cons_of_mem _ h

theorem self_mem_marks_mark_iff : s ∈ marks (v.mark s) ↔ v.mark? = none ∨ s ∈ marks v := by
  cases hv : v.mark? with
  | some m => simp [mark_of_mark? hv]
  | none => simp [marks_mark_of_plain hv]

variable {u : Value}

theorem Value.Part.trans {w : Value} (h : v.Part w) (h' : w.Part u) : v.Part u := by
  induction h with
  | refl => exact h'
  | child hc _ ih => exact .child hc (ih h')

theorem Value.Hides.child {c u : Value} (hc : c ∈ v.children) (h : c.Hides u) : v.Hides u := by
  obtain ⟨w, m, hw, hm, hf⟩ := h
  exact ⟨w, m, .child hc hw, hm, hf⟩

theorem mem_marks_of_part {x : String} (hu : v.Part u) (hx : x ∈ marks u) :
    x ∈ marks v ∨ ∃ w, v.Hides w ∧ x ∈ marks w := by
  induction hu with
  | refl => exact .inl hx
  | @child v c u hc _ ih =>
    rcases ih hx with hxc | ⟨w, hw, hxw⟩
    · cases h : v.mark? with
      | none =>
        rw [marks_of_plain h]
        exact .inl (mem_flatMap.mpr ⟨c, hc, hxc⟩)
      | some m =>
        rw [children_of_mark? h, mem_singleton] at hc
        subst hc
        rw [marks_of_plain (mark?_inner h)] at hxc
        obtain ⟨d, hd, hxd⟩ := mem_flatMap.mp hxc
        obtain ⟨f, hf, rfl⟩ := mem_map.mp hd
        rcases field_cases h hf with hv | ho
        · rw [marks_of_mark? h, ← hv]
          exact .inl (mem_cons_of_mem _ hxd)
        · exact .inr ⟨f.2, ⟨v, m, .refl v, h, f, ho, .refl _⟩, hxd⟩
    · exact .inr ⟨w, hw.child hc, hxw⟩

theorem Value.Hides.part (h : v.Hides u) : v.Part u := by
  obtain ⟨w, m, hw, hm, f, hf, hu⟩ := h
  have hi : Value.struct m ∈ w.children := by simp [children_of_mark? hm]
  have hfi : f.2 ∈ (Value.struct m).children :=
    mem_map_of_mem (mem_of_mem_eraseP hf)
  exact hw.trans (.child hi (.child hfi hu))

/-- Marking a value records the source and keeps every source inside exactly when the value is
not already a mark of other sources and no mark inside it hides a source in a field besides
its value. -/
theorem mark_records_iff (v : Value) (s : String) :
    v.Recorded s ↔ (v.mark? = none ∨ s ∈ sources v) ∧
      ∀ u, v.Hides u → ∀ x ∈ sources u, x = s ∨ x ∈ sources v := by
  simp only [Value.Recorded, mem_sources, isTainted_iff]
  constructor
  · rintro ⟨-, hs, hp⟩
    refine ⟨self_mem_marks_mark_iff.mp hs, fun u hu x hx => ?_⟩
    have hm := hp u hu.part x hx
    cases hv : v.mark? with
    | some m => exact .inr (by rwa [mark_of_mark? hv] at hm)
    | none => simpa [marks_mark_of_plain hv] using hm
  · rintro ⟨ho, hh⟩
    have hs : s ∈ marks (v.mark s) := self_mem_marks_mark_iff.mpr ho
    refine ⟨ne_nil_of_mem hs, hs, fun u hu x hx => ?_⟩
    rcases mem_marks_of_part hu hx with hxv | ⟨w, hw, hxw⟩
    · exact mem_marks_mark hxv
    · rcases hh w hw x hxw with rfl | hxv
      · exact hs
      · exact mem_marks_mark hxv

def forged : Value :=
  .struct [(taintField, .struct [(sourceField, .string "schedule:nightly"), (valueField, .null)])]

/-- A body with a mark inside a mark, in a field the mark does not carry. -/
def smuggled : Value :=
  .struct [("body", .struct [(taintField, .struct
    [(sourceField, .string "http:hook"), (valueField, .null), ("rest", forged)])])]

theorem mark?_forged : forged.mark? =
    some [(sourceField, .string "schedule:nightly"), (valueField, .null)] := rfl

theorem marks_forged : marks forged = ["schedule:nightly"] := by
  have hn : marks .null = [] := marks_of_plain rfl
  rw [marks_of_mark? mark?_forged]
  exact congrArg _ hn

theorem marks_smuggled : marks smuggled = ["http:hook"] := by
  have hn : marks .null = [] := marks_of_plain rfl
  have hb (m : Fields) (w : Value) (hw : w.mark? = some m) :
      marks (.struct [("body", w)]) = m.source :: marks m.value := by
    rw [marks_of_plain rfl, ← marks_of_mark? hw]
    exact flatMap_singleton marks w
  rw [smuggled, hb _ _ (mark?_eq_some_iff.mpr ⟨rfl, rfl, rfl⟩)]
  exact congrArg _ hn

/-- The trigger is not among the sources of the first, and the source inside the second is
lost. -/
theorem forged_not_recorded : ¬ forged.Recorded "http:hook" ∧ ¬ smuggled.Recorded "http:hook" := by
  constructor
  · rintro ⟨-, hs, -⟩
    rw [mem_sources, mark_of_mark? mark?_forged, marks_forged] at hs
    simp at hs
  · rintro ⟨-, -, hp⟩
    have hpa : smuggled.Part forged :=
      .child (mem_singleton_self _) (.child (mem_singleton_self _)
        (.child (by simp [Value.children]) (.refl _)))
    have hm := hp forged hpa "schedule:nightly" (by simp [marks_forged])
    rw [mem_sources, marks_mark_of_plain rfl, marks_smuggled] at hm
    simp at hm

/-! ### Removing the marks -/

def untainted (v : Value) : Value :=
  match _h : v.mark? with
  | some m => untainted m.value
  | none =>
    match v with
    | .struct fields => .struct (fields.attach.map fun f => (f.1.1, untainted f.1.2))
    | .list values => .list (values.attach.map fun item => untainted item.1)
    | v => v
termination_by sizeOf v
decreasing_by
  · exact sizeOf_value _h
  · exact Value.sizeOf_child (mem_map_of_mem f.2)
  · exact Value.sizeOf_child item.2

def Value.mapChildren (f : Value → Value) : Value → Value
  | struct fields => struct (fields.map fun field => (field.1, f field.2))
  | list values => list (values.map f)
  | v => v

def unwrap (v : Value) : Value :=
  match _h : v.mark? with
  | some m => unwrap m.value
  | none => v
termination_by sizeOf v
decreasing_by exact sizeOf_value _h

/-- The second value is one the removal of marks rebuilds in the first. -/
inductive Rebuilt : Value → Value → Prop
  | here {v : Value} : v.mark? = none → Rebuilt v v
  | inside {v c u : Value} : v.mark? = none → c ∈ v.children → Rebuilt c u → Rebuilt v u
  | marked {v u : Value} {m : Fields} : v.mark? = some m → Rebuilt m.value u → Rebuilt v u

/-- A struct that is no mark only because its one field holds a mark: take that off and what
is under it has a source and a value. -/
def Value.Masks (u : Value) : Prop :=
  ∃ w m, u = .struct [(taintField, w)] ∧ unwrap w = .struct m ∧ Fields.Marks m

variable {w : Value}

theorem untainted_of_mark? (h : v.mark? = some m) : untainted v = untainted m.value := by
  rw [untainted]
  split <;> simp_all

theorem untainted_of_plain (h : v.mark? = none) : untainted v = v.mapChildren untainted := by
  rw [untainted]
  split
  · simp_all
  · cases v with
    | struct fields =>
      exact congrArg Value.struct (attach_map_val (l := fields)
        (f := fun f => (f.1, untainted f.2)))
    | list va => exact congrArg Value.list attach_map_val
    | _ => rfl

theorem unwrap_of_mark? (h : v.mark? = some m) : unwrap v = unwrap m.value := by
  rw [unwrap]
  split <;> simp_all

theorem unwrap_of_plain (h : v.mark? = none) : unwrap v = v := by
  rw [unwrap]
  split
  · simp_all
  · rfl

theorem mark?_unwrap (v : Value) : (unwrap v).mark? = none := by
  induction v using Value.mark_induction with
  | hmark v m h ih => rwa [unwrap_of_mark? h]
  | hplain v h _ => rwa [unwrap_of_plain h]

theorem untainted_unwrap (v : Value) : untainted (unwrap v) = untainted v := by
  induction v using Value.mark_induction with
  | hmark v m h ih => rw [unwrap_of_mark? h, untainted_of_mark? h, ih]
  | hplain v h _ => rw [unwrap_of_plain h]

theorem untainted_eq (v : Value) : untainted v = (unwrap v).mapChildren untainted := by
  rw [← untainted_unwrap, untainted_of_plain (mark?_unwrap v)]

@[simp] theorem children_mapChildren (f : Value → Value) (v : Value) :
    (v.mapChildren f).children = v.children.map f := by
  cases v <;> simp [Value.mapChildren, Value.children]

theorem lookup_map (f : Value → Value) (m : Fields) (k : String) :
    (m.map fun field => (field.1, f field.2)).lookup k = (m.lookup k).map f := by
  induction m with
  | nil => rfl
  | cons field m ih =>
    obtain ⟨name, w⟩ := field
    simp only [map_cons, lookup_cons]
    split
    · rfl
    · exact ih

theorem marks_map_iff (f : Value → Value) (m : Fields) :
    Fields.Marks (m.map fun field => (field.1, f field.2)) ↔ m.Marks := by
  simp only [Fields.Marks, lookup_map, Option.isSome_map]

/-- A rebuilt value is a mark exactly when it was one under a mask. -/
theorem mark?_untainted_ne_none_iff (h : v.mark? = none) :
    (untainted v).mark? ≠ none ↔ v.Masks := by
  rw [untainted_of_plain h]
  constructor
  · intro hne
    obtain ⟨m, hm⟩ := Option.ne_none_iff_exists'.mp hne
    obtain ⟨heq, hma⟩ := shape_of_mark? hm
    cases v with
    | struct fields =>
      obtain ⟨⟨k, w⟩, rfl, hf⟩ :=
        map_eq_singleton_iff.mp (Value.struct.inj heq)
      obtain ⟨rfl, hw⟩ := Prod.mk.inj hf
      rw [untainted_eq] at hw
      cases hu : unwrap w with
      | struct fields =>
        rw [hu] at hw
        rw [← Value.struct.inj hw, marks_map_iff] at hma
        exact ⟨w, fields, rfl, hu, hma⟩
      | _ => simp [hu, Value.mapChildren] at hw
    | _ => simp [Value.mapChildren] at heq
  · rintro ⟨w, m, rfl, hw, hma⟩
    have hi : untainted w = .struct (m.map fun fi => (fi.1, untainted fi.2)) := by
      rw [untainted_eq, hw]
      rfl
    have hmr : (Value.mapChildren untainted (.struct [(taintField, w)])).mark? =
        some (m.map fun fi => (fi.1, untainted fi.2)) :=
      mark?_eq_some_iff.mpr ⟨by simp [Value.mapChildren, hi], (marks_map_iff _ _).mpr hma⟩
    simp [hmr]

/-- What the removal leaves has no mark in it exactly when nothing it rebuilt was a mask. -/
theorem untainted_clean_iff (v : Value) :
    (∀ u, (untainted v).Part u → u.mark? = none) ↔ ∀ u, Rebuilt v u → ¬ u.Masks := by
  induction v using Value.mark_induction with
  | hmark v m h ih =>
    rw [untainted_of_mark? h, ih]
    constructor
    · intro ha u hu
      cases hu with
      | here hn | inside hn => simp [h] at hn
      | marked hm hu =>
        obtain rfl := Option.some.inj (hm.symm.trans h)
        exact ha u hu
    · exact fun ha u hu => ha u (.marked h hu)
  | hplain v h ih =>
    constructor
    · intro ha u hu
      cases hu with
      | here => exact fun hma => (mark?_untainted_ne_none_iff h).mpr hma (ha _ (.refl _))
      | inside _ hc hu =>
        refine (ih _ hc).mp (fun u hu => ha u ?_) u hu
        rw [untainted_of_plain h]
        exact .child (by simpa using ⟨_, hc, rfl⟩) hu
      | marked hm => simp [h] at hm
    · intro ha u hu
      cases hu with
      | refl =>
        by_contra hne
        exact ha v (.here h) ((mark?_untainted_ne_none_iff h).mp hne)
      | child hc hu =>
        rw [untainted_of_plain h, children_mapChildren] at hc
        obtain ⟨c, hcv, rfl⟩ := mem_map.mp hc
        exact (ih c hcv).mpr (fun u hu => ha u (.inside h hcv hu)) u hu

/-! ### The gate -/

abbrev Inputs := String → Option Value

structure Gate where
  stepID : String
  fields : List String

structure Sanitisation where
  tenantID : String
  runID : String
  principal : String
  fields : List String
  inputs : Inputs

/-- Who cleared what, and which taint they cleared. -/
structure Record where
  gate : String
  principal : String
  fields : List String
  sources : List String
deriving DecidableEq

structure Sanitised where
  stepID : String
  record : Record
  at_ : ℤ
deriving DecidableEq

/-- The sanitisation events of a run, in the order of its log. -/
abbrev SanitisedLog := List Sanitised

/-- The part of a run store a gate needs: the log of the run it appends to, and the error it
answers with instead, if it does. -/
structure Appender where
  log : SanitisedLog
  refusal : Option Text := none

/-- One field of the loop: the inputs as cleared so far and the sources cleared so far. -/
def Gate.clearField (g : Gate) (inputs : Inputs) (done : Inputs × Finset String) (name : String) :
    Except Text (Inputs × Finset String) :=
  if name ∉ g.fields then
    .error ["taint: gate ", .quoted g.stepID, " does not declare input ", .quoted name,
      "; a gate clears only what it was written for"]
  else match inputs name with
    | none => .error ["taint: gate ", .quoted g.stepID, " was asked to clear input ",
        .quoted name, ", which was not supplied"]
    | some v =>
      if isTainted v = false then
        .error ["taint: gate ", .quoted g.stepID, " was asked to clear input ", .quoted name,
          ", which carries no taint"]
      else .ok (Function.update done.1 name (some (untainted v)),
        done.2 ∪ (sources v).toFinset)

/-- Clears the marks of the named fields and records it. Every refusal leaves the inputs and
the log as they were. -/
def Gate.sanitise (g : Gate) (log : Option Appender) (s : Sanitisation) (now : ℤ) :
    Except Text (Inputs × Record × SanitisedLog) :=
  match log with
  | none => .error ["taint: a gate needs a run log to record what it cleared"]
  | some store =>
    if s.tenantID = "" then .error ["tenant scope required"]
    else if s.runID = "" then .error ["taint: a sanitisation belongs to a run"]
    else if s.principal = "" then
      .error ["taint: a gate clears a taint on somebody's authority; no principal was named"]
    else if s.fields = [] then
      .error ["taint: gate ", .quoted g.stepID,
        " was asked to clear nothing; sanitisation names the fields it clears"]
    else do
      let fields := sortStrings s.fields
      let (cleared, cleaned) ← fields.foldlM (g.clearField s.inputs) (s.inputs, ∅)
      let record : Record := ⟨g.stepID, s.principal, fields, cleaned.sort⟩
      match store.refusal with
      | some e => .error ([.lit "taint: record sanitisation: "] ++ e)
      | none => .ok (cleared, record, store.log ++ [⟨g.stepID, record, now⟩])

/-- The named fields are without marks, the others as they were, and the record lists the
sources of the named fields. -/
def Sanitisation.ClearsExactly (s : Sanitisation) (cleared : Inputs) (record : Record) : Prop :=
  (∀ f ∈ s.fields, ∃ v, cleared f = some v ∧ ∀ u, v.Part u → u.mark? = none) ∧
    (∀ f ∉ s.fields, cleared f = s.inputs f) ∧
    ∀ x, x ∈ record.sources ↔ ∃ f ∈ s.fields, ∃ v, s.inputs f = some v ∧ x ∈ sources v

variable {g : Gate} {log : Option Appender} {s : Sanitisation} {now : ℤ} {ins : Inputs}
  {done next : Inputs × Finset String}

theorem clearField_ok {name : String} (h : g.clearField ins done name = .ok next) :
    ∃ v, ins name = some v ∧
      next = (Function.update done.1 name (some (untainted v)), done.2 ∪ (sources v).toFinset) := by
  unfold Gate.clearField at h
  split_ifs at h
  split at h
  · cases h
  · rename_i v hv
    split_ifs at h
    exact ⟨v, hv, (Except.ok.inj h).symm⟩

/-- What the loop over the fields leaves: every field it came past is cleared, the others are
as they were, and the sources are those of the fields it came past. -/
theorem foldlM_clearField_ok {names : List String}
    (h : names.foldlM (g.clearField ins) done = .ok next) :
    (∀ f ∈ names, ∃ v, ins f = some v ∧ next.1 f = some (untainted v)) ∧
      (∀ f ∉ names, next.1 f = done.1 f) ∧
      ∀ x, x ∈ next.2 ↔ x ∈ done.2 ∨ ∃ f ∈ names, ∃ v, ins f = some v ∧ x ∈ sources v := by
  induction names generalizing done with
  | nil =>
    cases h
    simp
  | cons name names ih =>
    rw [foldlM_cons] at h
    cases hs : g.clearField ins done name with
    | error e => simp [hs, bind, Except.bind] at h
    | ok mid =>
      rw [hs] at h
      obtain ⟨v, hv, rfl⟩ := clearField_ok hs
      obtain ⟨hc, hk, hso⟩ := ih h
      refine ⟨fun f hf => ?_, fun f hf => ?_, fun x => ?_⟩
      · by_cases hm : f ∈ names
        · exact hc f hm
        · obtain rfl : f = name := (mem_cons.mp hf).resolve_right hm
          exact ⟨v, hv, by simp [hk f hm]⟩
      · rw [mem_cons, not_or] at hf
        simp [hk f hf.2, Function.update_of_ne hf.1]
      · rw [hso, Finset.mem_union, or_assoc]
        simp [hv]

theorem sanitise_ok {cleared : Inputs} {record : Record} {log' : SanitisedLog}
    (h : g.sanitise log s now = .ok (cleared, record, log')) :
    (∀ f ∈ s.fields, ∃ v, s.inputs f = some v ∧ cleared f = some (untainted v)) ∧
      (∀ f ∉ s.fields, cleared f = s.inputs f) ∧
      (∀ x, x ∈ record.sources ↔ ∃ f ∈ s.fields, ∃ v, s.inputs f = some v ∧ x ∈ sources v) ∧
      ∃ store, log = some store ∧ log' = store.log ++ [⟨g.stepID, record, now⟩] := by
  unfold Gate.sanitise at h
  split at h
  · cases h
  rename_i store
  split_ifs at h
  cases hl : (sortStrings s.fields).foldlM (g.clearField s.inputs) (s.inputs, ∅) with
  | error e => simp [hl, bind, Except.bind] at h
  | ok done =>
    simp only [hl, bind] at h
    split at h
    · cases h
    obtain ⟨rfl, rfl, rfl⟩ := h
    obtain ⟨hc, hk, hs⟩ := foldlM_clearField_ok hl
    have hso (f : String) : f ∈ sortStrings s.fields ↔ f ∈ s.fields := by
      rw [sortStrings, mem_insertionSort]
    simp only [hso] at hc hk hs
    exact ⟨hc, hk, fun x => by simpa using hs x, store, rfl, rfl⟩

/-- A gate clears the named fields of every mark, leaves the others and records the sources it
cleared exactly when no struct it rebuilt in a named field was a mask. -/
theorem sanitise_clears_iff {cleared : Inputs} {record : Record} {log' : SanitisedLog}
    (h : g.sanitise log s now = .ok (cleared, record, log')) : s.ClearsExactly cleared record ↔
      ∀ f ∈ s.fields, ∀ v, s.inputs f = some v → ∀ u, Rebuilt v u → ¬ u.Masks := by
  obtain ⟨hcl, hk, hs, -⟩ := sanitise_ok h
  constructor
  · rintro ⟨hca, -, -⟩ f hf v hv
    obtain ⟨w, hw, hce⟩ := hcl f hf
    obtain rfl := Option.some.inj (hw.symm.trans hv)
    obtain ⟨c, hc, hp⟩ := hca f hf
    obtain rfl := Option.some.inj (hc.symm.trans hce)
    exact (untainted_clean_iff w).mp hp
  · intro hm
    refine ⟨fun f hf => ?_, hk, hs⟩
    obtain ⟨v, hv, hce⟩ := hcl f hf
    exact ⟨untainted v, hce, (untainted_clean_iff v).mpr (hm f hf v hv)⟩

def clearRef (inputs : Inputs) : Sanitisation := ⟨"acme", "run_1", "ada", ["ref"], inputs⟩

def refGate : Gate := ⟨"validate", ["ref"]⟩

theorem sanitise_clearRef (ins : Inputs) {v : Value} (hv : ins "ref" = some v)
    (h : isTainted v = true) :
    refGate.sanitise (some ⟨[], none⟩) (clearRef ins) 0 =
      let record : Record := ⟨"validate", "ada", ["ref"], (∅ ∪ (sources v).toFinset).sort⟩
      .ok (Function.update ins "ref" (some (untainted v)), record,
        [⟨"validate", record, 0⟩]) := by
  have hf : refGate.clearField ins (ins, ∅) "ref" =
      .ok (Function.update ins "ref" (some (untainted v)), ∅ ∪ (sources v).toFinset) := by
    simp [Gate.clearField, refGate, hv, h]
  have hl : (sortStrings ["ref"]).foldlM (refGate.clearField ins) (ins, ∅) =
      .ok (Function.update ins "ref" (some (untainted v)), ∅ ∪ (sources v).toFinset) := by
    rw [show sortStrings ["ref"] = ["ref"] from rfl, foldlM_cons, hf]
    rfl
  exact congrArg (· >>= _) hl

def pushedRef : Value := Value.mark (.string "main") "git:pushes"

theorem mark?_pushedRef : pushedRef.mark? =
    some [(sourceField, .string "git:pushes"), (valueField, .string "main")] := rfl

theorem isTainted_pushedRef : isTainted pushedRef = true := by
  simp [isTainted_iff, marks_of_mark? mark?_pushedRef]

theorem pushedRef_clears : ∃ cleared record log',
    refGate.sanitise (some ⟨[], none⟩) (clearRef fun _ => some pushedRef) 0 =
      .ok (cleared, record, log') ∧
    (clearRef fun _ => some pushedRef).ClearsExactly cleared record := by
  have hok := sanitise_clearRef (fun _ => some pushedRef) rfl isTainted_pushedRef
  refine ⟨_, _, _, hok, (sanitise_clears_iff hok).mpr fun f hf v hv u hu => ?_⟩
  obtain rfl := Option.some.inj hv
  -- Only the string under the mark is rebuilt.
  rintro ⟨w, m, rfl, -⟩
  cases hu with
  | here hn | inside hn => cases hn
  | marked hm hu =>
    obtain rfl := Option.some.inj (mark?_pushedRef.symm.trans hm)
    cases hu with
    | inside _ hc => cases hc
    | marked hm => cases hm

/-- A struct with a source and a value, marked and put under the reserved field. -/
def maskedRef : Value :=
  .struct [(taintField, Value.mark (.struct [(sourceField, .string "x"), (valueField, .null)])
    "git:pushes")]

theorem maskedRef_not_cleared : ∃ cleared record log',
    refGate.sanitise (some ⟨[], none⟩) (clearRef fun _ => some maskedRef) 0 =
      .ok (cleared, record, log') ∧
    ¬ (clearRef fun _ => some maskedRef).ClearsExactly cleared record := by
  have hp : maskedRef.mark? = none := rfl
  have hi : (Value.mark (.struct [(sourceField, .string "x"), (valueField, .null)])
      "git:pushes").mark? = some [(sourceField, .string "git:pushes"),
        (valueField, .struct [(sourceField, .string "x"), (valueField, .null)])] := rfl
  have ht : isTainted maskedRef = true := by
    rw [isTainted_iff, marks_of_plain hp]
    simp [maskedRef, Value.children, marks_of_mark? hi]
  have hm : maskedRef.Masks := by
    refine ⟨_, [(sourceField, .string "x"), (valueField, .null)], rfl, ?_, rfl, rfl⟩
    rw [unwrap_of_mark? hi]
    exact unwrap_of_plain rfl
  refine ⟨_, _, _, sanitise_clearRef (fun _ => some maskedRef) rfl ht, ?_⟩
  rintro ⟨hc, -, -⟩
  obtain ⟨v, hv, hpa⟩ := hc "ref" (by simp [clearRef])
  obtain rfl : untainted maskedRef = v := by simpa using hv
  exact (mark?_untainted_ne_none_iff hp).mpr hm (hpa _ (.refl _))

end Dhole.Taint
