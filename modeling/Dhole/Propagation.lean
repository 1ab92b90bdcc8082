import Dhole.Protowire
import Dhole.RunLog

/-! Marks on the references a step hands on. A mark rides in a field that the schema of a reference
does not know, in bytes every runtime keeps, and the marks of the inputs go to all outputs. -/

namespace Dhole.Taint

open List Wire Protowire

/-- The number of a mark's field, with the wire type of a length-delimited value. -/
def refTaintField : ℕ × ℕ := (15015, 2)

/-- One turn of the loop: the source, if the field is a mark, and the bytes after the field. -/
def nextField (b : Bytes) : Option (Option Sized × Bytes) :=
  (consumeTag b).bind fun (tag, rest) =>
    if tag = refTaintField then (consumeBytes rest).map fun (s, rest) => (some s, rest)
    else (consumeFieldValue tag rest).map fun (_, rest) => (none, rest)

def sourcesIn : ℕ → Bytes → List Sized
  | 0, _ => []
  | fuel + 1, b => match nextField b with
    | none => []
    | some (s, rest) => s.toList ++ sourcesIn fuel rest

/-- Bytes that are fields to their end, as those of a message that was read, and their sources. -/
inductive Whole : Bytes → List Sized → Prop
  | nil : Whole [] []
  | field {b s rest ss} (h : nextField b = some (s, rest)) (hr : Whole rest ss) :
    Whole b (s.toList ++ ss)

section Reading

variable {n : ℕ} {b rest tail : Bytes} {s : Option Sized} {ss ts : List Sized}

theorem nextField_append (tail : Bytes) (h : nextField b = some (s, rest)) :
    rest.length < b.length ∧ nextField (b ++ tail) = some (s, rest ++ tail) := by
  obtain ⟨⟨tag, r⟩, ht, h⟩ := Option.bind_eq_some_iff.mp h
  obtain ⟨hl, ha⟩ := consumeTag_stable ht
  simp only [nextField] at h ⊢
  split at h <;> obtain ⟨⟨x, r'⟩, hx, h⟩ := Option.map_eq_some_iff.mp h <;> cases h
  · obtain ⟨hr, ha⟩ := stable_consumeBytes hx
    simp [*, hr.trans_lt hl]
  · obtain ⟨hr, ha⟩ := stable_consumeFieldValueD _ tag hx
    simp [*, consumeFieldValue, hr.trans_lt hl]

theorem Whole.append (h : Whole b ss) (ht : Whole tail ts) :
    Whole (b ++ tail) (ss ++ ts) := by
  induction h with
  | nil => exact ht
  | field h _ ih => exact append_assoc .. ▸ .field (nextField_append _ h).2 ih

theorem Whole.sourcesIn_eq (h : Whole b ss) (hn : b.length ≤ n) : sourcesIn n b = ss := by
  induction h generalizing n with
  | nil =>
    cases n with
    | zero => rfl
    | succ n =>
      rw [sourcesIn]
      split
      · rfl
      · exact absurd (nextField_append [] ‹_›).1 (by simp)
  | field h _ ih =>
    have := (nextField_append [] h).1
    cases n with
    | zero => omega
    | succ n => simp only [sourcesIn, h, ih (show _ ≤ n by omega)]

-- a group with a field in it is skipped, and the mark after it is read
example : (sourcesIn 9 [11, 8, 5, 12, 0xba, 0xaa, 7, 1, 0x68]).map Subtype.val = [[0x68]] := by rfl

end Reading

/-- An output with the bytes of the fields that its schema does not know. -/
structure MarkedRef extends OutputRef where
  unknown : Bytes
  whole : ∃ ss, Whole unknown ss

def refSources (o : MarkedRef) : List Sized := sourcesIn o.unknown.length o.unknown

theorem whole_marked (o : MarkedRef) (s : Sized) : Whole
    (o.unknown ++ (appendTag refTaintField ++ appendString s)) (refSources o ++ [s]) := by
  obtain ⟨ss, h⟩ := o.whole
  rw [refSources, h.sourcesIn_eq le_rfl]
  have ht : consumeTag (appendTag refTaintField ++ appendString s) = _ :=
    consumeTag_appendTag (by decide) (by decide) _
  have hs := consumeBytes_appendString s []
  rw [append_nil] at hs
  exact h.append (.field (s := some s) (by simp [nextField, ht, hs]) .nil)

def markRef (o : MarkedRef) (source : Sized) : MarkedRef :=
  if source ∈ refSources o then o else { o with unknown := _, whole := ⟨_, whole_marked o source⟩ }

def propagate (ins outs : List MarkedRef) : List MarkedRef :=
  let sources := (ins.flatMap refSources).eraseDups
  if sources = [] then outs else outs.map fun o => sources.foldl markRef o

section Marks

variable {o : MarkedRef} {s : Sized} {sources : List Sized}

theorem refSources_markRef (o : MarkedRef) (s : Sized) : refSources (markRef o s) =
    if s ∈ refSources o then refSources o else refSources o ++ [s] := by
  unfold markRef
  split
  · rfl
  · exact (whole_marked o s).sourcesIn_eq le_rfl

theorem mem_refSources_foldl : s ∈ refSources (sources.foldl markRef o) ↔
    s ∈ refSources o ∨ s ∈ sources := by
  induction sources generalizing o with
  | nil => simp
  | cons t sources ih =>
    rw [foldl_cons, ih, refSources_markRef, mem_cons]
    split
    · exact ⟨Or.imp_right .inr, fun h => by rcases h with h | rfl | h <;> tauto⟩
    · rw [mem_append, mem_singleton, or_assoc]

theorem foldl_markRef_eq (h : ∀ s ∈ sources, s ∈ refSources o) : sources.foldl markRef o = o := by
  induction sources with
  | nil => rfl
  | cons t sources ih => rw [foldl_cons, markRef, if_pos (h t (by simp)), ih (by simp_all)]

theorem propagate_eq (ins outs : List MarkedRef) : propagate ins outs =
    outs.map fun o => (ins.flatMap refSources).eraseDups.foldl markRef o := by
  dsimp only [propagate]
  split <;> simp_all

end Marks

/-- An output has its own sources and those of all inputs, and a second time adds nothing. -/
theorem propagate_closure (ins outs : List MarkedRef) :
    Forall₂ (fun o o' => ∀ s, s ∈ refSources o' ↔
      s ∈ refSources o ∨ ∃ i ∈ ins, s ∈ refSources i) outs (propagate ins outs) ∧
    propagate ins (propagate ins outs) = propagate ins outs ∧
    ∀ (o : MarkedRef) s, refSources (markRef o s) =
      if s ∈ refSources o then refSources o else refSources o ++ [s] := by
  simp only [propagate_eq, map_map, forall₂_map_right_iff, forall₂_same]
  refine ⟨fun o _ s => ?_, map_congr_left fun o _ => foldl_markRef_eq fun s hs => ?_,
    refSources_markRef⟩
  · rw [mem_refSources_foldl, mem_eraseDups, mem_flatMap]
  · exact mem_refSources_foldl.mpr (.inr hs)

end Dhole.Taint
