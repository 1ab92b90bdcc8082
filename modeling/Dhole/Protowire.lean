import Dhole.Wire
import Mathlib

/-! Reading the protobuf wire format field by field, as a runtime does with fields its schema does
not know. A reader takes from the front of the bytes and decides by what it takes alone, so what is
read of a message is read of every longer one. -/

namespace Dhole.Protowire

open List Wire

/-- Reading leaves no more than there was, and does not look at what it leaves. -/
def Stable {α : Type} (read : Bytes → Option (α × Bytes)) : Prop :=
  ∀ ⦃b a rest⦄, read b = some (a, rest) →
    rest.length ≤ b.length ∧ ∀ tail, read (b ++ tail) = some (a, rest ++ tail)

/-! ### Readers -/

/-- A varint of at most so many bytes more; of the last one only the lowest bit counts. -/
def varintUpTo : ℕ → Bytes → Option (ℕ × Bytes)
  | _, [] => none
  | 0, y :: b => if y.toNat < 2 then some (y.toNat, b) else none
  | n + 1, y :: b =>
    if y.toNat < 128 then some (y.toNat, b)
    else (varintUpTo n b).map fun (v, rest) => (y.toNat - 128 + 128 * v, rest)

def consumeVarint (b : Bytes) : Option (UInt64 × Bytes) :=
  (varintUpTo 9 b).map fun (v, rest) => (UInt64.ofNat v, rest)

def consumeTag (b : Bytes) : Option ((ℕ × ℕ) × Bytes) :=
  (consumeVarint b).bind fun (v, rest) =>
    if v.toNat / 8 = 0 ∨ 2 ^ 31 ≤ v.toNat / 8 then none
    else some ((v.toNat / 8, v.toNat % 8), rest)

abbrev Sized := { s : Bytes // s.length < 2 ^ 64 }

def consumeBytes (b : Bytes) : Option (Sized × Bytes) :=
  (consumeVarint b).bind fun (m, rest) =>
    if m.toNat ≤ rest.length then
      some (⟨rest.take m.toNat, by have := m.toNat_lt; simp; omega⟩, rest.drop m.toNat)
    else none

def consumeFixed (width : ℕ) (b : Bytes) : Option (Unit × Bytes) :=
  if width ≤ b.length then some ((), b.drop width) else none

/-- The fields of a group up to its end, each skipped by a reader of values. -/
def skipGroup (value : ℕ × ℕ → Bytes → Option (Unit × Bytes)) (number : ℕ) :
    ℕ → Bytes → Option (Unit × Bytes)
  | 0, _ => none
  | fuel + 1, b => (consumeTag b).bind fun (tag, rest) =>
    if tag.2 = 4 then if tag.1 = number then some ((), rest) else none
    else (value tag rest).bind fun (_, rest) => skipGroup value number fuel rest

def consumeFieldValueD : ℕ → ℕ × ℕ → Bytes → Option (Unit × Bytes)
  | _, (_, 0), b => (consumeVarint b).map fun (_, rest) => ((), rest)
  | _, (_, 1), b => consumeFixed 8 b
  | _, (_, 2), b => (consumeBytes b).map fun (_, rest) => ((), rest)
  | depth + 1, (number, 3), b => skipGroup (consumeFieldValueD depth) number b.length b
  | _, (_, 5), b => consumeFixed 4 b
  | _, _, _ => none

/-- The recursion limit is 10000, and a group at the limit is still read. -/
def consumeFieldValue (tag : ℕ × ℕ) (b : Bytes) : Option (Unit × Bytes) :=
  consumeFieldValueD 10001 tag b

def appendTag (tag : ℕ × ℕ) : Bytes := varint (tag.1 * 8 + tag.2)

def appendString (s : Sized) : Bytes := varint s.1.length ++ s.1

/-! ### What was written is read -/

theorem varintUpTo_varint {n v : ℕ} (h : v < 2 ^ (7 * n + 1)) (rest : Bytes) :
    varintUpTo n (varint v ++ rest) = some (v, rest) := by
  induction n generalizing v with
  | zero =>
    have hb : (UInt8.ofNat v).toNat = v := by simp; omega
    rw [varint, if_pos (by omega)]
    simpa [varintUpTo, hb] using h
  | succ n ih =>
    rw [varint]
    split
    case isTrue hlt =>
      have hb : (UInt8.ofNat v).toNat = v := by simp; omega
      simp [varintUpTo, hb, hlt]
    case isFalse hge =>
      have hb : (UInt8.ofNat (v % 128 + 128)).toNat = v % 128 + 128 := by simp; omega
      have hv : v / 128 < 2 ^ (7 * n + 1) := by
        rw [Nat.div_lt_iff_lt_mul (by decide)]
        simpa [Nat.mul_add, Nat.pow_add, Nat.mul_assoc] using h
      simp only [cons_append, varintUpTo, hb, ih hv]
      simp
      omega

theorem consumeVarint_varint {v : ℕ} (h : v < 2 ^ 64) (rest : Bytes) :
    consumeVarint (varint v ++ rest) = some (UInt64.ofNat v, rest) := by
  rw [consumeVarint, varintUpTo_varint h, Option.map_some]

theorem consumeTag_appendTag {tag : ℕ × ℕ} (hn : 0 < tag.1 ∧ tag.1 < 2 ^ 31) (ht : tag.2 < 8)
    (rest : Bytes) : consumeTag (appendTag tag ++ rest) = some (tag, rest) := by
  have hv : (UInt64.ofNat (tag.1 * 8 + tag.2)).toNat = tag.1 * 8 + tag.2 :=
    UInt64.toNat_ofNat_of_lt' (by simp [UInt64.size]; omega)
  rw [consumeTag, appendTag, consumeVarint_varint (by omega), Option.bind_some]
  dsimp only
  rw [hv, if_neg (by omega), show (tag.1 * 8 + tag.2) / 8 = tag.1 by omega,
    show (tag.1 * 8 + tag.2) % 8 = tag.2 by omega]

theorem consumeBytes_appendString (s : Sized) (rest : Bytes) :
    consumeBytes (appendString s ++ rest) = some (s, rest) := by
  have hv : (UInt64.ofNat s.1.length).toNat = s.1.length := UInt64.toNat_ofNat_of_lt' s.2
  rw [consumeBytes, appendString, append_assoc, consumeVarint_varint s.2]
  simp [hv]

/-! ### Readers are stable -/

section Stability

variable {α : Type} {n : ℕ} {b rest : Bytes} {value : ℕ × ℕ → Bytes → Option (Unit × Bytes)}

theorem varintUpTo_stable {v : ℕ} (h : varintUpTo n b = some (v, rest)) : rest.length < b.length ∧
    ∀ tail, varintUpTo n (b ++ tail) = some (v, rest ++ tail) := by
  induction n generalizing b v with
  | zero =>
    cases b with
    | nil => cases h
    | cons y b =>
      simp only [varintUpTo, cons_append] at h ⊢
      split at h <;> cases h
      simp [*]
  | succ n ih =>
    cases b with
    | nil => cases h
    | cons y b =>
      simp only [varintUpTo, cons_append] at h ⊢
      split at h
      · cases h
        simp [*]
      · obtain ⟨⟨u, r⟩, hu, h⟩ := Option.map_eq_some_iff.mp h
        obtain ⟨rfl, rfl⟩ := Prod.mk.inj h
        obtain ⟨hl, ha⟩ := ih hu
        exact ⟨hl.trans (Nat.lt_succ_self _), fun tail => by simp [*]⟩

theorem consumeVarint_stable {v : UInt64} (h : consumeVarint b = some (v, rest)) :
    rest.length < b.length ∧ ∀ tail, consumeVarint (b ++ tail) = some (v, rest ++ tail) := by
  obtain ⟨⟨u, r⟩, hu, h⟩ := Option.map_eq_some_iff.mp h
  cases h
  obtain ⟨hl, ha⟩ := varintUpTo_stable hu
  exact ⟨hl, fun tail => by simp [consumeVarint, ha]⟩

theorem consumeTag_stable {tag : ℕ × ℕ} (h : consumeTag b = some (tag, rest)) :
    rest.length < b.length ∧ ∀ tail, consumeTag (b ++ tail) = some (tag, rest ++ tail) := by
  obtain ⟨⟨v, r⟩, hv, h⟩ := Option.bind_eq_some_iff.mp h
  obtain ⟨hl, ha⟩ := consumeVarint_stable hv
  dsimp only at h
  split at h <;> cases h
  rename_i hn
  exact ⟨hl, fun tail => by rw [consumeTag, ha]; exact if_neg hn⟩

theorem stable_consumeBytes : Stable consumeBytes := by
  intro b s rest h
  obtain ⟨⟨m, r⟩, hm, h⟩ := Option.bind_eq_some_iff.mp h
  obtain ⟨hl, ha⟩ := consumeVarint_stable hm
  dsimp only at h
  split at h <;> cases h
  rename_i hle
  refine ⟨by simp; omega, fun tail => ?_⟩
  simp only [consumeBytes, ha, Option.bind_some, length_append, if_pos (Nat.le_add_right_of_le hle)]
  simp [take_append_of_le_length hle, drop_append_of_le_length hle]

theorem stable_consumeFixed (width : ℕ) : Stable (consumeFixed width) := by
  intro b _ rest h
  unfold consumeFixed at h ⊢
  split at h <;> cases h
  rename_i hle
  refine ⟨by simp, fun tail => ?_⟩
  rw [if_pos (by simp; omega), drop_append_of_le_length hle]

theorem skipGroup_stable (hv : ∀ tag, Stable (value tag)) {number m : ℕ} (hm : n ≤ m)
    (h : skipGroup value number n b = some ((), rest)) : rest.length ≤ b.length ∧
      ∀ tail, skipGroup value number m (b ++ tail) = some ((), rest ++ tail) := by
  induction n generalizing m b with
  | zero => cases h
  | succ n ih =>
    obtain ⟨m, rfl⟩ := Nat.exists_eq_succ_of_ne_zero (by omega : m ≠ 0)
    obtain ⟨⟨tag, r⟩, ht, h⟩ := Option.bind_eq_some_iff.mp h
    obtain ⟨hl, ha⟩ := consumeTag_stable ht
    simp only [skipGroup, ha] at h ⊢
    split at h
    · split at h <;> cases h
      simp [*, hl.le]
    · obtain ⟨⟨_, r'⟩, hr, h⟩ := Option.bind_eq_some_iff.mp h
      obtain ⟨hl', ha'⟩ := hv tag hr
      obtain ⟨hl'', ha''⟩ := ih (Nat.le_of_succ_le_succ hm) h
      dsimp only at hl''
      exact ⟨by omega, fun tail => by simp [*]⟩

theorem Stable.skip {read : Bytes → Option (α × Bytes)} (h : Stable read) :
    Stable fun b => (read b).map fun (_, rest) => ((), rest) := by
  intro b _ rest hr
  obtain ⟨⟨a, r⟩, ha, hr⟩ := Option.map_eq_some_iff.mp hr
  cases hr
  obtain ⟨hl, ht⟩ := h ha
  exact ⟨hl, fun tail => by simp [ht]⟩

theorem stable_consumeFieldValueD (depth : ℕ) (tag : ℕ × ℕ) :
    Stable (consumeFieldValueD depth tag) := by
  have hvarint : Stable consumeVarint := fun _ _ _ h =>
    ⟨(consumeVarint_stable h).1.le, (consumeVarint_stable h).2⟩
  induction depth generalizing tag with
  | zero =>
    obtain ⟨number, typ⟩ := tag
    rcases typ with _ | _ | _ | _ | _ | _ | typ
    · exact hvarint.skip
    · exact stable_consumeFixed 8
    · exact stable_consumeBytes.skip
    · nofun
    · nofun
    · exact stable_consumeFixed 4
    · nofun
  | succ depth ih =>
    obtain ⟨number, typ⟩ := tag
    rcases typ with _ | _ | _ | _ | _ | _ | typ
    · exact hvarint.skip
    · exact stable_consumeFixed 8
    · exact stable_consumeBytes.skip
    · exact fun b _ rest h => ⟨(skipGroup_stable ih le_rfl h).1, fun tail =>
        (skipGroup_stable ih (by simp) h).2 tail⟩
    · nofun
    · exact stable_consumeFixed 4
    · nofun

end Stability

end Dhole.Protowire
