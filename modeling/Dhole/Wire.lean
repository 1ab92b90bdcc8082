import Mathlib.Data.List.Nodup
import Mathlib.Tactic.Common

/-! The protobuf wire format as an encoding of records. A message is a sequence of
records, each a field number with a varint or a length-delimited value, and a
record is self-delimiting, so the bytes of a message determine its records. When
two messages list the same field numbers in the same order, their bytes agree
exactly when every field holds the same values. The field encoders below follow
proto3: a scalar at its default is left out, a repeated scalar is packed and a map
is a repeated message of its entries. -/

namespace Dhole.Wire

open List

abbrev Bytes := List UInt8

/-! ### Self-delimiting encodings -/

variable {α β : Type*}

/-- What follows an encoding can be told from the encoding itself. -/
def PrefixFree (f : α → List β) : Prop :=
  ∀ ⦃a b : α⦄ ⦃xs ys : List β⦄, f a ++ xs = f b ++ ys → a = b ∧ xs = ys

theorem PrefixFree.flatMap_injective {f : α → List β} (hf : PrefixFree f)
    (hne : ∀ a, f a ≠ []) : Function.Injective fun l : List α => l.flatMap f := by
  intro l
  induction l with
  | nil =>
    rintro (_ | ⟨b, m⟩) h
    · rfl
    · exact absurd h.symm (by simp [hne b])
  | cons a l ih =>
    rintro (_ | ⟨b, m⟩) h
    · exact absurd h (by simp [hne a])
    · obtain ⟨rfl, ht⟩ := hf (by simpa using h : f a ++ l.flatMap f = f b ++ m.flatMap f)
      rw [ih ht]

/-! ### Varints -/

/-- Seven bits a byte, lowest first, the high bit set on every byte but the last. -/
def varint (n : ℕ) : Bytes :=
  if n < 128 then [UInt8.ofNat n] else UInt8.ofNat (n % 128 + 128) :: varint (n / 128)
termination_by n
decreasing_by omega

/-- The number at the head of the bytes and what is left after it. -/
def readVarint : Bytes → Option (ℕ × Bytes)
  | [] => none
  | b :: rest =>
    if b.toNat < 128 then some (b.toNat, rest)
    else (readVarint rest).map fun p => (b.toNat - 128 + 128 * p.1, p.2)

theorem readVarint_varint_append (n : ℕ) (rest : Bytes) :
    readVarint (varint n ++ rest) = some (n, rest) := by
  induction n using Nat.strongRecOn with
  | ind n ih =>
    rw [varint]
    split
    case isTrue hlt =>
      have hb : (UInt8.ofNat n).toNat = n := by simp; omega
      simp [readVarint, hb, hlt]
    case isFalse hge =>
      have hb : (UInt8.ofNat (n % 128 + 128)).toNat = n % 128 + 128 := by simp; omega
      have hc : ¬ n % 128 + 128 < 128 := by omega
      simp only [cons_append, readVarint, hb, hc, if_false, ih (n / 128) (by omega)]
      simp only [Option.map_some, Option.some.injEq, Prod.mk.injEq, and_true]
      omega

theorem varint_prefixFree : PrefixFree varint := by
  intro a b xs ys h
  have hr := congrArg readVarint h
  simpa only [readVarint_varint_append, Option.some.injEq, Prod.mk.injEq] using hr

theorem varint_ne_nil (n : ℕ) : varint n ≠ [] := by
  rw [varint]
  split <;> simp

/-! ### Records -/

inductive Value where
  | varint (n : ℕ)
  | bytes (b : Bytes)
deriving DecidableEq

def Value.wireType : Value → ℕ
  | .varint _ => 0
  | .bytes _ => 2

def Value.encode : Value → Bytes
  | .varint n => Wire.varint n
  | .bytes b => Wire.varint b.length ++ b

/-- One record: the tag packs the field number with the wire type. -/
def encodeRecord (r : ℕ × Value) : Bytes :=
  varint (r.1 * 8 + r.2.wireType) ++ r.2.encode

theorem encodeRecord_prefixFree : PrefixFree encodeRecord := by
  rintro ⟨n, v⟩ ⟨m, w⟩ xs ys h
  simp only [encodeRecord, append_assoc] at h
  obtain ⟨ht, hr⟩ := varint_prefixFree h
  -- the tag fixes the wire type, so the two values are read by the same rule
  cases v <;> cases w <;> simp only [Value.wireType, Value.encode] at ht hr
  case varint.varint a b =>
    obtain ⟨rfl, rfl⟩ := varint_prefixFree hr
    obtain rfl : n = m := by omega
    exact ⟨rfl, rfl⟩
  case bytes.bytes a b =>
    obtain rfl : n = m := by omega
    rw [append_assoc, append_assoc] at hr
    obtain ⟨hl, hb⟩ := varint_prefixFree hr
    obtain ⟨rfl, rfl⟩ := append_inj hb hl
    exact ⟨rfl, rfl⟩
  all_goals omega

theorem encodeRecord_ne_nil (r : ℕ × Value) : encodeRecord r ≠ [] := by
  simp [encodeRecord, varint_ne_nil]

/-! ### Messages -/

/-- The values of one field, under its number. -/
abbrev Field := ℕ × List Value

def Field.records (f : Field) : List (ℕ × Value) := f.2.map fun v => (f.1, v)

def encode (fields : List Field) : Bytes :=
  (fields.flatMap Field.records).flatMap encodeRecord

/-- The values a list of records holds under one number. -/
def valuesAt (n : ℕ) (rs : List (ℕ × Value)) : List Value :=
  (rs.filter fun r => r.1 = n).map Prod.snd

theorem valuesAt_append (n : ℕ) (rs ss : List (ℕ × Value)) :
    valuesAt n (rs ++ ss) = valuesAt n rs ++ valuesAt n ss := by
  simp [valuesAt]

theorem valuesAt_records_self (f : Field) : valuesAt f.1 f.records = f.2 := by
  simp [valuesAt, Field.records, filter_map, Function.comp_def]

theorem valuesAt_records_of_ne {n : ℕ} {f : Field} (h : f.1 ≠ n) : valuesAt n f.records = [] := by
  simp [valuesAt, Field.records, filter_map, h]

theorem valuesAt_flatMap_of_notMem {n : ℕ} (fs : List Field) (h : n ∉ fs.map Prod.fst) :
    valuesAt n (fs.flatMap Field.records) = [] := by
  induction fs with
  | nil => rfl
  | cons f fs ih =>
    simp only [map_cons, mem_cons, not_or] at h
    simp only [flatMap_cons, valuesAt_append, ih h.2, append_nil]
    exact valuesAt_records_of_ne fun e => h.1 e.symm

theorem flatMap_records_inj {fs gs : List Field} (hnu : fs.map Prod.fst = gs.map Prod.fst)
    (hn : (fs.map Prod.fst).Nodup)
    (h : fs.flatMap Field.records = gs.flatMap Field.records) : fs = gs := by
  induction fs generalizing gs with
  | nil => simpa using hnu.symm
  | cons f fs ih =>
    obtain _ | ⟨g, gs⟩ := gs
    · simp at hnu
    simp only [map_cons, cons.injEq] at hnu
    obtain ⟨hh, hr⟩ := hnu
    simp only [map_cons, nodup_cons] at hn
    -- the records under the first number are those of the first field
    have hv : f.2 = g.2 := by
      have hat := congrArg (valuesAt f.1) h
      rw [flatMap_cons, flatMap_cons, valuesAt_append, valuesAt_append,
        valuesAt_flatMap_of_notMem fs hn.1, valuesAt_flatMap_of_notMem gs (hr ▸ hn.1),
        valuesAt_records_self, hh, valuesAt_records_self] at hat
      simpa using hat
    obtain rfl : f = g := Prod.ext hh hv
    simp only [flatMap_cons, append_cancel_left_eq] at h
    rw [ih hr hn.2 h]

/-- Two lists of fields hold the same values, one by one. -/
def SameValues : List Field → List Field → Prop
  | f :: fs, g :: gs => f.2 = g.2 ∧ SameValues fs gs
  | _, _ => True

theorem sameValues_refl (fs : List Field) : SameValues fs fs := by
  induction fs with
  | nil => trivial
  | cons f fs ih => exact ⟨rfl, ih⟩

theorem sameValues_of_encode_eq {fs gs : List Field} (h : encode fs = encode gs)
    (hnu : fs.map Prod.fst = gs.map Prod.fst) (hn : (fs.map Prod.fst).Nodup) : SameValues fs gs := by
  have h := encodeRecord_prefixFree.flatMap_injective encodeRecord_ne_nil h
  rw [← flatMap_records_inj hnu hn h]
  exact sameValues_refl fs

/-! ### Field values -/

def uint (n : ℕ) : List Value := if n = 0 then [] else [.varint n]

theorem uint_injective : Function.Injective uint := by
  intro a b h
  unfold uint at h
  split_ifs at h <;> simp_all

def utf8 (s : String) : Bytes := s.toByteArray.data.toList

theorem utf8_injective : Function.Injective utf8 := by
  intro s t h
  exact String.toByteArray_inj.mp (ByteArray.ext (Array.toList_inj.mp h))

def str (s : String) : List Value := if s = "" then [] else [.bytes (utf8 s)]

theorem str_injective : Function.Injective str := by
  intro s t h
  unfold str at h
  split_ifs at h with hs ht
  · rw [hs, ht]
  · exact utf8_injective (by simpa using h)

def optional (m : Option Bytes) : List Value := (m.map Value.bytes).toList

theorem optional_injective : Function.Injective optional := by
  rintro (_ | a) (_ | b) h <;> simp_all [optional]

def repeated (ms : List Bytes) : List Value := ms.map Value.bytes

theorem repeated_injective : Function.Injective repeated :=
  map_injective_iff.mpr fun _ _ h => by simpa using h

/-- A repeated scalar field: one record with all the elements. -/
def packed (ns : List ℕ) : List Value :=
  if ns = [] then [] else [.bytes (ns.flatMap varint)]

theorem packed_injective : Function.Injective packed := by
  intro ns ms h
  unfold packed at h
  split_ifs at h with hn hm
  · rw [hn, hm]
  · exact varint_prefixFree.flatMap_injective varint_ne_nil (by simpa using h)

/-- One entry of a map field. Key and value are written even when empty. -/
def mapEntry (kv : String × String) : Bytes :=
  encode [(1, [.bytes (utf8 kv.1)]), (2, [.bytes (utf8 kv.2)])]

theorem mapEntry_injective : Function.Injective mapEntry := by
  rintro ⟨k, v⟩ ⟨k', v'⟩ h
  obtain ⟨hk, hv, -⟩ := sameValues_of_encode_eq h rfl (by simp)
  simp only [cons.injEq, Value.bytes.injEq, and_true] at hk hv
  rw [utf8_injective hk, utf8_injective hv]

end Dhole.Wire
