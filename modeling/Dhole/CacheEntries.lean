import Dhole.CacheKey
import Dhole.Collect

/-! The outputs of a step as the cache stores them: their number, and each message framed by its
length. The cache refuses an entry that it cannot read whole. The collector has a reader of its
own, which keeps what it has read when it cannot read on and skips what has no digest. -/

namespace Dhole.Cas

open Wire List Cache

variable {Out : Type} (marshal : Out → Bytes) (unmarshal dec : Bytes → Except String Out)
  (digest : Out → Option Digest)

def encodeOutputs (outs : List Out) : Bytes :=
  putUint64 outs.length ++ outs.flatMap fun out => writeField (marshal out)

def truncated : String := "cache: truncated cache entry"

/-- The outputs that so many frames hold, and what stands behind them or why it stopped. -/
def readFrames : ℕ → Bytes → List Out × Except String Bytes
  | 0, rest => ([], .ok rest)
  | count + 1, rest =>
    if rest.length < 8 then ([], .error truncated)
    else
      let length := uint64 (rest.take 8)
      let rest := rest.drop 8
      if rest.length < length then ([], .error truncated)
      else
        match unmarshal (rest.take length) with
        | .error e => ([], .error ("cache: decode output: " ++ e))
        | .ok out =>
          let (outs, last) := readFrames count (rest.drop length)
          (out :: outs, last)

def readable (encoded : Bytes) : List Out × Except String Bytes :=
  if encoded.length < 8 then ([], .error truncated)
  else readFrames unmarshal (uint64 (encoded.take 8)) (encoded.drop 8)

def decodeOutputs (encoded : Bytes) : Except String (List Out) :=
  match readable unmarshal encoded with
  | (_, .error e) => .error e
  | (outs, .ok rest) =>
    if rest ≠ [] then .error "cache: trailing bytes in cache entry" else .ok outs

def collector : Codec where
  output b := (unmarshal b).toOption.map digest
  files _ := none

/-- The collector finds nothing in an entry the cache refuses, and in one that it accepts the
digest of each output. -/
def ReadersAgree (encoded : Bytes) : Prop :=
  match decodeOutputs unmarshal encoded with
  | .error _ => entryDigests (collector unmarshal digest) encoded = []
  | .ok outs => (entryDigests (collector unmarshal digest) encoded).map some =
      outs.map fun out => digestText (digest out)

/-- Every output of an entry that is accepted has a digest, and none at the front of one that is
refused. -/
def DigestsDecide (encoded : Bytes) : Prop :=
  match decodeOutputs unmarshal encoded with
  | .error _ => ∀ out ∈ (readable unmarshal encoded).1, digestText (digest out) = none
  | .ok outs => ∀ out ∈ outs, digestText (digest out) ≠ none

variable {marshal dec digest} {outs : List Out} {count : ℕ} {rest left encoded : Bytes}

theorem uint64_putUint64 {n : ℕ} (hn : n < 2 ^ 64) : uint64 (putUint64 n) = n := foldl_putUint64 hn

theorem readFrames_append (h : readFrames dec count rest = (outs, .ok left)) (tail : Bytes) :
    readFrames dec count (rest ++ tail) = (outs, .ok (left ++ tail)) := by
  induction count generalizing rest outs with
  | zero =>
    cases h
    rfl
  | succ count ih =>
    simp only [readFrames] at h
    split_ifs at h with h8 hl
    · cases h
    · cases h
    rw [not_lt] at h8 hl
    have h8' : ¬ (rest ++ tail).length < 8 := by simp; omega
    have hl' : ¬ (rest.drop 8 ++ tail).length < uint64 (rest.take 8) := by simp at *; omega
    simp only [readFrames, if_neg h8', take_append_of_le_length h8, drop_append_of_le_length h8,
      if_neg hl', take_append_of_le_length hl, drop_append_of_le_length hl]
    split at h
    · cases h
    obtain ⟨rfl, hla⟩ := Prod.mk.inj h
    rw [ih (Prod.ext rfl hla)]

theorem readFrames_encoded (hro : ∀ out, dec (marshal out) = .ok out)
    (hs : ∀ out ∈ outs, (marshal out).length < 2 ^ 64) :
    readFrames dec outs.length (outs.flatMap fun out => writeField (marshal out)) =
      (outs, .ok []) := by
  induction outs with
  | nil => rfl
  | cons out outs ih =>
    obtain ⟨ho, hs⟩ := forall_mem_cons.mp hs
    have hr := ih hs
    rw [flatMap_cons]
    generalize outs.flatMap (fun out => writeField (marshal out)) = bytes at hr ⊢
    simp [readFrames, writeField,
      uint64_putUint64 ho, hro, hr]

/-- The collector reads the digests of what it can read. -/
theorem entryDigests_eq : entryDigests (collector dec digest) encoded =
    (readable dec encoded).1.filterMap fun out => digestText (digest out) := by
  have hf : ∀ count rest, frames (collector dec digest) count rest =
      (readFrames dec count rest).1.filterMap fun out => digestText (digest out) := by
    intro count
    induction count with
    | zero => exact fun _ => rfl
    | succ count ih =>
      intro rest
      simp only [frames, readFrames, collector]
      split_ifs
      · rfl
      · rfl
      cases dec ((rest.drop 8).take (uint64 (rest.take 8))) with
      | error e => rfl
      | ok out =>
        simp only [Except.toOption, Option.map_some, filterMap_cons]
        rw [← ih]
        cases digestText (digest out) <;> rfl
  unfold entryDigests readable
  split_ifs
  · rfl
  · exact hf _ _

theorem map_some_filterMap_iff {α β : Type} {f : α → Option β} {l : List α} :
    (l.filterMap f).map some = l.map f ↔ ∀ x ∈ l, f x ≠ none := by
  induction l with
  | nil => simp
  | cons x l ih =>
    cases hx : f x with
    | none =>
      refine ⟨fun h => ?_, fun h => absurd hx (h x mem_cons_self)⟩
      have hm : none ∈ (filterMap f (x :: l)).map some := by
        rw [h]
        simp [hx]
      simp at hm
    | some b => simp [hx, ih]

theorem readable_append (h : readable dec encoded = (outs, .ok left)) (tail : Bytes) :
    readable dec (encoded ++ tail) = (outs, .ok (left ++ tail)) := by
  unfold readable at h ⊢
  split_ifs at h with h8
  · cases h
  rw [not_lt] at h8
  rw [if_neg (by simp; omega), take_append_of_le_length h8, drop_append_of_le_length h8]
  exact readFrames_append h tail

variable (marshal dec digest)

/-- What is encoded is read back, and neither a part of it nor what goes on behind it is taken for
an entry. The collector finds what the cache finds exactly if digests decide. -/
theorem entry_codec_iff (hround : ∀ out, unmarshal (marshal out) = .ok out) :
    (∀ outs, outs.length < 2 ^ 64 → (∀ out ∈ outs, (marshal out).length < 2 ^ 64) →
      decodeOutputs unmarshal (encodeOutputs marshal outs) = .ok outs ∧
      (∀ b tail, tail ≠ [] → encodeOutputs marshal outs = b ++ tail →
        ∃ e, decodeOutputs unmarshal b = .error e) ∧
      ∀ tail ≠ [], ∃ e, decodeOutputs unmarshal (encodeOutputs marshal outs ++ tail) = .error e) ∧
    ∀ encoded, ReadersAgree unmarshal digest encoded ↔ DigestsDecide unmarshal digest encoded := by
  refine ⟨fun outs hc hs => ?_, fun encoded => ?_⟩
  · have hr : readable unmarshal (encodeOutputs marshal outs) = (outs, .ok []) := by
      rw [readable, encodeOutputs,
        take_left' (putUint64_length _), uint64_putUint64 hc]
      exact readFrames_encoded hround hs
    refine ⟨by simp [decodeOutputs, hr], fun b tail ht hb => ?_, fun tail ht => ?_⟩
    · unfold decodeOutputs
      rcases hp : readable unmarshal b with ⟨outs', e | rest⟩
      · exact ⟨e, rfl⟩
      · have hw := readable_append hp tail
        rw [← hb, hr] at hw
        simp [ht] at hw
    · simp [decodeOutputs, readable_append hr tail, ht]
  · unfold ReadersAgree DigestsDecide
    rw [entryDigests_eq]
    cases hd : decodeOutputs unmarshal encoded with
    | error e => exact filterMap_eq_nil_iff
    | ok outs =>
      unfold decodeOutputs at hd
      split at hd
      · cases hd
      rename_i hr
      split_ifs at hd
      cases hd
      rw [hr]
      exact map_some_filterMap_iff

theorem plain_entry_read_back :
    decodeOutputs (Except.ok (ε := String)) (encodeOutputs id [[1, 2], []]) = .ok [[1, 2], []] :=
  ((entry_codec_iff id Except.ok (fun _ : Bytes => none) fun _ => rfl).1 _ (by decide)
    (by decide)).1

/-- An entry of two outputs that breaks off behind the first. -/
theorem cut_entry_has_digests :
    ¬ ReadersAgree (Except.ok (α := Bytes)) (fun _ => some ⟨"sha256", "ab"⟩)
      (putUint64 2 ++ writeField [1]) := by
  have hr : decodeOutputs (Except.ok) (putUint64 2 ++ writeField [1]) =
      .error truncated := by decide +kernel
  simp only [ReadersAgree, hr]
  decide

end Dhole.Cas
