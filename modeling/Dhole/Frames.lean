import Mathlib
import Dhole.Wire

/-! The frames of a guest's stream. A frame is a header of five bytes and a payload, in two writes
under one lock, and the peer reads a header and then as many bytes as it announces. -/

namespace Dhole.Vmwire

open List Wire

def maxFrame : ℕ := 2 ^ 20

def frameStatus : UInt8 := 8

structure Frame where
  type : UInt8
  payload : Bytes
  small : payload.length ≤ maxFrame

def Frame.raw (f : Frame) : UInt8 × Bytes := (f.type, f.payload)

inductive Call where
  | write (t : UInt8) (payload : Bytes)
  /-- The encoding of the value, if it has one. -/
  | writeJSON (t : UInt8) (encoded : Option Bytes)
  /-- The text of the error, if there is one. -/
  | writeStatus (err : Option Bytes)

def frameOf (t : UInt8) (payload : Bytes) : Option Frame :=
  if h : payload.length ≤ maxFrame then some ⟨t, payload, h⟩ else none

def Call.frame : Call → Option Frame
  | .write t payload => frameOf t payload
  | .writeJSON t encoded => encoded.bind (frameOf t)
  | .writeStatus none => frameOf frameStatus []
  | .writeStatus (some text) => frameOf frameStatus text

def putUint32 (n : ℕ) : Bytes := (range 4).map fun i => UInt8.ofNat (n / 256 ^ (3 - i))

def uint32 (b : Bytes) : ℕ := b.foldl (fun n x => n * 256 + x.toNat) 0

def Frame.header (f : Frame) : Bytes := f.type :: putUint32 f.payload.length

/-- The writes of a frame. An empty payload is not written. -/
def Frame.writes (f : Frame) : List Bytes :=
  f.header :: if f.payload = [] then [] else [f.payload]

/-! ### Reading -/

inductive ReadErr where
  | eof
  | unexpectedEOF
  | tooLarge

/-- `io.ReadFull`: the bytes asked for, and those left. -/
def readFull (n : ℕ) (b : Bytes) : Except ReadErr (Bytes × Bytes) :=
  if n ≤ b.length then .ok (b.take n, b.drop n)
  else .error (if b = [] then .eof else .unexpectedEOF)

def read (b : Bytes) : Except ReadErr ((UInt8 × Bytes) × Bytes) := do
  let (header, rest) ← readFull 5 b
  let n := uint32 (header.drop 1)
  if n > maxFrame then throw .tooLarge
  if n = 0 then return ((header.headD 0, []), rest)
  let (payload, rest) ← readFull n rest
  return ((header.headD 0, payload), rest)

inductive Reads : Bytes → List (UInt8 × Bytes) → ReadErr → Prop
  | stop {b e} (h : read b = .error e) : Reads b [] e
  | next {b f rest fs e} (h : read b = .ok (f, rest)) (hr : Reads rest fs e) : Reads b (f :: fs) e

def succeeds (f : UInt8 × Bytes) : Prop := f.1 = frameStatus ∧ f.2.length = 0

/-! ### Writing -/

/-- The writes that whoever has the lock has yet to make, the bytes on the stream, and the frames
in the order in which their writers took the lock. -/
structure State where
  holder : Option (List Bytes) := none
  stream : Bytes := []
  frames : List Frame := []

/-- Any goroutine may call when the lock is free. -/
inductive Step : State → State → Prop
  | lock {s f} (call : Call) (h : s.holder = none) (hf : call.frame = some f) :
    Step s { s with holder := some f.writes, frames := s.frames ++ [f] }
  | write {s b rest} (h : s.holder = some (b :: rest)) :
    Step s { s with holder := some rest, stream := s.stream ++ b }
  | unlock {s} (h : s.holder = some []) : Step s { s with holder := none }

def Runs (s : State) : Prop := Relation.ReflTransGen Step {} s

variable {f : Frame} {a b rest : Bytes} {n : ℕ} {s : State}

theorem flatten_writes (f : Frame) : f.writes.flatten = f.header ++ f.payload := by
  unfold Frame.writes
  split <;> simp_all

theorem length_header (f : Frame) : f.header.length = 5 := by
  simp [Frame.header, putUint32]

theorem uint32_header (f : Frame) : uint32 (f.header.drop 1) = f.payload.length := by
  have h := f.small
  have hr : range 4 = [0, 1, 2, 3] := rfl
  simp only [maxFrame] at h
  simp only [uint32, Frame.header, putUint32, hr, drop_succ_cons, drop_zero, map_cons, map_nil,
    foldl_cons, foldl_nil, UInt8.toNat_ofNat']
  omega

theorem readFull_append (h : a.length = n) : readFull n (a ++ rest) = .ok (a, rest) := by
  simp [readFull, ← h]

theorem readFull_short (h : b.length < n) : ∃ e, readFull n b = .error e :=
  ⟨_, if_neg (by omega)⟩

theorem read_header (f : Frame) (b : Bytes) : read (f.header ++ b) =
    (readFull f.payload.length b).map fun p => ((f.type, p.1), p.2) := by
  have hs : ¬ f.payload.length > maxFrame := Nat.not_lt.mpr f.small
  have ht : f.header.headD 0 = f.type := rfl
  simp only [read, readFull_append (length_header f), bind, Except.bind, uint32_header, hs, ht,
    if_false, pure, Except.pure]
  split
  next h => simp [readFull, h, Except.map]
  next => rcases readFull f.payload.length b with _ | ⟨p, rest⟩ <;> rfl

theorem read_frame (f : Frame) (b : Bytes) :
    read (f.writes.flatten ++ b) = .ok (f.raw, b) := by
  rw [flatten_writes, append_assoc, read_header, readFull_append rfl]
  rfl

theorem read_cut (h : n < f.writes.flatten.length) :
    ∃ e, read (f.writes.flatten.take n) = .error e := by
  rw [flatten_writes, length_append, length_header] at h
  rw [flatten_writes, take_append, length_header]
  by_cases hn : n < 5
  · obtain ⟨e, he⟩ := readFull_short (b := f.header.take n) (n := 5)
      (by rw [length_take]; omega)
    have hz : n - 5 = 0 := by omega
    exact ⟨e, by simp [read, hz, he, bind, Except.bind]⟩
  · obtain ⟨e, he⟩ := readFull_short (b := f.payload.take (n - 5)) (n := f.payload.length)
      (by rw [length_take]; omega)
    rw [take_of_length_le (by rw [length_header]; omega), read_header, he]
    exact ⟨e, rfl⟩

theorem reads_cut (fs : List Frame) (k : ℕ) : ∃ n e,
    Reads ((fs.flatMap fun f => f.writes.flatten).take k) ((fs.take n).map Frame.raw) e := by
  induction fs generalizing k with
  | nil => exact ⟨0, .eof, .stop (by simp [read, readFull, bind, Except.bind])⟩
  | cons f fs ih =>
    rw [flatMap_cons, take_append]
    by_cases hk : k < f.writes.flatten.length
    · obtain ⟨e, he⟩ := read_cut hk
      have hz : k - f.writes.flatten.length = 0 := by omega
      exact ⟨0, e, .stop (by rwa [hz, take_zero, append_nil])⟩
    · obtain ⟨n, e, he⟩ := ih (k - f.writes.flatten.length)
      rw [take_of_length_le (by omega)]
      exact ⟨n + 1, e, .next (read_frame f _) he⟩

theorem reads_frames (fs : List Frame) :
    Reads (fs.flatMap fun f => f.writes.flatten) (fs.map Frame.raw) .eof := by
  induction fs with
  | nil => exact .stop rfl
  | cons f fs ih => exact .next (read_frame f _) ih

theorem stream_of_runs (h : Runs s) :
    s.stream ++ (s.holder.getD []).flatten = s.frames.flatMap fun f => f.writes.flatten := by
  induction h with
  | refl => rfl
  | tail _ hs ih => cases hs <;> simp_all

/-- The frame of an error with no text. It is that of a success. -/
def blank : Frame := ⟨frameStatus, [], Nat.zero_le _⟩

theorem runs_blank : Runs ⟨none, [8, 0, 0, 0, 0], [blank]⟩ :=
  .tail (.tail (.tail .refl (.lock (.writeStatus (some [])) rfl rfl)) (.write rfl)) (.unlock rfl)

/-- Whatever the interleaving, the peer reads the frames whole and in the order of the lock, a
stream that is cut gives some of them and an error, and a stream that ends with an error is not
taken for a success: the last if and only if the error has a text. -/
theorem framed_iff (text : Bytes) :
    (∀ s, Runs s →
      (s.holder = none → Reads s.stream (s.frames.map Frame.raw) .eof) ∧
      (∀ k, ∃ n e, Reads (s.stream.take k) ((s.frames.take n).map Frame.raw) e) ∧
      ∀ f fs, (Call.writeStatus (some text)).frame = some f → s.frames = fs ++ [f] →
        ¬ succeeds f.raw) ↔ text ≠ [] := by
  constructor
  · rintro h rfl
    exact (h _ runs_blank).2.2 blank [] rfl rfl ⟨rfl, rfl⟩
  · intro ht s hs
    have hi := stream_of_runs hs
    refine ⟨fun hn => ?_, fun k => ?_, fun f fs hf _ hb => ?_⟩
    · have hd : s.stream = s.frames.flatMap fun f => f.writes.flatten := by simpa [hn] using hi
      exact hd ▸ reads_frames s.frames
    · have hd : s.stream.take k =
          (s.frames.flatMap fun f => f.writes.flatten).take (min k s.stream.length) := by
        rw [← hi, take_append_of_le_length (Nat.min_le_right ..)]
        exact take_eq_take_min
      exact hd ▸ reads_cut s.frames _
    · simp only [Call.frame, frameOf] at hf
      split at hf
      · cases hf
        exact ht (length_eq_zero_iff.mp hb.2)
      · cases hf

theorem error_read_as_success : ∃ s f, Runs s ∧ (Call.writeStatus (some [])).frame = some f ∧
    s.frames = [f] ∧ Reads s.stream [f.raw] .eof ∧ succeeds f.raw :=
  ⟨_, blank, runs_blank, rfl, rfl, reads_frames [blank], rfl, rfl⟩

end Dhole.Vmwire
