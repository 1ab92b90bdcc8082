import Mathlib
import Dhole.Lexical
import Dhole.Wire

/-! The pipeline definition: the messages of `dhole.v1` an edit and a run read, and
the bytes a revision is identified by. Every message carries the bytes of the
fields this build does not know, as a decoded protobuf message does. The canonical
encoding strips them from the message and from every message it reaches, and then
writes the known fields in the order of their numbers, so two definitions have the
same canonical bytes exactly when they agree on everything but unknown fields. -/

namespace Dhole

open Wire

/-! ### Enumerations -/

/-- A proto3 enumeration over a table of declared numbers. It is open: a message
written by a newer peer may hold a number that is not in the table. -/
structure OpenEnum (names : List (Int32 × String)) where
  number : Int32
deriving DecidableEq, Repr

namespace OpenEnum

variable {names : List (Int32 × String)}

def name? (e : OpenEnum names) : Option String := names.lookup e.number

/-- Indexing the `_name` map: a number that is not declared reads as no text. -/
def name (e : OpenEnum names) : String := e.name?.getD ""

def ofName? (s : String) : Option (OpenEnum names) :=
  (names.find? fun entry => entry.2 = s).map fun entry => ⟨entry.1⟩

/-- The generated `String` method, which prints an undeclared number in decimal. -/
def text (e : OpenEnum names) : String := e.name?.getD (toString e.number.toInt)

def Declared (e : OpenEnum names) : Prop := e.name?.isSome

instance (e : OpenEnum names) : Decidable e.Declared := inferInstanceAs (Decidable (_ = true))

/-- An `int32` on the wire is sign-extended to 64 bits. -/
def wireNumber (e : OpenEnum names) : ℕ := e.number.toInt64.toUInt64.toNat

theorem wireNumber_injective : Function.Injective (@wireNumber names) := by
  rintro ⟨a⟩ ⟨b⟩ h
  have hb : a.toInt64.toUInt64 = b.toInt64.toUInt64 := UInt64.toNat_inj.mp h
  have hw : a.toInt64 = b.toInt64 := congrArg Int64.ofUInt64 hb
  have hn : a = b := Int32.toInt_inj.mp (by simpa using congrArg Int64.toInt hw)
  rw [hn]

theorem ofName?_of_name? (hn : (names.map Prod.snd).Nodup) {e : OpenEnum names} {s : String}
    (h : e.name? = some s) : ofName? s = some e := by
  obtain ⟨l₁, l₂, hna, -⟩ := List.lookup_eq_some_iff.mp h
  have hf : names.find? (fun entry => entry.2 = s) = some (e.number, s) := by
    refine List.find?_eq_some_iff_append.mpr ⟨by simp, l₁, l₂, hna, fun a ha => ?_⟩
    rw [hna, List.map_append] at hn
    have hne := (List.nodup_append.mp hn).2.2 a.2 (List.mem_map_of_mem ha) s (by simp)
    simpa using hne
  simp [ofName?, hf]

theorem ofName?_eq_none {s : String} (hs : s ∉ names.map Prod.snd) : @ofName? names s = none := by
  simp only [ofName?, Option.map_eq_none_iff, List.find?_eq_none]
  intro entry he hn
  exact hs (List.mem_map.mpr ⟨entry, he, by simpa using hn⟩)

/-- A declared number is the value of its own name. The text an undeclared one reads
as is the name of nothing. -/
theorem ofName?_name_eq_some_iff (hn : (names.map Prod.snd).Nodup)
    (he : "" ∉ names.map Prod.snd) (e : OpenEnum names) : ofName? e.name = some e ↔ e.Declared := by
  unfold Declared name
  cases h : e.name? with
  | none => simp [ofName?_eq_none he]
  | some s => simp [ofName?_of_name? hn h]

end OpenEnum

def effectClassNames : List (Int32 × String) :=
  [(0, "EFFECT_CLASS_UNSPECIFIED"), (1, "EFFECT_CLASS_PURE"), (2, "EFFECT_CLASS_IDEMPOTENT"),
    (3, "EFFECT_CLASS_AT_MOST_ONCE")]

abbrev EffectClass := OpenEnum effectClassNames

namespace EffectClass

def unspecified : EffectClass := ⟨0⟩
def pure : EffectClass := ⟨1⟩
def idempotent : EffectClass := ⟨2⟩
def atMostOnce : EffectClass := ⟨3⟩

end EffectClass

def capabilityNames : List (Int32 × String) :=
  [(0, "CAPABILITY_UNSPECIFIED"), (1, "CAPABILITY_NETWORK"), (2, "CAPABILITY_SECRETS"),
    (3, "CAPABILITY_PRIVILEGED"), (4, "CAPABILITY_HOST_MOUNT"), (5, "CAPABILITY_NESTED_VIRT")]

abbrev Capability := OpenEnum capabilityNames

namespace Capability

def unspecified : Capability := ⟨0⟩
def secrets : Capability := ⟨2⟩
def privileged : Capability := ⟨3⟩

end Capability

def leaseScopeNames : List (Int32 × String) :=
  [(0, "LEASE_SCOPE_UNSPECIFIED"), (1, "LEASE_SCOPE_STEP"), (2, "LEASE_SCOPE_JOB"),
    (3, "LEASE_SCOPE_PIPELINE"), (4, "LEASE_SCOPE_POOL"), (5, "LEASE_SCOPE_SERVICE")]

abbrev LeaseScope := OpenEnum leaseScopeNames

/-! ### Messages -/

structure Tenant where
  id : String
  unknown : Bytes := []
deriving DecidableEq

@[ext] structure BareDigest where
  algo : String
  hex : String
deriving DecidableEq

def BareDigest.parse (text : String) : Option BareDigest :=
  match Lexical.cutAt ':' text.toList with
  | none => none
  | some (algo, hex) =>
    if algo = [] ∨ hex = [] then none else some ⟨String.ofList algo, String.ofList hex⟩

structure Digest extends BareDigest where
  unknown : Bytes := []
deriving DecidableEq

structure BlobType where
  mediaType : String
  unknown : Bytes := []
deriving DecidableEq

structure StructType where
  schemaId : String
  schema : String
  unknown : Bytes := []
deriving DecidableEq

inductive PortKind where
  | blob (t : BlobType)
  | structured (t : StructType)
deriving DecidableEq

structure PortType where
  kind : Option PortKind
  unknown : Bytes := []
deriving DecidableEq

structure Port where
  name : String
  type : Option PortType := none
  unknown : Bytes := []
deriving DecidableEq

structure File where
  path : String
  digest : Option Digest := none
  sizeBytes : UInt64 := 0
  mediaType : String := ""
  unknown : Bytes := []
deriving DecidableEq

structure FileInput where
  port : String
  path : String
  unknown : Bytes := []
deriving DecidableEq

structure StepSecret where
  name : String
  env : String
  unknown : Bytes := []
deriving DecidableEq

structure Step where
  id : String
  name : String := ""
  pluginRef : String := ""
  effectClass : EffectClass := .unspecified
  inputs : List Port := []
  outputs : List Port := []
  capabilities : List Capability := []
  leaseScope : LeaseScope := ⟨0⟩
  config : Std.ExtTreeMap String String := ∅
  image : String := ""
  engineType : String := ""
  timeoutSeconds : UInt32 := 0
  fileInputs : List FileInput := []
  secrets : List StepSecret := []
  unknown : Bytes := []
deriving DecidableEq

structure Edge where
  fromStep : String
  fromPort : String
  toStep : String
  toPort : String
  unknown : Bytes := []
deriving DecidableEq

structure Pipeline where
  id : String := ""
  tenant : Option Tenant := none
  steps : List Step := []
  edges : List Edge := []
  files : List File := []
  unknown : Bytes := []
deriving DecidableEq

end Dhole
