import Dhole.Pipeline

/-! The encoding a revision's content hash is taken over. `marshal` writes the known
fields of a message in the order of their numbers and then the unknown bytes it
carries; `stripUnknown` clears those bytes everywhere first. What is left is an
exact encoding: canonical bytes are equal just when the stripped messages are. -/

namespace Dhole

open Wire List

/-! ### Stripping unknown fields -/

def Tenant.stripUnknown (m : Tenant) : Tenant := { m with unknown := [] }
def Digest.stripUnknown (m : Digest) : Digest := { m with unknown := [] }
def BlobType.stripUnknown (m : BlobType) : BlobType := { m with unknown := [] }
def StructType.stripUnknown (m : StructType) : StructType := { m with unknown := [] }

def PortKind.stripUnknown : PortKind → PortKind
  | .blob t => .blob t.stripUnknown
  | .structured t => .structured t.stripUnknown

def PortType.stripUnknown (m : PortType) : PortType :=
  { kind := m.kind.map PortKind.stripUnknown, unknown := [] }

def Port.stripUnknown (m : Port) : Port :=
  { m with type := m.type.map PortType.stripUnknown, unknown := [] }

def File.stripUnknown (m : File) : File :=
  { m with digest := m.digest.map Digest.stripUnknown, unknown := [] }

def FileInput.stripUnknown (m : FileInput) : FileInput := { m with unknown := [] }
def StepSecret.stripUnknown (m : StepSecret) : StepSecret := { m with unknown := [] }

def Step.stripUnknown (m : Step) : Step :=
  { m with
    inputs := m.inputs.map Port.stripUnknown
    outputs := m.outputs.map Port.stripUnknown
    fileInputs := m.fileInputs.map FileInput.stripUnknown
    secrets := m.secrets.map StepSecret.stripUnknown
    unknown := [] }

def Edge.stripUnknown (m : Edge) : Edge := { m with unknown := [] }

def Pipeline.stripUnknown (m : Pipeline) : Pipeline :=
  { m with
    tenant := m.tenant.map Tenant.stripUnknown
    steps := m.steps.map Step.stripUnknown
    edges := m.edges.map Edge.stripUnknown
    files := m.files.map File.stripUnknown
    unknown := [] }

/-! ### The deterministic encoding -/

def Tenant.marshal (m : Tenant) : Bytes := encode [(1, str m.id)] ++ m.unknown

def Digest.marshal (m : Digest) : Bytes :=
  encode [(1, str m.algo), (2, str m.hex)] ++ m.unknown

def BlobType.marshal (m : BlobType) : Bytes := encode [(1, str m.mediaType)] ++ m.unknown

def StructType.marshal (m : StructType) : Bytes :=
  encode [(1, str m.schemaId), (2, str m.schema)] ++ m.unknown

/-- The members of the oneof, of which at most one is set. -/
def PortKind.blob? : PortKind → Option BlobType
  | .blob t => some t
  | .structured _ => none

def PortKind.structured? : PortKind → Option StructType
  | .blob _ => none
  | .structured t => some t

def PortType.marshal (m : PortType) : Bytes :=
  encode [(1, optional ((m.kind.bind PortKind.blob?).map BlobType.marshal)),
    (2, optional ((m.kind.bind PortKind.structured?).map StructType.marshal))] ++ m.unknown

def Port.marshal (m : Port) : Bytes :=
  encode [(1, str m.name), (2, optional (m.type.map PortType.marshal))] ++ m.unknown

def File.marshal (m : File) : Bytes :=
  encode [(1, str m.path), (2, optional (m.digest.map Digest.marshal)),
    (3, uint m.sizeBytes.toNat), (4, str m.mediaType)] ++ m.unknown

def FileInput.marshal (m : FileInput) : Bytes :=
  encode [(1, str m.port), (2, str m.path)] ++ m.unknown

def StepSecret.marshal (m : StepSecret) : Bytes :=
  encode [(1, str m.name), (2, str m.env)] ++ m.unknown

def Step.marshal (m : Step) : Bytes :=
  encode [(1, str m.id), (2, str m.name), (3, str m.pluginRef),
    (4, uint m.effectClass.wireNumber),
    (5, repeated (m.inputs.map Port.marshal)), (6, repeated (m.outputs.map Port.marshal)),
    (7, packed (m.capabilities.map OpenEnum.wireNumber)), (8, uint m.leaseScope.wireNumber),
    (9, repeated (m.config.toList.map mapEntry)), (10, str m.image), (11, str m.engineType),
    (12, uint m.timeoutSeconds.toNat), (13, repeated (m.fileInputs.map FileInput.marshal)),
    (14, repeated (m.secrets.map StepSecret.marshal))] ++ m.unknown

def Edge.marshal (m : Edge) : Bytes :=
  encode [(1, str m.fromStep), (2, str m.fromPort), (3, str m.toStep), (4, str m.toPort)] ++
    m.unknown

def Pipeline.marshal (m : Pipeline) : Bytes :=
  encode [(1, str m.id), (2, optional (m.tenant.map Tenant.marshal)),
    (3, repeated (m.steps.map Step.marshal)), (4, repeated (m.edges.map Edge.marshal)),
    (5, repeated (m.files.map File.marshal))] ++ m.unknown

/-- Separates this hash from any other digest in the system. -/
def hashDomain : Bytes := utf8 "dhole.v1.Pipeline\x00"

def canonicalBytes (p : Pipeline) : Bytes := hashDomain ++ p.stripUnknown.marshal

def hexDigit (n : ℕ) : Char := "0123456789abcdef".toList.getD n '0'

def encodeToString (b : Bytes) : String :=
  String.ofList (b.flatMap fun x => [hexDigit (x.toNat / 16), hexDigit (x.toNat % 16)])

/-- The revision identity of a definition, over whatever function the digest is. -/
def contentHash (sum256 : Bytes → Bytes) (p : Pipeline) : String :=
  encodeToString (sum256 (canonicalBytes p))

/-! ### Exactness -/

variable {α γ : Type*} {strip : α → α} {marshal : α → Bytes}

/-- An encoding of a message that loses nothing but unknown fields. -/
def ExactEncoding (strip : α → α) (marshal : α → γ) : Prop :=
  ∀ ⦃a b : α⦄, marshal (strip a) = marshal (strip b) → strip a = strip b

theorem ExactEncoding.optional (h : ExactEncoding strip marshal) :
    ExactEncoding (Option.map strip) fun m => Wire.optional (m.map marshal) := by
  intro a b hab
  have hm := optional_injective hab
  cases a <;> cases b <;> simp_all only [Option.map_some, Option.map_none, reduceCtorEq,
    Option.some.injEq]
  exact h hm

theorem ExactEncoding.repeated (h : ExactEncoding strip marshal) :
    ExactEncoding (map strip) fun l => Wire.repeated (l.map marshal) := by
  intro a b hab
  have hm : (a.map strip).map marshal = (b.map strip).map marshal := repeated_injective hab
  clear hab
  induction a generalizing b with
  | nil => simpa using hm.symm
  | cons x a ih =>
    obtain _ | ⟨y, b⟩ := b
    · simp at hm
    · simp only [map_cons, cons.injEq] at hm ⊢
      exact ⟨h hm.1, ih hm.2⟩

theorem Tenant.marshal_exact : ExactEncoding Tenant.stripUnknown Tenant.marshal := by
  intro a b h
  simp only [Tenant.marshal, Tenant.stripUnknown, append_nil] at h
  obtain ⟨hf, -⟩ := sameValues_of_encode_eq h rfl (by simp)
  rw [Tenant.stripUnknown, Tenant.stripUnknown, str_injective hf]

theorem Digest.marshal_exact : ExactEncoding Digest.stripUnknown Digest.marshal := by
  intro a b h
  simp only [Digest.marshal, Digest.stripUnknown, append_nil] at h
  obtain ⟨ha, hh, -⟩ := sameValues_of_encode_eq h rfl (by simp)
  have hd : a.toBareDigest = b.toBareDigest :=
    BareDigest.ext (str_injective ha) (str_injective hh)
  simp only [Digest.stripUnknown, hd]

theorem BlobType.marshal_exact : ExactEncoding BlobType.stripUnknown BlobType.marshal := by
  intro a b h
  simp only [BlobType.marshal, BlobType.stripUnknown, append_nil] at h
  obtain ⟨hf, -⟩ := sameValues_of_encode_eq h rfl (by simp)
  rw [BlobType.stripUnknown, BlobType.stripUnknown, str_injective hf]

theorem StructType.marshal_exact : ExactEncoding StructType.stripUnknown StructType.marshal := by
  intro a b h
  simp only [StructType.marshal, StructType.stripUnknown, append_nil] at h
  obtain ⟨hid, hs, -⟩ := sameValues_of_encode_eq h rfl (by simp)
  simp only [StructType.stripUnknown, str_injective hid, str_injective hs]

theorem PortKind.blob?_stripUnknown (k : Option PortKind) :
    (k.map PortKind.stripUnknown).bind PortKind.blob? =
      (k.bind PortKind.blob?).map BlobType.stripUnknown := by
  rcases k with _ | _ | _ <;> rfl

theorem PortKind.structured?_stripUnknown (k : Option PortKind) :
    (k.map PortKind.stripUnknown).bind PortKind.structured? =
      (k.bind PortKind.structured?).map StructType.stripUnknown := by
  rcases k with _ | _ | _ <;> rfl

theorem PortKind.ext_members {k k' : Option PortKind}
    (hb : k.bind PortKind.blob? = k'.bind PortKind.blob?)
    (hs : k.bind PortKind.structured? = k'.bind PortKind.structured?) : k = k' := by
  rcases k with _ | _ | _ <;> rcases k' with _ | _ | _ <;>
    simp_all [PortKind.blob?, PortKind.structured?]

theorem PortType.marshal_exact : ExactEncoding PortType.stripUnknown PortType.marshal := by
  intro a b h
  simp only [PortType.marshal, PortType.stripUnknown, append_nil,
    PortKind.blob?_stripUnknown, PortKind.structured?_stripUnknown] at h
  obtain ⟨hb, hs, -⟩ := sameValues_of_encode_eq h rfl (by simp)
  have hk : a.kind.map PortKind.stripUnknown = b.kind.map PortKind.stripUnknown := by
    apply PortKind.ext_members
    · rw [PortKind.blob?_stripUnknown, PortKind.blob?_stripUnknown]
      exact BlobType.marshal_exact.optional hb
    · rw [PortKind.structured?_stripUnknown, PortKind.structured?_stripUnknown]
      exact StructType.marshal_exact.optional hs
  simp only [PortType.stripUnknown, hk]

theorem Port.marshal_exact : ExactEncoding Port.stripUnknown Port.marshal := by
  intro a b h
  simp only [Port.marshal, Port.stripUnknown, append_nil] at h
  obtain ⟨hn, ht, -⟩ := sameValues_of_encode_eq h rfl (by simp)
  simp only [Port.stripUnknown, str_injective hn, PortType.marshal_exact.optional ht]

theorem File.marshal_exact : ExactEncoding File.stripUnknown File.marshal := by
  intro a b h
  simp only [File.marshal, File.stripUnknown, append_nil] at h
  obtain ⟨hp, hd, hs, hm, -⟩ := sameValues_of_encode_eq h rfl (by simp)
  simp only [File.stripUnknown, str_injective hp, Digest.marshal_exact.optional hd,
    UInt64.toNat_inj.mp (uint_injective hs), str_injective hm]

theorem FileInput.marshal_exact : ExactEncoding FileInput.stripUnknown FileInput.marshal := by
  intro a b h
  simp only [FileInput.marshal, FileInput.stripUnknown, append_nil] at h
  obtain ⟨hp, hpa, -⟩ := sameValues_of_encode_eq h rfl (by simp)
  simp only [FileInput.stripUnknown, str_injective hp, str_injective hpa]

theorem StepSecret.marshal_exact : ExactEncoding StepSecret.stripUnknown StepSecret.marshal := by
  intro a b h
  simp only [StepSecret.marshal, StepSecret.stripUnknown, append_nil] at h
  obtain ⟨hn, he, -⟩ := sameValues_of_encode_eq h rfl (by simp)
  simp only [StepSecret.stripUnknown, str_injective hn, str_injective he]

theorem config_injective :
    Function.Injective fun m : Std.ExtTreeMap String String => repeated (m.toList.map mapEntry) := by
  intro a b h
  have hl := mapEntry_injective.list_map (repeated_injective h)
  exact Std.ExtTreeMap.ext_toList (hl ▸ Perm.refl _)

theorem Step.marshal_exact : ExactEncoding Step.stripUnknown Step.marshal := by
  intro a b h
  simp only [Step.marshal, Step.stripUnknown, append_nil] at h
  obtain ⟨hid, hn, hp, hcl, hin, ho, hca, hsc, hc, hi, he, ht, hfi, hs, -⟩ :=
    sameValues_of_encode_eq h rfl (by simp)
  simp only [Step.stripUnknown, str_injective hid, str_injective hn, str_injective hp,
    OpenEnum.wireNumber_injective (uint_injective hcl),
    Port.marshal_exact.repeated hin, Port.marshal_exact.repeated ho,
    OpenEnum.wireNumber_injective.list_map (packed_injective hca),
    OpenEnum.wireNumber_injective (uint_injective hsc), config_injective hc,
    str_injective hi, str_injective he,
    UInt32.toNat_inj.mp (uint_injective ht),
    FileInput.marshal_exact.repeated hfi, StepSecret.marshal_exact.repeated hs]

theorem Edge.marshal_exact : ExactEncoding Edge.stripUnknown Edge.marshal := by
  intro a b h
  simp only [Edge.marshal, Edge.stripUnknown, append_nil] at h
  obtain ⟨hfs, hfp, hts, htp, -⟩ := sameValues_of_encode_eq h rfl (by simp)
  simp only [Edge.stripUnknown, str_injective hfs, str_injective hfp, str_injective hts,
    str_injective htp]

theorem Pipeline.marshal_exact : ExactEncoding Pipeline.stripUnknown Pipeline.marshal := by
  intro a b h
  simp only [Pipeline.marshal, Pipeline.stripUnknown, append_nil] at h
  obtain ⟨hid, ht, hs, he, hfi, -⟩ := sameValues_of_encode_eq h rfl (by simp)
  simp only [Pipeline.stripUnknown, str_injective hid, Tenant.marshal_exact.optional ht,
    Step.marshal_exact.repeated hs, Edge.marshal_exact.repeated he,
    File.marshal_exact.repeated hfi]

theorem canonicalBytes_eq_iff {p q : Pipeline} :
    canonicalBytes p = canonicalBytes q ↔ p.stripUnknown = q.stripUnknown := by
  refine ⟨fun h => Pipeline.marshal_exact (append_cancel_left h), fun h => ?_⟩
  rw [canonicalBytes, canonicalBytes, h]

end Dhole
