import Dhole.Lexical
import Dhole.Routing
import Dhole.Wire

/-! The catalog of plugins. A manifest is published under its namespace, name and version and is
found again by a reference that joins the three; its row holds the digest as one text, enumerations
by name and lists as JSON, which is written in UTF-8. A text is the list of its bytes; of the JSON
columns the model keeps the lists they hold. -/

namespace Dhole.Catalog

open Lexical List
open Wire (utf8)

abbrev Str := Wire.Bytes

abbrev slash : UInt8 := '/'.toUInt8
abbrev atSign : UInt8 := '@'.toUInt8
abbrev colon : UInt8 := ':'.toUInt8

structure Manifest where
  space : Str
  name : Str
  version : Str
  /-- The two parts of the digest, which are empty where there is none. -/
  algo : Str
  hex : Str
  kind : Str
  effectClass : EffectClass
  capabilities : List Capability
  inputSchema : Str
  outputSchema : Str
  engineTypes : List Str
deriving DecidableEq

abbrev Key := Str × Str × Str

def Manifest.key (m : Manifest) : Key := (m.space, m.name, m.version)

def Manifest.ref (m : Manifest) : Str := m.space ++ slash :: m.name ++ atSign :: m.version

inductive Err where
  | tenantRequired
  | required (field : String)
  | unknownKind (kind : Str)
  | effectClassRequired (ref : Str)
  | unspecifiedCapability (ref : Str)
  | schema (ref : Str) (label cause : String)
  | malformedRef (ref : Str)
  | notFound (ref : Str)
  | versionExists (ref : Str)
  | publish (ref : Str) (cause : String)
  | storedDigest (digest : Str)
  | storedCapability (name : String)
  | storedEffectClass (name : String)
deriving DecidableEq

def kinds : List Str := [utf8 "step", utf8 "trigger", utf8 "engine"]

/-- The characters of a text; a byte that begins none stands for U+FFFD. -/
def runes : ℕ → Str → List Char
  | n + 1, byte :: rest =>
    match (byte :: rest).toByteArray.utf8DecodeChar? 0 with
    | some c => c :: runes n ((byte :: rest).drop c.utf8Size)
    | none => '\uFFFD' :: runes n rest
  | _, _ => []

/-- What is left of a text in JSON. -/
def toValid (s : Str) : Str := (runes s.length s).flatMap String.utf8EncodeChar

structure Row where
  space : Str
  name : Str
  version : Str
  digest : Str
  kind : Str
  effectClass : String
  capabilities : List String
  engineTypes : List Str
  inputSchema : Str
  outputSchema : Str
deriving DecidableEq

def Row.key (r : Row) : Key := (r.space, r.name, r.version)

def known {α : Type} (err : Err) : Option α → Except Err α
  | none => .error err
  | some a => .ok a

def splitRef (ref : Str) : Option Key := do
  let (path, version) ← cutLast atSign ref
  let (space, name) ← cutAt slash path
  if slash ∈ name ∨ space = [] ∨ name = [] ∨ version = [] then none else some (space, name, version)

def parseRef (ref : Str) : Except Err Key := known (.malformedRef ref) (splitRef ref)

-- The compiler of schemas: the cause where it refuses one.
variable (schemaError : Str → Option String)

def validate (m : Manifest) : Except Err Unit :=
  if m.space = [] then .error (.required "namespace")
  else if m.name = [] then .error (.required "name")
  else if m.version = [] then .error (.required "version")
  else if m.algo = [] ∨ m.hex = [] then .error (.required "digest")
  else if m.kind ∉ kinds then .error (.unknownKind m.kind)
  else if m.effectClass = .unspecified then .error (.effectClassRequired m.ref)
  else if .unspecified ∈ m.capabilities then .error (.unspecifiedCapability m.ref)
  else
    match schemaError m.inputSchema, schemaError m.outputSchema with
    | some cause, _ => .error (.schema m.ref "input schema" cause)
    | none, some cause => .error (.schema m.ref "output schema" cause)
    | none, none => .ok ()

def encode (m : Manifest) : Row where
  space := m.space
  name := m.name
  version := m.version
  digest := m.algo ++ colon :: m.hex
  kind := m.kind
  effectClass := m.effectClass.text
  capabilities := m.capabilities.map OpenEnum.text
  engineTypes := m.engineTypes.map toValid
  inputSchema := m.inputSchema
  outputSchema := m.outputSchema

def decode (r : Row) : Except Err Manifest := do
  let (algo, hex) ← known (.storedDigest r.digest) (cutAt colon r.digest)
  if algo = [] ∨ hex = [] then throw (.storedDigest r.digest)
  else
    let capabilities ← r.capabilities.mapM fun n => known (.storedCapability n) (OpenEnum.ofName? n)
    let effectClass ← known (.storedEffectClass r.effectClass) (OpenEnum.ofName? r.effectClass)
    pure { r with algo, hex, capabilities, effectClass }

def resolve (rows : List Row) (tenantID : String) (ref : Str) : Except Err Manifest :=
  if tenantID = "" then .error .tenantRequired
  else do
    let key ← parseRef ref
    let r ← known (.notFound ref) (rows.find? fun r => r.key = key)
    decode r

def keyLE (r r' : Row) : Bool := r.key.1 < r'.key.1 ∨ r.key.1 = r'.key.1 ∧
  (r.key.2.1 < r'.key.2.1 ∨ r.key.2.1 = r'.key.2.1 ∧ r.key.2.2 ≤ r'.key.2.2)

def list (rows : List Row) (tenantID : String) : Except Err (List Manifest) :=
  if tenantID = "" then .error .tenantRequired
  else (rows.mergeSort keyLE).mapM decode

/-- The key of a row is unique, and the database may fail besides. -/
def insert (rows : List Row) (m : Manifest) (failure : Option String) : Except Err (List Row) :=
  if m.key ∈ rows.map Row.key then .error (.publish m.ref "UNIQUE constraint failed")
  else
    match failure with
    | some cause => .error (.publish m.ref cause)
    | none => .ok (rows ++ [encode m])

/-- The rows afterwards; one that fails leaves them as they are. -/
def publish (rows : List Row) (tenantID : String) (m : Manifest) (failure : Option String) :
    Except Err (List Row) :=
  if tenantID = "" then .error .tenantRequired
  else do
    validate schemaError m
    match resolve rows tenantID m.ref with
    | .ok existing =>
      if encode existing = encode m then .ok rows else .error (.versionExists m.ref)
    | .error (.notFound _) => insert rows m failure
    | .error err => .error err

structure State where
  rows : List Row := []
  accepted : List Manifest := []

def step (tenantID : String) (s : State) (call : Manifest × Option String) : State :=
  match publish schemaError s.rows tenantID call.1 call.2 with
  | .ok rows => ⟨rows, s.accepted ++ [call.1]⟩
  | .error _ => s

def run (tenantID : String) (calls : List (Manifest × Option String)) : State :=
  calls.foldl (step schemaError tenantID) {}

/-- Nothing of the manifest is lost on the way through its reference and its row. -/
structure Faithful (m : Manifest) : Prop where
  version : atSign ∉ m.version
  algo : colon ∉ m.algo
  effectClass : m.effectClass.Declared
  capabilities : ∀ c ∈ m.capabilities, c.Declared
  engineTypes : ∀ e ∈ m.engineTypes, toValid e = e

/-! ### References -/

variable {sep : UInt8} {s a c ref : Str} {k : Key} {m : Manifest}

theorem cutLast_eq_some : cutLast sep s = some (a, c) ↔ s = a ++ sep :: c ∧ sep ∉ c := by
  have hc : cutLast sep s = some (a, c) ↔ cutAt sep s.reverse = some (c.reverse, a.reverse) := by
    rw [cutLast, Option.map_eq_some_iff]
    constructor
    · rintro ⟨⟨c', a'⟩, h, heq⟩
      cases heq
      simpa using h
    · exact fun h => ⟨_, h, by simp⟩
  rw [hc, cutAt_eq_some]
  simp

theorem of_splitRef (h : splitRef ref = some k) :
    ref = k.1 ++ slash :: k.2.1 ++ atSign :: k.2.2 ∧ slash ∉ k.1 ∧ slash ∉ k.2.1 ∧ atSign ∉ k.2.2 := by
  obtain ⟨⟨path, version⟩, hl, h⟩ := Option.bind_eq_some_iff.mp h
  obtain ⟨⟨sp, name⟩, hf, h⟩ := Option.bind_eq_some_iff.mp h
  dsimp only at h
  split at h
  · cases h
  · rename_i hb
    cases h
    obtain ⟨rfl, hv⟩ := cutLast_eq_some.mp hl
    obtain ⟨rfl, hs⟩ := cutAt_eq_some.mp hf
    exact ⟨rfl, hs, (not_or.mp hb).1, hv⟩

theorem splitRef_ref (h : splitRef m.ref = some k) : k = m.key ↔ atSign ∉ m.version := by
  obtain ⟨heq, hs, hn, hve⟩ := of_splitRef h
  constructor
  · rintro rfl
    exact hve
  · intro hv
    have hsp : some (m.space ++ slash :: m.name, m.version) =
        some (k.1 ++ slash :: k.2.1, k.2.2) :=
      (cutLast_eq_some.mpr ⟨rfl, hv⟩).symm.trans (cutLast_eq_some.mpr ⟨heq, hve⟩)
    obtain ⟨hp, hvr⟩ := Prod.mk.inj (Option.some.inj hsp)
    -- the path has one slash, so the namespace has none
    have hc := congrArg (List.count slash) hp
    simp only [count_append, count_cons_self, count_eq_zero_of_not_mem hs,
      count_eq_zero_of_not_mem hn] at hc
    have hsl : slash ∉ m.space := count_eq_zero.mp (by omega)
    obtain ⟨h₁, h₂⟩ := append_cons_inj hsl hs hp
    exact Prod.ext h₁.symm (Prod.ext h₂.symm hvr.symm)

/-! ### Texts in JSON -/

theorem runes_flatMap (cs : List Char) (n : ℕ)
    (hn : (cs.flatMap String.utf8EncodeChar).length ≤ n) :
    runes n (cs.flatMap String.utf8EncodeChar) = cs := by
  induction cs generalizing n with
  | nil => cases n <;> rfl
  | cons c cs ih =>
    have hsize := String.length_utf8EncodeChar c
    have hd : ((c :: cs).flatMap String.utf8EncodeChar).toByteArray.utf8DecodeChar? 0 = some c :=
      utf8DecodeChar?_utf8Encode_cons
    rw [flatMap_cons] at hn hd ⊢
    obtain ⟨byte, rest, hb⟩ : ∃ byte rest, String.utf8EncodeChar c = byte :: rest :=
      exists_cons_of_length_pos (hsize ▸ c.utf8Size_pos)
    obtain ⟨n, rfl⟩ : ∃ k, n = k + 1 :=
      Nat.exists_eq_succ_of_ne_zero (by simp [hb] at hn; omega)
    have hr : runes (n + 1) (String.utf8EncodeChar c ++ cs.flatMap String.utf8EncodeChar) =
        c :: runes n ((String.utf8EncodeChar c ++ cs.flatMap String.utf8EncodeChar).drop
          c.utf8Size) := by
      rw [hb, cons_append] at hd ⊢
      rw [runes, hd]
    have hp := c.utf8Size_pos
    rw [hr, ← hsize, drop_left, ih n (by rw [length_append] at hn; omega)]

theorem toValid_idem (s : Str) : toValid (toValid s) = toValid s := by
  rw [toValid, toValid, runes_flatMap _ _ le_rfl]

/-! ### Rows -/

variable {names : List (Int32 × String)} {schemaError : Str → Option String} {m' : Manifest} {r : Row}

/-- An enumeration is read back from its text where its number is declared: the decimal of another
is no name. -/
theorem ofName?_text_iff (hn : (names.map Prod.snd).Nodup)
    (hl : ∀ s ∈ names.map Prod.snd, '_' ∈ s.toList) (e : OpenEnum names) :
    OpenEnum.ofName? e.text = some e ↔ e.Declared := by
  unfold OpenEnum.Declared OpenEnum.text
  cases h : e.name? with
  | none =>
    have hno : toString e.number.toInt ∉ names.map Prod.snd := fun hm => by
      obtain hc | hc := Routing.isDigit_of_mem_repr (hl _ hm) <;> revert hc <;> decide
    rw [Option.getD_none, OpenEnum.ofName?_eq_none hno]
    simp
  | some s => simp [OpenEnum.ofName?_of_name? hn h]

theorem text_of_ofName? (hn : (names.map Prod.fst).Nodup) {e : OpenEnum names} {s : String}
    (h : OpenEnum.ofName? s = some e) : e.text = s := by
  obtain ⟨⟨n, s'⟩, hf, rfl⟩ := Option.map_eq_some_iff.mp h
  obtain rfl : s' = s := by simpa using find?_some hf
  have hl : names.lookup n = some s' := by
    obtain ⟨l₁, l₂, rfl⟩ := append_of_mem (mem_of_find?_eq_some hf)
    refine lookup_eq_some_iff.mpr ⟨l₁, l₂, rfl, fun x hx => ?_⟩
    rw [map_append] at hn
    have hne := (nodup_append.mp hn).2.2 x.1 (mem_map_of_mem hx) n (by simp)
    simpa using hne.symm
  rw [OpenEnum.text, OpenEnum.name?, hl]
  rfl

theorem known_eq_ok {α : Type} {err : Err} {o : Option α} {a : α} :
    known err o = .ok a ↔ o = some a := by
  cases o <;> simp [known]

theorem mapM_known {err : String → Err} {texts : List String} {caps : List Capability} :
    (texts.mapM fun n => known (err n) (OpenEnum.ofName? n)) = .ok caps ↔
      texts.map OpenEnum.ofName? = caps.map some := by
  induction texts generalizing caps with
  | nil => cases caps <;> simp [pure, Except.pure]
  | cons n texts ih =>
    rw [mapM_cons, bind_eq_ok_iff]
    constructor
    · rintro ⟨c, hc, h⟩
      obtain ⟨rest, hr, h⟩ := bind_eq_ok_iff.mp h
      cases h
      rw [map_cons, map_cons, known_eq_ok.mp hc, ih.mp hr]
    · intro h
      cases caps with
      | nil => cases h
      | cons c caps =>
        obtain ⟨hc, hr⟩ := cons.inj h
        exact ⟨c, known_eq_ok.mpr hc, bind_eq_ok_iff.mpr ⟨caps, ih.mpr hr, rfl⟩⟩

theorem of_decode (h : decode r = .ok m) : cutAt colon r.digest = some (m.algo, m.hex) ∧
    r.capabilities.map OpenEnum.ofName? = m.capabilities.map some ∧
    OpenEnum.ofName? r.effectClass = some m.effectClass ∧ r.key = m.key ∧ r.kind = m.kind ∧
    r.engineTypes = m.engineTypes ∧ r.inputSchema = m.inputSchema ∧
    r.outputSchema = m.outputSchema := by
  obtain ⟨⟨algo, hex⟩, hcu, h⟩ := bind_eq_ok_iff.mp h
  dsimp only at h
  split at h
  · cases h
  obtain ⟨caps, hc, h⟩ := bind_eq_ok_iff.mp h
  obtain ⟨cls, hcl, h⟩ := bind_eq_ok_iff.mp h
  cases h
  exact ⟨known_eq_ok.mp hcu, mapM_known.mp hc, known_eq_ok.mp hcl, rfl, rfl, rfl, rfl, rfl⟩

theorem capabilities_declared_iff : (∀ c ∈ m.capabilities, c.Declared) ↔
    (m.capabilities.map OpenEnum.text).map OpenEnum.ofName? = m.capabilities.map some := by
  rw [map_map, map_inj_left]
  exact forall₂_congr fun c _ => (ofName?_text_iff (by decide) (by decide) c).symm

theorem decode_encode_iff (ha : m.algo ≠ []) (hh : m.hex ≠ []) :
    decode (encode m) = .ok m ↔ colon ∉ m.algo ∧ m.effectClass.Declared ∧
      (∀ c ∈ m.capabilities, c.Declared) ∧ ∀ e ∈ m.engineTypes, toValid e = e := by
  rw [capabilities_declared_iff, ← ofName?_text_iff (by decide) (by decide) m.effectClass]
  constructor
  · intro h
    obtain ⟨hcu, hca, hc, -, -, he, -, -⟩ := of_decode h
    exact ⟨not_mem_of_cutAt hcu, hc, hca, map_inj_left.mp (he.trans (map_id _).symm)⟩
  · rintro ⟨hco, hc, hca, he⟩
    have hcu : cutAt colon (encode m).digest = some (m.algo, m.hex) := cutAt_append hco
    refine bind_eq_ok_iff.mpr ⟨(m.algo, m.hex), known_eq_ok.mpr hcu, ?_⟩
    dsimp only
    rw [if_neg (not_or.mpr ⟨ha, hh⟩)]
    refine bind_eq_ok_iff.mpr ⟨m.capabilities, mapM_known.mpr hca, ?_⟩
    refine bind_eq_ok_iff.mpr ⟨m.effectClass, known_eq_ok.mpr hc, ?_⟩
    rw [show (encode m).engineTypes = m.engineTypes from
      (map_inj_left.mpr he).trans (map_id _)]
    rfl

theorem encode_of_decode (h : decode (encode m') = .ok m) : encode m = encode m' := by
  obtain ⟨hcu, hcp, hca, hke, hk, he, hin, ho⟩ := of_decode h
  have hd := eq_of_cutAt hcu
  have ht : (encode m').capabilities = m.capabilities.map OpenEnum.text := by
    refine ext_getElem? fun i => ?_
    have hi := congrArg (·[i]?) hcp
    cases hn : (encode m').capabilities[i]? <;> cases hc : m.capabilities[i]? <;>
      simp [hn, hc] at hi ⊢
    exact (text_of_ofName? (by decide) hi).symm
  have hv : m.engineTypes.map toValid = m'.engineTypes.map toValid := by
    rw [← he]
    simp [encode, toValid_idem]
  obtain ⟨h₁, h₂, h₃⟩ : m'.space = m.space ∧ m'.name = m.name ∧ m'.version = m.version := by
    simpa [Row.key, Manifest.key, encode] using hke
  have hcl := text_of_ofName? (by decide) hca
  simp only [encode, Row.mk.injEq]
  exact ⟨h₁.symm, h₂.symm, h₃.symm, hd.symm, hk.symm, hcl, ht.symm, hv, hin.symm, ho.symm⟩

/-! ### Sequences of publications -/

variable {tid : String} {rows rows' : List Row} {failure : Option String} {s : State}

theorem validate_digest (h : validate schemaError m = .ok ()) : m.algo ≠ [] ∧ m.hex ≠ [] := by
  unfold validate at h
  split at h
  · cases h
  split at h
  · cases h
  split at h
  · cases h
  split at h
  · cases h
  · exact not_or.mp ‹_›

theorem resolve_eq_ok (ht : tid ≠ "") {ref : Str} :
    resolve rows tid ref = .ok m ↔ ∃ k r, splitRef ref = some k ∧
      rows.find? (fun r => r.key = k) = some r ∧ decode r = .ok m := by
  rw [resolve, if_neg ht, bind_eq_ok_iff]
  refine exists_congr fun k => ?_
  rw [bind_eq_ok_iff, parseRef, known_eq_ok]
  constructor
  · rintro ⟨hk, r, hr, hd⟩
    exact ⟨r, hk, known_eq_ok.mp hr, hd⟩
  · rintro ⟨r, hk, hr, hd⟩
    exact ⟨hk, r, known_eq_ok.mpr hr, hd⟩

/-- The catalog of a tenant as publishing leaves it: one row a key, and the rows those of the
manifests that were accepted. -/
structure Sound (s : State) : Prop where
  keys : (s.rows.map Row.key).Nodup
  held : ∀ m ∈ s.accepted, encode m ∈ s.rows
  readable : ∀ m ∈ s.accepted, (∃ k, splitRef m.ref = some k) ∧ m.algo ≠ [] ∧ m.hex ≠ []
  rows : ∀ r ∈ s.rows, ∃ m ∈ s.accepted, r = encode m

/-- A manifest that is accepted can be read, and is there already or becomes a row. -/
theorem publish_ok (hs : Sound s) (h : publish schemaError s.rows tid m failure = .ok rows') :
    ((∃ k, splitRef m.ref = some k) ∧ m.algo ≠ [] ∧ m.hex ≠ []) ∧
      (rows' = s.rows ∧ encode m ∈ s.rows ∨
        rows' = s.rows ++ [encode m] ∧ m.key ∉ s.rows.map Row.key) := by
  unfold publish at h
  split at h
  · cases h
  rename_i ht
  obtain ⟨_, hv, h⟩ := bind_eq_ok_iff.mp h
  split at h
  · rename_i ex hr
    obtain ⟨k, r, hk, hf, hd⟩ := (resolve_eq_ok ht).mp hr
    split at h
    · rename_i hsa
      cases h
      obtain ⟨m', -, rfl⟩ := hs.rows r (mem_of_find?_eq_some hf)
      refine ⟨⟨⟨k, hk⟩, validate_digest hv⟩, .inl ⟨rfl, ?_⟩⟩
      rw [← hsa, encode_of_decode hd]
      exact mem_of_find?_eq_some hf
    · cases h
  · rename_i ref hr
    have hsp : ∃ k, splitRef m.ref = some k := by
      cases hk : splitRef m.ref with
      | some k => exact ⟨k, rfl⟩
      | none =>
        rw [resolve, if_neg ht, parseRef, hk] at hr
        cases hr
    unfold insert at h
    split at h
    · cases h
    split at h
    · cases h
    · cases h
      exact ⟨⟨hsp, validate_digest hv⟩, .inr ⟨rfl, ‹_›⟩⟩
  · cases h

theorem Sound.step (hs : Sound s) (call : Manifest × Option String) :
    Sound (step schemaError tid s call) := by
  unfold Catalog.step
  split
  · rename_i rows' hp
    obtain ⟨hre, hro⟩ := publish_ok hs hp
    have ha : ∀ m ∈ s.accepted ++ [call.1], (∃ k, splitRef m.ref = some k) ∧ m.algo ≠ [] ∧
        m.hex ≠ [] := forall_mem_append.mpr ⟨hs.readable, by simpa using hre⟩
    have hold : ∀ r ∈ s.rows, ∃ m ∈ s.accepted ++ [call.1], r = encode m := fun r hr => by
      obtain ⟨m, hm, heq⟩ := hs.rows r hr
      exact ⟨m, mem_append_left _ hm, heq⟩
    obtain ⟨rfl, hh⟩ | ⟨rfl, hn⟩ := hro
    · exact ⟨hs.keys, forall_mem_append.mpr ⟨hs.held, by simpa using hh⟩, ha, hold⟩
    · refine ⟨?_, forall_mem_append.mpr ⟨fun m hm => mem_append_left _ (hs.held m hm),
        by simp⟩, ha, forall_mem_append.mpr ⟨hold, by simp⟩⟩
      rw [map_append]
      refine hs.keys.append (nodup_singleton _) fun k hk hk' => hn ?_
      rwa [mem_singleton.mp hk'] at hk
  · exact hs

theorem sound_run (schemaError : Str → Option String) (tid : String)
    (cs : List (Manifest × Option String)) :
    Sound (run schemaError tid cs) := by
  have hi : Sound {} := ⟨nodup_nil, by simp, by simp, by simp⟩
  unfold run
  induction cs using reverseRecOn with
  | nil => exact hi
  | append_singleton cs call ih =>
    rw [foldl_append]
    exact ih.step call

/-- What the catalog promises of the manifests it has accepted. -/
structure Immutable (tenantID : String) (s : State) : Prop where
  resolves : ∀ m ∈ s.accepted, resolve s.rows tenantID m.ref = .ok m
  refs : ∀ m ∈ s.accepted, ∀ m' ∈ s.accepted, m.key ≠ m'.key → m.ref ≠ m'.ref
  listed : ∃ entries, list s.rows tenantID = .ok entries ∧ entries.Nodup ∧
    ∀ m, m ∈ entries ↔ m ∈ s.accepted

theorem Sound.find?_key (hs : Sound s) (hm : m ∈ s.accepted) :
    s.rows.find? (fun r => r.key = m.key) = some (encode m) := by
  have hso : (s.rows.find? fun r => r.key = m.key).isSome :=
    find?_isSome.mpr ⟨_, hs.held m hm, decide_eq_true rfl⟩
  obtain ⟨r, hr⟩ := Option.isSome_iff_exists.mp hso
  have hk : r.key = m.key := by simpa using find?_some hr
  rw [hr, inj_on_of_nodup_map hs.keys (mem_of_find?_eq_some hr) (hs.held m hm) hk]

theorem Sound.resolve_iff (hs : Sound s) (ht : tid ≠ "") (hm : m ∈ s.accepted) :
    resolve s.rows tid m.ref = .ok m ↔ Faithful m := by
  obtain ⟨⟨k, hk⟩, ha, hh⟩ := hs.readable m hm
  rw [resolve_eq_ok ht]
  constructor
  · rintro ⟨k', r, hk', hfi, hd⟩
    cases hk.symm.trans hk'
    have hke : k = m.key := by
      have hr : r.key = k := by simpa using find?_some hfi
      rw [← hr, (of_decode hd).2.2.2.1]
    rw [hke, hs.find?_key hm] at hfi
    cases hfi
    obtain ⟨hc, hcl, hca, he⟩ := (decode_encode_iff ha hh).mp hd
    exact ⟨(splitRef_ref hk).mp hke, hc, hcl, hca, he⟩
  · intro hf
    refine ⟨m.key, encode m, ?_, hs.find?_key hm, (decode_encode_iff ha hh).mpr
      ⟨hf.algo, hf.effectClass, hf.capabilities, hf.engineTypes⟩⟩
    rw [hk, (splitRef_ref hk).mpr hf.version]

theorem mapM_decode {accepted : List Manifest}
    (h : ∀ r ∈ rows, ∃ m ∈ accepted, r = encode m ∧ decode r = .ok m) :
    ∃ ens, rows.mapM decode = .ok ens ∧ ens.map encode = rows ∧ ens ⊆ accepted := by
  induction rows with
  | nil => exact ⟨[], rfl, rfl, by simp⟩
  | cons r rows ih =>
    obtain ⟨⟨m, hm, hr, hd⟩, h⟩ := forall_mem_cons.mp h
    obtain ⟨ens, he, hro, hs⟩ := ih h
    refine ⟨m :: ens, ?_, by rw [map_cons, hro, hr], cons_subset.mpr ⟨hm, hs⟩⟩
    rw [mapM_cons]
    exact bind_eq_ok_iff.mpr ⟨m, hd, bind_eq_ok_iff.mpr ⟨ens, he, rfl⟩⟩

/-- The catalog over any sequence of publications: what was accepted is found again as it was, has
a reference of its own and is listed once, exactly if nothing of it is lost on the way through its
reference and its row. -/
theorem catalog_immutable_iff (schemaError : Str → Option String) (calls : List (Manifest × Option String))
    (htenant : tid ≠ "") : Immutable tid (run schemaError tid calls) ↔
      ∀ m ∈ (run schemaError tid calls).accepted, Faithful m := by
  have hs := sound_run schemaError tid calls
  generalize run schemaError tid calls = s at hs
  constructor
  · exact fun h m hm => (hs.resolve_iff htenant hm).mp (h.resolves m hm)
  intro hf
  have hd : ∀ m ∈ s.accepted, decode (encode m) = .ok m := fun m hm => by
    obtain ⟨-, ha, hh⟩ := hs.readable m hm
    exact (decode_encode_iff ha hh).mpr ⟨(hf m hm).algo, (hf m hm).effectClass,
      (hf m hm).capabilities, (hf m hm).engineTypes⟩
  have hke : ∀ m ∈ s.accepted, splitRef m.ref = some m.key := fun m hm => by
    obtain ⟨⟨k, hk⟩, -⟩ := hs.readable m hm
    rw [hk, (splitRef_ref hk).mpr (hf m hm).version]
  refine ⟨fun m hm => (hs.resolve_iff htenant hm).mpr (hf m hm), fun m hm m' hm' hne hre => ?_, ?_⟩
  · have hsa := (hke m hm).symm.trans (hre ▸ hke m' hm')
    exact hne (Option.some.inj hsa)
  · have hp := mergeSort_perm s.rows keyLE
    obtain ⟨en, he, hro, hsu⟩ : ∃ en,
        (s.rows.mergeSort keyLE).mapM decode = .ok en ∧
          en.map encode = s.rows.mergeSort keyLE ∧ en ⊆ s.accepted := by
      refine mapM_decode fun r hr => ?_
      obtain ⟨m, hm, rfl⟩ := hs.rows r (hp.subset hr)
      exact ⟨m, hm, rfl, hd m hm⟩
    refine ⟨en, by rw [list, if_neg htenant, he], ?_, fun m =>
      ⟨fun h => hsu h, fun hm => ?_⟩⟩
    · have hn : (en.map encode).Nodup := by
        rw [hro, hp.nodup_iff]
        exact hs.keys.of_map
      exact hn.of_map
    · have hme : encode m ∈ en.map encode := by
        rw [hro, hp.mem_iff]
        exact hs.held m hm
      obtain ⟨m', hm', heq⟩ := mem_map.mp hme
      have hsa := hd m' (hsu hm')
      rw [heq, hd m hm] at hsa
      exact Except.ok.inj hsa ▸ hm'

/-! ### A version with an `@` in it -/

def build (version : String) : Manifest where
  space := utf8 "core"
  name := utf8 "build"
  version := utf8 version
  algo := utf8 "sha256"
  hex := utf8 "ab"
  kind := utf8 "step"
  effectClass := .pure
  capabilities := []
  inputSchema := utf8 "true"
  outputSchema := utf8 "true"
  engineTypes := [utf8 "docker"]

def releases : List (Manifest × Option String) :=
  [(build "1.0", none), (build "1.1", none), (build "1.0", none)]

theorem released_versions_resolve : (run (fun _ => none) "acme" releases).rows.length = 2 ∧
    Immutable "acme" (run (fun _ => none) "acme" releases) := by
  refine ⟨by decide +kernel, (catalog_immutable_iff _ _ (by decide)).mpr fun m hm => ?_⟩
  have hal : ∀ m ∈ (run (fun _ => none) "acme" releases).accepted, m = build "1.0" ∨ m = build "1.1" := by
    decide +kernel
  obtain rfl | rfl := hal m hm
  all_goals exact ⟨by decide, by decide, by decide, by decide, by decide⟩

/-- It is accepted, and no reference finds it. -/
theorem dated_version_not_found :
    (run (fun _ => none) "acme" [(build "1@2026", none)]).accepted = [build "1@2026"] ∧
      resolve (run (fun _ => none) "acme" [(build "1@2026", none)]).rows "acme" (build "1@2026").ref =
        .error (.notFound (build "1@2026").ref) := by
  decide +kernel

end Dhole.Catalog
