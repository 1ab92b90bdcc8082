import Dhole.Scheduler

/-! The cache key of a step. It is a hash over the plugin reference, the environment, the
digests that feed the step, sorted, and the lockfile, each framed by its length, so two keys
agree exactly when these four do. The dispatch of the step carries more: its configuration,
the port each digest arrives on and the output ports it declares. -/

namespace Dhole.Cache

open Wire List

/-! ### Framing -/

/-- `binary.BigEndian.PutUint64`. -/
def putUint64 (n : ℕ) : Bytes := (List.range 8).map fun i => UInt8.ofNat (n / 256 ^ (7 - i))

def writeField (b : Bytes) : Bytes := putUint64 b.length ++ b

def writeEntry (entry : Bytes × Bytes) : Bytes := writeField entry.1 ++ writeField entry.2

def keySchema : String := "dhole.cache.key/v1"

def frames (pluginRef environment : Bytes) (inputs lockfile : List (Bytes × Bytes)) : Bytes :=
  writeField (utf8 keySchema) ++ writeField pluginRef ++ writeField environment ++
    putUint64 inputs.length ++ inputs.flatMap writeEntry ++
    putUint64 lockfile.length ++ lockfile.flatMap writeEntry

structure Material where
  pluginRef : String
  environment : String
  inputs : List (String × String)
  lockfile : List (String × String)
deriving DecidableEq

def utf8Pair (entry : String × String) : Bytes × Bytes := (utf8 entry.1, utf8 entry.2)

def Material.encode (m : Material) : Bytes :=
  frames (utf8 m.pluginRef) (utf8 m.environment) (m.inputs.map utf8Pair) (m.lockfile.map utf8Pair)

/-! ### Eligibility -/

inductive ExecutorScope where
  | step
  | job
  | pipeline
  | pool
  | service
deriving DecidableEq

def executorLeaseScope (s : LeaseScope) : ExecutorScope :=
  if s.number = 2 then .job
  else if s.number = 3 then .pipeline
  else if s.number = 4 then .pool
  else if s.number = 5 then .service
  else .step

def shortEffect (class_ : EffectClass) : String :=
  let text := class_.text.toList
  if "EFFECT_CLASS_".toList.isPrefixOf text then String.ofList (text.drop "EFFECT_CLASS_".length)
  else class_.text

def effectReason (class_ : EffectClass) : String :=
  if class_ = .pure then ""
  else if class_ = .idempotent ∨ class_ = .atMostOnce then
    "effect class " ++ shortEffect class_ ++ " has an external effect that no cache key can capture"
  else if class_ = .unspecified then
    "effect class is undeclared, so the step has not promised it is pure"
  else "unknown effect class " ++ class_.text ++ " cannot be shown to be pure"

def leaseReason : ExecutorScope → String
  | .step => ""
  | .pool => "pool lease reuses state that cannot be hashed"
  | .job => "job lease carries state between the steps of a job that cannot be hashed"
  | .pipeline => "pipeline lease carries state between the steps of a run that cannot be hashed"
  | .service => "service lease carries state across runs that cannot be hashed"

/-- Why the step may not be cached, or nothing. -/
def ineligible (step : Step) (scope : ExecutorScope) (envIdentity : String) : String :=
  if effectReason step.effectClass ≠ "" then effectReason step.effectClass
  else if leaseReason scope ≠ "" then leaseReason scope
  else if envIdentity = "" then "no stable environment identity to hash the step against"
  else ""

/-- `repo@algo:hex`: the text behind the last at sign is cut at its first colon. -/
def pinned (image : String) : Bool :=
  let (tail, rest) := image.toList.reverse.span fun c => c ≠ '@'
  match rest with
  | [] => false
  | _ :: repo =>
    let (algo, hex) := tail.reverse.span fun c => c ≠ ':'
    repo ≠ [] && hex ≠ [] && algo ≠ [] && hex.tail ≠ []

def stepEnvironment (step : Step) (tierIdentity : String) : String :=
  if step.image = "" then tierIdentity
  else if pinned step.image then step.image
  else ""

/-! ### Inputs -/

structure InputRef where
  port : String
  digest : Option Digest
  key : String := ""
deriving DecidableEq

def digestPair (d : Option Digest) : String × String :=
  (d.elim "" (·.algo), d.elim "" (·.hex))

/-- Of two files with one path the later one counts. -/
def fileAt (p : Pipeline) (path : String) : Option File :=
  p.files.reverse.find? fun f => f.path = path

def fileInputs (p : Pipeline) (step : Option Step) : Except Text (List InputRef) :=
  (step.elim [] Step.fileInputs).mapM fun binding =>
    match fileAt p binding.path with
    | none => .error ["step ", .quoted (step.elim "" Step.id), " reads file ", .quoted binding.path,
        " on port ", .quoted binding.port, ", and the definition carries no such file"]
    | some f =>
      if (digestPair f.digest).2 = "" then
        .error ["file ", .quoted binding.path, " has no digest: a revision pins the bytes it runs"]
      else .ok { port := binding.port, digest := f.digest }

/-- What is known when a step is placed: the definition, the outputs recorded so far, the
environment its engines agree on and the lockfile of the revision. -/
structure Placement where
  pipeline : Pipeline
  step : Step
  outputs : String → List OutputRef := fun _ => []
  tierIdentity : String := ""
  lockfile : Std.ExtTreeMap String String := ∅

namespace Placement

def edgesIn (a : Placement) : List Edge :=
  a.pipeline.edges.filter fun e => e.toStep = a.step.id

/-- The first output on the port of each edge; one that is missing leaves the key open. -/
def inputDigests (a : Placement) : Option (List (Option Digest)) :=
  match fileInputs a.pipeline (findStep a.pipeline a.step.id) with
  | .error _ => none
  | .ok files => do
    let fed ← a.edgesIn.mapM fun e =>
      ((a.outputs e.fromStep).find? fun out => out.port = e.fromPort).map OutputRef.digest
    some (files.map InputRef.digest ++ fed)

/-- Every output on the port of each edge. -/
def inputsFor (a : Placement) : Except Text (List InputRef) :=
  match fileInputs a.pipeline (some a.step) with
  | .error err => .error ("scheduler: dispatching " :: a.step.id :: ": " :: err)
  | .ok files => .ok (files ++ a.edgesIn.flatMap fun e =>
      ((a.outputs e.fromStep).filter fun out => out.port = e.fromPort).map fun out =>
        { port := e.toPort, digest := out.digest, key := out.key })

def environment (a : Placement) : String := stepEnvironment a.step a.tierIdentity

def material (a : Placement) (inputs : List (Option Digest)) : Material where
  pluginRef := a.step.pluginRef
  environment := a.environment
  inputs := (inputs.map digestPair).mergeSort fun x y => decide (toLex x ≤ toLex y)
  lockfile := a.lockfile.toList

/-- The key of the step, if it may be cached and its inputs are known. `sum` is SHA-256 in
hex. -/
def cacheKey (sum : Bytes → String) (a : Placement) : Option Digest :=
  if ineligible a.step (executorLeaseScope a.step.leaseScope) a.environment ≠ "" then none
  else do
    let inputs ← a.inputDigests
    some { algo := "sha256", hex := sum (a.material inputs).encode }

end Placement

/-- The arguments and the environment a reference names. -/
structure Command where
  args : List String := []
  env : Std.ExtTreeMap String String := ∅

def commandScheme : String := "command:"

-- the JSON of a command
variable (unmarshal : String → Except Text Command)

/-- A reference in any other scheme names nothing. -/
def commandFor (step : Step) : Except Text Command :=
  if !commandScheme.toList.isPrefixOf step.pluginRef.toList then .ok {}
  else
    match unmarshal (String.ofList (step.pluginRef.toList.drop commandScheme.length)) with
    | .error err => .error ("scheduler: step " :: .quoted step.id :: ": decoding " ::
        commandScheme :: " reference: " :: err)
    | .ok spec =>
      if spec.args = [] then .error ["scheduler: step ", .quoted step.id, ": ", commandScheme,
        " reference names no args"]
      else .ok spec

/-- What an engine is sent, as far as it decides what the step computes. -/
structure Work where
  step : Step
  command : Command
  inputs : List InputRef

def Placement.work (a : Placement) : Except Text Work := do
  let command ← commandFor unmarshal a.step
  let inputs ← a.inputsFor
  .ok { step := a.step, command, inputs }

/-! ### A key determines what it is computed from -/

/-- The lengths that are written fit the eight bytes they are written in. -/
structure Material.Fits (m : Material) : Prop where
  pluginRef : (utf8 m.pluginRef).length < 2 ^ 63
  environment : (utf8 m.environment).length < 2 ^ 63
  inputs : m.inputs.length < 2 ^ 63
  lockfile : m.lockfile.length < 2 ^ 63
  input : ∀ d ∈ m.inputs, (utf8 d.1).length < 2 ^ 63 ∧ (utf8 d.2).length < 2 ^ 63
  entry : ∀ e ∈ m.lockfile, (utf8 e.1).length < 2 ^ 63 ∧ (utf8 e.2).length < 2 ^ 63

variable {xs ys : Bytes}

@[simp] theorem putUint64_length (n : ℕ) : (putUint64 n).length = 8 := by simp [putUint64]

theorem foldl_putUint64 {n : ℕ} (hn : n < 2 ^ 64) :
    (putUint64 n).foldl (fun k x => k * 256 + x.toNat) 0 = n := by
  have hr : List.range 8 = [0, 1, 2, 3, 4, 5, 6, 7] := rfl
  simp only [putUint64, hr, map_cons, map_nil, foldl_cons, foldl_nil, UInt8.toNat_ofNat']
  omega

theorem putUint64_inj {n m : ℕ} (hn : n < 2 ^ 63) (hm : m < 2 ^ 63) (h : putUint64 n = putUint64 m) :
    n = m := by
  rw [← foldl_putUint64 (by omega : n < 2 ^ 64), h, foldl_putUint64 (by omega)]

theorem putUint64_append {n m : ℕ} (hn : n < 2 ^ 63) (hm : m < 2 ^ 63)
    (h : putUint64 n ++ xs = putUint64 m ++ ys) : n = m ∧ xs = ys := by
  obtain ⟨hc, hr⟩ := append_inj h (by simp)
  exact ⟨putUint64_inj hn hm hc, hr⟩

theorem writeField_append {b c : Bytes} (hb : b.length < 2 ^ 63) (hc : c.length < 2 ^ 63)
    (h : writeField b ++ xs = writeField c ++ ys) : b = c ∧ xs = ys := by
  obtain ⟨hl, hr⟩ := putUint64_append hb hc h
  exact append_inj hr hl

def Sized (l : List (Bytes × Bytes)) : Prop :=
  l.length < 2 ^ 63 ∧ ∀ e ∈ l, e.1.length < 2 ^ 63 ∧ e.2.length < 2 ^ 63

theorem writeEntries_append {l m : List (Bytes × Bytes)} (hl : Sized l) (hm : Sized m)
    (h : putUint64 l.length ++ (l.flatMap writeEntry ++ xs) =
      putUint64 m.length ++ (m.flatMap writeEntry ++ ys)) : l = m ∧ xs = ys := by
  replace h := putUint64_append hl.1 hm.1 h
  obtain ⟨hle, h⟩ := h
  obtain ⟨-, hl⟩ := hl
  obtain ⟨-, hm⟩ := hm
  induction l generalizing m with
  | nil =>
    obtain rfl := length_eq_zero_iff.mp hle.symm
    exact ⟨rfl, h⟩
  | cons d l ih =>
    cases m with
    | nil => cases hle
    | cons e m =>
      obtain ⟨hd, hl⟩ := forall_mem_cons.mp hl
      obtain ⟨he, hm⟩ := forall_mem_cons.mp hm
      simp only [flatMap_cons, writeEntry, append_assoc] at h
      obtain ⟨hf, h⟩ := writeField_append hd.1 he.1 h
      obtain ⟨hs, h⟩ := writeField_append hd.2 he.2 h
      obtain ⟨rfl, ht⟩ := ih (Nat.succ.inj hle) h hl hm
      exact ⟨by rw [Prod.ext hf hs], ht⟩

theorem frames_inj {p q e f : Bytes} {l m k n : List (Bytes × Bytes)} (hp : p.length < 2 ^ 63)
    (hq : q.length < 2 ^ 63) (he : e.length < 2 ^ 63) (hf : f.length < 2 ^ 63) (hl : Sized l)
    (hm : Sized m) (hk : Sized k) (hn : Sized n) (h : frames p e l k = frames q f m n) :
    p = q ∧ e = f ∧ l = m ∧ k = n := by
  simp only [frames, append_assoc] at h
  have h := append_cancel_left h
  obtain ⟨hpl, h⟩ := writeField_append hp hq h
  obtain ⟨hen, h⟩ := writeField_append he hf h
  obtain ⟨hi, h⟩ := writeEntries_append hl hm h
  rw [← append_nil (k.flatMap writeEntry), ← append_nil (n.flatMap writeEntry)] at h
  exact ⟨hpl, hen, hi, (writeEntries_append hk hn h).1⟩

theorem encode_injective {m n : Material} (hm : m.Fits) (hn : n.Fits) (h : m.encode = n.encode) :
    m = n := by
  have hs : ∀ {l : List (String × String)}, l.length < 2 ^ 63 →
      (∀ d ∈ l, (utf8 d.1).length < 2 ^ 63 ∧ (utf8 d.2).length < 2 ^ 63) →
      Sized (l.map utf8Pair) :=
    fun hl hd => ⟨by rwa [length_map], forall_mem_map.mpr hd⟩
  have hp : Function.Injective utf8Pair := fun d e h =>
    Prod.ext (utf8_injective (congrArg Prod.fst h)) (utf8_injective (congrArg Prod.snd h))
  obtain ⟨hpl, he, hi, hlo⟩ := frames_inj hm.pluginRef hn.pluginRef
    hm.environment hn.environment (hs hm.inputs hm.input) (hs hn.inputs hn.input)
    (hs hm.lockfile hm.entry) (hs hn.lockfile hn.entry) h
  cases n
  cases utf8_injective hpl
  cases utf8_injective he
  cases map_injective_iff.mpr hp hi
  cases map_injective_iff.mpr hp hlo
  rfl

/-! ### Arbitrary byte strings -/

theorem mergeSort_eq_iff_perm {α : Type} {r : α → α → Bool} {l m : List α}
    (ht : ∀ x y z, r x y = true → r y z = true → r x z = true)
    (hto : ∀ x y, (r x y || r y x) = true) (ha : ∀ x y, r x y = true → r y x = true → x = y) :
    l.mergeSort r = m.mergeSort r ↔ l.Perm m := by
  constructor
  · intro h
    have hp := mergeSort_perm l r
    rw [h] at hp
    exact hp.symm.trans (mergeSort_perm m _)
  · intro h
    exact List.Perm.eq_of_pairwise (fun x y _ _ => ha x y) (pairwise_mergeSort ht hto l)
      (pairwise_mergeSort ht hto m)
      (((mergeSort_perm l _).trans h).trans (mergeSort_perm m _).symm)

/-- Algorithm first, then the hex, both bytewise. -/
def compareDigest : Bytes × Bytes → Bytes × Bytes → Ordering :=
  compareLex (compareOn Prod.fst) (compareOn Prod.snd)

instance : Std.TransCmp compareDigest :=
  inferInstanceAs (Std.TransCmp (compareLex (compareOn Prod.fst) (compareOn Prod.snd)))

/-- What `Key` is called with, as a program can hold it: no length is beyond 63 bits. -/
structure KeyArguments where
  pluginRef : Bytes
  environment : Bytes
  inputs : List (Bytes × Bytes)
  lockfile : Std.ExtTreeMap Bytes Bytes
  pluginRef_sized : pluginRef.length < 2 ^ 63
  environment_sized : environment.length < 2 ^ 63
  inputs_sized : Sized inputs
  lockfile_sized : Sized lockfile.toList

def KeyArguments.preimage (k : KeyArguments) : Bytes :=
  frames k.pluginRef k.environment (k.inputs.mergeSort fun x y => (compareDigest x y).isLE)
    k.lockfile.toList

/-- What is hashed says which reference, which environment, which digests, how often each, and
which lockfile, and nothing of the order they are given in. -/
theorem preimage_eq_iff (k k' : KeyArguments) : k.preimage = k'.preimage ↔
    k.pluginRef = k'.pluginRef ∧ k.environment = k'.environment ∧
      (k.inputs : Multiset (Bytes × Bytes)) = k'.inputs ∧ k.lockfile = k'.lockfile := by
  have hso : (k.inputs.mergeSort fun x y => (compareDigest x y).isLE) =
      (k'.inputs.mergeSort fun x y => (compareDigest x y).isLE) ↔ k.inputs.Perm k'.inputs := by
    refine mergeSort_eq_iff_perm (fun _ _ _ => Std.TransCmp.isLE_trans) (fun x y => ?_)
      fun x y hxy hyx => ?_
    · have hsw : compareDigest x y = (compareDigest y x).swap := Std.OrientedCmp.eq_swap
      rw [hsw]
      cases compareDigest y x <;> rfl
    · have heq := Std.OrientedCmp.isLE_antisymm hxy hyx
      simp only [compareDigest, compareLex, compareOn, Ordering.then_eq_eq,
        Std.compare_eq_iff_eq] at heq
      exact Prod.ext heq.1 heq.2
  have hs : ∀ k : KeyArguments,
      Sized (k.inputs.mergeSort fun x y => (compareDigest x y).isLE) := fun k =>
    ⟨by rw [length_mergeSort]; exact k.inputs_sized.1,
      fun e he => k.inputs_sized.2 e ((mergeSort_perm _ _).mem_iff.mp he)⟩
  rw [Multiset.coe_eq_coe, ← hso, ← Std.ExtTreeMap.toList_inj]
  constructor
  · exact frames_inj k.pluginRef_sized k'.pluginRef_sized k.environment_sized k'.environment_sized
      (hs k) (hs k') k.lockfile_sized k'.lockfile_sized
  · rintro ⟨hp, hen, hi, hl⟩
    rw [KeyArguments.preimage, KeyArguments.preimage, hp, hen, hi, hl]

def twoInputs (swapped : Bool) : KeyArguments where
  pluginRef := utf8 "oci://link"
  environment := utf8 "sha256:env"
  inputs := if swapped then [(utf8 "sha256", [2]), (utf8 "sha256", [1])]
    else [(utf8 "sha256", [1]), (utf8 "sha256", [2])]
  lockfile := ∅
  pluginRef_sized := by decide
  environment_sized := by decide
  inputs_sized := by cases swapped <;> exact ⟨by decide, by decide⟩
  lockfile_sized := by simp [Sized]

theorem twoInputs_one_preimage : (twoInputs false).preimage = (twoInputs true).preimage :=
  (preimage_eq_iff _ _).mpr ⟨rfl, rfl, Multiset.coe_eq_coe.mpr (Perm.swap _ _ _), rfl⟩

/-! ### Reuse -/

/-- A placement as a program can hold it: no length is beyond 63 bits. -/
structure SizedPlacement extends Placement where
  sized : ∀ inputs, toPlacement.inputDigests = some inputs → (toPlacement.material inputs).Fits

def assignment (inputs : List InputRef) : List (String × String × String) :=
  inputs.map fun input => (input.port, digestPair input.digest)

structure Agree (w w' : Work) : Prop where
  plugin : w.step.pluginRef = w'.step.pluginRef
  config : w.step.config = w'.step.config
  inputs : (assignment w.inputs).Perm (assignment w'.inputs)
  outputs : w.step.outputs = w'.step.outputs

/-- Where the keys of the two steps are equal, their dispatches agree. -/
def ReuseSound (sum : Bytes → String) (a b : SizedPlacement) : Prop :=
  ∀ key w w', a.cacheKey sum = some key → b.cacheKey sum = some key →
    a.work unmarshal = .ok w → b.work unmarshal = .ok w' → Agree w w'

/-- Two cacheable steps with commands that are accepted, and with the same plugin, environment,
digests and lockfile, have the same configuration, the same digest on each port and the same output
ports. -/
def ParameterFree (a b : SizedPlacement) : Prop :=
  ineligible a.step (executorLeaseScope a.step.leaseScope) a.environment = "" →
  ineligible b.step (executorLeaseScope b.step.leaseScope) b.environment = "" →
  (commandFor unmarshal a.step).isOk → (commandFor unmarshal b.step).isOk →
  ∀ digests digests' inputs inputs', a.inputDigests = some digests → b.inputDigests = some digests' →
    a.inputsFor = .ok inputs → b.inputsFor = .ok inputs' →
    a.step.pluginRef = b.step.pluginRef → a.environment = b.environment →
    (digests.map digestPair).Perm (digests'.map digestPair) → a.lockfile = b.lockfile →
    a.step.config = b.step.config ∧ (assignment inputs).Perm (assignment inputs') ∧
      a.step.outputs = b.step.outputs

theorem sorted_eq_iff_perm {l m : List (String × String)} :
    (l.mergeSort fun x y => decide (toLex x ≤ toLex y)) =
        (m.mergeSort fun x y => decide (toLex x ≤ toLex y)) ↔ l.Perm m := by
  refine mergeSort_eq_iff_perm (fun x y z hxy hyz => ?_) (fun x y => ?_) fun x y hxy hyx => ?_
  · simp only [decide_eq_true_eq] at *
    exact le_trans hxy hyz
  · simp only [Bool.or_eq_true, decide_eq_true_eq]
    exact le_total _ _
  · exact toLex.injective (le_antisymm (of_decide_eq_true hxy) (of_decide_eq_true hyx))

theorem material_eq_iff {a b : Placement} {ins ins' : List (Option Digest)} :
    a.material ins = b.material ins' ↔
      a.step.pluginRef = b.step.pluginRef ∧ a.environment = b.environment ∧
        (ins.map digestPair).Perm (ins'.map digestPair) ∧ a.lockfile = b.lockfile := by
  rw [Placement.material, Placement.material, Material.mk.injEq, sorted_eq_iff_perm,
    Std.ExtTreeMap.toList_inj]

theorem cacheKey_eq_some {sum : Bytes → String} {a : Placement} {key : Digest} :
    a.cacheKey sum = some key ↔
      ineligible a.step (executorLeaseScope a.step.leaseScope) a.environment = "" ∧
        ∃ ins, a.inputDigests = some ins ∧
          key = { algo := "sha256", hex := sum (a.material ins).encode } := by
  unfold Placement.cacheKey
  split_ifs with h
  · simp [h]
  · simp only [Option.bind_eq_bind, Option.bind_eq_some_iff, Option.some.injEq]
    exact ⟨fun ⟨ins, hi, hk⟩ => ⟨not_not.mp h, ins, hi, hk.symm⟩,
      fun ⟨_, ins, hi, hk⟩ => ⟨ins, hi, hk.symm⟩⟩

variable {unmarshal}

theorem work_eq_ok {a : Placement} {w : Work} : a.work unmarshal = .ok w ↔
    ∃ c ins, commandFor unmarshal a.step = .ok c ∧ a.inputsFor = .ok ins ∧ w = ⟨a.step, c, ins⟩ := by
  unfold Placement.work
  cases commandFor unmarshal a.step <;> cases a.inputsFor <;> simp [bind, Except.bind, eq_comm]

/-- For every two steps with what is known when they are placed. -/
theorem reuseSound_iff (sum : Bytes → String) (hsum : Function.Injective sum)
    (a b : SizedPlacement) : ReuseSound unmarshal sum a b ↔ ParameterFree unmarshal a b := by
  constructor
  · intro hs ha hb hca hcb di digests' inputs in' hd hd' hi hi' hp he hpe hl
    obtain ⟨c, hc⟩ := Lexical.isOk_iff.mp hca
    obtain ⟨c', hc'⟩ := Lexical.isOk_iff.mp hcb
    have hm : a.material di = b.material digests' :=
      material_eq_iff.mpr ⟨hp, he, hpe, hl⟩
    have hag := hs _ _ _ (cacheKey_eq_some.mpr ⟨ha, di, hd, rfl⟩)
      (cacheKey_eq_some.mpr ⟨hb, digests', hd', by rw [hm]⟩)
      (work_eq_ok.mpr ⟨c, inputs, hc, hi, rfl⟩) (work_eq_ok.mpr ⟨c', in', hc', hi', rfl⟩)
    exact ⟨hag.config, hag.inputs, hag.outputs⟩
  · intro hf key w w' hk hk' hw hw'
    obtain ⟨ha, di, hd, rfl⟩ := cacheKey_eq_some.mp hk
    obtain ⟨hb, digests', hd', heq⟩ := cacheKey_eq_some.mp hk'
    obtain ⟨c, inputs, hc, hi, rfl⟩ := work_eq_ok.mp hw
    obtain ⟨c', in', hc', hi', rfl⟩ := work_eq_ok.mp hw'
    have hen := hsum (congrArg (·.hex) heq)
    have hm := encode_injective (a.sized di hd) (b.sized digests' hd') hen
    obtain ⟨hp, he, hpe, hl⟩ := material_eq_iff.mp hm
    obtain ⟨hco, hai, ho⟩ := hf ha hb (Lexical.isOk_iff.mpr ⟨c, hc⟩) (Lexical.isOk_iff.mpr ⟨c', hc'⟩) di
      digests'
      inputs in' hd hd' hi hi' hp he hpe hl
    exact ⟨hp, hco, hai, ho⟩

/-! ### One plugin with two configurations -/

def plainSum (b : Bytes) : String := String.ofList (b.map fun x => Char.ofNat x.toNat)

theorem plainSum_injective : Function.Injective plainSum := by
  have hc : Function.Injective fun x : UInt8 => Char.ofNat x.toNat := by
    intro x y h
    have hv : ∀ z : UInt8, z.toNat.isValidChar := fun z => .inl (by have := z.toNat_lt; omega)
    have hn := congrArg Char.toNat h
    simp only [Char.toNat_ofNat, hv] at hn
    exact UInt8.toNat_inj.mp hn
  intro b c h
  exact hc.list_map (String.ofList_injective h)

def compileStep (config : Std.ExtTreeMap String String) (outputs : List Port) : Step where
  id := "compile"
  pluginRef := "oci://compile"
  effectClass := .pure
  config
  outputs

def compile (config : Std.ExtTreeMap String String) (outputs : List Port) : SizedPlacement where
  pipeline := {}
  step := compileStep config outputs
  tierIdentity := "sha256:env"
  sized inputs h := by
    cases h
    have hplugin : (utf8 "oci://compile").length < 2 ^ 63 := by decide
    have henvironment : (utf8 "sha256:env").length < 2 ^ 63 := by decide
    exact ⟨hplugin, henvironment, by simp [Placement.material], by simp [Placement.material],
      by simp [Placement.material], by simp [Placement.material]⟩

/-- A debug and a release build have one key. -/
theorem debugAndRelease_share_key :
    ¬ ReuseSound (fun _ => .error []) plainSum (compile (Std.ExtTreeMap.ofList [("mode", "debug")]) [])
      (compile (Std.ExtTreeMap.ofList [("mode", "release")]) []) := by
  intro h
  have ha := h _ _ _ rfl rfl rfl rfl
  have hm := congrArg (fun m : Std.ExtTreeMap String String => m["mode"]?) ha.config
  revert hm
  decide

/-- Two compilations and a step that takes their objects. -/
def linkStep : Step where
  id := "link"
  pluginRef := "oci://link"
  effectClass := .pure

def linkEdges : List Edge :=
  [⟨"main", "object", "link", "left", []⟩, ⟨"util", "object", "link", "right", []⟩]

def object (name : String) : OutputRef := { port := "object", digest := some ⟨⟨"sha256", name⟩, []⟩ }

theorem fits_linked {a : Placement} {inputs : List (Option Digest)} (hs : a.step = linkStep)
    (ht : a.tierIdentity = "sha256:env") (hl : a.lockfile = ∅)
    (hi : inputs.Perm [(object "main").digest, (object "util").digest]) :
    (a.material inputs).Fits := by
  have hd : ∀ d ∈ [(object "main").digest, (object "util").digest].map digestPair,
      (utf8 d.1).length < 2 ^ 63 ∧ (utf8 d.2).length < 2 ^ 63 := by decide
  have he : a.environment = "sha256:env" := by
    simp [Placement.environment, hs, ht, linkStep, stepEnvironment]
  refine ⟨by simp only [Placement.material, hs]; decide, by simp only [Placement.material, he]; decide,
    by simp [Placement.material, hi.length_eq], by simp [Placement.material, hl],
    fun d hm => hd d ?_, by simp [Placement.material, hl]⟩
  exact (hi.map digestPair).mem_iff.mp ((mergeSort_perm _ _).mem_iff.mp hm)

/-- The edges into the step come in either order. -/
def link (swapped : Bool) : SizedPlacement where
  pipeline := { edges := if swapped then linkEdges.reverse else linkEdges }
  step := linkStep
  outputs name := [object name]
  tierIdentity := "sha256:env"
  sized inputs h := by
    cases swapped <;> cases h
    · exact fits_linked rfl rfl rfl (.refl _)
    · exact fits_linked rfl rfl rfl (.swap _ _ _)

theorem relinked_reused : Function.Injective plainSum ∧
    ReuseSound (fun _ => .error []) plainSum (link false) (link true) := by
  refine ⟨plainSum_injective, (reuseSound_iff plainSum plainSum_injective _ _).mpr ?_⟩
  rintro - - - - digests digests' inputs inputs' - - ⟨⟩ ⟨⟩ - - - -
  exact ⟨rfl, Perm.swap _ _ _, rfl⟩

/-! ### What is keyed and what is sent -/

def placed (p : Pipeline) (step : Step) (state : RunState) : Placement where
  pipeline := p
  step := step
  outputs := state.outputs

def Placement.arriving (a : Placement) (e : Edge) : List OutputRef :=
  (a.outputs e.fromStep).filter fun out => out.port = e.fromPort

/-- A key that is computed is computed from the digests that are sent. -/
def Placement.KeyedAsSent (a : Placement) : Prop :=
  ∀ digests inputs, a.inputDigests = some digests → a.inputsFor = .ok inputs →
    (digests : Multiset (Option Digest)) = inputs.map InputRef.digest

/-- The first of each list are all of them exactly if no list has a second. -/
theorem firsts_perm_iff {α β : Type} {f : α → List β} {l : List α} {firsts : List β}
    (h : (l.mapM fun a => (f a).head?) = some firsts) :
    l.length = firsts.length ∧ l.length ≤ (l.flatMap f).length ∧
      (firsts.Perm (l.flatMap f) ↔ ∀ a ∈ l, (f a).length ≤ 1) := by
  induction l generalizing firsts with
  | nil =>
    cases h
    simp
  | cons a l ih =>
    rw [mapM_cons] at h
    obtain ⟨b, hb, h⟩ := Option.bind_eq_some_iff.mp h
    obtain ⟨rest, hr, h⟩ := Option.bind_eq_some_iff.mp h
    cases h
    obtain ⟨hf, hm, hpe⟩ := ih hr
    obtain ⟨bs, hbs⟩ := head?_eq_some_iff.mp hb
    simp only [flatMap_cons, hbs, cons_append, length_cons, length_append, perm_cons, forall_mem_cons]
    refine ⟨by omega, by omega, fun hp => ?_, fun ⟨ho, ha⟩ => ?_⟩
    · have hl := hp.length_eq
      rw [length_append] at hl
      obtain rfl := length_eq_zero_iff.mp (by omega : bs.length = 0)
      exact ⟨by simp, hpe.mp hp⟩
    · obtain rfl := length_eq_zero_iff.mp (by omega : bs.length = 0)
      exact hpe.mpr ha

/-- A ready step is keyed on what it is sent exactly if it has no key yet, or no port it reads from
has two outputs. -/
theorem keyedAsSent_iff {p : Pipeline} {g : Dag.Graph} {state : RunState} {now : ℤ} {step : Step}
    (hbuild : Dag.build (some p) = .ok g) (hready : step ∈ (plan p g state now).ready) :
    (placed p step state).KeyedAsSent ↔ (placed p step state).inputDigests = none ∨
      ∀ e ∈ (placed p step state).edgesIn, ((placed p step state).arriving e).length ≤ 1 := by
  generalize ha : placed p step state = a
  have hfi : findStep a.pipeline a.step.id = some a.step := by
    rw [← ha]
    exact Dynamic.findStep_of_mem (Dag.build_ok hbuild).1.1 (mem_ready hready).1
  unfold Placement.KeyedAsSent Placement.inputDigests Placement.inputsFor
  rw [hfi]
  cases hfl : fileInputs a.pipeline (some a.step) with
  | error err => simp
  | ok fi =>
    have hf : ∀ e : Edge, ((a.outputs e.fromStep).find? fun out => out.port = e.fromPort).map
        OutputRef.digest = ((a.arriving e).map OutputRef.digest).head? := fun e => by
      rw [Placement.arriving, head?_map, head?_filter]
    simp only [hf]
    cases hfe : a.edgesIn.mapM fun e => ((a.arriving e).map OutputRef.digest).head? with
    | none => simp
    | some fed =>
      obtain ⟨-, -, hp⟩ := firsts_perm_iff hfe
      have hs : (fi ++ a.edgesIn.flatMap fun e => (a.arriving e).map fun out =>
          ({ port := e.toPort, digest := out.digest, key := out.key } : InputRef)).map
            InputRef.digest = fi.map InputRef.digest ++
          a.edgesIn.flatMap fun e => (a.arriving e).map OutputRef.digest := by
        simp [map_flatMap, Function.comp_def]
      simp only [length_map] at hp
      rw [← hp, ← perm_append_left_iff (fi.map InputRef.digest), ← hs]
      refine ⟨fun h => .inr (Multiset.coe_eq_coe.mp (h _ _ rfl rfl)), fun h di inputs hd hi => ?_⟩
      cases hd
      cases hi
      exact Multiset.coe_eq_coe.mpr (h.resolve_left (by simp))

def twoSteps : Pipeline where
  steps := [{ id := "build" }, { id := "test" }]
  edges := [⟨"build", "out", "test", "in", []⟩]

def built (outputs : List OutputRef) : RunState :=
  .ofLog [{ stepID := "build", payload := .stepSucceeded outputs, at_ := 0 }]

def twoStepsGraph : Dag.Graph := .ofPairs ["build", "test"] [("build", "test")]

theorem one_output_keyed_as_sent :
    (placed twoSteps { id := "test" } (built [{ port := "out" }])).KeyedAsSent := by
  have hb : Dag.build (some twoSteps) = .ok twoStepsGraph := rfl
  have hr : { id := "test" } ∈
      (plan twoSteps twoStepsGraph (built [{ port := "out" }]) 0).ready := by decide +kernel
  exact (keyedAsSent_iff hb hr).mpr (.inr (by decide))

/-- A port with two outputs is keyed on the first and sent both. -/
theorem two_outputs_keyed_on_first :
    { id := "test" } ∈ (plan twoSteps twoStepsGraph (built [{ port := "out" }, { port := "out" }])
      0).ready ∧
    ¬ (placed twoSteps { id := "test" }
      (built [{ port := "out" }, { port := "out" }])).KeyedAsSent := by
  refine ⟨by decide +kernel, fun h => ?_⟩
  have hc := congrArg Multiset.card (h _ _ rfl rfl)
  revert hc
  decide

end Dhole.Cache
