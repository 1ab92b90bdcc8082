import Dhole.Compose
import Dhole.Lexical
import Dhole.Moments
import Dhole.Wire

/-! Mirroring an upstream's artifact. A call asks the upstream which artifact a tag names, has the
signatures over that artifact checked against the signers the upstream is trusted for, and then
asks for the tag again to copy it. The upstream answers as it likes, the database too; what is
written is what was vetted only if the tag still names it when it is copied. -/

namespace Dhole.Plugins

open Interleave Prog Lexical Wire List

/-! ### Signatures -/

inductive Source where
  | cosign
  | manual
  | unknown (name : String)
deriving DecidableEq

structure Signature where
  identity : String
  issuer : String
  payload : Bytes
  source : Source
deriving DecidableEq

inductive MirrorErr where
  | tenantRequired
  | malformedRef
  | upstream
  | malformedSignature
  | verificationFailed
  | database
  | mirror
  | copyDiffers
deriving DecidableEq

abbrev VerifyBundle := String → Bytes → Option (String × String)

variable (verifyCosignBundle : VerifyBundle)

def requireTenant (tenantID : String) : Except MirrorErr Unit :=
  if trimSpace tenantID = "" then .error .tenantRequired else .ok ()

def digestText (hex : String) : Except MirrorErr String :=
  if hex = "" then .error .malformedSignature else .ok ("sha256:" ++ hex)

/-- The principals an entry each names; none where an entry is malformed or there is none. -/
def parseAllowed (allowed : List String) : Except MirrorErr (List (String × String)) :=
  if allowed = [] then .error .verificationFailed
  else allowed.mapM fun entry =>
    match fields entry with
    | [issuer, identity] => .ok (issuer, identity)
    | _ => .error .verificationFailed

/-- A stored signature is checked again against what it says of itself. -/
def checkEvidence (hex : String) (sig : Signature) : Except MirrorErr Unit :=
  match sig.source with
  | .cosign =>
    if verifyCosignBundle hex sig.payload = some (sig.identity, sig.issuer) then .ok ()
    else .error .malformedSignature
  | .manual => if sig.payload = [] then .error .malformedSignature else .ok ()
  | .unknown _ => .error .malformedSignature

def Signature.validate (sig : Signature) : Except MirrorErr Unit :=
  if trimSpace sig.identity = "" ∨ trimSpace sig.issuer = "" ∨ sig.payload = [] then
    .error .malformedSignature
  else
    match sig.source with
    | .cosign | .manual => .ok ()
    | .unknown _ => .error .malformedSignature

def signatureFromCosignBundle (hex : String) (bundle : Bytes) : Except MirrorErr Signature :=
  match verifyCosignBundle hex bundle with
  | none => .error .malformedSignature
  | some (identity, issuer) => .ok { identity, issuer, payload := bundle, source := .cosign }

/-! ### Calls -/

/-- What a registry serves under a reference, and the image that is read of it: for an index it
is another artifact than the one that was named. -/
structure Descriptor where
  hex : String
  mediaType : String
  image : Option String
deriving DecidableEq

structure IndexRow where
  tenantID : String
  space : String
  name : String
  tag : String
  digest : String
  mediaType : String
  localRef : String
  sourceRef : String
deriving DecidableEq

def hexOf (digest : String) : Option String :=
  (cutAt ':' digest.toList).map fun (_, hex) => String.ofList hex

theorem hexOf_digestText {hex text : String} (h : digestText hex = .ok text) :
    hexOf text = some hex := by
  unfold digestText at h
  split at h
  · cases h
  · obtain rfl := Except.ok.inj h
    have ht : ("sha256:" ++ hex).toList = "sha256".toList ++ ':' :: hex.toList := by
      rw [String.toList_append]
      rfl
    rw [hexOf, ht, cutAt_append (by decide)]
    simp

inductive MirrorOp where
  | head (ref : String)
  | get (ref : String)
  | bundles (ref : String)
  | mirroredDigest (tenantID space name tag : String)
  | insertSignature (tenantID digest : String) (sig : Signature)
  | signatureRows (tenantID digest : String)
  | write (ref hex : String)
  | insertIndex (row : IndexRow)
deriving DecidableEq

/-- The artifact a call puts into the mirror or into its index. -/
def MirrorOp.admits : MirrorOp → Option String
  | .write _ hex => some hex
  | .insertIndex row => hexOf row.digest
  | _ => none

def mirrorSig : Sig where
  Op := MirrorOp
  Res
    | .head _ => Option (String × String)
    | .get _ => Option Descriptor
    | .bundles _ => Option (List Bytes)
    | .mirroredDigest .. => Option String
    | .insertSignature .. => Bool
    | .signatureRows .. => Option (List Signature)
    | .write .. => Bool
    | .insertIndex .. => Bool

def mirrorWorld : World mirrorSig where
  State := Unit
  init := ()
  Answers _ _ := True
  next s _ := s

abbrev MirrorM := ExceptT MirrorErr (Prog mirrorSig)

abbrev MirrorEvent := Event mirrorSig

def ask (op : MirrorOp) : MirrorM (mirrorSig.Res op) :=
  liftM (perform (S := mirrorSig) op)

def check {α : Type} : Except MirrorErr α → MirrorM α
  | .ok a => pure a
  | .error e => throw e

/-! ### Mirroring one artifact -/

/-- An upstream a tenant trusts for a namespace, with the registry its URL points into. -/
structure Upstream where
  space : String
  host : String
  pathPrefix : String
  allowedIdentities : List String

def joinRepo (host pathPrefix pluginName : String) : String :=
  if pathPrefix = "" then host ++ "/" ++ pluginName
  else host ++ "/" ++ pathPrefix ++ "/" ++ pluginName

/-- How bundles are verified, which references parse, and where mirrored repositories are
rooted; a tenant is folded in as the text of its hash. -/
structure RegistryMirror where
  verifyCosignBundle : VerifyBundle
  parses : String → Bool
  root : String
  tenantHash : String → String

variable (m : RegistryMirror)

def RegistryMirror.ref (tenantID space pluginName tag : String) : String :=
  m.root ++ "/t-" ++ m.tenantHash tenantID ++ "/" ++ space ++ "/" ++ pluginName ++ ":" ++ tag

def parseTag (ref : String) : MirrorM Unit :=
  if m.parses ref then pure () else throw .malformedRef

def head (ref : String) : MirrorM (String × String) := do
  parseTag m ref
  match ← ask (.head ref) with
  | none => throw .upstream
  | some answer => pure answer

/-- The mirror serves this artifact; one that cannot answer does not. -/
def holds (ref hex : String) : MirrorM Bool :=
  if m.parses ref then do
    match ← ask (.head ref) with
    | none => pure false
    | some (held, _) => pure (held = hex)
  else pure false

/-- The artifact is recorded at exactly this digest and the mirror serves it. -/
def alreadyHeld (tenantID : String) (u : Upstream) (pluginName tag hex : String) :
    MirrorM Bool := do
  match ← ask (.mirroredDigest tenantID u.space pluginName tag) with
  | none => pure false
  | some digest =>
    if hexOf digest = some hex then holds m (m.ref tenantID u.space pluginName tag) hex
    else pure false

def signatures (repoRef hex : String) : MirrorM (List Signature) := do
  parseTag m (repoRef ++ ":sha256-" ++ hex ++ ".sig")
  match ← ask (.bundles (repoRef ++ ":sha256-" ++ hex ++ ".sig")) with
  | none => throw .upstream
  | some bundles =>
    let sigs ← check (bundles.mapM (signatureFromCosignBundle m.verifyCosignBundle hex))
    if sigs = [] then throw .upstream else pure sigs

def record (tenantID hex : String) (sig : Signature) : MirrorM Unit := do
  check (requireTenant tenantID)
  let text ← check (digestText hex)
  check sig.validate
  -- a bundle is filed under no other name than the one it asserts
  if sig.source = .cosign ∧
      m.verifyCosignBundle hex sig.payload ≠ some (sig.identity, sig.issuer) then
    throw .malformedSignature
  else
    match ← (ask (.insertSignature tenantID text sig) : MirrorM Bool) with
    | true => pure ()
    | false => throw .database

def recordAll (tenantID hex : String) : List Signature → MirrorM Unit
  | [] => pure ()
  | sig :: sigs => do
    record m tenantID hex sig
    recordAll tenantID hex sigs

def verify (tenantID hex : String) (allowed : List String) : MirrorM Unit := do
  check (requireTenant tenantID)
  let text ← check (digestText hex)
  let principals ← check (parseAllowed allowed)
  match ← ask (.signatureRows tenantID text) with
  | none => throw .verificationFailed
  | some rows =>
    if ∃ sig ∈ rows, principals.contains (sig.issuer, sig.identity) ∧
        checkEvidence m.verifyCosignBundle hex sig = .ok () then pure ()
    else throw .verificationFailed

structure Artifact where
  ref : String
  hex : String
  mediaType : String

/-- What the tag names now is read and written; only then is it compared, and with what the
upstream published under the same answer. -/
def copy (srcRef dstRef : String) : MirrorM Artifact := do
  parseTag m srcRef
  parseTag m dstRef
  match ← ask (.get srcRef) with
  | none => throw .upstream
  | some desc =>
    match desc.image with
    | none => throw .upstream
    | some written =>
      match ← (ask (.write dstRef written) : MirrorM Bool) with
      | false => throw .mirror
      | true =>
        if written ≠ desc.hex then throw .copyDiffers
        else pure { ref := "oci://" ++ dstRef, hex := written, mediaType := desc.mediaType }

def recordMirrored (tenantID : String) (u : Upstream) (pluginName tag : String) (a : Artifact)
    (srcRef : String) : MirrorM Unit := do
  let text ← check (digestText a.hex)
  let row : IndexRow :=
    { tenantID, space := u.space, name := pluginName, tag, digest := text,
      mediaType := a.mediaType, localRef := a.ref, sourceRef := srcRef }
  match ← (ask (.insertIndex row) : MirrorM Bool) with
  | true => pure ()
  | false => throw .database

/-- Brings one artifact in; true where this call is what mirrored it. -/
def mirrorOne (tenantID : String) (u : Upstream) (pluginName tag : String) : MirrorM Bool := do
  let repoRef := joinRepo u.host u.pathPrefix pluginName
  let srcRef := repoRef ++ ":" ++ tag
  let (hex, mediaType) ← head m srcRef
  match ← alreadyHeld m tenantID u pluginName tag hex with
  | true => pure false
  | false =>
    let sigs ← signatures m repoRef hex
    recordAll m tenantID hex sigs
    verify m tenantID hex u.allowedIdentities
    let copied ← copy m srcRef (m.ref tenantID u.space pluginName tag)
    let mediaType := if mediaType ≠ "" then mediaType else copied.mediaType
    recordMirrored tenantID u pluginName tag { copied with mediaType := mediaType } srcRef
    pure true

/-! ### What a call has seen when it admits an artifact -/

section Vetting

variable (tenantID tid : String) (allowed : List String)

/-- The tenant's signatures over the artifact were read, and one of them is of an allowed
signer and checks. -/
def Vetted (hex : String) (h : List MirrorEvent) : Prop :=
  ∃ rows principals, (⟨.signatureRows tenantID ("sha256:" ++ hex), some rows⟩ : MirrorEvent) ∈ h ∧
    parseAllowed allowed = .ok principals ∧
    ∃ sig ∈ rows, (sig.issuer, sig.identity) ∈ principals ∧
      checkEvidence m.verifyCosignBundle hex sig = .ok ()

/-- The tag was asked for once, the artifact it named vetted, and the tag then read again. -/
def Reread (srcRef hex : String) (h : List MirrorEvent) : Prop :=
  ∃ h₀ h₁ desc vetted mediaType,
    h = h₀ ++ (⟨.get srcRef, some desc⟩ : MirrorEvent) :: h₁ ∧ desc.image = some hex ∧
    (⟨.head srcRef, some (vetted, mediaType)⟩ : MirrorEvent) ∈ h₀ ∧
    Vetted m tenantID allowed vetted h₀

variable {m tid allowed} {hex srcRef : String} {h g : List MirrorEvent}

theorem Vetted.mono (hv : Vetted m tid allowed hex h) (hs : ∀ e ∈ h, e ∈ g) :
    Vetted m tid allowed hex g := by
  obtain ⟨rows, pr, hr, hre⟩ := hv
  exact ⟨rows, pr, hs _ hr, hre⟩

theorem Reread.append (hr : Reread m tid allowed srcRef hex h) :
    Reread m tid allowed srcRef hex (h ++ g) := by
  obtain ⟨h₀, h₁, desc, ve, me, rfl, hre⟩ := hr
  exact ⟨h₀, h₁ ++ g, desc, ve, me, by simp, hre⟩

end Vetting

/-! ### The calls of `mirrorOne` -/

section Calls

variable {m : RegistryMirror} {tenantID tid : String} {u : Upstream} {pluginName tag hex : String}
  {srcRef dstRef : String} {G : List MirrorEvent → MirrorEvent → Prop} {h : List MirrorEvent}
  {β : Type} {Q : List MirrorEvent → β → Prop} {op : MirrorOp}

theorem wpe_ask_bind {f : mirrorSig.Res op → MirrorM β} :
    wpe G (ask op >>= f) Q h ↔ ∀ r, G h ⟨op, r⟩ ∧ wpe G (f r) Q (h ++ [⟨op, r⟩]) :=
  wpe_perform_bind

variable {α : Type} {f : α → MirrorM β}

theorem wpe_check_bind {x : Except MirrorErr α} (hx : ∀ a, x = .ok a → wpe G (f a) Q h) :
    wpe G (check x >>= f) Q h := by
  rw [wpe_bind]
  cases x with
  | ok a => exact (wpe_pure _).mpr (hx a rfl)
  | error e => exact wpe_throw e

theorem wpe_parseTag_bind {ref : String} {f : Unit → MirrorM β} (hf : wpe G (f ()) Q h) :
    wpe G (parseTag m ref >>= f) Q h := by
  rw [wpe_bind, parseTag]
  split
  · exact (wpe_pure _).mpr hf
  · exact wpe_throw _

abbrev Reads {α : Type} (x : MirrorM α) : Prop := OnlyCalls (fun op => MirrorOp.admits op = none) x

theorem reads_ask (hop : op.admits = none) : Reads (ask op) :=
  .lift (Prog.Only.perform hop)

theorem reads_check (x : Except MirrorErr α) : Reads (check x) := by
  cases x with
  | ok a => exact .pure a
  | error e => exact .throw e

theorem reads_parseTag (ref : String) : Reads (parseTag m ref) := by
  unfold parseTag
  split
  · exact .pure _
  · exact .throw _

theorem reads_alreadyHeld : Reads (alreadyHeld m tid u pluginName tag hex) := by
  refine .bind (reads_ask rfl) fun r => ?_
  cases (r : Option String) with
  | none => exact .pure _
  | some di =>
    dsimp only
    unfold holds
    split
    · split
      · refine .bind (reads_ask rfl) fun r => ?_
        rcases (r : Option (String × String)) with _ | ⟨held, _⟩
        · exact .pure _
        · exact .pure _
      · exact .pure _
    · exact .pure _

theorem reads_signatures (repoRef : String) : Reads (signatures m repoRef hex) := by
  refine .bind (reads_parseTag _) fun _ => .bind (reads_ask rfl) fun r => ?_
  cases (r : Option (List Bytes)) with
  | none => exact .throw _
  | some bundles =>
    refine .bind (reads_check _) fun sigs => ?_
    split
    · exact .throw _
    · exact .pure _

theorem reads_record (sig : Signature) : Reads (record m tid hex sig) := by
  refine .bind (reads_check _) fun _ => .bind (reads_check _) fun text =>
    .bind (reads_check _) fun _ => ?_
  split
  · exact .throw _
  · refine .bind (reads_ask rfl) fun r => ?_
    cases (r : Bool) with
    | true => exact .pure _
    | false => exact .throw _

theorem reads_recordAll (sigs : List Signature) : Reads (recordAll m tid hex sigs) := by
  induction sigs with
  | nil => exact .pure _
  | cons sig sigs ih => exact .bind (reads_record sig) fun _ => ih

/-- A call admits only what it read from the tag after it had vetted what the tag named. -/
def Admits (m : RegistryMirror) (tenantID : String) (u : Upstream) (srcRef : String)
    (h : List MirrorEvent) (e : MirrorEvent) : Prop :=
  ∀ hex, MirrorOp.admits e.op = some hex → Reread m tenantID u.allowedIdentities srcRef hex h

theorem admits_of_reads {e : MirrorEvent} (he : MirrorOp.admits e.op = none) :
    Admits m tid u srcRef h e := by
  intro hex hh
  rw [he] at hh
  cases hh

theorem wpe_reads_bind {x : MirrorM α} (hx : Reads x)
    (hf : ∀ g a, wpe (Admits m tid u srcRef) (f a) Q (h ++ g)) :
    wpe (Admits m tid u srcRef) (x >>= f) Q h :=
  wpe_seq (wpe_of_only (fun _ _ he => admits_of_reads he) hx h) hf

theorem wpe_head : wpe (Admits m tid u srcRef) (head m srcRef)
      (fun g a => (⟨.head srcRef, some a⟩ : MirrorEvent) ∈ g) h := by
  refine wpe_parseTag_bind (wpe_ask_bind.mpr fun r => ⟨admits_of_reads rfl, ?_⟩)
  cases (r : Option (String × String)) with
  | none => exact wpe_throw _
  | some answer => exact (wpe_pure _).mpr (by simp)

theorem wpe_verify {allowed : List String} : wpe (Admits m tid u srcRef) (verify m tid hex allowed)
      (fun g _ => Vetted m tid allowed hex g) h := by
  refine wpe_check_bind fun _ _ => wpe_check_bind fun text ht =>
    wpe_check_bind fun pr hp => wpe_ask_bind.mpr fun r =>
    ⟨admits_of_reads rfl, ?_⟩
  obtain rfl : "sha256:" ++ hex = text := by
    unfold digestText at ht
    split at ht
    · cases ht
    · exact Except.ok.inj ht
  cases (r : Option (List Signature)) with
  | none => exact wpe_throw _
  | some rows =>
    dsimp only
    split
    · rename_i hs
      exact (wpe_pure _).mpr ⟨rows, pr, by simp, hp, by simpa using hs⟩
    · exact wpe_throw _

theorem wpe_copy {vetted mediaType : String}
    (hh : (⟨.head srcRef, some (vetted, mediaType)⟩ : MirrorEvent) ∈ h)
    (hv : Vetted m tid u.allowedIdentities vetted h) :
    wpe (Admits m tid u srcRef) (copy m srcRef dstRef)
      (fun g a => Reread m tid u.allowedIdentities srcRef a.hex g) h := by
  refine wpe_parseTag_bind (wpe_parseTag_bind (wpe_ask_bind.mpr fun r =>
    ⟨admits_of_reads rfl, ?_⟩))
  cases (r : Option Descriptor) with
  | none => exact wpe_throw _
  | some desc =>
    dsimp only
    split
    · exact wpe_throw _
    · rename_i written hi
      have hr : Reread m tid u.allowedIdentities srcRef written
          (h ++ [(⟨.get srcRef, some desc⟩ : MirrorEvent)]) :=
        ⟨h, [], desc, vetted, mediaType, rfl, hi, hh, hv⟩
      refine wpe_ask_bind.mpr fun ok => ⟨?_, ?_⟩
      · rintro _ ⟨⟩
        exact hr
      · cases (ok : Bool) with
        | false => exact wpe_throw _
        | true =>
          dsimp only
          split
          · exact wpe_throw _
          · exact (wpe_pure _).mpr hr.append

theorem wpe_recordMirrored {a : Artifact} (hr : Reread m tid u.allowedIdentities srcRef a.hex h) :
    wpe (Admits m tid u srcRef) (recordMirrored tid u pluginName tag a srcRef)
      (fun _ _ => True) h := by
  refine wpe_check_bind fun text ht => wpe_ask_bind.mpr fun ok => ⟨?_, ?_⟩
  · intro hex ha
    obtain rfl : a.hex = hex := Option.some.inj ((hexOf_digestText ht).symm.trans ha)
    exact hr
  · cases (ok : Bool) with
    | true => exact wpe_done
    | false => exact wpe_throw _

theorem wpe_mirrorOne : wpe (Admits m tid u (joinRepo u.host u.pathPrefix pluginName ++ ":" ++ tag))
      (mirrorOne m tid u pluginName tag) (fun _ _ => True) h := by
  unfold mirrorOne
  dsimp only
  refine wpe_bind.mpr (wpe_mono wpe_head ?_)
  rintro g ⟨hex, me⟩ hh
  refine wpe_reads_bind reads_alreadyHeld fun g₁ held => ?_
  cases held with
  | true => exact wpe_done
  | false =>
    refine wpe_reads_bind (reads_signatures _) fun g₂ sigs =>
      wpe_reads_bind (reads_recordAll sigs) fun g₃ _ => wpe_bind.mpr ?_
    refine wpe_mono wpe_verify fun g₄ _ hv => ?_
    have hh' : (⟨.head (joinRepo u.host u.pathPrefix pluginName ++ ":" ++ tag),
        some (hex, me)⟩ : MirrorEvent) ∈ h ++ g ++ g₁ ++ g₂ ++ g₃ ++ g₄ := by
      simp only [mem_append] at hh ⊢
      tauto
    refine wpe_bind.mpr (wpe_mono (wpe_copy hh' hv) fun g₅ a hr => ?_)
    exact wpe_seq (wpe_recordMirrored hr) fun _ _ => wpe_done

end Calls

/-! ### Histories -/

structure Call where
  tenantID : String
  upstream : Upstream
  pluginName : String
  tag : String

def Call.srcRef (c : Call) : String :=
  joinRepo c.upstream.host c.upstream.pathPrefix c.pluginName ++ ":" ++ c.tag

def Call.run (m : RegistryMirror) (c : Call) : Prog mirrorSig (Except MirrorErr Bool) :=
  (mirrorOne m c.tenantID c.upstream c.pluginName c.tag).run

/-- Whatever a call wrote or recorded had been vetted by then, for its tenant and against the
signers its upstream is trusted for. -/
def AllVetted (m : RegistryMirror) (calls : ℕ → Call) (tr : List (Act mirrorSig)) : Prop :=
  ∀ n i e hex, tr[n]? = some ⟨i, e⟩ → MirrorOp.admits e.op = some hex →
    Vetted m (calls i).tenantID (calls i).upstream.allowedIdentities hex
      ((tr.take n).map Act.event)

def named (ref : String) : MirrorEvent → Option String
  | ⟨.head ref', some (hex, _)⟩ => if ref' = ref then some hex else none
  | _ => none

/-- A tag that is read names the artifact the same call was told before. -/
def TagStill (tr : List (Act mirrorSig)) : Act mirrorSig → Prop
  | ⟨i, ⟨.get ref, some desc⟩⟩ => ∀ told ∈ (own i tr).filterMap (named ref), desc.image = some told
  | _ => True

instance (tr : List (Act mirrorSig)) (a : Act mirrorSig) : Decidable (TagStill tr a) := by
  unfold TagStill
  split <;> infer_instance

variable {m : RegistryMirror} {calls cs : ℕ → Call} {tr : List (Act mirrorSig)}

/-- However the upstream, the mirror and the database answer, and however calls interleave:
while tags stay where they were, only vetted artifacts are mirrored. -/
theorem mirrored_vetted (htr : Reach mirrorWorld (fun i => (calls i).run m) tr)
    (hstill : Throughout TagStill tr) : AllVetted m calls tr := by
  intro n i e hex hn ha
  have hg : Guarded mirrorWorld
      (fun i => Admits m (calls i).tenantID (calls i).upstream (calls i).srcRef) tr :=
    htr.guarded fun i => wpe_mirrorOne
  obtain ⟨h₀, h₁, desc, vetted, me, ho, hi, hhe, hv⟩ :=
    (hg.at_get hn).2 hex ha
  obtain ⟨k, hk, hge, hh₀, -⟩ := own_take_split ho
  -- the tag was read at `k`, and named there what had been vetted
  have ht : vetted ∈ (own i (tr.take k)).filterMap (named (calls i).srcRef) := by
    rw [hh₀]
    exact mem_filterMap.mpr ⟨_, hhe, by simp [named]⟩
  have hs : desc.image = some vetted := hstill _ _ _ (eq_take_append hge) vetted ht
  obtain rfl : vetted = hex := Option.some.inj (hs.symm.trans hi)
  refine hv.mono fun d hd => ?_
  rw [← hh₀] at hd
  obtain ⟨l, hl, hdl⟩ := get_of_mem_own_take hd
  exact mem_map.mpr ⟨_, mem_of_getElem? ((get_take (hl.trans hk)).trans hdl), rfl⟩

/-! ### A tag that moves -/

/-- One signer, who has signed the artifact `aa` and nothing else. -/
def oneSigner : RegistryMirror where
  verifyCosignBundle hex bundle :=
    if hex = "aa" ∧ bundle = [1] then some ("dev@acme", "https://issuer") else none
  parses _ := true
  root := "mirror"
  tenantHash tenantID := tenantID

def acmeTools : Call where
  tenantID := "acme"
  upstream :=
    { space := "tools", host := "upstream", pathPrefix := "",
      allowedIdentities := ["https://issuer dev@acme"] }
  pluginName := "lint"
  tag := "v1"

/-- The upstream says that the tag names `aa` and serves another artifact when it is read. -/
def answers (served : String) (_ : ℕ) (_ : Unit) : (op : MirrorOp) → mirrorSig.Res op
  | .head _ => some ("aa", "")
  | .get _ => some { hex := served, mediaType := "", image := some served }
  | .bundles _ => some [[1]]
  | .mirroredDigest .. => none
  | .insertSignature .. => true
  | .signatureRows .. =>
    some [{ identity := "dev@acme", issuer := "https://issuer", payload := [1], source := .cosign }]
  | .write .. => true
  | .insertIndex .. => true

def mirroring (served : String) : List (Act mirrorSig) :=
  exec mirrorWorld (answers served) (fun _ => acmeTools.run oneSigner) (replicate 8 0)

theorem mirroring_reach (served : String) :
    Reach mirrorWorld (fun _ => acmeTools.run oneSigner) (mirroring served) :=
  exec_reach _ _ (fun _ _ _ => trivial) _ _

/-- The call that reads `aa` again writes it and records it. -/
theorem aa_vetted :
    ((mirroring "aa").filterMap fun a => MirrorOp.admits a.event.op) = ["aa", "aa"] ∧
      AllVetted oneSigner (fun _ => acmeTools) (mirroring "aa") :=
  ⟨by decide +kernel, mirrored_vetted (mirroring_reach "aa") (by decide +kernel)⟩

def ops (h : List MirrorEvent) : List MirrorOp := h.map Event.op

theorem bb_unvetted : Reach mirrorWorld (fun _ => acmeTools.run oneSigner) (mirroring "bb") ∧
      ¬ AllVetted oneSigner (fun _ => acmeTools) (mirroring "bb") := by
  refine ⟨mirroring_reach "bb", fun hal => ?_⟩
  have hw : ∃ e, (mirroring "bb")[6]? = some ⟨0, e⟩ ∧ MirrorOp.admits e.op = some "bb" :=
    ⟨_, rfl, by decide +kernel⟩
  obtain ⟨e, hg, ha⟩ := hw
  obtain ⟨rows, pr, hr, -⟩ := hal 6 0 e "bb" hg ha
  have hn : MirrorOp.signatureRows "acme" ("sha256:" ++ "bb") ∉
      ops (((mirroring "bb").take 6).map Act.event) := by
    decide +kernel
  exact hn (mem_map.mpr ⟨_, hr, rfl⟩)

end Dhole.Plugins
