import Dhole.Editing

/-! The edits of a pipeline happen one after the other. Whatever the planes do between two
calls of a request, the head moves from the revision the request applied its operation to, and
a revision id stands for one content. So the content of the head is the fold of the operations
over the moves of the head, in the order in which these landed. -/

namespace Dhole.Editing

open Interleave Prog List

/-! ### Requests as actors -/

/-- `system` saves a definition that has no head, as the server does on its own account. -/
inductive Request where
  | create (stored : Bool) (r : CreateRequest)
  | apply (stored : Bool) (r : ApplyRequest)
  | get (r : GetRequest)
  | system (tenantID : String) (p : Pipeline)

inductive Answer where
  | created (c : Created)
  | edited (e : Edited)
  | got (c : Created)
  | saved
  | refused (refusal : Refusal)

def Request.prog : Request → EditProg Answer
  | .create stored r => do
    match ← createPipeline stored r with
    | .ok c => pure (.created c)
    | .error refusal => pure (.refused refusal)
  | .apply stored r => do
    match ← applyOperation stored r with
    | .ok e => pure (.edited e)
    | .error refusal => pure (.refused refusal)
  | .get r => do
    match ← getPipeline r with
    | .ok c => pure (.got c)
    | .error refusal => pure (.refused refusal)
  | .system tenantID p => do
    let _ ← save tenantID p
    pure .saved

abbrev Runs (sum256 : Wire.Bytes → Wire.Bytes) (requests : ℕ → Request) (tr : EditHistory) : Prop :=
  Reach (editWorld sum256) (fun i => (requests i).prog) tr

/-! ### What a request knows when it moves the head -/

def isMove : EditEvent → Bool
  | ⟨.compareAndSetHead .., _⟩ => true
  | _ => false

def NoMove (h : List EditEvent) : Prop := ∀ e ∈ h, isMove e = false

def didGet (tenantID pipelineID revisionID : String) (p : Pipeline) : EditEvent :=
  ⟨.get tenantID pipelineID revisionID, (Except.ok p : Except Failure Pipeline)⟩

def didSave (tenantID : String) (p : Pipeline) (revisionID : String) : EditEvent :=
  ⟨.save tenantID p, SaveRes.saved revisionID⟩

def didMove (tenantID pipelineID fromID toID : String) : EditEvent :=
  ⟨.compareAndSetHead tenantID pipelineID fromID toID, MoveRes.moved⟩

/-- The request applied its operation to a revision it read and saved what came out. It moves
the head from that revision, or seeds one over its base. -/
def EditedFrom (h : List EditEvent) (r : ApplyRequest) (tenantID fromID toID : String)
    (a : Applied) : Prop :=
  ∃ applyTo current, didGet tenantID r.pipelineID applyTo current ∈ h ∧
    Dhole.apply (some current) r.operation = .ok a ∧ didSave tenantID a.next toID ∈ h ∧
    (fromID = applyTo ∨ fromID = "" ∧ applyTo = r.baseRevision)

theorem EditedFrom.mono {h g : List EditEvent} {r : ApplyRequest} {tid src toID : String}
    {a : Applied} (he : EditedFrom h r tid src toID a) (hsu : h ⊆ g) :
    EditedFrom g r tid src toID a := by
  obtain ⟨applyTo, current, hg, ha, hs, hf⟩ := he
  exact ⟨applyTo, current, hsu hg, ha, hsu hs, hf⟩

def MoveOf (request : Request) (h : List EditEvent) (tenantID pipelineID fromID toID : String) :
    Prop :=
  match request with
  | .create _ r => pipelineID = r.pipelineID ∧ fromID = "" ∧
      didSave tenantID (r.definition tenantID) toID ∈ h
  | .apply _ r => pipelineID = r.pipelineID ∧ ∃ a, EditedFrom h r tenantID fromID toID a
  | .get _ | .system .. => False

def Permitted (request : Request) (h : List EditEvent) (e : EditEvent) : Prop :=
  match e with
  | ⟨.compareAndSetHead tenantID pipelineID fromID toID, _⟩ =>
    NoMove h ∧ MoveOf request h tenantID pipelineID fromID toID
  | _ => True

/-- An edit that was accepted is recorded: the head was moved to the revision it made. -/
def Recorded (r : ApplyRequest) (h : List EditEvent) (result : Except Refusal Edited) : Prop :=
  ∀ e, result = .ok e → ∃ tenantID fromID, principal r.credential = .ok tenantID ∧
    didMove tenantID r.pipelineID fromID e.revisionID ∈ h ∧
    EditedFrom h r tenantID fromID e.revisionID e.applied

def Answered (request : Request) (h : List EditEvent) : Answer → Prop
  | .edited e => ∃ stored r tenantID fromID, request = .apply stored r ∧
      principal r.credential = .ok tenantID ∧
      didMove tenantID r.pipelineID fromID e.revisionID ∈ h ∧
      EditedFrom h r tenantID fromID e.revisionID e.applied
  | _ => True

section Programs

variable {request : Request} {α : Type} {h : List EditEvent} {tid pid : String}

theorem noMove_snoc {e : EditEvent} (hno : NoMove h) (he : isMove e = false) : NoMove (h ++ [e]) := by
  intro d hd
  rcases mem_append.mp hd with hd | hd
  · exact hno d hd
  · rw [mem_singleton.mp hd]
    exact he

theorem wp_of_quiet {p : EditProg α} {Q : List EditEvent → α → Prop}
    (hp : wp (fun _ e => isMove e = false) p (fun _ _ => True) h) (hno : NoMove h)
    (hQ : ∀ g a, h ⊆ g → NoMove g → Q g a) : wp (Permitted request) p Q h := by
  induction p generalizing h with
  | ret a => exact hQ h a (Subset.refl h) hno
  | call op k ih =>
    intro r
    have hq : isMove ⟨op, r⟩ = false := (hp r).1
    refine ⟨?_, ih r (hp r).2 (noMove_snoc hno hq) fun g a hs =>
      hQ g a (Subset.trans (subset_append_left _ _) hs)⟩
    cases op <;> trivial

variable {head : String}

theorem quiet_conflict {why : Text} :
    wp (fun _ e => isMove e = false) (conflict tid head why) (fun _ _ => True) h := by
  intro r
  cases r with
  | ok _ => trivial
  | error _ => trivial

variable {stored : Bool}

theorem quiet_checkFiles (declared : List String) (files : List File) :
    wp (fun _ e => isMove e = false) (checkFiles stored tid declared files)
      (fun _ _ => True) h := by
  induction files generalizing declared h with
  | nil => trivial
  | cons f files ih =>
    unfold checkFiles
    split_ifs
    · trivial
    · trivial
    · trivial
    · intro r
      refine ⟨rfl, ?_⟩
      cases r with
      | error _ => trivial
      | ok has =>
        cases has with
        | false => trivial
        | true => exact ih _
    · exact ih _

theorem quiet_checkDefinitionFiles {p : Pipeline} :
    wp (fun _ e => isMove e = false) (checkDefinitionFiles stored tid p) (fun _ _ => True) h := by
  unfold checkDefinitionFiles
  rw [wp_bind]
  refine wp_mono (quiet_checkFiles [] p.files) fun g re _ => ?_
  cases re with
  | error _ => trivial
  | ok u =>
    cases bindingFault p <;> trivial

theorem quiet_rebaseOnto {base : String} {op : Option Operation} :
    wp (fun _ e => isMove e = false) (rebaseOnto tid pid base head op) (fun _ _ => True) h := by
  intro r
  refine ⟨rfl, ?_⟩
  cases r with
  | error _ => trivial
  | ok before =>
    intro r'
    refine ⟨rfl, ?_⟩
    cases r' with
    | error _ => trivial
    | ok after =>
      dsimp only [Prog.bind]
      split
      · rw [wp_bind]
        exact wp_mono quiet_conflict fun _ _ _ => trivial
      · trivial

theorem quiet_fetch :
    wp (fun _ e => isMove e = false) (fetch tid pid head) (fun _ _ => True) h := by
  intro r
  refine ⟨rfl, ?_⟩
  cases r with
  | error _ => trivial
  | ok p => exact fun r => ⟨rfl, by cases r <;> trivial⟩

theorem quiet_headRevision :
    wp (fun _ e => isMove e = false) (headRevision tid pid) (fun _ _ => True) h := by
  intro r
  refine ⟨rfl, ?_⟩
  rcases (r : Except Failure (Option String)) with _ | _ | head
  · trivial
  · exact fun r => ⟨rfl, by cases r <;> trivial⟩
  · trivial

theorem quiet_getPipeline (r : GetRequest) :
    wp (fun _ e => isMove e = false) (getPipeline r) (fun _ _ => True) h := by
  unfold getPipeline
  split
  · trivial
  split_ifs
  · trivial
  · exact quiet_fetch
  rw [wp_bind]
  refine wp_mono quiet_headRevision fun g re _ => ?_
  cases re with
  | error _ => trivial
  | ok rev => exact quiet_fetch

variable {applyTo : String} {r : ApplyRequest}

section Edits

variable (htenant : principal r.credential = .ok tid)

include htenant

/-- The head is moved from the revision that was read to the revision that was saved. -/
theorem wp_record {src : String} {current : Pipeline} {a : Applied} (hno : NoMove h)
    (hg : didGet tid r.pipelineID applyTo current ∈ h)
    (ha : Dhole.apply (some current) r.operation = .ok a)
    (hf : src = applyTo ∨ src = "" ∧ applyTo = r.baseRevision) :
    wp (Permitted (.apply stored r)) (record tid r.pipelineID src a) (Recorded r) h := by
  intro res
  refine ⟨trivial, ?_⟩
  cases res with
  | failed ca landed => rintro e ⟨⟩
  | saved revisionID =>
    have hno' : NoMove (h ++ [didSave tid a.next revisionID]) := noMove_snoc hno rfl
    have he : EditedFrom (h ++ [didSave tid a.next revisionID]) r tid src
        revisionID a :=
      ⟨applyTo, current, mem_append_left _ hg, ha, mem_concat_self, hf⟩
    intro outcome
    refine ⟨⟨hno', rfl, a, he⟩, ?_⟩
    cases outcome with
    | moved =>
      rintro e ⟨⟩
      exact ⟨tid, src, htenant, mem_concat_self, he.mono (subset_append_left _ _)⟩
    | failed ca landed => rintro e ⟨⟩
    | stale =>
      intro cu'
      refine ⟨trivial, ?_⟩
      cases cu' with
      | error ca => rintro e ⟨⟩
      | ok cu' =>
        intro res
        refine ⟨trivial, ?_⟩
        cases res <;> rintro e ⟨⟩

theorem wp_editAt {known : Bool} (hno : NoMove h) (hb : known = false → applyTo = r.baseRevision) :
    wp (Permitted (.apply stored r)) (editAt stored r tid known applyTo) (Recorded r) h := by
  intro res
  refine ⟨trivial, ?_⟩
  cases res with
  | error ca => rintro e ⟨⟩
  | ok current =>
    have hno' : NoMove (h ++ [didGet tid r.pipelineID applyTo current]) := noMove_snoc hno rfl
    dsimp only [Prog.bind]
    split
    · split_ifs
      · rw [wp_bind]
        exact wp_of_quiet quiet_conflict hno' fun g a _ _ e he => by cases he
      · rintro e ⟨⟩
    · rename_i a ha
      rw [wp_bind]
      refine wp_of_quiet quiet_checkDefinitionFiles hno' fun g re hs hno'' => ?_
      cases re with
      | error rl => rintro e ⟨⟩
      | ok u =>
        refine wp_record htenant hno'' (hs (mem_concat_self)) ha ?_
        cases known with
        | true => exact .inl rfl
        | false => exact .inr ⟨rfl, hb rfl⟩

end Edits

theorem wp_applyOperation :
    wp (Permitted (.apply stored r)) (applyOperation stored r) (Recorded r) [] := by
  unfold applyOperation
  split
  · rintro e ⟨⟩
  rename_i tid htenant
  split_ifs
  · rintro e ⟨⟩
  · rintro e ⟨⟩
  intro res
  refine ⟨trivial, ?_⟩
  have hno : NoMove [(⟨.head tid r.pipelineID, res⟩ : EditEvent)] := by simp [NoMove, isMove]
  cases res with
  | error ca => rintro e ⟨⟩
  | ok head =>
    cases head with
    | none => exact wp_editAt htenant hno fun _ => rfl
    | some head =>
      show wp _ (if head = r.baseRevision then _ else _) _ _
      split_ifs
      · exact wp_editAt htenant hno fun h => by cases h
      · rw [wp_bind]
        refine wp_of_quiet quiet_rebaseOnto hno fun g re _ hno' => ?_
        cases re with
        | error rl => rintro e ⟨⟩
        | ok applyTo => exact wp_editAt htenant hno' fun h => by cases h

theorem wp_seed {r : CreateRequest} (hno : NoMove h) :
    wp (Permitted (.create stored r)) (seed tid r.pipelineID (r.definition tid))
      (fun _ _ => True) h := by
  intro res
  refine ⟨trivial, ?_⟩
  cases res with
  | failed ca landed => trivial
  | saved revisionID =>
    intro outcome
    refine ⟨⟨noMove_snoc hno rfl, rfl, rfl, mem_concat_self⟩, ?_⟩
    cases outcome <;> trivial

theorem wp_createPipeline {r : CreateRequest} :
    wp (Permitted (.create stored r)) (createPipeline stored r) (fun _ _ => True) [] := by
  unfold createPipeline
  split
  · trivial
  rename_i tid _
  split_ifs
  · trivial
  intro res
  refine ⟨trivial, ?_⟩
  have hno : NoMove [(⟨.revisions tid r.pipelineID, res⟩ : EditEvent)] := by simp [NoMove, isMove]
  cases res with
  | error ca => trivial
  | ok n =>
    show wp _ (if 0 < n then _ else _) _ _
    split_ifs
    · trivial
    · rw [wp_bind]
      refine wp_of_quiet quiet_checkDefinitionFiles hno fun g re _ hno' => ?_
      cases re with
      | error rl => trivial
      | ok u => exact wp_seed hno'

theorem wp_prog (request : Request) :
    wp (Permitted request) request.prog (Answered request) [] := by
  cases request with
  | create stored r =>
    unfold Request.prog
    rw [wp_bind]
    refine wp_mono wp_createPipeline fun g re _ => ?_
    cases re <;> trivial
  | apply stored r =>
    unfold Request.prog
    rw [wp_bind]
    refine wp_mono wp_applyOperation fun g re hr => ?_
    cases re with
    | error rl => trivial
    | ok e =>
      obtain ⟨tid, src, htenant, hm, he⟩ := hr e rfl
      exact ⟨stored, r, tid, src, rfl, htenant, hm, he⟩
  | get r =>
    unfold Request.prog
    rw [wp_bind]
    refine wp_of_quiet (quiet_getPipeline r) (by simp [NoMove]) fun g re _ _ => ?_
    cases re <;> trivial
  | system tid p => exact fun _ => ⟨trivial, trivial⟩

end Programs

/-! ### Revision ids -/

theorem hexDigit_injective : ∀ m < 16, ∀ n < 16, hexDigit m = hexDigit n → m = n := by
  decide

theorem encodeToString_injective : Function.Injective encodeToString := by
  intro a b h
  have hl := String.ofList_injective h
  clear h
  induction a generalizing b with
  | nil =>
    cases b with
    | nil => rfl
    | cons y b => simp at hl
  | cons x a ih =>
    cases b with
    | nil => simp at hl
    | cons y b =>
      simp only [flatMap_cons, cons_append, cons.injEq] at hl
      obtain ⟨hh, hlo, hr⟩ := hl
      have hx := x.toNat_lt
      have hy := y.toNat_lt
      have h₁ := hexDigit_injective _ (by omega) _ (by omega) hh
      have h₂ := hexDigit_injective _ (by omega) _ (by omega) hlo
      have hxy : x = y := UInt8.toNat_inj.mp (by omega)
      rw [hxy, ih hr]

/-- The definitions a history saved, whether their savers learned of it or not. -/
def savedIn (tr : EditHistory) : List Pipeline :=
  tr.filterMap fun a => match a.event.op with
    | .save _ p => some p
    | _ => none

/-- No two definitions that were saved share a digest without sharing their content. -/
def NoCollision (sum256 : Wire.Bytes → Wire.Bytes) (tr : EditHistory) : Prop :=
  ∀ p ∈ savedIn tr, ∀ q ∈ savedIn tr,
    sum256 (canonicalBytes p) = sum256 (canonicalBytes q) → canonicalBytes p = canonicalBytes q

section Store

variable {H : Wire.Bytes → Wire.Bytes} {tr : EditHistory} {p q : Pipeline}

theorem revisionID_ne_empty (p : Pipeline) : revisionID H p ≠ "" := by
  intro h
  simpa [revisionID] using congrArg String.toList h

theorem stripUnknown_eq_of_revisionID (hsum : NoCollision H tr) (hp : p ∈ savedIn tr)
    (hq : q ∈ savedIn tr) (hid : revisionID H p = revisionID H q) :
    p.stripUnknown = q.stripUnknown := by
  have hl := congrArg String.toList hid
  simp only [revisionID, String.toList_append, append_cancel_left_eq, String.toList_inj] at hl
  exact canonicalBytes_eq_iff.mp (hsum p hp q hq (encodeToString_injective hl))

variable {us : EditHistory}

theorem savedIn_subset_append (tr us : EditHistory) : savedIn tr ⊆ savedIn (tr ++ us) := by
  rw [savedIn, savedIn, filterMap_append]
  exact subset_append_left _ _

theorem NoCollision.of_append (h : NoCollision H (tr ++ us)) : NoCollision H tr :=
  fun p hp q hq => h p (savedIn_subset_append tr us hp) q (savedIn_subset_append tr us hq)

abbrev storeAt (sum256 : Wire.Bytes → Wire.Bytes) (tr : EditHistory) : Store :=
  (editWorld sum256).state tr

theorem storeAt_snoc (tr : EditHistory) (a : Act editSig) :
    storeAt H (tr ++ [a]) = next H (storeAt H tr) a.event.op a.event.res :=
  World.state_snoc (editWorld H) tr a

theorem save_revisions (s : Store) (tid : String) (p : Pipeline) :
    (s.save H tid p).revisions = s.revisions ∨
      (s.save H tid p).revisions = s.revisions ++ [rowOf H tid p] := by
  unfold Store.save
  split_ifs
  · exact .inl rfl
  · exact .inr rfl

theorem next_revisions (H : Wire.Bytes → Wire.Bytes) (s : Store) (e : EditEvent) :
    (next H s e.op e.res).revisions = s.revisions ∨ ∃ tid p, e.op = .save tid p ∧
        (next H s e.op e.res).revisions = s.revisions ++ [rowOf H tid p] := by
  obtain ⟨op, r⟩ := e
  cases op with
  | save tid p =>
    cases r with
    | saved id =>
      exact (save_revisions s tid p).imp_right fun h => ⟨tid, p, rfl, h⟩
    | failed ca landed =>
      cases landed with
      | false => exact .inl rfl
      | true => exact (save_revisions s tid p).imp_right fun h => ⟨tid, p, rfl, h⟩
  | compareAndSetHead tid pid src toID =>
    cases r with
    | moved | stale => exact .inl rfl
    | failed ca landed => cases landed <;> exact .inl rfl
  | _ => exact .inl rfl

theorem revisions_subset_snoc (tr : EditHistory) (a : Act editSig) :
    (storeAt H tr).revisions ⊆ (storeAt H (tr ++ [a])).revisions := by
  rw [storeAt_snoc]
  obtain h | ⟨_, _, _, h⟩ := next_revisions H (storeAt H tr) a.event
  · rw [h]
    exact Subset.refl _
  · rw [h]
    exact subset_append_left _ _

theorem revisions_subset_append (tr us : EditHistory) :
    (storeAt H tr).revisions ⊆ (storeAt H (tr ++ us)).revisions := by
  induction us using reverseRecOn with
  | nil => simp
  | append_singleton us a ih =>
    rw [← append_assoc]
    exact Subset.trans ih (revisions_subset_snoc _ a)

theorem mem_savedIn {a : Act editSig} {tid : String} (ha : a ∈ tr)
    (hop : a.event.op = .save tid p) : p ∈ savedIn tr :=
  mem_filterMap.mpr ⟨a, ha, by rw [hop]⟩

theorem row_saved {row : RevisionRow} (hr : row ∈ (storeAt H tr).revisions) :
    ∃ p ∈ savedIn tr, row = rowOf H row.tenantID p ∧
      ∃ a ∈ tr, a.event.op = .save row.tenantID p := by
  induction tr using reverseRecOn with
  | nil => simp [editWorld] at hr
  | append_singleton tr a ih =>
    have hold : row ∈ (storeAt H tr).revisions → ∃ p ∈ savedIn (tr ++ [a]),
        row = rowOf H row.tenantID p ∧ ∃ b ∈ tr ++ [a], b.event.op = .save row.tenantID p := by
      intro hr
      obtain ⟨q, hq, heq, b, hb, hop⟩ := ih hr
      exact ⟨q, savedIn_subset_append tr _ hq, heq, b, mem_append_left _ hb, hop⟩
    rw [storeAt_snoc] at hr
    obtain h | ⟨tid, p, hop, h⟩ := next_revisions H (storeAt H tr) a.event
    · exact hold (h ▸ hr)
    · rw [h] at hr
      rcases mem_append.mp hr with hr | hr
      · exact hold hr
      · refine ⟨p, mem_savedIn (mem_concat_self) hop, ?_⟩
        rw [mem_singleton.mp hr]
        exact ⟨rfl, a, mem_concat_self, hop⟩

/-! ### Contents -/

variable {tid pid rev : String} {c : Pipeline} {i : ℕ} {rqs : ℕ → Request}

theorem contentOf_eq_some_iff (hsum : NoCollision H tr) :
    (storeAt H tr).contentOf tid pid rev = some c ↔
      ∃ row ∈ (storeAt H tr).revisions, row.tenantID = tid ∧
        row.pipelineID = pid ∧ row.id = rev ∧ row.definition = c := by
  constructor
  · intro h
    obtain ⟨row, hf, rfl⟩ := Option.map_eq_some_iff.mp h
    have hpi := find?_some hf
    simp only [decide_eq_true_eq] at hpi
    exact ⟨row, mem_of_find?_eq_some hf, hpi.1, hpi.2.1, hpi.2.2, rfl⟩
  · rintro ⟨row, hrw, rfl, rfl, rfl, rfl⟩
    obtain ⟨row', hf⟩ : ∃ row', (storeAt H tr).revisions.find? (fun r =>
        r.tenantID = row.tenantID ∧ r.pipelineID = row.pipelineID ∧ r.id = row.id) = some row' := by
      rw [← Option.isSome_iff_exists, find?_isSome]
      exact ⟨row, hrw, by simp⟩
    have hid : row'.id = row.id := by
      have hpi := find?_some hf
      simp only [decide_eq_true_eq] at hpi
      exact hpi.2.2
    obtain ⟨p, hp, hr, -⟩ := row_saved hrw
    obtain ⟨q, hq, hro, -⟩ := row_saved (mem_of_find?_eq_some hf)
    have hd : row'.definition = row.definition := by
      rw [hr, hro] at hid ⊢
      exact stripUnknown_eq_of_revisionID hsum hq hp hid
    rw [Store.contentOf, hf, Option.map_some, hd]

theorem contentOf_id (hsum : NoCollision H tr) (h : (storeAt H tr).contentOf tid pid rev = some c) :
    c.id = pid := by
  obtain ⟨row, hro, -, rfl, -, rfl⟩ := (contentOf_eq_some_iff hsum).mp h
  obtain ⟨p, -, hr, -⟩ := row_saved hro
  rw [hr]
  rfl

theorem contentOf_empty (tr : EditHistory) : (storeAt H tr).contentOf tid pid "" = none := by
  rw [Store.contentOf, Option.map_eq_none_iff, find?_eq_none]
  intro row hro hp
  simp only [decide_eq_true_eq] at hp
  obtain ⟨p, -, hr, -⟩ := row_saved hro
  rw [hr] at hp
  exact revisionID_ne_empty p hp.2.2

theorem contentOf_mono (hsum : NoCollision H (tr ++ us))
    (h : (storeAt H tr).contentOf tid pid rev = some c) :
    (storeAt H (tr ++ us)).contentOf tid pid rev = some c := by
  obtain ⟨row, hr, hf⟩ := (contentOf_eq_some_iff hsum.of_append).mp h
  exact (contentOf_eq_some_iff hsum).mpr ⟨row, revisions_subset_append tr us hr, hf⟩

theorem row_of_save (H : Wire.Bytes → Wire.Bytes) (s : Store) (tid : String)
    (p : Pipeline) : ∃ row ∈ (s.save H tid p).revisions,
      row.tenantID = tid ∧ row.id = revisionID H p := by
  unfold Store.save
  split_ifs with ha
  · obtain ⟨row, hr, hp⟩ := any_eq_true.mp ha
    exact ⟨row, hr, by simpa using hp⟩
  · exact ⟨_, mem_concat_self, rfl, rfl⟩

variable (hsum : NoCollision H tr) (hguard : Guarded (editWorld H) (fun i => Permitted
  (rqs i)) tr)

include hsum hguard

theorem contentOf_of_didSave (h : didSave tid p rev ∈ own i tr) :
    (storeAt H tr).contentOf tid p.id rev = some p.stripUnknown := by
  obtain ⟨us, vs, rfl⟩ := append_of_mem (mem_of_mem_own h)
  have ha : rev = revisionID H p := (hguard.at_split).1
  rw [append_cons] at hsum ⊢
  refine contentOf_mono hsum ?_
  have hsum' := hsum.of_append
  obtain ⟨row, hro, htenant, hid⟩ := row_of_save H (storeAt H us) tid p
  have hro' : row ∈ (storeAt H (us ++ [⟨i, didSave tid p rev⟩])).revisions := by
    rw [storeAt_snoc]
    exact hro
  obtain ⟨q, hq, hr, -⟩ := row_saved hro'
  have hp : p ∈ savedIn (us ++ [⟨i, didSave tid p rev⟩]) :=
    mem_savedIn (mem_concat_self) rfl
  have hs : q.stripUnknown = p.stripUnknown := by
    refine stripUnknown_eq_of_revisionID hsum' hq hp ?_
    rw [← hid, hr]
    rfl
  refine (contentOf_eq_some_iff hsum').mpr ⟨row, hro', htenant, ?_, by rw [ha, hid], ?_⟩
  · rw [hr]
    show q.stripUnknown.id = p.stripUnknown.id
    rw [hs]
  · rw [hr]
    exact hs

theorem contentOf_of_didGet (h : didGet tid pid rev c ∈ own i tr) :
    (storeAt H tr).contentOf tid pid rev = some c := by
  obtain ⟨us, vs, rfl⟩ := append_of_mem (mem_of_mem_own h)
  have ha : (storeAt H us).contentOf tid pid rev = some c :=
    (hguard.at_split).1
  exact contentOf_mono hsum ha

end Store

/-! ### The moves of a head -/

def MoveRes.landed : MoveRes → Bool
  | .moved => true
  | .stale => false
  | .failed _ landed => landed

def movedTo (tenantID pipelineID : String) : EditEvent → Option String
  | ⟨.compareAndSetHead tenant pipeline _ toID, r⟩ =>
    if tenant = tenantID ∧ pipeline = pipelineID ∧ MoveRes.landed r then some toID else none
  | _ => none

/-- The moves of the head in the order in which they landed, with the request that made each. -/
def moves (tenantID pipelineID : String) (tr : EditHistory) : List (ℕ × String) :=
  tr.filterMap fun a => (movedTo tenantID pipelineID a.event).map fun toID => (a.actor, toID)

def Request.operation : Request → Option Operation
  | .apply _ r => r.operation
  | _ => none

/-- The operations applied one after the other, each to the content the one before it left
in the store. -/
def foldEdits (c : Pipeline) : List (Option Operation) → Option Pipeline
  | [] => some c
  | op :: ops =>
    match Dhole.apply (some c) op with
    | .ok a => foldEdits a.next.stripUnknown ops
    | .error _ => none

theorem foldEdits_snoc {c d : Pipeline} {ops : List (Option Operation)} {op : Option Operation}
    {a : Applied} (h : foldEdits c ops = some d) (ha : Dhole.apply (some d) op = .ok a) :
    foldEdits c (ops ++ [op]) = some a.next.stripUnknown := by
  induction ops generalizing c with
  | nil =>
    obtain rfl : c = d := by simpa [foldEdits] using h
    simp [foldEdits, ha]
  | cons o ops ih =>
    simp only [foldEdits, cons_append] at h ⊢
    split at h
    · exact ih h
    · cases h

/-- No head before the first move; after it the content of the head is the fold of the edits
over the content of the first head. -/
def HeadFolds (requests : ℕ → Request) (s : Store) (tenantID pipelineID : String) :
    List (ℕ × String) → Prop
  | [] => s.heads (tenantID, pipelineID) = none
  | first :: edits => ∃ head c₀ c, s.heads (tenantID, pipelineID) = some head ∧
      s.contentOf tenantID pipelineID first.2 = some c₀ ∧
      s.contentOf tenantID pipelineID head = some c ∧
      foldEdits c₀ (edits.map fun m => (requests m.1).operation) = some c

variable {H : Wire.Bytes → Wire.Bytes} {rqs : ℕ → Request} {tr : EditHistory}
  {tid pid toID : String} {a : Act editSig}

theorem moves_snoc (tr : EditHistory) (a : Act editSig) :
    moves tid pid (tr ++ [a]) = moves tid pid tr ++
      ((movedTo tid pid a.event).map fun toID => (a.actor, toID)).toList := by
  unfold moves
  cases h : movedTo tid pid a.event <;> simp [h]

variable {e : EditEvent}

theorem heads_of_not_moved (s : Store) (h : movedTo tid pid e = none) :
    (next H s e.op e.res).heads (tid, pid) = s.heads (tid, pid) := by
  have hs (t : String) (p : Pipeline) :
      (s.save H t p).heads (tid, pid) = s.heads (tid, pid) := by
    unfold Store.save
    split_ifs <;> rfl
  have hm {t p to' : String} (hne : ¬ (t = tid ∧ p = pid)) :
      (s.move t p to').heads (tid, pid) = s.heads (tid, pid) := by
    refine Function.update_of_ne ?_ _ _
    simpa [eq_comm] using hne
  obtain ⟨op, r⟩ := e
  cases op with
  | save t p =>
    cases r with
    | saved id => exact hs t p
    | failed ca landed =>
      cases landed with
      | false => rfl
      | true => exact hs t p
  | compareAndSetHead t p src to' =>
    cases r with
    | stale => rfl
    | moved => exact hm fun heq => by simp [movedTo, heq, MoveRes.landed] at h
    | failed ca landed =>
      cases landed with
      | false => rfl
      | true => exact hm fun heq => by simp [movedTo, heq, MoveRes.landed] at h
  | _ => rfl

theorem move_cases {s : Store} (ha : Answers H s e.op e.res) (h : movedTo tid pid e = some toID) :
    ∃ src, e.op = .compareAndSetHead tid pid src toID ∧ s.At tid pid src ∧
      (next H s e.op e.res).heads (tid, pid) = some toID := by
  obtain ⟨op, r⟩ := e
  cases op with
  | compareAndSetHead t p src to' =>
    cases r with
    | stale => simp [movedTo, MoveRes.landed] at h
    | moved =>
      obtain ⟨⟨rfl, rfl⟩, rfl⟩ : (t = tid ∧ p = pid) ∧ to' = toID := by
        simpa [movedTo, MoveRes.landed] using h
      exact ⟨src, rfl, ha.2, Function.update_self ..⟩
    | failed ca landed =>
      cases landed with
      | false => simp [movedTo, MoveRes.landed] at h
      | true =>
        obtain ⟨⟨rfl, rfl⟩, rfl⟩ : (t = tid ∧ p = pid) ∧ to' = toID := by
          simpa [movedTo, MoveRes.landed] using h
        exact ⟨src, rfl, (ha rfl).2, Function.update_self ..⟩
  | _ => cases h

theorem HeadFolds.mono {us : EditHistory} {ms : List (ℕ × String)} (hsum : NoCollision H (tr ++ us))
    (hh : (storeAt H (tr ++ us)).heads (tid, pid) = (storeAt H tr).heads (tid, pid))
    (h : HeadFolds rqs (storeAt H tr) tid pid ms) :
    HeadFolds rqs (storeAt H (tr ++ us)) tid pid ms := by
  cases ms with
  | nil => exact hh.trans h
  | cons first ed =>
    obtain ⟨head, c₀, c, hhe, hf, hc, hfo⟩ := h
    exact ⟨head, c₀, c, hh.trans hhe, contentOf_mono hsum hf, contentOf_mono hsum hc, hfo⟩

abbrev GuardedEdits (sum256 : Wire.Bytes → Wire.Bytes) (requests : ℕ → Request)
    (tr : EditHistory) : Prop :=
  Guarded (editWorld sum256) (fun i => Permitted (requests i)) tr

theorem Runs.guarded (h : Runs H rqs tr) : GuardedEdits H rqs tr :=
  Reach.guarded (fun i => wp_prog (rqs i)) h

variable {i : ℕ} {src : String}

theorem next_content {r : ApplyRequest} {a : Applied} (hsum : NoCollision H tr)
    (hguard : GuardedEdits H rqs tr) (he : EditedFrom (own i tr) r tid src toID a) :
    (storeAt H tr).contentOf tid r.pipelineID toID = some a.next.stripUnknown ∧
      ∃ c, Dhole.apply (some c) r.operation = .ok a ∧ (if src = "" then
          (storeAt H tr).contentOf tid r.pipelineID r.baseRevision = some c
        else (storeAt H tr).contentOf tid r.pipelineID src = some c) := by
  obtain ⟨applyTo, current, hg, ha, hs, hf⟩ := he
  have hc := contentOf_of_didGet hsum hguard hg
  have hid : a.next.id = r.pipelineID :=
    (next_id ha).trans (contentOf_id hsum hc)
  refine ⟨hid ▸ contentOf_of_didSave hsum hguard hs, current, ha, ?_⟩
  rcases hf with rfl | ⟨rfl, rfl⟩
  · have hne : src ≠ "" := by
      rintro rfl
      rw [contentOf_empty] at hc
      cases hc
    rw [if_neg hne]
    exact hc
  · exact hc

/-- What a move of the head moves it to: something it was seeded with, when there was no head,
or the content of the head edited by the request's operation. -/
theorem move_content (hsum : NoCollision H tr) (hguard : GuardedEdits H rqs tr)
    (hm : MoveOf (rqs i) (own i tr) tid pid src toID) (hat : (storeAt H tr).At tid pid src) :
    ∃ c', (storeAt H tr).contentOf tid pid toID = some c' ∧
      ∀ head c, (storeAt H tr).heads (tid, pid) = some head →
        (storeAt H tr).contentOf tid pid head = some c →
        ∃ a, Dhole.apply (some c) (rqs i).operation = .ok a ∧ c' = a.next.stripUnknown := by
  unfold Store.At at hat
  cases hr : rqs i with
  | create stored r =>
    rw [hr] at hm
    obtain ⟨rfl, rfl, hs⟩ := hm
    refine ⟨_, contentOf_of_didSave hsum hguard hs, fun head c hh => ?_⟩
    rw [hh] at hat
    cases hat
  | apply stored r =>
    rw [hr] at hm
    obtain ⟨rfl, a, hed⟩ := hm
    obtain ⟨hn, c, ha, hf⟩ := next_content hsum hguard hed
    refine ⟨_, hn, fun head d hh hd => ?_⟩
    rw [hh] at hat
    by_cases he : src = ""
    · rw [if_pos he] at hat
      cases hat
    · rw [if_neg he] at hat hf
      obtain rfl : head = src := by simpa using hat
      obtain rfl : d = c := by simpa using hd.symm.trans hf
      exact ⟨a, ha, rfl⟩
  | get | system =>
    rw [hr] at hm
    cases hm

theorem headFolds (hguard : GuardedEdits H rqs tr) (hsum : NoCollision H tr) :
    HeadFolds rqs (storeAt H tr) tid pid (moves tid pid tr) := by
  induction hguard with
  | nil => rfl
  | @snoc tr i e hguard han hp ih =>
    have hb := ih hsum.of_append
    rw [moves_snoc]
    cases hm : movedTo tid pid e with
    | none =>
      have hh : (storeAt H (tr ++ [⟨i, e⟩])).heads (tid, pid) =
          (storeAt H tr).heads (tid, pid) := by
        rw [storeAt_snoc]
        exact heads_of_not_moved _ hm
      simpa using hb.mono hsum hh
    | some toID =>
      obtain ⟨src, hop, hat, hh⟩ := move_cases han hm
      obtain ⟨op, res⟩ := e
      obtain rfl : op = .compareAndSetHead tid pid src toID := hop
      have hh' : (storeAt H (tr ++ [⟨i, ⟨_, res⟩⟩])).heads (tid, pid) =
          some toID := by
        rw [storeAt_snoc]
        exact hh
      obtain ⟨c', hco, hfo⟩ := move_content hsum.of_append hguard hp.2 hat
      have hco' := contentOf_mono hsum hco
      cases hms : moves tid pid tr with
      | nil => exact ⟨toID, c', c', hh', hco', hco', rfl⟩
      | cons first ed =>
        rw [hms] at hb
        obtain ⟨head, c₀, c, hhe, hf, hc, he⟩ := hb
        obtain ⟨a, ha, rfl⟩ := hfo head c hhe hc
        refine ⟨toID, c₀, _, hh', contentOf_mono hsum hf, hco', ?_⟩
        show foldEdits c₀ ((ed ++ [(i, toID)]).map fun m => (rqs m.1).operation) = _
        rw [map_append]
        exact foldEdits_snoc he ha

theorem isMove_of_movedTo (h : movedTo tid pid e = some toID) : isMove e = true := by
  obtain ⟨op, r⟩ := e
  cases op <;> first | rfl | cases h

theorem moves_once (hguard : GuardedEdits H rqs tr) : ((moves tid pid tr).map Prod.fst).Nodup := by
  induction hguard with
  | nil => exact nodup_nil
  | @snoc tr i e hguard ha hp ih =>
    rw [moves_snoc]
    cases hmo : movedTo tid pid e with
    | none => simpa using ih
    | some toID =>
      obtain ⟨src, hop, -⟩ := move_cases ha hmo
      have hno : NoMove (own i tr) := by
        obtain ⟨op, res⟩ := e
        obtain rfl : op = .compareAndSetHead tid pid src toID := hop
        exact hp.1
      have hf : i ∉ (moves tid pid tr).map Prod.fst := by
        intro hme
        obtain ⟨⟨j, x⟩, hm, rfl⟩ := mem_map.mp hme
        obtain ⟨b, hb, hx⟩ := mem_filterMap.mp hm
        obtain ⟨y, hy, hpa⟩ := Option.map_eq_some_iff.mp hx
        have ho : b.event ∈ own j tr := by
          refine mem_map.mpr ⟨b, mem_filter.mpr ⟨hb, ?_⟩, rfl⟩
          simpa using congrArg Prod.fst hpa
        have hq := hno _ ho
        rw [isMove_of_movedTo hy] at hq
        cases hq
      have hc := List.Nodup.concat hf ih
      rw [concat_eq_append] at hc
      rw [map_append]
      exact hc

/-- The step of the fold that an accepted edit is, given the moves before its own. An edit
that seeded the head was applied to its base. -/
def OwnStep (requests : ℕ → Request) (s : Store) (tenantID : String) (r : ApplyRequest)
    (a : Applied) : List (ℕ × String) → Prop
  | [] => ∃ c, s.contentOf tenantID r.pipelineID r.baseRevision = some c ∧
      Dhole.apply (some c) r.operation = .ok a
  | first :: edits => ∃ c₀ c, s.contentOf tenantID r.pipelineID first.2 = some c₀ ∧
      foldEdits c₀ (edits.map fun m => (requests m.1).operation) = some c ∧
      Dhole.apply (some c) r.operation = .ok a

theorem ownStep {e : Edited} (hr : Runs H rqs tr) (hsum : NoCollision H tr)
    (hre : Returns (rqs i).prog (own i tr) (.edited e)) :
    ∃ stored r tid pre post, rqs i = .apply stored r ∧ principal r.credential = .ok tid ∧
      moves tid r.pipelineID tr = pre ++ (i, e.revisionID) :: post ∧
      OwnStep rqs (storeAt H tr) tid r e.applied pre := by
  have hguard := Runs.guarded hr
  have ha : Answered (rqs i) (own i tr) (.edited e) := by
    simpa using wp_returns (wp_prog (rqs i)) hre
  obtain ⟨stored, r, tid, src, hrq, htenant, hm, hed⟩ := ha
  obtain ⟨-, c, hap, hf⟩ := next_content hsum hguard hed
  obtain ⟨us, vs, htr⟩ := append_of_mem (mem_of_mem_own hm)
  rw [htr] at hguard hsum
  have hat : (storeAt H us).At tid r.pipelineID src := hguard.at_split.1.2
  have hb : HeadFolds rqs (storeAt H us) tid r.pipelineID
      (moves tid r.pipelineID us) := headFolds hguard.of_append hsum.of_append
  refine ⟨stored, r, tid, moves tid r.pipelineID us, moves tid r.pipelineID vs,
    hrq, htenant, ?_, ?_⟩
  · rw [htr, moves, filterMap_append]
    simp [moves, movedTo, didMove, MoveRes.landed]
  · unfold Store.At at hat
    cases hms : moves tid r.pipelineID us with
    | nil =>
      rw [hms] at hb
      have he : src = "" := by
        by_contra hne
        rw [if_neg hne, show (storeAt H us).heads (tid, r.pipelineID) = none from hb]
          at hat
        cases hat
      rw [if_pos he] at hf
      exact ⟨c, hf, hap⟩
    | cons first ed =>
      rw [hms] at hb
      obtain ⟨head, c₀, d, hh, hfi, hd, hfo⟩ := hb
      rw [hh] at hat
      have hne : src ≠ "" := by
        intro he
        rw [if_pos he] at hat
        cases hat
      rw [if_neg hne] at hat hf
      obtain rfl : head = src := by simpa using hat
      have hd' := contentOf_mono hsum hd
      rw [htr] at hf
      obtain rfl : d = c := by simpa using hd'.symm.trans hf
      rw [htr]
      exact ⟨c₀, d, contentOf_mono hsum hfi, hfo, hap⟩

/-- The edits of a pipeline are linear: the content of its head is the fold of the edits whose
moves landed, each request moved it at most once, and an accepted request was answered with
the step of the fold that its own move is. -/
structure Linear (sum256 : Wire.Bytes → Wire.Bytes) (requests : ℕ → Request) (tr : EditHistory)
    (tenantID pipelineID : String) : Prop where
  head : HeadFolds requests (storeAt sum256 tr) tenantID pipelineID (moves tenantID pipelineID tr)
  once : ((moves tenantID pipelineID tr).map Prod.fst).Nodup
  answered : ∀ i stored r e, requests i = .apply stored r →
    principal r.credential = .ok tenantID → r.pipelineID = pipelineID →
    Returns (requests i).prog (own i tr) (.edited e) →
    ∃ pre post, moves tenantID pipelineID tr = pre ++ (i, e.revisionID) :: post ∧
      OwnStep requests (storeAt sum256 tr) tenantID r e.applied pre

theorem edits_linear {sum256 : Wire.Bytes → Wire.Bytes} {requests : ℕ → Request} {tr : EditHistory}
    (hruns : Runs sum256 requests tr) (hsum : NoCollision sum256 tr)
    (tenantID pipelineID : String) : Linear sum256 requests tr tenantID pipelineID where
  head := headFolds (Runs.guarded hruns) hsum
  once := moves_once (Runs.guarded hruns)
  answered := by
    rintro i stored r e hr htenant rfl hre
    obtain ⟨st', r', tenantID', pre, post, hr', htenant', hm, hs⟩ :=
      ownStep hruns hsum hre
    obtain ⟨rfl, rfl⟩ : stored = st' ∧ r = r' := by simpa using hr.symm.trans hr'
    obtain rfl : tenantID = tenantID' := by simpa using htenant.symm.trans htenant'
    exact ⟨pre, post, hm, hs⟩

/-! ### A pipeline that is created and edited -/

def honest (sum256 : Wire.Bytes → Wire.Bytes) (s : Store) : (op : EditOp) → op.Res
  | .revisions tenantID pipelineID => .ok (s.revisions.countP fun row =>
      row.tenantID = tenantID ∧ row.pipelineID = pipelineID)
  | .revision tenantID revisionID =>
    if ∃ row ∈ s.revisions, row.tenantID = tenantID ∧ row.id = revisionID then .ok ()
    else .error .notFound
  | .get tenantID pipelineID revisionID =>
    match s.contentOf tenantID pipelineID revisionID with
    | some p => .ok p
    | none => .error .notFound
  | .save _ p => .saved (revisionID sum256 p)
  | .hasFile .. => .ok true
  | .head tenantID pipelineID => .ok (s.heads (tenantID, pipelineID))
  | .active .. => .error .notFound
  | .compareAndSetHead tenantID pipelineID fromID toID =>
    if toID = "" then .failed (.other "set head: a revision id is required") false
    else if s.At tenantID pipelineID fromID then .moved
    else .stale

theorem answers_honest (H : Wire.Bytes → Wire.Bytes) (s : Store) (op : EditOp) :
    Answers H s op (honest H s op) := by
  cases op with
  | revision tid revisionID =>
    exact answers_ite (A := (editWorld H).Answers s) (.revision tid revisionID) id
      fun _ => trivial
  | get tid pid revisionID =>
    simp only [honest]
    cases h : s.contentOf tid pid revisionID <;> exact h
  | compareAndSetHead tid pid src toID =>
    refine answers_ite (A := (editWorld H).Answers s)
      (.compareAndSetHead tid pid src toID) (fun _ h => by cases h) fun he => ?_
    exact answers_ite (A := (editWorld H).Answers s)
      (.compareAndSetHead tid pid src toID) (fun hat => ⟨he, hat⟩)
      fun hat => ⟨he, hat⟩
  | _ => first | rfl | trivial

def build : Pipeline := { id := "ci", tenant := some { id := "acme" }, steps := [{ id := "build" }] }

/-- One request creates the pipeline, and two rename its step, both based on that revision. -/
def creation (i : ℕ) : Request :=
  if i = 0 then .create false { credential := some "acme", pipelineID := "ci", pipeline := some build }
  else .apply false
    { credential := some "acme", pipelineID := "ci", baseRevision := revisionID id build
      operation := some (.rename "build" (if i = 1 then "Build" else "Compile")) }

/-- Both edits are applied before either moves the head, and the second move is refused. -/
def createdAndEdited : EditHistory :=
  exec (editWorld id) (fun _ => honest id) (fun i => (creation i).prog)
    [0, 0, 0, 1, 2, 2, 1, 1, 1, 2, 2]

theorem createdAndEdited_linear : (moves "acme" "ci" createdAndEdited).map Prod.fst = [0, 1] ∧
      Linear id creation createdAndEdited "acme" "ci" := by
  refine ⟨by decide +kernel, edits_linear ?_ ?_ _ _⟩
  · exact exec_reach _ _ (fun _ s op => answers_honest id s op) _ _
  · exact fun p _ q _ h => h

/-- Whoever reads a revision, and whenever, reads one definition, and the one that was saved: there
is such a save, and it is what every save under the revision stored. -/
def ReadsAgree (sum256 : Wire.Bytes → Wire.Bytes) (tr : EditHistory) : Prop :=
  ∀ i j t p rev c, didGet t p rev c ∈ own i tr →
    (∀ c', didGet t p rev c' ∈ own j tr → c' = c) ∧
    (∃ a ∈ tr, ∃ q, a.event.op = .save t q ∧ q.id = p ∧ revisionID sum256 q = rev ∧
      q.stripUnknown = c) ∧
    ∀ q, didSave t q rev ∈ own j tr → q.id = p → q.stripUnknown = c

theorem reads_agree {sum256 : Wire.Bytes → Wire.Bytes} {requests : ℕ → Request}
    {tr : EditHistory} (hruns : Runs sum256 requests tr) (hsum : NoCollision sum256 tr) :
    ReadsAgree sum256 tr := by
  intro i j t p rev c hc
  have h := contentOf_of_didGet hsum hruns.guarded hc
  refine ⟨fun c' hc' => ?_, ?_, fun q hq hp => ?_⟩
  · exact Option.some.inj ((contentOf_of_didGet hsum hruns.guarded hc').symm.trans h)
  · obtain ⟨row, hro, rfl, rfl, rfl, rfl⟩ := (contentOf_eq_some_iff hsum).mp h
    obtain ⟨q, -, hr, a, ha, hop⟩ := row_saved hro
    rw [hr]
    exact ⟨a, ha, q, hop, rfl, rfl, rfl⟩
  · subst hp
    exact Option.some.inj ((contentOf_of_didSave hsum hruns.guarded hq).symm.trans h)

/-- Somebody reads the pipeline before it is edited, and somebody else the head afterwards. -/
def reading (i : ℕ) : Request :=
  if i < 3 then creation i
  else .get { credential := some "acme", pipelineID := "ci"
              revisionID := if i = 3 then revisionID id build else "" }

def editedAndRead : EditHistory :=
  exec (editWorld id) (fun _ => honest id) (fun i => (reading i).prog)
    [0, 0, 0, 3, 3, 1, 1, 1, 1, 4, 4, 4]

def reads (h : List EditEvent) : List Pipeline :=
  h.filterMap fun e => match e with
    | ⟨.get .., .ok p⟩ => some p
    | _ => none

theorem editedAndRead_agree : reads (own 3 editedAndRead) = [build] ∧
    (reads (own 4 editedAndRead)).map (·.steps.map Step.name) = [["Build"]] ∧
      ReadsAgree id editedAndRead :=
  ⟨by decide +kernel, by decide +kernel, reads_agree (exec_reach _ _ (fun _ s op => answers_honest id s op) _ _)
    fun _ _ _ _ h => h⟩

end Dhole.Editing
