import Dhole.Scheduler

/-! The policy engine. A source has the rules in force for a tenant's tier, and an evaluation
compiles them, or takes the ones compiled before from a cache whose key is the tier and the
revision of the rules, and permits what every rule permits. What a rule means is left to the
expression language: a compiled rule is a function of its expression and of the input. A floor
puts its own rules before those of every tier. -/

namespace Dhole.Policy

open Scheduler List

/-! ### Rules and inputs -/

structure Rule where
  id : String
  expression : String
  reason : String := ""
deriving DecidableEq

structure TierPolicy where
  revision : String
  rules : List Rule
deriving DecidableEq

structure Input where
  tier : String
  tenantID : String
  subject : String := ""
  capabilities : List Capability := []
  effectClass : EffectClass := .unspecified
  pluginRef : String := ""
  signed : Bool := false
  upstream : String := ""
  tainted : Bool := false
  taintSources : List String := []
  engineCapabilities : List Capability := []
  principalKind : String := ""
  principalUntrusted : Bool := false
  secretName : String := ""

structure Decision where
  allow : Bool := false
  rule : String := ""
  reason : Text := []
deriving DecidableEq

/-- What a rule reads: the enumerations by their short names. -/
structure Activation where
  tier : String
  tenantID : String
  subject : String
  capabilities : List String
  effectClass : String
  pluginRef : String
  signed : Bool
  upstream : String
  tainted : Bool
  taintSources : List String
  engineCapabilities : List String
  principalKind : String
  principalUntrusted : Bool
  secretName : String

def shortEffectClass (c : EffectClass) : String :=
  if "EFFECT_CLASS_".toList.isPrefixOf c.text.toList then
    String.ofList (c.text.toList.drop "EFFECT_CLASS_".length)
  else c.text

def inputMap (i : Input) : Activation where
  tier := i.tier
  tenantID := i.tenantID
  subject := i.subject
  capabilities := i.capabilities.map shortCapability
  effectClass := shortEffectClass i.effectClass
  pluginRef := i.pluginRef
  signed := i.signed
  upstream := i.upstream
  tainted := i.tainted
  taintSources := i.taintSources
  engineCapabilities := i.engineCapabilities.map shortCapability
  principalKind := i.principalKind
  principalUntrusted := i.principalUntrusted
  secretName := i.secretName

abbrev Source := String → String → Except Text (Option TierPolicy)

/-! ### Compiling -/

/-- What becomes of an expression: it does not compile, it has another type than bool, it
cannot be planned, or it is a program. -/
inductive Outcome (Prog : Type) where
  | invalid (err : Text)
  | typed (type : Text)
  | unplanned (err : Text)
  | program (p : Prog)

/-- The expression language. The value of a program that is no bool is `none`. -/
structure Cel where
  Prog : Type
  compile : String → Outcome Prog
  eval : Prog → Activation → Except Text (Option Bool)

variable (cel : Cel)

structure CompiledRule where
  id : String
  reason : String
  program : cel.Prog

def compileRule (r : Rule) : Except Text (CompiledRule cel) :=
  if r.id = "" then
    .error ["policy: rule with expression ", .quoted r.expression, " has no id"]
  else match cel.compile r.expression with
    | .invalid e => .error ([.lit "policy: rule ", .quoted r.id, .lit " does not compile: "] ++ e)
    | .typed t => .error ([.lit "policy: rule ", .quoted r.id, .lit " must return bool, not "] ++ t)
    | .unplanned e =>
      .error ([.lit "policy: rule ", .quoted r.id, .lit " cannot be planned: "] ++ e)
    | .program p => .ok ⟨r.id, r.reason, p⟩

def compile : List Rule → Except Text (List (CompiledRule cel))
  | [] => .ok []
  | r :: rules =>
    match compileRule cel r with
    | .error e => .error e
    | .ok c =>
      match compile rules with
      | .error e => .error e
      | .ok cs => .ok (c :: cs)

structure CacheKey where
  tier : String
  revision : String
deriving DecidableEq

abbrev Cache := CacheKey → Option (List (CompiledRule cel))

/-- The compiled rules of the tier and their revision, compiled on the first use of that tier
and revision. -/
def programs (source : Source) (cache : Cache cel) (i : Input) :
    Except Text (List (CompiledRule cel) × String) × Cache cel :=
  match source i.tenantID i.tier with
  | .error e => (.error e, cache)
  | .ok none => (.ok ([], ""), cache)
  | .ok (some p) =>
    if p.rules = [] then (.ok ([], ""), cache)
    else match cache ⟨i.tier, p.revision⟩ with
      | some cached => (.ok (cached, p.revision), cache)
      | none =>
        match compile cel p.rules with
        | .error e => (.error e, cache)
        | .ok compiled => (.ok (compiled, p.revision),
            Function.update cache ⟨i.tier, p.revision⟩ (some compiled))

/-! ### Deciding -/

def denial (r : CompiledRule cel) : Text :=
  if r.reason = "" then ["rule ", .quoted r.id, " denied"] else [.lit r.reason]

def judge (revision : String) (i : Input) : List (CompiledRule cel) → Decision
  | [] => ⟨true, "", ["every rule of tier ", .quoted i.tier, " (revision ", revision,
      ") permitted this"]⟩
  | r :: rules =>
    match cel.eval r.program (inputMap i) with
    | .error e => ⟨false, r.id, [.lit "policy error: rule ", .quoted r.id, .lit ": "] ++ e⟩
    | .ok none => ⟨false, r.id, ["policy error: rule ", .quoted r.id, " did not return a bool"]⟩
    | .ok (some false) => ⟨false, r.id, denial cel r⟩
    | .ok (some true) => judge revision i rules

/-- The decision where the rules cannot be had, and where there are none. -/
def unreadable (e : Text) : Decision := ⟨false, "", [.lit "policy error: "] ++ e⟩

def unconfigured (tier : String) : Decision :=
  ⟨false, "", ["no policy configured for tier ", .quoted tier, ": denied"]⟩

def decideOn (i : Input) : Except Text (List (CompiledRule cel) × String) → Decision
  | .error e => unreadable e
  | .ok ([], _) => unconfigured i.tier
  | .ok (r :: rules, revision) => judge cel revision i (r :: rules)

def decide (source : Source) (cache : Cache cel) (i : Input) : Decision × Cache cel :=
  let (rules, cache) := programs cel source cache i
  (decideOn cel i rules, cache)

/-- What is returned once the decision is recorded, or could not be. -/
def audited (refusal : Option Text) (d : Decision) : Decision × Option Text :=
  match refusal with
  | some e => (⟨false, d.rule, ["policy error: the decision could not be audited"]⟩,
      some ([.lit "policy: record audit: "] ++ e))
  | none => (d, none)

/-- Decides one input and records the decision. `refusal` is the error of the audit's write. -/
def evaluate (source : Source) (refusal : Option Text) (cache : Cache cel) (i : Input) :
    (Decision × Option Text) × Cache cel :=
  if i.tenantID = "" then (({}, some ["tenant scope required"]), cache)
  else
    let (d, cache) := decide cel source cache i
    (audited refusal d, cache)

/-! ### Floors -/

def withFloor (inner : Source) (floor : TierPolicy) : Source := fun tenantID tier =>
  match inner tenantID tier with
  | .error e => .error e
  | .ok none => .ok none
  | .ok (some p) =>
    if p.rules = [] then .ok (some p)
    else .ok (some ⟨floor.revision ++ "+" ++ p.revision, floor.rules ++ p.rules⟩)

/-! ### Histories of evaluations -/

/-- One evaluation: the source as it is then, the input and the error of the audit, if any. -/
structure Call where
  source : Source
  input : Input
  refusal : Option Text := none

def run : Cache cel → List Call → List (Decision × Option Text)
  | _, [] => []
  | cache, c :: calls =>
    let (answer, cache) := evaluate cel c.source c.refusal cache c.input
    answer :: run cache calls

/-- The decision of the rules the source has, compiled for this input alone. -/
def ruled (source : Source) (i : Input) : Decision :=
  match source i.tenantID i.tier with
  | .error e => unreadable e
  | .ok none => unconfigured i.tier
  | .ok (some p) =>
    if p.rules = [] then unconfigured i.tier
    else match compile cel p.rules with
      | .error e => unreadable e
      | .ok rules => judge cel p.revision i rules

def ruledAnswer (c : Call) : Decision × Option Text :=
  if c.input.tenantID = "" then ({}, some ["tenant scope required"])
  else audited c.refusal (ruled cel c.source c.input)

/-- Whenever the engine was given rules of one tier under one revision, they were the same. -/
def RevisionsName (calls : List Call) : Prop :=
  ∀ c ∈ calls, ∀ c' ∈ calls, ∀ p p',
    c.source c.input.tenantID c.input.tier = .ok (some p) →
    c'.source c'.input.tenantID c'.input.tier = .ok (some p') → p.rules ≠ [] → p'.rules ≠ [] →
    c.input.tier = c'.input.tier → p.revision = p'.revision → p.rules = p'.rules

def Call.floored (floor : TierPolicy) (c : Call) : Call :=
  { c with source := withFloor c.source floor }

section Rules

variable {cel} {rules rules' : List Rule} {cs : List (CompiledRule cel)} {i : Input}
  {rev : String}

theorem compile_append (h : compile cel (rules ++ rules') = .ok cs) :
    ∃ cs₁ cs₂, compile cel rules = .ok cs₁ ∧ compile cel rules' = .ok cs₂ ∧ cs = cs₁ ++ cs₂ := by
  induction rules generalizing cs with
  | nil => exact ⟨[], cs, rfl, h, rfl⟩
  | cons r rules ih =>
    rw [cons_append, compile] at h
    split at h
    · cases h
    rename_i c hc
    split at h
    · cases h
    rename_i rest hr
    obtain ⟨cs₁, cs₂, h₁, h₂, rfl⟩ := ih hr
    obtain rfl := Except.ok.inj h
    exact ⟨c :: cs₁, cs₂, by rw [compile, hc, h₁], h₂, rfl⟩

theorem judge_allow_iff : (judge cel rev i cs).allow = true ↔
    ∀ c ∈ cs, cel.eval c.program (inputMap i) = .ok (some true) := by
  induction cs with
  | nil => simp [judge]
  | cons c cs ih =>
    rw [judge]
    split <;> simp_all

theorem compile_ne_nil (h : compile cel rules = .ok cs) (hne : rules ≠ []) : cs ≠ [] := by
  cases rules with
  | nil => exact absurd rfl hne
  | cons r rules =>
    rw [compile] at h
    split at h
    · cases h
    split at h
    · cases h
    · rintro rfl
      cases h

/-- A floor can only deny more. -/
theorem allow_of_floored {source : Source} {floor : TierPolicy}
    (h : (ruled cel (withFloor source floor) i).allow = true) :
    (ruled cel source i).allow = true := by
  unfold ruled withFloor at *
  cases hs : source i.tenantID i.tier with
  | error e => simp [hs, unreadable] at h
  | ok p? =>
    cases p? with
    | none => simp [hs, unconfigured] at h
    | some p =>
      by_cases he : p.rules = []
      · simp [hs, he, unconfigured] at h
      · simp only [hs, he, if_false, append_eq_nil_iff, and_false] at h ⊢
        split at h
        · cases h
        rename_i cs hcs
        obtain ⟨cs₁, cs₂, -, h₂, rfl⟩ := compile_append hcs
        rw [h₂]
        rw [judge_allow_iff] at h ⊢
        exact fun c hc => h c (mem_append_right _ hc)

end Rules

/-! ### The cache -/

section Caching

variable {cel} {cache : Cache cel} {calls done : List Call} {c : Call}

/-- Every entry was compiled from the rules some call was given under that tier and revision. -/
def CompiledFrom (cel : Cel) (done : List Call) (cache : Cache cel) : Prop :=
  ∀ key rules, cache key = some rules → ∃ c ∈ done, ∃ p,
    c.source c.input.tenantID c.input.tier = .ok (some p) ∧ p.rules ≠ [] ∧
      c.input.tier = key.tier ∧ p.revision = key.revision ∧ compile cel p.rules = .ok rules

/-- The programs of an evaluation and what it leaves in the cache, where an entry for its tier
and revision was compiled from its rules. -/
theorem decide_eq_ruled (h : ∀ p rules, c.source c.input.tenantID c.input.tier = .ok (some p) →
      p.rules ≠ [] → cache ⟨c.input.tier, p.revision⟩ = some rules →
      compile cel p.rules = .ok rules) :
    (decide cel c.source cache c.input).1 = ruled cel c.source c.input := by
  unfold decide programs ruled
  cases hs : c.source c.input.tenantID c.input.tier with
  | error e => rfl
  | ok p? =>
    cases p? with
    | none => rfl
    | some p =>
      by_cases he : p.rules = []
      · simp only [he]
        rfl
      · simp only [he]
        have hj {rules : List (CompiledRule cel)} (hr : compile cel p.rules = .ok rules) :
            decideOn cel c.input (.ok (rules, p.revision)) =
              judge cel p.revision c.input rules := by
          cases rules with
          | nil => exact absurd rfl (compile_ne_nil hr he)
          | cons r rules => rfl
        cases hen : cache ⟨c.input.tier, p.revision⟩ with
        | some rules =>
          have hr := h p rules hs he hen
          simp only [hr]
          exact hj hr
        | none =>
          cases hr : compile cel p.rules with
          | error e => rfl
          | ok rules => exact hj hr

theorem CompiledFrom.snoc (h : CompiledFrom cel done cache) :
    CompiledFrom cel (done ++ [c]) cache := by
  intro key rules he
  obtain ⟨d, hd, hp⟩ := h key rules he
  exact ⟨d, mem_append_left _ hd, hp⟩

theorem CompiledFrom.decide (h : CompiledFrom cel done cache) :
    CompiledFrom cel (done ++ [c]) (decide cel c.source cache c.input).2 := by
  have hold : CompiledFrom cel (done ++ [c]) cache := h.snoc
  unfold Policy.decide programs
  cases hso : c.source c.input.tenantID c.input.tier with
  | error e => exact hold
  | ok p? =>
    cases p? with
    | none => exact hold
    | some p =>
      by_cases he : p.rules = []
      · simpa only [he, if_true] using hold
      · simp only [he, if_false]
        cases hen : cache ⟨c.input.tier, p.revision⟩ with
        | some rules => exact hold
        | none =>
          cases hr : compile cel p.rules with
          | error e => exact hold
          | ok co =>
            intro key rules hk
            by_cases hs : key = ⟨c.input.tier, p.revision⟩
            · subst hs
              simp only [Function.update_self, Option.some.injEq] at hk
              subst hk
              exact ⟨c, by simp, p, hso, he, rfl, rfl, hr⟩
            · simp only [Function.update_of_ne hs] at hk
              exact hold key rules hk

theorem run_eq (hca : CompiledFrom cel done cache) (hn : RevisionsName (done ++ calls)) :
    run cel cache calls = calls.map (ruledAnswer cel) := by
  induction calls generalizing done cache with
  | nil => rfl
  | cons c calls ih =>
    have hc : c ∈ done ++ c :: calls := by simp
    have hde : (decide cel c.source cache c.input).1 = ruled cel c.source c.input :=
      decide_eq_ruled fun p rules hp hne he => by
        obtain ⟨d, hd, q, hq, hqn, hti, hr, hru⟩ := hca _ _ he
        rw [← hn d (mem_append_left _ hd) c hc q p hq hp hqn hne hti hr]
        exact hru
    have hn' : RevisionsName ((done ++ [c]) ++ calls) := by simpa using hn
    rw [map_cons, ruledAnswer, ← hde]
    by_cases ht : c.input.tenantID = ""
    · simp only [run, evaluate, if_pos ht, ih hca.snoc hn']
    · simp only [run, evaluate, if_neg ht, ih hca.decide hn']

theorem withFloor_ok {source : Source} {floor p : TierPolicy} {tid tier : String}
    (h : withFloor source floor tid tier = .ok (some p)) (hne : p.rules ≠ []) :
    ∃ q, source tid tier = .ok (some q) ∧ q.rules ≠ [] ∧
      p = ⟨floor.revision ++ "+" ++ q.revision, floor.rules ++ q.rules⟩ := by
  unfold withFloor at h
  split at h
  · cases h
  · cases h
  rename_i q hq
  split_ifs at h with he
  · obtain rfl := Option.some.inj (Except.ok.inj h)
    exact absurd he hne
  · exact ⟨q, hq, he, (Option.some.inj (Except.ok.inj h)).symm⟩

theorem RevisionsName.floored (h : RevisionsName calls) (floor : TierPolicy) :
    RevisionsName (calls.map (Call.floored floor)) := by
  intro c hc c' hc' p p' hp hp' hne hne' ht hr
  obtain ⟨d, hd, rfl⟩ := mem_map.mp hc
  obtain ⟨d', hd', rfl⟩ := mem_map.mp hc'
  obtain ⟨q, hq, hqn, rfl⟩ := withFloor_ok hp hne
  obtain ⟨q', hq', hqn', rfl⟩ := withFloor_ok hp' hne'
  have hs : q.revision = q'.revision := by
    have hch := congrArg String.toList hr
    simp only [String.toList_append] at hch
    exact String.toList_injective (append_cancel_left hch)
  rw [h d hd d' hd' q q' hq hq' hqn hqn' ht hs]

theorem allow_audited {refusal : Option Text} {d : Decision}
    (h : (audited refusal d).1.allow = true) : d.allow = true ∧ refusal = none := by
  cases refusal with
  | none => exact ⟨h, rfl⟩
  | some e => cases h

/-- In every history in which the revisions name the rules, the engine decides by the rules the
source has at that moment, also under a floor, and what it permits under a floor it permits
without. -/
theorem evaluations_isolated (cel : Cel) (calls : List Call) (hnames : RevisionsName calls)
    (floor : TierPolicy) : run cel (fun _ => none) calls = calls.map (ruledAnswer cel) ∧
      run cel (fun _ => none) (calls.map (Call.floored floor)) =
        (calls.map (Call.floored floor)).map (ruledAnswer cel) ∧
      ∀ c ∈ calls, (ruledAnswer cel (c.floored floor)).1.allow = true →
        (ruledAnswer cel c).1.allow = true := by
  have hs : CompiledFrom cel [] fun _ => none := fun _ _ h => by cases h
  refine ⟨run_eq hs hnames, run_eq hs (hnames.floored floor), fun c _ h => ?_⟩
  unfold ruledAnswer at *
  by_cases ht : c.input.tenantID = ""
  · rw [if_pos (show (c.floored floor).input.tenantID = "" from ht)] at h
    cases h
  rw [if_neg (show (c.floored floor).input.tenantID ≠ "" from ht)] at h
  rw [if_neg ht]
  obtain ⟨ha, hr⟩ := allow_audited h
  have hi : (ruled cel c.source c.input).allow = true := allow_of_floored ha
  rwa [show c.refusal = none from hr]

/-! A language with the two constants, enough to tell two policies apart. -/

def constants : Cel where
  Prog := Bool
  compile := fun e =>
    if e = "true" then .program true
    else if e = "false" then .program false
    else .invalid ["undeclared reference"]
  eval := fun b _ => .ok (some b)

def always : TierPolicy := ⟨"1", [⟨"open", "true", ""⟩]⟩
def never : TierPolicy := ⟨"2", [⟨"closed", "false", "no"⟩]⟩

def replaced : List Call :=
  [⟨fun _ _ => .ok (some always), { tier := "shared", tenantID := "acme" }, none⟩,
    ⟨fun _ _ => .ok (some never), { tier := "shared", tenantID := "acme" }, none⟩]

theorem replaced_revisionsName : RevisionsName replaced := by
  intro c hc c' hc' p p' hp hp' _ _ _ hr
  simp only [replaced, mem_cons, not_mem_nil, or_false] at hc hc'
  rcases hc with rfl | rfl <;> rcases hc' with rfl | rfl <;>
    (obtain rfl := Option.some.inj (Except.ok.inj hp)
     obtain rfl := Option.some.inj (Except.ok.inj hp')
     first | rfl | exact absurd hr (by decide))

theorem replaced_isolated : RevisionsName replaced ∧
    run constants (fun _ => none) replaced = replaced.map (ruledAnswer constants) ∧
      (run constants (fun _ => none) replaced).map (·.1.allow) = [true, false] :=
  ⟨replaced_revisionsName,
    (evaluations_isolated constants replaced replaced_revisionsName never).1, by decide⟩

/-- Each tenant wrote its own rules for the tier, and both call the revision 1. -/
def authored : Source := fun tenantID _ =>
  .ok (some ⟨"1", if tenantID = "globex" then always.rules else never.rules⟩)

/-- A tenant is let through by the rules of the tenant that was asked about first. -/
theorem authored_not_isolated :
    (run constants (fun _ => none)
        [⟨authored, { tier := "shared", tenantID := "globex" }, none⟩,
          ⟨authored, { tier := "shared", tenantID := "acme" }, none⟩]).map (·.1.allow) =
        [true, true] ∧
      (ruledAnswer constants ⟨authored, { tier := "shared", tenantID := "acme" }, none⟩).1 =
        ⟨false, "closed", [.lit "no"]⟩ := by
  decide

end Caching

/-! ### A floor holds whatever is cached -/

variable {cel} {rules : List Rule} {cs : List (CompiledRule cel)} {cache : Cache cel}
  {source : Source} {floor : TierPolicy} {refusal : Option Text} {i : Input} {r : Rule}

def Holds (cel : Cel) (r : Rule) (i : Input) : Prop :=
  ∃ c, compileRule cel r = .ok c ∧ cel.eval c.program (inputMap i) = .ok (some true)

def StartsWith (cel : Cel) (floor : TierPolicy) (cache : Cache cel) : Prop :=
  ∀ key rules, cache key = some rules →
    ∃ cs cs', compile cel floor.rules = .ok cs ∧ rules = cs ++ cs'

def after (cel : Cel) : Cache cel → List Call → Cache cel
  | cache, [] => cache
  | cache, c :: calls => after cel (evaluate cel c.source c.refusal cache c.input).2 calls

theorem compileRule_of_mem (h : compile cel rules = .ok cs) (hr : r ∈ rules) :
    ∃ c ∈ cs, compileRule cel r = .ok c := by
  obtain ⟨before, rest, rfl⟩ := append_of_mem hr
  obtain ⟨cs₁, cs₂, -, h₂, rfl⟩ := compile_append h
  rw [compile] at h₂
  split at h₂
  · cases h₂
  rename_i c hc
  split at h₂
  · cases h₂
  obtain rfl := Except.ok.inj h₂
  exact ⟨c, by simp, hc⟩

/-- The rules an evaluation under a floor uses, and the cache it leaves, start with it. -/
theorem programs_startsWith (hc : StartsWith cel floor cache) :
    (∀ rules rev, (programs cel (withFloor source floor) cache i).1 = .ok (rules, rev) →
      rules = [] ∨ ∃ cs cs', compile cel floor.rules = .ok cs ∧ rules = cs ++ cs') ∧
      StartsWith cel floor (programs cel (withFloor source floor) cache i).2 := by
  unfold programs
  cases hso : withFloor source floor i.tenantID i.tier with
  | error e => exact ⟨fun _ _ h => (nomatch h), hc⟩
  | ok p? =>
    cases p? with
    | none => exact ⟨fun _ _ h => .inl (by cases h; rfl), hc⟩
    | some p =>
      by_cases he : p.rules = []
      · simp only [he]
        exact ⟨fun _ _ h => .inl (by cases h; rfl), hc⟩
      · simp only [he, if_false]
        cases hen : cache ⟨i.tier, p.revision⟩ with
        | some cached =>
          refine ⟨fun rules _ h => .inr ?_, hc⟩
          cases h
          exact hc _ _ hen
        | none =>
          cases hr : compile cel p.rules with
          | error e => exact ⟨fun _ _ h => (nomatch h), hc⟩
          | ok co =>
            obtain ⟨q, -, -, rfl⟩ := withFloor_ok hso he
            obtain ⟨cs, cs', hf, -, rfl⟩ := compile_append hr
            refine ⟨fun rules _ h => .inr ?_, fun key rules hk => ?_⟩
            · cases h
              exact ⟨cs, cs', hf, rfl⟩
            · by_cases hs : key = ⟨i.tier, floor.revision ++ "+" ++ q.revision⟩
              · subst hs
                simp only [Function.update_self, Option.some.injEq] at hk
                exact ⟨cs, cs', hf, hk.symm⟩
              · simp only [Function.update_of_ne hs] at hk
                exact hc key rules hk

theorem StartsWith.evaluate (hc : StartsWith cel floor cache) :
    StartsWith cel floor (evaluate cel (withFloor source floor) refusal cache i).2 := by
  unfold Policy.evaluate
  split
  · exact hc
  · exact (programs_startsWith hc).2

theorem startsWith_after (calls : List Call) (hc : StartsWith cel floor cache) :
    StartsWith cel floor (after cel cache (calls.map (Call.floored floor))) := by
  induction calls generalizing cache with
  | nil => exact hc
  | cons c calls ih => exact ih hc.evaluate

/-- What an engine under a floor permits every rule of the floor permits, also where the rules
come from the cache. -/
theorem floor_holds (hca : StartsWith cel floor cache)
    (h : (evaluate cel (withFloor source floor) refusal cache i).1.1.allow = true)
    (hr : r ∈ floor.rules) : Holds cel r i := by
  unfold Policy.evaluate at h
  split at h
  · cases h
  replace h := (allow_audited h).1
  change (decideOn cel i (programs cel (withFloor source floor) cache i).1).allow = true at h
  cases hru : (programs cel (withFloor source floor) cache i).1 with
  | error e =>
    rw [hru] at h
    cases h
  | ok found =>
    obtain ⟨rules, rev⟩ := found
    rw [hru] at h
    obtain rfl | ⟨cs, cs', hf, rfl⟩ := (programs_startsWith hca).1 rules rev hru
    · cases h
    obtain ⟨c, hc, hco⟩ := compileRule_of_mem hf hr
    have hj : (judge cel rev i (cs ++ cs')).allow = true := by
      generalize ha : cs ++ cs' = all at h hc
      cases all with
      | nil => cases h
      | cons c' rest => exact h
    exact ⟨c, hco, judge_allow_iff.mp hj c (mem_append_left _ hc)⟩

end Dhole.Policy
