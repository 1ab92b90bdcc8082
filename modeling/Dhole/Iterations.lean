import Dhole.Lexical
import Dhole.Loop
import Dhole.Splicing

/-! The configuration of a loop step, and what becomes of it from one iteration to the next.
Everything a controller knows of its loop it has from its configuration: the one that an
iteration writes for the next reads back as the same loop one iteration on, except that the
loop's name is read without the blanks around it. The names the iterations give their steps
stay apart all the same. -/

namespace Dhole.Loop

open Dag Lexical List

/-! ### Reading a configuration -/

def decimal (digits : List Char) : Option ℕ :=
  if digits = [] ∨ ¬ digits.all Char.isDigit then none
  else some (Nat.ofDigits 10 (digits.reverse.map digitValue))

def atoi (s : String) : Option ℤ :=
  match s.toList with
  | '-' :: digits => (decimal digits).bind fun n => if n ≤ 2 ^ 63 then some (-n : ℤ) else none
  | '+' :: digits => (decimal digits).bind fun n => if n < 2 ^ 63 then some (n : ℤ) else none
  | digits => (decimal digits).bind fun n => if n < 2 ^ 63 then some (n : ℤ) else none

inductive SpecErr where
  | notAnIteration (raw loop : String)
  | notANumber (raw : String)
  | notACeiling (ceiling : ℤ)
  | noExitCondition
  | badExitCondition (expr : String)
  | nothingToRepeat
  | notAPipeline
  | noSteps
  | notADAG (cause : Text)
  | ports (first : Diagnostic)

/-- What the plane reads configurations with: which expressions compile, and the JSON form of
a pipeline, which a pipeline that was read has again. -/
structure Language where
  compiles : String → Bool
  decode : String → Option Pipeline
  encode : Pipeline → String
  decode_encode {raw : String} {p : Pipeline} (h : decode raw = some p) : decode (encode p) = some p
  encode_written {raw : String} {p : Pipeline} (h : decode raw = some p) :
    trimSpace (encode p) ≠ ""

abbrev Body := { b : Pipeline // (∃ g, build (some b) = .ok g) ∧ typeCheck b = [] }

variable (lang : Language)

def parseBody (raw : String) : Except SpecErr Body :=
  if trimSpace raw = "" then .error .nothingToRepeat
  else
    match lang.decode raw with
    | none => .error .notAPipeline
    | some body =>
      if body.steps = [] then .error .noSteps
      else
        match hbuild : build (some body) with
        | .error cause => .error (.notADAG cause)
        | .ok g =>
          match hcheck : typeCheck body with
          | first :: _ => .error (.ports first)
          | [] => .ok ⟨body, ⟨g, hbuild⟩, hcheck⟩

/-- The pass a controller decides; the first where none is given. -/
def parseIteration (loop raw : String) : Except SpecErr ℕ :=
  if raw = "" then .ok 1
  else
    match atoi raw with
    | none => .error (.notAnIteration raw loop)
    | some n => if n < 1 then .error (.notAnIteration raw loop) else .ok n.toNat

def parseMax (raw : String) : Except SpecErr ℕ :=
  match atoi (trimSpace raw) with
  | none => .error (.notANumber raw)
  | some n => if n ≤ 0 then .error (.notACeiling n) else .ok n.toNat

def newCondition (expr : String) : Except SpecErr String :=
  if expr = "" then .error .noExitCondition
  else if lang.compiles expr then .ok expr
  else .error (.badExitCondition expr)

/-- The authored step is its own loop; a controller names the loop it belongs to. -/
@[irreducible] def loopOf (step : Step) : String :=
  if trimSpace (step.config.getD "loop" "") = "" then step.id
  else trimSpace (step.config.getD "loop" "")

def parseSpec (step : Step) : Except SpecErr Spec := do
  let iteration ← parseIteration (loopOf step) (trimSpace (step.config.getD "iteration" ""))
  let max ← parseMax (step.config.getD "max_iterations" "")
  let exitCondition ← newCondition lang (step.config.getD "exit_condition" "")
  let body ← parseBody lang (step.config.getD "body" "")
  pure { loop := loopOf step, iteration, max, exitCondition, body, bodyText := lang.encode body
         effectClass := step.effectClass, built := body.2.1, checked := body.2.2 }

/-! ### What was read -/

variable {lang : Language} {step : Step} {s : Spec} {raw : String} {n : ℕ}

theorem decimal_formatUint (n : ℕ) : decimal (formatUint n).toList = some n := by
  have ha : (formatUint n).toList.all Char.isDigit = true :=
    all_eq_true.mpr fun c hc => isDigit_of_mem_formatUint hc
  rw [decimal, if_neg (not_or.mpr ⟨formatUint_ne_nil n, not_not.mpr ha⟩), ofDigits_formatUint]

theorem atoi_formatUint (hn : n < 2 ^ 63) : atoi (formatUint n) = some (n : ℤ) := by
  have hd := decimal_formatUint n
  obtain ⟨c, cs, hcs⟩ := exists_cons_of_ne_nil (formatUint_ne_nil n)
  have hc : c.isDigit = true := isDigit_of_mem_formatUint (hcs ▸ mem_cons_self)
  unfold atoi
  rw [hcs] at hd ⊢
  split
  case h_1 heq =>
    obtain ⟨rfl, -⟩ := cons_eq_cons.mp heq
    cases hc
  case h_2 heq =>
    obtain ⟨rfl, -⟩ := cons_eq_cons.mp heq
    cases hc
  case h_3 =>
    rw [hd, Option.bind_some, if_pos hn]

theorem atoi_lt {n : ℤ} (h : atoi raw = some n) : n < 2 ^ 63 := by
  unfold atoi at h
  split at h
  all_goals
    obtain ⟨m, -, hm⟩ := Option.bind_eq_some_iff.mp h
    split at hm
    · cases hm
      omega
    · cases hm

structure Spec.Read (lang : Language) (s : Spec) : Prop where
  iteration_pos : 1 ≤ s.iteration
  max_pos : 1 ≤ s.max
  max_lt : s.max < 2 ^ 63
  condition : newCondition lang s.exitCondition = .ok s.exitCondition
  decoded : ∃ raw, lang.decode raw = some s.body
  steps : s.body.steps ≠ []
  bodyText : s.bodyText = lang.encode s.body

theorem parseIteration_ok {loop : String} (h : parseIteration loop raw = .ok n) : 1 ≤ n := by
  unfold parseIteration at h
  split at h
  · cases h
    exact le_rfl
  split at h
  · cases h
  split at h
  · cases h
  · cases h
    omega

theorem parseMax_ok (h : parseMax raw = .ok n) : 1 ≤ n ∧ n < 2 ^ 63 := by
  unfold parseMax at h
  split at h
  · cases h
  rename_i m hm
  have := atoi_lt hm
  split at h
  · cases h
  · cases h
    omega

theorem newCondition_ok {expr out : String} (h : newCondition lang expr = .ok out) :
    newCondition lang out = .ok out := by
  obtain rfl : expr = out := by
    unfold newCondition at h
    split at h
    · cases h
    split at h
    · cases h
      rfl
    · cases h
  exact h

theorem parseBody_ok {body : Body} (h : parseBody lang raw = .ok body) :
    trimSpace raw ≠ "" ∧ lang.decode raw = some body.1 ∧ body.1.steps ≠ [] := by
  unfold parseBody at h
  split at h
  · cases h
  rename_i hr
  split at h
  · cases h
  rename_i p hp
  split at h
  · cases h
  rename_i hs
  split at h
  · cases h
  split at h
  · cases h
  · cases h
    exact ⟨hr, hp, hs⟩

theorem parseBody_encode {body : Pipeline} (hd : lang.decode raw = some body)
    (hs : body.steps ≠ []) (hb : ∃ g, build (some body) = .ok g) (hc : typeCheck body = []) :
    parseBody lang (lang.encode body) = .ok ⟨body, hb, hc⟩ := by
  unfold parseBody
  rw [if_neg (lang.encode_written hd)]
  simp only [lang.decode_encode hd, if_neg hs]
  split
  · rename_i ca hca
    obtain ⟨g, hg⟩ := hb
    simp [hg] at hca
  split
  · rename_i hf
    simp [hc] at hf
  · rfl

theorem parseSpec_ok (h : parseSpec lang step = .ok s) :
    s.Read lang ∧ s.loop = loopOf step ∧ s.effectClass = step.effectClass := by
  obtain ⟨it, hi, h⟩ := bind_eq_ok_iff.mp h
  obtain ⟨max, hm, h⟩ := bind_eq_ok_iff.mp h
  obtain ⟨ex, hc, h⟩ := bind_eq_ok_iff.mp h
  obtain ⟨body, hb, h⟩ := bind_eq_ok_iff.mp h
  obtain rfl := Except.ok.inj h
  obtain ⟨hmax_pos, hmax_lt⟩ := parseMax_ok hm
  obtain ⟨-, hd, hs⟩ := parseBody_ok hb
  exact ⟨⟨parseIteration_ok hi, hmax_pos, hmax_lt, newCondition_ok hc, ⟨_, hd⟩, hs, rfl⟩, rfl, rfl⟩

/-! ### The next iteration -/

@[irreducible] def Spec.nextLoop (s : Spec) : String :=
  if trimSpace s.loop = "" then controllerID s.loop (s.iteration + 1) else trimSpace s.loop

def Spec.next (s : Spec) : Spec := { s with loop := s.nextLoop, iteration := s.iteration + 1 }

theorem isSpace_of_isDigit {c : Char} (h : c.isDigit = true) : isSpace c = false := by
  obtain ⟨hlo, hhi⟩ : 48 ≤ c.toNat ∧ c.toNat ≤ 57 := by
    simpa [Char.isDigit, UInt32.le_iff_toNat_le] using h
  have hl : ∀ d ∈ ['\t', '\n', '\x0b', '\x0c', '\r', ' ', '\u0085', '\u00a0', '\u1680',
      '\u2028', '\u2029', '\u202f', '\u205f', '\u3000'], d.toNat < 48 ∨ 57 < d.toNat := by simp
  rw [isSpace, Bool.or_eq_false_iff, decide_eq_false_iff_not]
  refine ⟨fun hm => ?_, ?_⟩
  · have := hl c hm
    omega
  · have ho : ¬ '\u2000' ≤ c := fun hle => by
      have : 8192 ≤ c.toNat := hle
      omega
    simp [ho]

theorem trimSpace_formatUint (n : ℕ) : trimSpace (formatUint n) = formatUint n := by
  have hd : ∀ c ∈ (formatUint n).toList, isSpace c = false := fun c hc =>
    isSpace_of_isDigit (isDigit_of_mem_formatUint hc)
  rw [trimSpace, trim_eq_self, String.ofList_toList]
  exact ⟨fun c hc => hd c (mem_of_mem_head? hc), fun c hc => hd c (mem_of_mem_getLast? hc)⟩

theorem Spec.Read.next (h : s.Read lang) : s.next.Read lang :=
  ⟨Nat.le_add_left 1 _, h.max_pos, h.max_lt, h.condition, h.decoded, h.steps, h.bodyText⟩

/-- The controller an iteration writes reads back as the loop's next iteration. -/
theorem parseSpec_controller (h : s.Read lang) (hnx : s.iteration + 1 < 2 ^ 63)
    (ps : List (Step × Port)) : parseSpec lang (s.controller ps) = .ok s.next := by
  have hk (key : String) : s.controllerConfig.getD key "" =
      if "iteration" = key then formatUint (s.iteration + 1) else if "loop" = key then s.loop
      else if "exit_condition" = key then s.exitCondition
      else if "max_iterations" = key then formatUint s.max
      else if "body" = key then s.bodyText else "" := by
    simp [Spec.controllerConfig, Std.ExtTreeMap.getD_insert]
  have hc : (s.controller ps).config = s.controllerConfig := rfl
  have hl : loopOf (s.controller ps) = s.nextLoop := by
    simp only [loopOf, hc, hk, Spec.nextLoop]
    rfl
  have hi : parseIteration s.nextLoop (trimSpace (formatUint (s.iteration + 1))) =
      .ok (s.iteration + 1) := by
    have hne : formatUint (s.iteration + 1) ≠ "" := fun h =>
      formatUint_ne_nil (s.iteration + 1) (by rw [h]; rfl)
    have hp : ¬ ((s.iteration + 1 : ℕ) : ℤ) < 1 := by omega
    simp only [trimSpace_formatUint, parseIteration, if_neg hne, atoi_formatUint hnx, if_neg hp,
      Int.toNat_natCast]
  have hm : parseMax (formatUint s.max) = .ok s.max := by
    have hp : ¬ (s.max : ℤ) ≤ 0 := by
      have := h.max_pos
      omega
    simp only [parseMax, trimSpace_formatUint, atoi_formatUint h.max_lt, if_neg hp,
      Int.toNat_natCast]
  have hb : parseBody lang s.bodyText = .ok ⟨s.body, s.built, s.checked⟩ := by
    obtain ⟨raw, hr⟩ := h.decoded
    rw [h.bodyText]
    exact parseBody_encode hr h.steps s.built s.checked
  have hn : s.next = { s.next with bodyText := lang.encode s.body } := by
    rw [← h.bodyText]
    rfl
  rw [hn]
  simp only [parseSpec, hl, hc, hk]
  simp only [String.reduceEq, if_true, if_false]
  rw [hi, hm, h.condition, hb]
  rfl

/-! ### Names -/

variable {loop a b : String} {i j : ℕ}

def Spec.stepIDs (s : Spec) : List String :=
  s.body.steps.map (fun step => s.bodyStepID step.id) ++
    [Spec.controllerID s.loop (s.iteration + 1)]

theorem dot_not_mem_formatUint (n : ℕ) : '.' ∉ (formatUint n).toList := fun h => by
  have := isDigit_of_mem_formatUint h
  revert this
  decide

theorem formatUint_dot_inj (h : formatUint i ++ "." ++ a = formatUint j ++ "." ++ b) :
    i = j ∧ a = b := by
  have hl : (formatUint i).toList ++ '.' :: a.toList =
      (formatUint j).toList ++ '.' :: b.toList := by
    simpa using congrArg String.toList h
  obtain ⟨hi, hab⟩ := append_cons_inj (dot_not_mem_formatUint i) (dot_not_mem_formatUint j) hl
  exact ⟨formatUint_injective (String.toList_injective hi), String.toList_injective hab⟩

theorem formatUint_ne_dot : formatUint j ≠ formatUint i ++ "." ++ a := fun h =>
  dot_not_mem_formatUint j (by rw [h]; simp)

theorem dot_cancel (h : loop ++ "." ++ a = loop ++ "." ++ b) : a = b := by
  refine String.toList_injective ?_
  simpa using congrArg String.toList h

theorem trimmed_ne (hl : loop ≠ trimSpace loop) :
    loop ++ "." ++ a ≠ trimSpace loop ++ "." ++ b := by
  intro h
  have hli : loop.toList ++ '.' :: a.toList = trim isSpace loop.toList ++ '.' :: b.toList := by
    simpa [trimSpace] using congrArg String.toList h
  refine append_cons_ne_trim (fun heq => hl ?_) (by decide) hli
  rw [trimSpace, ← heq, String.ofList_toList]

theorem bodyStepID_eq (id : String) :
    s.bodyStepID id = s.loop ++ "." ++ (formatUint s.iteration ++ "." ++ id) := by
  simp [Spec.bodyStepID, String.append_assoc]

theorem controllerID_eq {n : ℕ} (hn : 1 ≤ n) :
    Spec.controllerID loop (n + 1) = loop ++ "." ++ formatUint (n + 1) :=
  if_neg (by omega)

variable {id : String}

theorem mem_stepIDs (hs : 1 ≤ s.iteration) : id ∈ s.stepIDs ↔
    (∃ step ∈ s.body.steps, id = s.loop ++ "." ++ (formatUint s.iteration ++ "." ++ step.id)) ∨
      id = s.loop ++ "." ++ formatUint (s.iteration + 1) := by
  simp [Spec.stepIDs, bodyStepID_eq, controllerID_eq hs, eq_comm]

/-- The id is of an iteration after the `i`th of the loop, read from a controller. -/
inductive Follows (loop : String) (i : ℕ) : String → Prop
  | body {j : ℕ} {rest : String} (h : i < j) :
      Follows loop i (loop ++ "." ++ (formatUint j ++ "." ++ rest))
  | controller {j : ℕ} (h : i + 1 < j) : Follows loop i (loop ++ "." ++ formatUint j)
  | trimmed {rest : String} (h : loop ≠ trimSpace loop) :
      Follows loop i (trimSpace loop ++ "." ++ rest)

theorem not_follows (hs : 1 ≤ s.iteration) (hid : id ∈ s.stepIDs) :
    ¬ Follows s.loop s.iteration id := by
  rw [mem_stepIDs hs] at hid
  generalize hx : id = x
  intro hf
  cases hf with
  | body hlt =>
    rcases hid with ⟨step, -, rfl⟩ | rfl
    · have := (formatUint_dot_inj (dot_cancel hx)).1
      omega
    · exact formatUint_ne_dot (dot_cancel hx)
  | controller hlt =>
    rcases hid with ⟨step, -, rfl⟩ | rfl
    · exact formatUint_ne_dot (dot_cancel hx).symm
    · have := formatUint_injective (dot_cancel hx)
      omega
  | trimmed hne =>
    rcases hid with ⟨step, -, rfl⟩ | rfl
    · exact trimmed_ne hne hx
    · exact trimmed_ne hne hx

theorem trimSpace_trimSpace (t : String) : trimSpace (trimSpace t) = trimSpace t := by
  rw [trimSpace, trimSpace, String.toList_ofList, trim_eq_self (tight_trim _ _)]

theorem tight_dot (n : ℕ) : Tight isSpace ('.' :: (formatUint n).toList) := by
  refine ⟨fun c hc => ?_, fun c hc => ?_⟩
  · obtain rfl : '.' = c := by simpa using hc
    decide
  · rcases mem_cons.mp (mem_of_mem_getLast? hc) with rfl | hm
    · decide
    · exact isSpace_of_isDigit (isDigit_of_mem_formatUint hm)

theorem trimSpace_dot (n : ℕ) : trimSpace ("." ++ formatUint n) = "." ++ formatUint n := by
  have hl : ("." ++ formatUint n).toList = '.' :: (formatUint n).toList := by simp
  rw [trimSpace, hl, trim_eq_self (tight_dot n), ← hl, String.ofList_toList]

theorem trimSpace_blank_dot (hb : trimSpace loop = "") (n : ℕ) :
    trimSpace (loop ++ "." ++ formatUint n) = "." ++ formatUint n := by
  have hs : ∀ c ∈ loop.toList, isSpace c :=
    trim_eq_nil_iff.mp (by simpa [trimSpace] using congrArg String.toList hb)
  have hl : (loop ++ "." ++ formatUint n).toList =
      loop.toList ++ '.' :: (formatUint n).toList ++ [] := by simp
  rw [trimSpace, hl, trim_append hs (tight_dot n) (by simp)]
  exact String.toList_injective (by simp)

def Spec.after (s : Spec) (k : ℕ) : Spec := Spec.next^[k] s

@[simp] theorem Spec.after_zero (s : Spec) : s.after 0 = s := rfl

theorem Spec.after_succ (s : Spec) (k : ℕ) : s.after (k + 1) = (s.after k).next :=
  Function.iterate_succ_apply' _ _ _

theorem Spec.after_after (s : Spec) (k l : ℕ) : (s.after k).after l = s.after (k + l) := by
  rw [Spec.after, Spec.after, Spec.after, ← Function.iterate_add_apply, Nat.add_comm]

@[simp] theorem Spec.after_iteration (s : Spec) (k : ℕ) :
    (s.after k).iteration = s.iteration + k := by
  induction k with
  | zero => rfl
  | succ k ih =>
    rw [Spec.after_succ]
    change (s.after k).iteration + 1 = _
    omega

@[simp] theorem Spec.after_body (s : Spec) (k : ℕ) : (s.after k).body = s.body := by
  induction k with
  | zero => rfl
  | succ k ih => rwa [Spec.after_succ]

@[simp] theorem Spec.after_max (s : Spec) (k : ℕ) : (s.after k).max = s.max := by
  induction k with
  | zero => rfl
  | succ k ih => rwa [Spec.after_succ]

/-- The names later controllers read: the loop's own, trimmed, or for a blank one the id of the
second controller, which is trimmed in turn. -/
theorem after_loop (hs : 1 ≤ s.iteration) (k : ℕ) :
    (trimSpace s.loop ≠ "" ∧ (s.after (k + 1)).loop = trimSpace s.loop) ∨ trimSpace s.loop = "" ∧
      ((s.after (k + 1)).loop = s.loop ++ "." ++ formatUint (s.iteration + 1) ∨
      (s.after (k + 1)).loop = "." ++ formatUint (s.iteration + 1)) := by
  have hn (t : Spec) : t.next.loop =
      if trimSpace t.loop = "" then Spec.controllerID t.loop (t.iteration + 1)
      else trimSpace t.loop := by
    rw [Spec.next, Spec.nextLoop]
  by_cases hb : trimSpace s.loop = ""
  · refine .inr ⟨hb, ?_⟩
    have ht := trimSpace_blank_dot hb (s.iteration + 1)
    induction k with
    | zero =>
      rw [Spec.after_succ, Spec.after_zero, hn, if_pos hb, controllerID_eq hs]
      exact .inl rfl
    | succ k ih =>
      rw [Spec.after_succ, hn]
      rcases ih with ih | ih
      · rw [ih, ht]
        exact .inr rfl
      · rw [ih, trimSpace_dot]
        exact .inr rfl
  · refine .inl ⟨hb, ?_⟩
    induction k with
    | zero => rw [Spec.after_succ, Spec.after_zero, hn, if_neg hb]
    | succ k ih => rw [Spec.after_succ, hn, ih, trimSpace_trimSpace, if_neg hb]

theorem follows_after (hs : 1 ≤ s.iteration) {k : ℕ} (hid : id ∈ (s.after (k + 1)).stepIDs) :
    Follows s.loop s.iteration id := by
  have hp : 1 ≤ (s.after (k + 1)).iteration := by
    rw [Spec.after_iteration]
    omega
  rw [mem_stepIDs hp, Spec.after_iteration] at hid
  have hsh (rest : String) (hr : id = trimSpace s.loop ++ "." ++ rest)
      (hsa : Follows s.loop s.iteration (s.loop ++ "." ++ rest)) :
      Follows s.loop s.iteration id := by
    by_cases hl : s.loop = trimSpace s.loop
    · rw [hr, ← hl]
      exact hsa
    · rw [hr]
      exact .trimmed hl
  rcases after_loop hs k with ⟨-, hl⟩ | ⟨hbl, hl | hl⟩
  · rw [hl] at hid
    rcases hid with ⟨step, -, hid⟩ | hid
    · exact hsh _ hid (.body (by omega))
    · exact hsh _ hid (.controller (by omega))
  · -- The second controller's id names the loop; its iterations are below it.
    rw [hl] at hid
    rcases hid with ⟨step, -, rfl⟩ | rfl
    all_goals
      simpa [String.append_assoc] using
        (Follows.body (Nat.lt_succ_self s.iteration) : Follows s.loop s.iteration _)
  · rw [hl] at hid
    have hb (rest : String)
        (hr : id = "." ++ formatUint (s.iteration + 1) ++ "." ++ rest) :
        Follows s.loop s.iteration id :=
      hsh (formatUint (s.iteration + 1) ++ "." ++ rest)
        (by simp [hr, hbl, String.append_assoc]) (.body (Nat.lt_succ_self _))
    rcases hid with ⟨step, -, hid⟩ | hid
    · exact hb _ hid
    · exact hb _ hid

theorem stepIDs_disjoint (hs : 1 ≤ s.iteration) (hij : i < j) (hi : id ∈ (s.after i).stepIDs) :
    id ∉ (s.after j).stepIDs := by
  obtain ⟨k, rfl⟩ : ∃ k, j = i + (k + 1) := ⟨j - i - 1, by omega⟩
  have hp : 1 ≤ (s.after i).iteration := by
    rw [Spec.after_iteration]
    omega
  intro hj
  rw [← Spec.after_after] at hj
  exact not_follows hp hi (follows_after hp hj)

theorem Spec.Read.after (h : s.Read lang) (k : ℕ) : (s.after k).Read lang := by
  induction k with
  | zero => exact h
  | succ k ih =>
    rw [Spec.after_succ]
    exact ih.next

end Dhole.Loop
