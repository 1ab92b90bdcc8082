import Dhole.Permit
import Dhole.Revisions

/-! What is pinned and what is looked up. A save pins the plugin references of a pipeline without
the blanks around them, while a plane that is about to place a step reads the lockfile at the
reference as the step has it. -/

namespace Dhole.Defstore

open Interleave Prog Lexical List

def resolved (tenantID ref : String) (d : Digest) : DefEvent :=
  ⟨.inr (.resolve tenantID ref), .ok (some d)⟩

def pinText (d : Digest) : String := d.algo ++ ":" ++ d.hex

/-- The lockfile of a revision; a reference that is not pinned reads as the empty text. -/
def pinOf (lockfile : List (String × String)) (ref : String) : String := (lockfile.lookup ref).getD ""

/-- What a plane looks up for the step is the digest that the save pinned for it. -/
def Found (tenantID : String) (h : List DefEvent) (f : Permit.Facts) : Prop :=
  ∃ d, resolved tenantID (trimSpace f.step.pluginRef) d ∈ h ∧ f.pinnedDigest = .ok (pinText d)

theorem mem_destutter {l : List String} {s : String} : s ∈ l.destutter (· ≠ ·) ↔ s ∈ l := by
  refine ⟨fun h => (destutter_sublist _ l).subset h, fun h => ?_⟩
  cases l with
  | nil => exact h
  | cons a l =>
    induction l generalizing a with
    | nil => exact h
    | cons b l ih =>
      rw [destutter_cons_cons]
      split <;> rename_i hab
      · rcases mem_cons.mp h with rfl | h
        · exact mem_cons_self
        · exact mem_cons_of_mem _ (ih b h)
      · obtain rfl := not_not.mp hab
        exact ih a (by simpa using h)

theorem mem_pluginRefs {p : Pipeline} {ref : String} :
    ref ∈ pluginRefs p ↔ (∃ s ∈ p.steps, trimSpace s.pluginRef = ref) ∧ ref ≠ "" := by
  simp [pluginRefs, mem_destutter, Dag.mem_sortStrings]

/-- Exactly the references asked for are pinned, each to what the resolver answered. -/
theorem wpe_resolveLockfile (tid : String) (refs : List String) (h : List DefEvent) :
    wpe (fun _ _ => True) (resolveLockfile tid refs) (fun k lockfile => ∀ ref,
      (ref ∈ refs → ∃ d, resolved tid ref d ∈ k ∧ lockfile.lookup ref = some (pinText d)) ∧
        (ref ∉ refs → lockfile.lookup ref = none)) h := by
  induction refs generalizing h with
  | nil => exact (wpe_pure _).mpr (by simp)
  | cons first refs ih =>
    refine wpe_perform_bind.mpr fun r => ⟨trivial, ?_⟩
    rcases (r : Except Text (Option Digest)) with cause | _ | d
    · exact wpe_throw _
    · exact wpe_throw _
    change wpe _ (if d.hex = "" then _ else _) _ _
    split
    · exact wpe_throw _
    refine wpe_bind.mpr (wpe_mono (ih _) fun g rest hr => (wpe_pure _).mpr fun ref => ?_)
    by_cases hre : ref = first
    · subst hre
      refine ⟨fun _ => ⟨d, ?_, by simp [pinText]⟩, fun hn => absurd mem_cons_self hn⟩
      exact mem_append_left _ (mem_append_right _ mem_cons_self)
    · simpa [hre, lookup_cons, beq_eq_false_iff_ne.mpr hre] using hr ref

/-- The digest of a step that names a plugin is found exactly if no blanks are around the name. -/
theorem pin_found_iff (tenantID : String) (p : Pipeline) :
    wpe (fun _ _ => True) (resolveLockfile tenantID (pluginRefs p)) (fun h lockfile =>
      ∀ f : Permit.Facts, f.step ∈ p.steps → trimSpace f.step.pluginRef ≠ "" →
        f.lockfile = .ok (pinOf lockfile) →
        (Found tenantID h f ↔ trimSpace f.step.pluginRef = f.step.pluginRef)) [] := by
  refine wpe_mono (wpe_resolveLockfile _ _ _) fun h lockfile hpn f hst hp hl => ?_
  obtain ⟨hpi, hu⟩ := hpn f.step.pluginRef
  have hpd : f.pinnedDigest = .ok (pinOf lockfile f.step.pluginRef) := by
    rw [Permit.Facts.pinnedDigest, hl]
    rfl
  rw [Found, hpd]
  constructor
  · rintro ⟨d, -, hd⟩
    by_cases hm : f.step.pluginRef ∈ pluginRefs p
    · obtain ⟨⟨s, -, hs⟩, -⟩ := mem_pluginRefs.mp hm
      rw [← hs, trimSpace, trimSpace, String.toList_ofList, trim_eq_self (tight_trim _ _)]
    · simp [pinOf, hu hm, pinText] at hd
  · intro ht
    obtain ⟨d, hd, hf⟩ :=
      hpi (mem_pluginRefs.mpr ⟨⟨f.step, hst, ht⟩, ht ▸ hp⟩)
    exact ⟨d, ht.symm ▸ hd, by simp [pinOf, hf]⟩

def lintStep : Step := { id := "lint", pluginRef := " acme/lint" }

def placingLint (lockfile : List (String × String)) : Permit.Facts where
  cfg := { ttl := 30 }
  tier := ""
  tenantID := "acme"
  revisionID := "r1"
  pipeline := { steps := [lintStep] }
  step := lintStep
  taint := ⟨fun _ => none, fun _ => []⟩
  lockfile := .ok (pinOf lockfile)
  provenance := ⟨none, none⟩
  fleet := []

theorem lint_pin_not_found :
    trimSpace lintStep.pluginRef ≠ "" ∧
    ¬ wpe (fun _ _ => True) (resolveLockfile "acme" (pluginRefs { steps := [lintStep] }))
      (fun h lockfile => Found "acme" h (placingLint lockfile)) [] := by
  have hr : pluginRefs { steps := [lintStep] } = ["acme/lint"] := by decide +kernel
  refine ⟨by decide, fun h => ?_⟩
  rw [hr] at h
  obtain ⟨d, -, hd⟩ := (wpe_perform_bind.mp h (.ok (some ⟨⟨"sha256", "ab"⟩, []⟩))).2 _ rfl
  have hn : (placingLint [("acme/lint", "sha256:ab")]).pinnedDigest = .ok "" := by decide +kernel
  simp [pinText, hn] at hd

end Dhole.Defstore
