import Dhole.Routing
import Dhole.Subjects

/-! What the bus lets an engine of a trust tier do. The credentials of a tier are two lists of
subject patterns into which the name of the tier is spelled, once as a token of the dispatch
subjects and once inside the name of the tier's dispatch stream. The names of the consumers of
a stream cannot be narrowed by a pattern, so the separation of the tiers rests on the token of
the stream wherever a subject has one. -/

namespace Dhole.Bus

open Subjects Routing List

/-! ### Subjects and streams -/

def subjectDispatchWildcard (tier : String) : String := "job.dispatch." ++ tier ++ ".>"

def subjectEngineRegistration : String := "engine.registration"

def subjectSecretRedeem : String := "secret.redeem"

def subjectSecretRedeemFor (tenantID : String) : String := subjectSecretRedeem ++ "." ++ tenantID

def subjectAcceptWildcard : String := "job.accept.>"

def tierRefusal (tier : String) : Text :=
  if tier = "" then ["bus: tier: empty"]
  else if hasForbidden tier then
    ["bus: tier ", .quoted tier, ": must be a single subject token and a legal ",
      "JetStream stream name: no '.', '*', '>', '/', '\\' or whitespace"]
  else ["bus: tier ", .quoted tier, ": too long, the stream name ", .quoted "DISPATCH_", tier,
    " would exceed 255 bytes"]

def dispatchStreamName (tier : String) : Except Text String :=
  if validTierToken tier then .ok ("DISPATCH_" ++ tier) else .error (tierRefusal tier)

def validTenantToken (tenantID : String) : Except Text Unit :=
  if tenantID = "" then
    .error ["bus: tenant: empty; a tier credential belongs to exactly one tenant"]
  else if hasForbidden tenantID then
    .error ["bus: tenant ", .quoted tenantID, ": must be a single subject token: ",
      "no '.', '*', '>', '/', '\\' or whitespace"]
  else .ok ()

/-! ### Permissions -/

structure Permissions where
  publish : List String
  subscribe : List String

def tierPermissionsConsumerAPI (tier stream : String) : List String :=
  ["$JS.API.CONSUMER.CREATE." ++ stream ++ ".*." ++ subjectDispatchWildcard tier,
    "$JS.API.CONSUMER.MSG.NEXT." ++ stream ++ ".*",
    "$JS.API.CONSUMER.INFO." ++ stream ++ ".*"]

/-- The permissions of a tier's engines. A name that is no stream name counts as no name. -/
def tierPermissionsOf (tenantID tier : String) : Permissions :=
  let stream := (dispatchStreamName tier).toOption.getD ""
  { publish :=
      ["job.status.>", "job.logs.>", "engine.heartbeat.>", subjectEngineRegistration,
        subjectSecretRedeemFor tenantID, subjectSecretRedeem, subjectAcceptWildcard,
        "$JS.API.STREAM.INFO.>", "$JS.API.STREAM.NAMES", "$JS.ACK.>", "_INBOX.>"] ++
      tierPermissionsConsumerAPI tier stream
    subscribe := [subjectDispatchWildcard tier, "engine.control.>", "_INBOX.>"] }

def tierPermissions (tenantID tier : String) : Except Text Permissions := do
  validTenantToken tenantID
  if validTierToken tier then .ok (tierPermissionsOf tenantID tier)
  else .error (tierRefusal tier)

variable {tenant ten tier a b : String} {perms : Permissions} {subject : String}

theorem validTenantToken_ok (h : validTenantToken ten = .ok ()) : '.' ∉ ten.toList := by
  unfold validTenantToken at h
  split_ifs at h with he ha
  intro hd
  exact ha (any_eq_true.mpr ⟨'.', hd, by decide⟩)

theorem stream_injective (h : "DISPATCH_" ++ a = "DISPATCH_" ++ b) : a = b := by
  have hc := congrArg String.toList h
  rw [String.toList_append, String.toList_append] at hc
  exact String.toList_injective (append_cancel_left hc)

theorem stream_ne_star : "DISPATCH_" ++ a ≠ "*" := by
  intro h
  have hc := congrArg String.toList h
  rw [String.toList_append] at hc
  cases hc

theorem permits_iff {allow : List String} : permits allow subject = true ↔
      ∃ pattern ∈ allow.map tokens, matchTokens pattern (tokens subject) = true := by
  simp [permits, matchSubject]

theorem tokens_subscribe (ht : '.' ∉ tier.toList) :
    (tierPermissionsOf ten tier).subscribe.map tokens =
      [["job", "dispatch", tier, ">"], ["engine", "control", ">"], ["_INBOX", ">"]] := by
  have hd : tokens (subjectDispatchWildcard tier) = ["job", "dispatch", tier, ">"] :=
    tokens_of_intercalate (by simp) (by simpa using ht)
      (String.toList_injective (by simp [subjectDispatchWildcard]))
  simp only [tierPermissionsOf, map_cons, hd]
  rfl

/-- The patterns an engine of the tier may publish on, token by token. -/
theorem tokens_publish (hte : '.' ∉ ten.toList) (ht : validTierToken tier = true) :
    (tierPermissionsOf ten tier).publish.map tokens =
      [["job", "status", ">"], ["job", "logs", ">"], ["engine", "heartbeat", ">"],
        ["engine", "registration"], ["secret", "redeem", ten], ["secret", "redeem"],
        ["job", "accept", ">"], ["$JS", "API", "STREAM", "INFO", ">"],
        ["$JS", "API", "STREAM", "NAMES"], ["$JS", "ACK", ">"], ["_INBOX", ">"],
        ["$JS", "API", "CONSUMER", "CREATE", "DISPATCH_" ++ tier, "*", "job", "dispatch", tier, ">"],
        ["$JS", "API", "CONSUMER", "MSG", "NEXT", "DISPATCH_" ++ tier, "*"],
        ["$JS", "API", "CONSUMER", "INFO", "DISPATCH_" ++ tier, "*"]] := by
  have hd := dot_notMem_of_valid ht
  have hr : tokens (subjectSecretRedeemFor ten) = ["secret", "redeem", ten] :=
    tokens_of_intercalate (by simp) (by simpa using hte)
      (String.toList_injective (by simp [subjectSecretRedeemFor, subjectSecretRedeem]))
  have hc : tokens ("$JS.API.CONSUMER.CREATE." ++ ("DISPATCH_" ++ tier) ++ ".*." ++
      subjectDispatchWildcard tier) = ["$JS", "API", "CONSUMER", "CREATE", "DISPATCH_" ++ tier,
        "*", "job", "dispatch", tier, ">"] :=
    tokens_of_intercalate (by simp) (by simpa using hd)
      (String.toList_injective (by simp [subjectDispatchWildcard]))
  have hn : tokens ("$JS.API.CONSUMER.MSG.NEXT." ++ ("DISPATCH_" ++ tier) ++ ".*") =
      ["$JS", "API", "CONSUMER", "MSG", "NEXT", "DISPATCH_" ++ tier, "*"] :=
    tokens_of_intercalate (by simp) (by simpa using hd) (String.toList_injective (by simp))
  have hi : tokens ("$JS.API.CONSUMER.INFO." ++ ("DISPATCH_" ++ tier) ++ ".*") =
      ["$JS", "API", "CONSUMER", "INFO", "DISPATCH_" ++ tier, "*"] :=
    tokens_of_intercalate (by simp) (by simpa using hd) (String.toList_injective (by simp))
  simp only [tierPermissionsOf, dispatchStreamName, ht, if_true, Except.toOption, Option.getD_some,
    tierPermissionsConsumerAPI, map_append, map_cons, hr, hc,
    hn, hi]
  rfl

/-! ### Separation of the tiers -/

/-- A message on the subject makes a consumer on the tier's dispatch stream, takes work from it
or settles a delivery of it. -/
def Interferes (tier subject : String) : Prop :=
  CreatesConsumer ("DISPATCH_" ++ tier) subject ∨ Pulls ("DISPATCH_" ++ tier) subject ∨
    Acknowledges ("DISPATCH_" ++ tier) subject

/-- A subscription to the subject sees the tier's dispatches: they are published under it, or
it is one to an inbox, on which the server answers a pull. -/
def CarriesDispatches (tier subject : String) : Prop :=
  (∃ capsHash, matchSubject subject (subjectDispatch tier capsHash) = true) ∨
    (∃ capsHash kind, matchSubject subject (subjectDispatchKind tier capsHash kind) = true) ∨
    IsInbox subject

section Separation

variable (h : tierPermissions ten a = .ok perms)

include h

theorem tierPermissions_ok : validTenantToken ten = .ok () ∧ validTierToken a = true ∧
      perms = tierPermissionsOf ten a := by
  unfold tierPermissions at h
  cases ht : validTenantToken ten with
  | error e => simp [ht, bind, Except.bind] at h
  | ok _ =>
    simp only [ht, bind, Except.bind] at h
    split_ifs at h with hti
    exact ⟨rfl, hti, (Except.ok.inj h).symm⟩

theorem not_createsConsumer (hne : a ≠ b) (ha : permits perms.publish subject = true) :
    ¬ CreatesConsumer ("DISPATCH_" ++ b) subject := by
  obtain ⟨ht, hti, rfl⟩ := tierPermissions_ok h
  have hs : "DISPATCH_" ++ a ≠ "DISPATCH_" ++ b := fun heq => hne (stream_injective heq)
  rw [permits_iff, tokens_publish (validTenantToken_ok ht) hti] at ha
  rintro (⟨rest, hx⟩ | ⟨co, hx⟩) <;> simp [hx, matchTokens, hs, stream_ne_star] at ha

theorem not_pulls (hne : a ≠ b)
    (ha : permits perms.publish subject = true) : ¬ Pulls ("DISPATCH_" ++ b) subject := by
  obtain ⟨ht, hti, rfl⟩ := tierPermissions_ok h
  have hs : "DISPATCH_" ++ a ≠ "DISPATCH_" ++ b := fun heq => hne (stream_injective heq)
  rw [permits_iff, tokens_publish (validTenantToken_ok ht) hti] at ha
  rintro ⟨co, hx⟩
  simp [hx, matchTokens, hs, stream_ne_star] at ha

theorem permits_ack {t : String} {rest : List String}
    (hx : tokens subject = "$JS" :: "ACK" :: t :: rest) : permits perms.publish subject = true := by
  obtain ⟨ht, hti, rfl⟩ := tierPermissions_ok h
  rw [permits_iff, tokens_publish (validTenantToken_ok ht) hti]
  exact ⟨["$JS", "ACK", ">"], by simp, by simp [hx, matchTokens]⟩

omit h

theorem tokens_subjectDispatch (hb : '.' ∉ b.toList) (capsHash : String) :
    tokens (subjectDispatch b capsHash) = ["job", "dispatch", b] ++ tokens capsHash := by
  have hh : tokens ("job.dispatch." ++ b) = ["job", "dispatch", b] :=
    tokens_of_intercalate (by simp) (by simpa using hb) (String.toList_injective (by simp))
  rw [subjectDispatch, tokens_append_dot, hh]

theorem not_permits_dispatch (h : tierPermissions ten a = .ok perms) (hne : a ≠ b)
    {dispatch : String} {ts : List String} (hd : tokens dispatch = ["job", "dispatch", b] ++ ts)
    (hse : matchSubject subject dispatch = true) : permits perms.subscribe subject = false := by
  obtain ⟨-, ht, rfl⟩ := tierPermissions_ok h
  have hst : a ≠ "*" := by
    rintro rfl
    exact absurd ht (by decide)
  rw [← Bool.not_eq_true, permits_iff, tokens_subscribe (dot_notMem_of_valid ht)]
  rw [matchSubject, hd] at hse
  -- whichever pattern allows the subscription, its tokens give those of the subscription
  rintro ⟨pa, hp, ha⟩
  simp only [mem_cons, not_mem_nil, or_false] at hp
  rcases hp with rfl | rfl | rfl
  · simp only [matchTokens_cons_iff, String.reduceEq, reduceCtorEq, and_false, false_or, hst] at ha
    obtain ⟨_, _, hs, rfl, _, _, rfl, rfl, _, _, rfl, rfl, _, _, rfl, -⟩ := ha
    simp [hs, matchTokens, hne, hst] at hse
  all_goals
    simp only [matchTokens_cons_iff, String.reduceEq, reduceCtorEq, and_false, false_or] at ha
    obtain ⟨_, _, hs, rfl, -⟩ := ha
    simp [hs, matchTokens] at hse

/-- Of what an engine of one tier may publish, only an acknowledgement of a delivery of another
tier's stream acts on that stream, and of what it may subscribe to, only an inbox carries that
tier's dispatches. -/
theorem tier_separation_iff (h : tierPermissions tenant a = .ok perms)
    (hb : validTierToken b = true) (hne : a ≠ b) (subject : String) :
    (permits perms.publish subject = true →
        (¬ Interferes b subject ↔ ¬ Acknowledges ("DISPATCH_" ++ b) subject)) ∧
      (permits perms.subscribe subject = true →
        (¬ CarriesDispatches b subject ↔ ¬ IsInbox subject)) := by
  constructor
  · intro ha
    have hcr := not_createsConsumer h hne ha
    have hp := not_pulls h hne ha
    simp only [Interferes, hcr, hp, false_or]
  · intro ha
    have hu {dispatch : String} {ts : List String}
        (hd : tokens dispatch = ["job", "dispatch", b] ++ ts) :
        matchSubject subject dispatch ≠ true := fun hs => by
      rw [not_permits_dispatch h hne hd hs] at ha
      cases ha
    have hdo := dot_notMem_of_valid hb
    constructor
    · exact fun hc hi => hc (.inr (.inr hi))
    · rintro hi (⟨capsHash, hs⟩ | ⟨capsHash, kind, hs⟩ | hin)
      · exact hu (tokens_subjectDispatch hdo capsHash) hs
      · refine @hu _ (tokens capsHash ++ tokens kind) ?_ hs
        rw [subjectDispatchKind, tokens_append_dot, tokens_subjectDispatch hdo, append_assoc]
      · exact hi hin

theorem untrusted_separation : ∃ perms, tierPermissions "acme" "untrusted" = .ok perms ∧
    permits perms.publish "job.status.run_1.build" = true ∧
    ¬ Interferes "trusted" "job.status.run_1.build" ∧
    permits perms.subscribe "job.dispatch.untrusted.0f" = true ∧
    ¬ CarriesDispatches "trusted" "job.dispatch.untrusted.0f" := by
  have hok : tierPermissions "acme" "untrusted" = .ok (tierPermissionsOf "acme" "untrusted") := rfl
  have hp : permits (tierPermissionsOf "acme" "untrusted").publish
      "job.status.run_1.build" = true := by decide
  have hs : permits (tierPermissionsOf "acme" "untrusted").subscribe
      "job.dispatch.untrusted.0f" = true := by decide
  have hst : tokens "job.status.run_1.build" = ["job", "status", "run_1", "build"] := by decide
  have hd : tokens "job.dispatch.untrusted.0f" = ["job", "dispatch", "untrusted", "0f"] := by
    decide
  refine ⟨_, hok, hp, ?_, hs, ?_⟩
  · refine ((tier_separation_iff hok rfl (by decide) _).1 hp).mpr ?_
    simp [Acknowledges, hst]
  · refine ((tier_separation_iff hok rfl (by decide) _).2 hs).mpr ?_
    simp [IsInbox, hd]

/-- An engine of one tier may acknowledge a delivery of another tier's stream, and listen on the
inbox its work is delivered to. -/
theorem untrusted_acknowledges_trusted : ∃ perms,
    tierPermissions "acme" "untrusted" = .ok perms ∧ validTierToken "trusted" = true ∧
    permits perms.publish "$JS.ACK.DISPATCH_trusted.engines.1.7.3.1700000000.0" = true ∧
    Interferes "trusted" "$JS.ACK.DISPATCH_trusted.engines.1.7.3.1700000000.0" ∧
    permits perms.subscribe "_INBOX.q1.2" = true ∧ CarriesDispatches "trusted" "_INBOX.q1.2" := by
  have hok : tierPermissions "acme" "untrusted" = .ok (tierPermissionsOf "acme" "untrusted") := rfl
  have ha : tokens "$JS.ACK.DISPATCH_trusted.engines.1.7.3.1700000000.0" =
      ["$JS", "ACK", "DISPATCH_trusted", "engines", "1", "7", "3", "1700000000", "0"] := by decide
  have hi : tokens "_INBOX.q1.2" = ["_INBOX", "q1", "2"] := by decide
  exact ⟨_, hok, rfl, permits_ack hok ha, .inr (.inr ⟨_, _, _, _, _, _, .inl ha⟩), by decide,
    .inr (.inr ⟨_, _, hi⟩)⟩

end Separation

end Dhole.Bus
