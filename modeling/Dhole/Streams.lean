import Dhole.RunLog

/-! The streams a viewer follows a run by. The events of the run are sent from the position the
viewer last saw, poll after poll, and the stream ends with the event that closes the run: only if
that event is sent, so that a viewer who has seen it already waits for ever. The log of a step is
live until the step is finished, which a second and smaller fold of the events decides: a status is
enough for it, whatever was dispatched since, and a lost attempt is none. -/

namespace Dhole.Streams

open List FirstMatch
open RunState (ofLog)

/-- An event as the store returns it. The log key is that of the status its payload is, if it is
one. -/
structure Stored extends Event where
  sequence : ℕ
  logKey : Option String := none
deriving DecidableEq

def terminal (e : Stored) : Bool := e.payload.closesRun

/-! ### The events of a run -/

/-- One pass over what a replay returned: what is sent, where that leaves off, and whether the
stream ends with it. -/
def pass (after : ℕ) : List Stored → List Stored × ℕ × Bool
  | [] => ([], after, false)
  | e :: events =>
    if e.sequence ≤ after then pass after events
    else if terminal e then ([e], e.sequence, true)
    else
      let (sent, after, ended) := pass e.sequence events
      (e :: sent, after, ended)

/-- What is sent over the replays that are made until the viewer leaves, and whether the stream
ended before. -/
def streamRunEvents (after : ℕ) : List (List Stored) → List Stored × Bool
  | [] => ([], false)
  | events :: replays =>
    let (sent, after, ended) := pass after events
    if ended then (sent, true)
    else
      let (more, ended) := streamRunEvents after replays
      (sent ++ more, ended)

variable {log us vs : List Stored} {t : Stored} {k : ℕ}

theorem pass_of_terminal (hl : (us ++ t :: vs).Pairwise (·.sequence < ·.sequence))
    (hus : ∀ e ∈ us, terminal e = false) (ht : terminal t = true) (hk : k < t.sequence) :
    pass k (us ++ t :: vs) = (us.filter (fun e => k < e.sequence) ++ [t], t.sequence, true) := by
  induction us generalizing k with
  | nil => simp [pass, hk, ht]
  | cons e us ih =>
    obtain ⟨he, hl⟩ := pairwise_cons.mp hl
    obtain ⟨hn, hus⟩ := forall_mem_cons.mp hus
    rw [cons_append, pass]
    by_cases hle : e.sequence ≤ k
    · rw [if_pos hle, ih hl hus hk, filter_cons_of_neg (by simpa using hle)]
    · -- everything after this event is beyond both positions
      have ha : us.filter (fun d => e.sequence < d.sequence) = us.filter fun d => k < d.sequence :=
        filter_congr fun d hd => by
          have := he d (mem_append_left _ hd)
          simp; omega
      rw [if_neg hle, hn, ih hl hus (he t (by simp)), ha,
        filter_cons_of_pos (by simpa using hle)]
      rfl

theorem sent_of_ended (h : (pass k log).2.2 = true) : (pass k log).1 ≠ [] := by
  induction log with
  | nil => cases h
  | cons e log ih =>
    rw [pass] at h ⊢
    split at h
    · rw [if_pos ‹_›]
      exact ih h
    · rw [if_neg ‹_›]
      split <;> simp

/-- A viewer is sent what it has not seen, up to the event that closes the run, and the stream
ends, exactly if it has not seen that event. -/
theorem resume_exact_iff (hlog : log.Pairwise (·.sequence < ·.sequence))
    (ht : log.find? terminal = some t) (k : ℕ) : (∀ replays, streamRunEvents k (log :: replays) =
      (log.filter fun e => k < e.sequence ∧ e.sequence ≤ t.sequence, true)) ↔ k < t.sequence := by
  obtain ⟨hte, us, vs, rfl, hus⟩ := find?_eq_some_iff_append.mp ht
  obtain ⟨hb, ha, hm⟩ := pairwise_append.mp hlog
  constructor
  · intro h
    by_contra hk
    have hn : ((us ++ t :: vs).filter fun e => k < e.sequence ∧ e.sequence ≤ t.sequence) = [] :=
      filter_eq_nil_iff.mpr fun e _ => by simp; omega
    have hpa := h []
    rcases hp : pass k (us ++ t :: vs) with ⟨sent, after, ended⟩
    rw [hn, streamRunEvents, hp] at hpa
    cases ended with
    | false => simp [streamRunEvents] at hpa
    | true => exact sent_of_ended (by rw [hp]) (by simpa [hp] using hpa)
  · intro hk replays
    have hpa := pass_of_terminal hlog (fun e he => by simpa using hus e he) hte hk
    have hle : us.filter (fun e => k < e.sequence) =
        us.filter fun e => k < e.sequence ∧ e.sequence ≤ t.sequence :=
      filter_congr fun e he => by simp [(hm e he t mem_cons_self).le]
    have hgt : (vs.filter fun e => k < e.sequence ∧ e.sequence ≤ t.sequence) = [] :=
      filter_eq_nil_iff.mpr fun e he => by
        have := (pairwise_cons.mp ha).1 e he
        simp; omega
    rw [streamRunEvents, hpa, filter_append, filter_cons_of_pos (by simp [hk]), hgt, hle]
    rfl

def finished : List Stored :=
  [{ payload := .runCreated "ci" "r1", at_ := 0, sequence := 1 },
    { payload := .runCompleted, at_ := 1, sequence := 2 }]

theorem second_event_resumed : streamRunEvents 1 [finished] = (finished.drop 1, true) :=
  (resume_exact_iff (t := ⟨⟨"", 0, .runCompleted, 1⟩, 2, none⟩) (by simp [finished]) rfl 1).mpr
    (by decide) []

theorem seen_end_not_ended : streamRunEvents 2 [finished, finished] = ([], false) := rfl

/-! ### The log of a step -/

def isStatus (stepID : String) (e : Stored) : Bool :=
  e.stepID = stepID && match e.payload with
    | .stepSucceeded _ | .stepFailed => true
    | _ => false

def Stored.key? (e : Stored) : Option String := e.logKey.filter (· ≠ "")

def logKeyFor (events : List Stored) (stepID : String) : String × Bool :=
  events.foldl (fun found e =>
    if isStatus stepID e then (e.key?.getD found.1, true) else found) ("", false)

def keys (events : List Stored) : List String := events.filterMap Stored.key?

def lastKey (events : List Stored) : String := (keys events).getLast?.getD ""

def fold (events : List Stored) : RunState := ofLog (events.map Stored.toEvent)

def reported (events : List Stored) (id : String) : String :=
  lastKey (events.filter fun e => isStatus id e && e.attempt = (fold events).attempts id)

def latest (events : List Stored) (id : String) : ℕ :=
  (dispatchedAttempts (events.map Stored.toEvent) id).foldl max 0

/-- A status of the step that carries a log key and is of an attempt that counts. -/
def Keyed (id : String) (counts : ℕ → Prop) (_ : List Stored) (e : Stored) : Prop :=
  isStatus id e = true ∧ counts e.attempt ∧ e.key?.isSome

/-- The scheduler holds a verdict on the step, and it is on the latest attempt. -/
def Decided (events : List Stored) (id : String) : Prop :=
  (fold events).terminal id ≠ none ∧
    ∃ d, LastWord (events.map Stored.toEvent) id d ∧ d.attempt = (fold events).attempts id

/-- What the last word on the step has to be with the statuses there are: none where it is a
dispatch; some where it is the loss of the latest attempt, and only there; and a status is itself of
the latest attempt. -/
def ToldAlike (events : List Stored) (id : String) (d : Event) : Prop :=
  match d.payload with
  | .stepDispatched _ => ∀ e ∈ events, isStatus id e = false
  | .stepAttemptLost _ => (∃ e ∈ events, isStatus id e = true) ↔ d.attempt = latest events id
  | _ => d.attempt = latest events id

variable {es : List Stored} {e : Stored} {id : String}

theorem lastKey_snoc (es : List Stored) (e : Stored) :
    lastKey (es ++ [e]) = e.key?.getD (lastKey es) := by
  cases hk : e.key? <;> simp [lastKey, keys, hk]

theorem logKeyFor_eq (es : List Stored) (id : String) : logKeyFor es id =
    (lastKey (es.filter (isStatus id)), es.any (isStatus id)) := by
  induction es using reverseRecOn with
  | nil => rfl
  | append_singleton es e ih =>
    rw [logKeyFor, foldl_concat, ← logKeyFor, ih, filter_append, any_append]
    cases he : isStatus id e with
    | false => simp [he]
    | true => simp only [he, if_true, filter_cons_of_pos, filter_nil, lastKey_snoc, any_cons,
        Bool.true_or, Bool.or_true]

theorem getLast?_keys_iff (counts : ℕ → Prop) [DecidablePred counts] {key : String} :
    (keys (es.filter fun e => isStatus id e && counts e.attempt)).getLast? = some key ↔
      ∃ e, LastPick (Keyed id counts) es e ∧ e.key? = some key := by
  induction es using reverseRecOn with
  | nil => simp [keys, not_lastPick_nil]
  | append_singleton es e ih =>
    simp only [lastPick_concat, Keyed, filter_append, keys] at ih ⊢
    by_cases hs : isStatus id e = true ∧ counts e.attempt
    · cases hk : e.key? with
      | none => simpa [hs, hk] using ih
      | some key => simp [hs, hk]
    · have hn : (isStatus id e && decide (counts e.attempt)) = false := by simpa using hs
      have hn' : ¬ (isStatus id e = true ∧ counts e.attempt ∧ e.key?.isSome = true) :=
        fun h => hs ⟨h.1, h.2.1⟩
      simpa [hn, hn'] using ih

theorem speaks_of_isStatus (h : isStatus id e = true) (log : Log) : Speaks id log e.toEvent := by
  obtain ⟨⟨sid, att, pa, at_⟩, n, lo⟩ := e
  cases pa <;> simp_all [isStatus, Speaks]

theorem exists_lastWord (he : e ∈ es) (h : isStatus id e = true) :
    ∃ d, LastWord (es.map Stored.toEvent) id d := by
  induction es using reverseRecOn with
  | nil => cases he
  | append_singleton es f ih =>
    simp only [LastWord, map_append, map_singleton, lastPick_concat]
    by_cases hf : Speaks id (es.map Stored.toEvent) f.toEvent
    · exact ⟨_, .inl ⟨hf, rfl⟩⟩
    · obtain he | he := mem_append.mp he
      · obtain ⟨d, hd⟩ := ih he
        exact ⟨d, .inr ⟨hf, hd⟩⟩
      · exact absurd (mem_singleton.mp he ▸ speaks_of_isStatus h _) hf

/-- Whether the step has a status says whether the verdict on its latest attempt stands, exactly if
the last word on it is told alike. -/
theorem decided_iff : ((∃ e ∈ es, isStatus id e = true) ↔ Decided es id) ↔
    ∀ d, LastWord (es.map Stored.toEvent) id d → ToldAlike es id d := by
  by_cases hw : ∃ d, LastWord (es.map Stored.toEvent) id d
  · obtain ⟨d, hd⟩ := hw
    have ht : Decided es id ↔ d.payload.verdict?.isSome ∧ d.attempt = latest es id := by
      have hl : (fold es).attempts id = latest es id := attempts_ofLog _ _
      rw [Decided, Option.ne_none_iff_exists', hl, Option.isSome_iff_exists]
      refine and_congr (exists_congr fun v => ?_) ?_
      · refine terminal_iff_lastWord.trans ⟨?_, fun hv => ⟨d, hd, hv⟩⟩
        rintro ⟨f, hf, hv⟩
        exact hd.eq hf ▸ hv
      · refine ⟨?_, fun ha => ⟨d, hd, ha⟩⟩
        rintro ⟨f, hf, ha⟩
        exact hd.eq hf ▸ ha
    have hr : (∀ f, LastWord (es.map Stored.toEvent) id f → ToldAlike es id f) ↔
        ToldAlike es id d := ⟨fun h => h d hd, fun h f hf => hd.eq hf ▸ h⟩
    obtain ⟨us, vs, heq, ⟨hid, hs⟩, -⟩ := hd
    obtain ⟨e, he, rfl⟩ : ∃ e ∈ es, e.toEvent = d := mem_map.mp (heq ▸ by simp)
    rw [ht, hr, ToldAlike]
    cases hp : e.payload <;> simp only [hp] at hs ⊢
    case stepDispatched => simp [Payload.verdict?]
    case stepAttemptLost => simp [Payload.verdict?]
    case stepSucceeded | stepFailed =>
      have ht : ∃ e ∈ es, isStatus id e = true := ⟨e, he, by simp [isStatus, hid, hp]⟩
      simp [ht, Payload.verdict?]
  · have hn : ¬ ∃ e ∈ es, isStatus id e = true := by
      rintro ⟨e, he, h⟩
      exact hw (exists_lastWord he h)
    exact iff_of_true (iff_of_false hn fun h => hw (h.2.imp fun _ => And.left)) fun d hd =>
      absurd ⟨d, hd⟩ hw

/-- The last key of a step that has a status is the one its latest attempt reported, exactly if the
last status with a key is of that attempt or has the key that attempt gave last. -/
theorem lastKey_iff : ((∃ e ∈ es, isStatus id e = true) →
      lastKey (es.filter (isStatus id)) = reported es id) ↔
    ∀ e, LastPick (Keyed id fun _ => True) es e → e.attempt = latest es id ∨
      ∃ f, LastPick (Keyed id (· = latest es id)) es f ∧ f.key? = e.key? := by
  have ha (key : String) : (keys (es.filter (isStatus id))).getLast? = some key ↔
      ∃ e, LastPick (Keyed id fun _ => True) es e ∧ e.key? = some key := by
    simpa using getLast?_keys_iff (fun _ => True)
  have hla {key : String} := @getLast?_keys_iff es id (· = latest es id) _ key
  rw [reported, show (fold es).attempts id = latest es id from attempts_ofLog _ _, lastKey, lastKey]
  constructor
  · intro h e he
    have ⟨us, vs, heq, ⟨hs, _, hk⟩, _⟩ := he
    obtain ⟨key, hk⟩ := Option.isSome_iff_exists.mp hk
    have hr := h ⟨e, by simp [heq], hs⟩
    rw [(ha key).mpr ⟨e, he, hk⟩] at hr
    cases hl : (keys (es.filter fun e => isStatus id e && e.attempt = latest es id)).getLast?
      with
    | none =>
      obtain rfl : key = "" := by simpa [hl] using hr
      simp [Stored.key?] at hk
    | some key' =>
      obtain rfl : key = key' := by simpa [hl] using hr
      obtain ⟨f, hf, hfk⟩ := hla.mp hl
      exact .inr ⟨f, hf, hfk.trans hk.symm⟩
  · intro h _
    cases hk : (keys (es.filter (isStatus id))).getLast? with
    | none =>
      have hn : keys (es.filter (isStatus id)) = [] := getLast?_eq_none_iff.mp hk
      have hr : keys (es.filter fun e => isStatus id e && e.attempt = latest es id) = [] := by
        simp only [keys, filterMap_eq_nil_iff, mem_filter, Bool.and_eq_true] at hn ⊢
        exact fun e he => hn e ⟨he.1, he.2.1⟩
      simp [hr]
    | some key =>
      obtain ⟨e, he, hek⟩ := (ha key).mp hk
      obtain hat | ⟨f, hf, hfk⟩ := h e he
      · obtain ⟨us, vs, heq, ⟨hs, -, hsome⟩, hn⟩ := he
        have hl : LastPick (Keyed id (· = latest es id)) es e :=
          ⟨us, vs, heq, ⟨hs, hat, hsome⟩, fun ws b zs hb hk => hn ws b zs hb ⟨hk.1, trivial, hk.2.2⟩⟩
        rw [hla.mpr ⟨e, hl, hek⟩]
      · rw [hla.mpr ⟨f, hf, hfk.trans hek⟩]

/-- The step is finished to the viewer exactly if the scheduler holds a verdict on its latest
attempt, and the key is then the one that attempt reported, exactly if the last word on the step is
told alike, and the last status with a key is of the latest attempt or has the key that the latest
attempt gave last. -/
theorem logKeyFor_iff (events : List Stored) (id : String) :
    ((logKeyFor events id).2 = true ↔ Decided events id) ∧
      ((logKeyFor events id).2 = true → (logKeyFor events id).1 = reported events id) ↔
    (∀ d, LastWord (events.map Stored.toEvent) id d → ToldAlike events id d) ∧
      ∀ e, LastPick (Keyed id fun _ => True) events e → e.attempt = latest events id ∨
        ∃ f, LastPick (Keyed id (· = latest events id)) events f ∧ f.key? = e.key? := by
  rw [logKeyFor_eq, any_eq_true]
  exact and_congr decided_iff lastKey_iff

def retried : List Stored :=
  [{ stepID := "s", attempt := 1, payload := .stepDispatched ⟨1, false⟩, at_ := 0, sequence := 1 },
    { stepID := "s", attempt := 1, payload := .stepFailed, at_ := 1, sequence := 2, logKey := "a" },
    { stepID := "s", attempt := 2, payload := .stepDispatched ⟨2, false⟩, at_ := 2, sequence := 3 }]

theorem retry_taken_for_done :
    logKeyFor retried "s" = ("a", true) ∧ (fold retried).terminal "s" = none := by
  decide

end Dhole.Streams
