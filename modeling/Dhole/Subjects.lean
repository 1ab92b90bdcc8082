import Mathlib

/-! Subjects of a NATS server, and the ones its JetStream API is called by. A subject is a text
of tokens between dots. In a pattern `*` stands for one token and `>`, at the end, for one or
more. A request to JetStream is a message published on a subject that names the stream, and so
is an acknowledgement, so what a client can ask for is a matter of which subjects it may
publish on. -/

namespace Dhole.Subjects

def tokens (s : String) : List String := (s.toList.splitOn '.').map String.ofList

def matchTokens : List String → List String → Bool
  | [], [] => true
  | p :: ps, t :: ts => (p == ">" && ps.isEmpty) || ((p == "*" || p == t) && matchTokens ps ts)
  | _, _ => false

def matchSubject (pattern subject : String) : Bool :=
  matchTokens (tokens pattern) (tokens subject)

def permits (allow : List String) (subject : String) : Bool :=
  allow.any fun pattern => matchSubject pattern subject

theorem matchTokens_cons_iff {p : String} {ps l : List String} :
    matchTokens (p :: ps) l = true ↔ ∃ t ts, l = t :: ts ∧
      (p = ">" ∧ ps = [] ∨ (p = "*" ∨ p = t) ∧ matchTokens ps ts = true) := by
  cases l <;> simp [matchTokens]

theorem tokens_of_intercalate {s : String} {ts : List String} (hne : ts ≠ [])
    (hd : ∀ t ∈ ts, '.' ∉ t.toList) (hs : s = ".".intercalate ts) : tokens s = ts := by
  have hsp : s.toList.splitOn '.' = ts.map String.toList := by
    rw [hs, String.toList_intercalate]
    exact List.splitOn_intercalate '.' (by simpa using hd) (by simpa using hne)
  rw [tokens, hsp, List.map_map]
  exact (List.map_congr_left fun t _ => String.ofList_toList).trans (List.map_id' ts)

theorem tokens_append_dot (x y : String) : tokens (x ++ "." ++ y) = tokens x ++ tokens y := by
  have hc : (x ++ "." ++ y).toList = x.toList ++ '.' :: y.toList := by simp
  rw [tokens, hc, List.splitOn_append_cons_self, List.map_append, tokens, tokens]

/-! ### The JetStream API -/

/-- A request that creates a consumer on the stream: the create endpoint with nothing more, with
the name of the consumer, or with its name and its filter, and the older endpoint for durable
consumers. -/
def CreatesConsumer (stream subject : String) : Prop :=
  (∃ rest, tokens subject = ["$JS", "API", "CONSUMER", "CREATE", stream] ++ rest) ∨
    ∃ consumer, tokens subject =
      ["$JS", "API", "CONSUMER", "DURABLE", "CREATE", stream, consumer]

/-- A request for the next messages of a consumer of the stream. -/
def Pulls (stream subject : String) : Prop :=
  ∃ consumer, tokens subject = ["$JS", "API", "CONSUMER", "MSG", "NEXT", stream, consumer]

/-- An acknowledgement of a delivery of the stream: the stream, the consumer and five numbers of
the delivery, in the newer format after a domain and an account. -/
def Acknowledges (stream subject : String) : Prop :=
  ∃ consumer delivered stored sent time pending,
    tokens subject = ["$JS", "ACK", stream, consumer, delivered, stored, sent, time, pending] ∨
    ∃ domain account rest, tokens subject =
      ["$JS", "ACK", domain, account, stream, consumer, delivered, stored, sent, time, pending] ++
        rest

/-- A subject under which a client receives the answers to its requests, the messages of a pull
among them. -/
def IsInbox (subject : String) : Prop := ∃ t rest, tokens subject = "_INBOX" :: t :: rest

end Dhole.Subjects
