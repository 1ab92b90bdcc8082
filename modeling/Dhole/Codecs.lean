import Dhole.Iterations
import Dhole.Lease
import Dhole.Subjects

/-! The texts of fences and lease keys. An identifier is written in base64, whose letters have no
dot, so the parts between the dots are read back as they were written. -/

namespace Dhole.Codecs

open List Wire Subjects Lease Loop

/-! ### Base64 -/

/-- The letters of `base64.RawURLEncoding`. -/
def alphabet : List Char :=
  "ABCDEFGHIJKLMNOPQRSTUVWXYZabcdefghijklmnopqrstuvwxyz0123456789-_".toList

def letter (n : ℕ) : Char := alphabet.getD (n % 64) 'A'

/-- Six bits a letter, and no padding. -/
def sextets : List ℕ → List ℕ
  | a :: b :: c :: rest =>
    a / 4 :: (a % 4 * 16 + b / 16) :: (b % 16 * 4 + c / 64) :: c % 64 :: sextets rest
  | [a, b] => [a / 4, a % 4 * 16 + b / 16, b % 16 * 4]
  | [a] => [a / 4, a % 4 * 16]
  | [] => []

def octets : List ℕ → Option (List ℕ)
  | w :: x :: y :: z :: rest => (octets rest).map fun bs =>
    (w * 4 + x / 16) :: (x % 16 * 16 + y / 4) :: (y % 4 * 64 + z) :: bs
  | [w, x, y] => some [w * 4 + x / 16, x % 16 * 16 + y / 4]
  | [w, x] => some [w * 4 + x / 16]
  | [_] => none
  | [] => some []

def encodeToString (b : Bytes) : String :=
  String.ofList ((sextets (b.map UInt8.toNat)).map letter)

/-- Line ends are passed over, and the bits left at the end are not looked at. -/
def decodeString (s : String) : Option Bytes := do
  let letters := s.toList.filter (· ∉ ['\r', '\n'])
  return (← octets (← letters.mapM alphabet.idxOf?)).map UInt8.ofNat

theorem octets_sextets {l : List ℕ} (h : ∀ n ∈ l, n < 256) :
    octets ((sextets l).map (· % 64)) = some l := by
  fun_induction sextets l with
  | case1 a b c rest ih =>
    simp only [forall_mem_cons] at h
    simp only [map_cons, octets, ih h.2.2.2, Option.map_some, Option.some.injEq, cons.injEq,
      and_true]
    omega
  | case2 a b => simp [octets] at h ⊢; omega
  | case3 a => simp [octets] at h ⊢; omega
  | case4 => rfl

theorem letter_spec (n : ℕ) : alphabet.idxOf? (letter n) = some (n % 64) ∧ letter n ≠ '.' ∧
    letter n ∉ ['\r', '\n'] := by
  have h : ∀ n < 64, alphabet.idxOf? (alphabet.getD n 'A') = some n ∧ alphabet.getD n 'A' ≠ '.' ∧
      alphabet.getD n 'A' ∉ ['\r', '\n'] := by decide +kernel
  exact h (n % 64) (by omega)

theorem mapM_letter (l : List ℕ) :
    (l.map letter).mapM alphabet.idxOf? = some (l.map (· % 64)) := by
  induction l with
  | nil => rfl
  | cons n l ih => simp [(letter_spec n).1, ih]

theorem decodeString_encodeToString (b : Bytes) : decodeString (encodeToString b) = some b := by
  have hf (l : List ℕ) : (l.map letter).filter (· ∉ ['\r', '\n']) = l.map letter :=
    filter_eq_self.mpr (by simpa using fun n _ => (letter_spec n).2.2)
  have hb : ∀ n ∈ b.map UInt8.toNat, n < 256 := by
    simp only [forall_mem_map]
    exact fun x _ => x.toNat_lt
  simp only [decodeString, encodeToString, String.toList_ofList, hf, mapM_letter]
  simp [octets_sextets hb, Function.comp_def]

theorem dot_not_mem_encodeToString (b : Bytes) : '.' ∉ (encodeToString b).toList := by
  rw [encodeToString, String.toList_ofList, mem_map]
  rintro ⟨n, -, h⟩
  exact (letter_spec n).2.1 h

/-! ### Fences and keys -/

structure Token where
  value : Bytes
  fence : UInt64

inductive FenceErr where
  | malformed
  | tenant
  | lease
  | fence

def fencePrefix : String := "dhole1"

def encodeFence (tenantID : Bytes) (t : Token) : String :=
  ".".intercalate [fencePrefix, encodeToString tenantID, encodeToString t.value,
    formatUint t.fence.toNat]

/-- `strconv.ParseUint(s, 10, 64)`. -/
def parseUint (s : String) : Option UInt64 :=
  ((decimal s.toList).filter (· < 2 ^ 64)).map UInt64.ofNat

def decodeFence (s : String) : Except FenceErr (Bytes × Token) :=
  match tokens s with
  | [first, tenant, value, fence] => do
    if first ≠ fencePrefix then throw .malformed
    let some tenant := decodeString tenant | throw .tenant
    let some value := decodeString value | throw .lease
    let some fence := parseUint fence | throw .fence
    return (tenant, ⟨value, fence⟩)
  | _ => throw .malformed

def claimKey (tenantID runID stepID : Bytes) : Except LeaseErr String :=
  if tenantID = [] then .error .tenantRequired
  else if runID = [] ∨ stepID = [] then .error .runAndStepRequired
  else .ok (".".intercalate
    ["lease", encodeToString tenantID, encodeToString runID, encodeToString stepID])

def idsOf (key : String) : Option (List Bytes) := ((tokens key).drop 1).mapM decodeString

theorem parseUint_formatUint (n : UInt64) : parseUint (formatUint n.toNat) = some n := by
  rw [parseUint, decimal_formatUint]
  simp [n.toNat_lt]

theorem tokens_dotted {f l : String} (hf : '.' ∉ f.toList) (hl : '.' ∉ l.toList) (b c : Bytes) :
    tokens (".".intercalate [f, encodeToString b, encodeToString c, l]) =
      [f, encodeToString b, encodeToString c, l] :=
  tokens_of_intercalate (by simp) (by simp [hf, hl, dot_not_mem_encodeToString]) rfl

theorem decodeFence_encodeFence (tenantID : Bytes) (t : Token) :
    decodeFence (encodeFence tenantID t) = .ok (tenantID, t) := by
  have hd : '.' ∉ (formatUint t.fence.toNat).toList := fun h => by
    cases isDigit_of_mem_formatUint h
  simp only [decodeFence, encodeFence, tokens_dotted (f := fencePrefix) (by decide) hd]
  simp [decodeString_encodeToString, parseUint_formatUint]
  rfl

theorem idsOf_claimKey {t r s : Bytes} {key : String} (h : claimKey t r s = .ok key) :
    idsOf key = some [t, r, s] := by
  unfold claimKey at h
  split_ifs at h
  cases h
  rw [idsOf, tokens_dotted (by decide) (dot_not_mem_encodeToString s)]
  simp [decodeString_encodeToString]

theorem codecs_injective :
    (∀ tenantID t, decodeFence (encodeFence tenantID t) = .ok (tenantID, t)) ∧
    (∀ t r s key, claimKey t r s = .ok key → idsOf key = some [t, r, s]) ∧
    ∀ t r s t' r' s' key, claimKey t r s = .ok key → claimKey t' r' s' = .ok key →
      (t, r, s) = (t', r', s') := by
  refine ⟨decodeFence_encodeFence, fun t r s key => idsOf_claimKey, ?_⟩
  intro t r s t' r' s' key h h'
  simpa using (idsOf_claimKey h).symm.trans (idsOf_claimKey h')

end Dhole.Codecs
