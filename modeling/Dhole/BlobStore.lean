import Dhole.Lexical
import Dhole.Paths
import Dhole.Wire

/-! Where the two blob stores keep a tenant's blob. The location is the tenant and the key joined
as a path, and joining cleans: a key may name a blob in several ways, since single dots are
accepted and dropped. The file store takes a tenant that is one segment only, which keeps tenants
apart; the bucket takes any, and there a tenant can hold segments of another's keys. -/

namespace Dhole.Blobstore

open Lexical Paths Wire List

/-! ### Locations -/

def marks : Marks Char where
  sep := '/'
  dot := '.'
  sep_ne_dot := by decide

/-- Joining as the standard library's `path` and, on Unix, `filepath` do. -/
def joinPath (elems : List String) : String :=
  String.ofList (marks.join (elems.map String.toList))

inductive KeyErr where
  | empty (what : String)
  | forbidden (what value : String)
  | absolute (key : String)
  | upward (key : String)
  | emptySegment (key : String)
  | notASegment (tenantID : String)

def validSegment (what value : String) : Except KeyErr Unit :=
  if value = "" then .error (.empty what)
  else if '\x00' ∈ value.toList ∨ '\\' ∈ value.toList then .error (.forbidden what value)
  else .ok ()

/-- The first segment of a key that is refused. -/
def checkParts (key : String) : List (List Char) → Except KeyErr Unit
  | [] => .ok ()
  | part :: parts =>
    if part = ['.', '.'] then .error (.upward key)
    else if part = [] then .error (.emptySegment key)
    else checkParts key parts

def objectPath (tenantID key : String) : Except KeyErr String := do
  validSegment "tenant" tenantID
  validSegment "key" key
  if key.toList.head? = some '/' then throw (.absolute key)
  else
    checkParts key (marks.segments key.toList)
    pure (joinPath [tenantID, key])

def validTenant (tenantID : String) : Except KeyErr Unit := do
  validSegment "tenant" tenantID
  if tenantID = ".." ∨ tenantID = "." ∨ '/' ∈ tenantID.toList then throw (.notASegment tenantID)
  else pure ()

inductive Backend where
  | filesystem (root : String)
  | s3

def filesystemPath (root tenantID key : String) : Except KeyErr String := do
  let rel ← objectPath tenantID key
  validTenant tenantID
  pure (joinPath [root, rel])

structure Place where
  tenantID : String
  key : String
deriving DecidableEq

def Backend.locate : Backend → Place → Except KeyErr String
  | .filesystem root, x => filesystemPath root x.tenantID x.key
  | .s3, x => objectPath x.tenantID x.key

def Backend.Accepts (b : Backend) (x : Place) : Prop := ∃ loc, b.locate x = .ok loc

/-! ### The stores -/

abbrev Blobs := String → Option Bytes

inductive StoreErr where
  | invalid (err : KeyErr)
  | notFound

inductive Call where
  | write (body : Bytes)
  | read
  | url
  | delete

inductive Answer where
  | done
  | bytes (body : Bytes)
  | link (location : String)

def Backend.exec (b : Backend) (blobs : Blobs) (x : Place) (call : Call) :
    Except StoreErr Answer × Blobs :=
  match b.locate x with
  | .error err => (.error (.invalid err), blobs)
  | .ok loc =>
    match call with
    | .write body => (.ok .done, Function.update blobs loc (some body))
    | .url => (.ok (.link loc), blobs)
    | .read =>
      match blobs loc with
      | none => (.error .notFound, blobs)
      | some body => (.ok (.bytes body), blobs)
    | .delete =>
      match blobs loc with
      | none => (.error .notFound, blobs)
      | some _ => (.ok .done, Function.update blobs loc none)

/-- No call at one place is seen at the other. -/
def Backend.Separate (b : Backend) (x y : Place) : Prop :=
  ∀ blobs call, (b.exec (b.exec blobs x call).2 y .read).1 = (b.exec blobs y .read).1

/-! ### Places that fall together -/

def keyNames (key : String) : List (List Char) := marks.names key.toList

/-- What the tenant and the key resolve to, one after the other. -/
def resolved (x : Place) : List (List Char) :=
  (marks.segments x.tenantID.toList ++ marks.segments x.key.toList).foldl
    (marks.enter (marks.rooted x.tenantID.toList)) []

/-- The two places are the same up to segments that stand for nothing; in a bucket, also up to
where the tenant ends and to segments that a double dot of the tenant takes back. -/
def Backend.Coincide : Backend → Place → Place → Prop
  | .filesystem _, x, y => x.tenantID = y.tenantID ∧ keyNames x.key = keyNames y.key
  | .s3, x, y => marks.rooted x.tenantID.toList = marks.rooted y.tenantID.toList ∧
      resolved x = resolved y

instance : (b : Backend) → (x y : Place) → Decidable (b.Coincide x y)
  | .filesystem _, x, y =>
    inferInstanceAs (Decidable (x.tenantID = y.tenantID ∧ keyNames x.key = keyNames y.key))
  | .s3, x, y => inferInstanceAs (Decidable
      (marks.rooted x.tenantID.toList = marks.rooted y.tenantID.toList ∧ resolved x = resolved y))

variable {tid key root loc : String} {x y : Place} {b : Backend}

theorem validSegment_ok {what value : String} (h : validSegment what value = .ok ()) :
    value ≠ "" := by
  unfold validSegment at h
  split at h
  · cases h
  · assumption

theorem checkParts_ok {parts : List (List Char)} (h : checkParts key parts = .ok ()) :
    ['.', '.'] ∉ parts ∧ [] ∉ parts := by
  induction parts with
  | nil => simp
  | cons part parts ih =>
    unfold checkParts at h
    split at h
    · cases h
    rename_i hup
    split at h
    · cases h
    rename_i he
    obtain ⟨ihup, iy⟩ := ih h
    simp [ihup, iy, Ne.symm hup, Ne.symm he]

theorem objectPath_ok (h : objectPath tid key = .ok loc) :
    tid ≠ "" ∧ key ≠ "" ∧ ['.', '.'] ∉ marks.segments key.toList ∧ loc = joinPath [tid, key] := by
  obtain ⟨_, ht, h⟩ := bind_eq_ok_iff.mp h
  obtain ⟨_, hk, h⟩ := bind_eq_ok_iff.mp h
  obtain ⟨-, h⟩ := ite_throw_eq_ok_iff.mp h
  obtain ⟨_, hp, h⟩ := bind_eq_ok_iff.mp h
  exact ⟨validSegment_ok ht, validSegment_ok hk, (checkParts_ok hp).1, (Except.ok.inj h).symm⟩

theorem validTenant_ok (h : validTenant tid = .ok ()) :
    marks.segments tid.toList = [tid.toList] ∧ marks.Name tid.toList ∧ tid.toList ≠ ['.', '.'] := by
  obtain ⟨_, hs, h⟩ := bind_eq_ok_iff.mp h
  obtain ⟨hr, -⟩ := ite_throw_eq_ok_iff.mp h
  push Not at hr
  obtain ⟨hup, hd, hse⟩ := hr
  have hne : ∀ {t : String}, tid ≠ t → tid.toList ≠ t.toList := fun h heq =>
    h (String.toList_injective heq)
  refine ⟨?_, ⟨hne (validSegment_ok hs), hne hd, hse⟩, hne hup⟩
  have ho : ∀ s ∈ [tid.toList], '/' ∉ s := by simpa using hse
  simpa [marks, Marks.segments] using
    splitOn_intercalate '/' ho (by simp)

theorem filesystemPath_ok (h : filesystemPath root tid key = .ok loc) :
    ∃ rel, objectPath tid key = .ok rel ∧ validTenant tid = .ok () ∧
      loc = joinPath [root, rel] := by
  obtain ⟨rel, hr, h⟩ := bind_eq_ok_iff.mp h
  obtain ⟨_, ht, h⟩ := bind_eq_ok_iff.mp h
  exact ⟨rel, hr, ht, (Except.ok.inj h).symm⟩

theorem toList_ne_nil {t : String} (h : t ≠ "") : t.toList ≠ [] := fun heq =>
  h (String.toList_injective heq)

theorem joinPath_eq {a b : String} (ha : a ≠ "") (hb : b ≠ "") :
    joinPath [a, b] = String.ofList (marks.clean (a.toList ++ '/' :: b.toList)) := by
  simp [joinPath, Marks.join, toList_ne_nil ha, toList_ne_nil hb, marks]

theorem rooted_append {p q : List Char} (hp : p ≠ []) :
    marks.rooted (p ++ '/' :: q) = marks.rooted p := by
  obtain ⟨c, cs, rfl⟩ := exists_cons_of_ne_nil hp
  rfl

theorem resolve_append {p q : List Char} (hp : p ≠ []) : marks.resolve (p ++ '/' :: q) =
      (marks.segments p ++ marks.segments q).foldl (marks.enter (marks.rooted p)) [] := by
  rw [Marks.resolve, rooted_append hp]
  exact congrArg _ (Marks.segments_append p q)

theorem objectPath_eq_iff {loc' : String} (hx : objectPath x.tenantID x.key = .ok loc)
    (hy : objectPath y.tenantID y.key = .ok loc') : loc = loc' ↔ Backend.s3.Coincide x y := by
  obtain ⟨hxt, hxk, -, rfl⟩ := objectPath_ok hx
  obtain ⟨hyt, hyk, -, rfl⟩ := objectPath_ok hy
  rw [joinPath_eq hxt hxk, joinPath_eq hyt hyk, String.ofList_inj,
    Marks.clean_eq_clean_iff, rooted_append (toList_ne_nil hxt), rooted_append (toList_ne_nil hyt),
    resolve_append (toList_ne_nil hxt), resolve_append (toList_ne_nil hyt)]
  rfl

theorem rel_of_objectPath {rel : String} (h : objectPath tid key = .ok rel)
    (hte : validTenant tid = .ok ()) : rel ≠ "" ∧ marks.rooted rel.toList = false ∧
      marks.segments rel.toList = tid.toList :: keyNames key ∧
      (∀ s ∈ tid.toList :: keyNames key, marks.Name s) ∧
      ['.', '.'] ∉ tid.toList :: keyNames key := by
  obtain ⟨ht, hk, hup, rfl⟩ := objectPath_ok h
  obtain ⟨ho, hn, htu⟩ := validTenant_ok hte
  have hna : ∀ s ∈ tid.toList :: keyNames key, marks.Name s := by
    intro s hs
    rcases mem_cons.mp hs with rfl | hs
    · exact hn
    · obtain ⟨hm, hke⟩ := mem_filter.mp hs
      obtain ⟨hne, hd⟩ := of_decide_eq_true hke
      exact ⟨hne, hd, Marks.sep_not_mem_of_segments hm⟩
  have hro : marks.rooted tid.toList = false := by
    obtain ⟨c, cs, hc⟩ := exists_cons_of_ne_nil hn.1
    have hsp : c ≠ '/' := fun heq => hn.2.2 (by rw [hc, heq]; exact mem_cons_self)
    simp [Marks.rooted, hc, marks, hsp]
  have hr : marks.resolve (tid.toList ++ '/' :: key.toList) =
      tid.toList :: keyNames key := by
    rw [resolve_append hn.1, ho, singleton_append, foldl_cons]
    have he : marks.enter (marks.rooted tid.toList) [] tid.toList =
        [tid.toList] := by
      have hup' : tid.toList ≠ [marks.dot, marks.dot] := htu
      rw [Marks.enter, if_neg (not_or.mpr ⟨hn.1, hn.2.1⟩), if_neg hup']
      rfl
    rw [he, Marks.foldl_enter hup]
    rfl
  have hre : (joinPath [tid, key]).toList =
      ['/'].intercalate (tid.toList :: keyNames key) := by
    rw [joinPath_eq ht hk, String.toList_ofList, Marks.clean, hr,
      rooted_append hn.1, hro, Marks.render]
    rfl
  have hse : marks.segments (joinPath [tid, key]).toList =
      tid.toList :: keyNames key := by
    rw [hre]
    exact splitOn_intercalate '/' (fun s hs => (hna s hs).2.2) (by simp)
  refine ⟨fun hem => ?_, ?_, hse, hna, ?_⟩
  · rw [hem] at hre
    have := (Marks.intercalate_eq_nil_iff hna).mp hre.symm
    simp at this
  · rw [hre]
    exact decide_eq_false (Marks.head?_intercalate hna)
  · intro hm
    rcases mem_cons.mp hm with h | h
    · exact htu h.symm
    · exact hup (mem_filter.mp h).1

/-- What is stored below a root falls together exactly if the tenants are the same and the keys
differ in nothing that is named. -/
theorem filesystemPath_eq_iff {loc' : String} (hx : filesystemPath root x.tenantID x.key = .ok loc)
    (hy : filesystemPath root y.tenantID y.key = .ok loc') :
    loc = loc' ↔ (Backend.filesystem root).Coincide x y := by
  have hl : ∀ {z : Place} {loc : String}, filesystemPath root z.tenantID z.key = .ok loc →
      ∃ path, loc = String.ofList (marks.clean path) ∧
        marks.rooted path = marks.rooted root.toList ∧
        marks.resolve path = (marks.segments root.toList).foldl
          (marks.enter (marks.rooted root.toList)) [] ++ (z.tenantID.toList :: keyNames z.key) := by
    intro z loc h
    obtain ⟨rel, hre, ht, rfl⟩ := filesystemPath_ok h
    obtain ⟨hne, hro, hse, hn, hup⟩ := rel_of_objectPath hre ht
    have ha : (z.tenantID.toList :: keyNames z.key).filter
        (fun seg => seg ≠ [] ∧ seg ≠ [marks.dot]) = z.tenantID.toList :: keyNames z.key :=
      filter_eq_self.mpr fun s hs => decide_eq_true ⟨(hn s hs).1, (hn s hs).2.1⟩
    by_cases hr : root = ""
    · subst hr
      refine ⟨rel.toList, ?_, hro, ?_⟩
      · have := toList_ne_nil hne
        simp [joinPath, Marks.join, this]
      · rw [Marks.resolve, hse, Marks.foldl_enter hup, ha]
        rfl
    · have hr' := toList_ne_nil hr
      refine ⟨root.toList ++ '/' :: rel.toList, joinPath_eq hr hne, rooted_append hr', ?_⟩
      rw [resolve_append hr', foldl_append, hse, Marks.foldl_enter hup, ha]
  obtain ⟨p, rfl, hp, hpr⟩ := hl hx
  obtain ⟨q, rfl, hq, hqr⟩ := hl hy
  rw [String.ofList_inj, Marks.clean_eq_clean_iff, hp, hq, hpr, hqr]
  simp only [true_and, append_cancel_left_eq, cons.injEq, String.toList_inj]
  rfl

/-! ### Calls -/

theorem separate_iff {loc' : String} (hx : b.locate x = .ok loc) (hy : b.locate y = .ok loc') :
    b.Separate x y ↔ loc ≠ loc' := by
  constructor
  · rintro h rfl
    have := h (fun _ => none) (.write [])
    simp [Backend.exec, hx, hy] at this
  · intro hne bl call
    have hk : (b.exec bl x call).2 loc' = bl loc' := by
      simp only [Backend.exec, hx]
      cases call with
      | write body => exact Function.update_of_ne hne.symm _ _
      | read => dsimp only; split <;> rfl
      | url => rfl
      | delete =>
        dsimp only
        split
        · rfl
        · exact Function.update_of_ne hne.symm _ _
    have hr : ∀ bl : Blobs, (b.exec bl y .read).1 =
        match bl loc' with
        | none => .error .notFound
        | some body => .ok (.bytes body) := by
      intro bl
      simp only [Backend.exec, hy]
      split <;> simp_all
    rw [hr, hr, hk]

/-- Two places that a store accepts have different locations, and no call at one is seen at the
other, exactly if they do not coincide. -/
theorem locations_apart_iff (b : Backend) (x y : Place) (hx : b.Accepts x) (hy : b.Accepts y) :
    (b.locate x ≠ b.locate y ∧ b.Separate x y) ↔ ¬ b.Coincide x y := by
  obtain ⟨loc, hl⟩ := hx
  obtain ⟨loc', hl'⟩ := hy
  rw [separate_iff hl hl', hl, hl', Ne, Except.ok.injEq, and_self, not_iff_not]
  cases b with
  | filesystem root => exact filesystemPath_eq_iff hl hl'
  | s3 => exact objectPath_eq_iff hl hl'

/-- Below a root, tenants are always kept apart. -/
theorem filesystem_tenants_separate (hx : (Backend.filesystem root).Accepts x)
    (hy : (Backend.filesystem root).Accepts y) (hne : x.tenantID ≠ y.tenantID) :
    (Backend.filesystem root).Separate x y := by
  obtain ⟨loc, hl⟩ := hx
  obtain ⟨loc', hl'⟩ := hy
  exact (separate_iff hl hl').mpr fun h => hne ((filesystemPath_eq_iff hl hl').mp h).1

/-! ### Two tenants and two keys -/

theorem acme_globex_separate :
    (Backend.filesystem "/var").Separate ⟨"acme", "logs"⟩ ⟨"globex", "logs"⟩ :=
  filesystem_tenants_separate ⟨_, rfl⟩ ⟨_, rfl⟩ (by decide)

theorem tenants_apart : (Backend.filesystem "/var/blobs").Accepts ⟨"acme", "logs/1"⟩ ∧
      (Backend.filesystem "/var/blobs").Separate ⟨"acme", "logs/1"⟩ ⟨"globex", "logs/1"⟩ :=
  ⟨⟨_, rfl⟩, ((locations_apart_iff (.filesystem "/var/blobs") ⟨"acme", "logs/1"⟩
    ⟨"globex", "logs/1"⟩ ⟨_, rfl⟩ ⟨_, rfl⟩).mpr (by decide)).2⟩

/-- In the bucket a tenant reads what another wrote; below a root, one blob has two keys. -/
theorem places_coincide :
    Backend.s3.locate ⟨"a", "b/c"⟩ = .ok "a/b/c" ∧ Backend.s3.locate ⟨"a/b", "c"⟩ = .ok "a/b/c" ∧
      (Backend.s3.exec (Backend.s3.exec (fun _ => none) ⟨"a", "b/c"⟩ (.write [1])).2 ⟨"a/b", "c"⟩
        .read).1 = .ok (.bytes [1]) ∧
      (Backend.filesystem "/var").locate ⟨"t", "a/./b"⟩ = .ok "/var/t/a/b" ∧
      (Backend.filesystem "/var").locate ⟨"t", "a/b"⟩ = .ok "/var/t/a/b" :=
  ⟨rfl, rfl, rfl, rfl, rfl⟩

end Dhole.Blobstore
