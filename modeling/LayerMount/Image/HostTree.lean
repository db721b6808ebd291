import LayerMount.Layer
import LayerMount.LayerTree
import LayerMount.Lib.Unicode

/-!
# Directory trees of the host

A directory tree of an NTFS volume as `LayerImageManager.cpp` reads and writes it: the
entries below a root in an order in which a directory comes before what is in it, which
is the order of a recursive walk and the order in which an unpack makes them.  Names keep
their case.  Two names of one directory differ in more than case: the host compares them
folded, and `HostDir.distinct` says that no two entries have the same folded path.

The limit on the length of a whole path, short names and trees with links are outside
the model.
-/

namespace LayerMount

open Lib

/-- What an image depends on of the host: the case folding of its file system, which is
also the one of `CharLowerBuffW`, and the time of its clock. -/
structure Host where
  fold : Char → Char
  now : UInt64
  fold_fold : ∀ c, fold (fold c) = fold c
  fold_ascii : ∀ c, c.toNat < 128 → fold c = c.toLower
  /-- No other character folds to a character that separates or ends a name. -/
  fold_punctuation : ∀ c, fold c = '.' ∨ fold c = ':' ∨ fold c = '\\' ∨ fold c = '\x00' → fold c = c
  /-- A character and its folded form have as many units. -/
  fold_units : ∀ c, (encodeUtf16Char (fold c)).length = (encodeUtf16Char c).length
  now_pos : 0 < now.toNat ∧ now.toNat < 2 ^ 63

namespace Host

variable (H : Host)

def foldName (n : Name) : Name := n.map H.fold

def foldPath (p : RelPath) : RelPath := p.map H.foldName

@[simp] theorem foldName_foldName (n : Name) : H.foldName (H.foldName n) = H.foldName n := by
  simp only [foldName, List.map_map]
  apply List.map_congr_left
  intro c _
  exact H.fold_fold c

@[simp] theorem foldPath_foldPath (p : RelPath) : H.foldPath (H.foldPath p) = H.foldPath p := by
  simp only [foldPath, List.map_map]
  apply List.map_congr_left
  intro n _
  exact H.foldName_foldName n

@[simp] theorem foldPath_nil : H.foldPath [] = [] := rfl

@[simp] theorem foldPath_append (p q : RelPath) :
    H.foldPath (p ++ q) = H.foldPath p ++ H.foldPath q := by
  simp [foldPath]

@[simp] theorem foldPath_singleton (n : Name) : H.foldPath [n] = [H.foldName n] := rfl

@[simp] theorem foldPath_eq_nil {p : RelPath} : H.foldPath p = [] ↔ p = [] := by
  simp [foldPath]

@[simp] theorem length_foldPath (p : RelPath) : (H.foldPath p).length = p.length := by
  simp [foldPath]

theorem foldPath_dropLast (p : RelPath) : H.foldPath p.dropLast = (H.foldPath p).dropLast := by
  simp [foldPath, List.map_dropLast]

theorem foldName_kWhiteoutPrefix : H.foldName kWhiteoutPrefix = kWhiteoutPrefix := by
  simp only [foldName, kWhiteoutPrefix, List.map_cons, List.map_nil]
  rw [H.fold_ascii '.' (by decide), H.fold_ascii 'w' (by decide), H.fold_ascii 'h' (by decide)]
  rfl

@[simp] theorem foldName_whiteoutName (n : Name) :
    H.foldName (whiteoutName n) = whiteoutName (H.foldName n) := by
  have happend : H.foldName (kWhiteoutPrefix ++ n) = H.foldName kWhiteoutPrefix ++ H.foldName n := by
    simp [foldName]
  rw [whiteoutName, happend, foldName_kWhiteoutPrefix]
  rfl

theorem foldName_eq_dots {n : Name} {k : Nat} (h : H.foldName n = List.replicate k '.') :
    n = List.replicate k '.' := by
  have hchars : ∀ c ∈ n, c = '.' := by
    intro c hc
    have hmem : H.fold c ∈ H.foldName n := List.mem_map_of_mem hc
    rw [h] at hmem
    have hdot := (List.mem_replicate.mp hmem).2
    have hsame := H.fold_punctuation c (Or.inl hdot)
    rw [← hsame, hdot]
  have hlen : n.length = k := by
    have hlength := congrArg List.length h
    simpa [foldName] using hlength
  rw [List.eq_replicate_iff]
  exact ⟨hlen, hchars⟩

theorem length_encodeUtf16_foldName (n : Name) :
    (encodeUtf16 (H.foldName n)).length = (encodeUtf16 n).length := by
  induction n with
  | nil => rfl
  | cons c n ih =>
    have hcons : ∀ (x : Char) (m : Name),
        (encodeUtf16 (x :: m)).length = (encodeUtf16Char x).length + (encodeUtf16 m).length := by
      intro x m
      rw [encodeUtf16, List.flatMap_cons, List.length_append]
      rfl
    rw [foldName, List.map_cons, hcons, hcons, H.fold_units]
    exact congrArg (_ + ·) ih

theorem not_mem_colon_foldName {n : Name} (h : ':' ∉ n) : ':' ∉ H.foldName n := by
  intro hmem
  obtain ⟨c, hc, hcolon⟩ := List.mem_map.mp hmem
  have hsame := H.fold_punctuation c (Or.inr (Or.inl hcolon))
  rw [hsame] at hcolon
  exact h (hcolon ▸ hc)

theorem mem_nul_foldName {n : Name} : '\x00' ∈ H.foldName n ↔ '\x00' ∈ n := by
  constructor
  · intro hmem
    obtain ⟨c, hc, hnul⟩ := List.mem_map.mp hmem
    have hsame := H.fold_punctuation c (Or.inr (Or.inr (Or.inr hnul)))
    rw [hsame] at hnul
    exact hnul ▸ hc
  · intro hmem
    have hnul : H.fold '\x00' = '\x00' := H.fold_ascii '\x00' (by decide)
    exact List.mem_map.mpr ⟨'\x00', hmem, hnul⟩

end Host

/-- The last-write time of a new file after `SetFileTime`.  A time of 0 and the two
special values leave the time of the write. -/
def Host.timeAfterSet (H : Host) (modified : UInt64) : UInt64 :=
  if modified = 0 ∨ 0xFFFFFFFFFFFFFFFE ≤ modified then H.now else modified

theorem Host.timeAfterSet_ok (H : Host) {modified : UInt64} (h : modified.toNat < 2 ^ 63) :
    0 < (H.timeAfterSet modified).toNat ∧ (H.timeAfterSet modified).toNat < 2 ^ 63 := by
  unfold Host.timeAfterSet
  split
  · exact H.now_pos
  · rename_i hspecial
    rw [not_or] at hspecial
    refine ⟨?_, h⟩
    have hne : modified.toNat ≠ 0 := fun hzero => hspecial.1 (UInt64.toNat.inj hzero)
    omega

/-- The error codes that the image functions return. -/
inductive Win32Error where
  | accessDenied
  | badPathname
  | crc
  | filenameExcedRange
  | invalidData
  | invalidParameter
  | readFault
  | revisionMismatch
  | seek
  | writeFault
  deriving DecidableEq, Repr

/-! ## Entries -/

/-- `FILE_ATTRIBUTE_READONLY`, `FILE_ATTRIBUTE_HIDDEN` and `FILE_ATTRIBUTE_SYSTEM`, each of
which keeps a file from being replaced. -/
def kUnwritableAttributes : UInt32 := 0x7

def kFileAttributeDirectory : UInt32 := 0x10

def kFileAttributeNormal : UInt32 := 0x80

/-- The attributes that `SetFileAttributesW` sets: read-only, hidden, system, archive,
temporary, offline, not content indexed. -/
def kSettableAttributes : UInt32 := 0x3127

/-- The attributes of a file after `SetFileAttributesW`. -/
def storedAttributes (attributes : UInt32) : UInt32 :=
  if attributes &&& kSettableAttributes = 0 then kFileAttributeNormal
  else attributes &&& kSettableAttributes

def reservedNameChars : List Char := ['<', '>', ':', '"', '/', '\\', '|', '?', '*']

/-- The names that the host accepts. -/
def nameOk (n : Name) : Bool :=
  !n.isEmpty && n ≠ ['.'] && n ≠ ['.', '.'] && (encodeUtf16 n).length ≤ 255 &&
    n.all fun c => 32 ≤ c.toNat && !reservedNameChars.contains c

structure HostEntry where
  path : RelPath
  /-- The attributes as `GetFileAttributesExW` gives them. -/
  attributes : UInt32
  modified : UInt64
  /-- The bytes of a file, or none for a directory. -/
  content : Option Data
  deriving DecidableEq, Repr

def HostEntry.isDirectory (e : HostEntry) : Bool := e.content.isNone

structure HostEntry.Ok (e : HostEntry) : Prop where
  ne_nil : e.path ≠ []
  names : ∀ n ∈ e.path, nameOk n = true
  size : ∀ data ∈ e.content, data.length < 2 ^ 63
  time : 0 < e.modified.toNat ∧ e.modified.toNat < 2 ^ 63

instance (e : HostEntry) : Decidable e.Ok :=
  decidable_of_iff
    (e.path ≠ [] ∧ (∀ n ∈ e.path, nameOk n = true) ∧ (∀ data ∈ e.content, data.length < 2 ^ 63) ∧
      (0 < e.modified.toNat ∧ e.modified.toNat < 2 ^ 63))
    ⟨fun ⟨h1, h2, h3, h4⟩ => ⟨h1, h2, h3, h4⟩, fun ⟨h1, h2, h3, h4⟩ => ⟨h1, h2, h3, h4⟩⟩

/-- The parent of the path is the root or one of the directories. -/
def ParentIn (above : List HostEntry) (p : RelPath) : Prop :=
  p.dropLast = [] ∨ ∃ d ∈ above, d.path = p.dropLast ∧ d.isDirectory = true

instance (above : List HostEntry) (p : RelPath) : Decidable (ParentIn above p) :=
  inferInstanceAs (Decidable (_ ∨ _))

/-- Each entry comes after its parent. -/
def RootedFrom (above : List HostEntry) : List HostEntry → Prop
  | [] => True
  | e :: rest => ParentIn above e.path ∧ RootedFrom (above ++ [e]) rest

theorem ParentIn.mono {above more : List HostEntry} {p : RelPath} (h : ParentIn above p)
    (hsub : ∀ d ∈ above, d ∈ more) : ParentIn more p := by
  rcases h with hroot | ⟨d, hd, hpath, hdir⟩
  · exact Or.inl hroot
  · exact Or.inr ⟨d, hsub d hd, hpath, hdir⟩

theorem rootedFrom_append {above es : List HostEntry} {e : HostEntry} :
    RootedFrom above (es ++ [e]) ↔ RootedFrom above es ∧ ParentIn (above ++ es) e.path := by
  induction es generalizing above with
  | nil => simp [RootedFrom]
  | cons x es ih =>
    rw [List.cons_append, RootedFrom, RootedFrom, ih, List.append_assoc]
    exact and_assoc.symm

theorem RootedFrom.parentIn {above es : List HostEntry} (h : RootedFrom above es) :
    ∀ e ∈ es, ParentIn (above ++ es) e.path := by
  induction es generalizing above with
  | nil => intro e he; cases he
  | cons x es ih =>
    intro e he
    rcases List.mem_cons.mp he with rfl | he
    · exact h.1.mono fun d hd => List.mem_append_left _ hd
    · have hrest := ih h.2 e he
      rw [List.append_assoc] at hrest
      exact hrest

/-- A change of the entries that keeps paths and directories keeps them rooted. -/
theorem RootedFrom.map {f : HostEntry → HostEntry} (hpath : ∀ e, (f e).path = e.path)
    (hdir : ∀ e, e.isDirectory = true → (f e).isDirectory = true) {above es : List HostEntry}
    (h : RootedFrom above es) : RootedFrom (above.map f) (es.map f) := by
  induction es generalizing above with
  | nil => exact trivial
  | cons x es ih =>
    obtain ⟨hparent, hrest⟩ := h
    refine ⟨?_, ?_⟩
    · rw [hpath]
      rcases hparent with hroot | ⟨d, hd, hdp, hdd⟩
      · exact Or.inl hroot
      · exact Or.inr ⟨f d, List.mem_map_of_mem hd, by rw [hpath, hdp], hdir d hdd⟩
    · have hmap := ih hrest
      rw [List.map_append] at hmap
      exact hmap

/-- The entry with the data, attributes and time of `e`, where `e` is at its path and it
is a file. -/
def replacedBy (H : Host) (e x : HostEntry) : HostEntry :=
  if H.foldPath x.path = H.foldPath e.path ∧ x.isDirectory = false then { e with path := x.path }
  else x

theorem replacedBy_path (H : Host) (e x : HostEntry) : (replacedBy H e x).path = x.path := by
  unfold replacedBy
  split <;> rfl

theorem replacedBy_of_directory {H : Host} {e x : HostEntry} (h : x.isDirectory = true) :
    replacedBy H e x = x := by
  simp [replacedBy, h]

/-! ## Trees -/

structure HostDir (H : Host) where
  entries : List HostEntry
  ok : ∀ e ∈ entries, e.Ok
  /-- No two entries have one path without case. -/
  distinct : (entries.map fun e => H.foldPath e.path).Nodup
  rooted : RootedFrom [] entries

namespace HostDir

variable {H : Host}

def empty : HostDir H := ⟨[], by simp, by simp, trivial⟩

/-- The entry that a path opens. -/
def find (t : HostDir H) (p : RelPath) : Option HostEntry :=
  t.entries.find? fun e => H.foldPath e.path = H.foldPath p

/-- The path of a directory as it is stored. -/
def directoryPath (t : HostDir H) (d : RelPath) : Option RelPath :=
  if d = [] then some []
  else
    match t.find d with
    | some e => if e.isDirectory then some e.path else none
    | none => none

/-- The host takes a new entry: nothing is at its path, and its parent is a directory. -/
def Admits (t : HostDir H) (e : HostEntry) : Prop :=
  e.Ok ∧ t.find e.path = none ∧ ParentIn t.entries e.path

instance (t : HostDir H) (e : HostEntry) : Decidable (t.Admits e) :=
  inferInstanceAs (Decidable (_ ∧ _))

theorem find_eq_some {t : HostDir H} {p : RelPath} {e : HostEntry} :
    t.find p = some e ↔ e ∈ t.entries ∧ H.foldPath e.path = H.foldPath p := by
  constructor
  · intro h
    refine ⟨List.mem_of_find?_eq_some h, ?_⟩
    have hp := List.find?_some h
    exact of_decide_eq_true hp
  · rintro ⟨hmem, hpath⟩
    have hdistinct := t.distinct
    unfold find
    revert hmem hdistinct
    induction t.entries with
    | nil => intro hmem; cases hmem
    | cons x rest ih =>
      intro hmem hdistinct
      rw [List.map_cons, List.nodup_cons] at hdistinct
      rw [List.find?_cons]
      rcases List.mem_cons.mp hmem with rfl | hrest
      · simp [hpath]
      · have hne : H.foldPath x.path ≠ H.foldPath p := by
          intro heq
          apply hdistinct.1
          rw [heq, ← hpath]
          exact List.mem_map_of_mem hrest
        simpa [hne] using ih hrest hdistinct.2

theorem find_eq_none {t : HostDir H} {p : RelPath} :
    t.find p = none ↔ ∀ e ∈ t.entries, H.foldPath e.path ≠ H.foldPath p := by
  simp [find]

theorem find_congr (t : HostDir H) {p q : RelPath} (h : H.foldPath p = H.foldPath q) :
    t.find p = t.find q := by
  simp only [find, h]

theorem find_of_mem {t : HostDir H} {e : HostEntry} (h : e ∈ t.entries) :
    t.find e.path = some e :=
  find_eq_some.mpr ⟨h, rfl⟩

@[simp] theorem find_empty (p : RelPath) : (empty : HostDir H).find p = none := rfl

@[simp] theorem find_nil (t : HostDir H) : t.find [] = none := by
  rw [find_eq_none]
  intro e he heq
  exact (t.ok e he).ne_nil (H.foldPath_eq_nil.mp heq)

/-- What is above an entry is a directory. -/
theorem find_parent {t : HostDir H} {d : RelPath} {n : Name} {e : HostEntry}
    (h : t.find (d ++ [n]) = some e) :
    d = [] ∨ ∃ x, t.find d = some x ∧ x.isDirectory = true := by
  obtain ⟨hmem, hpath⟩ := find_eq_some.mp h
  have hfold : H.foldPath e.path.dropLast = H.foldPath d := by
    rw [H.foldPath_dropLast, hpath]
    simp
  rcases t.rooted.parentIn e hmem with hroot | ⟨x, hx, hxpath, hxdir⟩
  · rw [hroot, H.foldPath_nil] at hfold
    exact Or.inl (H.foldPath_eq_nil.mp hfold.symm)
  · refine Or.inr ⟨x, ?_, hxdir⟩
    rw [← t.find_congr (p := x.path) (by rw [hxpath, hfold])]
    exact find_of_mem (by simpa using hx)

theorem directoryPath_eq_some {t : HostDir H} {d stored : RelPath} :
    t.directoryPath d = some stored ↔
      (d = [] ∧ stored = []) ∨ ∃ e, t.find d = some e ∧ e.isDirectory = true ∧ e.path = stored := by
  unfold directoryPath
  split
  · rename_i hroot
    subst hroot
    simp only [Option.some.injEq, true_and, find_nil, reduceCtorEq, false_and, exists_false, or_false]
    exact eq_comm
  · rename_i hroot
    cases hfind : t.find d with
    | none => simp [hroot]
    | some e => simp [hroot]

/-- The tree with one more entry, where the host takes it. -/
def insert (t : HostDir H) (e : HostEntry) : HostDir H :=
  if h : t.Admits e then
    { entries := t.entries ++ [e]
      ok := by
        intro x hx
        rcases List.mem_append.mp hx with hx | hx
        · exact t.ok x hx
        · rw [List.mem_singleton.mp hx]
          exact h.1
      distinct := by
        rw [List.map_append, List.map_singleton, List.nodup_append]
        refine ⟨t.distinct, by simp, ?_⟩
        intro a ha b hb heq
        obtain ⟨x, hx, rfl⟩ := List.mem_map.mp ha
        rw [List.mem_singleton.mp hb] at heq
        exact find_eq_none.mp h.2.1 x hx heq
      rooted := rootedFrom_append.mpr ⟨t.rooted, by simpa using h.2.2⟩ }
  else t

theorem insert_entries {t : HostDir H} {e : HostEntry} (h : t.Admits e) :
    (t.insert e).entries = t.entries ++ [e] := by
  simp [insert, h]

theorem insert_of_not_admits {t : HostDir H} {e : HostEntry} (h : ¬t.Admits e) :
    t.insert e = t := by
  simp [insert, h]

theorem find_insert {t : HostDir H} {e : HostEntry} (h : t.Admits e) (p : RelPath) :
    (t.insert e).find p = if H.foldPath e.path = H.foldPath p then some e else t.find p := by
  have hentries := insert_entries h
  split
  · rename_i heq
    rw [find_eq_some, hentries]
    exact ⟨by simp, heq⟩
  · rename_i hne
    unfold find
    rw [hentries, List.find?_append]
    simp [hne]

/-- The tree with the data, attributes and time of a file replaced. -/
def overwrite (t : HostDir H) (e : HostEntry) : HostDir H :=
  if h : e.Ok then
    { entries := t.entries.map (replacedBy H e)
      ok := by
        intro x hx
        obtain ⟨y, hy, rfl⟩ := List.mem_map.mp hx
        unfold replacedBy
        split
        · exact ⟨(t.ok y hy).ne_nil, (t.ok y hy).names, h.size, h.time⟩
        · exact t.ok y hy
      distinct := by
        have hpaths : (t.entries.map (replacedBy H e)).map (fun x => H.foldPath x.path)
            = t.entries.map fun x => H.foldPath x.path := by
          rw [List.map_map]
          apply List.map_congr_left
          intro x _
          rw [Function.comp_apply, replacedBy_path]
        rw [hpaths]
        exact t.distinct
      rooted := t.rooted.map (replacedBy_path H e) fun x hx => by
        rw [replacedBy_of_directory hx]
        exact hx }
  else t

theorem find_overwrite {t : HostDir H} {e old : HostEntry} (hok : e.Ok)
    (hold : t.find e.path = some old) (hfile : old.isDirectory = false) (p : RelPath) :
    (t.overwrite e).find p
      = if H.foldPath e.path = H.foldPath p then some { e with path := old.path } else t.find p := by
  have hentries : (t.overwrite e).entries = t.entries.map (replacedBy H e) := by
    simp [overwrite, hok]
  split
  · rename_i heq
    obtain ⟨hmem, hpath⟩ := find_eq_some.mp hold
    rw [find_eq_some, hentries]
    refine ⟨List.mem_map.mpr ⟨old, hmem, ?_⟩, hpath.trans heq⟩
    simp [replacedBy, hpath, hfile]
  · rename_i hne
    cases hfind : t.find p with
    | none =>
      rw [find_eq_none, hentries]
      intro x hx
      obtain ⟨y, hy, rfl⟩ := List.mem_map.mp hx
      rw [replacedBy_path]
      exact find_eq_none.mp hfind y hy
    | some x =>
      obtain ⟨hmem, hpath⟩ := find_eq_some.mp hfind
      rw [find_eq_some, hentries]
      refine ⟨List.mem_map.mpr ⟨x, hmem, ?_⟩, hpath⟩
      have hother : H.foldPath x.path ≠ H.foldPath e.path := by
        rw [hpath]
        exact fun h => hne h.symm
      simp [replacedBy, hother]

end HostDir

end LayerMount
