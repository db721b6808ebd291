import LayerMount.Image.HostTree

/-!
# How an unpack changes a tree

`createDirectories` and `writeFile` are the two ways in which an unpack changes a tree.
They fail where the host must refuse them and nowhere else: a parent that is no directory,
a name that the host does not accept, a directory where a file is to be written, a file
that is read-only, hidden or system.
-/

namespace LayerMount

namespace HostDir

variable {H : Host}

/-- The path is the root or a directory. -/
def HasDir (t : HostDir H) (d : RelPath) : Prop :=
  d = [] ∨ ∃ x, t.find d = some x ∧ x.isDirectory = true

/-- `CreateDirectoryW`, with its error ignored. -/
def createDirectory (t : HostDir H) (d : RelPath) (n : Name) : HostDir H :=
  match t.directoryPath d with
  | none => t
  | some stored => t.insert ⟨stored ++ [n], kFileAttributeDirectory, H.now, none⟩

/-- The loop of `create_directories` from the directories already walked.  After a step
that fails the others fail too. -/
def createDirectoriesFrom (t : HostDir H) (walked : RelPath) : RelPath → HostDir H
  | [] => t
  | n :: rest => createDirectoriesFrom (t.createDirectory walked n) (walked ++ [n]) rest

def createDirectories (t : HostDir H) (p : RelPath) : HostDir H := createDirectoriesFrom t [] p

/-- Creates or replaces a file, and gives it the attributes and the last-write time. -/
def writeFile (t : HostDir H) (d : RelPath) (n : Name) (attributes : UInt32) (modified : UInt64)
    (data : Data) : Except Win32Error (HostDir H) :=
  let file (path : RelPath) : HostEntry :=
    ⟨path, storedAttributes attributes, H.timeAfterSet modified, some data⟩
  match t.find (d ++ [n]) with
  | some old =>
    if old.isDirectory || old.attributes &&& kUnwritableAttributes ≠ 0 then .error .accessDenied
    else if (file old.path).Ok then .ok (t.overwrite (file old.path))
    else .error .invalidParameter
  | none =>
    match t.directoryPath d with
    | none => .error .accessDenied
    | some stored =>
      if t.Admits (file (stored ++ [n])) then .ok (t.insert (file (stored ++ [n])))
      else .error (if nameOk n then .invalidParameter else .accessDenied)

variable {t : HostDir H} {d p q : RelPath} {n : Name}

/-! ## Directories -/

theorem HasDir.congr (h : t.HasDir p) (heq : H.foldPath p = H.foldPath q) : t.HasDir q := by
  rcases h with rfl | ⟨x, hx, hdir⟩
  · exact Or.inl (H.foldPath_eq_nil.mp heq.symm)
  · exact Or.inr ⟨x, by rw [← t.find_congr heq, hx], hdir⟩

/-- Every directory on the way to a directory is there. -/
theorem HasDir.above (h : t.HasDir (p ++ q)) : t.HasDir p := by
  induction q using List.reverseRecOn with
  | nil => simpa using h
  | append_singleton q n ih =>
    apply ih
    rcases h with hnil | ⟨x, hx, _⟩
    · simp at hnil
    · rw [← List.append_assoc] at hx
      exact find_parent hx

theorem hasDir_of_find {e : HostEntry} (h : t.find (p ++ q) = some e) (hq : q ≠ []) :
    t.HasDir p := by
  obtain ⟨rest, n, rfl⟩ := (List.eq_nil_or_concat q).resolve_left hq
  rw [List.concat_eq_append, ← List.append_assoc] at h
  have hparent : t.HasDir (p ++ rest) := find_parent h
  exact hparent.above

theorem hasDir_iff_directoryPath : t.HasDir d ↔ ∃ stored, t.directoryPath d = some stored := by
  simp only [directoryPath_eq_some]
  constructor
  · rintro (hroot | ⟨x, hx, hdir⟩)
    · exact ⟨[], Or.inl ⟨hroot, rfl⟩⟩
    · exact ⟨x.path, Or.inr ⟨x, hx, hdir, rfl⟩⟩
  · rintro ⟨stored, ⟨hroot, _⟩ | ⟨x, hx, hdir, _⟩⟩
    · exact Or.inl hroot
    · exact Or.inr ⟨x, hx, hdir⟩

theorem foldPath_directoryPath {stored : RelPath} (h : t.directoryPath d = some stored) :
    H.foldPath stored = H.foldPath d := by
  rcases directoryPath_eq_some.mp h with ⟨rfl, rfl⟩ | ⟨e, he, _, rfl⟩
  · rfl
  · exact (find_eq_some.mp he).2

/-- A new entry below a directory is one the host takes. -/
theorem admits_below {stored : RelPath} (h : t.directoryPath d = some stored) {e : HostEntry}
    (hpath : e.path = stored ++ [n]) (hname : nameOk n = true)
    (hsize : ∀ data ∈ e.content, data.length < 2 ^ 63)
    (htime : 0 < e.modified.toNat ∧ e.modified.toNat < 2 ^ 63)
    (hnone : t.find (d ++ [n]) = none) : t.Admits e := by
  have hfold : H.foldPath e.path = H.foldPath (d ++ [n]) := by
    rw [hpath, H.foldPath_append, H.foldPath_append, foldPath_directoryPath h]
  have hstored : stored = [] ∨ ∃ x ∈ t.entries, x.path = stored ∧ x.isDirectory = true := by
    rcases directoryPath_eq_some.mp h with ⟨_, hnil⟩ | ⟨x, hx, hdir, hxpath⟩
    · exact Or.inl hnil
    · exact Or.inr ⟨x, (find_eq_some.mp hx).1, hxpath, hdir⟩
  refine ⟨⟨by simp [hpath], ?_, hsize, htime⟩, ?_, ?_⟩
  · intro m hm
    rw [hpath, List.mem_append, List.mem_singleton] at hm
    rcases hm with hm | rfl
    · rcases hstored with rfl | ⟨x, hx, rfl, _⟩
      · cases hm
      · exact (t.ok x hx).names m hm
    · exact hname
  · rw [t.find_congr hfold, hnone]
  · unfold ParentIn
    rw [hpath, List.dropLast_concat]
    exact hstored

theorem find_createDirectory_of_ne (h : H.foldPath p ≠ H.foldPath (d ++ [n])) :
    (t.createDirectory d n).find p = t.find p := by
  unfold createDirectory
  split
  · rfl
  · rename_i stored hstored
    by_cases hadm : t.Admits ⟨stored ++ [n], kFileAttributeDirectory, H.now, none⟩
    · rw [find_insert hadm, if_neg]
      rw [H.foldPath_append, foldPath_directoryPath hstored, ← H.foldPath_append]
      exact fun heq => h heq.symm
    · rw [insert_of_not_admits hadm]

/-- Making a directory leaves what is there. -/
theorem find_createDirectory_of_some {e : HostEntry} (h : t.find p = some e) :
    (t.createDirectory d n).find p = some e := by
  by_cases hp : H.foldPath p = H.foldPath (d ++ [n])
  · unfold createDirectory
    split
    · exact h
    · rename_i stored hstored
      have hnot : ¬t.Admits ⟨stored ++ [n], kFileAttributeDirectory, H.now, none⟩ := by
        rintro ⟨_, hnone, _⟩
        have hfold : H.foldPath (stored ++ [n]) = H.foldPath p := by
          rw [hp, H.foldPath_append, H.foldPath_append, foldPath_directoryPath hstored]
        rw [t.find_congr hfold, h] at hnone
        cases hnone
      rw [insert_of_not_admits hnot]
      exact h
  · rw [find_createDirectory_of_ne hp]
    exact h

theorem createDirectory_of_some {e : HostEntry} (h : t.find (d ++ [n]) = some e) :
    t.createDirectory d n = t := by
  unfold createDirectory
  split
  · rfl
  · rename_i stored hstored
    apply insert_of_not_admits
    rintro ⟨_, hnone, _⟩
    have hfold : H.foldPath (stored ++ [n]) = H.foldPath (d ++ [n]) := by
      rw [H.foldPath_append, H.foldPath_append, foldPath_directoryPath hstored]
    rw [t.find_congr hfold, h] at hnone
    cases hnone

theorem createDirectory_makes (hd : t.HasDir d) (hname : nameOk n = true)
    (hfile : ∀ e, t.find (d ++ [n]) = some e → e.isDirectory = true) :
    (t.createDirectory d n).HasDir (d ++ [n]) := by
  cases hfind : t.find (d ++ [n]) with
  | some e => exact Or.inr ⟨e, find_createDirectory_of_some hfind, hfile e hfind⟩
  | none =>
    obtain ⟨stored, hstored⟩ := hasDir_iff_directoryPath.mp hd
    have hadm : t.Admits ⟨stored ++ [n], kFileAttributeDirectory, H.now, none⟩ :=
      admits_below hstored rfl hname (by simp) H.now_pos hfind
    refine Or.inr ⟨⟨stored ++ [n], kFileAttributeDirectory, H.now, none⟩, ?_, rfl⟩
    simp only [createDirectory, hstored]
    rw [find_insert hadm, if_pos]
    rw [H.foldPath_append, foldPath_directoryPath hstored, ← H.foldPath_append]

/-- What is new after making a directory is that directory. -/
theorem find_createDirectory_new {e : HostEntry} (h : (t.createDirectory d n).find p = some e) :
    t.find p = some e ∨ (H.foldPath p = H.foldPath (d ++ [n]) ∧ e.isDirectory = true) := by
  by_cases hp : H.foldPath p = H.foldPath (d ++ [n])
  · unfold createDirectory at h
    split at h
    · exact Or.inl h
    · rename_i stored hstored
      by_cases hadm : t.Admits ⟨stored ++ [n], kFileAttributeDirectory, H.now, none⟩
      · rw [find_insert hadm] at h
        split at h
        · refine Or.inr ⟨hp, ?_⟩
          rw [← Option.some.inj h]
          rfl
        · exact Or.inl h
      · rw [insert_of_not_admits hadm] at h
        exact Or.inl h
  · rw [find_createDirectory_of_ne hp] at h
    exact Or.inl h

theorem createDirectoriesFrom_snoc (t : HostDir H) (walked p : RelPath) (n : Name) :
    t.createDirectoriesFrom walked (p ++ [n])
      = (t.createDirectoriesFrom walked p).createDirectory (walked ++ p) n := by
  induction p generalizing t walked with
  | nil => simp [createDirectoriesFrom]
  | cons m p ih => simp [createDirectoriesFrom, ih, List.append_assoc]

@[simp] theorem createDirectories_nil (t : HostDir H) : t.createDirectories [] = t := rfl

theorem createDirectories_snoc (t : HostDir H) (d : RelPath) (n : Name) :
    t.createDirectories (d ++ [n]) = (t.createDirectories d).createDirectory d n := by
  rw [createDirectories, createDirectoriesFrom_snoc, List.nil_append]
  rfl

theorem find_createDirectories_of_some {e : HostEntry} (h : t.find q = some e) :
    (t.createDirectories p).find q = some e := by
  induction p using List.reverseRecOn with
  | nil => exact h
  | append_singleton d n ih =>
    rw [createDirectories_snoc]
    exact find_createDirectory_of_some ih

/-- What is new after making directories is a directory on their path. -/
theorem find_createDirectories_new {e : HostEntry} (h : (t.createDirectories p).find q = some e) :
    t.find q = some e ∨ (H.foldPath q <+: H.foldPath p ∧ e.isDirectory = true) := by
  induction p using List.reverseRecOn with
  | nil => exact Or.inl h
  | append_singleton d n ih =>
    rw [createDirectories_snoc] at h
    rcases find_createDirectory_new h with hold | ⟨hq, hdir⟩
    · rcases ih hold with hfind | ⟨hpre, hdir⟩
      · exact Or.inl hfind
      · refine Or.inr ⟨?_, hdir⟩
        rw [H.foldPath_append]
        exact hpre.trans (List.prefix_append _ _)
    · exact Or.inr ⟨hq ▸ List.prefix_rfl, hdir⟩

/-- Directories that are there are not made again. -/
theorem createDirectories_of_hasDir (h : t.HasDir p) : t.createDirectories p = t := by
  induction p using List.reverseRecOn with
  | nil => rfl
  | append_singleton d n ih =>
    rw [createDirectories_snoc, ih h.above]
    rcases h with hnil | ⟨x, hx, _⟩
    · simp at hnil
    · exact createDirectory_of_some hx

/-- Directories are made where the names are good and no file is in the way. -/
theorem createDirectories_makes (hnames : ∀ m ∈ p, nameOk m = true)
    (hfile : ∀ q e, q <+: p → t.find q = some e → e.isDirectory = true) :
    (t.createDirectories p).HasDir p := by
  induction p using List.reverseRecOn with
  | nil => exact Or.inl rfl
  | append_singleton d n ih =>
    rw [createDirectories_snoc]
    apply createDirectory_makes
    · apply ih
      · intro m hm
        exact hnames m (List.mem_append_left _ hm)
      · intro q e hq
        exact hfile q e (hq.trans (List.prefix_append _ _))
    · exact hnames n (by simp)
    · intro e he
      rcases find_createDirectories_new he with hfind | ⟨_, hdir⟩
      · exact hfile _ e List.prefix_rfl hfind
      · exact hdir

/-! ## Files -/

/-- What a write that succeeds did. -/
structure Wrote (t t' : HostDir H) (d : RelPath) (n : Name) (attributes : UInt32)
    (modified : UInt64) (data : Data) : Prop where
  parent : t.HasDir d
  /-- A file that was there could be replaced. -/
  writable : ∀ old, t.find (d ++ [n]) = some old →
    old.isDirectory = false ∧ old.attributes &&& kUnwritableAttributes = 0
  file : ∃ x, t'.find (d ++ [n]) = some x ∧ x.content = some data ∧
    x.attributes = storedAttributes attributes ∧ x.modified = H.timeAfterSet modified
  others : ∀ p, H.foldPath p ≠ H.foldPath (d ++ [n]) → t'.find p = t.find p

theorem wrote_of_writeFile {t' : HostDir H} {attributes : UInt32} {modified : UInt64} {data : Data}
    (h : t.writeFile d n attributes modified data = .ok t') :
    Wrote t t' d n attributes modified data := by
  unfold writeFile at h
  simp only at h
  split at h
  · rename_i old hold
    split at h
    · cases h
    · rename_i hwritable
      simp only [Bool.or_eq_true, decide_eq_true_eq, not_or, ne_eq, Bool.not_eq_true,
        Decidable.not_not] at hwritable
      split at h
      · rename_i hok
        have hpath := (find_eq_some.mp hold).2
        have hat : t.find old.path = some old := by rw [t.find_congr hpath, hold]
        have hfind := find_overwrite hok hat hwritable.1
        rw [Except.ok.inj h] at hfind
        refine ⟨find_parent hold, ?_, ⟨⟨old.path, storedAttributes attributes,
          H.timeAfterSet modified, some data⟩, ?_, rfl, rfl, rfl⟩, ?_⟩
        · intro x hx
          rw [hold] at hx
          rw [← Option.some.inj hx]
          exact hwritable
        · rw [hfind, if_pos hpath]
        · intro p hp
          rw [hfind, if_neg]
          exact fun heq => hp (heq.symm.trans hpath)
      · cases h
  · rename_i hnone
    split at h
    · cases h
    · rename_i stored hstored
      split at h
      · rename_i hadm
        have hfold : H.foldPath (stored ++ [n]) = H.foldPath (d ++ [n]) := by
          rw [H.foldPath_append, H.foldPath_append, foldPath_directoryPath hstored]
        have hfind := find_insert hadm
        rw [Except.ok.inj h] at hfind
        refine ⟨hasDir_iff_directoryPath.mpr ⟨stored, hstored⟩, ?_, ⟨⟨stored ++ [n],
          storedAttributes attributes, H.timeAfterSet modified, some data⟩, ?_, rfl, rfl, rfl⟩, ?_⟩
        · intro x hx
          rw [hnone] at hx
          cases hx
        · rw [hfind, if_pos hfold]
        · intro p hp
          rw [hfind, if_neg]
          exact fun heq => hp (heq.symm.trans hfold)
      · cases h

/-- A write succeeds where the host can do it. -/
theorem writeFile_ok {a : UInt32} {modified : UInt64} {data : Data} (hd : t.HasDir d)
    (hname : nameOk n = true) (hsize : data.length < 2 ^ 63)
    (hafter : 0 < (H.timeAfterSet modified).toNat ∧ (H.timeAfterSet modified).toNat < 2 ^ 63)
    (hold : ∀ old, t.find (d ++ [n]) = some old →
      old.isDirectory = false ∧ old.attributes &&& kUnwritableAttributes = 0) :
    ∃ t', t.writeFile d n a modified data = .ok t' := by
  unfold writeFile
  simp only
  cases hfind : t.find (d ++ [n]) with
  | some old =>
    obtain ⟨hfile, hattr⟩ := hold old hfind
    have hmem := (find_eq_some.mp hfind).1
    have hok : HostEntry.Ok ⟨old.path, storedAttributes a, H.timeAfterSet modified,
        some data⟩ :=
      ⟨(t.ok old hmem).ne_nil, (t.ok old hmem).names, by simpa using hsize, hafter⟩
    simp [hfile, hattr, hok]
  | none =>
    obtain ⟨stored, hstored⟩ := hasDir_iff_directoryPath.mp hd
    have hadm : t.Admits ⟨stored ++ [n], storedAttributes a, H.timeAfterSet modified,
        some data⟩ := admits_below hstored rfl hname (by simpa using hsize) hafter hfind
    simp [hstored, hadm]

end HostDir

end LayerMount
