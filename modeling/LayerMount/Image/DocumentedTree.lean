import LayerMount.Image.DocumentedImage
import LayerMount.Image.Placed

/-!
# The tree that an image describes

`Describes entries t` says that a tree is the one that the entries of an image describe: the
files with their data, the directories, and nothing else.  The entries of the root sidecar
describe nothing.

An unpack into an empty directory writes that tree exactly when the data section is a Zstd
frame that declares a size of at most 4 GiB, no path has an empty component or a NUL, and
the host can hold the tree (`extractImage_accepts_iff`).  So it refuses what the format
document allows: an image with `flags` 0, a directory entry with a slash at its end, a frame
without its size.
-/

namespace LayerMount

open Lib

variable {H : Host}

namespace LayerImage

/-- The entry is not one of the root sidecar. -/
def Lands (H : Host) (e : StoredEntry) : Prop := skipsPath H e.path = false

instance (e : StoredEntry) : Decidable (Lands H e) := inferInstanceAs (Decidable (_ = _))

/-- The file that an entry describes, with the attributes and the time as the host sets them. -/
def fileOf (H : Host) (e : StoredEntry) : HostEntry where
  path := e.path
  attributes := storedAttributes e.header.attributes
  modified := H.timeAfterSet e.header.modified
  content := some e.data

structure Describes (entries : List StoredEntry) (t : HostDir H) : Prop where
  files : ∀ e ∈ entries, Lands H e → e.isFile = true → fileOf H e ∈ t.entries
  directories : ∀ e ∈ entries, Lands H e → e.isFile = false →
    ∃ x ∈ t.entries, x.path = e.path ∧ x.isDirectory = true
  nothingElse : ∀ x ∈ t.entries, ∃ e ∈ entries, Lands H e ∧ x.path <+: e.path ∧
    (x.isDirectory = false → e.isFile = true ∧ x.path = e.path)

/-- The entries describe a tree that the host can hold. -/
structure Holdable (H : Host) (entries : List StoredEntry) : Prop where
  names : ∀ e ∈ entries, Lands H e → ∀ n ∈ e.path, nameOk n = true
  times : ∀ e ∈ entries, Lands H e → e.isFile = true →
    0 < (H.timeAfterSet e.header.modified).toNat ∧ (H.timeAfterSet e.header.modified).toNat < 2 ^ 63
  /-- Two paths that the host takes for one are written with the same letters. -/
  oneCase : ∀ e ∈ entries, ∀ e' ∈ entries, Lands H e → Lands H e' → ∀ q q' : RelPath,
    q <+: e.path → q' <+: e'.path → H.foldPath q = H.foldPath q' → q = q'
  /-- Nothing is at or below a file but the same file once more. -/
  apart : ∀ e ∈ entries, ∀ e' ∈ entries, Lands H e → Lands H e' → e.isFile = true →
    e.path <+: e'.path → e'.isFile = true ∧ fileOf H e = fileOf H e'

/-- A file that comes again can be written again. -/
def Rewritable (H : Host) (e e' : StoredEntry) : Prop :=
  Lands H e → e.isFile = true → e.path = e'.path →
    storedAttributes e.header.attributes &&& kUnwritableAttributes = 0

structure Fits (H : Host) (entries : List StoredEntry) : Prop where
  holdable : Holdable H entries
  rewritable : entries.Pairwise (Rewritable H)

/-- What an unpack needs of an image that the document allows. -/
structure Accepted (k : Codec) (H : Host) (p : ImageParts) : Prop where
  flags : p.flags = .zstd
  frame : ∃ size, k.frameContentSize p.data = some size ∧ size.toNat = p.archive.length
  room : p.archive.length ≤ kMaxDecompressedBytes
  readable : ∀ e ∈ p.entries, e.Readable
  fits : Fits H p.entries

theorem Holdable.mono {entries more : List StoredEntry} (h : Holdable H more)
    (hsub : ∀ e ∈ entries, e ∈ more) : Holdable H entries where
  names := fun e he => h.names e (hsub e he)
  times := fun e he => h.times e (hsub e he)
  oneCase := fun e he e' he' => h.oneCase e (hsub e he) e' (hsub e' he')
  apart := fun e he e' he' => h.apart e (hsub e he) e' (hsub e' he')

theorem StoredEntry.path_ne_nil (e : StoredEntry) : e.path ≠ [] := by
  unfold StoredEntry.path
  rw [List.splitOn_eq_splitOnP]
  exact List.splitOnP_ne_nil _ _

/-! ## The spelling of new entries -/

section Spelling

variable {t : HostDir H} {d p : RelPath} {n : Name}

/-- The entries at the path and above it have it as their own path. -/
def Spelled (t : HostDir H) (p : RelPath) : Prop :=
  ∀ q : RelPath, q <+: p → ∀ x, t.find q = some x → x.path = q

theorem Spelled.directoryPath (h : Spelled t d) {stored : RelPath}
    (hstored : t.directoryPath d = some stored) : stored = d := by
  rcases HostDir.directoryPath_eq_some.mp hstored with ⟨rfl, rfl⟩ | ⟨x, hx, _, rfl⟩
  · rfl
  · exact h d List.prefix_rfl x hx

theorem mem_createDirectory (h : Spelled t d) :
    ∀ x ∈ (t.createDirectory d n).entries,
      x ∈ t.entries ∨ (x.path = d ++ [n] ∧ x.isDirectory = true) := by
  intro x hx
  unfold HostDir.createDirectory at hx
  split at hx
  · exact Or.inl hx
  · rename_i stored hstored
    have heq := h.directoryPath hstored
    subst heq
    by_cases hadm : t.Admits ⟨stored ++ [n], kFileAttributeDirectory, H.now, none⟩
    · rw [HostDir.insert_entries hadm, List.mem_append, List.mem_singleton] at hx
      rcases hx with hold | rfl
      · exact Or.inl hold
      · exact Or.inr ⟨rfl, rfl⟩
    · rw [HostDir.insert_of_not_admits hadm] at hx
      exact Or.inl hx

theorem Spelled.mono {q : RelPath} (h : Spelled t p) (hq : q <+: p) : Spelled t q :=
  fun r hr => h r (hr.trans hq)

/-- Every entry that making directories adds is a directory on the way, spelled as asked. -/
theorem mem_createDirectories (h : Spelled t p) :
    ∀ x ∈ (t.createDirectories p).entries,
      x ∈ t.entries ∨ (x.path <+: p ∧ x.isDirectory = true) := by
  induction p using List.reverseRecOn with
  | nil => exact fun x hx => Or.inl hx
  | append_singleton d n ih =>
    have hd := ih (h.mono (List.prefix_append d [n]))
    have hspelled : Spelled (t.createDirectories d) d := by
      intro q hq x hx
      obtain ⟨hmem, hfold⟩ := HostDir.find_eq_some.mp hx
      rcases hd x hmem with hold | ⟨hpre, _⟩
      · exact h q (hq.trans (List.prefix_append d [n])) x (HostDir.find_eq_some.mpr ⟨hold, hfold⟩)
      · have hlength := congrArg List.length hfold
        rw [H.length_foldPath, H.length_foldPath] at hlength
        exact (List.prefix_of_prefix_length_le hpre hq hlength.le).eq_of_length hlength
    intro x hx
    rw [HostDir.createDirectories_snoc] at hx
    rcases mem_createDirectory hspelled x hx with hold | ⟨hpath, hdir⟩
    · rcases hd x hold with hin | ⟨hpre, hdir⟩
      · exact Or.inl hin
      · exact Or.inr ⟨hpre.trans (List.prefix_append d [n]), hdir⟩
    · exact Or.inr ⟨hpath ▸ List.prefix_rfl, hdir⟩

theorem Spelled.createDirectories (h : Spelled t p) {q : RelPath} (hq : q <+: p) :
    Spelled (t.createDirectories q) p := by
  intro r hr x hx
  obtain ⟨hmem, hfold⟩ := HostDir.find_eq_some.mp hx
  rcases mem_createDirectories (h.mono hq) x hmem with hold | ⟨hpre, _⟩
  · exact h r hr x (HostDir.find_eq_some.mpr ⟨hold, hfold⟩)
  · have hlength := congrArg List.length hfold
    rw [H.length_foldPath, H.length_foldPath] at hlength
    exact (List.prefix_of_prefix_length_le (hpre.trans hq) hr hlength.le).eq_of_length hlength

/-- A file is written under the path that was asked for. -/
theorem writeFile_spelled {t' : HostDir H} {attributes : UInt32} {modified : UInt64} {data : Data}
    (h : Spelled t (d ++ [n])) (hwrite : t.writeFile d n attributes modified data = .ok t') :
    ⟨d ++ [n], storedAttributes attributes, H.timeAfterSet modified, some data⟩ ∈ t'.entries := by
  unfold HostDir.writeFile at hwrite
  simp only at hwrite
  split at hwrite
  · rename_i old hold
    have hpath := h _ List.prefix_rfl old hold
    split at hwrite
    · cases hwrite
    · rename_i hwritable
      rw [Bool.or_eq_true, not_or, Bool.not_eq_true] at hwritable
      split at hwrite
      · rename_i hok
        have hat : t.find old.path = some old := by rw [hpath, hold]
        have hfind := HostDir.find_overwrite hok hat hwritable.1 (d ++ [n])
        rw [Except.ok.inj hwrite, if_pos (by rw [hpath]), hpath] at hfind
        exact (HostDir.find_eq_some.mp hfind).1
      · cases hwrite
  · split at hwrite
    · cases hwrite
    · rename_i stored hstored
      have heq := (h.mono (List.prefix_append d [n])).directoryPath hstored
      subst heq
      split at hwrite
      · rename_i hadm
        rw [← Except.ok.inj hwrite, HostDir.insert_entries hadm]
        simp
      · cases hwrite

end Spelling

/-! ## One entry -/

section Step

variable {t t' : HostDir H} {done : List StoredEntry} {e : StoredEntry}

/-- The tree so far spells the path of the next entry as the entry does. -/
theorem Describes.spelled (h : Describes done t) (hold : Holdable H (done ++ [e]))
    (hlands : Lands H e) : Spelled t e.path := by
  intro q hq x hx
  obtain ⟨hmem, hfold⟩ := HostDir.find_eq_some.mp hx
  obtain ⟨e', he', hlands', hpre, _⟩ := h.nothingElse x hmem
  exact hold.oneCase e' (List.mem_append_left _ he') e (by simp) hlands' hlands x.path q hpre hq hfold

/-- No file is above the next entry, nor at it where it is a directory. -/
theorem Describes.isDirectory_above (h : Describes done t) (hold : Holdable H (done ++ [e]))
    (hlands : Lands H e) {q : RelPath} (hq : q <+: e.path)
    (hdir : q ≠ e.path ∨ e.isFile = false) {x : HostEntry} (hx : t.find q = some x) :
    x.isDirectory = true := by
  have hpath := h.spelled hold hlands q hq x hx
  obtain ⟨e', he', hlands', _, hfile⟩ := h.nothingElse x (HostDir.find_eq_some.mp hx).1
  by_contra hnot
  obtain ⟨hfile', heq⟩ := hfile (by simpa using hnot)
  obtain ⟨hefile, hsame⟩ := hold.apart e' (List.mem_append_left _ he') e (by simp) hlands' hlands
    hfile' (by rw [← heq, hpath]; exact hq)
  rcases hdir with hne | hdir
  · apply hne
    rw [← hpath, heq]
    exact congrArg HostEntry.path hsame
  · rw [hefile] at hdir
    cases hdir

theorem Describes.makes (h : Describes done t) (hold : Holdable H (done ++ [e]))
    (hlands : Lands H e) {q : RelPath} (hq : q <+: e.path)
    (hdir : q ≠ e.path ∨ e.isFile = false) : (t.createDirectories q).HasDir q := by
  apply HostDir.createDirectories_makes
  · intro m hm
    exact hold.names e (by simp) hlands m (hq.subset hm)
  · intro r x hr hx
    apply h.isDirectory_above hold hlands (hr.trans hq) _ hx
    rcases hdir with hne | hdir
    · refine Or.inl fun heq => hne ?_
      rw [heq] at hr
      exact hq.eq_of_length_le hr.length_le
    · exact Or.inr hdir

/-- An entry of the root sidecar changes nothing. -/
theorem Describes.skip (h : Describes done t) (hskip : ¬Lands H e) : Describes (done ++ [e]) t where
  files := by
    intro x hx hlands
    rcases List.mem_append.mp hx with hx | hx
    · exact h.files x hx hlands
    · exact absurd (List.mem_singleton.mp hx ▸ hlands) hskip
  directories := by
    intro x hx hlands
    rcases List.mem_append.mp hx with hx | hx
    · exact h.directories x hx hlands
    · exact absurd (List.mem_singleton.mp hx ▸ hlands) hskip
  nothingElse := by
    intro x hx
    obtain ⟨e', he', hfrom⟩ := h.nothingElse x hx
    exact ⟨e', List.mem_append_left _ he', hfrom⟩

theorem mem_createDirectories_of_mem {x : HostEntry} {q : RelPath} (h : x ∈ t.entries) :
    x ∈ (t.createDirectories q).entries :=
  (HostDir.find_eq_some.mp (HostDir.find_createDirectories_of_some (HostDir.find_of_mem h))).1

/-- A directory entry. -/
theorem Describes.directory (h : Describes done t) (hold : Holdable H (done ++ [e]))
    (hlands : Lands H e) (hdir : e.isFile = false) :
    Describes (done ++ [e]) (t.createDirectories e.path) where
  files := by
    intro x hx hxlands hfile
    rcases List.mem_append.mp hx with hx | hx
    · exact mem_createDirectories_of_mem (h.files x hx hxlands hfile)
    · rw [List.mem_singleton.mp hx, hdir] at hfile
      cases hfile
  directories := by
    intro x hx hxlands hxdir
    rcases List.mem_append.mp hx with hx | hx
    · obtain ⟨y, hy, hpath, hydir⟩ := h.directories x hx hxlands hxdir
      exact ⟨y, mem_createDirectories_of_mem hy, hpath, hydir⟩
    · rw [List.mem_singleton.mp hx]
      rcases h.makes hold hlands List.prefix_rfl (Or.inr hdir) with hnil | ⟨y, hy, hydir⟩
      · exact absurd hnil e.path_ne_nil
      · have hspelled := (h.spelled hold hlands).createDirectories List.prefix_rfl
        exact ⟨y, (HostDir.find_eq_some.mp hy).1, hspelled _ List.prefix_rfl y hy, hydir⟩
  nothingElse := by
    intro x hx
    rcases mem_createDirectories (h.spelled hold hlands) x hx with hx | ⟨hpre, hxdir⟩
    · obtain ⟨e', he', hfrom⟩ := h.nothingElse x hx
      exact ⟨e', List.mem_append_left _ he', hfrom⟩
    · refine ⟨e, by simp, hlands, hpre, fun hfile => ?_⟩
      rw [hxdir] at hfile
      cases hfile

/-- A file entry that is written. -/
theorem Describes.file (h : Describes done t) (hold : Holdable H (done ++ [e]))
    (hlands : Lands H e) (hfile : e.isFile = true) {d : RelPath} {n : Name} (hpath : e.path = d ++ [n])
    (hwrite : (t.createDirectories d).writeFile d n e.header.attributes e.header.modified e.data
      = .ok t') : Describes (done ++ [e]) t' := by
  have hd : d <+: e.path := hpath ▸ List.prefix_append d [n]
  have hspelled : Spelled (t.createDirectories d) (d ++ [n]) :=
    hpath ▸ (h.spelled hold hlands).createDirectories hd
  have hwrote := HostDir.wrote_of_writeFile hwrite
  have hnew : fileOf H e ∈ t'.entries := by
    rw [fileOf, hpath]
    exact writeFile_spelled hspelled hwrite
  -- What is elsewhere stays.
  have hkeeps : ∀ x ∈ t.entries, H.foldPath x.path ≠ H.foldPath e.path → x ∈ t'.entries := by
    intro x hx hne
    rw [hpath] at hne
    have hfind := hwrote.others x.path hne
    rw [HostDir.find_of_mem (mem_createDirectories_of_mem hx)] at hfind
    exact (HostDir.find_eq_some.mp hfind).1
  have hsame : ∀ x ∈ done, Lands H x → H.foldPath x.path = H.foldPath e.path → x.path = e.path :=
    fun x hx hxlands hfold => hold.oneCase x (List.mem_append_left _ hx) e (by simp) hxlands hlands
      x.path e.path List.prefix_rfl List.prefix_rfl hfold
  refine ⟨?_, ?_, ?_⟩
  · intro x hx hxlands hxfile
    rcases List.mem_append.mp hx with hx | hx
    · by_cases hfold : H.foldPath x.path = H.foldPath e.path
      · have hpre : x.path <+: e.path := hsame x hx hxlands hfold ▸ List.prefix_rfl
        rw [(hold.apart x (List.mem_append_left _ hx) e (by simp) hxlands hlands hxfile hpre).2]
        exact hnew
      · exact hkeeps _ (h.files x hx hxlands hxfile) hfold
    · rw [List.mem_singleton.mp hx]
      exact hnew
  · intro x hx hxlands hxdir
    rcases List.mem_append.mp hx with hx | hx
    · obtain ⟨y, hy, hypath, hydir⟩ := h.directories x hx hxlands hxdir
      refine ⟨y, hkeeps y hy ?_, hypath, hydir⟩
      intro hfold
      rw [hypath] at hfold
      have hpre : e.path <+: x.path := hsame x hx hxlands hfold ▸ List.prefix_rfl
      have hxfile := (hold.apart e (by simp) x (List.mem_append_left _ hx) hlands hxlands hfile hpre).1
      rw [hxdir] at hxfile
      cases hxfile
    · rw [List.mem_singleton.mp hx, hfile] at hxdir
      cases hxdir
  · intro x hx
    by_cases hfold : H.foldPath x.path = H.foldPath (d ++ [n])
    · have hxe : x = fileOf H e :=
        HostDir.eq_of_foldPath hnew hx (by rw [hfold, ← hpath]; rfl)
      rw [hxe]
      exact ⟨e, by simp, hlands, List.prefix_rfl, fun _ => ⟨hfile, rfl⟩⟩
    · have hfind := hwrote.others x.path hfold
      rw [HostDir.find_of_mem hx] at hfind
      have hmem := (HostDir.find_eq_some.mp hfind.symm).1
      rcases mem_createDirectories ((h.spelled hold hlands).mono hd) x hmem with hin | ⟨hpre, hxdir⟩
      · obtain ⟨e', he', hfrom⟩ := h.nothingElse x hin
        exact ⟨e', List.mem_append_left _ he', hfrom⟩
      · refine ⟨e, by simp, hlands, hpre.trans hd, fun hxfile => ?_⟩
        rw [hxdir] at hxfile
        cases hxfile

/-- What is at the path of a file entry that comes next is the same file. -/
theorem Describes.find_file (h : Describes done t) (hold : Holdable H (done ++ [e]))
    (hlands : Lands H e) (hfile : e.isFile = true) {d : RelPath} {n : Name} (hpath : e.path = d ++ [n])
    {x : HostEntry} (hx : (t.createDirectories d).find (d ++ [n]) = some x) :
    ∃ e' ∈ done, Lands H e' ∧ e'.isFile = true ∧ e'.path = e.path ∧ x = fileOf H e' := by
  have hd : d <+: e.path := hpath ▸ List.prefix_append d [n]
  have hspelled := (h.spelled hold hlands).createDirectories hd
  have hxpath := hspelled e.path List.prefix_rfl x (hpath ▸ hx)
  have hmem : x ∈ t.entries := by
    rcases mem_createDirectories ((h.spelled hold hlands).mono hd) x (HostDir.find_eq_some.mp hx).1
      with hin | ⟨hpre, _⟩
    · exact hin
    · have hlength := hpre.length_le
      rw [hxpath, hpath, List.length_append, List.length_singleton] at hlength
      omega
  obtain ⟨e', he', hlands', hpre, _⟩ := h.nothingElse x hmem
  rw [hxpath] at hpre
  obtain ⟨hfile', hsame⟩ := hold.apart e (by simp) e' (List.mem_append_left _ he') hlands hlands'
    hfile hpre
  have hpath' : e'.path = e.path := (congrArg HostEntry.path hsame).symm
  refine ⟨e', he', hlands', hfile', hpath', ?_⟩
  exact HostDir.eq_of_foldPath (h.files e' he' hlands' hfile') hmem
    (by rw [hxpath, ← hpath']; rfl)

/-- One entry of the unpack, read from the tree it leaves. -/
theorem Describes.step (h : Describes done t) (hold : Holdable H (done ++ [e]))
    (hplace : placeItem t e.item = .ok t') :
    Describes (done ++ [e]) t' ∧ ∀ e' ∈ done, Rewritable H e' e := by
  by_cases hlands : Lands H e
  · cases hfile : e.isFile with
    | false =>
      have hskip : skipsPath H e.item.path = false := hlands
      rw [placeItem_directory hskip hfile] at hplace
      rw [← Except.ok.inj hplace]
      refine ⟨h.directory hold hlands hfile, ?_⟩
      intro e' he' hlands' hfile' hpath
      have hpre : e'.path <+: e.path := hpath ▸ List.prefix_rfl
      have hcontra := (hold.apart e' (List.mem_append_left _ he') e (by simp) hlands' hlands hfile'
        hpre).1
      rw [hfile] at hcontra
      cases hcontra
    | true =>
      obtain ⟨d, n, hpath⟩ := (List.eq_nil_or_concat e.path).resolve_left e.path_ne_nil
      rw [List.concat_eq_append] at hpath
      have hitem : e.item.path = d ++ [n] := hpath
      rw [placeItem_file hitem hlands hfile] at hplace
      refine ⟨h.file hold hlands hfile hpath hplace, ?_⟩
      intro e' he' hlands' hfile' hpath'
      have hmem := mem_createDirectories_of_mem (q := d) (h.files e' he' hlands' hfile')
      have hfind : (t.createDirectories d).find (d ++ [n]) = some (fileOf H e') := by
        rw [← hpath, ← hpath']
        exact HostDir.find_of_mem hmem
      exact ((HostDir.wrote_of_writeFile hplace).writable _ hfind).2
  · have hskip : skipsPath H e.item.path = true := by
      rw [Lands, Bool.not_eq_false] at hlands
      exact hlands
    rw [placeItem, if_pos hskip] at hplace
    rw [← Except.ok.inj hplace]
    refine ⟨h.skip hlands, ?_⟩
    intro e' _ hlands' _ hpath
    rw [Lands, hpath] at hlands'
    exact absurd hlands' hlands

/-- One entry of the unpack is placed where a file that comes again can be written again. -/
theorem Describes.step_ok (h : Describes done t) (hold : Holdable H (done ++ [e]))
    (hsize : e.data.length < 2 ^ 63) (hrewritable : ∀ e' ∈ done, Rewritable H e' e) :
    ∃ t', placeItem t e.item = .ok t' := by
  by_cases hlands : Lands H e
  · cases hfile : e.isFile with
    | false =>
      have hskip : skipsPath H e.item.path = false := hlands
      exact ⟨_, placeItem_directory hskip hfile⟩
    | true =>
      obtain ⟨d, n, hpath⟩ := (List.eq_nil_or_concat e.path).resolve_left e.path_ne_nil
      rw [List.concat_eq_append] at hpath
      have hitem : e.item.path = d ++ [n] := hpath
      have hparent : (t.createDirectories d).HasDir d :=
        h.makes hold hlands (hpath ▸ List.prefix_append d [n]) (Or.inl (by simp [hpath]))
      have hname : nameOk n = true := hold.names e (by simp) hlands n (by simp [hpath])
      rw [placeItem_file hitem hlands hfile]
      apply HostDir.writeFile_ok hparent hname hsize (hold.times e (by simp) hlands hfile)
      intro x hx
      obtain ⟨e', he', hlands', hfile', hpath', rfl⟩ := h.find_file hold hlands hfile hpath hx
      exact ⟨rfl, hrewritable e' he' hlands' hfile' hpath'⟩
  · have hskip : skipsPath H e.item.path = true := by
      rw [Lands, Bool.not_eq_false] at hlands
      exact hlands
    exact ⟨t, by rw [placeItem, if_pos hskip]⟩

end Step

/-! ## All entries -/

theorem describes_nil : Describes [] (HostDir.empty : HostDir H) where
  files := by
    intro e he
    cases he
  directories := by
    intro e he
    cases he
  nothingElse := by
    intro x hx
    cases hx

theorem placeItems_snoc (entries : List StoredEntry) (e : StoredEntry) (t : HostDir H) :
    placeItems ((entries ++ [e]).map StoredEntry.item) t
      = placeItems (entries.map StoredEntry.item) t >>= fun t => placeItem t e.item := by
  rw [List.map_append, placeItems, List.foldlM_append]
  apply bind_congr
  intro t
  simp

/-- The run over the entries writes the tree they describe, or stops at a file that it
cannot write again. -/
theorem placeItems_describes {entries : List StoredEntry} (hold : Holdable H entries) :
    (∀ t, placeItems (entries.map StoredEntry.item) (HostDir.empty : HostDir H) = .ok t →
        Describes entries t ∧ entries.Pairwise (Rewritable H)) ∧
      ((∀ e ∈ entries, e.data.length < 2 ^ 63) → entries.Pairwise (Rewritable H) →
        ∃ t, placeItems (entries.map StoredEntry.item) (HostDir.empty : HostDir H) = .ok t) := by
  induction entries using List.reverseRecOn with
  | nil =>
    refine ⟨?_, fun _ _ => ⟨HostDir.empty, rfl⟩⟩
    intro t ht
    rw [← Except.ok.inj ht]
    exact ⟨describes_nil, List.Pairwise.nil⟩
  | append_singleton done e ih =>
    obtain ⟨ihplaced, ihruns⟩ := ih (hold.mono fun x hx => List.mem_append_left _ hx)
    have hpairs : (done ++ [e]).Pairwise (Rewritable H) ↔
        done.Pairwise (Rewritable H) ∧ ∀ e' ∈ done, Rewritable H e' e := by
      simp [List.pairwise_append]
    rw [hpairs]
    simp only [placeItems_snoc]
    constructor
    · intro t' ht'
      cases hrun : placeItems (done.map StoredEntry.item) (HostDir.empty : HostDir H) with
      | error err =>
        rw [hrun] at ht'
        cases ht'
      | ok t =>
        rw [hrun] at ht'
        obtain ⟨hdescribes, hdone⟩ := ihplaced t hrun
        obtain ⟨hstep, hrewritable⟩ := hdescribes.step hold ht'
        exact ⟨hstep, hdone, hrewritable⟩
    · intro hsize hrewritable
      obtain ⟨t, hrun⟩ := ihruns (fun x hx => hsize x (List.mem_append_left _ hx)) hrewritable.1
      have hdescribes := (ihplaced t hrun).1
      rw [hrun]
      exact hdescribes.step_ok hold (hsize e (by simp)) hrewritable.2

/-- What is above an entry of a tree is an entry too, under the same path. -/
theorem mem_above {t : HostDir H} {x : HostEntry} (hx : x ∈ t.entries) {q : RelPath}
    (hq : q <+: x.path) : q = [] ∨ q = x.path ∨ ∃ y ∈ t.entries, y.path = q ∧ y.isDirectory = true := by
  obtain ⟨rest, hrest⟩ := hq
  induction rest using List.reverseRecOn generalizing x with
  | nil => exact Or.inr (Or.inl (by rw [← hrest, List.append_nil]))
  | append_singleton rest n ih =>
    rcases t.rooted.parentIn x hx with hroot | ⟨y, hy, hypath, hydir⟩
    · rw [← hrest, ← List.append_assoc, List.dropLast_concat] at hroot
      exact Or.inl (List.append_eq_nil_iff.mp hroot).1
    · rw [← hrest, ← List.append_assoc, List.dropLast_concat] at hypath
      have hymem : y ∈ t.entries := by simpa using hy
      rcases ih hymem hypath.symm with hnil | heq | habove
      · exact Or.inl hnil
      · exact Or.inr (Or.inr ⟨y, hymem, heq.symm, hydir⟩)
      · exact Or.inr (Or.inr habove)

section Described

variable {t : HostDir H} {entries : List StoredEntry}

/-- The described tree has an entry at the path of each entry of the image. -/
theorem Describes.exists_entry (h : Describes entries t) {e : StoredEntry} (he : e ∈ entries)
    (hlands : Lands H e) : ∃ x ∈ t.entries, x.path = e.path ∧ x.isDirectory = !e.isFile := by
  cases hfile : e.isFile with
  | true => exact ⟨fileOf H e, h.files e he hlands hfile, rfl, rfl⟩
  | false => exact h.directories e he hlands hfile

/-- A tree that the host holds is one it can hold. -/
theorem Describes.holdable (h : Describes entries t) : Holdable H entries where
  names := by
    intro e he hlands
    obtain ⟨x, hx, hpath, _⟩ := h.exists_entry he hlands
    rw [← hpath]
    exact (t.ok x hx).names
  times := fun e he hlands hfile => (t.ok _ (h.files e he hlands hfile)).time
  oneCase := by
    intro e he e' he' hlands hlands' q q' hq hq' hfold
    have hexact : ∀ e ∈ entries, Lands H e → ∀ q : RelPath, q <+: e.path →
        q = [] ∨ ∃ x ∈ t.entries, x.path = q := by
      intro e he hlands q hq
      obtain ⟨x, hx, hpath, _⟩ := h.exists_entry he hlands
      rcases mem_above hx (hpath ▸ hq) with hnil | heq | ⟨y, hy, hypath, _⟩
      · exact Or.inl hnil
      · exact Or.inr ⟨x, hx, heq.symm⟩
      · exact Or.inr ⟨y, hy, hypath⟩
    rcases hexact e he hlands q hq with rfl | ⟨x, hx, rfl⟩
    · rw [H.foldPath_nil] at hfold
      exact (H.foldPath_eq_nil.mp hfold.symm).symm
    · rcases hexact e' he' hlands' q' hq' with rfl | ⟨y, hy, rfl⟩
      · rw [H.foldPath_nil] at hfold
        exact H.foldPath_eq_nil.mp hfold
      · rw [HostDir.eq_of_foldPath hy hx hfold]
  apart := by
    intro e he e' he' hlands hlands' hfile hpre
    have hx := h.files e he hlands hfile
    obtain ⟨x', hx', hpath', hkind'⟩ := h.exists_entry he' hlands'
    have hat : fileOf H e = x' := by
      rcases mem_above hx' (hpath' ▸ hpre) with hnil | heq | ⟨y, hy, hypath, hydir⟩
      · exact absurd hnil e.path_ne_nil
      · exact HostDir.eq_of_foldPath hx' hx (congrArg H.foldPath heq)
      · have hye : y = fileOf H e := HostDir.eq_of_foldPath hx hy (congrArg H.foldPath hypath)
        rw [hye] at hydir
        cases hydir
    have hfile' : e'.isFile = true := by
      rw [← hat] at hkind'
      simpa [HostEntry.isDirectory, fileOf] using hkind'
    refine ⟨hfile', hat.trans ?_⟩
    exact HostDir.eq_of_foldPath (h.files e' he' hlands' hfile') hx' (congrArg H.foldPath hpath')

end Described

/-! ## The whole image -/

section Image

variable {k : Codec} {p : ImageParts}

theorem length_le_archive {e : StoredEntry} (he : e ∈ p.entries) :
    e.data.length ≤ p.archive.length := by
  have hbytes : e.bytes.length ≤ (p.entries.flatMap StoredEntry.bytes).length := by
    obtain ⟨before, after, hsplit⟩ := List.append_of_mem he
    simp only [hsplit, List.flatMap_append, List.flatMap_cons, List.length_append]
    omega
  rw [StoredEntry.bytes, entryBytes] at hbytes
  rw [ImageParts.archive]
  simp only [List.length_append] at hbytes ⊢
  omega

theorem decompressBuffer_of_accepted (h : p.Documented k) (ha : Accepted k H p) :
    decompressBuffer k p.data = .ok p.archive := by
  obtain ⟨size, hframe, hsize⟩ := ha.frame
  have hholds := h.holdsArchive
  have hroom := ha.room
  rw [ImageParts.HoldsArchive, ha.flags] at hholds
  unfold decompressBuffer
  simp only [hframe, hsize, hholds, ne_eq, not_true_eq_false, if_false]
  rw [if_neg (by omega)]

/-- What a data section that decompresses is. -/
theorem decompressBuffer_eq_ok {data archive : Data} (h : decompressBuffer k data = .ok archive) :
    ∃ size, k.frameContentSize data = some size ∧ size.toNat = archive.length ∧
      archive.length ≤ kMaxDecompressedBytes ∧ k.decompress data archive.length = some archive := by
  unfold decompressBuffer at h
  split at h
  · cases h
  · rename_i size hframe
    split at h
    · cases h
    · rename_i hroom
      split at h
      · cases h
      · rename_i output hout
        split at h
        · cases h
        · rename_i hlength
          rw [ne_eq, not_not] at hlength
          rw [← Except.ok.inj h]
          exact ⟨size, hframe, hlength.symm, by omega, hlength ▸ hout⟩

/-- The data section of an image with `flags` 0 that starts as a Zstd frame does. -/
def LooksLikeFrame (p : ImageParts) : Prop := p.flags = .none ∧ kZstdMagic <+: p.data

theorem archive_of_decompressBuffer (hz : k.ZstdContract) (h : p.Documented k)
    (hraw : ¬LooksLikeFrame p) {archive : Data} (hdata : decompressBuffer k p.data = .ok archive)
    (hne : archive ≠ []) :
    archive = p.archive ∧ p.flags = .zstd ∧
      (∃ size, k.frameContentSize p.data = some size ∧ size.toNat = p.archive.length) ∧
      p.archive.length ≤ kMaxDecompressedBytes := by
  obtain ⟨size, hframe, hsize, hroom, hdecompress⟩ := decompressBuffer_eq_ok hdata
  have hholds := h.holdsArchive
  unfold ImageParts.HoldsArchive at hholds
  cases hflags : p.flags with
  | none =>
    rcases hz.magic p.data size hframe with hmagic | hzero
    · exact absurd ⟨hflags, hmagic⟩ hraw
    · rw [hzero, UInt64.toNat_zero] at hsize
      exact absurd (List.eq_nil_of_length_eq_zero hsize.symm) hne
  | zstd =>
    rw [hflags] at hholds
    have harchive := hz.content p.data _ _ archive p.archive hdecompress hholds
    rw [harchive] at hsize hroom
    exact ⟨harchive, rfl, ⟨size, hframe, hsize⟩, hroom⟩

/-- An unpack that succeeds has decompressed an archive and unpacked it. -/
theorem extractImage_eq_ok (h : p.Documented k) {target t : HostDir H} {verifyChecksum : Bool}
    (hrun : extractImage k (p.bytes k) target verifyChecksum = .ok t) :
    ∃ archive u, decompressBuffer k p.data = .ok archive ∧ extractArchive archive target = .ok u := by
  rw [extractImage_eq, imageContent_documented h] at hrun
  cases hdata : decompressBuffer k p.data with
  | error e =>
    rw [hdata] at hrun
    cases hrun
  | ok archive =>
    rw [hdata] at hrun
    change (extractArchive archive target >>= materializeMetadataWhiteouts _) = .ok t at hrun
    cases hextract : extractArchive archive target with
    | error e =>
      rw [hextract] at hrun
      cases hrun
    | ok u => exact ⟨archive, u, rfl, hextract⟩

/-- An unpack that succeeds has read the archive of the image, and has taken every path of it. -/
theorem accepted_of_extractImage (hz : k.ZstdContract) (h : p.Documented k)
    (hraw : ¬LooksLikeFrame p) {target t : HostDir H} {verifyChecksum : Bool}
    (hrun : extractImage k (p.bytes k) target verifyChecksum = .ok t) :
    decompressBuffer k p.data = .ok p.archive ∧ p.flags = .zstd ∧
      (∃ size, k.frameContentSize p.data = some size ∧ size.toNat = p.archive.length) ∧
      p.archive.length ≤ kMaxDecompressedBytes ∧
      ∀ e ∈ p.entries, isValidUtf8 (encodeUtf8 e.text) = true ∧
        isValidArchivePath (encodeUtf8 e.text) = true := by
  obtain ⟨archive, u, hdata, hextract⟩ := extractImage_eq_ok h hrun
  have hne : archive ≠ [] := by
    rintro rfl
    cases hextract
  obtain ⟨rfl, hflags, hframe, hroom⟩ := archive_of_decompressBuffer hz h hraw hdata hne
  refine ⟨hdata, hflags, hframe, hroom, ?_⟩
  intro e he
  by_contra hinvalid
  obtain ⟨err, herr⟩ := extractArchiveFrom_of_invalid h.framed he hinvalid
    ({ nameLength := kArchiveEndMarker } : FileEntryHeader).bytes (p.archive.length + 1)
    (⟨target, []⟩ : Unpacked H)
  rw [extractArchive, ImageParts.archive] at hextract
  rw [ImageParts.archive] at herr
  rw [herr] at hextract
  cases hextract

end Image

/-! ## Three images

A packed image of one file, the same archive with `flags` 0, and a packed image of the
directory `d` whose entry has the slash at its end. -/

theorem find_jsonKey_self (a : String) (v : Json) (rest : List (Utf8String × Json)) :
    Json.find (jsonKey a) ((jsonKey a, v) :: rest) = some v := if_pos rfl

theorem find_jsonKey_ne {a b : String} (h : a ≠ b) (v : Json) (rest : List (Utf8String × Json)) :
    Json.find (jsonKey a) ((jsonKey b, v) :: rest) = Json.find (jsonKey a) rest :=
  if_neg (jsonKey_ne h)

def documentFields (compression : CompressionType) (fileCount compressedSize : UInt64) :
    List (Utf8String × Json) :=
  [(jsonKey "author", .string []),
    (jsonKey "compressedSize", .number compressedSize),
    (jsonKey "compressionType", .string (compressionTypeToString compression)),
    (jsonKey "createdAt", .string (jsonKey "2026-01-01T00:00:00Z")),
    (jsonKey "description", .string []),
    (jsonKey "fileCount", .number fileCount),
    (jsonKey "labels", .object []),
    (jsonKey "layerId", .string (jsonKey "7F9C24E8-3B12-4FEF-91E0-66B4A1A0D5C3")),
    (jsonKey "parentLayerId", .null),
    (jsonKey "tags", .array []),
    (jsonKey "uncompressedSize", .number 50),
    (jsonKey "whiteouts", .array [])]

/-- The text of that metadata. -/
def documentText (compression fileCount compressedSize : String) : Utf8String :=
  Array.toList <| ByteArray.data <| String.toUTF8 <|
  "\x7b\n  \"author\": \"\",\n  \"compressedSize\": " ++ compressedSize ++ ",\n" ++
  "  \"compressionType\": \"" ++ compression ++ "\",\n  \"createdAt\": \"2026-01-01T00:00:00Z\",\n" ++
  "  \"description\": \"\",\n  \"fileCount\": " ++ fileCount ++ ",\n  \"labels\": \x7b\x7d,\n" ++
  "  \"layerId\": \"7F9C24E8-3B12-4FEF-91E0-66B4A1A0D5C3\",\n  \"parentLayerId\": null,\n" ++
  "  \"tags\": [],\n  \"uncompressedSize\": 50,\n  \"whiteouts\": []\n\x7d"

theorem metadataDocument_fields (compression : CompressionType) (fileCount compressedSize : UInt64) :
    MetadataDocument (documentFields compression fileCount compressedSize) [] := by
  unfold documentFields
  constructor
  all_goals
    simp (disch := decide) only [HasText, HasNumber, find_jsonKey_self, find_jsonKey_ne,
      Option.some.injEq, Json.string.injEq, Json.number.injEq, Json.array.injEq, Json.object.injEq,
      List.map_nil, exists_eq']
  · exact Or.inr trivial
  · exact ⟨[], rfl⟩
  · exact ⟨compression, rfl⟩
  · exact ⟨[], rfl⟩

def fileEntry : StoredEntry where
  text := ['a']
  header := { nameLength := 1, size := 1, attributes := 0x20, modified := 133000000000000000 }
  data := [1]

def slashedEntry : StoredEntry where
  text := ['d', '/']
  header :=
    { nameLength := 2, attributes := kFileAttributeDirectory, modified := 133000000000000000
      isDirectory := 1 }
  data := []

theorem framed_fileEntry : fileEntry.Framed where
  ne_nil := by decide
  length_le := by decide
  size := rfl
  directory := Or.inl rfl
  whiteout := Or.inl rfl
  attributes := by decide

theorem framed_slashedEntry : slashedEntry.Framed where
  ne_nil := by decide
  length_le := by decide
  size := rfl
  directory := Or.inr ⟨rfl, rfl⟩
  whiteout := Or.inl rfl
  attributes := by decide

/-- The image of one entry. -/
def partsOf (flags : CompressionType) (text : Utf8String) (fields : List (Utf8String × Json))
    (e : StoredEntry) : ImageParts where
  version := kLayerImageVersion
  flags := flags
  gap := []
  text := text
  fields := fields
  whiteouts := []
  data :=
    let archive := e.bytes ++ ({ nameLength := kArchiveEndMarker } : FileEntryHeader).bytes
    if flags = .zstd then storedFrame archive else archive
  entries := [e]

def packedParts : ImageParts :=
  partsOf .zstd (documentText "zstd" "1" "59") (documentFields .zstd 1 59) fileEntry

def rawParts : ImageParts :=
  partsOf .none (documentText "none" "1" "50") (documentFields .none 1 50) fileEntry

def slashedParts : ImageParts :=
  partsOf .zstd (documentText "zstd" "0" "59") (documentFields .zstd 0 59) slashedEntry

/-- The SHA-256 of the data section of `rawParts`. -/
def rawDigest : Data :=
  [76, 54, 166, 129, 250, 47, 162, 243, 190, 192, 19, 141, 213, 218, 10, 16, 189, 107, 49, 116,
    119, 158, 240, 238, 246, 247, 74, 46, 231, 238, 152, 149]

/-- The SHA-256 of the data section of `slashedParts`. -/
def slashedDigest : Data :=
  [87, 17, 150, 199, 243, 137, 91, 81, 195, 27, 50, 28, 44, 47, 197, 220, 229, 79, 113, 214, 79, 87,
    20, 196, 38, 215, 225, 134, 16, 147, 153, 127]

def codecOf (digest : Data) (hdigest : digest.length = 32) (p : ImageParts) : Codec :=
  storedCodec digest hdigest p.text (.object p.fields)

theorem zstdContract_codecOf (digest : Data) (hdigest : digest.length = 32) (p : ImageParts) :
    (codecOf digest hdigest p).ZstdContract where
  magic := by
    intro data size h
    simp only [codecOf, storedCodec] at h
    split at h
    · rename_i htake
      have hmagic : kZstdMagic <+: data.take 5 := by
        rw [htake]
        decide
      exact Or.inl (hmagic.trans (List.take_prefix 5 data))
    · cases h
  content := by
    intro data n n' output output' h h'
    simp only [codecOf, storedCodec] at h h'
    split at h
    · split at h'
      · exact Option.some.inj (h.symm.trans h')
      · cases h'
    · cases h

/-- The image of one entry is documented where its parts fit. -/
theorem documented_partsOf {k : Codec} {flags : CompressionType} {text : Utf8String}
    {fields : List (Utf8String × Json)} {e : StoredEntry}
    (hparsed : k.parse text = some (.object fields)) (htext : text.getLast? ≠ some 0)
    (hfields : MetadataDocument fields []) (hframed : e.Framed)
    (hlength : text.length + (partsOf flags text fields e).data.length < 2 ^ 62)
    (hholds : (partsOf flags text fields e).HoldsArchive k) :
    (partsOf flags text fields e).Documented k where
  version := UInt32.le_refl _
  length_lt := by
    have hheader : ((partsOf flags text fields e).header k).bytes.length = 128 :=
      LayerImageHeader.length_bytes rfl (k.length_sha256 _) rfl
    rw [ImageParts.bytes]
    simp only [List.length_append, hheader, List.length_singleton]
    change 128 + (0 + (text.length + 1 + _)) < _
    omega
  parsed := hparsed
  text := htext
  metadata := hfields
  holdsArchive := hholds
  framed := by
    intro x hx
    rw [List.mem_singleton.mp hx]
    exact hframed
  twice := by
    intro w hw
    cases hw

theorem parse_codecOf (digest : Data) (hdigest : digest.length = 32) (p : ImageParts) :
    (codecOf digest hdigest p).parse p.text = some (.object p.fields) := if_pos rfl

theorem documented_packedParts : packedParts.Documented (codecOf oneFileDigest rfl packedParts) :=
  documented_partsOf (parse_codecOf _ _ packedParts) (by decide +kernel)
    (metadataDocument_fields .zstd 1 59) framed_fileEntry (by decide +kernel)
    (by change _ = some _; decide +kernel)

theorem documented_rawParts : rawParts.Documented (codecOf rawDigest rfl rawParts) :=
  documented_partsOf (parse_codecOf _ _ rawParts) (by decide +kernel)
    (metadataDocument_fields .none 1 50) framed_fileEntry (by decide +kernel)
    (by change _ = _; decide +kernel)

theorem documented_slashedParts :
    slashedParts.Documented (codecOf slashedDigest rfl slashedParts) :=
  documented_partsOf (parse_codecOf _ _ slashedParts) (by decide +kernel)
    (metadataDocument_fields .zstd 0 59) framed_slashedEntry (by decide +kernel)
    (by change _ = some _; decide +kernel)

/-- One entry with good names describes a tree that the host can hold. -/
theorem fits_singleton {e : StoredEntry} (hnames : ∀ n ∈ e.path, nameOk n = true)
    (htime : e.header.modified.toNat < 2 ^ 63) : Fits H [e] where
  holdable := by
    refine ⟨?_, ?_, ?_, ?_⟩
    · intro x hx _
      rw [List.mem_singleton.mp hx]
      exact hnames
    · intro x hx _ _
      rw [List.mem_singleton.mp hx]
      exact H.timeAfterSet_ok htime
    · intro x hx x' hx' _ _ q q' hq hq' hfold
      rw [List.mem_singleton.mp hx] at hq
      rw [List.mem_singleton.mp hx'] at hq'
      have hlength := congrArg List.length hfold
      rw [H.length_foldPath, H.length_foldPath] at hlength
      exact (List.prefix_of_prefix_length_le hq hq' hlength.le).eq_of_length hlength
    · intro x hx x' hx' _ _ hfile _
      rw [List.mem_singleton.mp hx] at hfile ⊢
      rw [List.mem_singleton.mp hx']
      exact ⟨hfile, rfl⟩
  rewritable := List.pairwise_singleton _ _

end LayerImage

end LayerMount
