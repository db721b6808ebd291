import LayerMount.Image.OpenedPaths
import LayerMount.Image.Unpackable

/-!
# The paths that an unpack writes

`extractImagePaths` lists the directories that an unpack makes and the files that it opens
for writing, each as the host opens it.  A path that is not in the list keeps what it held
(`find_extractImage_of_not_written`).

The entries of an archive stay inside the target and out of the root sidecar.  A whiteout of
the metadata does too, unless the text before a NUL in its first name opens as the sidecar or
as the sidecar's whiteout marker (`OpensReserved`): the unpacker compares the whole name.
-/

namespace LayerMount

open Lib

variable {H : Host}

/-! ## What a call opens -/

namespace HostDir

/-- The host does not refuse the name.  A colon in it names a stream. -/
def takesName (n : Name) : Bool := nameOk n || n.contains ':'

/-- `CreateDirectoryW` makes a directory. -/
def makesDirectory (t : HostDir H) (d : RelPath) (n : Name) : Bool :=
  (t.directoryPath d).isSome && (t.find (d ++ [n])).isNone && takesName n

/-- The directories that `create_directories` makes. -/
def madeDirectoriesFrom (t : HostDir H) (walked : RelPath) : RelPath → List RelPath
  | [] => []
  | n :: rest =>
    (if t.makesDirectory walked n then [walked ++ [n]] else []) ++
      madeDirectoriesFrom (t.createDirectory walked n) (walked ++ [n]) rest

def madeDirectories (t : HostDir H) (p : RelPath) : List RelPath := madeDirectoriesFrom t [] p

/-- A file opens for writing, or is made. -/
def opensForWriting (t : HostDir H) (d : RelPath) (n : Name) : Bool :=
  match t.find (d ++ [n]) with
  | some old => !old.isDirectory && old.attributes &&& kUnwritableAttributes = 0
  | none => (t.directoryPath d).isSome && takesName n

variable {t : HostDir H} {d p q x : RelPath} {n : Name}

theorem createDirectory_of_not_makes (h : t.makesDirectory d n = false) :
    t.createDirectory d n = t := by
  unfold createDirectory
  split
  · rfl
  · rename_i stored hstored
    apply insert_of_not_admits
    rintro ⟨hok, hnone, _⟩
    have hname : nameOk n = true := hok.names n (by simp)
    have hfold : H.foldPath (stored ++ [n]) = H.foldPath (d ++ [n]) := by
      rw [H.foldPath_append, H.foldPath_append, foldPath_directoryPath hstored]
    have hfree : t.find (d ++ [n]) = none := by
      rw [← t.find_congr hfold]
      exact hnone
    simp [makesDirectory, hstored, hfree, takesName, hname] at h

theorem find_createDirectoriesFrom_of_not_made (rest : RelPath) :
    ∀ (t : HostDir H) (walked : RelPath),
      (∀ q ∈ t.madeDirectoriesFrom walked rest, H.foldPath q ≠ H.foldPath x) →
      (t.createDirectoriesFrom walked rest).find x = t.find x := by
  induction rest with
  | nil =>
    intro t walked _
    rfl
  | cons n rest ih =>
    intro t walked h
    rw [createDirectoriesFrom, ih]
    · by_cases hmakes : t.makesDirectory walked n = true
      · apply find_createDirectory_of_ne
        intro heq
        exact h (walked ++ [n]) (by simp [madeDirectoriesFrom, hmakes]) heq.symm
      · rw [Bool.not_eq_true] at hmakes
        rw [createDirectory_of_not_makes hmakes]
    · intro q hq
      exact h q (List.mem_append_right _ hq)

theorem find_createDirectories_of_not_made
    (h : ∀ q ∈ t.madeDirectories p, H.foldPath q ≠ H.foldPath x) :
    (t.createDirectories p).find x = t.find x :=
  find_createDirectoriesFrom_of_not_made p t [] h

theorem opensForWriting_of_writeFile {t' : HostDir H} {attributes : UInt32} {modified : UInt64}
    {data : Data} (h : t.writeFile d n attributes modified data = .ok t') :
    t.opensForWriting d n = true := by
  have hwrote := wrote_of_writeFile h
  unfold opensForWriting
  cases hfind : t.find (d ++ [n]) with
  | some old =>
    obtain ⟨hfile, hattr⟩ := hwrote.writable old hfind
    simp [hfile, hattr]
  | none =>
    obtain ⟨stored, hstored⟩ := hasDir_iff_directoryPath.mp hwrote.parent
    unfold writeFile at h
    simp only [hfind, hstored] at h
    split at h
    · rename_i hadm
      have hname : nameOk n = true := hadm.1.names n (by simp)
      simp [hstored, takesName, hname]
    · cases h

/-! ## The names of what is opened -/

/-- The characters of a name in a path that the host opens. -/
def PlainChars (n : Name) : Prop := ∀ c ∈ n, c.toNat ≠ 0 ∧ c ≠ ':' ∧ isSeparator c = false

theorem archiveName_of_foldName {n m : Name} (hchars : PlainChars n) (hm : nameOk m = true)
    (h : H.foldName n = H.foldName m) : ArchiveName n := by
  have harchive := archiveName_of_nameOk hm
  have hdots : ∀ k, n ≠ List.replicate k '.' ∨ m = List.replicate k '.' := by
    intro k
    rw [or_iff_not_imp_left, not_not]
    intro heq
    have hfold : H.foldName (List.replicate k '.') = List.replicate k '.' := by
      rw [Host.foldName, List.map_replicate, H.fold_ascii '.' (by decide)]
      rfl
    rw [heq, hfold] at h
    exact H.foldName_eq_dots h.symm
  refine ⟨?_, ?_, ?_, hchars⟩
  · exact (hdots 0).resolve_right harchive.ne_nil
  · exact (hdots 1).resolve_right harchive.ne_dot
  · exact (hdots 2).resolve_right harchive.ne_dots

theorem archiveNames_of_find {e : HostEntry} (hchars : ∀ n ∈ p, PlainChars n)
    (h : t.find p = some e) : ∀ n ∈ p, ArchiveName n := by
  obtain ⟨hmem, hpath⟩ := find_eq_some.mp h
  intro n hn
  have hfold : H.foldName n ∈ H.foldPath e.path := by
    rw [hpath]
    exact List.mem_map_of_mem hn
  obtain ⟨m, hm, heq⟩ := List.mem_map.mp hfold
  exact archiveName_of_foldName (hchars n hn) ((t.ok e hmem).names m hm) heq.symm

theorem archiveNames_of_directoryPath (hchars : ∀ n ∈ d, PlainChars n)
    (h : (t.directoryPath d).isSome = true) : ∀ n ∈ d, ArchiveName n := by
  obtain ⟨stored, hstored⟩ := Option.isSome_iff_exists.mp h
  rcases directoryPath_eq_some.mp hstored with ⟨rfl, _⟩ | ⟨e, he, _, _⟩
  · simp
  · exact archiveNames_of_find hchars he

theorem archiveName_of_takesName (hchars : PlainChars n) (h : takesName n = true) :
    ArchiveName n := by
  rw [takesName, Bool.or_eq_true] at h
  rcases h with hok | hcolon
  · exact archiveName_of_nameOk hok
  · have hmem : ':' ∈ n := by simpa using hcolon
    exact absurd rfl (hchars ':' hmem).2.1

theorem archiveNames_of_opensForWriting (hchars : ∀ m ∈ d ++ [n], PlainChars m)
    (h : t.opensForWriting d n = true) : ∀ m ∈ d ++ [n], ArchiveName m := by
  unfold opensForWriting at h
  cases hfind : t.find (d ++ [n]) with
  | some old => exact archiveNames_of_find hchars hfind
  | none =>
    simp only [hfind, Bool.and_eq_true] at h
    intro m hm
    rcases List.mem_append.mp hm with hd | hn
    · exact archiveNames_of_directoryPath (fun x hx => hchars x (List.mem_append_left _ hx)) h.1 m hd
    · rw [List.mem_singleton.mp hn]
      exact archiveName_of_takesName (hchars n (by simp)) h.2

/-- A directory that is made is one of those on the way, below one that is there. -/
theorem made_of_mem {rest : RelPath} :
    ∀ {t : HostDir H} {walked q : RelPath}, q ∈ t.madeDirectoriesFrom walked rest →
      ∃ above n below, rest = above ++ n :: below ∧ q = (walked ++ above) ++ [n] ∧
        ∃ t' : HostDir H, t'.makesDirectory (walked ++ above) n = true := by
  induction rest with
  | nil =>
    intro t walked q hq
    cases hq
  | cons m rest ih =>
    intro t walked q hq
    rw [madeDirectoriesFrom, List.mem_append] at hq
    rcases hq with hq | hq
    · split at hq
      · rename_i hmakes
        refine ⟨[], m, rest, rfl, ?_, t, ?_⟩
        · rw [List.append_nil]
          exact List.mem_singleton.mp hq
        · rw [List.append_nil]
          exact hmakes
      · cases hq
    · obtain ⟨above, n, below, hrest, hpath, t', hmakes⟩ := ih hq
      have hwalked : walked ++ [m] ++ above = walked ++ m :: above := by simp
      rw [hwalked] at hpath hmakes
      exact ⟨m :: above, n, below, by rw [hrest, List.cons_append], hpath, t', hmakes⟩

/-- What is made on the way down a path with plain names. -/
theorem made_names (hchars : ∀ n ∈ p, PlainChars n) (hq : q ∈ t.madeDirectories p) :
    q ≠ [] ∧ q <+: p ∧ ∀ n ∈ q, ArchiveName n := by
  obtain ⟨above, n, below, rfl, hpath, t', hmakes⟩ := made_of_mem hq
  rw [List.nil_append] at hpath hmakes
  simp only [makesDirectory, Bool.and_eq_true] at hmakes
  have hpre : q <+: above ++ n :: below := by
    rw [hpath]
    exact ⟨below, by simp⟩
  refine ⟨by simp [hpath], hpre, ?_⟩
  intro m hm
  have hmchars := hchars m (hpre.subset hm)
  rw [hpath, List.mem_append, List.mem_singleton] at hm
  rcases hm with hm | rfl
  · exact archiveNames_of_directoryPath
      (fun x hx => hchars x (List.mem_append_left _ hx)) hmakes.1.1 m hm
  · exact archiveName_of_takesName hmchars hmakes.2

end HostDir

/-! ## The paths of a turn -/

/-- The path lies in the target, and its first name opens neither as the root sidecar nor as
the whiteout marker of the root sidecar. -/
structure StaysInside (H : Host) (p : RelPath) : Prop where
  names : ∀ n ∈ p, ArchiveName n
  first : skipsPath H p = false

/-- What the write of a file opens: the directories above it, then the file. -/
def pathsOfWrite (t : HostDir H) (p : RelPath) : List RelPath :=
  t.madeDirectories (openedPath p.dropLast) ++
    if (t.createDirectories (openedPath p.dropLast)).opensForWriting (openedPath p).dropLast
        ((openedPath p).getLastD []) then
      [openedPath p]
    else []

def pathsOfEntry (t : HostDir H) (entry : ArchiveEntry) : List RelPath :=
  if unpackSkipsEntry t entry.name then []
  else if entry.header.isDirectory ≠ 0 then t.madeDirectories (openedPath (pathOf entry.name))
  else pathsOfWrite t (pathOf entry.name)

def pathsOfWhiteout (already : List WideString) (t : HostDir H) (logical : WideString) :
    List RelPath :=
  if !isValidArchivePath (wideToUtf8 logical) then []
  else
    let marker := makeWhiteoutMarkerPath logical
    if already.contains (toLower marker) then []
    else if unpackSkipsEntry t marker then []
    else pathsOfWrite t (pathOf marker)

theorem openedPath_ne_nil {p : RelPath} (h : p ≠ []) : openedPath p ≠ [] := by
  obtain ⟨n, p, rfl⟩ := List.exists_cons_of_ne_nil h
  rw [openedPath]
  split
  · exact List.cons_ne_nil _ _
  · exact List.cons_ne_nil _ _

theorem openedPath_dropLast (p : RelPath) : openedPath p.dropLast <+: openedPath p := by
  induction p with
  | nil => exact List.prefix_rfl
  | cons n p ih =>
    cases p with
    | nil => exact List.nil_prefix
    | cons m p =>
      rw [List.dropLast_cons_of_ne_nil (List.cons_ne_nil m p), openedPath, openedPath]
      split
      · exact List.prefix_rfl
      · exact (List.prefix_cons_inj n).mpr ih

theorem dropLast_append_getLastD {p : RelPath} (h : p ≠ []) : p.dropLast ++ [p.getLastD []] = p := by
  rw [List.getLastD_eq_getLast?, List.getLast?_eq_some_getLast h]
  exact List.dropLast_append_getLast h

/-- The names of a path that the host opens are plain where the text passed the checks. -/
theorem plainChars_openedPath {p : RelPath}
    (h : ∀ n ∈ p, ∀ c ∈ n, c ≠ ':' ∧ isSeparator c = false) :
    ∀ n ∈ openedPath p, HostDir.PlainChars n := by
  induction p with
  | nil =>
    intro n hn
    cases hn
  | cons m p ih =>
    intro n hn c hc
    rw [openedPath] at hn
    split at hn
    · rw [List.mem_singleton.mp hn, cutAtNul] at hc
      have hnul := List.mem_takeWhile_imp hc
      rw [decide_eq_true_eq] at hnul
      have hmem := (List.takeWhile_prefix _).subset hc
      refine ⟨?_, h m (by simp) c hmem⟩
      intro hzero
      exact hnul (Char.toNat_inj.mp hzero)
    · rename_i hnul
      rcases List.mem_cons.mp hn with rfl | hn
      · refine ⟨?_, h n (by simp) c hc⟩
        intro hzero
        have hchar : c = '\x00' := Char.toNat_inj.mp hzero
        exact hnul (hchar ▸ hc)
      · exact ih (fun x hx => h x (List.mem_cons_of_mem _ hx)) n hn c hc

theorem mem_pathsOfWrite {t : HostDir H} {p q : RelPath} (hne : p ≠ [])
    (h : ∀ n ∈ p, ∀ c ∈ n, c ≠ ':' ∧ isSeparator c = false) (hq : q ∈ pathsOfWrite t p) :
    q ≠ [] ∧ q <+: openedPath p ∧ ∀ n ∈ q, ArchiveName n := by
  have hchars := plainChars_openedPath h
  have hopened := openedPath_ne_nil hne
  rcases List.mem_append.mp hq with hmade | hfile
  · have hparent : ∀ n ∈ openedPath p.dropLast, HostDir.PlainChars n :=
      fun n hn => hchars n ((openedPath_dropLast p).subset hn)
    obtain ⟨hqne, hpre, hnames⟩ := HostDir.made_names hparent hmade
    exact ⟨hqne, hpre.trans (openedPath_dropLast p), hnames⟩
  · split at hfile
    · rename_i hopens
      rw [List.mem_singleton.mp hfile]
      refine ⟨hopened, List.prefix_rfl, ?_⟩
      have hsnoc := dropLast_append_getLastD hopened
      rw [← hsnoc]
      apply HostDir.archiveNames_of_opensForWriting _ hopens
      rw [hsnoc]
      exact hchars
    · cases hfile

theorem skipsPath_of_first {p q : RelPath} (hne : q ≠ []) (h : q <+: p) :
    skipsPath H q = skipsPath H p := by
  obtain ⟨n, q, rfl⟩ := List.exists_cons_of_ne_nil hne
  obtain ⟨rest, rfl⟩ := h
  rfl

/-! ## One turn -/

theorem not_mem_nul_of_archiveName {n : Name} (h : ArchiveName n) : '\x00' ∉ n :=
  fun hmem => (h.chars _ hmem).1 rfl

/-- An entry of the archive stays inside. -/
theorem pathsOfEntry_staysInside {archive rest : Data} {entry : ArchiveEntry}
    (hread : readArchiveEntry archive = .ok (some entry, rest)) (t : HostDir H) :
    ∀ p ∈ pathsOfEntry t entry, StaysInside H p := by
  have hnames := archiveNames_of_read hread
  have hchars : ∀ n ∈ pathOf entry.name, ∀ c ∈ n, c ≠ ':' ∧ isSeparator c = false :=
    fun n hn c hc => ((hnames n hn).chars c hc).2
  have hopened : openedPath (pathOf entry.name) = pathOf entry.name :=
    openedPath_of_not_mem fun n hn => not_mem_nul_of_archiveName (hnames n hn)
  have hfirst : (pathOf entry.name).headD [] ≠ [] := by
    obtain ⟨n, p, hpath⟩ := List.exists_cons_of_ne_nil (pathOf_ne_nil entry.name)
    rw [hpath, List.headD_cons]
    exact (hnames n (by simp [hpath])).ne_nil
  intro p hp
  unfold pathsOfEntry at hp
  split at hp
  · cases hp
  rename_i hskip
  rw [Bool.not_eq_true] at hskip
  have hskips := skipsPath_of_not_skipped hfirst hskip
  have hparts : p ≠ [] ∧ p <+: openedPath (pathOf entry.name) ∧ ∀ n ∈ p, ArchiveName n := by
    split at hp
    · exact HostDir.made_names (plainChars_openedPath hchars) hp
    · exact mem_pathsOfWrite (pathOf_ne_nil _) hchars hp
  obtain ⟨hne, hpre, harchive⟩ := hparts
  rw [hopened] at hpre
  exact ⟨harchive, (skipsPath_of_first hne hpre).trans hskips⟩

/-- The turn of a whiteout gets past every check. -/
structure Unchecked (already : List WideString) (t : HostDir H) (logical : WideString) : Prop where
  valid : isValidArchivePath (wideToUtf8 logical) = true
  fresh : already.contains (toLower (makeWhiteoutMarkerPath logical)) = false
  unskipped : unpackSkipsEntry t (makeWhiteoutMarkerPath logical) = false

/-- The turn of a whiteout gets past every check, and the text before a NUL in the first name
of its marker opens for writing as the root sidecar or as the sidecar's whiteout marker. -/
structure OpensReserved (already : List WideString) (t : HostDir H) (logical : WideString) : Prop
    extends Unchecked already t logical where
  nul : '\x00' ∈ (pathOf (makeWhiteoutMarkerPath logical)).headD []
  reserved : skipsPath H [cutAtNul ((pathOf (makeWhiteoutMarkerPath logical)).headD [])] = true
  opens : t.opensForWriting [] (cutAtNul ((pathOf (makeWhiteoutMarkerPath logical)).headD []))
    = true

theorem pathsOfWhiteout_of_unchecked {already : List WideString} {t : HostDir H}
    {logical : WideString} (h : Unchecked already t logical) :
    pathsOfWhiteout already t logical
      = pathsOfWrite t (pathOf (makeWhiteoutMarkerPath logical)) := by
  unfold pathsOfWhiteout
  simp only [h.valid, Bool.not_true, Bool.false_eq_true, if_false, h.fresh, h.unskipped]

theorem pathsOfWhiteout_of_checked {already : List WideString} {t : HostDir H}
    {logical : WideString} (h : ¬Unchecked already t logical) :
    pathsOfWhiteout already t logical = [] := by
  unfold pathsOfWhiteout
  split
  · rfl
  rename_i hvalid
  simp only
  split
  · rfl
  rename_i hfresh
  split
  · rfl
  rename_i hskip
  rw [Bool.not_eq_true] at hfresh hskip
  exact absurd ⟨by simpa using hvalid, hfresh, hskip⟩ h

theorem validNames_of_isValidArchivePath {w : WideString}
    (h : isValidArchivePath (wideToUtf8 w) = true) : validNames (pathOf w) = true := by
  unfold wideToUtf8 at h
  split at h
  · rw [isValidArchivePath_encodeUtf8] at h
    exact h
  · exact absurd h (by decide)

/-- The characters of a marker whose path passed the check. -/
theorem chars_of_marker {w : WideString} (h : isValidArchivePath (wideToUtf8 w) = true) :
    ∀ n ∈ pathOf (makeWhiteoutMarkerPath w), n ≠ [] ∧ ∀ c ∈ n, c ≠ ':' ∧ isSeparator c = false := by
  have hvalid := validNames_of_isValidArchivePath h
  simp only [validNames, List.all_eq_true, Bool.and_eq_true, Bool.not_eq_true',
    List.isEmpty_eq_false_iff, List.contains_eq_mem, decide_eq_false_iff_not] at hvalid
  intro n hn
  have hsep := not_of_mem_splitOnP hn
  rw [pathOf_makeWhiteoutMarkerPath, getWhiteoutFileName, List.mem_append,
    List.mem_singleton] at hn
  rcases hn with hn | hn
  · obtain ⟨⟨⟨hne, _⟩, _⟩, hcolon⟩ := hvalid n ((List.dropLast_prefix _).subset hn)
    refine ⟨hne, ?_⟩
    intro c hc
    exact ⟨fun heq => hcolon (heq ▸ hc), hsep c hc⟩
  · have hlast : (pathOf w).getLastD [] ∈ pathOf w := by
      rw [List.getLastD_eq_getLast?, List.getLast?_eq_some_getLast (pathOf_ne_nil w)]
      exact List.getLast_mem _
    have hcolon := (hvalid _ hlast).2
    refine ⟨by simp [hn, whiteoutName, kWhiteoutPrefix], ?_⟩
    intro c hc
    refine ⟨?_, hsep c hc⟩
    rintro rfl
    rw [hn, whiteoutName, List.mem_append] at hc
    rcases hc with hpre | hc
    · exact absurd hpre (by decide)
    · exact hcolon hc

/-- Where the first name is cut, the file opens or a directory is made in its place exactly
where it opens for writing before. -/
theorem pathsOfWrite_of_cut {t : HostDir H} {n : Name} {p : RelPath} (hnul : '\x00' ∈ n) :
    pathsOfWrite t (n :: p) ≠ [] ↔ t.opensForWriting [] (cutAtNul n) = true := by
  have hopened : openedPath (n :: p) = [cutAtNul n] := by rw [openedPath, if_pos hnul]
  unfold pathsOfWrite
  rw [hopened]
  cases p with
  | nil =>
    simp [openedPath, HostDir.madeDirectories, HostDir.madeDirectoriesFrom]
  | cons m p =>
    have hparent : openedPath (n :: m :: p).dropLast = [cutAtNul n] := by
      rw [List.dropLast_cons_of_ne_nil (List.cons_ne_nil m p), openedPath, if_pos hnul]
    rw [hparent]
    by_cases hmakes : t.makesDirectory [] (cutAtNul n) = true
    · have hopens : t.opensForWriting [] (cutAtNul n) = true := by
        simp only [HostDir.makesDirectory, Bool.and_eq_true, Option.isNone_iff_eq_none] at hmakes
        have hfree : t.find [cutAtNul n] = none := hmakes.1.2
        simp [HostDir.opensForWriting, hfree, hmakes]
      simp [HostDir.madeDirectories, HostDir.madeDirectoriesFrom, hmakes, hopens]
    · rw [Bool.not_eq_true] at hmakes
      have hsame : t.createDirectories [cutAtNul n] = t := by
        rw [HostDir.createDirectories, HostDir.createDirectoriesFrom,
          HostDir.createDirectory_of_not_makes hmakes]
        rfl
      simp [HostDir.madeDirectories, HostDir.madeDirectoriesFrom, hmakes, hsame]

theorem mem_pathsOfWhiteout {already : List WideString} {t : HostDir H} {logical : WideString}
    {p : RelPath} (hp : p ∈ pathsOfWhiteout already t logical) :
    Unchecked already t logical ∧ (∀ n ∈ p, ArchiveName n) ∧
      skipsPath H p = skipsPath H (openedPath (pathOf (makeWhiteoutMarkerPath logical))) := by
  by_cases h : Unchecked already t logical
  · rw [pathsOfWhiteout_of_unchecked h] at hp
    obtain ⟨hne, hpre, hnames⟩ := mem_pathsOfWrite (pathOf_ne_nil _)
      (fun n hn => (chars_of_marker h.valid n hn).2) hp
    exact ⟨h, hnames, skipsPath_of_first hne hpre⟩
  · rw [pathsOfWhiteout_of_checked h] at hp
    cases hp

/-- Where no NUL is in the first name, the name that was compared is the one that opens. -/
theorem skipsPath_openedPath {t : HostDir H} {w : WideString} (hne : (pathOf w).headD [] ≠ [])
    (hskip : unpackSkipsEntry t w = false) (hnul : '\x00' ∉ (pathOf w).headD []) :
    skipsPath H (openedPath (pathOf w)) = false := by
  have hskips := skipsPath_of_not_skipped hne hskip
  obtain ⟨n, p, hpath⟩ := List.exists_cons_of_ne_nil (pathOf_ne_nil w)
  rw [hpath, List.headD_cons] at hnul
  rw [hpath] at hskips
  rw [hpath, openedPath, if_neg hnul]
  exact hskips

/-- A turn of the loop over the whiteouts of the metadata. -/
theorem pathsOfWhiteout_staysInside_iff (already : List WideString) (t : HostDir H)
    (logical : WideString) :
    (∀ p ∈ pathsOfWhiteout already t logical, StaysInside H p) ↔
      ¬OpensReserved already t logical := by
  obtain ⟨n, p, hpath⟩ := List.exists_cons_of_ne_nil (pathOf_ne_nil (makeWhiteoutMarkerPath logical))
  have hhead : (pathOf (makeWhiteoutMarkerPath logical)).headD [] = n := by rw [hpath]; rfl
  constructor
  · intro h hreserved
    have hnul := hreserved.nul
    have hopens := hreserved.opens
    have hskips := hreserved.reserved
    rw [hhead] at hnul hopens hskips
    rw [← pathsOfWrite_of_cut (p := p) hnul, ← hpath,
      ← pathsOfWhiteout_of_unchecked hreserved.toUnchecked] at hopens
    obtain ⟨q, rest, hq⟩ := List.exists_cons_of_ne_nil hopens
    have hmem : q ∈ pathsOfWhiteout already t logical := by simp [hq]
    obtain ⟨_, _, hfirst⟩ := mem_pathsOfWhiteout hmem
    rw [(h q hmem).first, hpath, openedPath, if_pos hnul, hskips] at hfirst
    cases hfirst
  · intro h q hq
    obtain ⟨hpass, hnames, hfirst⟩ := mem_pathsOfWhiteout hq
    refine ⟨hnames, ?_⟩
    rw [hfirst]
    have hne : n ≠ [] := (chars_of_marker hpass.valid n (by simp [hpath])).1
    by_cases hnul : '\x00' ∈ n
    · -- The whole name passed, and the name before the NUL opens.
      rw [hpath, openedPath, if_pos hnul, ← Bool.not_eq_true]
      intro hreserve
      have hopens : t.opensForWriting [] (cutAtNul n) = true := by
        rw [← pathsOfWrite_of_cut (p := p) hnul, ← hpath, ← pathsOfWhiteout_of_unchecked hpass]
        exact List.ne_nil_of_mem hq
      exact h ⟨hpass, hhead.symm ▸ hnul, hhead.symm ▸ hreserve, hhead.symm ▸ hopens⟩
    · exact skipsPath_openedPath (hhead.symm ▸ hne) hpass.unskipped (hhead.symm ▸ hnul)

/-! ## A whole unpack -/

/-- The paths of the loop of `ExtractArchive`. -/
def pathsOfArchiveFrom : Nat → Data → Unpacked H → List RelPath
  | 0, _, _ => []
  | turns + 1, archive, u =>
    match readArchiveEntry archive with
    | .error _ => []
    | .ok (none, _) => []
    | .ok (some entry, rest) =>
      pathsOfEntry u.tree entry ++
        match extractEntry u entry with
        | .error _ => []
        | .ok u => pathsOfArchiveFrom turns rest u

/-- The paths of the loop of `MaterializeMetadataWhiteouts`. -/
def pathsOfWhiteouts (already : List WideString) : List WideString → HostDir H → List RelPath
  | [], _ => []
  | logical :: rest, t =>
    pathsOfWhiteout already t logical ++
      match materializeWhiteout already t logical with
      | .error _ => []
      | .ok t => pathsOfWhiteouts already rest t

/-- The paths of an unpack of an archive and of the whiteouts of the metadata. -/
def unpackPaths (archive : Data) (whiteouts : List WideString) (target : HostDir H) :
    List RelPath :=
  pathsOfArchiveFrom (archive.length + 1) archive ⟨target, []⟩ ++
    match extractArchive archive target with
    | .error _ => []
    | .ok u => pathsOfWhiteouts (u.extractedWhiteouts.map toLower) whiteouts u.tree

def extractImagePaths (k : Codec) (image : Data) (target : HostDir H) (verifyChecksum : Bool) :
    List RelPath :=
  match LayerImage.imageContent k image verifyChecksum with
  | .error _ => []
  | .ok content => unpackPaths content.1 content.2 target

/-! ## What the paths leave out -/

section Frame

variable {x : RelPath}

theorem find_write_of_not_written {t t' : HostDir H} {p : RelPath} {attributes : UInt32}
    {modified : UInt64} {data : Data} (hne : p ≠ [])
    (hwrite : (t.createDirectories (openedPath p.dropLast)).writeFile (openedPath p).dropLast
      ((openedPath p).getLastD []) attributes modified data = .ok t')
    (h : ∀ q ∈ pathsOfWrite t p, H.foldPath q ≠ H.foldPath x) : t'.find x = t.find x := by
  have hopens := HostDir.opensForWriting_of_writeFile hwrite
  have hsnoc := dropLast_append_getLastD (openedPath_ne_nil hne)
  have hfile : H.foldPath (openedPath p) ≠ H.foldPath x := by
    apply h
    rw [pathsOfWrite, hopens, if_pos rfl]
    exact List.mem_append_right _ (List.mem_singleton.mpr rfl)
  rw [(HostDir.wrote_of_writeFile hwrite).others x (by rw [hsnoc]; exact hfile.symm)]
  apply HostDir.find_createDirectories_of_not_made
  intro q hq
  exact h q (List.mem_append_left _ hq)

theorem find_extractEntry_of_not_written {archive rest : Data} {entry : ArchiveEntry}
    (hread : readArchiveEntry archive = .ok (some entry, rest)) {u u' : Unpacked H}
    (hentry : extractEntry u entry = .ok u')
    (h : ∀ q ∈ pathsOfEntry u.tree entry, H.foldPath q ≠ H.foldPath x) :
    u'.tree.find x = u.tree.find x := by
  have hnames := archiveNames_of_read hread
  have hopened : openedPath (pathOf entry.name) = pathOf entry.name :=
    openedPath_of_not_mem fun n hn => not_mem_nul_of_archiveName (hnames n hn)
  have hparent : openedPath (pathOf entry.name).dropLast = (pathOf entry.name).dropLast :=
    openedPath_of_not_mem fun n hn =>
      not_mem_nul_of_archiveName (hnames n ((List.dropLast_prefix _).subset hn))
  unfold extractEntry at hentry
  unfold pathsOfEntry at h
  split at hentry
  · rw [← Except.ok.inj hentry]
  rename_i hskip
  rw [if_neg hskip] at h
  split at hentry
  · rename_i hdir
    rw [if_pos hdir, hopened] at h
    rw [← Except.ok.inj hentry]
    exact HostDir.find_createDirectories_of_not_made h
  · rename_i hdir
    rw [if_neg hdir] at h
    cases hwrite : writeExtractedFile u.tree (pathOf entry.name) entry.header entry.data with
    | error e =>
      rw [hwrite] at hentry
      cases hentry
    | ok tree =>
      rw [hwrite] at hentry
      rw [← Except.ok.inj hentry]
      rw [writeExtractedFile] at hwrite
      apply find_write_of_not_written (pathOf_ne_nil _) _ h
      · exact entry.header.attributes
      · exact entry.header.modified
      · exact entry.data
      · rw [hopened, hparent]
        exact hwrite

theorem find_extractArchiveFrom_of_not_written (turns : Nat) :
    ∀ (archive : Data) (u u' : Unpacked H), extractArchiveFrom turns archive u = .ok u' →
      (∀ q ∈ pathsOfArchiveFrom turns archive u, H.foldPath q ≠ H.foldPath x) →
        u'.tree.find x = u.tree.find x := by
  induction turns with
  | zero =>
    intro archive u u' hrun
    cases hrun
  | succ turns ih =>
    intro archive u u' hrun h
    rw [extractArchiveFrom] at hrun
    rw [pathsOfArchiveFrom] at h
    cases hread : readArchiveEntry archive with
    | error e =>
      rw [hread] at hrun
      cases hrun
    | ok read =>
      obtain ⟨entry, rest⟩ := read
      cases entry with
      | none =>
        rw [hread] at hrun
        rw [Except.ok.inj hrun]
      | some entry =>
        simp only [hread, bind, Except.bind] at hrun
        simp only [hread] at h
        cases hentry : extractEntry u entry with
        | error e =>
          rw [hentry] at hrun
          cases hrun
        | ok v =>
          rw [hentry] at hrun h
          rw [ih rest v u' hrun fun q hq => h q (List.mem_append_right _ hq)]
          exact find_extractEntry_of_not_written hread hentry
            fun q hq => h q (List.mem_append_left _ hq)

theorem find_materializeWhiteout_of_not_written {already : List WideString} {t t' : HostDir H}
    {logical : WideString} (hturn : materializeWhiteout already t logical = .ok t')
    (h : ∀ q ∈ pathsOfWhiteout already t logical, H.foldPath q ≠ H.foldPath x) :
    t'.find x = t.find x := by
  unfold materializeWhiteout at hturn
  unfold pathsOfWhiteout at h
  split at hturn
  · cases hturn
  rename_i hvalid
  rw [if_neg hvalid] at h
  simp only at hturn h
  split at hturn
  · rw [Except.ok.inj hturn]
  rename_i hfresh
  rw [if_neg hfresh] at h
  split at hturn
  · rw [Except.ok.inj hturn]
  rename_i hskip
  rw [if_neg hskip] at h
  exact find_write_of_not_written (pathOf_ne_nil _) hturn h

theorem find_whiteouts_of_not_written (already : List WideString) (whiteouts : List WideString) :
    ∀ t t' : HostDir H, whiteouts.foldlM (materializeWhiteout already) t = .ok t' →
      (∀ q ∈ pathsOfWhiteouts already whiteouts t, H.foldPath q ≠ H.foldPath x) →
        t'.find x = t.find x := by
  induction whiteouts with
  | nil =>
    intro t t' hrun _
    rw [Except.ok.inj hrun]
  | cons w rest ih =>
    intro t t' hrun h
    rw [List.foldlM_cons] at hrun
    rw [pathsOfWhiteouts] at h
    cases hturn : materializeWhiteout already t w with
    | error e =>
      rw [hturn] at hrun
      cases hrun
    | ok u =>
      rw [hturn] at hrun h
      rw [ih u t' hrun fun q hq => h q (List.mem_append_right _ hq)]
      exact find_materializeWhiteout_of_not_written hturn
        fun q hq => h q (List.mem_append_left _ hq)

/-- An unpack leaves what is at every path that is not one of its paths. -/
theorem find_extractImage_of_not_written {k : Codec} {image : Data} {target t : HostDir H}
    {verifyChecksum : Bool}
    (hrun : LayerImage.extractImage k image target verifyChecksum = .ok t)
    (h : ∀ q ∈ extractImagePaths k image target verifyChecksum, H.foldPath q ≠ H.foldPath x) :
    t.find x = target.find x := by
  rw [LayerImage.extractImage_eq] at hrun
  unfold extractImagePaths at h
  cases hcontent : LayerImage.imageContent k image verifyChecksum with
  | error e =>
    rw [hcontent] at hrun
    cases hrun
  | ok content =>
    simp only [hcontent, bind, Except.bind] at hrun h
    cases hextract : extractArchive content.1 target with
    | error e =>
      rw [hextract] at hrun
      cases hrun
    | ok u =>
      simp only [unpackPaths, hextract] at hrun h
      rw [find_whiteouts_of_not_written _ _ _ _ hrun fun q hq => h q (List.mem_append_right _ hq)]
      exact find_extractArchiveFrom_of_not_written _ _ _ _ hextract
        fun q hq => h q (List.mem_append_left _ hq)

end Frame

/-! ## Inside the target -/

theorem pathsOfArchiveFrom_staysInside (turns : Nat) :
    ∀ (archive : Data) (u : Unpacked H), ∀ p ∈ pathsOfArchiveFrom turns archive u,
      StaysInside H p := by
  induction turns with
  | zero =>
    intro archive u p hp
    cases hp
  | succ turns ih =>
    intro archive u p hp
    rw [pathsOfArchiveFrom] at hp
    split at hp
    · cases hp
    · cases hp
    · rename_i entry rest hread
      rcases List.mem_append.mp hp with hp | hp
      · exact pathsOfEntry_staysInside hread u.tree p hp
      · split at hp
        · cases hp
        · exact ih rest _ p hp

/-- The loop over the whiteouts stays inside where no turn opens a reserved name. -/
theorem pathsOfWhiteouts_staysInside_iff (already : List WideString) (whiteouts : List WideString) :
    ∀ t : HostDir H, (∀ p ∈ pathsOfWhiteouts already whiteouts t, StaysInside H p) ↔
      ∀ before logical after t', whiteouts = before ++ logical :: after →
        before.foldlM (materializeWhiteout already) t = .ok t' →
          ¬OpensReserved already t' logical := by
  induction whiteouts with
  | nil =>
    intro t
    constructor
    · intro _ before logical after t' hsplit
      exact absurd hsplit.symm (by simp)
    · intro _ p hp
      cases hp
  | cons w rest ih =>
    intro t
    have hturn := pathsOfWhiteout_staysInside_iff already t w
    simp only [pathsOfWhiteouts, List.mem_append, or_imp, forall_and, hturn]
    constructor
    · rintro ⟨hfirst, hrest⟩ before logical after t' hsplit hrun
      cases before with
      | nil =>
        rw [List.nil_append, List.cons.injEq] at hsplit
        rw [List.foldlM_nil] at hrun
        rw [← hsplit.1, ← Except.ok.inj hrun]
        exact hfirst
      | cons x before =>
        rw [List.cons_append, List.cons.injEq] at hsplit
        obtain ⟨rfl, hsplit⟩ := hsplit
        rw [List.foldlM_cons] at hrun
        cases hstep : materializeWhiteout already t w with
        | error e =>
          rw [hstep] at hrun
          cases hrun
        | ok u =>
          rw [hstep] at hrun hrest
          exact (ih u).mp hrest before logical after t' hsplit hrun
    · intro h
      refine ⟨h [] w rest t rfl rfl, ?_⟩
      cases hstep : materializeWhiteout already t w with
      | error e =>
        intro p hp
        cases hp
      | ok u =>
        apply (ih u).mpr
        intro before logical after t' hsplit hrun
        apply h (w :: before) logical after t' (by rw [hsplit, List.cons_append])
        rw [List.foldlM_cons, hstep]
        exact hrun

/-- Every path that an unpack writes stays inside the target and out of the root sidecar, for
every image and target, exactly where no whiteout of the metadata opens a reserved name at
its turn. -/
theorem extractImagePaths_staysInside_iff (k : Codec) (image : Data) (target : HostDir H)
    (verifyChecksum : Bool) :
    (∀ p ∈ extractImagePaths k image target verifyChecksum, StaysInside H p) ↔
      ∀ archive u before logical after t,
        LayerImage.imageContent k image verifyChecksum
          = .ok (archive, before ++ logical :: after) →
        extractArchive archive target = .ok u →
        materializeMetadataWhiteouts before u = .ok t →
          ¬OpensReserved (u.extractedWhiteouts.map toLower) t logical := by
  unfold extractImagePaths
  cases hcontent : LayerImage.imageContent k image verifyChecksum with
  | error e => simp
  | ok content =>
    obtain ⟨archive, whiteouts⟩ := content
    have harchive := pathsOfArchiveFrom_staysInside (H := H) (archive.length + 1) archive ⟨target, []⟩
    simp only [unpackPaths, List.mem_append, or_imp, forall_and, Except.ok.injEq, Prod.mk.injEq]
    cases hextract : extractArchive archive target with
    | error e =>
      constructor
      · rintro _ _ u before logical after t ⟨rfl, _⟩ hu
        rw [hextract] at hu
        cases hu
      · intro _
        exact ⟨harchive, fun p hp => nomatch hp⟩
    | ok u =>
      have hloop := pathsOfWhiteouts_staysInside_iff (u.extractedWhiteouts.map toLower) whiteouts
        u.tree
      constructor
      · rintro ⟨_, hpaths⟩ _ u' before logical after t ⟨rfl, hsplit⟩ hu hrun
        rw [hextract] at hu
        rw [← Except.ok.inj hu] at hrun ⊢
        exact hloop.mp hpaths before logical after t hsplit hrun
      · intro h
        refine ⟨harchive, hloop.mpr ?_⟩
        intro before logical after t hsplit hrun
        exact h archive u before logical after t ⟨rfl, hsplit⟩ hextract hrun

namespace LayerImage

/-! ## A whiteout with a NUL -/

/-- The text `.overlay`, a NUL, and `x`. -/
def nulWhiteout : WideString := encodeUtf16 (kSidecarDirName ++ ['\x00', 'x'])

/-- An archive without entries. -/
def emptyArchive : Data := ({} : ArchiveBuilder).finish

/-- The outside code on the image with that whiteout and no entry. -/
def nulWhiteoutCodec : Codec :=
  storedCodec
    [90, 166, 86, 118, 137, 141, 195, 19, 246, 227, 246, 84, 195, 66, 239, 128, 116, 239, 186, 83,
      233, 115, 224, 123, 204, 43, 224, 120, 151, 50, 113, 65] rfl
    (packedText "[\n    \".overlay\\u0000x\"\n  ]" "0" "24" "33")
    (metadataToJson (packedMetadata [nulWhiteout] 0 24 33))

/-- An unpack of that image into an empty directory succeeds and writes `.wh..overlay`. -/
theorem nulWhiteout_leaves : ∃ image,
    writeImageFile nulWhiteoutCodec 3
      (packedMetadata [nulWhiteout] 0 24 33) emptyArchive
        = .ok (image, packedMetadata [nulWhiteout] 0 24 33) ∧
    (∃ t : HostDir latinHost,
      extractImage nulWhiteoutCodec image HostDir.empty true = .ok t ∧
        (t.find [whiteoutName kSidecarDirName]).isSome = true) ∧
    ¬∀ p ∈ extractImagePaths nulWhiteoutCodec image (HostDir.empty : HostDir latinHost) true,
      StaysInside latinHost p := by
  obtain ⟨image, hwrite⟩ := exists_image
    (r := writeImageFile nulWhiteoutCodec 3
      (packedMetadata [nulWhiteout] 0 24 33) emptyArchive)
    (by decide +kernel : _ = some (packedMetadata [nulWhiteout] 0 24 33))
  have hundoes : Undoes nulWhiteoutCodec 3 emptyArchive
      (packedMetadata [nulWhiteout] 0 24 33) :=
    undoes_storedCodec 3 (by decide +kernel) _ (by decide +kernel)
  have hcontent : imageContent nulWhiteoutCodec image true
      = .ok (emptyArchive, [nulWhiteout]) := by
    rw [imageContent_written hwrite hundoes, if_neg (by decide +kernel)]
    decide +kernel
  refine ⟨image, hwrite, ?_, ?_⟩
  · rw [extractImage_eq, hcontent]
    obtain ⟨t, ht, hfind⟩ := Option.map_eq_some_iff.mp (by decide +kernel :
      ((extractArchive emptyArchive (HostDir.empty : HostDir latinHost) >>=
        materializeMetadataWhiteouts [nulWhiteout]).toOption.map fun t =>
          (t.find [whiteoutName kSidecarDirName]).isSome) = some true)
    refine ⟨t, ?_, hfind⟩
    cases hrun : extractArchive emptyArchive (HostDir.empty : HostDir latinHost) >>=
        materializeMetadataWhiteouts [nulWhiteout] with
    | error e =>
      rw [hrun] at ht
      cases ht
    | ok t' =>
      rw [hrun] at ht
      rw [← Option.some.inj ht]
      exact hrun
  · intro h
    have hmem : [whiteoutName kSidecarDirName]
        ∈ extractImagePaths nulWhiteoutCodec image (HostDir.empty : HostDir latinHost) true := by
      rw [extractImagePaths, hcontent]
      decide +kernel
    exact absurd (h _ hmem).first (by decide +kernel)

end LayerImage

end LayerMount
