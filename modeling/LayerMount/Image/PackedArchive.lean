import LayerMount.Image.LayerImageManager

/-!
# The entries of an archive

What a pack puts into the archive is a list of entries (`itemOf`, `markerItem`), and an
unpack of that archive is a run over the list (`extractArchive_items`).  From here on the
bytes of the archive play no part.
-/

namespace LayerMount

open Lib

variable {H : Host}

/-! ## Texts of paths -/

theorem wideToUtf8_relativeNameOf {p : RelPath} (h : (encodeUtf8 (joinPath p)).length ≤ kIntMax) :
    wideToUtf8 (relativeNameOf p) = encodeUtf8 (joinPath p) := by
  simp only [wideToUtf8, relativeNameOf, decodeUtf16_encodeUtf16, h, if_true]

theorem utf8ToWide_joinPath {p : RelPath} (h : (encodeUtf8 (joinPath p)).length ≤ kIntMax) :
    utf8ToWide (encodeUtf8 (joinPath p)) = relativeNameOf p := by
  simp only [utf8ToWide, h, if_true, decodeUtf8_encodeUtf8, relativeNameOf]

theorem le_kIntMax {n : Nat} (h : n ≤ 0xFFFE) : n ≤ kIntMax := by
  unfold kIntMax
  omega

theorem encodeUtf16_append (cs ds : List Char) :
    encodeUtf16 (cs ++ ds) = encodeUtf16 cs ++ encodeUtf16 ds := by
  simp [encodeUtf16]

/-- An ASCII unit is the unit of its character only. -/
theorem mem_of_ascii_mem_encodeUtf16 {cs : List Char} {u : UInt16} (hu : u.toNat < 128)
    (h : u ∈ encodeUtf16 cs) : Char.ofNat u.toNat ∈ cs := by
  obtain ⟨c, hc, hunit⟩ := List.mem_flatMap.mp h
  have hrange := char_toNat_range c
  unfold encodeUtf16Char at hunit
  split at hunit
  · rename_i hsmall
    rw [List.mem_singleton] at hunit
    have hnat := toNat_ofNat_unit hsmall
    rw [hunit, hnat, Char.ofNat_toNat]
    exact hc
  · rename_i hlarge
    simp only [List.mem_cons, List.not_mem_nil, or_false] at hunit
    rcases hunit with hhigh | hlow
    · have hnat := toNat_ofNat_unit (n := 0xD800 + (c.toNat - 0x10000) / 0x400) (by omega)
      rw [hhigh, hnat] at hu
      omega
    · have hnat := toNat_ofNat_unit (n := 0xDC00 + (c.toNat - 0x10000) % 0x400) (by omega)
      rw [hlow, hnat] at hu
      omega

/-- The text of a path is the text of its directory, a slash and the last name. -/
theorem joinPath_snoc (d : RelPath) (n : Name) :
    joinPath (d ++ [n]) = (if d = [] then [] else joinPath d ++ ['/']) ++ n := by
  induction d with
  | nil => simp [joinPath]
  | cons m d ih =>
    cases d with
    | nil => simp [joinPath, List.intercalate]
    | cons m' d =>
      rw [List.cons_append] at ih
      rw [List.cons_append, List.cons_append, joinPath_cons_cons, ih, joinPath_cons_cons]
      simp [List.append_assoc]

theorem lastSegment_relativeNameOf (d : RelPath) {n : Name} (h : ArchiveName n) :
    lastSegment (relativeNameOf (d ++ [n])) = encodeUtf16 n := by
  have hslash : ∀ u ∈ (encodeUtf16 n).reverse, decide (u ≠ 0x2F) = true := by
    intro u hu
    rw [List.mem_reverse] at hu
    rw [decide_eq_true_eq]
    rintro rfl
    have hslash := (h.chars _ (mem_of_ascii_mem_encodeUtf16 (by decide) hu)).2.2
    exact absurd hslash (by decide)
  unfold lastSegment relativeNameOf
  rw [joinPath_snoc, encodeUtf16_append, List.reverse_append, List.takeWhile_append_of_pos hslash]
  split
  · simp [encodeUtf16]
  · have hchar : encodeUtf16 (joinPath d ++ ['/']) = encodeUtf16 (joinPath d) ++ [0x2F] := by
      rw [encodeUtf16_append]
      rfl
    simp [hchar]

theorem mem_backslash_relativeNameOf {p : RelPath} (h : ∀ n ∈ p, ArchiveName n) :
    0x5C ∉ relativeNameOf p := by
  intro hmem
  have hchar := mem_of_ascii_mem_encodeUtf16 (by decide) hmem
  rcases mem_joinPath hchar with hslash | ⟨n, hn, hcn⟩
  · exact absurd hslash (by decide)
  · have hback := ((h n hn).chars _ hcn).2.2
    exact absurd hback (by decide)

/-- The marker path of a path. -/
theorem makeWhiteoutMarkerPath_relativeNameOf {d : RelPath} {n : Name}
    (h : ∀ m ∈ d ++ [n], ArchiveName m) :
    makeWhiteoutMarkerPath (relativeNameOf (d ++ [n])) = relativeNameOf (d ++ [whiteoutName n]) := by
  have hname : ArchiveName n := h n (by simp)
  have hmap : (relativeNameOf (d ++ [n])).map (fun u => if u = 0x5C then 0x2F else u)
      = relativeNameOf (d ++ [n]) := by
    rw [List.map_congr_left (g := id), List.map_id]
    intro u hu
    have hne : u ≠ 0x5C := fun heq => mem_backslash_relativeNameOf h (heq ▸ hu)
    simp [hne]
  unfold makeWhiteoutMarkerPath
  simp only [hmap, lastSegment_relativeNameOf d hname]
  unfold relativeNameOf
  rw [joinPath_snoc, joinPath_snoc, encodeUtf16_append, encodeUtf16_append, whiteoutName,
    encodeUtf16_append, List.length_append, Nat.add_sub_cancel, List.take_left]

/-! ## Items -/

/-- One entry of an archive by its path. -/
structure ArchiveItem where
  path : RelPath
  header : FileEntryHeader
  data : Data

namespace ArchiveItem

def bytes (i : ArchiveItem) : Data := entryBytes i.header (encodeUtf8 (joinPath i.path)) i.data

/-- The item as the reader gives it. -/
def entry (i : ArchiveItem) : ArchiveEntry :=
  ⟨{ i.header with nameLength := UInt16.ofNat (encodeUtf8 (joinPath i.path)).length },
    relativeNameOf i.path, i.data⟩

structure Good (i : ArchiveItem) : Prop where
  name : ReadableName (encodeUtf8 (joinPath i.path))
  size : i.header.size.toNat = i.data.length
  directory : i.header.isDirectory ≠ 0 → i.data = []

theorem readArchiveEntry_bytes {i : ArchiveItem} (h : i.Good) (rest : Data) :
    readArchiveEntry (i.bytes ++ rest) = .ok (some i.entry, rest) := by
  rw [bytes, readArchiveEntry_entryBytes h.name h.size h.directory,
    utf8ToWide_joinPath (le_kIntMax h.name.length_le)]
  rfl

theorem length_bytes_pos (i : ArchiveItem) : 0 < i.bytes.length := by
  rw [bytes, entryBytes, List.length_append, FileEntryHeader.length_bytes, kFileEntryHeaderSize]
  omega

end ArchiveItem

/-- The archive of a list of items. -/
def archiveOf (items : List ArchiveItem) : Data :=
  items.flatMap ArchiveItem.bytes ++ ({ nameLength := kArchiveEndMarker } : FileEntryHeader).bytes

def extractItems (items : List ArchiveItem) (u : Unpacked H) : Except Win32Error (Unpacked H) :=
  items.foldlM (fun u i => extractEntry u i.entry) u

/-- The loop of the unpack goes through the items. -/
theorem extractArchiveFrom_items {items : List ArchiveItem} (h : ∀ i ∈ items, i.Good) :
    ∀ (turns : Nat) (u : Unpacked H), items.length < turns →
      extractArchiveFrom turns (archiveOf items) u = extractItems items u := by
  induction items with
  | nil =>
    intro turns u hturns
    obtain ⟨turns, rfl⟩ : ∃ k, turns = k + 1 := ⟨turns - 1, by omega⟩
    have hread := readArchiveEntry_finish []
    rw [List.append_nil] at hread
    simp only [extractArchiveFrom, archiveOf, List.flatMap_nil, List.nil_append, hread]
    rfl
  | cons i items ih =>
    intro turns u hturns
    obtain ⟨turns, rfl⟩ : ∃ k, turns = k + 1 := ⟨turns - 1, by omega⟩
    rw [List.length_cons] at hturns
    have hsplit : archiveOf (i :: items) = i.bytes ++ archiveOf items := by
      simp [archiveOf, List.append_assoc]
    rw [hsplit, extractArchiveFrom, ArchiveItem.readArchiveEntry_bytes (h i (by simp)),
      extractItems, List.foldlM_cons]
    apply bind_congr
    intro u'
    exact ih (fun j hj => h j (List.mem_cons_of_mem _ hj)) turns u' (by omega)

/-- An unpack is a run over the items. -/
theorem extractArchive_items {items : List ArchiveItem} (h : ∀ i ∈ items, i.Good)
    (target : HostDir H) :
    extractArchive (archiveOf items) target = extractItems items ⟨target, []⟩ := by
  apply extractArchiveFrom_items h
  have hlength : items.length ≤ (items.flatMap ArchiveItem.bytes).length := by
    clear h
    induction items with
    | nil => simp
    | cons i items ih =>
      have hpos := i.length_bytes_pos
      rw [List.flatMap_cons, List.length_append, List.length_cons]
      omega
  rw [archiveOf, List.length_append]
  omega

/-! ## What a pack writes -/

def itemOf (e : HostEntry) : ArchiveItem where
  path := e.path
  header := { fillFileEntry e with
    isWhiteout :=
      if !e.isDirectory && hasWhiteoutPrefix (encodeUtf16 (e.path.getLastD [])) then 1 else 0 }
  data := e.content.getD []

def markerItem (deleted : RelPath) : ArchiveItem where
  path := getWhiteoutFileName deleted
  header := { attributes := kFileAttributeNormal, isWhiteout := 1 }
  data := []

theorem append_eq_ok {b b' : ArchiveBuilder} {p : RelPath} {entry : FileEntryHeader} {data : Data}
    (h : b.append (relativeNameOf p) entry data = .ok b') :
    (encodeUtf8 (joinPath p)).length ≤ 0xFFFE ∧
      b' = { b with archive := b.archive ++ entryBytes entry (encodeUtf8 (joinPath p)) data } := by
  unfold ArchiveBuilder.append at h
  simp only at h
  split at h
  · cases h
  · rename_i hempty
    have hutf8 : wideToUtf8 (relativeNameOf p) = encodeUtf8 (joinPath p) := by
      apply wideToUtf8_relativeNameOf
      by_contra hlong
      simp [wideToUtf8, relativeNameOf, hlong] at hempty
    rw [hutf8] at h
    split at h
    · cases h
    · rename_i hlength
      exact ⟨by omega, (Except.ok.inj h).symm⟩

theorem appendCounted_eq_ok {b b' : ArchiveBuilder} {p : RelPath} {entry : FileEntryHeader}
    {data : Data} (h : b.appendCounted (relativeNameOf p) entry data = .ok b') :
    (encodeUtf8 (joinPath p)).length ≤ 0xFFFE ∧
      b'.archive = b.archive ++ entryBytes entry (encodeUtf8 (joinPath p)) data := by
  unfold ArchiveBuilder.appendCounted at h
  cases happend : b.append (relativeNameOf p) entry data with
  | error e =>
    rw [happend] at h
    cases h
  | ok b₁ =>
    rw [happend] at h
    obtain ⟨hlength, rfl⟩ := append_eq_ok happend
    rw [← Except.ok.inj h]
    exact ⟨hlength, rfl⟩

theorem toNat_size {data : Data} (h : data.length < 2 ^ 63) :
    (UInt64.ofNat data.length).toNat = data.length := by
  rw [UInt64.toNat_ofNat']
  omega

theorem HostEntry.Ok.archiveNames {e : HostEntry} (h : e.Ok) : ∀ n ∈ e.path, ArchiveName n :=
  fun n hn => archiveName_of_nameOk (h.names n hn)

theorem good_itemOf {e : HostEntry} (hok : e.Ok)
    (hlength : (encodeUtf8 (joinPath e.path)).length ≤ 0xFFFE) : (itemOf e).Good where
  name := readableName_of_names hok.ne_nil hok.archiveNames hlength
  size := by
    cases hcontent : e.content with
    | none => simp [itemOf, fillFileEntry, hcontent]
    | some data =>
      simp only [itemOf, fillFileEntry, hcontent, Option.getD_some]
      exact toNat_size (hok.size data hcontent)
  directory := by
    cases hcontent : e.content with
    | none => simp [itemOf, hcontent]
    | some data => simp [itemOf, fillFileEntry, HostEntry.isDirectory, hcontent]

/-- One turn of `PackEntries`. -/
theorem packEntry_ok {t : HostDir H} {e : HostEntry} (he : e ∈ t.entries) {b b' : ArchiveBuilder}
    (h : packEntry t b (snapshotOf e) = .ok b') :
    (itemOf e).Good ∧ b'.archive = b.archive ++ (itemOf e).bytes := by
  have hok := t.ok e he
  unfold packEntry at h
  cases hcontent : e.content with
  | none =>
    have hdir : (snapshotOf e).entry.isDirectory ≠ 0 := by
      simp [snapshotOf, fillFileEntry, HostEntry.isDirectory, hcontent]
    rw [if_pos hdir] at h
    obtain ⟨hlength, rfl⟩ := append_eq_ok h
    refine ⟨good_itemOf hok hlength, ?_⟩
    simp [ArchiveItem.bytes, itemOf, snapshotOf, fillFileEntry, HostEntry.isDirectory, hcontent]
  | some data =>
    have hfile : ¬(snapshotOf e).entry.isDirectory ≠ 0 := by
      simp [snapshotOf, fillFileEntry, HostEntry.isDirectory, hcontent]
    have hpath : pathOf (relativeNameOf e.path) = e.path :=
      pathOf_relativeNameOf hok.ne_nil hok.archiveNames
    have hread : readFileBytes t (relativeNameOf e.path) = .ok data := by
      simp [readFileBytes, hpath, HostDir.find_of_mem he, hcontent]
    have hbytes : ArchiveBuilder.bytesOfFile (snapshotOf e).entry
        (readFileBytes t (relativeNameOf e.path)) = .ok data := by
      rw [hread, ArchiveBuilder.bytesOfFile]
      split
      · rfl
      · rename_i hsize
        have hzero : ¬0 < data.length := by
          intro hpos
          apply hsize
          rw [gt_iff_lt, UInt64.lt_iff_toNat_lt]
          simp only [snapshotOf, fillFileEntry, hcontent, toNat_size (hok.size data hcontent)]
          exact hpos
        have hnil : data = [] := List.eq_nil_of_length_eq_zero (by omega)
        rw [hnil]
    rw [if_neg hfile] at h
    unfold ArchiveBuilder.addFile at h
    have hname : (snapshotOf e).relativePath = relativeNameOf e.path := rfl
    rw [hname, hbytes, hpath] at h
    obtain ⟨hlength, harchive⟩ := appendCounted_eq_ok h
    refine ⟨good_itemOf hok hlength, ?_⟩
    rw [harchive]
    simp [ArchiveItem.bytes, itemOf, snapshotOf, fillFileEntry, HostEntry.isDirectory, hcontent]

/-- `PackEntries` writes the items of the entries. -/
theorem packEntries_ok {t : HostDir H} {es : List HostEntry} (hes : ∀ e ∈ es, e ∈ t.entries)
    {b b' : ArchiveBuilder} (h : packEntries t (es.map snapshotOf) b = .ok b') :
    (∀ i ∈ es.map itemOf, i.Good) ∧
      b'.archive = b.archive ++ (es.map itemOf).flatMap ArchiveItem.bytes := by
  induction es generalizing b with
  | nil =>
    cases h
    simp
  | cons e es ih =>
    rw [List.map_cons, packEntries, List.foldlM_cons] at h
    cases hfirst : packEntry t b (snapshotOf e) with
    | error err =>
      rw [hfirst] at h
      cases h
    | ok b₁ =>
      rw [hfirst] at h
      obtain ⟨hgood, harchive⟩ := packEntry_ok (hes e (by simp)) hfirst
      obtain ⟨hgoods, hrest⟩ := ih (fun x hx => hes x (List.mem_cons_of_mem _ hx)) h
      constructor
      · intro i hi
        rcases List.mem_cons.mp hi with rfl | hi
        · exact hgood
        · exact hgoods i hi
      · rw [hrest, harchive, List.map_cons, List.flatMap_cons, List.append_assoc]

/-- A path of a tree is a directory and a name. -/
theorem HostEntry.Ok.exists_snoc {e : HostEntry} (h : e.Ok) : ∃ d n, e.path = d ++ [n] := by
  obtain ⟨d, n, hpath⟩ := (List.eq_nil_or_concat e.path).resolve_left h.ne_nil
  exact ⟨d, n, by rw [hpath, List.concat_eq_append]⟩

theorem archiveNames_whiteout {e : HostEntry} (h : e.Ok) :
    ∀ n ∈ getWhiteoutFileName e.path, ArchiveName n := by
  obtain ⟨d, n, hpath⟩ := h.exists_snoc
  have hnames := h.archiveNames
  rw [hpath] at hnames
  rw [hpath, getWhiteoutFileName_append]
  intro m hm
  rcases List.mem_append.mp hm with hm | hm
  · exact hnames m (List.mem_append_left _ hm)
  · rw [List.mem_singleton.mp hm]
    exact (hnames n (by simp)).whiteoutName

theorem makeWhiteoutMarkerPath_of_ok {e : HostEntry} (h : e.Ok) :
    makeWhiteoutMarkerPath (relativeNameOf e.path) = relativeNameOf (getWhiteoutFileName e.path) := by
  obtain ⟨d, n, hpath⟩ := h.exists_snoc
  have hnames := h.archiveNames
  rw [hpath] at hnames ⊢
  rw [makeWhiteoutMarkerPath_relativeNameOf hnames, getWhiteoutFileName_append]

theorem good_markerItem {e : HostEntry} (h : e.Ok)
    (hlength : (encodeUtf8 (joinPath (getWhiteoutFileName e.path))).length ≤ 0xFFFE) :
    (markerItem e.path).Good where
  name := readableName_of_names (by simp [markerItem, getWhiteoutFileName])
    (archiveNames_whiteout h) hlength
  size := rfl
  directory := fun _ => rfl

/-- The markers of deleted entries are in the archive. -/
theorem addWhiteoutMarkers_ok {es : List HostEntry} (hes : ∀ e ∈ es, e.Ok)
    {b b' : ArchiveBuilder}
    (h : addWhiteoutMarkers (es.map fun e => relativeNameOf e.path) b = .ok b') :
    (∀ i ∈ es.map fun e => markerItem e.path, i.Good) ∧
      b'.archive = b.archive ++ (es.map fun e => markerItem e.path).flatMap ArchiveItem.bytes := by
  induction es generalizing b with
  | nil =>
    cases h
    simp
  | cons e es ih =>
    rw [List.map_cons, addWhiteoutMarkers, List.foldlM_cons] at h
    have hok := hes e (by simp)
    cases hfirst : b.addWhiteoutMarker (relativeNameOf e.path) with
    | error err =>
      rw [hfirst] at h
      cases h
    | ok b₁ =>
      rw [hfirst] at h
      rw [ArchiveBuilder.addWhiteoutMarker, makeWhiteoutMarkerPath_of_ok hok] at hfirst
      obtain ⟨hlength, harchive⟩ := appendCounted_eq_ok hfirst
      obtain ⟨hgoods, hrest⟩ := ih (fun x hx => hes x (List.mem_cons_of_mem _ hx)) h
      constructor
      · intro i hi
        rcases List.mem_cons.mp hi with rfl | hi
        · exact good_markerItem hok hlength
        · exact hgoods i hi
      · rw [hrest, harchive, List.map_cons, List.flatMap_cons, List.append_assoc]
        rfl

end LayerMount
