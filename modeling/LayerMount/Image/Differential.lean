import LayerMount.Image.PlacedMarkers

/-!
# Differential images

A differential image holds the entries of the source that the base does not have in the same
way (`changedOf`) and a marker for each entry of the base whose key the source does not have
(`deletedOf`).  The key of a path has its ASCII letters lowered (`lowerPath`), so two paths
with the same key are the same path for the host, but not the other way round.

An unpack of the image is a run over those entries and markers
(`extractImage_createDifferentialImage`).  The list of whiteouts in the metadata adds
nothing: each marker was in the archive.
-/

namespace LayerMount

open Lib

variable {H : Host}

/-! ## Keys -/

def lowerName (n : Name) : Name := n.map Char.toLower

def lowerPath (p : RelPath) : RelPath := p.map lowerName

/-- An ASCII capital has its small letter, and no other character changes. -/
theorem toLower_cases (c : Char) :
    (0x41 ≤ c.toNat ∧ c.toNat ≤ 0x5A ∧ c.toLower.toNat = c.toNat + 0x20) ∨
      (¬(0x41 ≤ c.toNat ∧ c.toNat ≤ 0x5A) ∧ c.toLower = c) := by
  by_cases hcapital : 0x41 ≤ c.toNat ∧ c.toNat ≤ 0x5A
  · refine Or.inl ⟨hcapital.1, hcapital.2, ?_⟩
    have hall : ∀ n < 128, 0x41 ≤ n → n ≤ 0x5A → (Char.ofNat n).toLower.toNat = n + 0x20 := by
      decide +kernel
    have hchar := hall c.toNat (by omega) hcapital.1 hcapital.2
    rwa [Char.ofNat_toNat] at hchar
  · refine Or.inr ⟨hcapital, ?_⟩
    unfold Char.toLower
    rw [dif_neg]
    rintro ⟨hlow, hhigh⟩
    apply hcapital
    rw [ge_iff_le, UInt32.le_iff_toNat_le] at hlow
    rw [UInt32.le_iff_toNat_le] at hhigh
    exact ⟨hlow, hhigh⟩

theorem fold_toLower (c : Char) : H.fold c.toLower = H.fold c := by
  rcases toLower_cases c with ⟨hlow, hhigh, hnat⟩ | ⟨_, hsame⟩
  · have hidem : c.toLower.toLower = c.toLower := by
      rcases toLower_cases c.toLower with ⟨hlow', hhigh', _⟩ | ⟨_, hsame⟩
      · omega
      · exact hsame
    rw [H.fold_ascii c (by omega), H.fold_ascii c.toLower (by omega), hidem]
  · rw [hsame]

theorem foldName_lowerName (n : Name) : H.foldName (lowerName n) = H.foldName n := by
  simp only [Host.foldName, lowerName, List.map_map]
  apply List.map_congr_left
  intro c _
  exact fold_toLower c

theorem foldPath_lowerPath (p : RelPath) : H.foldPath (lowerPath p) = H.foldPath p := by
  simp only [Host.foldPath, lowerPath, List.map_map]
  apply List.map_congr_left
  intro n _
  exact foldName_lowerName n

/-- Paths with the same key are the same for the host. -/
theorem foldPath_of_lowerPath {p q : RelPath} (h : lowerPath p = lowerPath q) :
    H.foldPath p = H.foldPath q := by
  rw [← foldPath_lowerPath p, h, foldPath_lowerPath]

theorem toLower_encodeUtf16Char (c : Char) :
    toLower (encodeUtf16Char c) = encodeUtf16Char c.toLower := by
  have hrange := char_toNat_range c
  have hunit : ∀ n, n < 0x10000 → ¬(0x41 ≤ n ∧ n ≤ 0x5A) →
      toLower [UInt16.ofNat n] = [UInt16.ofNat n] := by
    intro n hn hother
    have hnat := toNat_ofNat_unit hn
    simp only [toLower, List.map_cons, List.map_nil, List.cons.injEq, and_true]
    rw [if_neg]
    rw [Bool.and_eq_true, decide_eq_true_eq, decide_eq_true_eq, UInt16.le_iff_toNat_le,
      UInt16.le_iff_toNat_le, hnat]
    exact hother
  rcases toLower_cases c with ⟨hlow, hhigh, hnat⟩ | ⟨hother, hsame⟩
  · rw [encodeUtf16Char, encodeUtf16Char, if_pos (by omega), if_pos (by omega), hnat]
    have hall : ∀ n < 128, 0x41 ≤ n → n ≤ 0x5A →
        toLower [UInt16.ofNat n] = [UInt16.ofNat (n + 0x20)] := by
      decide +kernel
    exact hall c.toNat (by omega) hlow hhigh
  · rw [hsame]
    unfold encodeUtf16Char
    split
    · rename_i hsmall
      exact hunit c.toNat hsmall hother
    · have hsplit : ∀ u v : UInt16, toLower [u, v] = toLower [u] ++ toLower [v] := fun _ _ => rfl
      rw [hsplit, hunit _ (by omega) (by omega), hunit _ (by omega) (by omega)]
      rfl

theorem toLower_encodeUtf16 (cs : List Char) :
    toLower (encodeUtf16 cs) = encodeUtf16 (cs.map Char.toLower) := by
  induction cs with
  | nil => rfl
  | cons c cs ih =>
    have happend : ∀ u v : WideString, toLower (u ++ v) = toLower u ++ toLower v := by
      intro u v
      simp [toLower]
    rw [encodeUtf16, List.flatMap_cons, happend, toLower_encodeUtf16Char, List.map_cons]
    exact congrArg (_ ++ ·) ih

theorem joinPath_lowerPath (p : RelPath) : joinPath (lowerPath p) = (joinPath p).map Char.toLower := by
  induction p with
  | nil => rfl
  | cons n p ih =>
    cases p with
    | nil => simp [joinPath, lowerPath, lowerName]
    | cons m p =>
      have hcons : lowerPath (n :: m :: p) = lowerName n :: lowerName m :: lowerPath p := rfl
      rw [hcons, joinPath_cons_cons, joinPath_cons_cons, List.map_append, List.map_cons]
      have hrest : joinPath (lowerName m :: lowerPath p) = (joinPath (m :: p)).map Char.toLower := ih
      rw [hrest]
      rfl

theorem archiveName_lowerName {n : Name} (h : ArchiveName n) : ArchiveName (lowerName n) := by
  have hdots : ∀ c : Char, c.toLower = '.' → c = '.' := by
    intro c hc
    rcases toLower_cases c with ⟨hlow, hhigh, hnat⟩ | ⟨_, hsame⟩
    · rw [hc] at hnat
      simp only [Char.reduceToNat] at hnat
      omega
    · rw [← hsame, hc]
  refine ⟨by simpa [lowerName] using h.ne_nil, ?_, ?_, ?_⟩
  · intro heq
    obtain ⟨c, hn, hc⟩ := List.map_eq_singleton_iff.mp heq
    exact h.ne_dot (by rw [hn, hdots c hc])
  · intro heq
    obtain ⟨c, rest, hn, hc, hrest⟩ := List.map_eq_cons_iff.mp heq
    obtain ⟨d, hrest', hd⟩ := List.map_eq_singleton_iff.mp hrest
    exact h.ne_dots (by rw [hn, hrest', hdots c hc, hdots d hd])
  · intro x hx
    obtain ⟨c, hc, rfl⟩ := List.mem_map.mp hx
    rcases toLower_cases c with ⟨hlow, hhigh, hnat⟩ | ⟨_, hsame⟩
    · have hne : ∀ y : Char, y.toNat ≠ c.toNat + 0x20 → c.toLower ≠ y := by
        intro y hy heq
        rw [← heq, hnat] at hy
        exact hy rfl
      refine ⟨by omega, hne ':' (by simp only [Char.reduceToNat]; omega), ?_⟩
      simp only [isSeparator, Bool.or_eq_false_iff, decide_eq_false_iff_not]
      exact ⟨hne '/' (by simp only [Char.reduceToNat]; omega),
        hne '\\' (by simp only [Char.reduceToNat]; omega)⟩
    · rw [hsame]
      exact h.chars c hc

/-- Two entries have the same key exactly when their lowered paths are the same. -/
theorem lookupKey_eq_iff {e b : HostEntry} (he : e.Ok) (hb : b.Ok) :
    (snapshotOf e).lookupKey = (snapshotOf b).lookupKey ↔ lowerPath e.path = lowerPath b.path := by
  have hkey : ∀ x : HostEntry, (snapshotOf x).lookupKey = relativeNameOf (lowerPath x.path) := by
    intro x
    rw [relativeNameOf, joinPath_lowerPath, ← toLower_encodeUtf16]
    rfl
  have hpath : ∀ x : HostEntry, x.Ok →
      pathOf (relativeNameOf (lowerPath x.path)) = lowerPath x.path := by
    intro x hx
    apply pathOf_relativeNameOf
    · simpa [lowerPath] using hx.ne_nil
    · intro n hn
      obtain ⟨m, hm, rfl⟩ := List.mem_map.mp hn
      exact archiveName_lowerName (hx.archiveNames m hm)
  rw [hkey, hkey]
  constructor
  · intro h
    rw [← hpath e he, h, hpath b hb]
  · intro h
    rw [h]

/-! ## What the image holds -/

/-- The entries of the source that the image holds. -/
def changedOf (source base : HostDir H) : List HostEntry :=
  (scannedEntries source).filter fun e => isChanged (scanDirectory base) (snapshotOf e)

/-- The entries of the base that the image marks as deleted. -/
def deletedOf (source base : HostDir H) : List HostEntry :=
  (scannedEntries base).filter fun b => isDeleted (scanDirectory source) (snapshotOf b)

theorem changedEntries_eq (source base : HostDir H) :
    changedEntries (scanDirectory source) (scanDirectory base)
      = (changedOf source base).map snapshotOf := by
  unfold changedEntries changedOf
  rw [scanDirectory.eq_def source, List.filter_map]
  rfl

theorem deletedPaths_eq (source base : HostDir H) :
    deletedPaths (scanDirectory source) (scanDirectory base)
      = (deletedOf source base).map fun b => relativeNameOf b.path := by
  have hfilter : (scanDirectory base).filter (isDeleted (scanDirectory source))
      = (deletedOf source base).map snapshotOf := by
    unfold deletedOf
    rw [scanDirectory.eq_def base, List.filter_map]
    rfl
  rw [deletedPaths, hfilter, List.map_map]
  rfl

section Members

variable {source base : HostDir H} {e b : HostEntry}

theorem mem_of_mem_changedOf (h : e ∈ changedOf source base) : e ∈ source.entries :=
  mem_of_mem_scannedEntries (List.mem_filter.mp h).1

theorem mem_of_mem_deletedOf (h : b ∈ deletedOf source base) : b ∈ base.entries :=
  mem_of_mem_scannedEntries (List.mem_filter.mp h).1

theorem ok_of_mem_deletedOf (h : b ∈ deletedOf source base) : b.Ok :=
  base.ok b (mem_of_mem_deletedOf h)

/-- An entry of the base is deleted where the source has no entry of its key. -/
theorem mem_deletedOf_iff : b ∈ deletedOf source base ↔
    b ∈ scannedEntries base ∧
      ∀ e ∈ scannedEntries source, lowerPath e.path ≠ lowerPath b.path := by
  rw [deletedOf, List.mem_filter]
  apply and_congr_right
  intro hb
  have hbok := base.ok b (mem_of_mem_scannedEntries hb)
  simp only [isDeleted, scanDirectory, List.any_map, Bool.not_eq_true', List.any_eq_false,
    Function.comp_apply, decide_eq_true_eq]
  constructor
  · intro h e he heq
    exact h e he ((lookupKey_eq_iff (source.ok e (mem_of_mem_scannedEntries he)) hbok).mpr heq)
  · intro h e he heq
    exact h e he ((lookupKey_eq_iff (source.ok e (mem_of_mem_scannedEntries he)) hbok).mp heq)

/-- The entry of the base has the kind, and for a file the size and the time, of the entry of
the source. -/
structure SameAs (e b : HostEntry) : Prop where
  kind : b.isDirectory = e.isDirectory
  size : b.content.map List.length = e.content.map List.length
  modified : e.isDirectory = false → b.modified = e.modified

theorem differs_eq_false_iff (he : e.Ok) (hb : b.Ok) :
    differs (fillFileEntry e) (fillFileEntry b) = false ↔ SameAs e b := by
  cases hec : e.content with
  | none =>
    cases hbc : b.content with
    | none =>
      have hsame : SameAs e b := by
        refine ⟨?_, by rw [hec, hbc], ?_⟩
        · simp [HostEntry.isDirectory, hec, hbc]
        · simp [HostEntry.isDirectory, hec]
      simpa [differs, fillFileEntry, HostEntry.isDirectory, hec, hbc] using hsame
    | some data =>
      have hnot : ¬SameAs e b := by
        intro h
        have hkind := h.kind
        simp [HostEntry.isDirectory, hec, hbc] at hkind
      simpa [differs, fillFileEntry, HostEntry.isDirectory, hec, hbc] using hnot
  | some data =>
    cases hbc : b.content with
    | none =>
      have hnot : ¬SameAs e b := by
        intro h
        have hkind := h.kind
        simp [HostEntry.isDirectory, hec, hbc] at hkind
      simpa [differs, fillFileEntry, HostEntry.isDirectory, hec, hbc] using hnot
    | some data' =>
      have hsize : UInt64.ofNat data.length = UInt64.ofNat data'.length ↔
          data'.length = data.length := by
        rw [← UInt64.toNat_inj, toNat_size (he.size data hec), toNat_size (hb.size data' hbc)]
        exact eq_comm
      have htime : e.modified = b.modified ↔ b.modified = e.modified := eq_comm
      have hiff : SameAs e b ↔ data'.length = data.length ∧ b.modified = e.modified := by
        constructor
        · intro h
          have hlength := h.size
          rw [hec, hbc] at hlength
          exact ⟨Option.some.inj hlength, h.modified (by simp [HostEntry.isDirectory, hec])⟩
        · rintro ⟨hlength, hmod⟩
          refine ⟨by simp [HostEntry.isDirectory, hec, hbc], ?_, fun _ => hmod⟩
          rw [hec, hbc, Option.map_some, Option.map_some, hlength]
      rw [hiff]
      simp [differs, fillFileEntry, HostEntry.isDirectory, hec, hbc, hsize, htime]

/-- The entry of the base with a key. -/
theorem baseByKey_of_mem (hb : b ∈ scannedEntries base) (he : e.Ok)
    (hkey : lowerPath b.path = lowerPath e.path) :
    baseByKey (scanDirectory base) (snapshotOf e).lookupKey = some (snapshotOf b) := by
  have hbmem := mem_of_mem_scannedEntries hb
  have hsome : ((scanDirectory base).reverse.find? fun x =>
      x.lookupKey = (snapshotOf e).lookupKey).isSome := by
    rw [List.find?_isSome]
    refine ⟨snapshotOf b, List.mem_reverse.mpr (List.mem_map_of_mem hb), ?_⟩
    rw [decide_eq_true_eq]
    exact (lookupKey_eq_iff (base.ok b hbmem) he).mpr hkey
  obtain ⟨x, hx⟩ := Option.isSome_iff_exists.mp hsome
  have hxkey := List.find?_some hx
  rw [decide_eq_true_eq] at hxkey
  obtain ⟨b', hb', rfl⟩ := List.mem_map.mp (List.mem_reverse.mp (List.mem_of_find?_eq_some hx))
  have hb'mem := mem_of_mem_scannedEntries hb'
  have hlower := (lookupKey_eq_iff (base.ok b' hb'mem) he).mp hxkey
  have hsame := HostDir.eq_of_foldPath hbmem hb'mem
    (foldPath_of_lowerPath (hlower.trans hkey.symm))
  rw [baseByKey, hx, hsame]

/-- An entry of the source is left out where the base has the same one. -/
theorem mem_changedOf_iff : e ∈ changedOf source base ↔
    e ∈ scannedEntries source ∧
      ∀ b ∈ scannedEntries base, lowerPath b.path = lowerPath e.path → ¬SameAs e b := by
  rw [changedOf, List.mem_filter]
  apply and_congr_right
  intro he
  have heok := source.ok e (mem_of_mem_scannedEntries he)
  constructor
  · intro hchanged b hb hkey hsame
    have hbok := base.ok b (mem_of_mem_scannedEntries hb)
    rw [isChanged, baseByKey_of_mem hb heok hkey] at hchanged
    have hdiffers := (differs_eq_false_iff heok hbok).mpr hsame
    have hchanged' : differs (fillFileEntry e) (fillFileEntry b) = true := hchanged
    rw [hdiffers] at hchanged'
    cases hchanged'
  · intro h
    unfold isChanged
    split
    · rfl
    · rename_i x hx
      have hxkey := List.find?_some hx
      rw [decide_eq_true_eq] at hxkey
      obtain ⟨b, hb, rfl⟩ := List.mem_map.mp (List.mem_reverse.mp (List.mem_of_find?_eq_some hx))
      have hbok := base.ok b (mem_of_mem_scannedEntries hb)
      have hkey := (lookupKey_eq_iff hbok heok).mp hxkey
      rw [← Bool.not_eq_false]
      intro hdiffers
      exact h b hb hkey ((differs_eq_false_iff heok hbok).mp hdiffers)

theorem nodup_entries (t : HostDir H) : t.entries.Nodup := List.Nodup.of_map _ t.distinct

theorem nodup_changedOf : (changedOf source base).Nodup :=
  ((nodup_entries source).filter _).filter _

theorem distinct_deletedOf :
    ((deletedOf source base).map fun b => H.foldPath b.path).Nodup := by
  have hsub : (deletedOf source base).Sublist base.entries :=
    List.filter_sublist.trans List.filter_sublist
  exact (hsub.map _).nodup base.distinct

end Members

/-! ## The image -/

/-- The items of the differential archive. -/
def differentialItems (source base : HostDir H) : List ArchiveItem :=
  (changedOf source base).map itemOf ++ (deletedOf source base).map fun b => markerItem b.path

def differentialArchive (source base : HostDir H) : Data := archiveOf (differentialItems source base)

namespace LayerImage

variable {k : Codec} {level : Int} {image : Data} {m m' : LayerMetadata} {source base : HostDir H}

/-- `CreateDifferentialImage` writes the archive of the items, and lists the deleted paths. -/
theorem createDifferentialImage_ok
    (h : createDifferentialImage k level source base m = .ok (image, m')) :
    (∀ i ∈ differentialItems source base, i.Good) ∧
      ∃ count, writeImageFile k level
        { stampIdentity k m with
          whiteouts := (deletedOf source base).map fun b => relativeNameOf b.path
          fileCount := count } (differentialArchive source base) = .ok (image, m') := by
  unfold createDifferentialImage at h
  simp only [changedEntries_eq, deletedPaths_eq] at h
  cases hpack : packEntries source ((changedOf source base).map snapshotOf) {} with
  | error e =>
    rw [hpack] at h
    cases h
  | ok b₁ =>
    rw [hpack] at h
    obtain ⟨hgood, harchive⟩ := packEntries_ok (fun e he => mem_of_mem_changedOf he) hpack
    have h' : (addWhiteoutMarkers ((deletedOf source base).map fun b => relativeNameOf b.path) b₁ >>=
        fun b₂ => writeImageFile k level
          { stampIdentity k m with
            whiteouts := (deletedOf source base).map fun b => relativeNameOf b.path
            fileCount := b₂.fileCount } b₂.finish) = .ok (image, m') := h
    cases hmarkers : addWhiteoutMarkers
        ((deletedOf source base).map fun b => relativeNameOf b.path) b₁ with
    | error e =>
      rw [hmarkers] at h'
      cases h'
    | ok b₂ =>
      rw [hmarkers] at h'
      obtain ⟨hmarkerGood, hmarkerArchive⟩ :=
        addWhiteoutMarkers_ok (fun b hb => ok_of_mem_deletedOf hb) hmarkers
      constructor
      · intro i hi
        rcases List.mem_append.mp hi with hi | hi
        · exact hgood i hi
        · exact hmarkerGood i hi
      · refine ⟨b₂.fileCount, ?_⟩
        have hfinish : b₂.finish = differentialArchive source base := by
          rw [ArchiveBuilder.finish, hmarkerArchive, harchive, differentialArchive, archiveOf,
            differentialItems, List.flatMap_append]
          rfl
        rw [← hfinish]
        exact h'

theorem archiveNames_of_differentialItems :
    ∀ i ∈ differentialItems source base, i.path ≠ [] ∧ ∀ n ∈ i.path, ArchiveName n := by
  intro i hi
  rcases mem_items hi with ⟨e, he, rfl⟩ | ⟨b, hb, rfl⟩
  · have hok := source.ok e (mem_of_mem_changedOf he)
    exact ⟨hok.ne_nil, hok.archiveNames⟩
  · exact ⟨by simp [markerItem, getWhiteoutFileName], archiveNames_whiteout (ok_of_mem_deletedOf hb)⟩

/-- The text of a path is no longer than that of its marker. -/
theorem length_joinPath_le_marker {b : HostEntry} (h : b.Ok) :
    (encodeUtf8 (joinPath b.path)).length ≤ (encodeUtf8 (joinPath (markerPath b))).length := by
  obtain ⟨d, n, hpath⟩ := h.exists_snoc
  rw [markerPath_of_snoc hpath, hpath, joinPath_snoc, joinPath_snoc, encodeUtf8_append,
    encodeUtf8_append, whiteoutName, encodeUtf8_append, List.length_append, List.length_append,
    List.length_append]
  omega

/-- A whiteout of the metadata whose marker was in the archive is passed over. -/
theorem materializeWhiteout_of_packed {already : List WideString} {b : HostEntry} (hok : b.Ok)
    (hlength : (encodeUtf8 (joinPath b.path)).length ≤ 0xFFFE)
    (h : skipsPath H (markerPath b) = false → toLower (relativeNameOf (markerPath b)) ∈ already)
    (t : HostDir H) : materializeWhiteout already t (relativeNameOf b.path) = .ok t := by
  have hvalid : isValidArchivePath (wideToUtf8 (relativeNameOf b.path)) = true := by
    rw [wideToUtf8_relativeNameOf (le_kIntMax hlength)]
    exact isValidArchivePath_of_names hok.ne_nil hok.archiveNames
  have hmarker : makeWhiteoutMarkerPath (relativeNameOf b.path) = relativeNameOf (markerPath b) :=
    makeWhiteoutMarkerPath_of_ok hok
  have hskips : unpackSkipsEntry t (relativeNameOf (markerPath b)) = skipsPath H (markerPath b) :=
    unpackSkipsEntry_relativeNameOf t (by simp [markerPath, getWhiteoutFileName])
      (archiveNames_whiteout hok)
  unfold materializeWhiteout
  rw [hvalid, Bool.not_true, if_neg Bool.false_ne_true]
  simp only [hmarker, hskips]
  cases hskip : skipsPath H (markerPath b) with
  | true => simp
  | false => simp [h hskip]

/-- An unpack of a differential image is a run over its items. -/
theorem extractImage_createDifferentialImage
    (h : createDifferentialImage k level source base m = .ok (image, m'))
    (hu : Undoes k level (differentialArchive source base) m') (target : HostDir H)
    (verifyChecksum : Bool) :
    extractImage k image target verifyChecksum
      = if (differentialArchive source base).length > kMaxDecompressedBytes then
          .error .invalidData
        else placeItems (differentialItems source base) target := by
  obtain ⟨hgood, count, hwrite⟩ := createDifferentialImage_ok h
  have hlength : ∀ b ∈ deletedOf source base, (encodeUtf8 (joinPath b.path)).length ≤ 0xFFFE := by
    intro b hb
    have hitem := hgood (markerItem b.path) (List.mem_append_right _
      (List.mem_map_of_mem (f := fun b => markerItem b.path) hb))
    exact (length_joinPath_le_marker (ok_of_mem_deletedOf hb)).trans hitem.name.length_le
  have hwhiteouts : (readBackMetadata m').whiteouts
      = (deletedOf source base).map fun b => relativeNameOf b.path := by
    obtain ⟨_, _, hm', _⟩ := writeImageFile_ok hwrite
    rw [hm']
    simp only [readBackMetadata, List.map_map]
    apply List.map_congr_left
    intro b hb
    have hfits : FitsInt (relativeNameOf b.path) := by
      rw [FitsInt, relativeNameOf, decodeUtf16_encodeUtf16]
      exact le_kIntMax (hlength b hb)
    exact readBack_eq ⟨wellFormedUtf16_iff.mpr ⟨_, rfl⟩, hfits⟩
  rw [extractImage_written hwrite hu, hwhiteouts, differentialArchive, extractArchive_items hgood,
    extractItems_eq archiveNames_of_differentialItems]
  split
  · rfl
  cases hplace : placeItems (differentialItems source base) target with
  | error e => rfl
  | ok t =>
    -- The loop over the whiteouts of the metadata leaves the tree.
    have hturn : ∀ b ∈ deletedOf source base, ∀ t' : HostDir H,
        materializeWhiteout
          (((differentialItems source base).flatMap (whiteoutsOf H)).map toLower) t'
          (relativeNameOf b.path) = .ok t' := by
      intro b hb t'
      apply materializeWhiteout_of_packed (ok_of_mem_deletedOf hb) (hlength b hb)
      intro hskip
      apply List.mem_map_of_mem
      rw [List.mem_flatMap]
      refine ⟨markerItem b.path, List.mem_append_right _
        (List.mem_map_of_mem (f := fun b => markerItem b.path) hb), ?_⟩
      have hskip' : skipsPath H (markerItem b.path).path = false := hskip
      rw [whiteoutsOf, hskip']
      exact List.mem_singleton.mpr rfl
    show materializeMetadataWhiteouts _ _ = _
    unfold materializeMetadataWhiteouts
    simp only [List.nil_append]
    generalize deletedOf source base = deleted at hturn ⊢
    induction deleted with
    | nil => rfl
    | cons b deleted ih =>
      rw [List.map_cons, List.foldlM_cons, hturn b (by simp)]
      exact ih fun x hx => hturn x (List.mem_cons_of_mem _ hx)

end LayerImage

end LayerMount
