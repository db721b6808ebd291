import Mathlib.Data.List.Forall2
import LayerMount.Image.ImageRead
import LayerMount.Image.UnpackItems

/-!
# Pack and unpack

An unpack into an empty directory makes the packed tree again, entry by entry: a directory
comes before what is in it in the archive, so each entry finds its parent
(`placeItems_itemOf`).  A directory gets the attributes and the time of a new one.
-/

namespace LayerMount

open Lib

variable {H : Host}

/-- The entry that an unpack makes of a packed one. -/
def unpackedEntry (H : Host) (e : HostEntry) : HostEntry :=
  match e.content with
  | none => ⟨e.path, kFileAttributeDirectory, H.now, none⟩
  | some data => ⟨e.path, storedAttributes e.attributes, e.modified, some data⟩

@[simp] theorem unpackedEntry_path (e : HostEntry) : (unpackedEntry H e).path = e.path := by
  unfold unpackedEntry
  split <;> rfl

@[simp] theorem unpackedEntry_content (e : HostEntry) :
    (unpackedEntry H e).content = e.content := by
  unfold unpackedEntry
  split <;> simp [*]

@[simp] theorem unpackedEntry_isDirectory (e : HostEntry) :
    (unpackedEntry H e).isDirectory = e.isDirectory := by
  simp [HostEntry.isDirectory]

theorem timeAfterSet_of_ok {e : HostEntry} (h : e.Ok) : H.timeAfterSet e.modified = e.modified := by
  obtain ⟨hpos, hlt⟩ := h.time
  unfold Host.timeAfterSet
  rw [if_neg]
  rintro (hzero | hspecial)
  · rw [hzero] at hpos
    exact absurd hpos (by decide)
  · rw [UInt64.le_iff_toNat_le] at hspecial
    simp only [UInt64.reduceToNat] at hspecial
    omega

theorem storedAttributes_settable (a : UInt32) :
    storedAttributes a &&& kSettableAttributes = a &&& kSettableAttributes := by
  unfold storedAttributes
  split
  · rename_i hzero
    rw [hzero]
    decide
  · rw [UInt32.and_assoc, UInt32.and_self]

section Run

variable {t : HostDir H} {done : List HostEntry} {e : HostEntry}

/-- The parent of the next entry is in the tree under its own path. -/
theorem directoryPath_unpacked (ht : t.entries = done.map (unpackedEntry H)) {d : RelPath} {n : Name}
    (hpath : e.path = d ++ [n]) (hparent : ParentIn done e.path) :
    t.directoryPath d = some d := by
  rw [hpath, ParentIn, List.dropLast_concat] at hparent
  rcases hparent with hroot | ⟨x, hx, hxpath, hxdir⟩
  · rw [hroot]
    rfl
  · rw [HostDir.directoryPath_eq_some]
    refine Or.inr ⟨unpackedEntry H x, ?_, by simpa using hxdir, by simpa using hxpath⟩
    have hmem : unpackedEntry H x ∈ t.entries := by
      rw [ht]
      exact List.mem_map_of_mem hx
    have hfind := HostDir.find_of_mem hmem
    rwa [unpackedEntry_path, hxpath] at hfind

theorem find_next_none (ht : t.entries = done.map (unpackedEntry H))
    (hdistinct : ∀ x ∈ done, H.foldPath x.path ≠ H.foldPath e.path) : t.find e.path = none := by
  rw [HostDir.find_eq_none, ht]
  intro x hx
  obtain ⟨y, hy, rfl⟩ := List.mem_map.mp hx
  rw [unpackedEntry_path]
  exact hdistinct y hy

/-- One entry of the archive is made. -/
theorem placeItem_itemOf (ht : t.entries = done.map (unpackedEntry H)) (hok : e.Ok)
    (hskip : skipsPath H e.path = false) (hparent : ParentIn done e.path)
    (hdistinct : ∀ x ∈ done, H.foldPath x.path ≠ H.foldPath e.path) :
    ∃ t', placeItem t (itemOf e) = .ok t' ∧
      t'.entries = (done ++ [e]).map (unpackedEntry H) := by
  obtain ⟨d, n, hpath⟩ := hok.exists_snoc
  have hstored := directoryPath_unpacked ht hpath hparent
  have hnone := find_next_none ht hdistinct
  have hdir : t.HasDir d := HostDir.hasDir_iff_directoryPath.mpr ⟨d, hstored⟩
  have hname : nameOk n = true := hok.names n (by simp [hpath])
  have hitem : (itemOf e).path = e.path := rfl
  rw [hpath] at hnone
  unfold placeItem
  rw [hitem, hskip, if_neg Bool.false_ne_true]
  cases hcontent : e.content with
  | none =>
    have hisdir : (itemOf e).header.isDirectory ≠ 0 := by
      simp [itemOf, fillFileEntry, HostEntry.isDirectory, hcontent]
    have hadm : t.Admits ⟨d ++ [n], kFileAttributeDirectory, H.now, none⟩ :=
      HostDir.admits_below hstored rfl hname (by simp) H.now_pos hnone
    refine ⟨_, if_pos hisdir, ?_⟩
    rw [hpath, HostDir.createDirectories_snoc, HostDir.createDirectories_of_hasDir hdir]
    simp only [HostDir.createDirectory, hstored]
    rw [HostDir.insert_entries hadm, ht, List.map_append, List.map_singleton]
    simp [unpackedEntry, hcontent, hpath]
  | some data =>
    have hisfile : ¬(itemOf e).header.isDirectory ≠ 0 := by
      simp [itemOf, fillFileEntry, HostEntry.isDirectory, hcontent]
    have hadm : t.Admits ⟨d ++ [n], storedAttributes e.attributes, e.modified, some data⟩ :=
      HostDir.admits_below hstored rfl hname (by simpa using hok.size data hcontent) hok.time hnone
    rw [if_neg hisfile]
    refine ⟨t.insert ⟨d ++ [n], storedAttributes e.attributes, e.modified, some data⟩, ?_, ?_⟩
    · have hdata : (itemOf e).data = data := by simp [itemOf, hcontent]
      have hattr : (itemOf e).header.attributes = e.attributes := rfl
      have hmod : (itemOf e).header.modified = e.modified := rfl
      have hlast : e.path.getLastD [] = n := by simp [hpath]
      rw [writeExtractedFile, hlast, hpath, List.dropLast_concat,
        HostDir.createDirectories_of_hasDir hdir, HostDir.writeFile, hdata, hattr, hmod]
      simp only [hnone, hstored, timeAfterSet_of_ok hok, hadm, if_true]
    · rw [HostDir.insert_entries hadm, ht, List.map_append, List.map_singleton]
      simp [unpackedEntry, hcontent, hpath]

/-- The rest of the archive is made after what was made before. -/
theorem placeItems_itemOf_from (t : HostDir H) (done rest : List HostEntry)
    (hok : ∀ x ∈ done ++ rest, x.Ok)
    (hskip : ∀ x ∈ done ++ rest, skipsPath H x.path = false)
    (hdistinct : ((done ++ rest).map fun x => H.foldPath x.path).Nodup)
    (hrooted : RootedFrom done rest) (ht : t.entries = done.map (unpackedEntry H)) :
    ∃ t', placeItems (rest.map itemOf) t = .ok t' ∧
      t'.entries = (done ++ rest).map (unpackedEntry H) := by
  induction rest generalizing done t with
  | nil => exact ⟨t, rfl, by rw [ht, List.append_nil]⟩
  | cons e rest ih =>
    have hmem : e ∈ done ++ e :: rest := by simp
    have hother : ∀ x ∈ done, H.foldPath x.path ≠ H.foldPath e.path := by
      rw [List.map_append, List.nodup_append] at hdistinct
      intro x hx
      exact hdistinct.2.2 _ (List.mem_map_of_mem hx) _ (by simp)
    obtain ⟨t₁, hplace, hentries⟩ :=
      placeItem_itemOf ht (hok e hmem) (hskip e hmem) hrooted.1 hother
    have hassoc : done ++ e :: rest = (done ++ [e]) ++ rest := by simp
    rw [hassoc] at hok hskip hdistinct
    obtain ⟨t', hrun, hfinal⟩ := ih t₁ (done ++ [e]) hok hskip hdistinct hrooted.2 hentries
    refine ⟨t', ?_, by rw [hassoc]; exact hfinal⟩
    rw [List.map_cons, placeItems, List.foldlM_cons, hplace]
    exact hrun

end Run

/-- An unpack of a packed tree makes its entries. -/
theorem placeItems_itemOf (source : HostDir H)
    (hskip : ∀ e ∈ source.entries, skipsPath H e.path = false) :
    ∃ t : HostDir H, placeItems (source.entries.map itemOf) HostDir.empty = .ok t ∧
      t.entries = source.entries.map (unpackedEntry H) := by
  exact placeItems_itemOf_from HostDir.empty [] source.entries source.ok hskip source.distinct
    source.rooted rfl

/-! ## Images -/

/-- The archive of a tree. -/
def packedArchive (source : HostDir H) : Data := archiveOf ((scannedEntries source).map itemOf)

theorem mem_of_mem_scannedEntries {t : HostDir H} {e : HostEntry} (h : e ∈ scannedEntries t) :
    e ∈ t.entries :=
  (List.mem_filter.mp h).1

namespace LayerImage

variable {k : Codec} {level : Int} {image : Data} {m m' : LayerMetadata}

/-- `CreateImage` writes the archive of the tree. -/
theorem createImage_ok {source : HostDir H} (h : createImage k level source m = .ok (image, m')) :
    (∀ i ∈ (scannedEntries source).map itemOf, i.Good) ∧
      ∃ count, writeImageFile k level { stampIdentity k m with fileCount := count }
        (packedArchive source) = .ok (image, m') := by
  unfold createImage at h
  cases hpack : packEntries source (scanDirectory source) {} with
  | error e =>
    rw [hpack] at h
    cases h
  | ok b =>
    rw [hpack] at h
    obtain ⟨hgood, harchive⟩ := packEntries_ok (fun e he => mem_of_mem_scannedEntries he) hpack
    refine ⟨hgood, b.fileCount, ?_⟩
    have hfinish : b.finish = packedArchive source := by
      rw [ArchiveBuilder.finish, harchive]
      rfl
    rw [← hfinish]
    exact h

/-- The metadata that `CreateImage` leaves has the whiteouts of its caller. -/
theorem whiteouts_of_createImage {source : HostDir H}
    (h : createImage k level source m = .ok (image, m')) : m'.whiteouts = m.whiteouts := by
  obtain ⟨_, count, hwrite⟩ := createImage_ok h
  obtain ⟨_, _, hm', _⟩ := writeImageFile_ok hwrite
  rw [hm']
  rfl

theorem archiveNames_of_items {es : List HostEntry} (h : ∀ e ∈ es, e.Ok) :
    ∀ i ∈ es.map itemOf, i.path ≠ [] ∧ ∀ n ∈ i.path, ArchiveName n := by
  intro i hi
  obtain ⟨e, he, rfl⟩ := List.mem_map.mp hi
  exact ⟨(h e he).ne_nil, (h e he).archiveNames⟩

/-- An unpack of an image of a tree is a run over the tree's entries. -/
theorem extractImage_createImage {source : HostDir H}
    (h : createImage k level source m = .ok (image, m')) (hwhiteouts : m.whiteouts = [])
    (hu : Undoes k level (packedArchive source) m') (target : HostDir H) (verifyChecksum : Bool) :
    extractImage k image target verifyChecksum
      = if (packedArchive source).length > kMaxDecompressedBytes then .error .invalidData
        else placeItems ((scannedEntries source).map itemOf) target := by
  obtain ⟨hgood, count, hwrite⟩ := createImage_ok h
  have hnone : (readBackMetadata m').whiteouts = [] := by
    have hm' := (whiteouts_of_createImage h).trans hwhiteouts
    simp [readBackMetadata, hm']
  have hnames := archiveNames_of_items fun e he => source.ok e (mem_of_mem_scannedEntries he)
  rw [extractImage_written hwrite hu, hnone, packedArchive, extractArchive_items hgood,
    extractItems_eq hnames]
  split
  · rfl
  · cases placeItems ((scannedEntries source).map itemOf) target with
    | error e => rfl
    | ok t => rfl

/-- The entry of an unpacked tree has the path and the data of the packed one, and for a file
its settable attributes and its last-write time. -/
structure SameEntry (e x : HostEntry) : Prop where
  path : x.path = e.path
  content : x.content = e.content
  attributes : e.isDirectory = false →
    x.attributes &&& kSettableAttributes = e.attributes &&& kSettableAttributes
  modified : e.isDirectory = false → x.modified = e.modified

theorem sameEntry_unpackedEntry (e : HostEntry) : SameEntry e (unpackedEntry H e) where
  path := unpackedEntry_path e
  content := unpackedEntry_content e
  attributes := by
    intro hfile
    unfold unpackedEntry
    split
    · rename_i hnone
      simp [HostEntry.isDirectory, hnone] at hfile
    · exact storedAttributes_settable e.attributes
  modified := by
    intro hfile
    unfold unpackedEntry
    split
    · rename_i hnone
      simp [HostEntry.isDirectory, hnone] at hfile
    · rfl

theorem scannedEntries_of_not_skipped {source : HostDir H}
    (h : ∀ e ∈ source.entries, skipsPath H e.path = false) :
    scannedEntries source = source.entries := by
  rw [scannedEntries_eq, List.filter_eq_self]
  intro e he
  have hskip := h e he
  simp only [skipsPath, Bool.or_eq_false_iff, decide_eq_false_iff_not] at hskip
  simpa using hskip.1

theorem textsOk_of_createImage {source : HostDir H}
    (h : createImage k level source m = .ok (image, m')) (htexts : m.TextsOk) : m'.TextsOk := by
  obtain ⟨_, count, hwrite⟩ := createImage_ok h
  obtain ⟨_, _, hm', _⟩ := writeImageFile_ok hwrite
  rw [hm']
  refine ⟨?_, htexts.parentId, ?_, htexts.author, htexts.description, htexts.tags,
    htexts.whiteouts, htexts.labels⟩
  · simp only [stampIdentity]
    split
    · exact k.generateId_ok
    · exact htexts.id
  · simp only [stampIdentity]
    split
    · exact k.timestamp_ok
    · exact htexts.createdAt

/-- Pack and unpack are inverse.  The metadata comes back where its texts are well formed and
their UTF-8 forms can be counted in `int`. -/
theorem extractImage_inverts_createImage (k : Codec) (level : Int) (source : HostDir H)
    (m m' : LayerMetadata) (image : Data)
    (hsidecar : ∀ e ∈ source.entries, skipsPath H e.path = false)
    (hsize : (packedArchive source).length ≤ kMaxDecompressedBytes)
    (hwhiteouts : m.whiteouts = []) (htexts : m.TextsOk)
    (hcreate : createImage k level source m = .ok (image, m'))
    (hundoes : Undoes k level (packedArchive source) m') :
    (∀ verifyChecksum, ∃ t : HostDir H,
      extractImage k image HostDir.empty verifyChecksum = .ok t ∧
        List.Forall₂ SameEntry source.entries t.entries) ∧
      ∃ header, getImageInfo k image = .ok (header, m') := by
  constructor
  · intro verifyChecksum
    obtain ⟨t, hrun, hentries⟩ := placeItems_itemOf source hsidecar
    refine ⟨t, ?_, ?_⟩
    · rw [extractImage_createImage hcreate hwhiteouts hundoes, if_neg (by omega),
        scannedEntries_of_not_skipped hsidecar]
      exact hrun
    · rw [hentries, List.forall₂_map_right_iff, List.forall₂_same]
      intro e _
      exact sameEntry_unpackedEntry e
  · obtain ⟨_, count, hwrite⟩ := createImage_ok hcreate
    obtain ⟨header, hinfo⟩ := getImageInfo_written hwrite hundoes
    rw [readBackMetadata_eq (textsOk_of_createImage hcreate htexts)] at hinfo
    exact ⟨header, hinfo⟩

/-! ## A host and an image

A host whose folding is known on the Latin-1 letters, and the outside code on images of short
archives: Zstd stores them in one raw block. -/

theorem ascii_of_toNat {P : Char → Prop} (h : ∀ n < 128, P (Char.ofNat n)) {c : Char}
    (hc : c.toNat < 128) : P c := by
  have hn := h c.toNat hc
  rwa [Char.ofNat_toNat] at hn

/-- The folding of the Latin-1 letters. -/
def latinFold (c : Char) : Char :=
  if c.toNat < 128 then c.toLower
  else if 0xC0 ≤ c.toNat ∧ c.toNat ≤ 0xDE ∧ c.toNat ≠ 0xD7 then Char.ofNat (c.toNat + 32)
  else c

def latinHost : Host where
  fold := latinFold
  now := 133500000000000000
  fold_fold := by
    intro c
    by_cases hascii : c.toNat < 128
    · apply ascii_of_toNat (P := fun c => latinFold (latinFold c) = latinFold c) _ hascii
      decide +kernel
    · unfold latinFold
      rw [if_neg hascii]
      split
      · have hnat := char_toNat_ofNat (n := c.toNat + 32) (by omega)
        rw [hnat, if_neg (by omega), if_neg (by omega)]
      · rfl
  fold_ascii := by
    intro c hc
    rw [latinFold, if_pos hc]
  fold_punctuation := by
    intro c hfold
    by_cases hascii : c.toNat < 128
    · revert hfold
      apply ascii_of_toNat (P := fun c =>
        latinFold c = '.' ∨ latinFold c = ':' ∨ latinFold c = '\\' ∨ latinFold c = '\x00' →
          latinFold c = c) _ hascii
      decide +kernel
    · unfold latinFold at hfold ⊢
      rw [if_neg hascii] at hfold ⊢
      split at hfold
      · have hnat := char_toNat_ofNat (n := c.toNat + 32) (by omega)
        rcases hfold with heq | heq | heq | heq <;>
        · rw [heq] at hnat
          simp only [Char.reduceToNat] at hnat
          omega
      · rename_i hother
        rw [if_neg hother]
  fold_units := by
    intro c
    have hsmall : ∀ x : Char, x.toNat < 0x10000 → (encodeUtf16Char x).length = 1 := by
      intro x hx
      rw [encodeUtf16Char, if_pos hx]
      rfl
    by_cases hascii : c.toNat < 128
    · apply ascii_of_toNat (P := fun c =>
        (encodeUtf16Char (latinFold c)).length = (encodeUtf16Char c).length) _ hascii
      decide +kernel
    · unfold latinFold
      rw [if_neg hascii]
      split
      · have hnat := char_toNat_ofNat (n := c.toNat + 32) (by omega)
        rw [hsmall _ (by omega), hsmall c (by omega)]
      · rfl
  now_pos := by decide

/-- A Zstd frame of one raw block, with the content size in one byte. -/
def storedFrame (data : Data) : Data :=
  [0x28, 0xB5, 0x2F, 0xFD, 0x20, UInt8.ofNat data.length] ++ (leBytes 3 (8 * data.length + 1) ++ data)

theorem storedId_ok : WellFormedUtf16 (encodeUtf16 "7F9C24E8-3B12-4FEF-91E0-66B4A1A0D5C3".toList) ∧
    FitsInt (encodeUtf16 "7F9C24E8-3B12-4FEF-91E0-66B4A1A0D5C3".toList) := by
  decide +kernel

theorem storedTimestamp_ok : WellFormedUtf16 (encodeUtf16 "2026-01-01T00:00:00Z".toList) ∧
    FitsInt (encodeUtf16 "2026-01-01T00:00:00Z".toList) := by
  decide +kernel

def storedCodec (digest : Data) (hdigest : digest.length = 32) (text : Utf8String) (j : Json) :
    Codec where
  compress := fun _ data => if data.length < 256 then some (storedFrame data) else none
  frameContentSize := fun frame =>
    if frame.take 5 = [0x28, 0xB5, 0x2F, 0xFD, 0x20] then some (UInt64.ofNat (field frame 5 1))
    else none
  decompress := fun frame capacity =>
    if frame.length ≤ capacity + 9 then some (frame.drop 9) else none
  sha256 := fun _ => digest
  length_sha256 := fun _ => hdigest
  dump := fun _ => text
  parse := fun t => if t = text then some j else none
  generateId := encodeUtf16 "7F9C24E8-3B12-4FEF-91E0-66B4A1A0D5C3".toList
  generateId_ok := storedId_ok
  timestamp := encodeUtf16 "2026-01-01T00:00:00Z".toList
  timestamp_ok := storedTimestamp_ok

theorem undoes_storedCodec {digest : Data} {hdigest : digest.length = 32} {text : Utf8String}
    (level : Int) {archive : Data} (harchive : archive.length < 256) (m : LayerMetadata)
    (htext : text.getLast? ≠ some 0) :
    Undoes (storedCodec digest hdigest text (metadataToJson m)) level archive m where
  size := by
    intro c hc
    have hframe : storedFrame archive = c := by simpa [storedCodec, harchive] using hc
    have htake : c.take 5 = [0x28, 0xB5, 0x2F, 0xFD, 0x20] := by
      rw [← hframe]
      rfl
    have hfield : field c 5 1 = archive.length := by
      rw [← hframe]
      exact field_leBytes [0x28, 0xB5, 0x2F, 0xFD, 0x20] rfl harchive _
    refine ⟨UInt64.ofNat archive.length, ?_, ?_⟩
    · simp [storedCodec, htake, hfield]
    · rw [UInt64.toNat_ofNat']
      omega
  zstd := by
    intro c hc
    have hframe : storedFrame archive = c := by simpa [storedCodec, harchive] using hc
    have hlength : c.length = archive.length + 9 := by
      rw [← hframe, storedFrame]
      simp
      omega
    have hdrop : c.drop 9 = archive := by
      rw [← hframe]
      rfl
    simp [storedCodec, hlength, hdrop]
  json := if_pos rfl
  text := htext

/-- The result of a pack by the metadata it leaves. -/
theorem exists_image {r : Except Win32Error (Data × LayerMetadata)} {m' : LayerMetadata}
    (h : r.toOption.map Prod.snd = some m') : ∃ image, r = .ok (image, m') := by
  cases r with
  | error e => simp [Except.toOption] at h
  | ok p => exact ⟨p.1, by rw [← Option.some.inj h]⟩

/-- A directory with the one-byte file `a` in it. -/
def oneFile : HostDir latinHost where
  entries := [⟨[['a']], 0x20, 133000000000000000, some [1]⟩]
  ok := by decide +kernel
  distinct := by decide +kernel
  rooted := ⟨Or.inl rfl, trivial⟩

/-- The SHA-256 of the stored frame of the archive of `oneFile`. -/
def oneFileDigest : Data :=
  [221, 205, 8, 216, 82, 43, 229, 88, 214, 249, 48, 8, 226, 185, 2, 151, 57, 129, 248, 247, 250,
    145, 76, 183, 49, 87, 219, 247, 123, 12, 216, 183]

/-- The metadata that a pack of `oneFile` leaves, by its author. -/
def oneFileMetadata (author : WideString) : LayerMetadata where
  id := encodeUtf16 "7F9C24E8-3B12-4FEF-91E0-66B4A1A0D5C3".toList
  createdAt := encodeUtf16 "2026-01-01T00:00:00Z".toList
  author := author
  fileCount := 1
  uncompressedSize := 50
  compressedSize := 59

/-- The text of that metadata. -/
def oneFileText (author : String) : Utf8String := Array.toList <| ByteArray.data <| String.toUTF8 <|
  "\x7b\n  \"author\": \"" ++ author ++ "\",\n  \"compressedSize\": 59,\n" ++
  "  \"compressionType\": \"zstd\",\n  \"createdAt\": \"2026-01-01T00:00:00Z\",\n" ++
  "  \"description\": \"\",\n  \"fileCount\": 1,\n  \"labels\": \x7b\x7d,\n" ++
  "  \"layerId\": \"7F9C24E8-3B12-4FEF-91E0-66B4A1A0D5C3\",\n  \"parentLayerId\": null,\n" ++
  "  \"tags\": [],\n  \"uncompressedSize\": 50,\n  \"whiteouts\": []\n\x7d"

def oneFileCodec (author : WideString) (text : String) : Codec :=
  storedCodec oneFileDigest rfl (oneFileText text) (metadataToJson (oneFileMetadata author))

theorem textsOk_default : ({} : LayerMetadata).TextsOk := by
  have hnil : WellFormedUtf16 [] ∧ FitsInt [] := by decide
  refine ⟨hnil, hnil, hnil, hnil, hnil, ?_, ?_, ?_⟩
  · intro t ht
    cases ht
  · intro w hw
    cases hw
  · intro l hl
    cases hl

/-- The metadata that a pack leaves, by its whiteouts and the counts. -/
def packedMetadata (whiteouts : List WideString) (fileCount uncompressed compressed : UInt64) :
    LayerMetadata where
  id := encodeUtf16 "7F9C24E8-3B12-4FEF-91E0-66B4A1A0D5C3".toList
  createdAt := encodeUtf16 "2026-01-01T00:00:00Z".toList
  fileCount := fileCount
  uncompressedSize := uncompressed
  compressedSize := compressed
  whiteouts := whiteouts

/-- The text of that metadata. -/
def packedText (whiteouts fileCount uncompressed compressed : String) : Utf8String :=
  Array.toList <| ByteArray.data <| String.toUTF8 <|
  "\x7b\n  \"author\": \"\",\n  \"compressedSize\": " ++ compressed ++
  ",\n  \"compressionType\": \"zstd\",\n  \"createdAt\": \"2026-01-01T00:00:00Z\",\n" ++
  "  \"description\": \"\",\n  \"fileCount\": " ++ fileCount ++
  ",\n  \"labels\": \x7b\x7d,\n" ++
  "  \"layerId\": \"7F9C24E8-3B12-4FEF-91E0-66B4A1A0D5C3\",\n  \"parentLayerId\": null,\n" ++
  "  \"tags\": [],\n  \"uncompressedSize\": " ++ uncompressed ++
  ",\n  \"whiteouts\": " ++ whiteouts ++ "\n\x7d"

/-- A directory with a one-byte file and the marker of another name in it. -/
def markedTree : HostDir latinHost where
  entries := [⟨[['d']], 0x10, 133000000000000000, none⟩,
    ⟨[['d'], ['a']], 0x20, 133000000000000000, some [1]⟩,
    ⟨[['d'], whiteoutName ['b']], 0x22, 133000000000000000, some []⟩]
  ok := by decide +kernel
  distinct := by decide +kernel
  rooted := ⟨Or.inl rfl, Or.inr ⟨_, List.mem_cons_self, rfl, rfl⟩,
    Or.inr ⟨_, List.mem_cons_self, rfl, rfl⟩, trivial⟩

/-- The outside code on the image of `markedTree`. -/
def markedTreeCodec : Codec :=
  storedCodec
    [193, 61, 13, 166, 244, 167, 171, 70, 117, 56, 151, 95, 248, 246, 191, 46, 211, 43, 19, 104,
      43, 190, 56, 126, 110, 49, 181, 34, 191, 24, 220, 85] rfl
    (packedText "[]" "2" "108" "117") (metadataToJson (packedMetadata [] 2 108 117))

/-- Packing that tree and unpacking the image. -/
theorem extractImage_inverts_createImage_markedTree : ∃ image,
    createImage markedTreeCodec 3 markedTree {} = .ok (image, packedMetadata [] 2 108 117) ∧
    (∀ verifyChecksum, ∃ t : HostDir latinHost,
      extractImage markedTreeCodec image HostDir.empty verifyChecksum = .ok t ∧
        List.Forall₂ SameEntry markedTree.entries t.entries) ∧
      ∃ header, getImageInfo markedTreeCodec image = .ok (header, packedMetadata [] 2 108 117) := by
  obtain ⟨image, hcreate⟩ := exists_image (r := createImage markedTreeCodec 3 markedTree {})
    (by decide +kernel : _ = some (packedMetadata [] 2 108 117))
  refine ⟨image, hcreate, ?_⟩
  exact extractImage_inverts_createImage markedTreeCodec 3 markedTree {}
    (packedMetadata [] 2 108 117) image (by decide +kernel) (by decide +kernel) rfl
    textsOk_default hcreate (undoes_storedCodec 3 (by decide +kernel) _ (by decide +kernel))

/-- A lone surrogate in the author comes back as the replacement character. -/
theorem loneSurrogate_replaced : ∃ image header m,
    createImage (oneFileCodec [0xD800] "\uFFFD") 3 oneFile { author := [0xD800] }
      = .ok (image, oneFileMetadata [0xD800]) ∧
    Undoes (oneFileCodec [0xD800] "\uFFFD") 3 (packedArchive oneFile) (oneFileMetadata [0xD800]) ∧
    getImageInfo (oneFileCodec [0xD800] "\uFFFD") image = .ok (header, m) ∧
    m.author = [0xFFFD] ∧ m ≠ oneFileMetadata [0xD800] := by
  obtain ⟨image, hcreate⟩ := exists_image
    (r := createImage (oneFileCodec [0xD800] "\uFFFD") 3 oneFile { author := [0xD800] })
    (by decide +kernel : _ = some (oneFileMetadata [0xD800]))
  have hundoes : Undoes (oneFileCodec [0xD800] "\uFFFD") 3 (packedArchive oneFile)
      (oneFileMetadata [0xD800]) :=
    undoes_storedCodec 3 (by decide +kernel) _ (by decide +kernel)
  obtain ⟨_, count, hwrite⟩ := createImage_ok hcreate
  obtain ⟨header, hinfo⟩ := getImageInfo_written hwrite hundoes
  refine ⟨image, header, _, hcreate, hundoes, hinfo, by decide +kernel, ?_⟩
  intro heq
  have hauthor := congrArg LayerMetadata.author heq
  exact absurd hauthor (by decide +kernel)

end LayerImage

end LayerMount
