import LayerMount.Image.Differential
import Mathlib.Algebra.GroupWithZero.Nat

/-!
# Which images can be unpacked

An unpack of a full image fails only where its archive is larger than the unpacker takes.
An unpack of a differential image fails also where a marker finds no room: the base has a
directory, the source has a file in its place, and the marker of an entry of that directory
would have to go below the file.
-/

namespace LayerMount

open Lib

variable {H : Host}

/-! ## Sizes -/

/-- The bytes that an entry takes in an archive. -/
def entrySize (path : RelPath) (content : Option Data) : Nat :=
  kFileEntryHeaderSize + (encodeUtf8 (joinPath path)).length + (content.getD []).length

/-- The bytes of an archive of entries and of markers. -/
def archiveSize (entries deleted : List HostEntry) : Nat :=
  (entries.map fun e => entrySize e.path e.content).sum +
    (deleted.map fun b => entrySize (markerPath b) none).sum + kFileEntryHeaderSize

theorem length_archiveOf (entries deleted : List HostEntry) :
    (archiveOf (entries.map itemOf ++ deleted.map fun b => markerItem b.path)).length
      = archiveSize entries deleted := by
  have hitem : ∀ i : ArchiveItem, i.bytes.length
      = kFileEntryHeaderSize + (encodeUtf8 (joinPath i.path)).length + i.data.length := by
    intro i
    rw [ArchiveItem.bytes, entryBytes, List.length_append, List.length_append,
      FileEntryHeader.length_bytes]
    omega
  rw [archiveOf, List.length_append, FileEntryHeader.length_bytes, archiveSize, List.flatMap_append,
    List.length_append, List.length_flatMap, List.length_flatMap, List.map_map, List.map_map]
  congr 2
  · apply congrArg List.sum
    apply List.map_congr_left
    intro e _
    exact hitem (itemOf e)
  · apply congrArg List.sum
    apply List.map_congr_left
    intro b _
    exact hitem (markerItem b.path)

theorem length_packedArchive (source : HostDir H) :
    (packedArchive source).length = archiveSize (scannedEntries source) [] := by
  have hlength := length_archiveOf (scannedEntries source) []
  rwa [List.map_nil, List.append_nil] at hlength

theorem length_differentialArchive (source base : HostDir H) :
    (differentialArchive source base).length
      = archiveSize (changedOf source base) (deletedOf source base) :=
  length_archiveOf _ _

/-! ## Success -/

/-- The entries of a tree are placed in an empty directory. -/
theorem placeItems_scanned (source : HostDir H) :
    ∃ t : HostDir H, placeItems ((scannedEntries source).map itemOf) HostDir.empty = .ok t := by
  obtain ⟨t, hrun, _⟩ := placeItems_some source (scannedEntries source)
    (fun e he => mem_of_mem_scannedEntries he) ((nodup_entries source).filter _)
  exact ⟨t, hrun⟩

/-- The items of a differential image are placed exactly when its markers fit. -/
theorem placeItems_differential_iff (source base : HostDir H) :
    (∃ t : HostDir H, placeItems (differentialItems source base) HostDir.empty = .ok t) ↔
      MarkersFit H (changedOf source base) (deletedOf source base) := by
  obtain ⟨t, hrun, hplaced, hdirs⟩ := placeItems_some source (changedOf source base)
    (fun e he => mem_of_mem_changedOf he) nodup_changedOf
  have hmarkers := placeMarkers_iff (fun e he => mem_of_mem_changedOf he) hplaced hdirs
    distinct_deletedOf fun b (hb : b ∈ deletedOf source base) => ok_of_mem_deletedOf hb
  rw [← hmarkers, differentialItems, placeItems_append, hrun]
  exact Iff.rfl

namespace LayerImage

/-- An image of a tree is unpacked exactly when its archive is no larger than the unpacker
takes, and a differential image exactly when its markers find room as well. -/
theorem extractImage_succeeds_iff (k : Codec) (level : Int) (source base : HostDir H)
    (m m' : LayerMetadata) (image : Data) (verifyChecksum : Bool) :
    (m.whiteouts = [] → createImage k level source m = .ok (image, m') →
      Undoes k level (packedArchive source) m' →
      ((∃ t : HostDir H, extractImage k image HostDir.empty verifyChecksum = .ok t) ↔
        archiveSize (scannedEntries source) [] ≤ kMaxDecompressedBytes)) ∧
    (createDifferentialImage k level source base m = .ok (image, m') →
      Undoes k level (differentialArchive source base) m' →
      ((∃ t : HostDir H, extractImage k image HostDir.empty verifyChecksum = .ok t) ↔
        archiveSize (changedOf source base) (deletedOf source base) ≤ kMaxDecompressedBytes ∧
          MarkersFit H (changedOf source base) (deletedOf source base))) := by
  constructor
  · intro hwhiteouts hcreate hundoes
    rw [extractImage_createImage hcreate hwhiteouts hundoes, ← length_packedArchive]
    by_cases hlarge : (packedArchive source).length > kMaxDecompressedBytes
    · rw [if_pos hlarge]
      constructor
      · rintro ⟨t, ht⟩
        cases ht
      · intro hsmall
        omega
    · rw [if_neg hlarge]
      constructor
      · intro _
        omega
      · intro _
        exact placeItems_scanned source
  · intro hcreate hundoes
    rw [extractImage_createDifferentialImage hcreate hundoes, ← length_differentialArchive]
    by_cases hlarge : (differentialArchive source base).length > kMaxDecompressedBytes
    · rw [if_pos hlarge]
      constructor
      · rintro ⟨t, ht⟩
        cases ht
      · intro hsmall
        omega
    · rw [if_neg hlarge, placeItems_differential_iff]
      constructor
      · intro hfit
        exact ⟨by omega, hfit⟩
      · intro hboth
        exact hboth.2

/-! ## Images of small trees -/

/-- A directory with the one-byte file `b` in it. -/
def otherFile : HostDir latinHost where
  entries := [⟨[['b']], 0x20, 133000000000000000, some [1]⟩]
  ok := by decide +kernel
  distinct := by decide +kernel
  rooted := ⟨Or.inl rfl, trivial⟩

/-- The outside code on the image of `oneFile` over `otherFile`. -/
def oneForOtherCodec : Codec :=
  storedCodec
    [31, 80, 27, 176, 155, 112, 100, 90, 79, 167, 146, 70, 224, 150, 150, 238, 55, 70, 201, 207, 34,
      195, 74, 79, 55, 77, 37, 32, 17, 212, 45, 150] rfl
    (packedText "[\n    \"b\"\n  ]" "2" "79" "88")
    (metadataToJson (packedMetadata [[0x62]] 2 79 88))

/-- The directory `d` with the one-byte file `c` in it. -/
def otherChild : HostDir latinHost where
  entries := [⟨[['d']], 0x10, 133000000000000000, none⟩,
    ⟨[['d'], ['c']], 0x20, 133000000000000000, some [1]⟩]
  ok := by decide +kernel
  distinct := by decide +kernel
  rooted := ⟨Or.inl rfl, Or.inr ⟨_, List.mem_cons_self, rfl, rfl⟩, trivial⟩

/-- The outside code on the image of `markedTree` over `otherChild`. -/
def markedForOtherCodec : Codec :=
  storedCodec
    [210, 69, 144, 249, 114, 97, 18, 5, 43, 40, 144, 58, 7, 171, 76, 16, 10, 191, 145, 248, 17,
      225, 114, 165, 191, 0, 132, 28, 180, 40, 57, 78] rfl
    (packedText "[\n    \"d/c\"\n  ]" "3" "114" "123")
    (metadataToJson (packedMetadata [[0x64, 0x2F, 0x63]] 3 114 123))

/-- A directory with a file and a marker is packed and unpacked, and so is its image over one
that has another file. -/
theorem extractImage_succeeds_markedTree :
    (∃ image, createImage markedTreeCodec 3 markedTree {}
        = .ok (image, packedMetadata [] 2 108 117) ∧
      ∃ t : HostDir latinHost, extractImage markedTreeCodec image HostDir.empty true = .ok t) ∧
    ∃ image, createDifferentialImage markedForOtherCodec 3 markedTree otherChild {}
        = .ok (image, packedMetadata [[0x64, 0x2F, 0x63]] 3 114 123) ∧
      ∃ t : HostDir latinHost,
        extractImage markedForOtherCodec image HostDir.empty true = .ok t := by
  constructor
  · obtain ⟨image, hcreate⟩ := exists_image (r := createImage markedTreeCodec 3 markedTree {})
      (by decide +kernel : _ = some (packedMetadata [] 2 108 117))
    refine ⟨image, hcreate, ?_⟩
    have hsucceeds := (extractImage_succeeds_iff markedTreeCodec 3 markedTree markedTree {}
      (packedMetadata [] 2 108 117) image true).1 rfl hcreate
        (undoes_storedCodec 3 (by decide +kernel) _ (by decide +kernel))
    exact hsucceeds.mpr (by decide +kernel)
  · obtain ⟨image, hcreate⟩ := exists_image
      (r := createDifferentialImage markedForOtherCodec 3 markedTree otherChild {})
      (by decide +kernel : _ = some (packedMetadata [[0x64, 0x2F, 0x63]] 3 114 123))
    refine ⟨image, hcreate, ?_⟩
    have hsucceeds := (extractImage_succeeds_iff markedForOtherCodec 3 markedTree otherChild {}
      (packedMetadata [[0x64, 0x2F, 0x63]] 3 114 123) image true).2 hcreate
        (undoes_storedCodec 3 (by decide +kernel) _ (by decide +kernel))
    apply hsucceeds.mpr
    refine ⟨by decide +kernel, ?_⟩
    have hchanged : changedOf markedTree otherChild = markedTree.entries.drop 1 := by
      decide +kernel
    have hdeleted : deletedOf markedTree otherChild = otherChild.entries.drop 1 := by
      decide +kernel
    rw [hchanged, hdeleted]
    intro b hb _
    rw [List.mem_singleton.mp hb]
    exact ⟨by decide +kernel, by decide +kernel, by decide +kernel, by decide +kernel⟩

/-- The one-byte file `d`. -/
def fileAtD : HostDir latinHost where
  entries := [⟨[['d']], 0x20, 133000000000000000, some [1]⟩]
  ok := by decide +kernel
  distinct := by decide +kernel
  rooted := ⟨Or.inl rfl, trivial⟩

/-- The directory `d` with the one-byte file `x` in it. -/
def directoryAtD : HostDir latinHost where
  entries := [⟨[['d']], 0x10, 133000000000000000, none⟩,
    ⟨[['d'], ['x']], 0x20, 133000000000000000, some [1]⟩]
  ok := by decide +kernel
  distinct := by decide +kernel
  rooted := ⟨Or.inl rfl, Or.inr ⟨_, List.mem_singleton.mpr rfl, rfl, rfl⟩, trivial⟩

/-- The outside code on the image of `fileAtD` over `directoryAtD`. -/
def fileForDirectoryCodec : Codec :=
  storedCodec
    [41, 135, 180, 235, 230, 60, 90, 20, 247, 49, 68, 156, 26, 6, 18, 134, 152, 180, 99, 63, 169,
      188, 155, 204, 75, 48, 234, 54, 11, 42, 225, 165] rfl
    (packedText "[\n    \"d/x\"\n  ]" "2" "81" "90")
    (metadataToJson (packedMetadata [[0x64, 0x2F, 0x78]] 2 81 90))

/-! ## A large file -/

section Large

variable (zeros : Data) (hzeros : zeros.length = 2 ^ 32)

def largeEntry : HostEntry := ⟨[['a']], 0x20, 133000000000000000, some zeros⟩

/-- A directory with the file `a` of 4 GiB in it. -/
def largeFile : HostDir latinHost where
  entries := [largeEntry zeros]
  ok := by
    intro e he
    rw [List.mem_singleton.mp he]
    refine ⟨by simp [largeEntry], ?_, ?_, ?_⟩
    · intro n hn
      rw [List.mem_singleton.mp hn]
      decide
    · intro data hdata
      rw [← Option.some.inj hdata, hzeros]
      decide
    · show 0 < (133000000000000000 : UInt64).toNat ∧ (133000000000000000 : UInt64).toNat < 2 ^ 63
      decide
  distinct := List.nodup_singleton _
  rooted := ⟨Or.inl rfl, trivial⟩

/-- A Zstd frame of the archive of `largeFile`: the zeros are blocks of one repeated byte. -/
def largeFrame : Data :=
  [0x28, 0xB5, 0x2F, 0xFD, 0xE0] ++ (leBytes 8 (2 ^ 32 + 49) ++
    (leBytes 3 (8 * 25) ++ (entryBytes (itemOf (largeEntry zeros)).header [0x61] [] ++
      ((List.replicate 32768 (leBytes 3 (8 * 131072 + 2) ++ [0])).flatten ++
        (leBytes 3 (8 * 24 + 1) ++ ({ nameLength := kArchiveEndMarker } : FileEntryHeader).bytes)))))

theorem length_largeFrame : (largeFrame zeros).length = 131140 := by
  have hblocks : ∀ n : Nat,
      (List.replicate n (leBytes 3 (8 * 131072 + 2) ++ [(0 : UInt8)])).flatten.length = n * 4 := by
    intro n
    rw [List.length_flatten, List.map_replicate, List.sum_replicate_nat, List.length_append,
      length_leBytes, List.length_singleton]
  simp only [largeFrame, List.length_append, length_leBytes, hblocks, entryBytes,
    FileEntryHeader.length_bytes, kFileEntryHeaderSize, List.length_cons, List.length_nil]

/-- The outside code on the image of `largeFile`. -/
def largeFileCodec (text : Utf8String) (j : Json) : Codec where
  compress := fun _ data =>
    if data = packedArchive (largeFile zeros hzeros) then some (largeFrame zeros) else none
  frameContentSize := fun frame =>
    if frame = largeFrame zeros then some (UInt64.ofNat (2 ^ 32 + 49)) else none
  decompress := fun frame capacity =>
    if frame = largeFrame zeros ∧ (packedArchive (largeFile zeros hzeros)).length ≤ capacity then
      some (packedArchive (largeFile zeros hzeros))
    else none
  sha256 := fun _ => [161, 66, 130, 49, 191, 181, 67, 45, 41, 16, 233, 98, 242, 95, 73, 143, 155,
    218, 0, 103, 179, 226, 245, 202, 107, 76, 120, 171, 153, 206, 210, 45]
  length_sha256 := fun _ => rfl
  dump := fun _ => text
  parse := fun t => if t = text then some j else none
  generateId := encodeUtf16 "7F9C24E8-3B12-4FEF-91E0-66B4A1A0D5C3".toList
  generateId_ok := storedId_ok
  timestamp := encodeUtf16 "2026-01-01T00:00:00Z".toList
  timestamp_ok := storedTimestamp_ok

theorem scannedEntries_largeFile : scannedEntries (largeFile zeros hzeros) = [largeEntry zeros] := by
  have hname : firstSegmentOpensAsSidecar latinHost (encodeUtf16 ([['a']].headD [])) = false := by
    decide +kernel
  have hentries : (largeFile zeros hzeros).entries = [largeEntry zeros] := rfl
  rw [scannedEntries, hentries, List.filter_singleton, largeEntry, hname]
  rfl

theorem length_packedArchive_largeFile :
    (packedArchive (largeFile zeros hzeros)).length = 2 ^ 32 + 49 := by
  have hname : (encodeUtf8 (joinPath [['a']])).length = 1 := by decide +kernel
  rw [length_packedArchive, scannedEntries_largeFile]
  simp only [archiveSize, entrySize, List.map_cons, List.map_nil, List.sum_cons, List.sum_nil,
    largeEntry, hname, kFileEntryHeaderSize, Option.getD_some, hzeros]
  omega

theorem compress_largeFile (text : Utf8String) (j : Json) :
    (largeFileCodec zeros hzeros text j).compress 3 (packedArchive (largeFile zeros hzeros))
      = some (largeFrame zeros) := by
  simp only [largeFileCodec, if_true]

theorem undoes_largeFileCodec (text : Utf8String) (m : LayerMetadata)
    (htext : text.getLast? ≠ some 0) :
    Undoes (largeFileCodec zeros hzeros text (metadataToJson m)) 3
      (packedArchive (largeFile zeros hzeros)) m := by
  refine ⟨?_, ?_, if_pos rfl, htext⟩
  · intro c hc
    rw [compress_largeFile] at hc
    refine ⟨UInt64.ofNat (2 ^ 32 + 49), if_pos (Option.some.inj hc).symm, ?_⟩
    have hfits : (2 ^ 32 + 49) % 2 ^ 64 = 2 ^ 32 + 49 := Nat.mod_eq_of_lt (by decide)
    rw [length_packedArchive_largeFile, UInt64.toNat_ofNat', hfits]
  · intro c hc
    rw [compress_largeFile] at hc
    exact if_pos ⟨(Option.some.inj hc).symm, Nat.le_refl _⟩

theorem packEntries_largeFile :
    packEntries (largeFile zeros hzeros) (scanDirectory (largeFile zeros hzeros)) {}
      = .ok ⟨(itemOf (largeEntry zeros)).bytes, 1⟩ := by
  have hmem : largeEntry zeros ∈ (largeFile zeros hzeros).entries := List.mem_singleton.mpr rfl
  have hname : wideToUtf8 (relativeNameOf [['a']]) = [0x61] := by decide +kernel
  have hutf8 : encodeUtf8 (joinPath [['a']]) = [0x61] := by decide +kernel
  have hpath : pathOf (relativeNameOf [['a']]) = [['a']] := by decide +kernel
  have hread : readFileBytes (largeFile zeros hzeros) (relativeNameOf [['a']]) = .ok zeros := by
    have hfind : (largeFile zeros hzeros).find [['a']] = some (largeEntry zeros) :=
      HostDir.find_of_mem hmem
    rw [readFileBytes, hpath, hfind]
    rfl
  have hsize : UInt64.ofNat zeros.length > 0 := by
    rw [hzeros]
    decide
  rw [scanDirectory, scannedEntries_largeFile]
  simp [packEntries, packEntry, snapshotOf, fillFileEntry, largeEntry, HostEntry.isDirectory,
    ArchiveBuilder.addFile, ArchiveBuilder.bytesOfFile, ArchiveBuilder.appendCounted,
    ArchiveBuilder.append, hname, hpath, hread, hsize, hutf8, itemOf, ArchiveItem.bytes]
  rfl

/-- `CreateImage` writes the image of the large file. -/
theorem createImage_largeFile (text : Utf8String) (j : Json) (htext : text.length < 2 ^ 32) :
    ∃ image, createImage (largeFileCodec zeros hzeros text j) 3 (largeFile zeros hzeros) {}
      = .ok (image, packedMetadata [] 1 4294967345 131140) := by
  have hfinish : ArchiveBuilder.finish ⟨(itemOf (largeEntry zeros)).bytes, 1⟩
      = packedArchive (largeFile zeros hzeros) := by
    rw [packedArchive, scannedEntries_largeFile, ArchiveBuilder.finish, archiveOf, List.map_singleton,
      List.flatMap_singleton]
  have hmetadata : stampIdentity (largeFileCodec zeros hzeros text j) {}
      = packedMetadata [] 0 0 0 := rfl
  have hlength : (text ++ [0]).length + (largeFrame zeros).length < 2 ^ 62 := by
    rw [List.length_append, length_largeFrame, List.length_singleton]
    omega
  obtain ⟨image, hwrite⟩ := writeImageFile_of_compress
    (compress_largeFile zeros hzeros text j) { packedMetadata [] 0 0 0 with fileCount := 1 }
      fun _ => hlength
  refine ⟨image, ?_⟩
  rw [length_packedArchive_largeFile, length_largeFrame] at hwrite
  unfold createImage
  rw [packEntries_largeFile]
  simp only [bind, Except.bind, hfinish, hmetadata, hwrite]
  rfl

/-- The outside code on the image of `largeFile`, with the text of its metadata. -/
def zerosCodec : Codec :=
  largeFileCodec zeros hzeros (packedText "[]" "1" "4294967345" "131140")
    (metadataToJson (packedMetadata [] 1 4294967345 131140))

theorem largeFile_not_unpacked :
    ∃ image m', createImage (zerosCodec zeros hzeros) 3 (largeFile zeros hzeros) {}
        = .ok (image, m') ∧
      Undoes (zerosCodec zeros hzeros) 3 (packedArchive (largeFile zeros hzeros)) m' ∧
      ∀ verifyChecksum, extractImage (zerosCodec zeros hzeros) image
        (HostDir.empty : HostDir latinHost) verifyChecksum = .error .invalidData := by
  obtain ⟨image, hcreate⟩ := createImage_largeFile zeros hzeros
    (packedText "[]" "1" "4294967345" "131140")
    (metadataToJson (packedMetadata [] 1 4294967345 131140)) (by decide +kernel)
  have hundoes := undoes_largeFileCodec zeros hzeros (packedText "[]" "1" "4294967345" "131140")
    (packedMetadata [] 1 4294967345 131140) (by decide +kernel)
  refine ⟨image, _, hcreate, hundoes, ?_⟩
  intro verifyChecksum
  have hextract := extractImage_createImage hcreate rfl hundoes HostDir.empty verifyChecksum
  rw [length_packedArchive_largeFile, if_pos (by decide)] at hextract
  exact hextract

end Large

/-- The error of a result. -/
def errorOf {α : Type} : Except Win32Error α → Option Win32Error
  | .error e => some e
  | .ok _ => none

theorem eq_error_of_errorOf {α : Type} {r : Except Win32Error α} {e : Win32Error}
    (h : errorOf r = some e) : r = .error e := by
  cases r with
  | error e' => rw [Option.some.inj h]
  | ok a => cases h

/-- The unpacker refuses the image of a file of 4 GiB, and it finds no directory for the marker
of `d\\x` where `d` is a file. -/
theorem packed_not_unpacked :
    (∃ image m',
      createImage (zerosCodec (List.replicate (2 ^ 32) 0) List.length_replicate) 3
        (largeFile (List.replicate (2 ^ 32) 0) List.length_replicate) {} = .ok (image, m') ∧
      Undoes (zerosCodec (List.replicate (2 ^ 32) 0) List.length_replicate) 3
        (packedArchive (largeFile (List.replicate (2 ^ 32) 0) List.length_replicate)) m' ∧
      ∀ verifyChecksum,
        extractImage (zerosCodec (List.replicate (2 ^ 32) 0) List.length_replicate) image
          (HostDir.empty : HostDir latinHost) verifyChecksum = .error .invalidData) ∧
    ∃ image m', createDifferentialImage fileForDirectoryCodec 3 fileAtD directoryAtD {}
        = .ok (image, m') ∧
      Undoes fileForDirectoryCodec 3 (differentialArchive fileAtD directoryAtD) m' ∧
      ∀ verifyChecksum, extractImage fileForDirectoryCodec image
        (HostDir.empty : HostDir latinHost) verifyChecksum = .error .accessDenied := by
  constructor
  · exact largeFile_not_unpacked (List.replicate (2 ^ 32) 0) List.length_replicate
  · obtain ⟨image, hcreate⟩ := exists_image
      (r := createDifferentialImage fileForDirectoryCodec 3 fileAtD directoryAtD {})
      (by decide +kernel : _ = some (packedMetadata [[0x64, 0x2F, 0x78]] 2 81 90))
    have hundoes : Undoes fileForDirectoryCodec 3 (differentialArchive fileAtD directoryAtD)
        (packedMetadata [[0x64, 0x2F, 0x78]] 2 81 90) :=
      undoes_storedCodec 3 (by decide +kernel) _ (by decide +kernel)
    refine ⟨image, _, hcreate, hundoes, ?_⟩
    intro verifyChecksum
    rw [extractImage_createDifferentialImage hcreate hundoes, if_neg (by decide +kernel)]
    apply eq_error_of_errorOf
    decide +kernel

end LayerImage

end LayerMount
