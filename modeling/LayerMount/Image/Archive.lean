import LayerMount.Image.ArchivePath
import LayerMount.Lib.Bytes

/-!
# The archive stream

The tar-like stream of `LayerImageFormat.h`: for each entry a packed 24-byte header, the
UTF-8 text of its path and the bytes of a file, and at the end a header whose name length
is the end marker.  `ArchiveBuilder` writes the stream and `readArchiveEntry` reads the
next entry from what is left of it.

What `append` wrote, `readArchiveEntry` reads (`readArchiveEntry_entryBytes`), and the end
marker is no entry's header (`readArchiveEntry_finish`).
-/

namespace LayerMount

open Lib

def kArchiveEndMarker : UInt16 := 0xFFFF

structure FileEntryHeader where
  nameLength : UInt16 := 0
  size : UInt64 := 0
  attributes : UInt32 := 0
  modified : UInt64 := 0
  isDirectory : UInt8 := 0
  isWhiteout : UInt8 := 0
  deriving DecidableEq, Repr

/-- `sizeof(FileEntryHeader)`. -/
def kFileEntryHeaderSize : Nat := 24

namespace FileEntryHeader

def bytes (h : FileEntryHeader) : Data :=
  leBytes 2 h.nameLength.toNat ++ (leBytes 8 h.size.toNat ++ (leBytes 4 h.attributes.toNat ++
    (leBytes 8 h.modified.toNat ++ (leBytes 1 h.isDirectory.toNat ++ leBytes 1 h.isWhiteout.toNat))))

def ofBytes (bytes : Data) : FileEntryHeader where
  nameLength := UInt16.ofNat (field bytes 0 2)
  size := UInt64.ofNat (field bytes 2 8)
  attributes := UInt32.ofNat (field bytes 10 4)
  modified := UInt64.ofNat (field bytes 14 8)
  isDirectory := UInt8.ofNat (field bytes 22 1)
  isWhiteout := UInt8.ofNat (field bytes 23 1)

@[simp] theorem length_bytes (h : FileEntryHeader) : h.bytes.length = kFileEntryHeaderSize := by
  simp [bytes, kFileEntryHeaderSize]

/-- A header reads back. -/
theorem ofBytes_bytes (h : FileEntryHeader) (rest : Data) : ofBytes (h.bytes ++ rest) = h := by
  obtain ⟨nameLength, size, attributes, modified, isDirectory, isWhiteout⟩ := h
  have hname := field_leBytes [] rfl
    (show nameLength.toNat < 256 ^ 2 from nameLength.toNat_lt)
  have hsize := field_leBytes (leBytes 2 nameLength.toNat) rfl
    (show size.toNat < 256 ^ 8 from size.toNat_lt)
  have hattr := field_leBytes (leBytes 2 nameLength.toNat ++ leBytes 8 size.toNat) rfl
    (show attributes.toNat < 256 ^ 4 from attributes.toNat_lt)
  have hmod := field_leBytes
    (leBytes 2 nameLength.toNat ++ leBytes 8 size.toNat ++ leBytes 4 attributes.toNat) rfl
    (show modified.toNat < 256 ^ 8 from modified.toNat_lt)
  have hdir := field_leBytes
    (leBytes 2 nameLength.toNat ++ leBytes 8 size.toNat ++ leBytes 4 attributes.toNat ++
      leBytes 8 modified.toNat) rfl
    (show isDirectory.toNat < 256 ^ 1 from isDirectory.toNat_lt)
  have hwh := field_leBytes
    (leBytes 2 nameLength.toNat ++ leBytes 8 size.toNat ++ leBytes 4 attributes.toNat ++
      leBytes 8 modified.toNat ++ leBytes 1 isDirectory.toNat) rfl
    (show isWhiteout.toNat < 256 ^ 1 from isWhiteout.toNat_lt)
  simp only [List.append_assoc, List.nil_append, List.length_append, length_leBytes,
    List.length_nil, Nat.reduceAdd] at hname hsize hattr hmod hdir hwh
  simp [ofBytes, bytes, List.append_assoc, hname, hsize, hattr, hmod, hdir, hwh]

end FileEntryHeader

/-! ## Writing -/

structure ArchiveBuilder where
  archive : Data := []
  fileCount : UInt64 := 0

/-- The bytes of one entry. -/
def entryBytes (entry : FileEntryHeader) (utf8Name data : Data) : Data :=
  { entry with nameLength := UInt16.ofNat utf8Name.length }.bytes ++ (utf8Name ++ data)

/-- `HasWhiteoutPrefix`, on the units of a name. -/
def hasWhiteoutPrefix (filename : WideString) : Bool :=
  (encodeUtf16 kWhiteoutPrefix).isPrefixOf filename

/-- The part of a path after its last slash. -/
def lastSegment (path : WideString) : WideString := (path.reverse.takeWhile (· ≠ 0x2F)).reverse

/-- `MakeWhiteoutMarkerPath`. -/
def makeWhiteoutMarkerPath (logicalPath : WideString) : WideString :=
  let path := logicalPath.map fun u => if u = 0x5C then 0x2F else u
  path.take (path.length - (lastSegment path).length) ++
    (encodeUtf16 kWhiteoutPrefix ++ lastSegment path)

namespace ArchiveBuilder

def append (b : ArchiveBuilder) (relativePath : WideString) (entry : FileEntryHeader)
    (data : Data) : Except Win32Error ArchiveBuilder :=
  let utf8Name := wideToUtf8 relativePath
  if utf8Name.isEmpty then .error .invalidParameter
  else if utf8Name.length > 0xFFFE then .error .filenameExcedRange
  else .ok { b with archive := b.archive ++ entryBytes entry utf8Name data }

def appendCounted (b : ArchiveBuilder) (relativePath : WideString) (entry : FileEntryHeader)
    (data : Data) : Except Win32Error ArchiveBuilder := do
  let b ← b.append relativePath entry data
  pure { b with fileCount := b.fileCount + 1 }

def addDirectory (b : ArchiveBuilder) (relativePath : WideString) (entry : FileEntryHeader) :
    Except Win32Error ArchiveBuilder :=
  b.append relativePath entry []

/-- The bytes of a file, which is opened only where the scan found it to have some. -/
def bytesOfFile (entry : FileEntryHeader) (readFileBytes : Except Win32Error Data) :
    Except Win32Error Data :=
  if entry.size > 0 then readFileBytes else .ok []

/-- `AddFile`.  `readFileBytes` is what a read of the whole file gives. -/
def addFile (b : ArchiveBuilder) (relativePath : WideString) (entry : FileEntryHeader)
    (readFileBytes : Except Win32Error Data) : Except Win32Error ArchiveBuilder := do
  let bytes ← bytesOfFile entry readFileBytes
  let filename := encodeUtf16 ((pathOf relativePath).getLastD [])
  b.appendCounted relativePath
    { entry with
      size := UInt64.ofNat bytes.length
      isWhiteout := if hasWhiteoutPrefix filename then 1 else 0 }
    bytes

def addWhiteoutMarker (b : ArchiveBuilder) (deletedPath : WideString) :
    Except Win32Error ArchiveBuilder :=
  b.appendCounted (makeWhiteoutMarkerPath deletedPath)
    { attributes := kFileAttributeNormal, isWhiteout := 1 } []

def finish (b : ArchiveBuilder) : Data :=
  b.archive ++ ({ nameLength := kArchiveEndMarker } : FileEntryHeader).bytes

end ArchiveBuilder

/-! ## Reading -/

structure ArchiveEntry where
  header : FileEntryHeader
  name : WideString
  data : Data
  deriving DecidableEq, Repr

/-- `ReadArchiveEntry` on what is left of the archive: the entry, or none at the end
marker, and what is left after it. -/
def readArchiveEntry (archive : Data) : Except Win32Error (Option ArchiveEntry × Data) :=
  if archive.length < kFileEntryHeaderSize then .error .invalidData
  else
    let header := FileEntryHeader.ofBytes archive
    let rest := archive.drop kFileEntryHeaderSize
    if header.nameLength = kArchiveEndMarker then .ok (none, rest)
    else if header.nameLength = 0 then .error .invalidData
    else if rest.length < header.nameLength.toNat then .error .invalidData
    else
      let utf8Name := rest.take header.nameLength.toNat
      let rest := rest.drop header.nameLength.toNat
      if !isValidUtf8 utf8Name then .error .invalidData
      else if !isValidArchivePath utf8Name then .error .badPathname
      else if header.size.toNat > rest.length then .error .invalidData
      else
        let entry := ⟨header, utf8ToWide utf8Name, rest.take header.size.toNat⟩
        .ok (some entry, if header.isDirectory = 0 then rest.drop header.size.toNat else rest)

/-- What a name must be for the reader to take it. -/
structure ReadableName (utf8Name : Data) : Prop where
  ne_nil : utf8Name ≠ []
  length_le : utf8Name.length ≤ 0xFFFE
  utf8 : isValidUtf8 utf8Name = true
  path : isValidArchivePath utf8Name = true

section Reading

variable {entry : FileEntryHeader} {utf8Name data : Data}

theorem toNat_nameLength (hlength : utf8Name.length ≤ 0xFFFE) :
    (UInt16.ofNat utf8Name.length).toNat = utf8Name.length := by
  rw [UInt16.toNat_ofNat']
  omega

/-- The name and the data are behind the header. -/
theorem readArchiveEntry_header (hlength : utf8Name.length ≤ 0xFFFE) (hne : utf8Name ≠ [])
    (rest : Data) :
    readArchiveEntry (entryBytes entry utf8Name data ++ rest)
      = if !isValidUtf8 utf8Name then .error .invalidData
        else if !isValidArchivePath utf8Name then .error .badPathname
        else if entry.size.toNat > (data ++ rest).length then .error .invalidData
        else .ok (some ⟨{ entry with nameLength := UInt16.ofNat utf8Name.length },
            utf8ToWide utf8Name, (data ++ rest).take entry.size.toNat⟩,
          if entry.isDirectory = 0 then (data ++ rest).drop entry.size.toNat else data ++ rest) := by
  have hnat := toNat_nameLength hlength
  have hpos : 0 < utf8Name.length := List.length_pos_iff.mpr hne
  have hheader := FileEntryHeader.length_bytes
    { entry with nameLength := UInt16.ofNat utf8Name.length }
  have hsplit : entryBytes entry utf8Name data ++ rest
      = { entry with nameLength := UInt16.ofNat utf8Name.length }.bytes ++
        (utf8Name ++ (data ++ rest)) := by
    simp [entryBytes, List.append_assoc]
  have hend : UInt16.ofNat utf8Name.length ≠ kArchiveEndMarker := by
    intro heq
    rw [heq] at hnat
    simp only [kArchiveEndMarker, UInt16.reduceToNat] at hnat
    omega
  have hzero : UInt16.ofNat utf8Name.length ≠ 0 := by
    intro heq
    rw [heq] at hnat
    simp only [UInt16.toNat_zero] at hnat
    omega
  unfold readArchiveEntry
  rw [hsplit, if_neg (by rw [List.length_append, hheader]; omega)]
  simp only [FileEntryHeader.ofBytes_bytes, List.drop_left' hheader, hend, if_false, hzero, hnat,
    List.take_left, List.drop_left]
  rw [if_neg (by rw [List.length_append]; omega)]

/-- What `append` wrote is read. -/
theorem readArchiveEntry_entryBytes (hname : ReadableName utf8Name)
    (hsize : entry.size.toNat = data.length) (hdir : entry.isDirectory ≠ 0 → data = [])
    (rest : Data) :
    readArchiveEntry (entryBytes entry utf8Name data ++ rest)
      = .ok (some ⟨{ entry with nameLength := UInt16.ofNat utf8Name.length },
          utf8ToWide utf8Name, data⟩, rest) := by
  rw [readArchiveEntry_header hname.length_le hname.ne_nil, hname.utf8, hname.path, hsize]
  simp only [Bool.not_true, Bool.false_eq_true, if_false, List.length_append]
  rw [if_neg (by omega), List.take_left, List.drop_left]
  by_cases hzero : entry.isDirectory = 0
  · rw [if_pos hzero]
  · rw [if_neg hzero, hdir hzero, List.nil_append]

/-- The reader stops at the end marker. -/
theorem readArchiveEntry_finish (rest : Data) :
    readArchiveEntry (({ nameLength := kArchiveEndMarker } : FileEntryHeader).bytes ++ rest)
      = .ok (none, rest) := by
  have hheader := FileEntryHeader.length_bytes { nameLength := kArchiveEndMarker }
  unfold readArchiveEntry
  rw [if_neg (by rw [List.length_append, hheader]; omega)]
  simp only [FileEntryHeader.ofBytes_bytes, List.drop_left' hheader, if_true]

end Reading

/-- The text of a path is a name that the reader takes. -/
theorem readableName_of_names {p : RelPath} (hne : p ≠ []) (h : ∀ n ∈ p, ArchiveName n)
    (hlength : (encodeUtf8 (joinPath p)).length ≤ 0xFFFE) :
    ReadableName (encodeUtf8 (joinPath p)) where
  ne_nil := by
    intro hnil
    have hvalid := isValidArchivePath_of_names hne h
    rw [hnil] at hvalid
    exact absurd hvalid (by decide)
  length_le := hlength
  utf8 := isValidUtf8_joinPath h
  path := isValidArchivePath_of_names hne h

end LayerMount
