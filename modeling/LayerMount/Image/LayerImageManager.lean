import LayerMount.Image.HostWrites
import LayerMount.Image.ImageFile
import LayerMount.Image.Pack

/-!
# Layer images

`CreateImage`, `CreateDifferentialImage`, `ExtractImage` and `GetImageInfo` of
`LayerImageManager.cpp`, over trees of the host.  An unpack writes into a tree without
links, and no text that it joins to the target has a `..` in it, so the containment check of
`JoinUnderTarget` passes and is left out.  The host opens a text up to its first NUL.
-/

namespace LayerMount

open Lib

variable {H : Host}

/-! ## Unpacking an archive -/

/-- `ExistingLongName`.  Short names are left out: the host also finds an entry under its
8.3 name. -/
def existingLongName (t : HostDir H) (name : Name) : Option Name :=
  (t.find [cutAtNul name]).map fun e => e.path.getLastD []

def unpackSkipsEntry (t : HostDir H) (relativePath : WideString) : Bool :=
  let firstSegment := firstSegmentAsOpened H relativePath
  if firstSegment.isEmpty then false
  else if isRootSidecarPath [firstSegment] then true
  else if isWhiteoutName firstSegment && isRootSidecarPath [getWhitedOutName firstSegment] then true
  else
    match existingLongName t firstSegment with
    | some longName => firstSegmentOpensAsSidecar H (encodeUtf16 longName)
    | none => false

/-- `WriteExtractedFile`. -/
def writeExtractedFile (t : HostDir H) (p : RelPath) (entry : FileEntryHeader) (fileData : Data) :
    Except Win32Error (HostDir H) :=
  (t.createDirectories p.dropLast).writeFile p.dropLast (p.getLastD []) entry.attributes
    entry.modified fileData

/-- What an unpack has written: the tree, and the names of the whiteout entries. -/
structure Unpacked (H : Host) where
  tree : HostDir H
  extractedWhiteouts : List WideString := []

/-- One turn of the loop of `ExtractArchive`. -/
def extractEntry (u : Unpacked H) (entry : ArchiveEntry) : Except Win32Error (Unpacked H) :=
  if unpackSkipsEntry u.tree entry.name then .ok u
  else if entry.header.isDirectory ≠ 0 then
    .ok { u with tree := u.tree.createDirectories (pathOf entry.name) }
  else do
    let tree ← writeExtractedFile u.tree (pathOf entry.name) entry.header entry.data
    pure
      { tree
        extractedWhiteouts :=
          if entry.header.isWhiteout ≠ 0 then u.extractedWhiteouts ++ [entry.name]
          else u.extractedWhiteouts }

/-- The loop of `ExtractArchive`.  Each turn reads a header at least, so the bytes left
bound the turns. -/
def extractArchiveFrom : Nat → Data → Unpacked H → Except Win32Error (Unpacked H)
  | 0, _, _ => .error .invalidData
  | turns + 1, archive, u =>
    match readArchiveEntry archive with
    | .error e => .error e
    | .ok (none, _) => .ok u
    | .ok (some entry, rest) => do
      let u ← extractEntry u entry
      extractArchiveFrom turns rest u

def extractArchive (archive : Data) (target : HostDir H) : Except Win32Error (Unpacked H) :=
  extractArchiveFrom (archive.length + 1) archive ⟨target, []⟩

def kFileAttributeArchive : UInt32 := 0x20

/-- One turn of the loop of `MaterializeMetadataWhiteouts`. -/
def materializeWhiteout (already : List WideString) (t : HostDir H) (logical : WideString) :
    Except Win32Error (HostDir H) :=
  if !isValidArchivePath (wideToUtf8 logical) then .error .badPathname
  else
    let marker := makeWhiteoutMarkerPath logical
    if already.contains (toLower marker) then .ok t
    else if unpackSkipsEntry t marker then .ok t
    else
      let p := openedPath (pathOf marker)
      (t.createDirectories (openedPath (pathOf marker).dropLast)).writeFile p.dropLast (p.getLastD [])
        kFileAttributeArchive 0 []

def materializeMetadataWhiteouts (whiteouts : List WideString) (u : Unpacked H) :
    Except Win32Error (HostDir H) :=
  whiteouts.foldlM (materializeWhiteout (u.extractedWhiteouts.map toLower)) u.tree

namespace LayerImage

/-! ## The operations -/

section Operations

variable (k : Codec)

def kMaxDecompressedBytes : Nat := 4 * 1024 * 1024 * 1024

def decompressBuffer (input : Data) : Except Win32Error Data :=
  match k.frameContentSize input with
  | none => .error .invalidData
  | some frameSize =>
    if frameSize.toNat > kMaxDecompressedBytes then .error .invalidData
    else
      match k.decompress input frameSize.toNat with
      | none => .error .invalidData
      | some output => if output.length ≠ frameSize.toNat then .error .invalidData else .ok output

def stampIdentity (metadata : LayerMetadata) : LayerMetadata :=
  { metadata with
    id := if metadata.id.isEmpty then k.generateId else metadata.id
    createdAt := if metadata.createdAt.isEmpty then k.timestamp else metadata.createdAt }

/-- The bytes of the image, and the metadata that the call leaves to its caller. -/
def createImage (compressionLevel : Int) (source : HostDir H) (metadata : LayerMetadata) :
    Except Win32Error (Data × LayerMetadata) := do
  let builder ← packEntries source (scanDirectory source) {}
  let metadata := stampIdentity k metadata
  writeImageFile k compressionLevel { metadata with fileCount := builder.fileCount } builder.finish

def createDifferentialImage (compressionLevel : Int) (source base : HostDir H)
    (metadata : LayerMetadata) : Except Win32Error (Data × LayerMetadata) := do
  let sourceEntries := scanDirectory source
  let baseEntries := scanDirectory base
  let builder ← packEntries source (changedEntries sourceEntries baseEntries) {}
  let deleted := deletedPaths sourceEntries baseEntries
  let builder ← addWhiteoutMarkers deleted builder
  let metadata := stampIdentity k metadata
  writeImageFile k compressionLevel
    { metadata with whiteouts := deleted, fileCount := builder.fileCount } builder.finish

def extractImage (image : Data) (target : HostDir H) (verifyChecksum : Bool) :
    Except Win32Error (HostDir H) := do
  let (header, metadata) ← readHeaderAndMetadata k image
  if verifyChecksum then
    let hashed ← readSection image header.dataOffset header.dataSize
    if k.sha256 hashed ≠ header.checksum then throw .crc
  let compressed ← readSection image header.dataOffset header.dataSize
  let archive ← decompressBuffer k compressed
  let u ← extractArchive archive target
  materializeMetadataWhiteouts metadata.whiteouts u

end Operations

end LayerImage

end LayerMount
