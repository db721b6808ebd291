import Mathlib.Data.List.DropRight
import LayerMount.Image.Archive
import LayerMount.Lib.SortedMap
import LayerMount.MetadataStore

/-!
# The image file

A layer image is a packed 128-byte header, the metadata as JSON text with a NUL after it,
and the data section.  `writeImageFile` writes the three parts, and
`readHeaderAndMetadata` reads the first two after its checks of the header.

Zstd, SHA-256 and the JSON library are outside the code: `Codec` is what the images need of
them.
-/

namespace LayerMount

open Lib

/-- The code outside the image functions that they call. -/
structure Codec where
  /-- `ZSTD_compress` at a level, with `none` for an error. -/
  compress : Int → Data → Option Data
  /-- `ZSTD_getFrameContentSize`, with `none` for an unknown size and for an error. -/
  frameContentSize : Data → Option UInt64
  /-- `ZSTD_decompress` into a buffer of the given size, with `none` for an error. -/
  decompress : Data → Nat → Option Data
  sha256 : Data → Data
  length_sha256 : ∀ data, (sha256 data).length = 32
  /-- `nlohmann::json::dump(2)`. -/
  dump : Json → Utf8String
  /-- `nlohmann::json::parse`, with `none` for an exception. -/
  parse : Utf8String → Option Json
  /-- `GenerateId`. -/
  generateId : WideString
  generateId_ok : WellFormedUtf16 generateId ∧ FitsInt generateId
  /-- `GetCurrentTimestampISO8601`. -/
  timestamp : WideString
  timestamp_ok : WellFormedUtf16 timestamp ∧ FitsInt timestamp

namespace LayerImage

/-! ## The header -/

def kLayerImageMagic : Data := [0x4F, 0x56, 0x4C, 0x59, 0x49, 0x4D, 0x47, 0x00]

def kLayerImageVersion : UInt32 := 1

/-- `sizeof(LayerImageHeader)`. -/
def kLayerImageHeaderSize : Nat := 128

inductive CompressionType where
  | none
  | zstd
  deriving DecidableEq, Repr

def CompressionType.toUInt32 : CompressionType → UInt32
  | .none => 0
  | .zstd => 1

structure LayerImageHeader where
  magic : Data := kLayerImageMagic
  version : UInt32 := kLayerImageVersion
  flags : UInt32 := 0
  metadataOffset : UInt64 := 0
  metadataSize : UInt64 := 0
  dataOffset : UInt64 := 0
  dataSize : UInt64 := 0
  checksum : Data := List.replicate 32 0
  reserved : Data := List.replicate 48 0
  deriving DecidableEq, Repr

def LayerImageHeader.bytes (h : LayerImageHeader) : Data :=
  h.magic ++ (leBytes 4 h.version.toNat ++ (leBytes 4 h.flags.toNat ++
    (leBytes 8 h.metadataOffset.toNat ++ (leBytes 8 h.metadataSize.toNat ++
      (leBytes 8 h.dataOffset.toNat ++ (leBytes 8 h.dataSize.toNat ++
        (h.checksum ++ h.reserved)))))))

def LayerImageHeader.ofBytes (bytes : Data) : LayerImageHeader where
  magic := bytes.take 8
  version := UInt32.ofNat (field bytes 8 4)
  flags := UInt32.ofNat (field bytes 12 4)
  metadataOffset := UInt64.ofNat (field bytes 16 8)
  metadataSize := UInt64.ofNat (field bytes 24 8)
  dataOffset := UInt64.ofNat (field bytes 32 8)
  dataSize := UInt64.ofNat (field bytes 40 8)
  checksum := (bytes.drop 48).take 32
  reserved := (bytes.drop 80).take 48

/-! ## The metadata -/

structure LayerMetadata where
  id : WideString := []
  parentId : WideString := []
  createdAt : WideString := []
  author : WideString := []
  description : WideString := []
  tags : List WideString := []
  compression : CompressionType := .zstd
  fileCount : UInt64 := 0
  uncompressedSize : UInt64 := 0
  compressedSize : UInt64 := 0
  whiteouts : List WideString := []
  labels : SortedMap WideString WideString := SortedMap.empty
  deriving DecidableEq, Repr

def compressionTypeToString : CompressionType → Utf8String
  | .none => jsonKey "none"
  | .zstd => jsonKey "zstd"

def stringToCompressionType (s : Utf8String) : CompressionType :=
  if s = jsonKey "zstd" then .zstd else .none

def labelsToJson (labels : SortedMap WideString WideString) : List (Utf8String × Json) :=
  labels.entries.foldl
    (fun fields l => Json.setField (wideToUtf8 l.1) (.string (wideToUtf8 l.2)) fields) []

def textsToJson (texts : List WideString) : Json := .array (texts.map fun t => .string (wideToUtf8 t))

def metadataToJson (m : LayerMetadata) : Json :=
  .object <|
    Json.setField (jsonKey "labels") (.object (labelsToJson m.labels)) <|
    Json.setField (jsonKey "whiteouts") (textsToJson m.whiteouts) <|
    Json.setField (jsonKey "compressedSize") (.number m.compressedSize) <|
    Json.setField (jsonKey "uncompressedSize") (.number m.uncompressedSize) <|
    Json.setField (jsonKey "fileCount") (.number m.fileCount) <|
    Json.setField (jsonKey "compressionType") (.string (compressionTypeToString m.compression)) <|
    Json.setField (jsonKey "tags") (textsToJson m.tags) <|
    Json.setField (jsonKey "description") (.string (wideToUtf8 m.description)) <|
    Json.setField (jsonKey "author") (.string (wideToUtf8 m.author)) <|
    Json.setField (jsonKey "createdAt") (.string (wideToUtf8 m.createdAt)) <|
    Json.setField (jsonKey "parentLayerId")
      (if m.parentId.isEmpty then .null else .string (wideToUtf8 m.parentId)) <|
    Json.setField (jsonKey "layerId") (.string (wideToUtf8 m.id)) []

/-- The texts of an array, or none where the field is no array.  Items that are no texts are
skipped. -/
def jsonToTexts : Option Json → List WideString
  | some (.array items) => items.filterMap fun item => item.getString.map utf8ToWide
  | _ => []

def jsonToLabels : Option Json → SortedMap WideString WideString
  | some (.object fields) =>
    fields.foldl (fun labels f =>
      match f.2.getString with
      | some s => labels.set (utf8ToWide f.1) (utf8ToWide s)
      | none => labels) SortedMap.empty
  | _ => SortedMap.empty

/-- `j.contains(key)` and `j[key]` of an object. -/
def fieldOf (j : Json) (key : Utf8String) : Option Json :=
  match j with
  | .object fields => Json.find key fields
  | _ => none

/-- The parent's id: a field that is not there and one that is null are the empty text. -/
def jsonToParentId (j : Json) : Option WideString :=
  match fieldOf j (jsonKey "parentLayerId") with
  | none => some []
  | some .null => some []
  | some v => v.getString.map utf8ToWide

/-- `JsonToMetadata`, with `none` for an exception of the JSON library. -/
def jsonToMetadata (j : Json) : Option LayerMetadata := do
  let id ← j.value Json.getString (jsonKey "layerId") []
  let parentId ← jsonToParentId j
  let createdAt ← j.value Json.getString (jsonKey "createdAt") []
  let author ← j.value Json.getString (jsonKey "author") []
  let description ← j.value Json.getString (jsonKey "description") []
  let compression ← j.value Json.getString (jsonKey "compressionType") (jsonKey "none")
  let fileCount ← j.value Json.getUInt64 (jsonKey "fileCount") 0
  let uncompressedSize ← j.value Json.getUInt64 (jsonKey "uncompressedSize") 0
  let compressedSize ← j.value Json.getUInt64 (jsonKey "compressedSize") 0
  pure
    { id := utf8ToWide id
      parentId
      createdAt := utf8ToWide createdAt
      author := utf8ToWide author
      description := utf8ToWide description
      tags := jsonToTexts (fieldOf j (jsonKey "tags"))
      compression := stringToCompressionType compression
      fileCount, uncompressedSize, compressedSize
      whiteouts := jsonToTexts (fieldOf j (jsonKey "whiteouts"))
      labels := jsonToLabels (fieldOf j (jsonKey "labels")) }

/-! ## Writing and reading -/

section Files

variable (k : Codec)

/-- `WriteImageFile`: the bytes of the file, and the metadata with the sizes set.  The host
holds no file of 2^63 bytes. -/
def writeImageFile (compressionLevel : Int) (metadata : LayerMetadata) (archive : Data) :
    Except Win32Error (Data × LayerMetadata) :=
  match k.compress compressionLevel archive with
  | none => .error .invalidData
  | some compressed =>
    let metadata := { metadata with
      compression := .zstd
      uncompressedSize := UInt64.ofNat archive.length
      compressedSize := UInt64.ofNat compressed.length }
    let metadataJson := k.dump (metadataToJson metadata) ++ [0]
    let header : LayerImageHeader :=
      { flags := CompressionType.zstd.toUInt32
        metadataOffset := UInt64.ofNat kLayerImageHeaderSize
        metadataSize := UInt64.ofNat metadataJson.length
        dataOffset := UInt64.ofNat (kLayerImageHeaderSize + metadataJson.length)
        dataSize := UInt64.ofNat compressed.length
        checksum := k.sha256 compressed }
    let image := header.bytes ++ (metadataJson ++ compressed)
    if image.length < 2 ^ 63 then .ok (image, metadata) else .error .writeFault

/-- The bytes of the file from `offset` on, `size` of them. -/
def readSection (image : Data) (offset size : UInt64) : Except Win32Error Data :=
  if 2 ^ 63 ≤ offset.toNat then .error .seek
  else
    let section_ := (image.drop offset.toNat).take size.toNat
    if section_.length ≠ size.toNat then .error .readFault else .ok section_

def deserializeMetadata (utf8 : Utf8String) : Except Win32Error LayerMetadata :=
  match (k.parse utf8).bind jsonToMetadata with
  | some metadata => .ok metadata
  | none => .error .invalidData

def readHeaderAndMetadata (image : Data) : Except Win32Error (LayerImageHeader × LayerMetadata) := do
  let header := LayerImageHeader.ofBytes image
  if image.length < kLayerImageHeaderSize then throw .invalidData
  if header.magic ≠ kLayerImageMagic then throw .invalidData
  if header.version > kLayerImageVersion then throw .revisionMismatch
  if header.metadataOffset.toNat < kLayerImageHeaderSize then throw .invalidData
  if header.dataOffset < header.metadataOffset + header.metadataSize then throw .invalidData
  if header.metadataOffset + header.metadataSize < header.metadataOffset then throw .invalidData
  if header.dataOffset + header.dataSize < header.dataOffset then throw .invalidData
  let metadataStr ← readSection image header.metadataOffset header.metadataSize
  let metadata ← deserializeMetadata k (metadataStr.rdropWhile (· = 0))
  pure (header, metadata)

def getImageInfo (image : Data) : Except Win32Error (LayerImageHeader × LayerMetadata) :=
  readHeaderAndMetadata k image

end Files

end LayerImage

end LayerMount
