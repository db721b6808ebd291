import Mathlib.Data.List.DropRight
import LayerMount.Image.Archive

/-!
# Packing a tree

The read side of `LayerImageManager.cpp`: the walk of a directory, what of it a
differential image keeps, and the archive of the entries.  The packer compares the paths
of source and base by `toLower`, which is `towlower` in the C locale and lowers the ASCII
letters only.  The host compares them folded.
-/

namespace LayerMount

open Lib

variable {H : Host}

/-! ## Keys and reserved names -/

/-- `ToLower`. -/
def toLower (s : WideString) : WideString :=
  s.map fun u => if 0x41 ≤ u && u ≤ 0x5A then u + 0x20 else u

def opensWithout (c : Char) : Bool := c = '.' || c = ' '

/-- `FirstSegmentAsOpened`: the first name of the path in the form `NormalizePath` gives it,
without the dots and spaces at its end. -/
def firstSegmentAsOpened (H : Host) (relativePath : WideString) : Name :=
  let backslashed := (decodeUtf16 relativePath).map fun c => if c = '/' then '\\' else c
  let normalized := H.foldName (backslashed.dropWhile (· = '\\'))
  (normalized.takeWhile (· ≠ '\\')).rdropWhile opensWithout

def firstSegmentOpensAsSidecar (H : Host) (relativePath : WideString) : Bool :=
  isRootSidecarPath [firstSegmentAsOpened H relativePath]

/-! ## The walk -/

structure FileSnapshot where
  lookupKey : WideString
  relativePath : WideString
  entry : FileEntryHeader
  deriving DecidableEq, Repr

def fillFileEntry (e : HostEntry) : FileEntryHeader where
  attributes := e.attributes
  modified := e.modified
  isDirectory := if e.isDirectory then 1 else 0
  size :=
    match e.content with
    | none => 0
    | some data => UInt64.ofNat data.length

def snapshotOf (e : HostEntry) : FileSnapshot where
  lookupKey := toLower (relativeNameOf e.path)
  relativePath := relativeNameOf e.path
  entry := fillFileEntry e

/-- `ScanDirectory` steps past an entry of the root that opens as the sidecar, and past
everything under it. -/
def scannedEntries (t : HostDir H) : List HostEntry :=
  t.entries.filter fun e => !firstSegmentOpensAsSidecar H (encodeUtf16 (e.path.headD []))

def scanDirectory (t : HostDir H) : List FileSnapshot := (scannedEntries t).map snapshotOf

/-! ## The archive of the entries -/

def readFileBytes (t : HostDir H) (relativePath : WideString) : Except Win32Error Data :=
  match t.find (pathOf relativePath) with
  | some e =>
    match e.content with
    | some data => .ok data
    | none => .error .accessDenied
  | none => .error .accessDenied

def packEntry (root : HostDir H) (builder : ArchiveBuilder) (snap : FileSnapshot) :
    Except Win32Error ArchiveBuilder :=
  if snap.entry.isDirectory ≠ 0 then builder.addDirectory snap.relativePath snap.entry
  else builder.addFile snap.relativePath snap.entry (readFileBytes root snap.relativePath)

def packEntries (root : HostDir H) (entries : List FileSnapshot) (builder : ArchiveBuilder) :
    Except Win32Error ArchiveBuilder :=
  entries.foldlM (packEntry root) builder

/-! ## What a differential image keeps -/

def differs (source base : FileEntryHeader) : Bool :=
  if source.isDirectory ≠ base.isDirectory then true
  else source.isDirectory = 0 && (source.size ≠ base.size || source.modified ≠ base.modified)

/-- The last entry of the base with the key. -/
def baseByKey (base : List FileSnapshot) (key : WideString) : Option FileSnapshot :=
  base.reverse.find? fun b => b.lookupKey = key

def isChanged (base : List FileSnapshot) (s : FileSnapshot) : Bool :=
  match baseByKey base s.lookupKey with
  | none => true
  | some b => differs s.entry b.entry

def changedEntries (source base : List FileSnapshot) : List FileSnapshot :=
  source.filter (isChanged base)

def isDeleted (source : List FileSnapshot) (b : FileSnapshot) : Bool :=
  !(source.any fun s => s.lookupKey = b.lookupKey)

def deletedPaths (source base : List FileSnapshot) : List WideString :=
  (base.filter (isDeleted source)).map (·.relativePath)

def addWhiteoutMarkers (deleted : List WideString) (builder : ArchiveBuilder) :
    Except Win32Error ArchiveBuilder :=
  deleted.foldlM ArchiveBuilder.addWhiteoutMarker builder

end LayerMount
