import Mathlib.Algebra.Group.Nat.Defs
import Mathlib.Tactic.Common

/-!
# Names, paths and layers

A path of the overlay is the list of its components from the root, in the form
`NormalizePath` gives: case folded, without empty components.  A `.` component stays
in it.  A layer is a host directory.  It is modelled by what the engine's probes of it
answer:

* `Layer.get` is `GetFileAttributesW` together with the entry's reparse tag, its
  `:overlay.opaque` stream and its redirect record.  A probe through a junction
  or a directory symbolic link lands in the link's target, so `get` has entries
  below a link too.
* `Layer.scan` is one `FindFirstFileW` enumeration, `.` and `..` left out.
* `Layer.sidecarOpaque` is an opaque record of the sidecar store, which is keyed
  by path and may outlive its entry.

The laws of `Layer` are facts of a file system: an entry has a directory above it,
and an enumeration lists the entries a probe finds.  Neither holds of a last `.`
component, which `GetFullPathNameW` drops: a probe of `f\.` answers as one of `f`
does, a file included, and no enumeration lists `.`.  Short names, case-sensitive
directories and the stored case of a name are outside the model, and so are names that
end in a dot or a space in a path that also has a `.` component, where
`GetFullPathNameW` cuts them.
-/

namespace LayerMount

/-! ## Names and paths -/

abbrev Name := List Char

abbrev RelPath := List Name

def kWhiteoutPrefix : Name := ['.', 'w', 'h', '.']

def kOpaqueMarkerFile : Name :=
  ['.', 'w', 'h', '.', '.', 'w', 'h', '.', '.', 'o', 'p', 'q']

def kSidecarDirName : Name := ['.', 'o', 'v', 'e', 'r', 'l', 'a', 'y']

def isWhiteoutName (fileName : Name) : Bool := kWhiteoutPrefix.isPrefixOf fileName

def getWhitedOutName (whiteoutName : Name) : Name :=
  whiteoutName.drop kWhiteoutPrefix.length

def whitedOutNameOfEntry (entryName : Name) : Option Name :=
  if !isWhiteoutName entryName || entryName = kOpaqueMarkerFile then none
  else some (getWhitedOutName entryName)

/-- The name of the whiteout marker for `name`. -/
def whiteoutName (name : Name) : Name := kWhiteoutPrefix ++ name

/-- `GetWhiteoutFileName`: the marker beside the entry at `relativePath`. -/
def getWhiteoutFileName (relativePath : RelPath) : RelPath :=
  relativePath.dropLast ++ [whiteoutName (relativePath.getLastD [])]

/-- `IsSafeRelativePath`: not empty, no colon, no `..` component. -/
def isSafeRelativePath (normalized : RelPath) : Bool :=
  !normalized.isEmpty && normalized.all fun c => !c.contains ':' && c ≠ ['.', '.']

def isRootSidecarPath (normalized : RelPath) : Bool :=
  normalized.head? = some kSidecarDirName

/-- `ParentOfFirstMarkerSegment`: the directory that holds the first component
with a marker's name. -/
def parentOfFirstMarkerSegment (normalized : RelPath) : Option RelPath :=
  if normalized.any isWhiteoutName then
    some (normalized.takeWhile fun c => !isWhiteoutName c)
  else none

def isReservedRelativePath (normalized : RelPath) : Bool :=
  isRootSidecarPath normalized || (parentOfFirstMarkerSegment normalized).isSome

@[simp] theorem isWhiteoutName_whiteoutName (n : Name) :
    isWhiteoutName (whiteoutName n) = true := by
  simp [isWhiteoutName, whiteoutName]

@[simp] theorem getWhitedOutName_whiteoutName (n : Name) :
    getWhitedOutName (whiteoutName n) = n := by
  simp [getWhitedOutName, whiteoutName]

theorem whiteoutName_ne_dot (n : Name) : whiteoutName n ≠ ['.'] := by
  simp [whiteoutName, kWhiteoutPrefix]

theorem whiteoutName_injective {m n : Name} (h : whiteoutName m = whiteoutName n) :
    m = n := by
  simpa [whiteoutName] using h

theorem whiteoutName_getWhitedOutName {n : Name} (h : isWhiteoutName n = true) :
    whiteoutName (getWhitedOutName n) = n := by
  obtain ⟨t, ht⟩ := List.isPrefixOf_iff_prefix.mp h
  simp [whiteoutName, getWhitedOutName, ← ht]

@[simp] theorem isWhiteoutName_kOpaqueMarkerFile :
    isWhiteoutName kOpaqueMarkerFile = true := by decide

@[simp] theorem getWhiteoutFileName_append (d : RelPath) (n : Name) :
    getWhiteoutFileName (d ++ [n]) = d ++ [whiteoutName n] := by
  simp [getWhiteoutFileName]

/-! ## Layers -/

/-- The attribute bits the engine reads or writes. -/
structure Attributes where
  directory : Bool := false
  reparsePoint : Bool := false
  readOnly : Bool := false
  archive : Bool := false
  sparse : Bool := false
  deriving DecidableEq, Repr

/-- What a reparse point's tag says. -/
inductive ReparseTag where
  | unreadable
  | nameSurrogate
  | other
  deriving DecidableEq, Repr

structure LayerEntry where
  attributes : Attributes
  /-- The tag, read for a reparse point only. -/
  tag : ReparseTag := .other
  /-- The `:overlay.opaque` stream. -/
  opaqueStream : Bool := false
  /-- The redirect record, from the stream or the sidecar. -/
  redirect : Option RelPath := none
  deriving DecidableEq, Repr

/-- One probe: an error other than a missing path is `unreadable`. -/
inductive Probe where
  | missing
  | unreadable
  | entry (e : LayerEntry)
  deriving DecidableEq, Repr

/-- The status codes the modelled code returns. -/
inductive NtStatus where
  | invalidParameter
  | objectNameInvalid
  | objectNameNotFound
  | objectPathNotFound
  | objectNameCollision
  | notADirectory
  | fileIsADirectory
  | accessDenied
  | directoryNotEmpty
  | cannotDelete
  | mediaWriteProtected
  | invalidHandle
  | notSupported
  | notSameDevice
  | endOfFile
  | unsuccessful
  | diskFailure
  deriving DecidableEq, Repr

structure Layer where
  get : RelPath → Probe
  scan : RelPath → Except NtStatus (List Name)
  sidecarOpaque : RelPath → Bool
  /-- An entry, and an error other than a missing path, need a directory above. -/
  parent_directory : ∀ p n, n ≠ ['.'] → get (p ++ [n]) ≠ .missing →
    get p = .unreadable ∨ ∃ e, get p = .entry e ∧ e.attributes.directory = true
  mem_scan : ∀ p names, scan p = .ok names →
    ∀ n, n ≠ ['.'] → (n ∈ names ↔ get (p ++ [n]) ≠ .missing)
  /-- What a probe finds at a last `.` component is what the path without it names. -/
  get_dot : ∀ p, get (p ++ [['.']]) ≠ .missing → get (p ++ [['.']]) = get p

/-- The mounted layers.  The lower at index 0 has the highest priority. -/
structure LayerConfig where
  upper : Layer
  lowers : List Layer

inductive LayerSource where
  | none
  | upper
  | lower
  deriving DecidableEq, Repr

/-- The attributes a probe reads, or `INVALID_FILE_ATTRIBUTES`. -/
def Probe.attributes : Probe → Option Attributes
  | .entry e => some e.attributes
  | _ => none

/-- `GetFileAttributesW` does not give `INVALID_FILE_ATTRIBUTES`. -/
def Probe.exists : Probe → Bool
  | .entry _ => true
  | _ => false

/-- Every probe of the layer answers: the entry, its reparse tag, and the
enumeration of every directory. -/
structure Layer.Readable (l : Layer) : Prop where
  get : ∀ p, l.get p ≠ .unreadable
  tag : ∀ p e, l.get p = .entry e → e.attributes.directory = true →
    e.attributes.reparsePoint = true → e.tag ≠ .unreadable
  scan : ∀ p, ∃ names, l.scan p = .ok names

end LayerMount
