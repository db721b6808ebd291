import LayerMount.LayerPath

/-!
# The merge of a directory

`DirectoryMerge.cpp`: the layers of a directory are read in priority order, each
adds the names no higher layer lists and no whiteout hides, and the walk stops
where a layer hides the ones below it.

`std::map` keeps one entry per key; the list of pairs below does the same,
because a key already there is skipped.
-/

namespace LayerMount

/-- How a scan reads a `.wh.` name. -/
inductive WhiteoutNames where
  | areMarkers
  | areOrdinary
  deriving DecidableEq, Repr

def whiteoutNamesIn (ancestry : LayerAncestry) : WhiteoutNames :=
  if endsAtLinkOrUnreadable ancestry.firstNonDirectory then .areOrdinary else .areMarkers

def visibleEntryKey (dirNorm : RelPath) (name : Name) : Option Name :=
  if name = ['.'] || name = ['.', '.'] then none
  else if dirNorm.isEmpty && isReservedRelativePath [name] then none
  else some name

structure MergedEntry where
  attributes : Attributes
  source : LayerSource
  lowerIndex : Option Nat
  deriving DecidableEq, Repr

structure DirectoryMerge where
  entries : List (Name × MergedEntry) := []
  whitedOutNames : List Name := []
  deriving DecidableEq, Repr

structure LayerDirectoryEntry where
  key : Name
  attributes : Attributes
  deriving DecidableEq, Repr

structure LayerDirectoryScan where
  whitedOutNames : List Name := []
  entries : List LayerDirectoryEntry := []
  deriving DecidableEq, Repr

/-- The attributes an enumeration reports for one entry. -/
def findDataAttributes (l : Layer) (d : RelPath) (name : Name) : Attributes :=
  (l.get (d ++ [name])).attributes.getD {}

def addOrdinaryEntry (l : Layer) (d : RelPath) (scan : LayerDirectoryScan) (name : Name) :
    LayerDirectoryScan :=
  match visibleEntryKey d name with
  | none => scan
  | some key => { scan with entries := scan.entries ++ [⟨key, findDataAttributes l d name⟩] }

def addMarkerOrEntry (l : Layer) (d : RelPath) (scan : LayerDirectoryScan) (name : Name) :
    LayerDirectoryScan :=
  match whitedOutNameOfEntry name with
  | some hidden => { scan with whitedOutNames := scan.whitedOutNames ++ [hidden] }
  | none => if isWhiteoutName name then scan else addOrdinaryEntry l d scan name

def scanLayerDirectory (l : Layer) (d : RelPath) (names : WhiteoutNames) :
    Except NtStatus LayerDirectoryScan :=
  match l.scan d with
  | .error status => .error status
  | .ok listed =>
    match names with
    | .areMarkers => .ok (listed.foldl (addMarkerOrEntry l d) {})
    | .areOrdinary => .ok (listed.foldl (addOrdinaryEntry l d) {})

/-- One layer of the merge.  `lowerIndex` is `none` for the upper. -/
structure MergeLayer where
  layer : Layer
  source : LayerSource
  lowerIndex : Option Nat

/-- The lowers from index `i` on, as layers of the merge. -/
def mergeLowersFrom : Nat → List Layer → List MergeLayer
  | _, [] => []
  | i, l :: rest => ⟨l, .lower, some i⟩ :: mergeLowersFrom (i + 1) rest

/-- `MergeLayerAt` for every slot: slot 0 is the upper, slot `i + 1` is lower `i`. -/
def mergeLayersOf (c : LayerConfig) : List MergeLayer :=
  ⟨c.upper, .upper, none⟩ :: mergeLowersFrom 0 c.lowers

def DirectoryMerge.addWhiteouts (merge : DirectoryMerge) (scan : LayerDirectoryScan) :
    DirectoryMerge :=
  { merge with whitedOutNames := merge.whitedOutNames ++ scan.whitedOutNames }

/-- The body of the loop over a scan's entries. -/
def DirectoryMerge.addEntry (layer : MergeLayer) (merge : DirectoryMerge)
    (entry : LayerDirectoryEntry) : DirectoryMerge :=
  if (merge.entries.any fun e => e.1 = entry.key) || merge.whitedOutNames.contains entry.key
    then merge
  else { merge with entries := merge.entries ++
    [(entry.key, ⟨entry.attributes, layer.source, layer.lowerIndex⟩)] }

/-- `MergeLayerEntries`: a lower's whiteouts hide its own entries too, the
upper's hide only the lowers'. -/
def mergeLayerEntries (layer : MergeLayer) (d : RelPath) (names : WhiteoutNames)
    (merge : DirectoryMerge) : Except NtStatus DirectoryMerge :=
  match scanLayerDirectory layer.layer d names with
  | .error status => .error status
  | .ok scan =>
    let merge := if layer.source = .lower then merge.addWhiteouts scan else merge
    let merge := scan.entries.foldl (DirectoryMerge.addEntry layer) merge
    .ok (if layer.source = .upper then merge.addWhiteouts scan else merge)

def hidesLayerAndBelow (layer : MergeLayer) (ancestry : LayerAncestry) : Bool :=
  layer.source = .lower && (ancestry.whitedOut || ancestry.linkUnderHigherEntry)

def hidesLayersBelow (layer : MergeLayer) (ancestry : LayerAncestry) : Bool :=
  ancestry.opaqueDir || ancestry.firstNonDirectory ≠ .none ||
    (layer.source = .upper && ancestry.whitedOut)

/-- `ForEachScannedLayer` with the scan of `MergeLayers` as its body: the merge,
and the ancestry of each layer that the walk reached. -/
def mergeLayersFrom (d : RelPath) (ancestryAt : Nat → MergeLayer → LayerAncestry) :
    Nat → List MergeLayer → DirectoryMerge →
      Except NtStatus DirectoryMerge × List LayerAncestry
  | _, [], merge => (.ok merge, [])
  | slot, layer :: rest, merge =>
    let ancestry := ancestryAt slot layer
    if hidesLayerAndBelow layer ancestry then (.ok merge, [ancestry])
    else
      match mergeLayerEntries layer d (whiteoutNamesIn ancestry) merge with
      | .error status => (.error status, [ancestry])
      | .ok merge =>
        if hidesLayersBelow layer ancestry then (.ok merge, [ancestry])
        else
          let (result, layers) := mergeLayersFrom d ancestryAt (slot + 1) rest merge
          (result, ancestry :: layers)

structure MergedDirectoryWithAncestry where
  merged : Except NtStatus (List (Name × MergedEntry))
  dirPath : RelPath
  layers : List LayerAncestry

def mergeLayers (c : LayerConfig) (d : RelPath) (slotLimit : Nat)
    (ancestryAt : Nat → MergeLayer → LayerAncestry) : MergedDirectoryWithAncestry :=
  let (merged, layers) :=
    mergeLayersFrom d ancestryAt 0 ((mergeLayersOf c).take slotLimit) {}
  ⟨merged.map DirectoryMerge.entries, d, layers⟩

def mergeDirectoryWithAncestry (c : LayerConfig) (d : RelPath) :
    MergedDirectoryWithAncestry :=
  if (!d.isEmpty && !isSafeRelativePath d) || isReservedOverlayPath c d then ⟨.ok [], d, []⟩
  else
    mergeLayers c d (c.lowers.length + 1) fun _ layer =>
      layerAncestryOf c layer.layer d layer.lowerIndex

/-- `MergeChildDirectory`: one more step of each layer's ancestry. -/
def mergeChildDirectory (c : LayerConfig) (parent : MergedDirectoryWithAncestry)
    (childName : Name) : MergedDirectoryWithAncestry :=
  let childPath := parent.dirPath ++ [childName]
  mergeLayers c childPath parent.layers.length fun slot layer =>
    stepLayerAncestry c layer.layer childPath layer.lowerIndex
      (parent.layers.getD slot ⟨false, false, .none, false, false⟩)

def mergeDirectoryAcrossLayers (c : LayerConfig) (d : RelPath) :
    Except NtStatus (List (Name × MergedEntry)) :=
  (mergeDirectoryWithAncestry c d).merged

end LayerMount
