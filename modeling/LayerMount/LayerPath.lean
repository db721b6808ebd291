import LayerMount.Layer

/-!
# Walks of a path in one layer

The read side of `LayerPath.cpp` and `WhiteoutManager.cpp`: where a walk from a
layer's root meets a file, a link or an unreadable entry, which markers count,
and what one layer says about a directory and its ancestors.

The functions below are the source's.  How each answer at `d\n` follows from the
answer at `d` is in `LayerMount.Ancestry`.
-/

namespace LayerMount

/-! ## Component kinds and walks -/

inductive EntryKind where
  | file
  | directory
  | link
  deriving DecidableEq, Repr

inductive ComponentKind where
  | missing
  | directory
  | file
  | link
  | unreadable
  deriving DecidableEq, Repr

inductive WalkStop where
  | none
  | file
  | link
  | unreadable
  deriving DecidableEq, Repr

inductive LinkStop where
  | none
  | link
  | unreadable
  deriving DecidableEq, Repr

inductive LinkOnPath where
  | none
  | self
  | ancestor
  | unreadable
  deriving DecidableEq, Repr

/-- `EntryKindOf`: a link is a directory reparse point whose tag is a name
surrogate.  `none` is a tag that cannot be read. -/
def LayerEntry.kind (e : LayerEntry) : Option EntryKind :=
  if !e.attributes.directory then some .file
  else if !e.attributes.reparsePoint then some .directory
  else
    match e.tag with
    | .unreadable => none
    | .nameSurrogate => some .link
    | .other => some .directory

def componentKindInLayer (l : Layer) (relativePath : RelPath) : ComponentKind :=
  match l.get relativePath with
  | .missing => .missing
  | .unreadable => .unreadable
  | .entry e =>
    match e.kind with
    | none => .unreadable
    | some .file => .file
    | some .link => .link
    | some .directory => .directory

/-- `WalkStopAt`. -/
def walkStopAt : ComponentKind → WalkStop
  | .file => .file
  | .link => .link
  | .unreadable => .unreadable
  | .missing => .none
  | .directory => .none

structure LayerWalk where
  stop : WalkStop
  component : RelPath
  deriving DecidableEq, Repr

/-- The loop of `WalkToFirstNonDirectory`, from the prefix already walked. -/
def walkFrom (l : Layer) (walked : RelPath) : RelPath → LayerWalk
  | [] => ⟨.none, []⟩
  | component :: rest =>
    match componentKindInLayer l (walked ++ [component]) with
    | .missing => ⟨.none, []⟩
    | .unreadable => ⟨.unreadable, walked ++ [component]⟩
    | .file => ⟨.file, walked ++ [component]⟩
    | .link => ⟨.link, walked ++ [component]⟩
    | .directory => walkFrom l (walked ++ [component]) rest

def walkToFirstNonDirectory (l : Layer) (dirRelativePath : RelPath) : LayerWalk :=
  walkFrom l [] dirRelativePath

/-- `HoldsEntryInLayer`: an unreadable entry counts as held. -/
def holdsEntryInLayer (l : Layer) (relativePath : RelPath) : Bool :=
  l.get relativePath ≠ .missing

def hasNonDirectoryOrLinkSelfOrAncestorInLayer (l : Layer) (d : RelPath) : Bool :=
  (walkToFirstNonDirectory l d).stop ≠ .none

def linkStopOf : WalkStop → LinkStop
  | .link => .link
  | .unreadable => .unreadable
  | .none => .none
  | .file => .none

def endsAtLinkOrUnreadable (stop : WalkStop) : Bool := linkStopOf stop ≠ .none

def findLinkOnPath (l : Layer) (d : RelPath) : LinkOnPath :=
  match linkStopOf (walkToFirstNonDirectory l d).stop with
  | .link => if (walkToFirstNonDirectory l d).component = d then .self else .ancestor
  | .unreadable => .unreadable
  | .none => .none

def higherLayerHoldsEntry (c : LayerConfig) (lowerIndex : Nat) (p : RelPath) : Bool :=
  holdsEntryInLayer c.upper p ||
    (c.lowers.take lowerIndex).any fun higher => holdsEntryInLayer higher p

/-- `HasLinkUnderHigherLayerEntry`, for the lower `l` at `lowerIndex`. -/
def hasLinkUnderHigherLayerEntry (c : LayerConfig) (l : Layer) (lowerIndex : Nat)
    (d : RelPath) : Bool :=
  (walkToFirstNonDirectory l d).stop = .link &&
    higherLayerHoldsEntry c lowerIndex (walkToFirstNonDirectory l d).component

/-! ## Markers -/

/-- `MarkerFileExists`. -/
def markerFileExists (l : Layer) (p : RelPath) : Bool := (l.get p).exists

def hasWhiteoutUnderWalkedDirectoryInLayer (l : Layer) (p : RelPath) : Bool :=
  markerFileExists l (getWhiteoutFileName p)

def hasWhiteout (l : Layer) (p : RelPath) : Bool :=
  hasWhiteoutUnderWalkedDirectoryInLayer l p && findLinkOnPath l p.dropLast = .none

/-- `HasOpaqueMetadata`: the stream of the entry, or a sidecar record. -/
def hasOpaqueMetadata (l : Layer) (d : RelPath) : Bool :=
  (match l.get d with
    | .entry e => e.opaqueStream
    | _ => false) || l.sidecarOpaque d

def holdsOpaqueMarker (l : Layer) (d : RelPath) : Bool :=
  hasOpaqueMetadata l d || markerFileExists l (d ++ [kOpaqueMarkerFile])

def isOpaqueInLayer (l : Layer) (d : RelPath) : Bool :=
  holdsOpaqueMarker l d && findLinkOnPath l d = .none

def isOpaqueWalkedDirectoryInLayer (l : Layer) (d : RelPath) : Bool :=
  holdsOpaqueMarker l d

/-- `AnyDirectoryUpToRoot`: the directory, then each ancestor, the root only when
`probeRoot` says so. -/
def anyDirectoryUpToRoot (probeRoot : Bool) (hasMarker : RelPath → Bool) (d : RelPath) :
    Bool :=
  d.inits.reverse.any fun dir => (probeRoot || !dir.isEmpty) && hasMarker dir

def hasOpaqueSelfOrAncestorInLayer (l : Layer) (d : RelPath) : Bool :=
  anyDirectoryUpToRoot true (isOpaqueInLayer l) d

def hasWhitedOutAncestorInLayer (l : Layer) (p : RelPath) : Bool :=
  anyDirectoryUpToRoot false (hasWhiteout l) p.dropLast

inductive LowerVisibility where
  | visible
  | hiddenByOpaqueMarker
  | hiddenByNonDirectoryOrLink
  deriving DecidableEq, Repr

def lowersBelow (l : Layer) (d : RelPath) : LowerVisibility :=
  if hasOpaqueSelfOrAncestorInLayer l d then .hiddenByOpaqueMarker
  else if hasNonDirectoryOrLinkSelfOrAncestorInLayer l d then .hiddenByNonDirectoryOrLink
  else .visible

/-! ## Ancestry of a directory in one layer -/

structure LayerAncestry where
  whitedOut : Bool
  opaqueDir : Bool
  firstNonDirectory : WalkStop
  linkUnderHigherEntry : Bool
  absent : Bool
  deriving DecidableEq, Repr

/-- `StepLayerAncestry`.  `lowerIndex` is `none` for the upper, which is the
source's index -1. -/
def stepLayerAncestry (c : LayerConfig) (l : Layer) (d : RelPath)
    (lowerIndex : Option Nat) (parent : LayerAncestry) : LayerAncestry :=
  if parent.absent then parent
  else if parent.firstNonDirectory ≠ .none then parent
  else
    let kind := componentKindInLayer l d
    { whitedOut := parent.whitedOut || hasWhiteoutUnderWalkedDirectoryInLayer l d
      opaqueDir := parent.opaqueDir ||
        (kind = .directory && isOpaqueWalkedDirectoryInLayer l d)
      absent := kind = .missing
      firstNonDirectory := walkStopAt kind
      linkUnderHigherEntry := kind = .link &&
        match lowerIndex with
        | none => false
        | some i => higherLayerHoldsEntry c i d }

/-- The loop of `LayerAncestryOf`, from the prefix already walked. -/
def layerAncestryFrom (c : LayerConfig) (l : Layer) (lowerIndex : Option Nat)
    (walked : RelPath) (ancestry : LayerAncestry) : RelPath → LayerAncestry
  | [] => ancestry
  | component :: rest =>
    layerAncestryFrom c l lowerIndex (walked ++ [component])
      (stepLayerAncestry c l (walked ++ [component]) lowerIndex ancestry) rest

/-- `LayerAncestryOf`: one step for each component, from the layer root. -/
def layerAncestryOf (c : LayerConfig) (l : Layer) (d : RelPath)
    (lowerIndex : Option Nat) : LayerAncestry :=
  layerAncestryFrom c l lowerIndex [] ⟨false, isOpaqueInLayer l [], .none, false, false⟩ d

/-! ## The first link on a path of the merged view -/

structure LinkInView where
  stop : LinkStop
  source : LayerSource
  path : RelPath
  deriving DecidableEq, Repr

/-- The loop of `FindLinkInView` over the lowers from index `i` on. -/
def findLinkInLowers (c : LayerConfig) (d : RelPath) : Nat → List Layer → LinkInView
  | _, [] => ⟨.none, .none, []⟩
  | i, l :: rest =>
    let lower := layerAncestryOf c l d (some i)
    let walk := walkToFirstNonDirectory l d
    if lower.whitedOut || lower.linkUnderHigherEntry then ⟨.none, .none, []⟩
    else if endsAtLinkOrUnreadable walk.stop then
      ⟨linkStopOf walk.stop, .lower, walk.component⟩
    else if lower.opaqueDir || walk.stop = .file then ⟨.none, .none, []⟩
    else findLinkInLowers c d (i + 1) rest

def findLinkInView (c : LayerConfig) (d : RelPath) : LinkInView :=
  let upperWalk := walkToFirstNonDirectory c.upper d
  if endsAtLinkOrUnreadable upperWalk.stop then
    ⟨linkStopOf upperWalk.stop, .upper, upperWalk.component⟩
  else if upperWalk.stop = .file then ⟨.none, .none, []⟩
  else if !c.lowers.any fun l => endsAtLinkOrUnreadable (walkToFirstNonDirectory l d).stop
    then ⟨.none, .none, []⟩
  else
    let upper := layerAncestryOf c c.upper d none
    if upper.whitedOut || upper.opaqueDir then ⟨.none, .none, []⟩
    else findLinkInLowers c d 0 c.lowers

def isInLinkTarget (c : LayerConfig) (d : RelPath) : Bool :=
  (findLinkInView c d).stop ≠ .none

def isReservedOverlayPath (c : LayerConfig) (normalized : RelPath) : Bool :=
  if isRootSidecarPath normalized then true
  else
    match parentOfFirstMarkerSegment normalized with
    | none => false
    | some markerParent => markerParent.isEmpty || !isInLinkTarget c markerParent

end LayerMount
