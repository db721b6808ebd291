import LayerMount.Engine

/-!
# Writing markers

The write side of `WhiteoutManager.cpp`: whiteouts and opaque markers go into the
upper only, and never into a link's target.
-/

namespace LayerMount

open Lib

namespace WhiteoutManager

def markerDirectoryStatus (link : LinkInView) : Except NtStatus Unit :=
  match link.stop with
  | .link => .error .notADirectory
  | .unreadable => .error .accessDenied
  | .none => .ok ()

/-- `CreateHiddenMarkerFile`.  `CREATE_ALWAYS` replaces a file and refuses a
directory. -/
def createHiddenMarkerFile (p : RelPath) : Op Unit := do
  diskStep .writeWhiteout
  let e ← Op.get
  if !leadsToDirectory (e.upperAt p.dropLast) then Op.fail .objectPathNotFound
  else
    match e.upperAt p with
    | some (.node _ _) => Op.fail .accessDenied
    | some (.leaf .deadLink) => Op.fail .accessDenied
    | _ => Op.modify fun e => e.putUpper p (some (.leaf .marker))

/-- `CreateWhiteout`, for a file or a directory. -/
def createWhiteout (p : RelPath) : Op Unit := do
  let e ← Op.get
  Step.ofExcept (markerDirectoryStatus (findLinkInView e.config p.dropLast))
  ensureDirectoryExists p.dropLast
  createHiddenMarkerFile (getWhiteoutFileName p)
  invalidateWithAncestors p

/-- `DeleteFileW` of the whiteout of `p`. -/
def deleteWhiteoutFile (p : RelPath) : Op Unit := do
  diskStep .removeWhiteout
  let e ← Op.get
  if !leadsToDirectory (e.upperAt p.dropLast) then Op.fail .objectPathNotFound
  else
    match e.upperAt (getWhiteoutFileName p) with
    | none => pure ()
    | some (.node _ _) => Op.fail .accessDenied
    | some (.leaf .deadLink) => Op.fail .accessDenied
    | some (.leaf _) => Op.modify fun e => e.putUpper (getWhiteoutFileName p) none

def removeWhiteout (p : RelPath) : Op Unit := do
  let e ← Op.get
  match findLinkOnPath e.upperLayer p.dropLast with
  | .self => pure ()
  | .ancestor => pure ()
  | .unreadable => Op.fail .accessDenied
  | .none => do
    deleteWhiteoutFile p
    invalidateWithAncestors p

/-- The directory with both opaque markers. -/
def markOpaqueNode : Tree → Tree
  | .leaf v => .leaf v
  | .node d children =>
    match (PathTree.node d children : Tree).child kOpaqueMarkerFile with
    | none =>
      PathTree.setChild kOpaqueMarkerFile (some (.leaf .marker))
        (.node { d with opaqueStream := true } children)
    | some _ => .node { d with opaqueStream := true } children

/-- The directory without its opaque markers. -/
def unmarkOpaqueNode : Tree → Tree
  | .leaf v => .leaf v
  | .node d children =>
    match (PathTree.node d children : Tree).child kOpaqueMarkerFile with
    | some (.leaf _) =>
      PathTree.setChild kOpaqueMarkerFile none (.node { d with opaqueStream := false } children)
    | _ => .node { d with opaqueStream := false } children

/-- `WriteOpaqueMarkers`.  A file takes the stream, which no lookup reads. -/
def writeOpaqueMarkers (d : RelPath) : Op Unit := do
  diskStep .writeOpaqueMarkers
  let e ← Op.get
  match e.upperAt d with
  | none => Op.fail .objectPathNotFound
  | some t => Op.modify fun e => e.putUpper d (some (markOpaqueNode t))

/-- `SetOpaque` drops the directory's own cache keys only. -/
def setOpaque (d : RelPath) : Op Unit := do
  let e ← Op.get
  Step.ofExcept (markerDirectoryStatus (findLinkInView e.config d))
  ensureDirectoryExists d
  let status ← Op.attempt (writeOpaqueMarkers d)
  invalidate d
  Step.ofExcept status

def setOpaqueAtPath (d : RelPath) : Op Unit := do
  let e ← Op.get
  if isLinkPlace (e.upperAt d) then Op.fail .notADirectory else writeOpaqueMarkers d

/-- `RemoveOpaque`: whether no marker is left. -/
def removeOpaque (d : RelPath) : Op Bool := do
  let e ← Op.get
  match findLinkOnPath e.upperLayer d with
  | .ancestor => pure true
  | .unreadable => pure false
  | _ => do
    let removed ← Op.attempt (diskStep .removeOpaqueMarkers)
    match removed, e.upperAt d with
    | .ok _, some t => do
      Op.modify fun e => e.putUpper d (some (unmarkOpaqueNode t))
      invalidate d
      pure true
    | .ok _, none => do
      invalidate d
      pure true
    | .error _, _ => do
      invalidate d
      pure false

end WhiteoutManager

/-- `IsOpaque`. -/
def isOpaqueUpper (e : Engine) (d : RelPath) : Bool := isOpaqueInLayer e.upperLayer d

/-- `HasWhiteout` in the upper. -/
def hasUpperWhiteout (e : Engine) (p : RelPath) : Bool := hasWhiteout e.upperLayer p

end LayerMount
