import LayerMount.Delete

/-!
# Rename

The checks of `LayerMount.cpp`, the link boundary of `RenameLinkBoundary.cpp`, the
routes of `FileRename.cpp` and `DirectoryRename.cpp`, and the undo steps of
`RenameRollback.cpp` and `RenameDestinationAside`.

A destination set aside is held as a value: it is in the work directory, or under
a name of its own next to the destination, until the rename commits or puts it
back.
-/

namespace LayerMount

open Lib

namespace Rename

/-! ## Checks -/

structure RenameLinks where
  sourceInLinkTarget : Bool := false
  destinationInLinkTarget : Bool := false
  lowerLinkToCopyUp : Option RelPath := none
  deriving DecidableEq, Repr

/-- `ShownParentTarget`: whether the parent of `p` leads to a directory. -/
def shownParentLeadsToDirectory (p : RelPath) : Op Bool := do
  if p.dropLast.isEmpty then pure true
  else do
    let shown ← lookup p.dropLast
    let e ← Op.get
    pure (CopyUp.shownLeadsToDirectory e shown)

def checkRenameLinkBoundary (oldNorm newNorm : RelPath) : Op RenameLinks := do
  let e ← Op.get
  let source := CopyUp.findLinkAbove e.config oldNorm
  let destination := CopyUp.findLinkAbove e.config newNorm
  if source.stop = .unreadable || destination.stop = .unreadable then Op.fail .accessDenied
  else do
    let links : RenameLinks :=
      { sourceInLinkTarget := source.stop = .link
        destinationInLinkTarget := destination.stop = .link }
    let sameLink := source.stop = destination.stop && source.path = destination.path
    let withinLowerLink := sameLink && source.stop = .link && source.source = .lower
    if sameLink && !withinLowerLink then pure links
    else do
      if !(← shownParentLeadsToDirectory newNorm) then pure links
      else if !sameLink then Op.fail .notSameDevice
      else pure { links with lowerLinkToCopyUp := some source.path }

/-- `CheckRenameRequest`. -/
def checkRenameRequest (oldNorm newNorm : RelPath) : Op Unit := do
  let e ← Op.get
  if !parsesAsHostPath oldNorm || !parsesAsHostPath newNorm then Op.fail .objectNameInvalid
  else if isReservedOverlayPath e.config oldNorm || isReservedOverlayPath e.config newNorm then
    Op.fail .accessDenied
  else pure ()

structure RenameKinds where
  source : EntryKind
  destination : Option EntryKind := none
  deriving DecidableEq, Repr

/-- `UnderItselfStatus`, for the entry `source`. -/
def underItselfStatus (sourceKind : EntryKind) (source : Place) : NtStatus :=
  match sourceKind with
  | .directory => .invalidParameter
  | .file => .objectPathNotFound
  | .link => if leadsToDirectory source then .notSameDevice else .objectPathNotFound

/-- `CheckRenameDestination`: the kind of what the rename replaces. -/
def checkRenameDestination (oldNorm newNorm : RelPath) (source : Place)
    (sourceKind : EntryKind) (replaceIfExists : Bool) : Op (Option EntryKind) := do
  let underItself := isInsideDirectory newNorm oldNorm
  if underItself && sourceKind = .link then Op.fail (underItselfStatus sourceKind source)
  else do
    let destResolved ← lookup newNorm
    let e ← Op.get
    if destResolved.found && !replaceIfExists then Op.fail .objectNameCollision
    else if underItself then Op.fail (underItselfStatus sourceKind source)
    else if !destResolved.found then pure none
    else if isInsideDirectory oldNorm newNorm then Op.fail .directoryNotEmpty
    else
      let destinationKind := resolvedKind e destResolved
      if sourceKind = .directory && destinationKind ≠ .directory then Op.fail .notADirectory
      else if sourceKind ≠ .directory && destinationKind = .directory then
        Op.fail .fileIsADirectory
      else if sourceKind = .directory then do
        Step.ofExcept (directoryEmptinessStatus e newNorm)
        pure (some destinationKind)
      else pure (some destinationKind)

structure CheckedRename where
  kinds : RenameKinds
  links : RenameLinks
  deriving DecidableEq, Repr

def checkRename (oldNorm newNorm : RelPath) (replaceIfExists : Bool) : Op CheckedRename := do
  checkRenameRequest oldNorm newNorm
  let sourceResolved ← lookup oldNorm
  if !sourceResolved.found then Op.fail .objectNameNotFound
  else do
    let links ← checkRenameLinkBoundary oldNorm newNorm
    let e ← Op.get
    let sourceKind := resolvedKind e sourceResolved
    if oldNorm ≠ newNorm then do
      let destination ← checkRenameDestination oldNorm newNorm (e.resolvedAt sourceResolved)
        sourceKind replaceIfExists
      pure ⟨⟨sourceKind, destination⟩, links⟩
    else pure ⟨⟨sourceKind, none⟩, links⟩

inductive FileRenameReplace where
  | no
  | inPlace
  | afterAside
  deriving DecidableEq, Repr

/-- `CheckedRename::FileReplace`. -/
def CheckedRename.fileReplace (checked : CheckedRename) (replaceIfExists : Bool) :
    FileRenameReplace :=
  if !replaceIfExists then .no
  else if checked.links.destinationInLinkTarget && checked.kinds.source = .file &&
      checked.kinds.destination = some .file then .inPlace
  else .afterAside

/-! ## Undo -/

/-- `UpperRename`.  `removeOpaqueMarker` is `UndoOpaqueMarker::Remove`. -/
structure UpperRename where
  oldNorm : RelPath
  newNorm : RelPath
  removeOpaqueMarker : Bool
  deriving DecidableEq, Repr

/-- The result of the steps that move the source. -/
structure MovedSource where
  status : Except NtStatus Unit
  stagedShell : Bool := false
  newNameOccupied : Bool := false

def noteUndoFailure : Op Unit := Op.modify fun e => { e with undoFailed := true }

/-- `MoveBack`. -/
def moveBack (rename : UpperRename) : Op (Except NtStatus Unit) := do
  let back ← Op.attempt (moveUpperEntry rename.newNorm rename.oldNorm false)
  match back with
  | .ok _ =>
    if rename.removeOpaqueMarker then do
      if !(← WhiteoutManager.removeOpaque rename.oldNorm) then noteUndoFailure else pure ()
    else pure ()
  | .error _ => noteUndoFailure
  invalidateWithAncestors rename.oldNorm
  invalidateWithAncestors rename.newNorm
  pure back

/-- `WhiteOutSource`. -/
def whiteOutSource (rename : UpperRename) (stagedShell : Bool) : Op MovedSource := do
  match ← Op.attempt (WhiteoutManager.createWhiteout rename.oldNorm) with
  | .ok _ => pure { status := .ok (), stagedShell }
  | .error status => do
    match ← moveBack rename with
    | .ok _ => pure { status := .error status, stagedShell }
    | .error _ => do
      let _ ← Op.attempt (WhiteoutManager.removeWhiteout rename.newNorm)
      pure { status := .error status, stagedShell, newNameOccupied := true }

/-- `RemoveDestinationWhiteoutOrUndo`: the failure, and whether the new name stays
occupied. -/
def removeDestinationWhiteoutOrUndo (rename : UpperRename) :
    Op (Option (NtStatus × Bool)) := do
  match ← Op.attempt (WhiteoutManager.removeWhiteout rename.newNorm) with
  | .ok _ => pure none
  | .error status => do
    match ← moveBack rename with
    | .error _ => pure (some (status, true))
    | .ok _ => do
      match ← Op.attempt (WhiteoutManager.removeWhiteout rename.oldNorm) with
      | .ok _ => pure ()
      | .error _ => noteUndoFailure
      pure (some (status, false))

/-- `RenameDestinationAside`, as it is held. -/
abbrev HeldAside := Option Tree

def checkDestinationReplaceable (newNorm : RelPath) (destinationKind : EntryKind) :
    Op Unit := do
  let e ← Op.get
  if destinationKind ≠ .file then pure ()
  else
    match fileOf (e.upperAt newNorm) with
    | some id => if (fileAt e.files id).attributes.readOnly then Op.fail .accessDenied else pure ()
    | none => pure ()

/-- `SetRenameDestinationAside`. -/
def setRenameDestinationAside (newNorm : RelPath) (destinationKind : EntryKind) :
    Op HeldAside := do
  checkDestinationReplaceable newNorm destinationKind
  match ← moveUpperEntryAside newNorm with
  | none => pure none
  | some held => do
    invalidateWithAncestors newNorm
    pure (some held)

/-- The destructor of `RenameDestinationAside`: the destination comes back unless
its name is taken. -/
def putBackAside (newNorm : RelPath) : HeldAside → Op Unit
  | none => pure ()
  | some held => do
    let e ← Op.get
    if (e.upperAt newNorm).isSome then pure ()
    else
      match ← Op.attempt (placeEntry newNorm held) with
      | .ok _ => pure ()
      | .error _ => noteUndoFailure
    invalidateWithAncestors newNorm

/-! ## Moving a file -/

inductive RenameCopyUp where
  | fullCopy
  | shellWhenPossible
  deriving DecidableEq, Repr

/-- `FileRename::MoveToUpper`. -/
def moveToUpper (oldNorm newNorm : RelPath) (replace : FileRenameReplace)
    (copyUpMode : RenameCopyUp) : Op Bool := do
  CopyUp.ensureUpperParent newNorm
  let stagedShell ←
    if ← existsInUpper oldNorm then pure false
    else
      match copyUpMode with
      | .fullCopy => do
        CopyUp.copyUpFile oldNorm
        pure false
      | .shellWhenPossible => do
        let copied ← CopyUp.copyUpFileOrShell oldNorm none
        pure copied.stagedShell
  match replace with
  | .inPlace => moveUpperEntryLeavingStuckRecords oldNorm newNorm true
  | .no => moveUpperEntry oldNorm newNorm false
  | .afterAside => moveUpperEntry oldNorm newNorm true
  pure stagedShell

/-- `RenameFileEntry`.  The whiteout of the source does not ask whether the old and
the new name differ. -/
def renameFileEntry (oldNorm newNorm : RelPath) (replace : FileRenameReplace)
    (copyUpMode : RenameCopyUp) : Op MovedSource := do
  let e ← Op.get
  let lowerHoldsSource := (resolveLowerPath e.config oldNorm).found
  match ← Op.attempt (moveToUpper oldNorm newNorm replace copyUpMode) with
  | .error status => pure { status := .error status }
  | .ok stagedShell =>
    if !lowerHoldsSource then pure { status := .ok (), stagedShell }
    else whiteOutSource ⟨oldNorm, newNorm, false⟩ stagedShell

/-! ## Moving a directory or a link -/

inductive DirectoryRenameRoute where
  | moveUpper
  | mergeLower
  | moveUpperAndWhiteout
  deriving DecidableEq, Repr

def directoryRenameRouteOf (e : Engine) (oldNorm : RelPath) (sourceKind : EntryKind) :
    DirectoryRenameRoute :=
  let lower := resolveLowerPath e.config oldNorm
  if !lower.found then .moveUpper
  else if !(e.upperAt oldNorm).isSome then .mergeLower
  else if sourceKind ≠ .directory || isOpaqueUpper e oldNorm then .moveUpperAndWhiteout
  else if resolvedKind e lower = .directory then .mergeLower
  else .moveUpperAndWhiteout

def destinationExistsInMerged (e : Engine) (p : RelPath) : Bool :=
  (e.upperAt p).isSome || ((resolveLowerPath e.config p).found && !hasUpperWhiteout e p)

/-- `PrepareRenameDestination`. -/
def prepareRenameDestination (newNorm : RelPath) (replace : Bool) : Op Unit := do
  let e ← Op.get
  if !replace && destinationExistsInMerged e newNorm then Op.fail .objectNameCollision
  else CopyUp.ensureUpperParent newNorm

/-- The file object of a copied or cloned file.  An upper file keeps its copy-up
record, a lower file gets a new one. -/
def copiedFile (source : LayerSource) (sparseFiles : Bool) (f : FileObj) : FileObj :=
  let record := if source = .upper then f.metacopy else none
  if f.attributes.reparsePoint then CopyUp.clonedFile record f
  else
    { f with
      attributes := { f.attributes with sparse := f.attributes.sparse && sparseFiles }
      metacopy := record }

def mergedEntryAt (e : Engine) (entry : MergedEntry) (p : RelPath) : Place :=
  match entry.source, entry.lowerIndex with
  | .upper, _ => e.upperAt p
  | .lower, some i => e.lowerAt i p
  | _, _ => none

/-- `CopyMergedEntry`, with the copy of a directory's children given. -/
def copyMergedEntryWith
    (copyChildren : MergedDirectoryWithAncestry → Op (List (Name × Tree)))
    (oldParent : MergedDirectoryWithAncestry) (name : Name) (entry : MergedEntry) :
    Op Tree := do
  let e ← Op.get
  match mergedEntryAt e entry (oldParent.dirPath ++ [name]) with
  | none => Op.fail .objectNameNotFound
  | some (.leaf (.file id)) => do
    let staged ← newFile (copiedFile entry.source e.host.sparseFiles (fileAt e.files id))
    pure (.leaf (.file staged))
  | some (.leaf v) => pure (.leaf v)
  | some (.node d subtree) =>
    if d.link then pure (CopyUp.clonedLink (.node d subtree))
    else do
      let children ← copyChildren (mergeChildDirectory e.config oldParent name)
      pure (.node { readOnly := d.readOnly } children)

/-- The loop of `CopyMergedChildren`. -/
def copyMergedEntriesWith
    (copyChildren : MergedDirectoryWithAncestry → Op (List (Name × Tree)))
    (oldDir : MergedDirectoryWithAncestry) :
    List (Name × MergedEntry) → Op (List (Name × Tree))
  | [] => pure []
  | (name, entry) :: rest => do
    let copied ← copyMergedEntryWith copyChildren oldDir name entry
    let others ← copyMergedEntriesWith copyChildren oldDir rest
    pure ((name, copied) :: others)

/-- `CopyMergedChildren`: the children of a staged directory, one for each merged
entry.  The first argument counts the levels below. -/
def copyMergedChildren : Nat → MergedDirectoryWithAncestry → Op (List (Name × Tree))
  | 0, _ => Op.fail .unsuccessful
  | depth + 1, oldDir => do
    let entries ← Step.ofExcept oldDir.merged
    copyMergedEntriesWith (copyMergedChildren depth) oldDir entries

/-- More levels than any layer has. -/
def mergeDepth (e : Engine) : Nat :=
  ((e.upper :: e.lowers).map fun o => (o.map PathTree.height).getD 0).foldr max 0 + 1

/-- What `CopyMergedDirectory` builds: the merged tree at `oldNorm`, opaque. -/
def buildMergedDirectory (oldNorm : RelPath) (lowerSource : ResolvedPath) : Op Tree := do
  let e ← Op.get
  let viewSource :=
    match e.upperAt oldNorm with
    | some (.node d _) => d
    | _ =>
      match e.resolvedAt lowerSource with
      | some (.node d _) => d
      | _ => {}
  let children ← copyMergedChildren (mergeDepth e) (mergeDirectoryWithAncestry e.config oldNorm)
  diskStep .writeOpaqueMarkers
  pure (WhiteoutManager.markOpaqueNode (.node { readOnly := viewSource.readOnly } children))

/-- `CopyMergedDirectory`. -/
def copyMergedDirectory (oldNorm : RelPath) (lowerSource : ResolvedPath) : Op Tree := do
  stageEntry (.node {} [])
  removingStagedOnFailure (buildMergedDirectory oldNorm lowerSource)

/-- `RenameLowerDirectory`. -/
def renameLowerDirectory (oldNorm newNorm : RelPath) (sourceKind : EntryKind)
    (replace : Bool) : Op MovedSource := do
  let e ← Op.get
  let source := resolveLowerPath e.config oldNorm
  let built ← Op.attempt do
    match e.resolvedAt source with
    | none => Op.fail .objectNameNotFound
    | some t => do
      prepareRenameDestination newNorm replace
      if sourceKind = .link then CopyUp.cloneThroughWorkDir t newNorm
      else do
        let staged ← copyMergedDirectory oldNorm source
        commitStaged newNorm staged
  match built with
  | .error status => pure { status := .error status }
  | .ok _ => do
    let aside ← Op.attempt (moveUpperEntryAside oldNorm)
    let occupied ←
      match aside with
      | .ok _ => pure false
      | .error _ => do
        match ← Op.attempt (removeUpperEntry newNorm) with
        | .ok _ => pure false
        | .error _ => do
          noteUndoFailure
          pure true
    invalidateWithAncestors oldNorm
    invalidateWithAncestors newNorm
    pure { status := aside.map fun _ => (), newNameOccupied := occupied }

/-- `RenameUpperDirectory`. -/
def renameUpperDirectory (oldNorm newNorm : RelPath) (sourceKind : EntryKind)
    (replace : Bool) : Op Unit := do
  prepareRenameDestination newNorm replace
  let e ← Op.get
  let marksSource := sourceKind ≠ .link && !isOpaqueUpper e oldNorm &&
    (resolveLowerPath e.config newNorm).found
  if marksSource then WhiteoutManager.setOpaqueAtPath oldNorm else pure ()
  match ← Op.attempt (moveUpperEntry oldNorm newNorm replace) with
  | .error status => do
    if marksSource then invalidateWithAncestors oldNorm else pure ()
    Op.fail status
  | .ok _ => do
    invalidateWithAncestors oldNorm
    invalidateWithAncestors newNorm

/-- `RenameDirectoryEntry`. -/
def renameDirectoryEntry (rename : UpperRename) (sourceKind : EntryKind)
    (route : DirectoryRenameRoute) (replace : Bool) : Op MovedSource := do
  let moved ←
    if route = .mergeLower then
      renameLowerDirectory rename.oldNorm rename.newNorm sourceKind replace
    else do
      let status ← Op.attempt
        (renameUpperDirectory rename.oldNorm rename.newNorm sourceKind replace)
      pure { status }
  match moved.status with
  | .error _ => pure moved
  | .ok _ => if route = .moveUpper then pure moved else whiteOutSource rename false

/-- `MoveRenameSource`, and the rename that its undo reads. -/
def moveRenameSource (oldNorm newNorm : RelPath) (replaceIfExists : Bool)
    (fileReplace : FileRenameReplace) (sourceKind : EntryKind) (route : DirectoryRenameRoute)
    (copyUpMode : RenameCopyUp) : Op (MovedSource × UpperRename) := do
  let e ← Op.get
  if sourceKind = .file then do
    let moved ← renameFileEntry oldNorm newNorm fileReplace copyUpMode
    pure (moved, ⟨oldNorm, newNorm, false⟩)
  else
    let isCaseRename := oldNorm = newNorm
    let mayMarkSource := !isCaseRename && sourceKind = .directory && route ≠ .mergeLower &&
      !isOpaqueUpper e oldNorm
    let rename : UpperRename := ⟨oldNorm, newNorm, mayMarkSource⟩
    if isCaseRename then do
      let status ← Op.attempt (CopyUp.renameDirectoryCase oldNorm sourceKind)
      pure ({ status }, rename)
    else do
      let moved ← renameDirectoryEntry rename sourceKind route replaceIfExists
      pure (moved, rename)

/-! ## The whole rename -/

structure RenameResult where
  stagedShell : Bool
  sourceInLinkTarget : Bool
  deriving DecidableEq, Repr

/-- The steps of `RenameCheckedEntry` after the destination is aside. -/
def moveAndFinish (oldNorm newNorm : RelPath) (replaceIfExists : Bool)
    (checked : CheckedRename) (route : DirectoryRenameRoute) (copyUpMode : RenameCopyUp)
    (held : HeldAside) : Op RenameResult := do
  let e ← Op.get
  let destHadWhiteout := hasUpperWhiteout e newNorm
  let (moved, rename) ← moveRenameSource oldNorm newNorm replaceIfExists
    (checked.fileReplace replaceIfExists) checked.kinds.source route copyUpMode
  match moved.status with
  | .error status => do
    if moved.newNameOccupied then pure () else putBackAside newNorm held
    Op.fail status
  | .ok _ => do
    let removal ← if destHadWhiteout then removeDestinationWhiteoutOrUndo rename else pure none
    match removal with
    | some (status, newNameOccupied) => do
      if newNameOccupied then pure () else putBackAside newNorm held
      Op.fail status
    | none => do
      invalidateWithAncestors oldNorm
      invalidateWithAncestors newNorm
      pure ⟨moved.stagedShell, checked.links.sourceInLinkTarget⟩

/-- `CopyUpRenameLink`. -/
def copyUpRenameLink (links : RenameLinks) : Op Unit :=
  match links.lowerLinkToCopyUp with
  | none => pure ()
  | some link => CopyUp.copyUpDirectory link

/-- `RenameCheckedEntry`. -/
def renameCheckedEntry (oldNorm newNorm : RelPath) (replaceIfExists : Bool)
    (checked : CheckedRename) (copyUpMode : RenameCopyUp) : Op RenameResult := do
  copyUpRenameLink checked.links
  let e ← Op.get
  let route :=
    if checked.kinds.source ≠ .file && oldNorm ≠ newNorm then
      directoryRenameRouteOf e oldNorm checked.kinds.source
    else .moveUpper
  let held ←
    match checked.fileReplace replaceIfExists, checked.kinds.destination with
    | .inPlace, some kind => do
      checkDestinationReplaceable newNorm kind
      pure none
    | .inPlace, none => pure none
    | .afterAside, some kind => setRenameDestinationAside newNorm kind
    | _, _ => pure none
  moveAndFinish oldNorm newNorm replaceIfExists checked route copyUpMode held

/-- `RenameViewPaths`. -/
def renameViewPaths [HostCase] (oldPath newPath : CallerPath) (replaceIfExists : Bool) :
    Op Unit := do
  let checked ← checkRename oldPath.norm newPath.norm replaceIfExists
  if oldPath = newPath then pure ()
  else do
    let _ ← renameCheckedEntry oldPath.norm newPath.norm replaceIfExists checked
      .shellWhenPossible
    pure ()

/-- `Rename` of a path. -/
def renamePath [HostCase] (oldPath newPath : CallerPath) (replaceIfExists : Bool) : Op Unit := do
  let oldView ← walkCallerPath oldPath .keep
  let newView ← walkCallerPath newPath .keep
  renameViewPaths oldView newView replaceIfExists

end Rename

end LayerMount
