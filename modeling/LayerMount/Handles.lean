import LayerMount.Rename

/-!
# Contexts and the calls of the engine

The operations of `LayerMount.cpp` that open, use and close a `FileContext`, the
ones that take a path, and `Call`, one call of the engine with its arguments.

A context is named by its place in `Engine.contexts`.  Streams, process rules,
security descriptors and times have no part in the layers or in the data, so a
request carries only what changes one of these.
-/

namespace LayerMount

open Lib

namespace Context

/-! ## Host handles -/

def get (h : Nat) : Op FileContext := do
  let e ← Op.get
  match e.contexts.getD h none with
  | some ctx => pure ctx
  | none => Op.fail .invalidHandle

def modify (h : Nat) (f : FileContext → FileContext) : Op Unit :=
  Op.modify fun e => { e with contexts := e.contexts.modify h (Option.map f) }

def placeOf (e : Engine) : ActualPath → Place
  | .upper p => e.upperAt p
  | .lower i p => e.lowerAt i p

def hostHandleOn : Tree → HostHandle
  | .leaf (.file id) => .file id
  | _ => .other

/-- `CloseContextHandle`. -/
def closeHandle (h : Nat) : Op Unit := modify h fun ctx => { ctx with handle := none }

/-- `OpenContextHandleWithAccess`: opens the context's path, whatever is there. -/
def openHandle (h : Nat) : Op Unit := do
  closeHandle h
  let ctx ← get h
  let e ← Op.get
  match placeOf e ctx.actualPath with
  | none => Op.fail .objectNameNotFound
  | some t => modify h fun ctx =>
      { ctx with handle := some (hostHandleOn t), handleNeedsReopen := false }

/-- `ReopenContextHandle`. -/
def reopenHandle (h : Nat) : Op Unit := openHandle h

def ensureHandleReady (h : Nat) : Op Unit := do
  let ctx ← get h
  if !ctx.handleNeedsReopen && ctx.handle.isSome then pure () else reopenHandle h

/-! ## Shells -/

def fillShell (p : RelPath) (h : Nat) : Op Unit := do
  CopyUp.completeLazyCopyUp p
  modify h fun ctx => { ctx with isMetacopyOnly := false }

/-- The metacopy flag of the upper entry at `p`. -/
def isShellAt (e : Engine) (p : RelPath) : Bool :=
  match fileOf (e.upperAt p) with
  | some id => (fileAt e.files id).metacopy.isSome
  | none => false

def readMetacopyFlag (p : RelPath) (h : Nat) : Op Unit := do
  let e ← Op.get
  modify h fun ctx => { ctx with isMetacopyOnly := isShellAt e p }

def fillShellForDataAccess (p : RelPath) (h : Nat) : Op Unit := do
  let ctx ← get h
  if ctx.isMetacopyOnly && !ctx.isDirectory && hasFileDataAccess ctx.grantedAccess then
    fillShell p h
  else pure ()

def ensureMetacopyMaterialized (h : Nat) : Op Unit := do
  let ctx ← get h
  if !ctx.isMetacopyOnly then pure ()
  else do
    fillShell ctx.relativePath h
    reopenHandle h

def kShellOnlyAboveBytes : Nat := 1024 * 1024

/-- `CopyUpForHandle`. -/
def copyUpForHandle (p : RelPath) (h : Nat) (shellOnlyAboveBytes : Option Nat) : Op Unit := do
  let ctx ← get h
  if ctx.isDirectory then CopyUp.copyUpDirectory p
  else do
    let copied ← CopyUp.copyUpFileOrShell p shellOnlyAboveBytes
    if copied.stagedShell then modify h fun ctx => { ctx with isMetacopyOnly := true }
    else pure ()

/-- `EnsureInUpperLayer` of a context.  A valid, current handle of a writable
context is on the upper. -/
def ensureInUpperLayer (h : Nat) : Op Unit := do
  let ctx ← get h
  if ctx.writable && ctx.handle.isSome && !ctx.handleNeedsReopen then pure ()
  else
    let p := ctx.relativePath
    if ← existsInUpper p then
      if ctx.actualPath = .upper p then pure ()
      else do
        readMetacopyFlag p h
        fillShellForDataAccess p h
        modify h fun ctx => { ctx with actualPath := .upper p, writable := true }
        reopenHandle h
    else do
      copyUpForHandle p h none
      fillShellForDataAccess p h
      modify h fun ctx => { ctx with actualPath := .upper p, writable := true }
      reopenHandle h

/-! ## Open, create and close -/

/-- Runs the rest of an open on a new context, which goes when the open fails. -/
def withNew (ctx : FileContext) (rest : Nat → Op Unit) : Op Nat := do
  let e ← Op.get
  let h := e.contexts.length
  Op.modify fun e => { e with contexts := e.contexts ++ [some ctx] }
  match ← Op.attempt (rest h) with
  | .ok _ => pure h
  | .error status => do
    Op.modify fun e => { e with contexts := e.contexts.set h none }
    Op.fail status

/-- The host path of what a lookup found. -/
def actualPathOf (p : RelPath) (r : ResolvedPath) : ActualPath :=
  match r.source, r.lowerIndex with
  | .lower, some i => .lower i p
  | _, _ => .upper p

/-- `SetOpenPath`. -/
def setOpenPath (p : RelPath) (resolved : ResolvedPath) (h : Nat) : Op Unit := do
  let ctx ← get h
  if resolved.source = .lower && hasWriteAccess ctx.grantedAccess then do
    copyUpForHandle p h (some kShellOnlyAboveBytes)
    modify h fun ctx => { ctx with actualPath := .upper p, writable := true }
  else
    modify h fun ctx =>
      { ctx with actualPath := actualPathOf p resolved, writable := resolved.source = .upper }

def openPath [HostCase] (path : CallerPath) (access : Access) (finalLink : FinalLink) : Op Nat := do
  let view ← walkCallerPath path finalLink
  let p := view.norm
  if p.isEmpty then
    withNew { actualPath := .upper [], relativePath := [], isDirectory := true, writable := true
              grantedAccess := access } openHandle
  else if !parsesAsHostPath p then Op.fail .objectNameInvalid
  else do
    let resolved ← lookup p
    if !resolved.found then Op.fail .objectNameNotFound
    else
      withNew { actualPath := actualPathOf p resolved, relativePath := p
                isDirectory := resolved.isDirectory, grantedAccess := access } fun h => do
        setOpenPath p resolved h
        if resolved.source = .upper then readMetacopyFlag p h else pure ()
        fillShellForDataAccess p h
        openHandle h

structure CreateRequest where
  path : CallerPath
  access : Access := {}
  directory : Bool := false
  readOnly : Bool := false
  followLink : Bool := true
  allocationSize : Nat := 0
  deriving DecidableEq, Repr

structure CreateResolution where
  overlayHit : ResolvedPath
  lower : ResolvedPath
  whiteoutAtPath : Bool

/-- `ResolveForCreate`.  A lookup that walks the lowers hands its walk over; one that the
cache or the upper answers does not, and then the lowers are looked up alone. -/
def resolveForCreate (p : RelPath) : Op CreateResolution := do
  let e ← Op.get
  let lowerWalk := (resolvePathInternal e.config (kMaxRedirectDepth + 1) p e.cache).2.1
  let overlayHit ← lookup p
  pure ⟨overlayHit, lowerWalk.getD (resolveLowerPath e.config p), hasUpperWhiteout e p⟩

def checkCreatePreconditions (p : RelPath) : Op CreateResolution := do
  let e ← Op.get
  if isReservedOverlayPath e.config p then Op.fail .accessDenied
  else do
    let resolution ← resolveForCreate p
    if resolution.overlayHit.found then Op.fail .objectNameCollision else pure resolution

/-- `WriteSecurityToNewObject`, of which only the failure matters here. -/
def writeSecurityToNewObject : Op Unit := diskStep .writeSecurity

/-- `ResolveContextMaximumAllowed`, which reads the access of the handle. -/
def resolveContextMaximumAllowed : Op Unit := diskStep .queryAccess

/-- `ApplyNewHostFileSettings`.  An allocation leaves the end of file at 0. -/
def applyNewHostFileSettings (allocationSize : Nat) : Op Unit := do
  writeSecurityToNewObject
  if 0 < allocationSize then diskStep .setAllocation else pure ()

/-- `FinishCreatedEntry`. -/
def finishCreatedEntry (p : RelPath) (resolution : CreateResolution) : Op Unit := do
  diskStep .queryInfo
  if resolution.whiteoutAtPath then WhiteoutManager.removeWhiteout p else pure ()

/-- Runs the rest of a create, and on a failure the undo. -/
def withRollback (undo : Op Unit) (rest : Op Unit) : Op Unit := do
  match ← Op.attempt rest with
  | .ok _ => pure ()
  | .error status => do
    undo
    Op.fail status

/-- `RemoveDirectoryW` of the new directory, which must be empty. -/
def removeNewDirectory (p : RelPath) : Op Unit := do
  let e ← Op.get
  match e.upperAt p with
  | some (.node _ []) => Op.modify fun e => e.putUpper p none
  | _ => Op.modify fun e => { e with undoFailed := true }

/-- `IsDirectoryHit` of what the lowers hold. -/
def CreateResolution.overDirectory (resolution : CreateResolution) : Bool :=
  resolution.lower.found && resolution.lower.isDirectory

/-- `DirectoryRollback`. -/
def undoCreatedDirectory (p : RelPath) (resolution : CreateResolution) : Op Unit := do
  if resolution.overDirectory then do
    let _ ← WhiteoutManager.removeOpaque p
    removeNewDirectory p
  else removeNewDirectory p

/-- A directory over one that a lower holds is opaque. -/
def markCreatedDirectory (p : RelPath) (resolution : CreateResolution) : Op Unit :=
  if resolution.overDirectory then WhiteoutManager.setOpaque p else pure ()

/-- The steps of `CreateDirectoryInUpper` after `CreateDirectoryW`. -/
def finishCreatedDirectory (p : RelPath) (resolution : CreateResolution) (h : Nat) :
    Op Unit := do
  markCreatedDirectory p resolution
  writeSecurityToNewObject
  diskStep .openEntry
  openHandle h
  resolveContextMaximumAllowed
  finishCreatedEntry p resolution

def createDirectoryInUpper (p : RelPath) (resolution : CreateResolution) (h : Nat) :
    Op Unit := do
  diskStep .createEntry
  placeEntry p (.node {} [])
  withRollback (undoCreatedDirectory p resolution) (finishCreatedDirectory p resolution h)

/-- The steps of `CreateFileInUpper` after `CREATE_NEW`, which also opens the file. -/
def finishCreatedFile (p : RelPath) (request : CreateRequest) (resolution : CreateResolution)
    (h : Nat) : Op Unit := do
  openHandle h
  resolveContextMaximumAllowed
  applyNewHostFileSettings request.allocationSize
  finishCreatedEntry p resolution

def createFileInUpper (p : RelPath) (request : CreateRequest) (resolution : CreateResolution)
    (h : Nat) : Op Unit := do
  diskStep .createEntry
  let id ← newFile { attributes := { readOnly := request.readOnly, archive := true } }
  placeEntry p (.leaf (.file id))
  withRollback (Op.modify fun e => e.putUpper p none) (finishCreatedFile p request resolution h)

def createPath [HostCase] (request : CreateRequest) : Op Nat := do
  let view ← walkCallerPath request.path (if request.followLink then .follow else .keep)
  let p := view.norm
  if !parsesAsHostPath p then Op.fail .objectNameInvalid
  else do
    let resolution ← checkCreatePreconditions p
    CopyUp.ensureUpperParent p
    let h ← withNew { actualPath := .upper p, relativePath := p
                      isDirectory := request.directory, writable := true
                      grantedAccess := request.access } fun h =>
      if request.directory then createDirectoryInUpper p resolution h
      else createFileInUpper p request resolution h
    invalidateWithAncestors p
    pure h

def close (h : Nat) : Op Unit := do
  let _ ← get h
  Op.modify fun e => { e with contexts := e.contexts.set h none }

/-- `Cleanup`. -/
def cleanup (h : Nat) : Op Unit := do
  let _ ← get h
  modify h fun ctx => { ctx with handle := none, handleNeedsReopen := true }

/-! ## Data -/

/-- `ReadFile`, of a handle with the read-data right. -/
def read (h : Nat) (offset length : Nat) : Op Data := do
  ensureHandleReady h
  let ctx ← get h
  let e ← Op.get
  match ctx.handle with
  | some (.file id) =>
    if !(computePhysicalHandleAccess ctx.grantedAccess).readData then Op.fail .accessDenied
    else
      let bytes := ((fileAt e.files id).data.drop offset).take length
      if bytes.isEmpty && length ≠ 0 then Op.fail .endOfFile else pure bytes
  | _ => Op.fail .invalidHandle

/-- The data with `bytes` at `offset`, and zeros up to there. -/
def writeAt (data : Data) (offset : Nat) (bytes : Data) : Data :=
  data.take offset ++ List.replicate (offset - data.length) 0 ++ bytes ++
    data.drop (offset + bytes.length)

/-- A change of a file's data through a handle.  The host sets the archive
attribute. -/
def changeData (id : FileId) (f : Data → Data) : Op Unit :=
  Op.modify fun e =>
    let file := fileAt e.files id
    { e with
      files := e.files.set id
        { file with
          data := f file.data
          attributes := { file.attributes with archive := true }
          changed := true } }

structure WriteRequest where
  bytes : Data
  offset : Nat := 0
  writeToEnd : Bool := false
  constrainedIo : Bool := false
  deriving DecidableEq, Repr

/-- `WriteFile`, of a handle with the write-data or the append-data right. -/
def writeFile (h : Nat) (request : WriteRequest) : Op Unit := do
  let ctx ← get h
  let e ← Op.get
  match ctx.handle with
  | some (.file id) =>
    let fileSize := (fileAt e.files id).data.length
    let offset := if request.writeToEnd then fileSize else request.offset
    if request.constrainedIo && fileSize ≤ offset then pure ()
    else
      let bytes :=
        if request.constrainedIo then request.bytes.take (fileSize - offset) else request.bytes
      if ctx.grantedAccess.writeData then changeData id fun data => writeAt data offset bytes
      else if ctx.grantedAccess.appendData then changeData id fun data => data ++ bytes
      else Op.fail .accessDenied
  | _ => Op.fail .invalidHandle

def write (h : Nat) (request : WriteRequest) : Op Unit := do
  ensureHandleReady h
  ensureInUpperLayer h
  ensureMetacopyMaterialized h
  writeFile h request

/-- `SetInfoWithTransientRetry`: the file of the handle, or of the context's path
when the handle lacks the right. -/
def setInfoTarget (e : Engine) (ctx : FileContext) (hasRight : Bool) : Option FileId :=
  match ctx.handle with
  | some (.file id) => if hasRight then some id else fileOf (placeOf e ctx.actualPath)
  | some .other => none
  | none => none

def setEndOfFile (h : Nat) (size : Nat) : Op Unit := do
  let ctx ← get h
  let e ← Op.get
  match setInfoTarget e ctx ctx.grantedAccess.writeData with
  | some id => changeData id fun data => data.take size ++ List.replicate (size - data.length) 0
  | none => Op.fail .accessDenied

/-- An allocation below the end of file truncates the data. -/
def setAllocationSize (h : Nat) (size : Nat) : Op Unit := do
  let ctx ← get h
  let e ← Op.get
  match setInfoTarget e ctx ctx.grantedAccess.writeData with
  | some id => changeData id fun data => data.take size
  | none => Op.fail .accessDenied

/-- The attributes that a caller can set. -/
structure SetAttributes where
  readOnly : Bool
  archive : Bool
  deriving DecidableEq, Repr

def setFileAttributes (id : FileId) (a : SetAttributes) : Op Unit :=
  Op.modify fun e =>
    let file := fileAt e.files id
    { e with
      files := e.files.set id
        { file with
          attributes := { file.attributes with readOnly := a.readOnly, archive := a.archive } } }

def setReadOnlyNode (readOnly : Bool) : Tree → Tree
  | .node d children => .node { d with readOnly } children
  | .leaf v => .leaf v

/-- `SetContextAttributes`. -/
def setAttributes (h : Nat) (a : SetAttributes) : Op Unit := do
  let ctx ← get h
  let e ← Op.get
  match setInfoTarget e ctx ctx.grantedAccess.writeAttributes with
  | some id => setFileAttributes id a
  | none =>
    match ctx.actualPath with
    | .lower _ _ => Op.fail .accessDenied
    | .upper p =>
      match e.upperAt p with
      | none => Op.fail .objectNameNotFound
      | some t => Op.modify fun e => e.putUpper p (some (setReadOnlyNode a.readOnly t))

structure SetInfoRequest where
  fileAttributes : Option SetAttributes := none
  /-- A time is set. -/
  times : Bool := false
  allocationSize : Option Nat := none
  fileSize : Option Nat := none
  deriving DecidableEq, Repr

def SetInfoRequest.changesNothing (request : SetInfoRequest) : Bool :=
  request.fileAttributes.isNone && !request.times && request.allocationSize.isNone &&
    request.fileSize.isNone

def SetInfoRequest.changesSize (request : SetInfoRequest) : Bool :=
  request.allocationSize.isSome || request.fileSize.isSome

/-- `LLONG_MAX`. -/
def kMaxSignedSize : Nat := 2 ^ 63 - 1

/-- Runs a step of a request that carries a value for it. -/
def whenSet {α : Type} (value : Option α) (set : α → Op Unit) : Op Unit :=
  match value with
  | some a => set a
  | none => pure ()

def setInfo (h : Nat) (request : SetInfoRequest) : Op Unit := do
  let _ ← get h
  if request.changesNothing then ensureHandleReady h
  else do
    ensureInUpperLayer h
    ensureHandleReady h
    if kMaxSignedSize < request.allocationSize.getD 0 || kMaxSignedSize < request.fileSize.getD 0
    then Op.fail .invalidParameter
    else do
      if request.changesSize then ensureMetacopyMaterialized h else pure ()
      whenSet request.fileAttributes (setAttributes h)
      whenSet request.allocationSize (setAllocationSize h)
      whenSet request.fileSize (setEndOfFile h)

/-- `DeleteUserAlternateDataStreams` of the context's path. -/
def deleteUserStreams (h : Nat) : Op Unit := do
  let ctx ← get h
  let e ← Op.get
  match fileOf (placeOf e ctx.actualPath) with
  | some id => CopyUp.setFile id { fileAt e.files id with userStream := false }
  | none => pure ()

/-- `SetFileAttributesW` of the context's path, after an overwrite. -/
def overwriteAttributes (h : Nat) (replaceAttributes : Bool) (a : SetAttributes) : Op Unit := do
  let ctx ← get h
  let e ← Op.get
  match fileOf (placeOf e ctx.actualPath) with
  | some id =>
    let current := (fileAt e.files id).attributes
    if replaceAttributes then setFileAttributes id a
    else setFileAttributes id ⟨current.readOnly || a.readOnly, current.archive || a.archive⟩
  | none => Op.fail .objectNameNotFound

structure OverwriteRequest where
  fileAttributes : Option SetAttributes := none
  replaceAttributes : Bool := false
  allocationSize : Nat := 0
  deriving DecidableEq, Repr

def overwrite (h : Nat) (request : OverwriteRequest) : Op Unit := do
  ensureHandleReady h
  ensureInUpperLayer h
  ensureMetacopyMaterialized h
  deleteUserStreams h
  setEndOfFile h 0
  if 0 < request.allocationSize then setAllocationSize h request.allocationSize else pure ()
  whenSet request.fileAttributes (overwriteAttributes h request.replaceAttributes)
  let ctx ← get h
  invalidateWithAncestors ctx.relativePath

/-! ## Delete and rename of a context -/

/-- `Delete` of a context. -/
def delete (h : Nat) : Op Unit := do
  let ctx ← get h
  canDeleteEntry ctx.relativePath
  modify h fun ctx => { ctx with handle := none, handleNeedsReopen := false }
  removeEntry ctx.relativePath

/-- `Rename` of a context. -/
def rename [HostCase] (h : Nat) (path : CallerPath) (replaceIfExists : Bool) : Op Unit := do
  let ctx ← get h
  let newView ← walkCallerPath path .keep
  let oldPath : CallerPath := ⟨ctx.relativePath⟩
  if oldPath = newView then Rename.renameViewPaths oldPath newView replaceIfExists
  else do
    let oldNorm := ctx.relativePath
    let newNorm := newView.norm
    let checked ← Rename.checkRename oldNorm newNorm replaceIfExists
    let sourceWasInUpper ← existsInUpper oldNorm
    closeHandle h
    let mode := if hasFileDataAccess ctx.grantedAccess then Rename.RenameCopyUp.fullCopy
      else .shellWhenPossible
    match ← Op.attempt
        (Rename.renameCheckedEntry oldNorm newNorm replaceIfExists checked mode) with
    | .error status => do
      modify h fun ctx => { ctx with handleNeedsReopen := true }
      Op.fail status
    | .ok renamed =>
      modify h fun ctx =>
        { ctx with
          relativePath := newNorm
          actualPath := .upper newNorm
          writable := true
          isMetacopyOnly :=
            if !sourceWasInUpper && !renamed.sourceInLinkTarget then renamed.stagedShell
            else ctx.isMetacopyOnly
          handleNeedsReopen := true }

/-- `UpdateContextPath`.  The flag of a metacopy shell stays as it was. -/
def updatePath [HostCase] (h : Nat) (path : CallerPath) : Op Unit := do
  let ctx ← get h
  let newView ← walkCallerPath path .keep
  let newNorm := newView.norm
  let e ← Op.get
  if !parsesAsHostPath newNorm then Op.fail .invalidParameter
  else if isReservedOverlayPath e.config newNorm then Op.fail .invalidParameter
  else if ctx.relativePath = newNorm then pure ()
  else
    modify h fun ctx =>
      { ctx with
        handle := none
        relativePath := newNorm
        actualPath := .upper newNorm
        handleNeedsReopen := true }

end Context

/-! ## Calls by path -/

/-- `SetSecurity`. -/
def setSecurity [HostCase] (path : CallerPath) : Op Unit := do
  let view ← walkCallerPath path .follow
  let p := view.norm
  let resolved ← lookup p
  if !resolved.found then Op.fail .objectNameNotFound
  else do
    if resolved.source = .lower then
      if resolved.isDirectory then CopyUp.copyUpDirectory p
      else do
        let _ ← CopyUp.copyUpFileOrShell p none
        pure ()
    else pure ()
    invalidateWithAncestors p

/-- `EnsureInUpperLayer` of a path. -/
def ensurePathInUpperLayer [HostCase] (path : CallerPath) : Op Unit := do
  let view ← walkCallerPath path .keep
  let p := view.norm
  if ← existsInUpper p then pure ()
  else do
    let resolved ← lookup p
    if !resolved.found then Op.fail .objectNameNotFound
    else if resolved.isDirectory then CopyUp.copyUpDirectory p
    else CopyUp.copyUpFile p

/-- `AcceptsMarker`. -/
def acceptsMarker (p : RelPath) : Bool := isSafeRelativePath p && !isReservedRelativePath p

def createWhiteoutAt [HostCase] (path : CallerPath) : Op Unit := do
  let view ← walkCallerPath path .keep
  if !acceptsMarker view.norm then Op.fail .objectNameInvalid
  else WhiteoutManager.createWhiteout view.norm

def setOpaqueAt [HostCase] (path : CallerPath) : Op Unit := do
  let view ← walkCallerPath path .keep
  if !acceptsMarker view.norm then Op.fail .objectNameInvalid
  else WhiteoutManager.setOpaque view.norm

/-- `ResolvePath` of a caller. -/
def resolveAt [HostCase] (path : CallerPath) : Op Unit := do
  let view ← walkCallerPath path .keep
  let _ ← lookup view.norm
  pure ()

/-! ## Calls -/

inductive Call where
  | resolve (path : CallerPath)
  | openPath (path : CallerPath) (access : Access) (finalLink : FinalLink)
  | create (request : Context.CreateRequest)
  | close (h : Nat)
  | cleanup (h : Nat)
  | read (h offset length : Nat)
  | write (h : Nat) (request : Context.WriteRequest)
  | overwrite (h : Nat) (request : Context.OverwriteRequest)
  | setInfo (h : Nat) (request : Context.SetInfoRequest)
  | setSecurity (path : CallerPath)
  | ensureInUpper (path : CallerPath)
  | delete (path : CallerPath)
  | deleteContext (h : Nat)
  | rename (oldPath newPath : CallerPath) (replaceIfExists : Bool)
  | renameContext (h : Nat) (path : CallerPath) (replaceIfExists : Bool)
  | updatePath (h : Nat) (path : CallerPath)
  | createWhiteout (path : CallerPath)
  | setOpaque (path : CallerPath)
  deriving DecidableEq, Repr

/-- What a call hands back. -/
inductive Answer where
  | done
  | context (h : Nat)
  | bytes (data : Data)
  deriving DecidableEq, Repr

def answering {α : Type} (m : Op α) (answer : α → Answer) : Op Answer := do
  let a ← m
  pure (answer a)

def Call.run [HostCase] : Call → Op Answer
  | .resolve path => answering (resolveAt path) fun _ => .done
  | .openPath path access finalLink =>
    answering (Context.openPath path access finalLink) .context
  | .create request => answering (Context.createPath request) .context
  | .close h => answering (Context.close h) fun _ => .done
  | .cleanup h => answering (Context.cleanup h) fun _ => .done
  | .read h offset length => answering (Context.read h offset length) .bytes
  | .write h request => answering (Context.write h request) fun _ => .done
  | .overwrite h request => answering (Context.overwrite h request) fun _ => .done
  | .setInfo h request => answering (Context.setInfo h request) fun _ => .done
  | .setSecurity path => answering (LayerMount.setSecurity path) fun _ => .done
  | .ensureInUpper path => answering (ensurePathInUpperLayer path) fun _ => .done
  | .delete path => answering (deletePath path) fun _ => .done
  | .deleteContext h => answering (Context.delete h) fun _ => .done
  | .rename oldPath newPath replaceIfExists =>
    answering (Rename.renamePath oldPath newPath replaceIfExists) fun _ => .done
  | .renameContext h path replaceIfExists =>
    answering (Context.rename h path replaceIfExists) fun _ => .done
  | .updatePath h path => answering (Context.updatePath h path) fun _ => .done
  | .createWhiteout path => answering (createWhiteoutAt path) fun _ => .done
  | .setOpaque path => answering (setOpaqueAt path) fun _ => .done

/-- The state after a sequence of calls, whatever each of them answers. -/
def Engine.run [HostCase] (e : Engine) : List Call → Engine
  | [] => e
  | call :: rest => Engine.run (call.run e).2 rest

end LayerMount
