import LayerMount.Markers

/-!
# Copy-up

`CopyUp.cpp`: a lower entry is built in the work directory and moved to the upper,
a file in full or as a metacopy shell, a directory without its children, a link as
a link.  The parent directories come first, so `CopyUpDirectory` and
`EnsureUpperParent` call each other with shorter paths; `copyUpDirectoryWithin`
counts the components.
-/

namespace LayerMount

open Lib

namespace CopyUp

/-- `ShownLinkTarget` of what a lookup found: whether it is a directory or a link
that leads to one. -/
def shownLeadsToDirectory (e : Engine) (shown : ResolvedPath) : Bool :=
  shown.found && leadsToDirectory (e.resolvedAt shown)

/-- `EnsureUpperParent`, with the copy-up of a directory given. -/
def ensureUpperParentWith (copyUpDirectory : RelPath → Op Unit) (p : RelPath) : Op Unit := do
  let parent := p.dropLast
  if parent.isEmpty then pure ()
  else
    let e ← Op.get
    match e.upperAt parent with
    | some t => if leadsToDirectory (some t) then pure () else Op.fail .objectPathNotFound
    | none => do
      let shown ← lookup parent
      let e ← Op.get
      if !shownLeadsToDirectory e shown then Op.fail .objectPathNotFound
      else if shown.source = .lower then copyUpDirectory parent
      else Op.fail .objectPathNotFound

/-- `PrepareCopyUpTarget`: the lower entry to copy, or none when the copy-up of a
link above has brought the entry to the upper. -/
def prepareCopyUpTargetWith (copyUpDirectory : RelPath → Op Unit) (p : RelPath) :
    Op (Option ResolvedPath) := do
  let e ← Op.get
  let source := resolveLowerPath e.config p
  if !source.found then Op.fail .objectNameNotFound
  else do
    ensureUpperParentWith copyUpDirectory p
    let e ← Op.get
    let link := findLinkOnPath e.upperLayer p.dropLast
    if (link = .self || link = .ancestor) && (e.upperAt p).isSome then pure none
    else pure (some source)

/-- A link, or a file that is all reparse data. -/
def clonesReparsePoint (files : List FileObj) : Tree → Bool
  | .leaf (.file id) => (fileAt files id).attributes.reparsePoint
  | .leaf .deadLink => true
  | .leaf .marker => false
  | .node d _ => d.link

/-- The clone of a file that is all reparse data: a new file with that data. -/
def clonedFile (record : Option Origin) (f : FileObj) : FileObj :=
  { attributes := { reparsePoint := true, archive := true }
    data := f.data
    metacopy := record
    changed := f.changed }

/-- The clone of a link: a new link to the same directory. -/
def clonedLink : Tree → Tree
  | .node d children => .node { d with readOnly := false } children
  | .leaf v => .leaf v

/-- `CloneReparsePointThroughWorkDir`, with a new copy-up record. -/
def cloneThroughWorkDir (t : Tree) (p : RelPath) : Op Unit := do
  match fileOf (some t) with
  | none => do
    stageEntry (clonedLink t)
    commitStaged p (clonedLink t)
  | some id => do
    let e ← Op.get
    stageEntry (.leaf (.file e.files.length))
    let cloned ← newFile (clonedFile none (fileAt e.files id))
    commitStaged p (.leaf (.file cloned))

/-- A staged directory, with the attributes of its source and no children. -/
def stagedDirectory : Tree → Tree
  | .node d _ => .node { readOnly := d.readOnly } []
  | .leaf _ => .node {} []

/-- The rest of `CopyUpDirectory`, once the parent is there. -/
def copyUpDirectoryTarget (p : RelPath) (source : ResolvedPath) : Op Unit := do
  let e ← Op.get
  match e.resolvedAt source with
  | none => Op.fail .objectNameNotFound
  | some t => do
    if clonesReparsePoint e.files t then cloneThroughWorkDir t p
    else do
      stageEntry (stagedDirectory t)
      commitStaged p (stagedDirectory t)
    invalidateWithAncestors p

def copyUpDirectoryWithin : Nat → RelPath → Op Unit
  | 0, _ => Op.fail .unsuccessful
  | n + 1, p => do
    if ← existsInUpper p then pure ()
    else
      match ← prepareCopyUpTargetWith (copyUpDirectoryWithin n) p with
      | none => pure ()
      | some source => copyUpDirectoryTarget p source

def copyUpDirectory (p : RelPath) : Op Unit := copyUpDirectoryWithin (p.length + 1) p

def ensureUpperParent (p : RelPath) : Op Unit := ensureUpperParentWith copyUpDirectory p

def prepareCopyUpTarget (p : RelPath) : Op (Option ResolvedPath) :=
  prepareCopyUpTargetWith copyUpDirectory p

/-- `StagedFileAttributes`: a copied-up file has the archive attribute. -/
def stagedFileAttributes (a : Attributes) : Attributes := { a with archive := true }

/-- `CommitStagedFile`. -/
def commitStagedFile (p : RelPath) (id : FileId) : Op Unit := do
  ensureDirectoryExists p.dropLast
  commitStaged p (.leaf (.file id))
  invalidateWithAncestors p

/-- The staged full copy of a file.  A host without sparse files gives a dense
copy. -/
def stageFile (f : FileObj) : Op FileId := do
  let e ← Op.get
  stageEntry (.leaf (.file e.files.length))
  newFile
    { f with
      attributes := { stagedFileAttributes f.attributes with
        sparse := f.attributes.sparse && e.host.sparseFiles }
      metacopy := none }

def copyUpFile (p : RelPath) : Op Unit := do
  if ← existsInUpper p then pure ()
  else
    match ← prepareCopyUpTarget p with
    | none => pure ()
    | some source => do
      let e ← Op.get
      match e.resolvedAt source with
      | none => Op.fail .objectNameNotFound
      | some t => do
        if clonesReparsePoint e.files t then do
          cloneThroughWorkDir t p
          invalidateWithAncestors p
        else
          match fileOf (some t) with
          | none => Op.fail .accessDenied
          | some id => do
            let staged ← stageFile (fileAt e.files id)
            commitStagedFile p staged

/-- What a copy-up as a file or a shell gives. -/
structure FileCopyUpResult where
  stagedShell : Bool
  deriving DecidableEq, Repr

/-- The shell of a lower file: its size and no data. -/
def shellOf (id : FileId) (f : FileObj) : FileObj :=
  { attributes := { stagedFileAttributes f.attributes with sparse := true }
    data := List.replicate f.data.length 0
    metacopy := some ⟨id, f.attributes.sparse⟩
    changed := false }

/-- `LowerUserStreamStatus`. -/
def lowerUserStreamStatus (e : Engine) (p : RelPath) : Except NtStatus Unit :=
  match fileOf (e.resolvedAt (resolveLowerPath e.config p)) with
  | none => .ok ()
  | some id => if (fileAt e.files id).userStream then .error .invalidParameter else .ok ()

def copyUpMetadataOnly (p : RelPath) : Op FileCopyUpResult := do
  if ← existsInUpper p then pure ⟨true⟩
  else do
    let e ← Op.get
    Step.ofExcept (lowerUserStreamStatus e p)
    match ← prepareCopyUpTarget p with
    | none => pure ⟨false⟩
    | some source => do
      let e ← Op.get
      match fileOf (e.resolvedAt source) with
      | none => Op.fail .accessDenied
      | some id => do
        stageEntry (.leaf (.file e.files.length))
        let staged ← newFile (shellOf id (fileAt e.files id))
        commitStagedFile p staged
        pure ⟨true⟩

/-- `CopyUpFileOrShell`.  No threshold lets a shell stand for a file of any size. -/
def copyUpFileOrShell (p : RelPath) (shellOnlyAboveBytes : Option Nat) :
    Op FileCopyUpResult := do
  let copyInFull : Op FileCopyUpResult := do
    copyUpFile p
    pure ⟨false⟩
  let e ← Op.get
  if !e.host.sparseFiles then copyInFull
  else
    let source := resolveLowerPath e.config p
    match e.resolvedAt source with
    | none => copyInFull
    | some t =>
      let small :=
        match shellOnlyAboveBytes, fileOf (some t) with
        | some bytes, some id => decide ((fileAt e.files id).data.length ≤ bytes)
        | _, _ => false
      let userStream :=
        match fileOf (some t) with
        | some id => (fileAt e.files id).userStream
        | none => false
      if small || clonesReparsePoint e.files t || userStream then copyInFull
      else copyUpMetadataOnly p

/-- The shell with its origin's data.  The sparse attribute goes with the last
hole when the origin is not sparse. -/
def filledShell (origin : Origin) (data : Data) (f : FileObj) : FileObj :=
  { f with
    data := data
    attributes := { f.attributes with sparse := f.attributes.sparse && origin.sparse } }

def setFile (id : FileId) (f : FileObj) : Op Unit :=
  Op.modify fun e => { e with files := e.files.set id f }

/-- `CompleteLazyCopyUp`.  The record write without the metacopy flag commits the
fill; when it fails the data is in place and the flag stays. -/
def completeLazyCopyUp (p : RelPath) : Op Unit := do
  let e ← Op.get
  match fileOf (e.upperAt p) with
  | none => pure ()
  | some id =>
    match (fileAt e.files id).metacopy with
    | none => pure ()
    | some origin => do
      diskStep .fillData
      let filled := filledShell origin (fileAt e.files origin.file).data (fileAt e.files id)
      setFile id filled
      diskStep .writeRecord
      setFile id { filled with metacopy := none }

/-- `FindLinkAbove`. -/
def findLinkAbove (c : LayerConfig) (p : RelPath) : LinkInView := findLinkInView c p.dropLast

def copyUpLowerLinkAbove (p : RelPath) : Op Unit := do
  let e ← Op.get
  let link := findLinkAbove e.config p
  match link.stop with
  | .link => if link.source = .lower then copyUpDirectory link.path else pure ()
  | .unreadable => pure ()
  | .none => pure ()

/-- `RenameDirectoryCase`: the names of the model are case folded, so the move
changes no name. -/
def renameDirectoryCase (p : RelPath) (sourceKind : EntryKind) : Op Unit := do
  let e ← Op.get
  let source := resolveLowerPath e.config p
  match sourceKind, e.upperAt p, e.resolvedAt source with
  | .link, none, some t => do
    ensureUpperParent p
    cloneThroughWorkDir t p
    invalidateWithAncestors p
  | _, _, _ => do
    copyUpDirectory p
    let status ← Op.attempt (moveUpperEntry p p false)
    invalidateWithAncestors p
    Step.ofExcept status

end CopyUp

end LayerMount
