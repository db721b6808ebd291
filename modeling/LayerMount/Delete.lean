import LayerMount.CopyUp
import LayerMount.DirectoryMerge

/-!
# Delete

`CanDelete`, `UpperEntryRemover::Remove` and the two `Delete` calls.  A delete
removes the opaque marker, then the upper entry, and then writes a whiteout for
what a lower holds; no step undoes an earlier one.
-/

namespace LayerMount

open Lib

/-- `TryParseStreamPath` of a path without a stream suffix. -/
def parsesAsHostPath (p : RelPath) : Bool := isSafeRelativePath p

/-- `EntryKindOf` what a lookup found. -/
def resolvedKind (e : Engine) (r : ResolvedPath) : EntryKind :=
  match e.resolvedAt r with
  | some t => treeKind t
  | none => .file

def directoryEmptinessStatus (e : Engine) (d : RelPath) : Except NtStatus Unit :=
  match mergeDirectoryAcrossLayers e.config d with
  | .error status => .error status
  | .ok entries => if entries.isEmpty then .ok () else .error .directoryNotEmpty

def hasReadOnly (r : ResolvedPath) : Bool :=
  match r.attributes with
  | some a => a.readOnly
  | none => false

/-- `CanDeleteEntry`, of a path without a stream suffix. -/
def canDeleteEntry (p : RelPath) : Op Unit := do
  let resolved ← lookup p
  let e ← Op.get
  if !resolved.found then Op.fail .objectNameNotFound
  else if hasReadOnly resolved then Op.fail .cannotDelete
  else if resolvedKind e resolved = .directory then
    Step.ofExcept (directoryEmptinessStatus e p)
  else pure ()

/-- The part of `UpperEntryRemover::Remove` that removes the upper entry `t`.  A
failure to remove the opaque marker is not read. -/
def removeShownUpperEntry (p : RelPath) (t : Tree) : Op Unit := do
  let e ← Op.get
  if treeKind t ≠ .file && isOpaqueUpper e p then do
    let _ ← WhiteoutManager.removeOpaque p
    removeUpperEntryOfKind p
  else removeUpperEntryOfKind p

/-- Runs a step and drops the keys of `p` before its failure goes on. -/
def invalidatingOnFailure (p : RelPath) (m : Op Unit) : Op Unit := do
  match ← Op.attempt m with
  | .ok _ => pure ()
  | .error status => do
    invalidateWithAncestors p
    Op.fail status

/-- `UpperEntryRemover::Remove`. -/
def UpperEntryRemover.remove (p : RelPath) : Op Unit := do
  let _ ← lookup p
  let e ← Op.get
  let lowerHasIt := (resolveLowerPath e.config p).found
  match e.upperAt p with
  | some t => invalidatingOnFailure p (removeShownUpperEntry p t)
  | none => pure ()
  if lowerHasIt then invalidatingOnFailure p (WhiteoutManager.createWhiteout p) else pure ()
  invalidateWithAncestors p

def removeEntry (p : RelPath) : Op Unit := do
  CopyUp.copyUpLowerLinkAbove p
  UpperEntryRemover.remove p

/-- `CanDelete` of a path. -/
def canDelete [HostCase] (path : CallerPath) : Op RelPath := do
  let view ← walkCallerPath path .keep
  if !parsesAsHostPath view.norm then Op.fail .objectNameInvalid
  else do
    canDeleteEntry view.norm
    pure view.norm

/-- `Delete` of a path. -/
def deletePath [HostCase] (path : CallerPath) : Op Unit := do
  let p ← canDelete path
  removeEntry p

end LayerMount
