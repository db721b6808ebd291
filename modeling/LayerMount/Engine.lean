import LayerMount.Lib.Step
import LayerMount.LayerTree

/-!
# The state of the engine

The layers, the table of file objects, the path cache and the open contexts, and
the disk steps that the engine's operations are made of.

A disk step may fail.  `Engine.fault` plans at most one failure: `some (s, n)` lets
the step of kind `s` after the next `n` of that kind fail.  A step also fails by
itself where the host's file system would refuse it, such as a move to a directory
that is not there.

Every decision of an operation uses the answer of a lookup in the layers, where the
source takes what the cache has.  The cache is kept beside it exactly as `ResolvePath`
keeps it.  While its entries are current the two answers are the same
(`lookup_cached`), and `LayerMount.CacheRace` is about when they are.

A path of an operation has no `.` component: `walkCallerPath` drops them.
-/

namespace LayerMount

open Lib

/-! ## Caller paths -/

/-- A path as a caller writes it, split into components. -/
structure CallerPath where
  text : RelPath
  deriving DecidableEq, Repr

/-- What `CharLowerBuffW` makes of a character.  No other character becomes a full stop. -/
class HostCase where
  lower : Char → Char
  lower_eq_dot : ∀ c, lower c = '.' ↔ c = '.'

/-- `CharLowerBuffW` of one component. -/
def caseFoldedName [HostCase] (n : Name) : Name := n.map HostCase.lower

/-- `NormalizePath`. -/
def CallerPath.norm [HostCase] (p : CallerPath) : RelPath := p.text.map caseFoldedName

theorem caseFoldedName_dotDot [HostCase] : caseFoldedName ['.', '.'] = ['.', '.'] := by
  simp [caseFoldedName, (HostCase.lower_eq_dot '.').mpr rfl]

theorem caseFoldedName_eq_dot [HostCase] {c : Name} (h : caseFoldedName c = ['.']) :
    c = ['.'] := by
  cases c with
  | nil => cases h
  | cons x c =>
    rw [caseFoldedName, List.map_cons, List.cons.injEq, List.map_eq_nil_iff,
      HostCase.lower_eq_dot] at h
    rw [h.1, h.2]

namespace AsciiCase

/-- A host that folds the letters of ASCII only. -/
scoped instance asciiCase : HostCase where
  lower := Char.toLower
  lower_eq_dot := by
    intro c
    refine ⟨?_, fun h => by rw [h]; rfl⟩
    intro hdot
    unfold Char.toLower at hdot
    split at hdot
    · rename_i hupper
      have hval := congrArg Char.toNat hdot
      have hlow : 65 ≤ c.val.toNat := by simpa using UInt32.le_iff_toNat_le.mp hupper.1
      have hhigh : c.val.toNat ≤ 90 := by simpa using UInt32.le_iff_toNat_le.mp hupper.2
      have hstop : ('.' : Char).val.toNat = 46 := rfl
      have hshift : ('a'.val - 'A'.val).toNat = 32 := by decide
      simp only [Char.toNat, UInt32.toNat_add] at hval
      rw [hstop, hshift] at hval
      omega
    · exact hdot

end AsciiCase

/-! ## Contexts -/

/-- The rights of an open that the engine tells apart. -/
structure Access where
  readData : Bool := false
  writeData : Bool := false
  appendData : Bool := false
  execute : Bool := false
  writeAttributes : Bool := false
  /-- `FILE_WRITE_EA`, `WRITE_DAC` or `WRITE_OWNER`. -/
  writeOther : Bool := false
  deriving DecidableEq, Repr

def hasWriteAccess (a : Access) : Bool :=
  a.writeData || a.appendData || a.writeAttributes || a.writeOther

def hasFileDataAccess (a : Access) : Bool :=
  a.readData || a.writeData || a.appendData || a.execute

/-- `ComputePhysicalHandleAccess`. -/
def computePhysicalHandleAccess (a : Access) : Access :=
  if a.writeData || a.appendData then { a with readData := true } else a

/-- `FileContext::actualPath`. -/
inductive ActualPath where
  | upper (p : RelPath)
  | lower (i : Nat) (p : RelPath)
  deriving DecidableEq, Repr

/-- What a host handle is open on. -/
inductive HostHandle where
  | file (id : FileId)
  | other
  deriving DecidableEq, Repr

structure FileContext where
  handle : Option HostHandle := none
  actualPath : ActualPath
  relativePath : RelPath
  isDirectory : Bool := false
  writable : Bool := false
  isMetacopyOnly : Bool := false
  grantedAccess : Access := {}
  handleNeedsReopen : Bool := false
  deriving DecidableEq, Repr

/-! ## The engine -/

inductive DiskStep where
  | createDirectories
  | createEntry
  | writeWhiteout
  | removeWhiteout
  | writeOpaqueMarkers
  | removeOpaqueMarkers
  | removeEntry
  | stage
  | commit
  | setAside
  | move
  | moveRecord
  | fillData
  | writeRecord
  | writeSecurity
  | openEntry
  | queryAccess
  | setAllocation
  | queryInfo
  deriving DecidableEq, Repr

/-- What the file system under the upper can do and does. -/
structure UpperHost where
  /-- `Capabilities().HasSparseFiles()`. -/
  sparseFiles : Bool := true
  /-- What a removal of a directory has not deleted when it fails, by the path below the
  directory. -/
  survives : RelPath → Bool := fun _ => true

structure Engine where
  upper : Place
  lowers : List Place
  files : List FileObj
  host : UpperHost := {}
  fault : Option (DiskStep × Nat) := none
  /-- A step that undoes a failed operation has failed. -/
  undoFailed : Bool := false
  /-- What is in the staging area of the work directory. -/
  staging : List Tree := []
  cache : Cache := {}
  contexts : List (Option FileContext) := []

abbrev Op (α : Type) := Step Engine NtStatus α

namespace Engine

def config (e : Engine) : LayerConfig := configOf e.files e.upper e.lowers

def upperLayer (e : Engine) : Layer := Layer.ofTree e.files e.upper

def upperAt (e : Engine) (p : RelPath) : Place := placeAt e.upper p

def lowerAt (e : Engine) (i : Nat) (p : RelPath) : Place := placeAt ((e.lowers.getD i none)) p

/-- The subtree that a lookup found. -/
def resolvedAt (e : Engine) (r : ResolvedPath) : Place :=
  match r.absolutePath, r.source, r.lowerIndex with
  | some p, .upper, _ => e.upperAt p
  | some p, .lower, some i => e.lowerAt i p
  | _, _, _ => none

def putUpper (e : Engine) (p : RelPath) (o : Place) : Engine :=
  { e with upper := PathTree.put e.upper p o }

end Engine

abbrev Op.get : Op Engine := Step.get

abbrev Op.modify (f : Engine → Engine) : Op Unit := Step.modify f

abbrev Op.fail {α : Type} (s : NtStatus) : Op α := Step.fail s

abbrev Op.attempt {α : Type} (m : Op α) : Op (Except NtStatus α) := Step.attempt m

/-- One disk step, which the plan may let fail. -/
def diskStep (s : DiskStep) : Op Unit := fun e =>
  match e.fault with
  | none => (.ok (), e)
  | some (k, n) =>
    if k ≠ s then (.ok (), e)
    else
      match n with
      | 0 => (.error .diskFailure, { e with fault := none })
      | n + 1 => (.ok (), { e with fault := some (k, n) })

/-! ## Lookups and the cache -/

/-- `ResolvePath`.  The cache goes on as it does in the source.  The answer is the one
that a current cache gives. -/
def lookup (p : RelPath) : Op ResolvedPath := fun e =>
  (.ok (resolvePath e.config p {}).1, { e with cache := (resolvePath e.config p e.cache).2 })

def invalidate (p : RelPath) : Op Unit :=
  Op.modify fun e => { e with cache := e.cache.invalidate p }

def invalidateWithAncestors (p : RelPath) : Op Unit :=
  Op.modify fun e => { e with cache := e.cache.invalidateWithAncestors p }

inductive FinalLink where
  | keep
  | follow
  deriving DecidableEq, Repr

/-- The lookups of the loop of `ViewPathThroughLinks` from the prefix walked. -/
def walkLookups (finalLink : FinalLink) (walked : RelPath) : RelPath → Op Unit
  | [] => pure ()
  | component :: rest =>
    if rest.isEmpty && finalLink = .keep then pure ()
    else do
      let shown ← lookup (walked ++ [component])
      if !shown.found || !shown.isDirectory then pure ()
      else
        match shown.attributes with
        | some a =>
          -- a junction or an absolute link ends the walk
          if a.reparsePoint then pure ()
          else walkLookups finalLink (walked ++ [component]) rest
        | none => pure ()

/-- `WalkCallerPath`.  A path with a `..` component comes back unwalked; from any
other the `.` components go.  A relative symbolic link is outside the model. -/
def walkCallerPath [HostCase] (p : CallerPath) (finalLink : FinalLink) : Op CallerPath := do
  if p.text.contains ['.', '.'] then pure p
  else
    let viewPath : CallerPath := ⟨p.text.filter fun c => c ≠ ['.']⟩
    walkLookups finalLink [] viewPath.norm
    pure viewPath

/-! ## Entries of the upper -/

/-- `ExistsInUpper`. -/
def existsInUpper (p : RelPath) : Op Bool := do
  let e ← Op.get
  pure (e.upperAt p).isSome

/-- An inner node: a directory, or a link that leads to one. -/
def leadsToDirectory : Place → Bool
  | some (.node _ _) => true
  | _ => false

def isLinkPlace : Place → Bool
  | some t => treeKind t = .link
  | none => false

/-- The file object that a place names. -/
def fileOf : Place → Option FileId
  | some (.leaf (.file id)) => some id
  | _ => none

/-- The directories on a path that are not there yet. -/
def makeDirectories (o : Place) (walked : RelPath) : RelPath → Place
  | [] => o
  | component :: rest =>
    let here := walked ++ [component]
    match placeAt o here with
    | some _ => makeDirectories o here rest
    | none =>
      if leadsToDirectory (placeAt o walked) then
        makeDirectories (PathTree.put o here (some (.node {} []))) here rest
      else o

/-- `EnsureDirectoryExists`, whose failure no caller reads. -/
def ensureDirectoryExists (d : RelPath) : Op Unit := do
  match ← Op.attempt (diskStep .createDirectories) with
  | .error _ => pure ()
  | .ok _ => Op.modify fun e => { e with upper := makeDirectories e.upper [] d }

/-- A new entry at a free name of a directory. -/
def placeEntry (p : RelPath) (t : Tree) : Op Unit := do
  let e ← Op.get
  if !leadsToDirectory (e.upperAt p.dropLast) then Op.fail .objectPathNotFound
  else if (e.upperAt p).isSome then Op.fail .objectNameCollision
  else Op.modify fun e => e.putUpper p (some t)

/-! ## The staging area -/

/-- `RemoveStagedEntry`, of the entry built last.  No caller reads its failure. -/
def removeStagedEntry : Op Unit :=
  Op.modify fun e => { e with staging := e.staging.tail }

/-- Runs a step on the entry built last, and removes that entry when the step fails. -/
def removingStagedOnFailure {α : Type} (m : Op α) : Op α := do
  match ← Op.attempt m with
  | .ok a => pure a
  | .error status => do
    removeStagedEntry
    Op.fail status

/-- Builds an entry in the staging area.  A build that fails half way leaves none. -/
def stageEntry (t : Tree) : Op Unit := do
  Op.modify fun e => { e with staging := t :: e.staging }
  removingStagedOnFailure (diskStep .stage)

/-- `MoveUpperEntry` from the staging area to the upper, `ReplaceExisting::No`.
When the records cannot move, the entry moves back. -/
def moveStaged (p : RelPath) (t : Tree) : Op Unit := do
  diskStep .commit
  placeEntry p t
  Op.modify fun e => { e with staging := e.staging.tail }
  match ← Op.attempt (diskStep .moveRecord) with
  | .ok _ => pure ()
  | .error status => do
    Op.modify fun e => { e.putUpper p none with staging := t :: e.staging }
    Op.fail status

/-- The move of a staged entry, which goes when it cannot move. -/
def commitStaged (p : RelPath) (t : Tree) : Op Unit :=
  removingStagedOnFailure (moveStaged p t)

/-- `MoveUpperEntryOnDisk`.  A rename replaces a file by a file only. -/
def moveUpperEntryOnDisk (source target : RelPath) (replace : Bool) : Op Unit := do
  diskStep .move
  let e ← Op.get
  match e.upperAt source with
  | none => Op.fail .objectNameNotFound
  | some t =>
    if source = target then pure ()
    else if isInsideDirectory target source then Op.fail .accessDenied
    else if !leadsToDirectory (e.upperAt target.dropLast) then Op.fail .objectPathNotFound
    else
      match e.upperAt target with
      | none => Op.modify fun e => (e.putUpper source none).putUpper target (some t)
      | some replaced =>
        if !replace then Op.fail .objectNameCollision
        else if treeKind replaced ≠ .file || treeKind t ≠ .file then Op.fail .accessDenied
        else Op.modify fun e => (e.putUpper source none).putUpper target (some t)

/-- `MoveUpperEntry`.  When the records cannot move, the entry moves back, and an
entry it replaced is gone. -/
def moveUpperEntry (source target : RelPath) (replace : Bool) : Op Unit := do
  moveUpperEntryOnDisk source target replace
  match ← Op.attempt (diskStep .moveRecord) with
  | .ok _ => pure ()
  | .error status =>
    match ← Op.attempt (moveUpperEntryOnDisk target source false) with
    | .ok _ => Op.fail status
    | .error _ => Op.modify fun e => { e with undoFailed := true }

/-- `MoveUpperEntryLeavingStuckRecords`. -/
def moveUpperEntryLeavingStuckRecords (source target : RelPath) (replace : Bool) : Op Unit :=
  moveUpperEntryOnDisk source target replace

/-- `MoveUpperEntryAside`: the entry that moved, if there was one. -/
def moveUpperEntryAside (p : RelPath) : Op (Option Tree) := do
  let e ← Op.get
  match e.upperAt p with
  | none => pure none
  | some t => do
    diskStep .setAside
    diskStep .moveRecord
    Op.modify fun e => e.putUpper p none
    pure (some t)

/-- What `fs::remove_all` leaves when it fails: the directory, and below it what the host
had not deleted yet.  It deletes a link as an entry and does not go into its target. -/
def partlyRemoved (host : UpperHost) (t : Tree) : Tree :=
  t.prune (fun d => !d.link) host.survives

/-- `RemoveUpperEntryOfKind`, of an entry that is there.  Of a file or a link
`partlyRemoved` leaves all. -/
def removeUpperEntryOfKind (p : RelPath) : Op Unit := do
  match ← Op.attempt (diskStep .removeEntry) with
  | .ok _ => Op.modify fun e => e.putUpper p none
  | .error status => do
    Op.modify fun e => e.putUpper p ((e.upperAt p).map (partlyRemoved e.host))
    Op.fail status

/-- `RemoveUpperEntry`. -/
def removeUpperEntry (p : RelPath) : Op Unit := do
  let e ← Op.get
  if (e.upperAt p).isSome then removeUpperEntryOfKind p else pure ()

/-- A new file object, and its name. -/
def newFile (f : FileObj) : Op FileId := do
  let e ← Op.get
  Op.modify fun e => { e with files := e.files ++ [f] }
  pure e.files.length

end LayerMount
