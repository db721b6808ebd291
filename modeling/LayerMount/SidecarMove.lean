import LayerMount.Layer
import LayerMount.MetadataStore
import LayerMount.Lib.PathTree

/-!
# Sidecar records of a moved entry

On a host without alternate data streams a record is a file of the sidecar directory,
keyed by the path of its entry.  So `MoveUpperEntry` moves the records too: it walks the
tree that it moved, and moves two files for each entry.  When a file cannot move it moves
back what it moved, and when the entry cannot move back it walks a second time.

The key of a record is the hash of its path in lower case.  Two such paths are taken to
have two keys, so that here the folded path is the key.  What the host answers to each
call is a parameter, keyed by the entry that the call is for.

`Followed` is what the move of some entries' records does: their files are at the new keys,
none is at the old ones, and every other file is as before.
-/

namespace LayerMount.Sidecar

open LayerMount.Lib

/-! ## The record files -/

/-- `kMetaSuffix` and `kOpaqueSuffix`. -/
inductive RecordSuffix where
  | metaJson
  | opaqueMarker
  deriving DecidableEq, Repr

structure RecordFile where
  base : RelPath
  suffix : RecordSuffix
  deriving DecidableEq, Repr

/-- The record files of the sidecar directory, with what is in them. -/
abbrev RecordFiles := RecordFile → Option (List UInt8)

/-- The errors, other than a missing file, of the two calls of `MoveRecordFile`. -/
structure FileAnswers where
  move : Option NtStatus := none
  delete : Option NtStatus := none
  deriving DecidableEq, Repr

/-- `MoveRecordFile`.  A status of `none` is success, here and below. -/
def moveRecordFile (answers : FileAnswers) (source target : RecordFile) (files : RecordFiles) :
    Option NtStatus × RecordFiles :=
  match answers.move with
  | some moveErr => (some moveErr, files)
  | none =>
    match files source with
    | some content =>
      (none, Function.update (Function.update files target (some content)) source none)
    | none =>
      match answers.delete with
      | some deleteErr => (some deleteErr, files)
      | none => (none, Function.update files target none)

structure MoveAnswers where
  /-- The move of the record. -/
  record : FileAnswers := {}
  /-- The move of the opaque marker. -/
  marker : FileAnswers := {}
  /-- The move back of the record, after the marker could not move. -/
  recordBack : FileAnswers := {}
  deriving DecidableEq, Repr

/-- `SidecarMetadata::Move`. -/
def move (answers : MoveAnswers) (fromPath toPath : RelPath) (files : RecordFiles) :
    Option NtStatus × RecordFiles :=
  if fromPath = toPath then (none, files)
  else
    match moveRecordFile answers.record ⟨fromPath, .metaJson⟩ ⟨toPath, .metaJson⟩ files with
    | (some metaErr, moved) => (some metaErr, moved)
    | (none, moved) =>
      match moveRecordFile answers.marker ⟨fromPath, .opaqueMarker⟩ ⟨toPath, .opaqueMarker⟩
          moved with
      | (some opaqueErr, moved) =>
        (some opaqueErr, (moveRecordFile answers.recordBack ⟨toPath, .metaJson⟩
          ⟨fromPath, .metaJson⟩ moved).2)
      | (none, moved) => (none, moved)

/-- The answers to the second walk's calls for one entry. -/
structure StuckAnswers extends MoveAnswers where
  /-- `GetFileAttributesW` in `HasRecord`. -/
  readsRecord : Bool := true
  removesRecord : Bool := true
  removesMarker : Bool := true
  deriving DecidableEq, Repr

def hasRecord (readsRecord : Bool) (path : RelPath) (files : RecordFiles) : Bool :=
  readsRecord && (files ⟨path, .metaJson⟩).isSome

/-- `SidecarMetadata::Remove` and `RemoveOpaque`, whose results nothing reads here. -/
def removeRecordFile (removes : Bool) (file : RecordFile) (files : RecordFiles) : RecordFiles :=
  if removes then Function.update files file none else files

def removeRecordsOfReplacedEntry (answers : StuckAnswers) (fromPath toPath : RelPath)
    (files : RecordFiles) : RecordFiles :=
  let movedEntryKeptItsRecordAtFromPath := hasRecord answers.readsRecord fromPath files
  let files :=
    if movedEntryKeptItsRecordAtFromPath then
      removeRecordFile answers.removesRecord ⟨toPath, .metaJson⟩ files
    else files
  removeRecordFile answers.removesMarker ⟨toPath, .opaqueMarker⟩ files

/-! ## The walk of a moved tree -/

/-- An entry that no walk enters.  A directory whose reparse tag cannot be read counts as a
link. -/
inductive NonDirectory where
  | file
  | link
  deriving DecidableEq, Repr

abbrev Entries := PathTree Name NonDirectory Unit

/-- The entry at a path of the upper, with what is below it. -/
structure UpperTree where
  entries : Entries
  distinct : entries.Distinct

/-- A listing ends with an error, after so many entries. -/
structure ListingFault where
  after : Nat
  error : NtStatus
  deriving DecidableEq, Repr

/-- What a walk has done: the error of a visit, the first error of a listing, and what the
visits keep. -/
structure Walk (σ : Type) where
  status : Option NtStatus := none
  listingError : Option NtStatus := none
  state : σ

namespace Walk

variable {σ : Type}

def keepFirstListingError (w : Walk σ) (error : NtStatus) : Walk σ :=
  { w with listingError := w.listingError.or (some error) }

def visited (w : Walk σ) (r : Option NtStatus × σ) : Walk σ :=
  { w with status := r.1, state := r.2 }

/-- The status that `ForEachEntryBelow` returns. -/
def result (w : Walk σ) : Option NtStatus := w.status.or w.listingError

end Walk

section Walks

variable {σ : Type} (visit : RelPath → σ → Option NtStatus × σ)
  (listing : RelPath → Option ListingFault)

mutual

/-- `VisitEntriesBelow`.  It is called for a directory only. -/
def visitEntriesBelow (dirPath : RelPath) : Entries → Walk σ → Walk σ
  | .leaf _, w => w
  | .node _ children, w => visitListed dirPath (listing dirPath) children w

/-- The loop of `VisitEntriesBelow`, from where the listing has come to. -/
def visitListed (dirPath : RelPath) (fault : Option ListingFault) :
    List (Name × Entries) → Walk σ → Walk σ
  | [], w =>
    match fault with
    | none => w
    | some fault => w.keepFirstListingError fault.error
  | (name, entry) :: rest, w =>
    match fault with
    | some ⟨0, error⟩ => w.keepFirstListingError error
    | fault =>
      let seen := w.visited (visit (dirPath ++ [name]) w.state)
      match seen.status with
      | some _ => seen
      | none =>
        let below := visitEntriesBelow (dirPath ++ [name]) entry seen
        match below.status with
        | some _ => below
        | none =>
          visitListed dirPath (fault.map fun f => { f with after := f.after - 1 }) rest below

end

end Walks

def forEachEntryBelow {σ : Type} (visit : RelPath → σ → Option NtStatus × σ)
    (listing : RelPath → Option ListingFault) (dirPath : RelPath) (entry : Entries) (s : σ) :
    Option NtStatus × σ :=
  let w := visitEntriesBelow visit listing dirPath entry { state := s }
  (w.result, w.state)

/-- `IsDirectoryButNotLink`.  A directory whose attributes or tag cannot be read counts as
none. -/
def isDirectoryButNotLink (readsKind : Bool) : Entries → Bool
  | .leaf _ => false
  | .node _ _ => readsKind

/-- `ForEachMovedEntry`, of the entry that is now at `to`. -/
def forEachMovedEntry {σ : Type} (visit : RelPath → RelPath → σ → Option NtStatus × σ)
    (readsKind : Bool) (listing : RelPath → Option ListingFault) (source target : RelPath)
    (entry : Entries) (s : σ) : Option NtStatus × σ :=
  let r := visit source target s
  if r.1.isSome || !isDirectoryButNotLink readsKind entry then r
  else
    forEachEntryBelow
      (fun movedPath => visit (source ++ movedPath.drop target.length) movedPath)
      listing target entry r.2

/-! ## The records of a moved tree -/

structure MovedSidecarRecord where
  fromPath : RelPath
  toPath : RelPath
  deriving DecidableEq, Repr

/-- What the host answers to one `MoveUpperEntry`.  The answers for an entry are keyed by
its old path, and those for a listing by the directory's new path. -/
structure HostAnswers where
  onDisk : Option NtStatus := none
  records : RelPath → MoveAnswers := fun _ => {}
  /-- `IsDirectoryButNotLink` reads the moved entry's attributes and tag. -/
  readsKind : Bool := true
  listing : RelPath → Option ListingFault := fun _ => none
  backOnDisk : Option NtStatus := none
  recordsBack : RelPath → MoveAnswers := fun _ => {}
  stuckRecords : RelPath → StuckAnswers := fun _ => {}
  /-- The same read in the second walk. -/
  stuckReadsKind : Bool := true
  stuckListing : RelPath → Option ListingFault := fun _ => none

/-- The record files, and the records that the walk has moved so far. -/
structure RecordWalk where
  files : RecordFiles
  moved : List MovedSidecarRecord := []

def visitMovedRecord (answers : RelPath → MoveAnswers) (fromPath toPath : RelPath)
    (s : RecordWalk) : Option NtStatus × RecordWalk :=
  match move (answers fromPath) fromPath toPath s.files with
  | (some status, files) => (some status, { s with files })
  | (none, files) => (none, { files, moved := s.moved ++ [⟨fromPath, toPath⟩] })

/-- `MetadataStore::MoveSidecarRecords`. -/
def moveSidecarRecords (config : StoreConfig) (answers : HostAnswers) (source target : RelPath)
    (entry : Entries) (files : RecordFiles) : Option NtStatus × RecordWalk :=
  if !useSidecarFor (some config) then (none, { files })
  else
    forEachMovedEntry (visitMovedRecord answers.records) answers.readsKind answers.listing
      source target entry { files }

/-- The record files, and the error of the first record that could not move. -/
structure StuckWalk where
  files : RecordFiles
  firstError : Option NtStatus := none

def visitStuckRecord (answers : RelPath → StuckAnswers) (fromPath toPath : RelPath)
    (s : StuckWalk) : Option NtStatus × StuckWalk :=
  match move (answers fromPath).toMoveAnswers fromPath toPath s.files with
  | (none, files) => (none, { s with files })
  | (some status, files) =>
    (none,
      { files := removeRecordsOfReplacedEntry (answers fromPath) fromPath toPath files
        firstError := s.firstError.or (some status) })

/-- `MetadataStore::MoveSidecarRecordsLeavingStuckOnes`. -/
def moveSidecarRecordsLeavingStuckOnes (config : StoreConfig) (answers : HostAnswers)
    (source target : RelPath) (entry : Entries) (files : RecordFiles) :
    Option NtStatus × RecordFiles :=
  if !useSidecarFor (some config) then (none, files)
  else
    let (walkStatus, s) := forEachMovedEntry (visitStuckRecord answers.stuckRecords)
      answers.stuckReadsKind answers.stuckListing source target entry { files }
    (s.firstError.or walkStatus, s.files)

/-- One pass of the loop of `MoveSidecarRecordsBack`. -/
def moveRecordBack (answers : RelPath → MoveAnswers) (s : StuckWalk)
    (record : MovedSidecarRecord) : StuckWalk :=
  let (status, files) := move (answers record.fromPath) record.toPath record.fromPath s.files
  { files, firstError := s.firstError.or status }

/-- `MetadataStore::MoveSidecarRecordsBack`. -/
def moveSidecarRecordsBack (answers : HostAnswers) (moved : List MovedSidecarRecord)
    (files : RecordFiles) : Option NtStatus × RecordFiles :=
  let s := moved.reverse.foldl (moveRecordBack answers.recordsBack) { files }
  (s.firstError, s.files)

/-! ## The move of an entry -/

inductive ReplaceExisting where
  | no
  | yes
  deriving DecidableEq, Repr

structure UpperEntryMove where
  status : Option NtStatus
  recordLeftBehind : Option NtStatus
  deriving DecidableEq, Repr

/-- The upper directory: the entries at the two paths of a move, and the records. -/
structure UpperState where
  entryAt : RelPath → Option UpperTree
  files : RecordFiles

/-- `MoveUpperEntryOnDisk`: a rename within the volume. -/
def moveUpperEntryOnDisk (answer : Option NtStatus) (source target : RelPath)
    (replace : ReplaceExisting) (s : UpperState) : Option NtStatus × UpperState :=
  match answer with
  | some status => (some status, s)
  | none =>
    match s.entryAt source with
    | none => (some .objectNameNotFound, s)
    | some entry =>
      if (s.entryAt target).isSome && replace = .no then (some .objectNameCollision, s)
      else
        (none, { s with
          entryAt := Function.update (Function.update s.entryAt target (some entry)) source none })

/-- The entry that a walk of `path` meets. -/
def UpperState.walked (s : UpperState) (path : RelPath) : Entries :=
  ((s.entryAt path).map UpperTree.entries).getD (.leaf .file)

/-- What `MoveUpperEntry` does after a record could not move. -/
def undoMove (config : StoreConfig) (answers : HostAnswers) (source target : RelPath)
    (recordStatus : NtStatus) (moved : List MovedSidecarRecord) (s : UpperState) :
    UpperEntryMove × UpperState :=
  let (entryBack, s) := moveUpperEntryOnDisk answers.backOnDisk target source .no s
  let (recordsBack, files) := moveSidecarRecordsBack answers moved s.files
  match entryBack, recordsBack with
  | none, recordsBack => (⟨some recordStatus, recordsBack⟩, { s with files })
  | some _, some recordsBack => (⟨none, some recordsBack⟩, { s with files })
  | some _, none =>
    let (left, files) := moveSidecarRecordsLeavingStuckOnes config answers source target
      (s.walked target) files
    (⟨none, left⟩, { s with files })

def moveUpperEntry (config : StoreConfig) (answers : HostAnswers) (source target : RelPath)
    (replace : ReplaceExisting) (s : UpperState) : UpperEntryMove × UpperState :=
  match moveUpperEntryOnDisk answers.onDisk source target replace s with
  | (some status, s) => (⟨some status, none⟩, s)
  | (none, s) =>
    match moveSidecarRecords config answers source target (s.walked target) s.files with
    | (none, w) => (⟨none, none⟩, { s with files := w.files })
    | (some recordStatus, w) =>
      undoMove config answers source target recordStatus w.moved { s with files := w.files }

/-! ## What one move does -/

def FileAnswers.accepts (answers : FileAnswers) (present : Bool) : Bool :=
  answers.move.isNone && (present || answers.delete.isNone)

theorem moveRecordFile_accepted {answers : FileAnswers} {source target : RecordFile}
    {files : RecordFiles} (h : answers.accepts (files source).isSome = true) :
    moveRecordFile answers source target files =
      (none, Function.update (Function.update files target (files source)) source none) := by
  unfold FileAnswers.accepts at h
  unfold moveRecordFile
  cases hmove : answers.move with
  | some err => simp [hmove] at h
  | none =>
    cases hs : files source with
    | some content => rfl
    | none =>
      have hdelete : answers.delete = none := by simpa [hmove, hs] using h
      simp only [hdelete, Prod.mk.injEq, true_and]
      -- nothing is at the source, so clearing it changes nothing
      funext k
      by_cases hk : k = source
      · subst hk
        by_cases ht : k = target
        · subst ht
          simp
        · simp [ht, hs]
      · simp [hk]

theorem moveRecordFile_refused {answers : FileAnswers} {source : RecordFile}
    {files : RecordFiles} (target : RecordFile)
    (h : answers.accepts (files source).isSome = false) :
    ∃ status, moveRecordFile answers source target files = (some status, files) := by
  unfold FileAnswers.accepts at h
  unfold moveRecordFile
  cases hmove : answers.move with
  | some err => exact ⟨err, rfl⟩
  | none =>
    cases hs : files source with
    | some content => simp [hmove, hs] at h
    | none =>
      cases hdelete : answers.delete with
      | some err => exact ⟨err, rfl⟩
      | none => simp [hmove, hs, hdelete] at h

/-- Both files of the entry at `fromPath` can move. -/
def MoveAnswers.accepts (answers : MoveAnswers) (files : RecordFiles) (fromPath : RelPath) :
    Bool :=
  answers.record.accepts (files ⟨fromPath, .metaJson⟩).isSome &&
    answers.marker.accepts (files ⟨fromPath, .opaqueMarker⟩).isSome

/-- The record of the entry at `fromPath` moves, its marker cannot, and the record cannot
move back. -/
def MoveAnswers.losesRecord (answers : MoveAnswers) (files : RecordFiles)
    (fromPath : RelPath) : Bool :=
  (files ⟨fromPath, .metaJson⟩).isSome && answers.record.accepts true &&
    !answers.marker.accepts (files ⟨fromPath, .opaqueMarker⟩).isSome &&
    !answers.recordBack.accepts true

/-- The records of the entries `E` below `source` are those below `target`, and no other
record has changed. -/
structure Followed (source target : RelPath) (E : RelPath → Prop)
    (before after : RecordFiles) : Prop where
  arrived : ∀ e, E e → ∀ x, after ⟨target ++ e, x⟩ = before ⟨source ++ e, x⟩
  gone : ∀ e, E e → ∀ x, after ⟨source ++ e, x⟩ = none
  kept : ∀ k : RecordFile, (∀ e, E e → k.base ≠ source ++ e ∧ k.base ≠ target ++ e) →
    after k = before k

/-- Neither of two paths is above the other. -/
structure Apart (source target : RelPath) : Prop where
  not_above : ¬ source <+: target
  not_below : ¬ target <+: source

theorem Apart.symm {source target : RelPath} (h : Apart source target) : Apart target source :=
  ⟨h.not_below, h.not_above⟩

theorem Apart.ne {source target : RelPath} (h : Apart source target) (a b : RelPath) :
    source ++ a ≠ target ++ b := by
  intro heq
  have hs : source <+: target ++ b := ⟨a, heq⟩
  rcases List.prefix_or_prefix_of_prefix hs (List.prefix_append target b) with hp | hp
  · exact h.not_above hp
  · exact h.not_below hp

section Moves

variable {source target e : RelPath} {files before middle after : RecordFiles}
  {E F : RelPath → Prop} {answers : MoveAnswers}

theorem opaqueMarker_ne_metaJson (p q : RelPath) :
    (⟨p, .opaqueMarker⟩ : RecordFile) ≠ ⟨q, .metaJson⟩ := by
  intro heq
  cases heq

theorem ne_of_base_ne {k : RecordFile} {p : RelPath} {x : RecordSuffix}
    (h : k.base ≠ p) : k ≠ ⟨p, x⟩ := by
  rintro rfl
  exact h rfl

theorem move_accepted (hapart : Apart source target)
    (h : answers.accepts files (source ++ e) = true) :
    (move answers (source ++ e) (target ++ e) files).1 = none ∧
      Followed source target (· = e) files
        (move answers (source ++ e) (target ++ e) files).2 := by
  obtain ⟨hrecord, hmarker⟩ := Bool.and_eq_true_iff.mp h
  have hfiles : ∀ x, (⟨source ++ e, x⟩ : RecordFile) ≠ ⟨target ++ e, x⟩ := fun x =>
    ne_of_base_ne (hapart.ne e e)
  unfold move
  rw [if_neg (hapart.ne e e), moveRecordFile_accepted hrecord]
  dsimp only
  rw [moveRecordFile_accepted (by simpa [opaqueMarker_ne_metaJson] using hmarker)]
  refine ⟨rfl, ⟨?_, ?_, ?_⟩⟩
  · rintro _ rfl x
    cases x <;> simp [(hfiles _).symm, Ne.symm (opaqueMarker_ne_metaJson _ _)]
  · rintro _ rfl x
    cases x <;> simp [Ne.symm (opaqueMarker_ne_metaJson _ _)]
  · intro k hk
    obtain ⟨hks, hkt⟩ := hk e rfl
    simp [ne_of_base_ne hks, ne_of_base_ne hkt]

/-- A move that fails has changed no marker, and the record of its entry is gone from its
old key only when it could not move back.  What was at the new key is gone once the record
has moved. -/
theorem move_refused (hapart : Apart source target)
    (h : answers.accepts files (source ++ e) = false) :
    (move answers (source ++ e) (target ++ e) files).1 ≠ none ∧
      (∀ k, k ≠ ⟨source ++ e, .metaJson⟩ → k ≠ ⟨target ++ e, .metaJson⟩ →
        (move answers (source ++ e) (target ++ e) files).2 k = files k) ∧
      (move answers (source ++ e) (target ++ e) files).2 ⟨source ++ e, .metaJson⟩ =
        (if answers.losesRecord files (source ++ e) then none
        else files ⟨source ++ e, .metaJson⟩) ∧
      (move answers (source ++ e) (target ++ e) files).2 ⟨target ++ e, .metaJson⟩ =
        if answers.record.accepts (files ⟨source ++ e, .metaJson⟩).isSome then
          if answers.losesRecord files (source ++ e) then files ⟨source ++ e, .metaJson⟩ else none
        else files ⟨target ++ e, .metaJson⟩ := by
  have hfile : (⟨source ++ e, .metaJson⟩ : RecordFile) ≠ ⟨target ++ e, .metaJson⟩ :=
    ne_of_base_ne (hapart.ne e e)
  unfold move MoveAnswers.losesRecord
  rw [if_neg (hapart.ne e e)]
  cases hrecord : answers.record.accepts (files ⟨source ++ e, .metaJson⟩).isSome with
  | false =>
    obtain ⟨status, hmove⟩ := moveRecordFile_refused ⟨target ++ e, .metaJson⟩ hrecord
    rw [hmove]
    refine ⟨by simp, by intros; rfl, ?_, by simp⟩
    cases hpresent : (files ⟨source ++ e, .metaJson⟩).isSome with
    | false => simp
    | true =>
      rw [hpresent] at hrecord
      simp [hrecord]
  | true =>
    have hmarker : answers.marker.accepts (files ⟨source ++ e, .opaqueMarker⟩).isSome = false := by
      simpa [MoveAnswers.accepts, hrecord] using h
    rw [moveRecordFile_accepted hrecord]
    set moved := Function.update (Function.update files ⟨target ++ e, .metaJson⟩
      (files ⟨source ++ e, .metaJson⟩)) ⟨source ++ e, .metaJson⟩ none with hmoved
    have hthere : moved ⟨target ++ e, .metaJson⟩ = files ⟨source ++ e, .metaJson⟩ := by
      simp [hmoved, hfile.symm]
    have hmarker' : answers.marker.accepts (moved ⟨source ++ e, .opaqueMarker⟩).isSome = false := by
      simpa [hmoved, opaqueMarker_ne_metaJson] using hmarker
    obtain ⟨status, hmove⟩ := moveRecordFile_refused ⟨target ++ e, .opaqueMarker⟩ hmarker'
    dsimp only
    rw [hmove]
    dsimp only
    cases hback : answers.recordBack.accepts (files ⟨source ++ e, .metaJson⟩).isSome with
    | true =>
      rw [moveRecordFile_accepted (by rwa [hthere])]
      refine ⟨by simp, ?_, ?_, ?_⟩
      · intro k hks hkt
        simp [hmoved, hks, hkt]
      · cases hpresent : (files ⟨source ++ e, .metaJson⟩).isSome with
        | false => simp [hthere, hfile]
        | true =>
          rw [hpresent] at hback
          simp [hthere, hback, hfile]
      · cases hpresent : (files ⟨source ++ e, .metaJson⟩).isSome with
        | false => simp
        | true =>
          rw [hpresent] at hback
          simp [hback]
    | false =>
      have hback' : answers.recordBack.accepts (moved ⟨target ++ e, .metaJson⟩).isSome = false := by
        rwa [hthere]
      obtain ⟨backStatus, hstays⟩ := moveRecordFile_refused ⟨source ++ e, .metaJson⟩ hback'
      rw [hstays]
      refine ⟨by simp, ?_, ?_, ?_⟩
      · intro k hks hkt
        simp [hmoved, hks, hkt]
      · cases hpresent : (files ⟨source ++ e, .metaJson⟩).isSome with
        | false =>
          have habsent : files ⟨source ++ e, .metaJson⟩ = none := by simpa using hpresent
          simp [hmoved, habsent]
        | true =>
          rw [hpresent] at hback hrecord
          simp [hmoved, hrecord, hmarker, hback]
      · cases hpresent : (files ⟨source ++ e, .metaJson⟩).isSome with
        | false =>
          have habsent : files ⟨source ++ e, .metaJson⟩ = none := by simpa using hpresent
          simp [hthere, habsent]
        | true =>
          rw [hpresent] at hback hrecord
          simp [hthere, hrecord, hmarker, hback]

theorem Followed.congr (h : Followed source target E before after) (hEF : ∀ e, E e ↔ F e) :
    Followed source target F before after where
  arrived e he := h.arrived e ((hEF e).mpr he)
  gone e he := h.gone e ((hEF e).mpr he)
  kept k hk := h.kept k fun e he => hk e ((hEF e).mp he)

theorem Followed.nothing (files : RecordFiles) :
    Followed source target (fun _ => False) files files where
  arrived _ he := he.elim
  gone _ he := he.elim
  kept _ _ := rfl

/-- The records of an entry that has not moved are as they were. -/
theorem Followed.source_kept (h : Followed source target E before after)
    (hapart : Apart source target) (he : ¬ E e) (x : RecordSuffix) :
    after ⟨source ++ e, x⟩ = before ⟨source ++ e, x⟩ := by
  apply h.kept
  intro a ha
  constructor
  · intro heq
    obtain rfl : e = a := by simpa using heq
    exact he ha
  · exact hapart.ne e a

theorem Followed.target_kept (h : Followed source target E before after)
    (hapart : Apart source target) (he : ¬ E e) (x : RecordSuffix) :
    after ⟨target ++ e, x⟩ = before ⟨target ++ e, x⟩ := by
  apply h.kept
  intro a ha
  constructor
  · exact (hapart.ne a e).symm
  · intro heq
    obtain rfl : e = a := by simpa using heq
    exact he ha

theorem Followed.accepts_iff (h : Followed source target E before after)
    (hapart : Apart source target) (he : ¬ E e) (answers : MoveAnswers) :
    answers.accepts after (source ++ e) = answers.accepts before (source ++ e) := by
  unfold MoveAnswers.accepts
  rw [h.source_kept hapart he, h.source_kept hapart he]

/-- Moves of different entries add up. -/
theorem Followed.trans (h : Followed source target E before middle)
    (h' : Followed source target F middle after) (hapart : Apart source target)
    (hdisjoint : ∀ e, E e → ¬ F e) :
    Followed source target (fun e => E e ∨ F e) before after where
  arrived := by
    intro e he x
    rcases he with he | he
    · rw [h'.kept, h.arrived e he x]
      intro a ha
      refine ⟨(hapart.ne a e).symm, ?_⟩
      intro heq
      obtain rfl : e = a := by simpa using heq
      exact hdisjoint e he ha
    · rw [h'.arrived e he x]
      apply h.source_kept hapart
      intro hE
      exact hdisjoint e hE he
  gone := by
    intro e he x
    by_cases hF : F e
    · exact h'.gone e hF x
    · rw [h'.source_kept hapart hF]
      exact h.gone e (he.resolve_right hF) x
  kept := by
    intro k hk
    rw [h'.kept k fun e he => hk e (Or.inr he), h.kept k fun e he => hk e (Or.inl he)]

end Moves

end LayerMount.Sidecar
