import LayerMount.WorkDirectory
import Mathlib.Data.List.Forall2

/-!
# The staging area

The recursive delete of `LayerPath.cpp` and the open of `WorkDirectory.cpp`, which deletes
what a past run left in the staging area.  Every step of the host can fail, and a link is
deleted as an entry.

`deleteTree_removesBelow` says what a delete takes: entries at or below the place where
its path leads, and no others.  `staging_apart` is the layout rule read over it: where
`GetFullPathNameW` leaves the final paths of an accepted layout as they are, the staging
area is apart from the lowers and from what the upper shows, and no delete in it takes an
entry of theirs.
-/

namespace LayerMount.WorkDir

open Lib PathText

def kErrorFileNotFound : UInt32 := 2
def kErrorPathNotFound : UInt32 := 3
def kErrorSharingViolation : UInt32 := 32
def kErrorDirNotEmpty : UInt32 := 145
def kErrorBusy : UInt32 := 170
def kErrorAlreadyExists : UInt32 := 183
def kErrorFilenameExcedRange : UInt32 := 206

/-- The characters of a path that an open takes. -/
def kMaxPathLength : Nat := 32767

def kWorkDirectoryLockName : WideString := encodeUtf16 ".layermount.lock".toList

def kUpperLockName : WideString := encodeUtf16 ".layermount.upper.lock".toList

/-- The calls of the host that can fail. -/
inductive HostStep where
  | openEntry
  | readBasicInfo
  | readTag
  | listDirectory
  | clearReadOnly
  | markForDelete
  | openLock
  | createDirectory
  deriving DecidableEq, Repr

/-- The Win32 error of a call on a path, when it fails. -/
abbrev Faults := HostStep → WideString → Option UInt32

structure StagedEntryDeleteFailure where
  path : WideString
  error : UInt32
  deriving DecidableEq, Repr

/-- A delete under way: the host, the paths deleted so far, and the failure that stopped
it. -/
structure Deletion where
  host : Host
  deleted : List WideString := []
  failure : Option StagedEntryDeleteFailure := none

/-! ## The source's functions -/

def isGone (error : UInt32) : Bool := error = kErrorFileNotFound || error = kErrorPathNotFound

def hresultFromWin32 (error : UInt32) : UInt32 :=
  if error = 0 || 0x80000000 ≤ error then error else error &&& 0xFFFF ||| 0x80070000

def Deletion.fail (s : Deletion) (path : WideString) (error : UInt32) : Deletion :=
  { s with failure := some { path, error } }

section

variable (reader : PathReader) (faults : Faults)

/-- Where an open of the path itself leads. -/
def located (h : Host) (path : WideString) : Option (Location × HostEntry) :=
  (win32Path reader path).bind h.locate

def openForTreeDelete (h : Host) (path : WideString) : Except UInt32 (Location × HostEntry) :=
  match faults .openEntry path with
  | some error => .error error
  | none =>
    match located reader h path with
    | none => .error kErrorFileNotFound
    | some found => .ok found

def entersEntry (path : WideString) (entry : HostEntry) : Except UInt32 Bool :=
  if !entry.directory then .ok false
  else if !entry.reparsePoint then .ok true
  else
    match faults .readTag path with
    | some error => .error error
    | none => .ok (!entry.nameSurrogate)

/-- `ClearReadOnly` and `MarkForDelete`.  A directory goes when nothing is in it. -/
def markForDelete (s : Deletion) (path : WideString) (loc : Location) : Deletion :=
  match faults .clearReadOnly path, faults .markForDelete path with
  | some error, _ => s.fail path error
  | none, some error => s.fail path error
  | none, none =>
    if !(s.host.names loc).isEmpty then s.fail path kErrorDirNotEmpty
    else { s with host := s.host.remove loc, deleted := s.deleted ++ [path] }

/-- The loop of `DeleteTree` over the names of a directory. -/
def deleteNames (delete : WideString → Deletion → Deletion) (path : WideString) :
    List WideString → Deletion → Deletion
  | [], s => s
  | name :: names, s =>
    let s := delete (joinDirPath path name) s
    if s.failure.isSome then s else deleteNames delete path names s

/-- `DeleteTree` before it deletes the entry itself: what is in a directory that it
enters. -/
def deleteInside (delete : WideString → Deletion → Deletion) (path : WideString) (loc : Location)
    (s : Deletion) : Deletion :=
  match faults .listDirectory path with
  | some error => s.fail path error
  | none => deleteNames delete path (s.host.names loc) s

/-- `DeleteTree`, as far down as a path can get. -/
def deleteTree : Nat → WideString → Deletion → Deletion
  | 0, path, s => s.fail path kErrorFilenameExcedRange
  | levels + 1, path, s =>
    match openForTreeDelete reader faults s.host path with
    | .error error => if isGone error then s else s.fail path error
    | .ok (loc, entry) =>
      match faults .readBasicInfo path, entersEntry faults path entry with
      | some error, _ => s.fail path error
      | none, .error error => s.fail path error
      | none, .ok enters =>
        let emptied := if enters then deleteInside faults (deleteTree levels) path loc s else s
        if emptied.failure.isSome then emptied else markForDelete faults emptied path loc

/-- `RemoveStagedEntry`, but for the sidecar records of what it deleted. -/
def removeStagedEntry (h : Host) (path : WideString) : Deletion :=
  deleteTree reader faults (kMaxPathLength + 1 - path.length) path { host := h }

/-- A new entry at a path. -/
def createEntry (h : Host) (path : WideString) (e : HostEntry) : Except UInt32 Host :=
  match win32Path reader path with
  | none => .error kErrorPathNotFound
  | some names =>
    match names.getLast?, h.resolve names.dropLast with
    | some name, some loc =>
      if hfree : h.isFree loc name = true then .ok (Host.add e (Host.free_of_isFree hfree))
      else if (h.find loc name).isSome then .error kErrorAlreadyExists
      else .error kErrorPathNotFound
    | _, _ => .error kErrorPathNotFound

/-- The open of a lock file, which creates it when there is none. -/
def openLock (h : Host) (lockPath : WideString) : Except UInt32 Host :=
  match faults .openLock lockPath with
  | some error => .error error
  | none =>
    match located reader h lockPath with
    | some _ => .ok h
    | none => createEntry reader h lockPath { directory := false }

def createDirectory (h : Host) (path : WideString) : Except UInt32 Host :=
  match faults .createDirectory path with
  | some error => .error error
  | none => createEntry reader h path { directory := true }

def takeLock (h : Host) (lockDirectory lockName directory role : WideString) :
    Except OpenFailure Host :=
  match openLock reader faults h (joinDirPath (forWin32 reader lockDirectory) lockName) with
  | .ok h => .ok h
  | .error error =>
    if error = kErrorSharingViolation then
      .error
        { result := hresultFromWin32 kErrorBusy
          error := encodeUtf16 "The ".toList ++ role ++
            encodeUtf16 " is in use by another overlay: ".toList ++ directory }
    else
      .error
        { result := hresultFromWin32 error
          error := encodeUtf16 "Failed to lock the ".toList ++ role ++
            encodeUtf16 ": ".toList ++ directory }

/-- The directory of the upper's lock, created when it can be. -/
def withLockDirectory (h : Host) (upperPath : WideString) : Host :=
  match createDirectory reader faults h (joinDirPath upperPath kSidecarDirName) with
  | .ok h => h
  | .error _ => h

def lockUpper (h : Host) (upperPath : WideString) : Except OpenFailure Host :=
  takeLock reader faults (withLockDirectory reader faults h upperPath)
    (joinDirPath upperPath kSidecarDirName) kUpperLockName upperPath
    (encodeUtf16 "upper layer".toList)

def stagingAreaPath (workDirPath : WideString) : WideString :=
  joinDirPath workDirPath kStagingAreaName

/-- The result of `ResetStagingArea`, and the host it leaves. -/
def resetStagingArea (h : Host) (config : LayerConfig) : Except OpenFailure Unit × Host :=
  let staging := stagingAreaPath config.workDirPath
  let deletion := removeStagedEntry reader faults h staging
  match deletion.failure with
  | some failure =>
    (.error
      { result := hresultFromWin32 failure.error
        error := encodeUtf16 "Failed to delete a leftover entry from the work directory: ".toList ++
          failure.path }, deletion.host)
  | none =>
    match createDirectory reader faults deletion.host staging with
    | .error error =>
      (.error
        { result := hresultFromWin32 error
          error := encodeUtf16
            "Failed to create the staging area of the work directory: ".toList ++ staging },
        deletion.host)
    | .ok h => (.ok (), h)

/-- The two locks of an open.  The handles stay open, and what their close deletes is left
out. -/
def takeLocks (h : Host) (config : LayerConfig) : Except OpenFailure Unit × Host :=
  match takeLock reader faults h config.workDirPath kWorkDirectoryLockName config.workDirPath
      (encodeUtf16 "work directory".toList) with
  | .error failure => (.error failure, h)
  | .ok locked =>
    match lockUpper reader faults locked config.upperPath with
    | .error failure => (.error failure, withLockDirectory reader faults locked config.upperPath)
    | .ok locked => (.ok (), locked)

/-- `WorkDirectory::Open`: its result, and the host it leaves. -/
def openWorkDirectory (h : Host) (config : LayerConfig) : Except OpenFailure Unit × Host :=
  match checkLayoutWith config (writtenAndResolvedPath reader h) with
  | .error failure => (.error failure, h)
  | .ok () =>
    match takeLocks reader faults h config with
    | (.error failure, locked) => (.error failure, locked)
    | (.ok (), locked) => resetStagingArea reader faults locked config

end

/-! ## What a delete takes -/

/-- Nothing of a host is gone but entries at or below a place. -/
structure RemovesBelow (loc : Location) (before after : Host) : Prop where
  storedName : after.storedName = before.storedName
  kept : ∀ q, ¬ loc <+: q → after.entryAt q = before.entryAt q
  entries : ∀ q e, after.entryAt q = some e → before.entryAt q = some e

namespace RemovesBelow

variable {loc : Location} {a b c : Host}

theorem refl (loc : Location) (h : Host) : RemovesBelow loc h h :=
  ⟨rfl, fun _ _ => rfl, fun _ _ he => he⟩

theorem trans (hab : RemovesBelow loc a b) (hbc : RemovesBelow loc b c) : RemovesBelow loc a c where
  storedName := hbc.storedName.trans hab.storedName
  kept q hq := (hbc.kept q hq).trans (hab.kept q hq)
  entries q e he := hab.entries q e (hbc.entries q e he)

theorem above {below : Location} (h : RemovesBelow below a b) (hbelow : loc <+: below) :
    RemovesBelow loc a b where
  storedName := h.storedName
  kept q hq := h.kept q fun hpre => hq (hbelow.trans hpre)
  entries := h.entries

theorem remove (h : Host) (loc : Location) : RemovesBelow loc h (h.remove loc) where
  storedName := rfl
  kept q hq := by rw [Host.entryAt_remove, if_neg hq]
  entries q e he := by
    rw [Host.entryAt_remove] at he
    split at he
    · exact absurd he nofun
    · exact he

/-- What a later host finds was found before. -/
theorem find (h : RemovesBelow loc a b) : b.find.Extends a.find := by
  intro place name found hfound
  unfold Host.find at hfound ⊢
  rw [h.storedName, Option.map_eq_some_iff] at hfound
  obtain ⟨e, he, hfound⟩ := hfound
  rw [h.entries _ e he, Option.map_some, hfound]

end RemovesBelow

section

variable {reader : PathReader} {faults : Faults}

/-- An open of each name below the path walks that name. -/
def KeepsNames (reader : PathReader) (path : WideString) (names : Location) : Prop :=
  win32Path reader (names.foldl joinDirPath path) = (win32Path reader path).map (· ++ names)

/-- An open of the path of each entry below the place walks the entry's names. -/
def NamesKept (reader : PathReader) (h : Host) (path : WideString) (loc : Location) : Prop :=
  ∀ rest, (h.entryAt (loc ++ rest)).isSome = true → KeepsNames reader path rest

theorem located_mono {a b : Host} (h : a.find.Extends b.find) {path : WideString}
    {found : Location × HostEntry} (hloc : located reader a path = some found) :
    located reader b path = some found := by
  unfold located at hloc ⊢
  rw [Option.bind_eq_some_iff] at hloc ⊢
  obtain ⟨names, hnames, hfound⟩ := hloc
  exact ⟨names, hnames, locate_mono h hfound⟩

theorem HostEntry.target_of_enters {path : WideString} {entry : HostEntry}
    (henters : entersEntry faults path entry = .ok true) : entry.target = none := by
  cases htarget : entry.target with
  | none => rfl
  | some target =>
    have hlink := entry.link_of_target (by rw [htarget, Option.isSome_some])
    unfold entersEntry at henters
    split at henters
    · exact absurd henters nofun
    · rw [hlink.1, hlink.2] at henters
      cases htag : faults .readTag path with
      | none =>
        rw [htag] at henters
        exact absurd henters nofun
      | some error =>
        rw [htag] at henters
        exact absurd henters nofun

section

variable {h : Host} {path name : WideString} {loc : Location} {entry : HostEntry}

/-- The entry of a name of a directory is in it, and the names below it are kept. -/
theorem located_join (hloc : located reader h path = some (loc, entry))
    (hplain : entry.target = none) (hkept : NamesKept reader h path loc)
    (hname : (h.entryAt (loc ++ [name])).isSome = true) :
    (∃ e, located reader h (joinDirPath path name) = some (loc ++ [name], e)) ∧
      NamesKept reader h (joinDirPath path name) (loc ++ [name]) := by
  obtain ⟨e, he⟩ := Option.isSome_iff_exists.mp hname
  have hjoin : win32Path reader (joinDirPath path name)
      = (win32Path reader path).map (· ++ [name]) := hkept [name] hname
  constructor
  · refine ⟨e, ?_⟩
    unfold located at hloc ⊢
    rw [Option.bind_eq_some_iff] at hloc
    obtain ⟨names, hnames, hfound⟩ := hloc
    rw [hjoin, hnames, Option.map_some, Option.bind_some]
    exact locate_concat hfound hplain (Host.find_of_entryAt he)
  · intro rest hrest
    rw [List.append_assoc] at hrest
    show win32Path reader ((name :: rest).foldl joinDirPath path) = _
    rw [hkept (name :: rest) hrest, hjoin, Option.map_map]
    congr 1
    funext names
    show names ++ name :: rest = names ++ [name] ++ rest
    rw [List.append_assoc, List.singleton_append]

theorem NamesKept.of_removesBelow {after : Host} {at_ : Location}
    (h' : RemovesBelow at_ h after) (hkept : NamesKept reader h path loc) :
    NamesKept reader after path loc := by
  intro rest hrest
  obtain ⟨e, he⟩ := Option.isSome_iff_exists.mp hrest
  exact hkept rest (by rw [h'.entries _ e he, Option.isSome_some])

end

theorem deleteNames_removesBelow {delete : WideString → Deletion → Deletion} {path : WideString}
    {loc : Location} {h : Host} (names : List WideString)
    (hdelete : ∀ name ∈ names, ∀ s : Deletion, RemovesBelow loc h s.host →
      RemovesBelow loc h (delete (joinDirPath path name) s).host)
    {s : Deletion} (hs : RemovesBelow loc h s.host) :
    RemovesBelow loc h (deleteNames delete path names s).host := by
  induction names generalizing s with
  | nil => exact hs
  | cons name names ih =>
    have hfirst := hdelete name List.mem_cons_self s hs
    unfold deleteNames
    dsimp only
    split
    · exact hfirst
    · exact ih (fun n hn => hdelete n (List.mem_cons_of_mem _ hn)) hfirst

theorem markForDelete_removesBelow (s : Deletion) (path : WideString) (loc : Location) :
    RemovesBelow loc s.host (markForDelete faults s path loc).host := by
  unfold markForDelete
  split
  · exact .refl loc s.host
  · exact .refl loc s.host
  · split
    · exact .refl loc s.host
    · exact .remove s.host loc

/-- A path that leads nowhere deletes nothing. -/
theorem deleteTree_gone (levels : Nat) {path : WideString} {s : Deletion}
    (hgone : located reader s.host path = none) :
    (deleteTree reader faults levels path s).host = s.host := by
  cases levels with
  | zero => rfl
  | succ levels =>
    unfold deleteTree openForTreeDelete
    cases hfault : faults .openEntry path with
    | some error =>
      dsimp only
      split <;> rfl
    | none =>
      rw [hgone]
      dsimp only
      rw [if_pos (by decide)]

/-- A delete takes entries at or below the place where its path leads, and no others. -/
theorem deleteTree_removesBelow (levels : Nat) {path : WideString} {s : Deletion} {loc : Location}
    {entry : HostEntry} (hloc : located reader s.host path = some (loc, entry))
    (hkept : NamesKept reader s.host path loc) :
    RemovesBelow loc s.host (deleteTree reader faults levels path s).host := by
  induction levels generalizing path s loc entry with
  | zero => exact .refl loc s.host
  | succ levels ih =>
    have hnames : entry.target = none → ∀ name ∈ s.host.names loc, ∀ t : Deletion,
        RemovesBelow loc s.host t.host →
        RemovesBelow loc s.host
          (deleteTree reader faults levels (joinDirPath path name) t).host := by
      intro hplain name hname t ht
      obtain ⟨⟨e, hchild⟩, hkeptChild⟩ :=
        located_join hloc hplain hkept (Host.entryAt_isSome_of_mem_names hname)
      cases hfound : located reader t.host (joinDirPath path name) with
      | none =>
        rw [deleteTree_gone levels hfound]
        exact ht
      | some found =>
        obtain ⟨place, e'⟩ := found
        -- the entry is where it was before its siblings went
        have hsame := located_mono ht.find hfound
        rw [hchild, Option.some.injEq, Prod.mk.injEq] at hsame
        obtain ⟨rfl, rfl⟩ := hsame
        have hbelow := ih hfound (hkeptChild.of_removesBelow ht)
        exact ht.trans (hbelow.above (List.prefix_append _ _))
    unfold deleteTree openForTreeDelete
    cases hopen : faults .openEntry path with
    | some error =>
      dsimp only
      split
      · exact .refl loc s.host
      · exact .refl loc s.host
    | none =>
      rw [hloc]
      dsimp only
      split
      · exact .refl loc s.host
      · exact .refl loc s.host
      · next enters _ henters =>
        have hemptied : RemovesBelow loc s.host
            (if enters then deleteInside faults (deleteTree reader faults levels) path loc s
              else s).host := by
          cases enters with
          | false => exact .refl loc s.host
          | true =>
            show RemovesBelow loc s.host
              (deleteInside faults (deleteTree reader faults levels) path loc s).host
            unfold deleteInside
            split
            · exact .refl loc s.host
            · exact deleteNames_removesBelow _ (hnames (HostEntry.target_of_enters henters))
                (.refl loc s.host)
        generalize (if enters then deleteInside faults (deleteTree reader faults levels) path loc s
          else s) = emptied at hemptied ⊢
        split
        · exact hemptied
        · exact hemptied.trans (markForDelete_removesBelow _ path loc)

theorem removeStagedEntry_gone {h : Host} {path : WideString}
    (hgone : located reader h path = none) :
    (removeStagedEntry reader faults h path).host = h :=
  deleteTree_gone (s := { host := h }) _ hgone

theorem removeStagedEntry_removesBelow {h : Host} {path : WideString} {loc : Location}
    {entry : HostEntry} (hloc : located reader h path = some (loc, entry))
    (hkept : NamesKept reader h path loc) :
    RemovesBelow loc h (removeStagedEntry reader faults h path).host :=
  deleteTree_removesBelow (s := { host := h }) _ hloc hkept

end

/-! ## Paths written in full -/

/-- A path in extended form, or a full path that needs only the prefix. -/
structure WrittenInFull (path : WideString) : Prop where
  longer : kExtended.length ≤ path.length
  form : kExtended <+: path ∨ isFullPathAsWritten path = true ∧ ¬ kDevice <+: path

section

variable {reader : PathReader} {path name : WideString}

theorem WrittenInFull.join (h : WrittenInFull path) (hname : EntryName name) :
    WrittenInFull (joinDirPath path name) := by
  have hpre : path <+: joinDirPath path name := by
    unfold joinDirPath dirWithSeparator
    split
    · exact List.prefix_append _ _
    · exact (List.prefix_append _ _).trans (List.prefix_append _ _)
  refine ⟨h.longer.trans hpre.length_le, ?_⟩
  obtain hextended | ⟨hfull, hdevice⟩ := h.form
  · exact .inl (hextended.trans hpre)
  · refine .inr ⟨isFullPathAsWritten_join hfull hname, ?_⟩
    obtain ⟨rest, hrest⟩ := hpre
    have hlength : kDevice.length = kExtended.length := by decide
    rw [← hrest, prefix_append_iff (hlength ▸ h.longer)]
    exact hdevice

theorem WrittenInFull.extended (h : WrittenInFull path) : kExtended <+: forWin32 reader path := by
  unfold forWin32
  by_cases hextended : kExtended <+: path
  · rw [withExtendedPrefix_of_extended hextended]
    exact hextended
  · obtain ⟨hfull, hdevice⟩ := h.form.resolve_left hextended
    rw [withExtendedPrefix_of_asWritten hfull hextended hdevice]
    split
    · have hunc : kExtended <+: kExtendedUnc := by decide
      exact hunc.trans (List.prefix_append _ _)
    · exact List.prefix_append _ _

theorem WrittenInFull.win32Path_eq (h : WrittenInFull path) :
    win32Path reader path = some (extendedNames (forWin32 reader path)) :=
  if_pos (List.isPrefixOf_iff_prefix.mpr h.extended)

/-- `GetFullPathNameW` has no part in the names below such a path. -/
theorem WrittenInFull.keepsNames (h : WrittenInFull path) {names : Location}
    (hnames : ∀ c ∈ names, EntryName c) : KeepsNames reader path names := by
  unfold KeepsNames
  induction names generalizing path with
  | nil =>
    rw [List.foldl_nil, h.win32Path_eq, Option.map_some, List.append_nil]
  | cons name names ih =>
    have hname := hnames name List.mem_cons_self
    have hjoin : win32Path reader (joinDirPath path name)
        = some (extendedNames (forWin32 reader path) ++ [name]) := by
      rw [(h.join hname).win32Path_eq, forWin32, withExtendedPrefix_join h.longer h.form hname,
        ← forWin32, extendedNames_join h.extended hname]
    rw [List.foldl_cons, ih (h.join hname) fun c hc => hnames c (List.mem_cons_of_mem _ hc), hjoin,
      h.win32Path_eq, Option.map_some, Option.map_some, List.append_assoc, List.singleton_append]

theorem WrittenInFull.namesKept (h : WrittenInFull path) (host : Host) (loc : Location) :
    NamesKept reader host path loc := by
  intro rest hrest
  apply h.keepsNames
  intro c hc
  obtain ⟨before, after, rfl⟩ := List.append_of_mem hc
  apply host.names_ok (loc ++ before) c
  rw [Option.isSome_iff_ne_none]
  intro hnone
  have hbelow := Host.treeEntry_below hnone after
  rw [List.append_assoc, List.append_assoc, List.singleton_append] at hbelow
  rw [show host.entryAt (loc ++ (before ++ c :: after)) = none from hbelow] at hrest
  exact absurd hrest nofun

end

/-! ## What the open creates -/

/-- Every entry stays, and every path leads where it led. -/
structure Adds (before after : Host) : Prop where
  find : before.find.Extends after.find
  entries : ∀ q e, before.entryAt q = some e → after.entryAt q = some e

theorem Adds.refl (h : Host) : Adds h h := ⟨.refl _, fun _ _ he => he⟩

theorem Adds.trans {a b c : Host} (hab : Adds a b) (hbc : Adds b c) : Adds a c :=
  ⟨hab.find.trans hbc.find, fun q e he => hbc.entries q e (hab.entries q e he)⟩

theorem adds_add {h : Host} {loc : Location} {name : WideString} (e : HostEntry)
    (hfree : Host.Free h loc name) : Adds h (Host.add e hfree) where
  find := Host.find_add e hfree
  entries q e' he := by
    rw [Host.entryAt_add]
    split
    · next heq =>
      rw [heq, hfree.entryAt] at he
      exact absurd he nofun
    · exact he

section

variable {reader : PathReader} {faults : Faults} {h after : Host}

theorem createEntry_adds {path : WideString} {e : HostEntry}
    (hok : createEntry reader h path e = .ok after) : Adds h after := by
  unfold createEntry at hok
  split at hok
  · exact absurd hok nofun
  · split at hok
    · split at hok
      · injection hok with hok
        exact hok ▸ adds_add e _
      · split at hok
        · exact absurd hok nofun
        · exact absurd hok nofun
    · exact absurd hok nofun

theorem openLock_adds {lockPath : WideString}
    (hok : openLock reader faults h lockPath = .ok after) : Adds h after := by
  unfold openLock at hok
  split at hok
  · exact absurd hok nofun
  · split at hok
    · injection hok with hok
      exact hok ▸ .refl h
    · exact createEntry_adds hok

theorem createDirectory_adds {path : WideString}
    (hok : createDirectory reader faults h path = .ok after) : Adds h after := by
  unfold createDirectory at hok
  split at hok
  · exact absurd hok nofun
  · exact createEntry_adds hok

theorem takeLock_adds {lockDirectory lockName directory role : WideString}
    (hok : takeLock reader faults h lockDirectory lockName directory role = .ok after) :
    Adds h after := by
  unfold takeLock at hok
  split at hok
  · next hlock =>
    injection hok with hok
    exact hok ▸ openLock_adds hlock
  · split at hok
    · exact absurd hok nofun
    · exact absurd hok nofun

theorem withLockDirectory_adds (h : Host) (upperPath : WideString) :
    Adds h (withLockDirectory reader faults h upperPath) := by
  unfold withLockDirectory
  split
  · next hok => exact createDirectory_adds hok
  · exact .refl h

theorem takeLocks_adds (h : Host) (config : LayerConfig) :
    Adds h (takeLocks reader faults h config).2 := by
  unfold takeLocks
  split
  · exact .refl h
  · next locked hwork =>
    have hlocked := takeLock_adds hwork
    split
    · exact hlocked.trans (withLockDirectory_adds locked config.upperPath)
    · next hupper =>
      exact (hlocked.trans (withLockDirectory_adds locked config.upperPath)).trans
        (takeLock_adds hupper)

/-- A reset takes no entry but of the staging area. -/
theorem resetStagingArea_keeps {config : LayerConfig} {q : Location} {e : HostEntry}
    (hkept : ∀ loc entry, located reader h (stagingAreaPath config.workDirPath)
        = some (loc, entry) →
      NamesKept reader h (stagingAreaPath config.workDirPath) loc ∧ ¬ loc <+: q)
    (he : h.entryAt q = some e) :
    (resetStagingArea reader faults h config).2.entryAt q = some e := by
  have hdeleted : (removeStagedEntry reader faults h
      (stagingAreaPath config.workDirPath)).host.entryAt q = some e := by
    cases hloc : located reader h (stagingAreaPath config.workDirPath) with
    | none =>
      rw [removeStagedEntry_gone hloc]
      exact he
    | some found =>
      obtain ⟨loc, entry⟩ := found
      obtain ⟨hnames, hapart⟩ := hkept loc entry hloc
      rw [(removeStagedEntry_removesBelow hloc hnames).kept q hapart]
      exact he
  unfold resetStagingArea
  dsimp only
  split
  · exact hdeleted
  · split
    · exact hdeleted
    · next hcreated => exact (createDirectory_adds hcreated).entries q e hdeleted

end

/-! ## The staging area and the layers -/

/-- The staging area is apart from the lowers, and from the upper but for its `.overlay`. -/
structure StagingApart (F : CaseFold) (work : Location) (name : WideString) (upper : Location)
    (lowers : List Location) : Prop where
  lowers : ∀ lower ∈ lowers, ¬ Nested (work ++ [name]) lower
  upper : ¬ Nested (work ++ [name]) upper ∨
    ∃ sidecar, IsSidecarName F sidecar ∧ work ++ [name] = upper ++ [sidecar, name]

/-- A place of a lower, or a place of the upper that is not in its `.overlay`. -/
def IsLayerData (F : CaseFold) (upper : Location) (lowers : List Location) (q : Location) : Prop :=
  (∃ lower ∈ lowers, lower <+: q) ∨
    ∃ rest, q = upper ++ rest ∧ ∀ name, rest.head? = some name → ¬ IsSidecarName F name

theorem nested_of_below {a b q : Location} (ha : a <+: q) (hb : b <+: q) : Nested a b :=
  List.prefix_or_prefix_of_prefix ha hb

/-- Nothing of the layers is in the staging area. -/
theorem StagingApart.not_below {F : CaseFold} {work upper q : Location} {name : WideString}
    {lowers : List Location} (hapart : StagingApart F work name upper lowers)
    (hq : IsLayerData F upper lowers q) : ¬ work ++ [name] <+: q := by
  intro hbelow
  obtain ⟨lower, hlower, hpre⟩ | ⟨rest, rfl, hvisible⟩ := hq
  · exact hapart.lowers lower hlower (nested_of_below hbelow hpre)
  · obtain houtside | ⟨sidecar, hsidecar, hinside⟩ := hapart.upper
    · exact houtside (nested_of_below hbelow (List.prefix_append _ _))
    · rw [hinside, List.prefix_append_right_inj] at hbelow
      obtain ⟨more, rfl⟩ := hbelow
      exact hvisible sidecar rfl hsidecar

/-- A place that is not nested with the work directory is not nested with what is in it. -/
theorem not_nested_concat {work other : Location} (h : ¬ Nested work other) (name : WideString) :
    ¬ Nested (work ++ [name]) other := by
  intro hnested
  obtain hbelow | habove := hnested
  · exact h (.inl ((List.prefix_append _ _).trans hbelow))
  · exact h (nested_of_below (List.prefix_append _ _) habove)

section

variable {reader : PathReader} {h : Host} {config : LayerConfig} {work upper : Location}
  {lowers : List Location}

theorem Accepts.apart (hfold : KeepsSeparators reader.toCaseFold)
    (hwork : LeadsTo reader h config.workDirPath work)
    (hupper : LeadsTo reader h config.upperPath upper)
    (hlowers : List.Forall₂ (LeadsTo reader h) config.lowerPaths lowers)
    (hkept : ∀ loc ∈ work :: upper :: lowers, KeepsPlace reader loc)
    (haccepts : Accepts reader h config) (name : WideString) :
    StagingApart reader.toCaseFold work name upper lowers where
  lowers := by
    intro lower hmem
    obtain ⟨i, hi⟩ := List.mem_iff_getElem?.mp hmem
    obtain ⟨hlength, hget⟩ := List.forall₂_iff_get.mp hlowers
    obtain ⟨hlt, hget'⟩ := List.getElem?_eq_some_iff.mp hi
    have hlower := hget i (by omega) hlt
    rw [List.get_eq_getElem, List.get_eq_getElem, hget'] at hlower
    apply not_nested_concat
    exact accepted_lower hfold haccepts hwork (hkept work (by simp)) (List.getElem_mem _) hlower
      (hkept lower (by simp [hmem]))
  upper := by
    obtain houtside | ⟨sidecar, hsidecar, hinside⟩ :=
      accepted_upper hfold haccepts hwork (hkept work (by simp)) hupper (hkept upper (by simp))
    · exact .inl (not_nested_concat houtside name)
    · refine .inr ⟨sidecar, hsidecar, ?_⟩
      rw [hinside, List.append_assoc]
      rfl

/-- The path of the staging area leads into the work directory. -/
theorem located_staging {locked : Host} (hlocked : h.find.Extends locked.find)
    (hwork : LeadsTo reader h config.workDirPath work)
    (hname : KeepsNames reader config.workDirPath [kStagingAreaName]) {loc : Location}
    {entry : HostEntry}
    (hloc : located reader locked (stagingAreaPath config.workDirPath) = some (loc, entry)) :
    ∃ name, loc = work ++ [name] := by
  have hresolves := hwork.resolves
  rw [Option.bind_eq_some_iff] at hresolves
  obtain ⟨names, hnames, hplace⟩ := hresolves
  have hstaging : win32Path reader (stagingAreaPath config.workDirPath)
      = some (names ++ [kStagingAreaName]) := by
    have hjoin : win32Path reader (stagingAreaPath config.workDirPath)
        = (win32Path reader config.workDirPath).map (· ++ [kStagingAreaName]) := hname
    rw [hjoin, hnames, Option.map_some]
  have hplace' : locked.resolve names = some work := resolve_mono hlocked hplace
  unfold located Host.locate locate at hloc
  rw [hstaging, Option.bind_some, List.getLast?_concat, List.dropLast_concat] at hloc
  dsimp only at hloc
  rw [show Lib.resolve HostEntry.target locked.find kMaxLinks names = some work from hplace',
    Option.bind_some, Option.map_eq_some_iff] at hloc
  obtain ⟨found, -, heq⟩ := hloc
  exact ⟨found.1, (Prod.mk.inj heq).1.symm⟩

/-- The paths below that of the staging area are opened name by name. -/
structure KeepsStaging (reader : PathReader) (faults : Faults) (h : Host) (config : LayerConfig) :
    Prop where
  staging : KeepsNames reader config.workDirPath [kStagingAreaName]
  inside : ∀ loc entry, located reader (takeLocks reader faults h config).2
      (stagingAreaPath config.workDirPath) = some (loc, entry) →
    NamesKept reader (takeLocks reader faults h config).2 (stagingAreaPath config.workDirPath) loc

theorem open_keeps {faults : Faults} (hwork : LeadsTo reader h config.workDirPath work)
    (hstaging : KeepsStaging reader faults h config) {q : Location} {e : HostEntry}
    (hq : ∀ name, ¬ work ++ [name] <+: q) (he : h.entryAt q = some e) :
    (openWorkDirectory reader faults h config).2.entryAt q = some e := by
  have hadds : Adds h (takeLocks reader faults h config).2 := takeLocks_adds h config
  have hinside := hstaging.inside
  unfold openWorkDirectory
  split
  · exact he
  · generalize takeLocks reader faults h config = locks at hadds hinside ⊢
    obtain ⟨result, locked⟩ := locks
    cases result with
    | error failure => exact hadds.entries q e he
    | ok done =>
      refine resetStagingArea_keeps ?_ (hadds.entries q e he)
      intro loc entry hloc
      obtain ⟨name, rfl⟩ := located_staging hadds.find hwork hstaging.staging hloc
      exact ⟨hinside _ entry hloc, hq name⟩

/-- Where the layout is accepted and `GetFullPathNameW` leaves the final paths as they are,
the staging area is apart from the layers, and no delete of it or in it, at the open or at
any later host, takes an entry of theirs. -/
theorem staging_apart (hfold : KeepsSeparators reader.toCaseFold)
    (hwork : LeadsTo reader h config.workDirPath work)
    (hupper : LeadsTo reader h config.upperPath upper)
    (hlowers : List.Forall₂ (LeadsTo reader h) config.lowerPaths lowers)
    (hkept : ∀ loc ∈ work :: upper :: lowers, KeepsPlace reader loc)
    (haccepts : Accepts reader h config) :
    (∀ name, StagingApart reader.toCaseFold work name upper lowers) ∧
      (∀ faults, KeepsStaging reader faults h config → ∀ q e,
        IsLayerData reader.toCaseFold upper lowers q → h.entryAt q = some e →
          (openWorkDirectory reader faults h config).2.entryAt q = some e) ∧
      ∀ (later : PathReader) (faults : Faults) (g : Host) (path name : WideString) (loc : Location)
        (entry : HostEntry), located later g path = some (loc, entry) → work ++ [name] <+: loc →
        NamesKept later g path loc → ∀ q, IsLayerData reader.toCaseFold upper lowers q →
          (removeStagedEntry later faults g path).host.entryAt q = g.entryAt q := by
  have hapart := haccepts.apart hfold hwork hupper hlowers hkept
  refine ⟨hapart, ?_, ?_⟩
  · intro faults hstaging q e hq he
    exact open_keeps hwork hstaging (fun name => (hapart name).not_below hq) he
  · intro later faults g path name loc entry hloc hinside hnames q hq
    exact (removeStagedEntry_removesBelow hloc hnames).kept q fun hpre =>
      (hapart name).not_below hq (hinside.trans hpre)

end

/-! ## A reader that trims -/

def kSpace : UInt16 := 0x20

def hasRoot : Location → Bool
  | [_, colon] :: _ => colon = kColon
  | root :: _ :: _ :: _ => root = kUncName
  | _ => false

def isFinalForm (loc : Location) : Bool := loc.all isEntryName && hasRoot loc

theorem finalForm_of_isFinalForm {loc : Location} (h : isFinalForm loc = true) : FinalForm loc := by
  unfold isFinalForm at h
  rw [Bool.and_eq_true, List.all_eq_true] at h
  refine ⟨fun c hc => (isEntryName_iff c).mp (h.1 c hc), ?_⟩
  have hroot := h.2
  unfold hasRoot at hroot
  split at hroot
  · next letter colon rest =>
    exact .inl ⟨letter, rest, by rw [of_decide_eq_true hroot]⟩
  · next root server share rest _ =>
    exact .inr ⟨server, share, rest, by rw [of_decide_eq_true hroot]⟩
  · exact absurd hroot nofun

/-- The final path of a place, with a separator at the end of a drive. -/
def finalText (loc : Location) : WideString :=
  kExtended ++ [kBackslash].intercalate loc ++ if loc.length = 1 then [kBackslash] else []

/-- Full paths without the spaces and periods at their end, as `GetFullPathNameW` gives
them. -/
def trimmingReader : PathReader where
  toCaseFold := asciiLower
  fullPathName path := some (path.rdropWhile fun u => u = kSpace || u = kDot)
  otherPath _ := none
  finalPathName loc := if isFinalForm loc then some (finalText loc) else none
  final_form loc text h := by
    split at h
    · next hform =>
      cases h
      refine ⟨finalForm_of_isFinalForm hform, ?_⟩
      unfold finalText
      split
      · exact .inr rfl
      · exact .inl (List.append_nil _)
    · exact absurd h nofun

/-- A host with no volume. -/
def Host.empty : Host where
  tree := some (Host.newTree { directory := true })
  storedName _ name := name
  storedName_self _ _ _ := rfl
  names_ok loc name h := by
    rw [Host.treeEntry_newTree, if_neg (by simp)] at h
    exact absurd h nofun

/-- An entry more, where its name is free. -/
def Host.with (h : Host) (loc : Location) (name : WideString) (e : HostEntry) : Host :=
  if hfree : h.isFree loc name = true then Host.add e (Host.free_of_isFree hfree) else h

def directoryEntry : HostEntry := { directory := true }

def fileEntry : HostEntry := { directory := false }

def linkTo (target : Location) : HostEntry :=
  { directory := true, reparsePoint := true, nameSurrogate := true, target := some target }

def noFaults : Faults := fun _ _ => none

def nameOf (text : String) : WideString := encodeUtf16 text.toList

/-- The place of some names below the drive `C:`. -/
def onDrive (names : List String) : Location := ("C:" :: names).map nameOf

/-- A work directory with a link to a lower in its staging area. -/
def linkedHost : Host :=
  (((((((Host.empty.with [] (nameOf "C:") directoryEntry).with (onDrive []) (nameOf "up")
    directoryEntry).with (onDrive []) (nameOf "low") directoryEntry).with
    (onDrive ["low"]) (nameOf "f") fileEntry).with (onDrive []) (nameOf "w")
    directoryEntry).with (onDrive ["w"]) (nameOf "work") directoryEntry).with
    (onDrive ["w", "work"]) (nameOf "link") (linkTo (onDrive ["low"]))).with
    (onDrive ["w", "work"]) (nameOf "x") fileEntry

def linkedConfig : LayerConfig where
  upperPath := nameOf "C:\\up"
  workDirPath := nameOf "C:\\w"
  lowerPaths := [nameOf "C:\\low"]

/-- The open deletes the link, and what is behind it stays. -/
theorem staging_apart_linked :
    StagingApart asciiLower (onDrive ["w"]) kStagingAreaName (onDrive ["up"]) [onDrive ["low"]] ∧
      (openWorkDirectory trimmingReader noFaults linkedHost linkedConfig).2.entryAt
        (onDrive ["w", "work", "link"]) = none ∧
      (openWorkDirectory trimmingReader noFaults linkedHost linkedConfig).2.entryAt
        (onDrive ["low", "f"]) = some fileEntry ∧
      (removeStagedEntry trimmingReader noFaults linkedHost
        (nameOf "C:\\w\\work\\link")).host.entryAt (onDrive ["low", "f"])
        = linkedHost.entryAt (onDrive ["low", "f"]) := by
  have hwork : LeadsTo trimmingReader linkedHost linkedConfig.workDirPath (onDrive ["w"]) :=
    ⟨by decide +kernel, by decide +kernel⟩
  have hupper : LeadsTo trimmingReader linkedHost linkedConfig.upperPath (onDrive ["up"]) :=
    ⟨by decide +kernel, by decide +kernel⟩
  have hlower : LeadsTo trimmingReader linkedHost (nameOf "C:\\low") (onDrive ["low"]) :=
    ⟨by decide +kernel, by decide +kernel⟩
  have hwritten : WrittenInFull linkedConfig.workDirPath := ⟨by decide +kernel, by decide +kernel⟩
  have hstaging : WrittenInFull (stagingAreaPath linkedConfig.workDirPath) :=
    hwritten.join ((isEntryName_iff _).mp (by decide +kernel))
  have hlink : WrittenInFull (nameOf "C:\\w\\work\\link") := ⟨by decide +kernel, by decide +kernel⟩
  have hdata : IsLayerData asciiLower (onDrive ["up"]) [onDrive ["low"]] (onDrive ["low", "f"]) :=
    .inl ⟨onDrive ["low"], List.mem_cons_self, by decide +kernel⟩
  have h := staging_apart keepsSeparators_asciiLower hwork hupper (.cons hlower .nil)
    (by decide +kernel) (by decide +kernel)
  refine ⟨h.1 kStagingAreaName, by decide +kernel, ?_, ?_⟩
  · refine h.2.1 noFaults ⟨?_, ?_⟩ _ _ hdata (by decide +kernel)
    · exact hwritten.keepsNames (by
        intro c hc
        rw [List.mem_singleton.mp hc]
        exact (isEntryName_iff _).mp (by decide +kernel))
    · exact fun loc _ _ => hstaging.namesKept _ loc
  · exact h.2.2 trimmingReader noFaults linkedHost (nameOf "C:\\w\\work\\link") kStagingAreaName
      (onDrive ["w", "work", "link"]) (linkTo (onDrive ["low"])) (by decide +kernel)
      (by decide +kernel) (hlink.namesKept _ _) _ hdata

/-- A lower whose name ends in a space, with the work directory in it. -/
def spacedHost : Host :=
  (((((Host.empty.with [] (nameOf "C:") directoryEntry).with (onDrive []) (nameOf "up")
    directoryEntry).with (onDrive []) (nameOf "data ") directoryEntry).with
    (onDrive ["data "]) (nameOf "w") directoryEntry).with
    (onDrive ["data ", "w"]) (nameOf "work") directoryEntry).with
    (onDrive ["data ", "w", "work"]) (nameOf "x") fileEntry

def spacedConfig : LayerConfig where
  upperPath := nameOf "C:\\up"
  workDirPath := nameOf "C:\\data \\w"
  lowerPaths := [nameOf "C:\\data "]

/-- Without its prefix, the final path of the lower loses the space.  The open accepts the
layout and deletes an entry of the lower. -/
theorem open_deletes_spaced_lower :
    LeadsTo trimmingReader spacedHost spacedConfig.workDirPath (onDrive ["data ", "w"]) ∧
      LeadsTo trimmingReader spacedHost spacedConfig.upperPath (onDrive ["up"]) ∧
      List.Forall₂ (LeadsTo trimmingReader spacedHost) spacedConfig.lowerPaths [onDrive ["data "]] ∧
      Accepts trimmingReader spacedHost spacedConfig ∧
      Nested (onDrive ["data ", "w", "work"]) (onDrive ["data "]) ∧
      spacedHost.entryAt (onDrive ["data ", "w", "work", "x"]) = some fileEntry ∧
      (openWorkDirectory trimmingReader noFaults spacedHost spacedConfig).1.isOk = true ∧
      (openWorkDirectory trimmingReader noFaults spacedHost spacedConfig).2.entryAt
        (onDrive ["data ", "w", "work", "x"]) = none :=
  ⟨⟨by decide +kernel, by decide +kernel⟩, ⟨by decide +kernel, by decide +kernel⟩,
    .cons ⟨by decide +kernel, by decide +kernel⟩ .nil, by decide +kernel,
    .inr (by decide +kernel), by decide +kernel, by decide +kernel, by decide +kernel⟩

end LayerMount.WorkDir
