import LayerMount.HostTree

/-!
# The layout of the work directory

`WorkDirectory.cpp`: the rule that keeps the work directory apart from the upper and the
lowers.  It compares texts, of the final paths where both can be read.

`accepted_lower` and `accepted_upper` are what an accepted layout says of the places,
where `GetFullPathNameW` leaves the final paths as they are: the work directory and a
lower are not below one another, nor are the work directory and the upper, unless the
work directory is a `.overlay` of the upper.
-/

namespace LayerMount.WorkDir

open Lib PathText

def kSidecarDirName : WideString := encodeUtf16 ".overlay".toList

def kStagingAreaName : WideString := encodeUtf16 "work".toList

def kErrorInvalidArg : UInt32 := 0x80070057

structure LayerConfig where
  upperPath : WideString
  workDirPath : WideString
  lowerPaths : List WideString := []
  deriving DecidableEq, Repr

/-- A failed step of the open: the result and the message. -/
structure OpenFailure where
  result : UInt32
  error : WideString
  deriving DecidableEq, Repr

/-! ## The source's functions -/

section

variable (reader : PathReader)

/-- `HostPath::ForWin32`. -/
def forWin32 (path : WideString) : WideString := withExtendedPrefix reader.fullPathName path

/-- The names that an open of the path walks. -/
def win32Path (path : WideString) : Option Location :=
  if kExtended.isPrefixOf (forWin32 reader path) then some (extendedNames (forWin32 reader path))
  else reader.otherPath (forWin32 reader path)

def finalPathOfDirectory (h : Host) (path : WideString) : WideString :=
  (((win32Path reader path).bind h.resolve).bind reader.finalPathName).getD []

structure LayoutPath where
  written : WideString
  resolved : WideString
  deriving DecidableEq, Repr

def writtenPath (path : WideString) : LayoutPath :=
  { written := comparablePath reader.fullPathName reader.toCaseFold path, resolved := [] }

def writtenAndResolvedPath (h : Host) (path : WideString) : LayoutPath :=
  let finalPath := finalPathOfDirectory reader h path
  { written := comparablePath reader.fullPathName reader.toCaseFold path
    resolved :=
      if finalPath.isEmpty then []
      else comparablePath reader.fullPathName reader.toCaseFold finalPath }

def pathsToCompare (a b : LayoutPath) : WideString × WideString :=
  if !a.resolved.isEmpty && !b.resolved.isEmpty then (a.resolved, b.resolved)
  else (a.written, b.written)

def areSameOrNested (a b : WideString) : Bool :=
  a = b || PathText.isInsideDirectory a b || PathText.isInsideDirectory b a

def overlapsUpper (work upper : LayoutPath) : Bool :=
  let (workPath, upperPath) := pathsToCompare work upper
  workPath ≠ joinDirPath upperPath kSidecarDirName && areSameOrNested workPath upperPath

def overlapsLower (work lower : LayoutPath) : Bool :=
  let (workPath, lowerPath) := pathsToCompare work lower
  areSameOrNested workPath lowerPath

def kUpperOverlapError : WideString :=
  encodeUtf16 ("The work directory and the upper layer must not be the same directory or " ++
    "contain one another: ").toList

def kLowerOverlapError : WideString :=
  encodeUtf16 ("The work directory and a lower layer must not be the same directory or " ++
    "contain one another: ").toList

/-- The loop of `CheckLayoutWith` over the lowers. -/
def checkLowers (read : WideString → LayoutPath) (work : LayoutPath) :
    List WideString → Except OpenFailure Unit
  | [] => .ok ()
  | lower :: lowers =>
    if overlapsLower work (read lower) then
      .error { result := kErrorInvalidArg, error := kLowerOverlapError ++ lower }
    else checkLowers read work lowers

def checkLayoutWith (config : LayerConfig) (read : WideString → LayoutPath) :
    Except OpenFailure Unit :=
  let work := read config.workDirPath
  if overlapsUpper work (read config.upperPath) then
    .error { result := kErrorInvalidArg, error := kUpperOverlapError ++ config.workDirPath }
  else checkLowers read work config.lowerPaths

/-- `WorkDirectory::CheckLayout`. -/
def checkLayout (config : LayerConfig) : Except OpenFailure Unit :=
  checkLayoutWith config (writtenPath reader)

end

/-! ## Places -/

variable {reader : PathReader} {h : Host}

/-- `path` leads to the directory at `loc`, and its final path can be read. -/
structure LeadsTo (reader : PathReader) (h : Host) (path : WideString) (loc : Location) :
    Prop where
  resolves : (win32Path reader path).bind h.resolve = some loc
  readable : (reader.finalPathName loc).isSome = true

/-- `GetFullPathNameW` leaves the final path of the place as it is. -/
def KeepsPlace (reader : PathReader) (loc : Location) : Prop :=
  ∀ text, reader.finalPathName loc = some text → KeepsFinalPath reader.fullPathName text

theorem keepsPlace_iff {loc : Location} :
    KeepsPlace reader loc ↔
      (reader.finalPathName loc).all (fun text => KeepsFinalPath reader.fullPathName text)
        = true := by
  unfold KeepsPlace
  cases reader.finalPathName loc with
  | none => exact ⟨fun _ => rfl, fun _ _ h => absurd h nofun⟩
  | some text =>
    rw [Option.all_some, decide_eq_true_eq]
    exact ⟨fun h => h text rfl, fun h _ heq => Option.some.inj heq ▸ h⟩

instance (loc : Location) : Decidable (KeepsPlace reader loc) := decidable_of_iff' _ keepsPlace_iff

/-- One of two places is at or below the other. -/
def Nested (a b : Location) : Prop := a <+: b ∨ b <+: a

theorem Nested.symm {a b : Location} (hab : Nested a b) : Nested b a := Or.symm hab

theorem resolved_eq {path : WideString} {loc : Location} (hpath : LeadsTo reader h path loc)
    (hkept : KeepsPlace reader loc) :
    FinalForm loc ∧
      (writtenAndResolvedPath reader h path).resolved = reader.fold (plainPath loc) := by
  obtain ⟨text, htext⟩ := Option.isSome_iff_exists.mp hpath.readable
  have hfinal : finalPathOfDirectory reader h path = text := by
    unfold finalPathOfDirectory
    rw [hpath.resolves, Option.bind_some, htext, Option.getD_some]
  have hform := reader.final_form loc text htext
  have hne : text ≠ [] := by
    obtain heq | heq := hform.text_eq
    · rw [heq]
      exact List.append_ne_nil_of_left_ne_nil (by decide) _
    · rw [heq]
      exact List.append_ne_nil_of_right_ne_nil _ (by decide)
  refine ⟨hform.toFinalForm, ?_⟩
  unfold writtenAndResolvedPath
  dsimp only
  rw [hfinal, List.isEmpty_eq_false_iff.mpr hne, if_neg Bool.false_ne_true,
    comparablePath_final reader.toCaseFold hform (hkept text htext)]

theorem plainPath_ne_nil {loc : Location} (hform : FinalForm loc) : plainPath loc ≠ [] := by
  obtain ⟨letter, rest, rfl⟩ | ⟨server, share, rest, rfl⟩ := hform.root
  · rw [plainPath_drive]
    exact joined_ne_nil (List.cons_ne_nil _ _)
  · rw [plainPath_share]
    exact List.append_ne_nil_of_left_ne_nil (by decide) _

theorem CaseFold.fold_ne_nil (F : CaseFold) {s : WideString} (hne : s ≠ []) : F.fold s ≠ [] := by
  intro hnil
  have hlength := F.length_fold s
  rw [hnil, List.length_nil] at hlength
  exact hne (List.length_eq_zero_iff.mp hlength.symm)

/-- Two places that can be read are compared by their folded paths. -/
theorem pathsToCompare_eq {a b : WideString} {locA locB : Location}
    (ha : LeadsTo reader h a locA) (hb : LeadsTo reader h b locB)
    (hkeptA : KeepsPlace reader locA) (hkeptB : KeepsPlace reader locB) :
    pathsToCompare (writtenAndResolvedPath reader h a) (writtenAndResolvedPath reader h b)
      = (reader.fold (plainPath locA), reader.fold (plainPath locB)) := by
  obtain ⟨hformA, hresolvedA⟩ := resolved_eq ha hkeptA
  obtain ⟨hformB, hresolvedB⟩ := resolved_eq hb hkeptB
  unfold pathsToCompare
  rw [hresolvedA, hresolvedB, if_pos]
  rw [Bool.and_eq_true, Bool.not_eq_true', Bool.not_eq_true', List.isEmpty_eq_false_iff,
    List.isEmpty_eq_false_iff]
  exact ⟨CaseFold.fold_ne_nil _ (plainPath_ne_nil hformA),
    CaseFold.fold_ne_nil _ (plainPath_ne_nil hformB)⟩

/-- Nested places have nested paths. -/
theorem areSameOrNested_of_prefix (hfold : KeepsSeparators reader.toCaseFold) {a b : Location}
    (hform : FinalForm a) (hab : a <+: b) :
    reader.fold (plainPath b) = reader.fold (plainPath a) ∨
      PathText.isInsideDirectory (reader.fold (plainPath b)) (reader.fold (plainPath a))
        = true := by
  obtain ⟨rest, rfl⟩ := hab
  by_cases hrest : rest = []
  · exact .inl (by rw [hrest, List.append_nil])
  · refine .inr ((PathText.isInsideDirectory_iff _ _).mpr
      ⟨reader.fold ([kBackslash].intercalate rest), ?_⟩)
    rw [plainPath_append hform hrest, hfold]

theorem areSameOrNested_of_nested (hfold : KeepsSeparators reader.toCaseFold) {a b : Location}
    (hformA : FinalForm a) (hformB : FinalForm b) (hnested : Nested a b) :
    areSameOrNested (reader.fold (plainPath a)) (reader.fold (plainPath b)) = true := by
  unfold areSameOrNested
  rw [Bool.or_eq_true, Bool.or_eq_true, decide_eq_true_eq]
  obtain hab | hba := hnested
  · obtain hsame | hinside := areSameOrNested_of_prefix hfold hformA hab
    · exact .inl (.inl hsame.symm)
    · exact .inr hinside
  · obtain hsame | hinside := areSameOrNested_of_prefix hfold hformB hba
    · exact .inl (.inl hsame)
    · exact .inl (.inr hinside)

/-! ## An accepted layout -/

theorem checkLowers_ok {read : WideString → LayoutPath} {work : LayoutPath}
    {lowers : List WideString} (hok : checkLowers read work lowers = .ok ()) :
    ∀ lower ∈ lowers, overlapsLower work (read lower) = false := by
  induction lowers with
  | nil => exact fun _ hmem => absurd hmem List.not_mem_nil
  | cons first lowers ih =>
    unfold checkLowers at hok
    split at hok
    · exact absurd hok nofun
    · next hfirst =>
      intro lower hmem
      obtain rfl | hmem := List.mem_cons.mp hmem
      · exact Bool.eq_false_iff.mpr hfirst
      · exact ih hok lower hmem

theorem checkLowers_congr {read read' : WideString → LayoutPath} {work : LayoutPath}
    {lowers : List WideString} (hsame : ∀ lower ∈ lowers, read lower = read' lower) :
    checkLowers read work lowers = checkLowers read' work lowers := by
  induction lowers with
  | nil => rfl
  | cons first lowers ih =>
    unfold checkLowers
    have hrest := ih fun lower hmem => hsame lower (List.mem_cons_of_mem _ hmem)
    rw [hsame first List.mem_cons_self, hrest]

/-- Where no final path can be read, the open compares as `CheckLayout` does. -/
theorem checkLayoutWith_unreadable {config : LayerConfig}
    (hnone : ∀ path ∈ config.workDirPath :: config.upperPath :: config.lowerPaths,
      finalPathOfDirectory reader h path = []) :
    checkLayoutWith config (writtenAndResolvedPath reader h) = checkLayout reader config := by
  have hwritten : ∀ path ∈ config.workDirPath :: config.upperPath :: config.lowerPaths,
      writtenAndResolvedPath reader h path = writtenPath reader path := by
    intro path hpath
    unfold writtenAndResolvedPath
    rw [hnone path hpath]
    rfl
  unfold checkLayout checkLayoutWith
  dsimp only
  rw [hwritten config.workDirPath (by simp), hwritten config.upperPath (by simp),
    checkLowers_congr fun lower hlower => hwritten lower (by simp [hlower])]

/-- `WorkDirectory::Open` accepts the layout. -/
def Accepts (reader : PathReader) (h : Host) (config : LayerConfig) : Prop :=
  checkLayoutWith config (writtenAndResolvedPath reader h) = .ok ()

instance (config : LayerConfig) : Decidable (Accepts reader h config) :=
  decidable_of_iff ((checkLayoutWith config (writtenAndResolvedPath reader h)).isOk = true) (by
    unfold Accepts
    cases checkLayoutWith config (writtenAndResolvedPath reader h) with
    | error failure => exact ⟨nofun, nofun⟩
    | ok done => exact ⟨fun _ => rfl, fun _ => rfl⟩)

theorem Accepts.parts {config : LayerConfig} (haccepts : Accepts reader h config) :
    overlapsUpper (writtenAndResolvedPath reader h config.workDirPath)
        (writtenAndResolvedPath reader h config.upperPath) = false ∧
      ∀ lower ∈ config.lowerPaths,
        overlapsLower (writtenAndResolvedPath reader h config.workDirPath)
          (writtenAndResolvedPath reader h lower) = false := by
  unfold Accepts checkLayoutWith at haccepts
  dsimp only at haccepts
  split at haccepts
  · exact absurd haccepts nofun
  · next hupper => exact ⟨Bool.eq_false_iff.mpr hupper, checkLowers_ok haccepts⟩

/-- The names that `.overlay` is the folded form of. -/
def IsSidecarName (F : CaseFold) (name : WideString) : Prop := F.fold name = kSidecarDirName

section

variable {config : LayerConfig} {work upper lower : Location}

theorem accepted_lower (hfold : KeepsSeparators reader.toCaseFold)
    (haccepts : Accepts reader h config) (hwork : LeadsTo reader h config.workDirPath work)
    (hkeptWork : KeepsPlace reader work) {path : WideString} (hpath : path ∈ config.lowerPaths)
    (hlower : LeadsTo reader h path lower) (hkeptLower : KeepsPlace reader lower) :
    ¬ Nested work lower := by
  intro hnested
  have hapart := haccepts.parts.2 path hpath
  have hsame := areSameOrNested_of_nested hfold (resolved_eq hwork hkeptWork).1
    (resolved_eq hlower hkeptLower).1 hnested
  unfold overlapsLower at hapart
  rw [pathsToCompare_eq hwork hlower hkeptWork hkeptLower] at hapart
  dsimp only at hapart
  rw [hsame] at hapart
  exact absurd hapart nofun

/-- A path longer by `\.overlay` is below by that one name. -/
theorem sidecar_of_joined (hfold : KeepsSeparators reader.toCaseFold) (hform : FinalForm upper)
    {rest : Location}
    (heq : reader.fold (plainPath (upper ++ rest))
      = joinDirPath (reader.fold (plainPath upper)) kSidecarDirName) :
    ∃ name, IsSidecarName reader.toCaseFold name ∧ rest = [name] := by
  unfold joinDirPath dirWithSeparator at heq
  have hlength : kSidecarDirName.length = 8 := by decide
  cases rest with
  | nil =>
    have hlong := congrArg List.length heq
    rw [List.append_nil, List.length_append] at hlong
    split at hlong
    · omega
    · rw [List.length_append] at hlong
      omega
  | cons name more =>
    rw [plainPath_append hform (List.cons_ne_nil _ _), hfold] at heq
    have hrest : reader.fold ([kBackslash].intercalate (name :: more)) = kSidecarDirName := by
      split at heq
      · have hhead := congrArg List.head? (List.append_cancel_left heq)
        exact absurd hhead (by rw [List.head?_cons]; decide)
      · rw [List.append_assoc, List.singleton_append] at heq
        exact (List.cons.inj (List.append_cancel_left heq)).2
    cases more with
    | nil =>
      rw [List.intercalate_singleton] at hrest
      exact ⟨name, hrest, rfl⟩
    | cons second more =>
      rw [intercalate_cons_cons, hfold] at hrest
      have hmem : kBackslash ∈ kSidecarDirName := by
        rw [← hrest]
        exact List.mem_append_right _ List.mem_cons_self
      exact absurd hmem (by decide)

theorem length_plainPath_le {a b : Location} (hform : FinalForm a) (hab : a <+: b) :
    (plainPath a).length ≤ (plainPath b).length := by
  obtain ⟨rest, rfl⟩ := hab
  by_cases hrest : rest = []
  · rw [hrest, List.append_nil]
  · rw [plainPath_append hform hrest, List.length_append]
    omega

theorem length_dirWithSeparator (dirPath : WideString) :
    dirPath.length ≤ (dirWithSeparator dirPath).length := by
  unfold dirWithSeparator
  split
  · omega
  · rw [List.length_append]
    omega

theorem accepted_upper (hfold : KeepsSeparators reader.toCaseFold)
    (haccepts : Accepts reader h config) (hwork : LeadsTo reader h config.workDirPath work)
    (hkeptWork : KeepsPlace reader work) (hupper : LeadsTo reader h config.upperPath upper)
    (hkeptUpper : KeepsPlace reader upper) :
    ¬ Nested work upper ∨
      ∃ name, IsSidecarName reader.toCaseFold name ∧ work = upper ++ [name] := by
  have hapart := haccepts.parts.1
  have hformWork := (resolved_eq hwork hkeptWork).1
  have hformUpper := (resolved_eq hupper hkeptUpper).1
  unfold overlapsUpper at hapart
  rw [pathsToCompare_eq hwork hupper hkeptWork hkeptUpper] at hapart
  dsimp only at hapart
  by_cases hnested : Nested work upper
  · have hsame := areSameOrNested_of_nested hfold hformWork hformUpper hnested
    rw [hsame, Bool.and_true, decide_eq_false_iff_not, not_not] at hapart
    refine .inr ?_
    obtain habove | ⟨rest, rfl⟩ := hnested
    · -- the path of the work directory would be longer than that of what is below it
      have hlonger := length_plainPath_le hformWork habove
      have hlong := congrArg List.length hapart
      have hlength : kSidecarDirName.length = 8 := by decide
      unfold joinDirPath at hlong
      rw [List.length_append, reader.length_fold, hlength] at hlong
      have hdir := length_dirWithSeparator (reader.fold (plainPath upper))
      rw [reader.length_fold] at hdir
      omega
    · obtain ⟨name, hname, hrest⟩ := sidecar_of_joined hfold hformUpper hapart
      exact ⟨name, hname, by rw [hrest]⟩
  · exact .inl hnested

end

end LayerMount.WorkDir
