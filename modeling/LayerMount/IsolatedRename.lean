import LayerMount.CompletedRename
import LayerMount.IsolatedCopyUp

/-!
# A rename keeps the lower layers

The steps of a rename move entries of the upper, copy up files, and build the merged copy of a
directory from new files and from clones of links.  Only the clone of the entry itself asks more:
what is cloned must be the link that the view shows, which the checks of the rename and the route
say (`renameCheckedEntry_follows`).
-/

namespace LayerMount

open Lib

variable {e f g k : Engine} {c d p q : RelPath} {m n : Name} {o : Place} {t : Tree}

namespace Rename

/-! ## Checks and undo -/

theorem checkRename_isolates (p q : RelPath) (replace : Bool) :
    Isolates (checkRename p q replace) :=
  fun e => (checkRename_ensures p q replace e).1.toUntouched.isolated

theorem noteUndoFailure_isolates : Isolates noteUndoFailure :=
  LayerMount.noteUndoFailure_isolates

theorem moveBack_isolates (rename : UpperRename) : Isolates (moveBack rename) := by
  have hlast := fun back : Except NtStatus Unit =>
    Step.Keeps.bind (invalidateWithAncestors_isolates rename.oldNorm) fun _ =>
      Step.Keeps.bind (invalidateWithAncestors_isolates rename.newNorm) fun _ => Step.Keeps.pure back
  have hfailed := fun back => Step.Keeps.bind noteUndoFailure_isolates fun _ => hlast back
  refine Step.Keeps.attempt_cases (moveUpperEntry_isolates _ _ _) (fun _ => ?_) fun _ => hfailed _
  refine Step.Keeps.ite ?_ (hlast _)
  exact Step.Keeps.bind (WhiteoutManager.removeOpaque_isolates _) fun removed =>
    Step.Keeps.ite (hfailed _) (hlast _)

theorem whiteOutSource_isolates (rename : UpperRename) (stagedShell : Bool) :
    Isolates (whiteOutSource rename stagedShell) := by
  refine Step.Keeps.attempt_cases (WhiteoutManager.createWhiteout_isolates _)
    (fun _ => Step.Keeps.pure _) fun status => Step.Keeps.bind (moveBack_isolates rename) fun back => ?_
  cases back with
  | ok _ => exact Step.Keeps.pure _
  | error _ =>
    exact Step.Keeps.attempt (WhiteoutManager.removeWhiteout_isolates _) fun _ => Step.Keeps.pure _

theorem removeDestinationWhiteoutOrUndo_isolates (rename : UpperRename) :
    Isolates (removeDestinationWhiteoutOrUndo rename) := by
  refine Step.Keeps.attempt_cases (WhiteoutManager.removeWhiteout_isolates _)
    (fun _ => Step.Keeps.pure _) fun status => Step.Keeps.bind (moveBack_isolates rename) fun back => ?_
  cases back with
  | error _ => exact Step.Keeps.pure _
  | ok _ =>
    exact Step.Keeps.attempt_cases (WhiteoutManager.removeWhiteout_isolates _)
      (fun _ => Step.Keeps.pure _) fun _ =>
        Step.Keeps.bind noteUndoFailure_isolates fun _ => Step.Keeps.pure _

theorem checkDestinationReplaceable_isolates (q : RelPath) (kind : EntryKind) :
    Isolates (checkDestinationReplaceable q kind) := by
  refine Step.Keeps.get fun e => Step.Keeps.ite (Step.Keeps.pure ()) ?_
  split
  · exact Step.Keeps.ite (Step.Keeps.fail _) (Step.Keeps.pure ())
  · exact Step.Keeps.pure ()

theorem setRenameDestinationAside_follows (he : e.Separate) (q : RelPath) (kind : EntryKind) :
    (setRenameDestinationAside q kind).Follows Isolated e fun held g => FitsUpper g held := by
  refine Step.Follows.bind ((checkDestinationReplaceable_isolates q kind).follows e)
    fun _ f hf _ => ?_
  have hf := hf he
  refine Step.Follows.bind (moveUpperEntryAside_follows hf.separate q) fun held k hk hheld => ?_
  cases held with
  | none => exact Step.Follows.pure fitsUpper_none
  | some t =>
    refine Step.Follows.bind ((invalidateWithAncestors_isolates q).follows k) fun _ g hg _ => ?_
    exact Step.Follows.pure (hheld.mono (hg (hk hf.separate).separate))

theorem putBackAside_follows {held : HeldAside} (hheld : FitsUpper e held)
    (q : RelPath) : (putBackAside q held).Follows Isolated e fun _ _ => True := by
  cases held with
  | none => exact Step.Follows.pure trivial
  | some t =>
    have hlast := fun f => (invalidateWithAncestors_isolates q).follows f
    refine Step.Follows.get (Step.Follows.ite (fun _ => hlast e) fun _ => ?_)
    refine Step.Follows.attempt_bind (placeEntry_follows (fun _ => hheld) q)
      (fun _ f _ _ => hlast f) fun _ f _ => ?_
    exact Step.Follows.bind (noteUndoFailure_isolates.follows f) fun _ f _ _ => hlast f

/-! ## A file -/

theorem moveToUpper_isolates (p q : RelPath) (replace : FileRenameReplace) (mode : RenameCopyUp) :
    Isolates (moveToUpper p q replace mode) := by
  refine Step.Keeps.bind (CopyUp.ensureUpperParent_isolates q) fun _ => ?_
  refine Step.Keeps.bind (existsInUpper_isolates p) fun held => ?_
  have hmove : ∀ (replaces : Bool) (shell : Bool), Isolates (do
      moveUpperEntry p q replaces
      pure shell : Op Bool) := fun replaces shell =>
    Step.Keeps.bind (moveUpperEntry_isolates p q replaces) fun _ => Step.Keeps.pure shell
  have hstuck : ∀ shell : Bool, Isolates (do
      moveUpperEntryLeavingStuckRecords p q true
      pure shell : Op Bool) := fun shell =>
    Step.Keeps.bind (moveUpperEntryOnDisk_isolates p q true) fun _ => Step.Keeps.pure shell
  refine Step.Keeps.ite ?_ ?_
  · cases replace with
    | inPlace => exact hstuck false
    | no => exact hmove false false
    | afterAside => exact hmove true false
  · cases mode with
    | fullCopy =>
      refine Step.Keeps.bind (CopyUp.copyUpFile_isolates p) fun _ => ?_
      cases replace with
      | inPlace => exact hstuck false
      | no => exact hmove false false
      | afterAside => exact hmove true false
    | shellWhenPossible =>
      refine Step.Keeps.bind (CopyUp.copyUpFileOrShell_isolates p none) fun copied => ?_
      cases replace with
      | inPlace => exact hstuck copied.stagedShell
      | no => exact hmove false copied.stagedShell
      | afterAside => exact hmove true copied.stagedShell

theorem renameFileEntry_isolates (p q : RelPath) (replace : FileRenameReplace)
    (mode : RenameCopyUp) : Isolates (renameFileEntry p q replace mode) := by
  refine Step.Keeps.get fun e => Step.Keeps.attempt_cases (moveToUpper_isolates p q replace mode)
    (fun shell => ?_) fun _ => Step.Keeps.pure _
  exact Step.Keeps.ite (Step.Keeps.pure _) (whiteOutSource_isolates _ shell)

/-! ## The merged copy of a directory -/

/-- What `CopyMergedEntry` may clone as it is. -/
theorem fitsUpper_mergedEntryAt (he : e.Separate) {entry : MergedEntry}
    (ht : mergedEntryAt e entry p = some t) (hlink : isLinkPlace (some t) = true) :
    FitsUpper e (some t) := by
  rw [mergedEntryAt] at ht
  split at ht
  · exact ht ▸ he.upperAt p
  · exact ht ▸ he.lowerAt (ht ▸ hlink)
  · cases ht

theorem copiedFile_origin (he : e.Separate) (source : LayerSource) (sparse : Bool)
    (id : FileId) {origin : Origin}
    (h : (copiedFile source sparse (fileAt e.files id)).metacopy = some origin) :
    origin.file < e.files.length := by
  have hold : (fileAt e.files id).metacopy = some origin := by
    cases source <;> simp only [copiedFile] at h <;> split at h <;> simp_all [CopyUp.clonedFile]
  exact he.wf.origin_lt hold

/-- A step that gives children of a staged directory, each of which fits the upper. -/
abbrev GivesChildren (m : Op (List (Name × Tree))) : Prop :=
  ∀ e : Engine, e.Separate →
    m.Follows Isolated e fun children g => ∀ c ∈ children, FitsUpper g (some c.2)

theorem copyMergedEntryWith_follows
    {copyChildren : MergedDirectoryWithAncestry → Op (List (Name × Tree))}
    (h : ∀ dir, GivesChildren (copyChildren dir)) (he : e.Separate)
    (oldParent : MergedDirectoryWithAncestry) (name : Name) (entry : MergedEntry) :
    (copyMergedEntryWith copyChildren oldParent name entry).Follows Isolated e
      fun t g => FitsUpper g (some t) := by
  apply Step.Follows.get
  cases ht : mergedEntryAt e entry (oldParent.dirPath ++ [name]) with
  | none => exact Step.Follows.fail
  | some t =>
    cases t with
    | leaf v =>
      cases v with
      | file id =>
        exact Step.Follows.bind (newFile_follows he fun _ => copiedFile_origin he _ _ id)
          fun staged _ _ hg => Step.Follows.pure hg
      | deadLink => exact Step.Follows.pure (fitsUpper_leaf fun _ hv => by cases hv)
      | marker => exact Step.Follows.pure (fitsUpper_leaf fun _ hv => by cases hv)
    | node v children =>
      refine Step.Follows.ite (fun hlink => ?_) fun _ => ?_
      · refine Step.Follows.pure (fitsUpper_mergedEntryAt he ht ?_).clonedLink
        simp [isLinkPlace, treeKind, hlink]
      · exact Step.Follows.bind (h _ e he) fun children _ _ hg =>
          Step.Follows.pure (fitsUpper_node hg)

theorem copyMergedEntriesWith_follows
    {copyChildren : MergedDirectoryWithAncestry → Op (List (Name × Tree))}
    (h : ∀ dir, GivesChildren (copyChildren dir)) (oldDir : MergedDirectoryWithAncestry)
    (entries : List (Name × MergedEntry)) :
    GivesChildren (copyMergedEntriesWith copyChildren oldDir entries) := by
  intro e he
  induction entries generalizing e with
  | nil => exact Step.Follows.pure fun _ hc => by cases hc
  | cons entry rest ih =>
    refine Step.Follows.bind (copyMergedEntryWith_follows h he oldDir entry.1 entry.2)
      fun copied f hf hcopied => ?_
    have hf := (hf he).separate
    refine Step.Follows.bind (ih f hf) fun others g hg hothers => Step.Follows.pure fun c hc => ?_
    rcases List.mem_cons.mp hc with rfl | hc
    · exact hcopied.mono (hg hf)
    · exact hothers c hc

theorem copyMergedChildren_follows (depth : Nat) (oldDir : MergedDirectoryWithAncestry) :
    GivesChildren (copyMergedChildren depth oldDir) := by
  induction depth generalizing oldDir with
  | zero => exact fun e _ => Step.Follows.fail
  | succ depth ih =>
    intro e he
    refine Step.Follows.bind (P := fun _ g => g = e) ?_ fun entries g _ hg => ?_
    · exact ⟨Std.Refl.refl e, fun _ _ => rfl⟩
    · obtain rfl := hg.symm
      exact copyMergedEntriesWith_follows ih oldDir entries e he

theorem copyMergedDirectory_follows (he : e.Separate) (p : RelPath) (source : ResolvedPath) :
    (copyMergedDirectory p source).Follows Isolated e fun t g => FitsUpper g (some t) := by
  refine Step.Follows.bind ((stageEntry_isolates _).follows e) fun _ f hf _ => ?_
  have hf := (hf he).separate
  refine removingStagedOnFailure_follows (Step.Follows.get ?_)
  refine Step.Follows.bind (copyMergedChildren_follows _ _ f hf) fun children k hk hchildren => ?_
  refine Step.Follows.bind ((diskStep_isolates _).follows k) fun _ g hg _ => Step.Follows.pure ?_
  exact fitsUpper_markOpaque ((fitsUpper_node hchildren).mono (hg (hk hf).separate))

/-! ## A directory or a link -/

theorem prepareRenameDestination_isolates (q : RelPath) (replace : Bool) :
    Isolates (prepareRenameDestination q replace) :=
  Step.Keeps.get fun _ => Step.Keeps.ite (Step.Keeps.fail _) (CopyUp.ensureUpperParent_isolates q)

theorem renameUpperDirectory_isolates (p q : RelPath) (kind : EntryKind) (replace : Bool) :
    Isolates (renameUpperDirectory p q kind replace) := by
  refine Step.Keeps.bind (prepareRenameDestination_isolates q replace) fun _ =>
    Step.Keeps.get fun e => ?_
  have hdrop := invalidateWithAncestors_isolates p
  have hok := Step.Keeps.bind hdrop fun _ => invalidateWithAncestors_isolates q
  have hfailed := fun status : NtStatus => Step.Keeps.bind hdrop fun _ =>
    (Step.Keeps.fail status : Isolates (Op.fail status : Op Unit))
  have hmoved := moveUpperEntry_isolates p q replace
  refine Step.Keeps.ite (Step.Keeps.bind (WhiteoutManager.setOpaqueAtPath_isolates p) fun _ => ?_) ?_
  · exact Step.Keeps.attempt_cases hmoved (fun _ => hok) fun status =>
      Step.Keeps.ite (hfailed status) (Step.Keeps.fail status)
  · exact Step.Keeps.attempt_cases hmoved (fun _ => hok) fun status =>
      Step.Keeps.ite (hfailed status) (Step.Keeps.fail status)

/-- A link that the view shows and the upper does not hold is a link of a lower. -/
theorem shownLink_of_free {v : Shown} (hfree : k.upperAt (c ++ [m]) = none)
    (hview : viewAt k (c ++ [m]) = some v) (hkind : v.kind = .link)
    (hlink : isInLinkTarget k.config c = false)
    (ht : k.resolvedAt (resolveLowerPath k.config (c ++ [m])) = some t) :
    isLinkPlace (some t) = true := by
  obtain ⟨i, t', -, hv, ht'⟩ := suppliedBy_of_free hfree hview hlink
  obtain rfl : t = t' := Option.some.inj (ht.symm.trans ht')
  rw [isLinkPlace, decide_eq_true_eq, ← kind_shownOf k.files false, ← hv, hkind]

theorem renameDirectoryCase_follows {v : Shown} (hk : k.Separate)
    (h : SetOff e k (c ++ [m]) (c ++ [m])) (hview : viewAt k (c ++ [m]) = some v) :
    (CopyUp.renameDirectoryCase (c ++ [m]) v.kind).Follows Isolated k fun _ _ => True := by
  apply Step.Follows.get
  dsimp only
  split
  · rename_i t hkind hfree ht
    have hparent := ((CopyUp.ensureUpperParent_isolates (c ++ [m])).follows k).and_yields
      ((ensureUpperParent_leads h.resolvable).yields fun _ _ hr => hr rfl)
    refine Step.Follows.bind hparent fun _ f hf hleads => ?_
    have hf := hf hk
    have hunlinked := h.unlinked hleads.2 hfree
    rw [List.dropLast_concat] at hunlinked
    have hfits := hk.link ht (shownLink_of_free hfree hview hkind hunlinked ht)
    refine Step.Follows.bind (CopyUp.cloneThroughWorkDir_follows hf.separate
      (fun _ => hfits.mono hf) _) fun _ g _ _ => ?_
    exact (invalidateWithAncestors_isolates _).follows g
  · refine (Step.Keeps.bind (CopyUp.copyUpDirectory_isolates _) fun _ => ?_).follows k
    refine Step.Keeps.attempt (moveUpperEntry_isolates _ _ _) fun status => ?_
    exact Step.Keeps.bind (invalidateWithAncestors_isolates _) fun _ => Step.Keeps.ofExcept status

section Moving

variable {v : Shown} (hapart : Apart (c ++ [m]) (d ++ [n])) (hview : viewAt e (c ++ [m]) = some v)
  (hk : k.Separate) (h : SetOff e k (c ++ [m]) (d ++ [n]))

include hapart hview hk h

theorem renameLowerDirectory_follows
    (hlink : ParentLeads k (d ++ [n]) → isInLinkTarget k.config c = false)
    (hfree : v.kind = .link → k.upperAt (c ++ [m]) = none) (replace : Bool) :
    (renameLowerDirectory (c ++ [m]) (d ++ [n]) v.kind replace).Follows Isolated k
      fun _ _ => True := by
  have hview' : viewAt k (c ++ [m]) = some v := (h.view _ hapart.2).trans hview
  apply Step.Follows.get
  refine Step.Follows.attempt_bind (P := fun _ _ => True) ?_ (fun _ g _ _ => ?_)
    fun _ _ _ => Step.Follows.pure trivial
  · cases ht : k.resolvedAt (resolveLowerPath k.config (c ++ [m])) with
    | none => exact Step.Follows.fail
    | some t =>
      have hparent := ((prepareRenameDestination_isolates (d ++ [n]) replace).follows k).and_yields
        (prepareRenameDestination_yields hapart hview h replace)
      refine Step.Follows.bind hparent fun _ f hf hleads => ?_
      have hf := hf hk
      refine Step.Follows.ite (fun hkind => ?_) fun _ => ?_
      · have hfits := hk.link ht
          (shownLink_of_free (hfree hkind) hview' hkind (hlink hleads.2.1) ht)
        exact CopyUp.cloneThroughWorkDir_follows hf.separate (fun _ => hfits.mono hf) _
      · exact Step.Follows.bind (copyMergedDirectory_follows hf.separate _ _) fun staged k' hk' ht =>
          commitStaged_follows (hk' hf.separate).separate ht _
  · have hlast := fun (aside : Except NtStatus (Option Tree)) (occupied : Bool) =>
      Step.Keeps.bind (invalidateWithAncestors_isolates (c ++ [m])) fun _ =>
        Step.Keeps.bind (invalidateWithAncestors_isolates (d ++ [n])) fun _ =>
          Step.Keeps.pure (⟨aside.map fun _ => (), false, occupied⟩ : MovedSource)
    refine Step.Keeps.follows (Step.Keeps.attempt_cases ?_ (fun _ => hlast _ _) fun _ => ?_) g
    · exact Isolates.of_follows fun _ he => moveUpperEntryAside_follows he _
    · exact Step.Keeps.attempt_cases (removeUpperEntry_isolates _) (fun _ => hlast _ _) fun _ =>
        Step.Keeps.bind noteUndoFailure_isolates fun _ => hlast _ _

theorem renameDirectoryEntry_follows (route : DirectoryRenameRoute)
    (hroute : RouteFits k c m (d ++ [n]) v.kind route) (marks replace : Bool) :
    (renameDirectoryEntry ⟨c ++ [m], d ++ [n], marks⟩ v.kind route replace).Follows Isolated k
      fun _ _ => True := by
  have hwhite := whiteOutSource_isolates ⟨c ++ [m], d ++ [n], marks⟩ false
  have hupper := renameUpperDirectory_isolates (c ++ [m]) (d ++ [n]) v.kind replace
  cases route with
  | moveUpper =>
    refine Step.Keeps.follows (Step.Keeps.attempt_cases hupper (fun _ => ?_) fun status => ?_) k
    · exact Step.Keeps.pure _
    · exact Step.Keeps.pure _
  | moveUpperAndWhiteout =>
    refine Step.Keeps.follows (Step.Keeps.attempt_cases hupper (fun _ => ?_) fun status => ?_) k
    · exact hwhite
    · exact Step.Keeps.pure _
  | mergeLower =>
    refine Step.Follows.bind (renameLowerDirectory_follows hapart hview hk h hroute.1 hroute.2
      replace) fun moved g _ _ => ?_
    cases hstatus : moved.status with
    | error _ =>
      simp only [hstatus]
      exact Step.Follows.pure trivial
    | ok _ =>
      simp only [hstatus]
      exact hwhite.follows g

end Moving

/-! ## The whole rename -/

section Whole

variable {v : Shown} (hapart : c ++ [m] ≠ d ++ [n] → Apart (c ++ [m]) (d ++ [n]))
  (hview : viewAt e (c ++ [m]) = some v)

include hapart hview

theorem moveRenameSource_follows (hk : k.Separate) (h : SetOff e k (c ++ [m]) (d ++ [n]))
    (hview' : viewAt k (c ++ [m]) = some v) (replace : Bool) (fileReplace : FileRenameReplace)
    (route : DirectoryRenameRoute) (hroute : c ++ [m] ≠ d ++ [n] → v.kind ≠ .file →
      RouteFits k c m (d ++ [n]) v.kind route) (mode : RenameCopyUp) :
    (moveRenameSource (c ++ [m]) (d ++ [n]) replace fileReplace v.kind route mode).Follows
      Isolated k fun _ _ => True := by
  apply Step.Follows.get
  refine Step.Follows.ite (fun _ => ?_) fun hkind => Step.Follows.ite (fun heq => ?_) fun hne => ?_
  · exact (Step.Keeps.bind (renameFileEntry_isolates _ _ _ _) fun _ => Step.Keeps.pure _).follows k
  · rw [← heq] at h
    exact Step.Follows.attempt_bind (renameDirectoryCase_follows hk h hview')
      (fun _ _ _ _ => Step.Follows.pure trivial) fun _ _ _ => Step.Follows.pure trivial
  · exact Step.Follows.bind (renameDirectoryEntry_follows (hapart hne) hview hk h route
      (hroute hne hkind) _ replace) fun _ _ _ _ => Step.Follows.pure trivial

theorem moveAndFinish_follows {checked : CheckedRename} (hk : k.Separate)
    (h : SetOff e k (c ++ [m]) (d ++ [n])) (hview' : viewAt k (c ++ [m]) = some v)
    (hsource : checked.kinds.source = v.kind) (replace : Bool) (route : DirectoryRenameRoute)
    (hroute : c ++ [m] ≠ d ++ [n] → v.kind ≠ .file → RouteFits k c m (d ++ [n]) v.kind route)
    (mode : RenameCopyUp) {held : HeldAside} (hheld : FitsUpper k held) :
    (moveAndFinish (c ++ [m]) (d ++ [n]) replace checked route mode held).Follows Isolated k
      fun _ _ => True := by
  have hmove := moveRenameSource_follows hapart hview hk h hview' replace
    (checked.fileReplace replace) route hroute mode
  rw [← hsource] at hmove
  apply Step.Follows.get
  refine Step.Follows.bind hmove ?_
  rintro ⟨moved, rename⟩ f hf -
  have hf := hf hk
  have hput : ∀ (occupied : Bool) (status : NtStatus) {f : Engine}, Kept k f →
      (do
        if occupied then pure () else putBackAside (d ++ [n]) held
        Op.fail status : Op RenameResult).Follows Isolated f fun _ _ => True := by
    intro occupied status f hf
    cases occupied
    · exact Step.Follows.bind (putBackAside_follows (hheld.mono hf) _)
        fun _ _ _ _ => Step.Follows.fail
    · exact Step.Follows.fail
  have hlast := Step.Keeps.bind (invalidateWithAncestors_isolates (c ++ [m])) fun _ =>
    Step.Keeps.bind (invalidateWithAncestors_isolates (d ++ [n])) fun _ =>
      Step.Keeps.pure (⟨moved.stagedShell, checked.links.sourceInLinkTarget⟩ : RenameResult)
  dsimp only
  cases hstatus : moved.status with
  | error status => exact hput _ status hf
  | ok _ =>
    cases hasWhiteout : hasUpperWhiteout k (d ++ [n])
    · exact hlast.follows f
    · refine Step.Follows.bind ((removeDestinationWhiteoutOrUndo_isolates rename).follows f)
        fun removal g hg _ => ?_
      cases removal with
      | some undone => exact hput undone.2 undone.1 (hf.trans (hg hf.separate))
      | none => exact hlast.follows g

end Whole

theorem copyUpRenameLink_isolates (links : RenameLinks) : Isolates (copyUpRenameLink links) := by
  rw [copyUpRenameLink]
  cases links.lowerLinkToCopyUp with
  | none => exact Step.Keeps.pure ()
  | some link => exact CopyUp.copyUpDirectory_isolates link

/-- `RenameCheckedEntry`, of what the checks have let through. -/
theorem renameCheckedEntry_follows {checked : CheckedRename} {replace : Bool} (he : e.Separate)
    (hchecked : RenameChecked e p q replace checked) (mode : RenameCopyUp) :
    (renameCheckedEntry p q replace checked mode).Follows Isolated e fun _ _ => True := by
  obtain ⟨c, m, rfl⟩ : ∃ c m, p = c ++ [m] :=
    ⟨_, _, (List.dropLast_append_getLast hchecked.source_ne).symm⟩
  obtain ⟨d, n, rfl⟩ : ∃ d n, q = d ++ [n] :=
    ⟨_, _, (List.dropLast_append_getLast hchecked.new_ne).symm⟩
  obtain ⟨v, hview, hsource, -⟩ := hchecked.source
  refine Step.Follows.bind (((copyUpRenameLink_isolates _).follows e).and_yields
    (copyUpRenameLink_setsOff he.wf hchecked)) fun _ k hk hset => ?_
  obtain ⟨-, hraised, hset⟩ := hset
  have hk := (hk he).separate
  apply Step.Follows.get
  have hview' : viewAt k (c ++ [m]) = some v := by rw [hraised.view, hview]
  generalize hr : (if (decide (checked.kinds.source ≠ .file) &&
      decide (c ++ [m] ≠ d ++ [n])) = true then
        directoryRenameRouteOf k (c ++ [m]) checked.kinds.source
      else .moveUpper) = route
  have hroute : c ++ [m] ≠ d ++ [n] → v.kind ≠ .file →
      RouteFits k c m (d ++ [n]) v.kind route := by
    intro hne hkind
    rw [← hr, hsource, if_pos (by simp [hkind, hne])]
    exact directoryRenameRoute_fits hset hview' hkind
  have hfinish : (moveAndFinish (c ++ [m]) (d ++ [n]) replace checked route mode none).Follows
      Isolated k fun _ _ => True := moveAndFinish_follows hchecked.apart hview hk hset hview' hsource
    replace route hroute mode fitsUpper_none
  dsimp only
  split
  · refine Step.Follows.bind (((checkDestinationReplaceable_isolates _ _).follows k).and_yields
      (checkDestinationReplaceable_yields _ _ k)) fun _ g _ hg => ?_
    rw [hg.2]
    exact hfinish
  · exact hfinish
  · rename_i kind _ hdestination
    have hne : c ++ [m] ≠ d ++ [n] := fun heq => by
      rw [hchecked.alone heq] at hdestination
      cases hdestination
    refine Step.Follows.bind ((setRenameDestinationAside_follows hk _ kind).and_yields
      (setRenameDestinationAside_empties _ kind k)) fun held g hg hheld => ?_
    have hsome : (viewAt e (c ++ [m])).isSome = true := by rw [hview]; rfl
    have hapart := hchecked.apart hne
    exact moveAndFinish_follows hchecked.apart hview (hg hk).separate
      (hset.emptied hheld.2 hapart hsome) ((hheld.2.view hset.resolvable hapart.2).trans hview')
      hsource replace route (fun _ hkind => (hroute hne hkind).emptied hset hheld.2 hapart hsome)
      mode hheld.1
  · exact hfinish

theorem renameViewPaths_isolates [HostCase] (oldPath newPath : CallerPath) (replace : Bool) :
    Isolates (renameViewPaths oldPath newPath replace) := by
  refine Isolates.of_follows (Q := fun _ _ _ => True) fun e he => ?_
  have hcheck : (checkRename oldPath.norm newPath.norm replace).Yields e fun checked f =>
      Looked e f ∧ RenameChecked e oldPath.norm newPath.norm replace checked :=
    (checkRename_ensures _ _ replace e).yields fun checked _ hf => ⟨hf.1, hf.2 checked rfl⟩
  refine Step.Follows.bind (((checkRename_isolates _ _ replace).follows e).and_yields hcheck)
    fun checked f hf hchecked => ?_
  refine Step.Follows.ite (fun _ => Step.Follows.pure trivial) fun _ => ?_
  obtain ⟨-, hlooked, hchecked⟩ := hchecked
  exact Step.Follows.bind (renameCheckedEntry_follows (hf he).separate
    (hchecked.untouched hlooked.toUntouched) .shellWhenPossible)
      fun _ _ _ _ => Step.Follows.pure trivial

theorem renamePath_isolates [HostCase] (oldPath newPath : CallerPath) (replace : Bool) :
    Isolates (renamePath oldPath newPath replace) :=
  Step.Keeps.bind (walkCallerPath_isolates oldPath .keep) fun _ =>
    Step.Keeps.bind (walkCallerPath_isolates newPath .keep) fun _ =>
      renameViewPaths_isolates _ _ replace

end Rename

end LayerMount
