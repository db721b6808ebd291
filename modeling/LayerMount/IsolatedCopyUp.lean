import LayerMount.IsolatedSteps

/-!
# Copy-ups keep the lower layers

A copy-up puts a new file, a directory without its children or a link that leads where the lower's
link leads into the upper, so it never puts there what a lower owns.  The fill of a shell changes a
file of the upper only.  A delete removes from the upper and writes a whiteout there.
-/

namespace LayerMount

open Lib

variable {e f g : Engine} {d p q : RelPath} {o : Place} {t : Tree} {id : FileId}

/-! ## What a copy-up copies -/

theorem entryAt_of_fileOf (h : fileOf o = some id) : entryAt o [] = some (.inl (.file id)) := by
  cases o with
  | none => cases h
  | some t =>
    cases t with
    | node v children => cases h
    | leaf v =>
      cases v with
      | file i =>
        obtain rfl := Option.some.inj h
        simp [entryAt, PathTree.entry]
      | deadLink => cases h
      | marker => cases h

/-- The file of an upper entry is not one of a lower. -/
theorem Engine.Separate.fileOf_upperAt (he : e.Separate) (h : fileOf (e.upperAt p) = some id) :
    ¬Owns e.lowers id :=
  (he.upperAt p [] id (entryAt_of_fileOf h)).2

/-- A link of a lower leads to files that no lower owns. -/
theorem Engine.Separate.lowerAt (he : e.Separate) {i : Nat}
    (hlink : isLinkPlace (e.lowerAt i p) = true) : FitsUpper e (e.lowerAt i p) := by
  rw [Engine.lowerAt, List.getD_eq_getElem?_getD] at hlink ⊢
  cases hi : e.lowers[i]? with
  | none =>
    rw [Option.getD_none, placeAt_none]
    exact fitsUpper_none
  | some o =>
    rw [hi] at hlink
    exact he.links o (List.mem_of_getElem? hi) p hlink

theorem Engine.Separate.link (he : e.Separate) {r : ResolvedPath} (ht : e.resolvedAt r = some t)
    (hlink : isLinkPlace (some t) = true) : FitsUpper e (some t) := by
  rw [Engine.resolvedAt] at ht
  split at ht
  · exact ht ▸ he.upperAt _
  · exact ht ▸ he.lowerAt (ht ▸ hlink)
  · cases ht

/-- What is cloned as it is: a link, or no file at all. -/
theorem Engine.Separate.cloned (he : e.Separate) {r : ResolvedPath} (ht : e.resolvedAt r = some t)
    (hclones : CopyUp.clonesReparsePoint e.files t = true) (hfile : fileOf (some t) = none) :
    FitsUpper e (some t) := by
  cases t with
  | node v children =>
    refine he.link ht ?_
    have hlink : v.link = true := hclones
    simp [isLinkPlace, treeKind, hlink]
  | leaf v => exact fitsUpper_leaf fun i hi => by rw [hi] at hfile; cases hfile

namespace CopyUp

theorem cloneThroughWorkDir_follows (he : e.Separate)
    (ht : fileOf (some t) = none → FitsUpper e (some t)) (p : RelPath) :
    (cloneThroughWorkDir t p).Follows Isolated e fun _ _ => True := by
  rw [cloneThroughWorkDir]
  cases hfile : fileOf (some t) with
  | none =>
    refine Step.Follows.bind ((stageEntry_isolates _).follows e) fun _ f hf _ => ?_
    exact commitStaged_follows (hf he).separate ((ht hfile).clonedLink.mono (hf he)) p
  | some id =>
    apply Step.Follows.get
    refine Step.Follows.bind ((stageEntry_isolates _).follows e) fun _ f hf _ => ?_
    refine Step.Follows.bind (newFile_follows (hf he).separate fun _ h => by cases h)
      fun staged k hk hstaged => ?_
    exact commitStaged_follows (hk (hf he).separate).separate hstaged p

theorem fitsUpper_stagedDirectory (t : Tree) : FitsUpper e (some (stagedDirectory t)) := by
  cases t <;> exact fitsUpper_node fun _ hc => by cases hc

theorem copyUpDirectoryTarget_isolates (p : RelPath) (source : ResolvedPath) :
    Isolates (copyUpDirectoryTarget p source) := by
  refine Isolates.of_follows (Q := fun _ _ _ => True) fun e he => Step.Follows.get ?_
  have hlast : ∀ f, (invalidateWithAncestors p).Follows Isolated f fun _ _ => True := fun f =>
    (invalidateWithAncestors_isolates p).follows f
  cases ht : e.resolvedAt source with
  | none => exact Step.Follows.fail
  | some t =>
    refine Step.Follows.ite (fun hclones => ?_) fun _ => ?_
    · exact Step.Follows.bind (cloneThroughWorkDir_follows he (he.cloned ht hclones) p)
        fun _ f _ _ => hlast f
    · refine Step.Follows.bind ((stageEntry_isolates _).follows e) fun _ f hf _ => ?_
      exact Step.Follows.bind
        (commitStaged_follows (hf he).separate (fitsUpper_stagedDirectory t) p)
        fun _ k _ _ => hlast k

theorem ensureUpperParentWith_isolates {copyUpDirectory : RelPath → Op Unit}
    (h : ∀ d, Isolates (copyUpDirectory d)) (p : RelPath) :
    Isolates (ensureUpperParentWith copyUpDirectory p) := by
  refine Step.Keeps.ite (Step.Keeps.pure ()) (Step.Keeps.get fun e => ?_)
  cases e.upperAt p.dropLast with
  | some t => exact Step.Keeps.ite (Step.Keeps.pure ()) (Step.Keeps.fail _)
  | none =>
    exact Step.Keeps.bind (lookup_isolates _) fun shown => Step.Keeps.get fun e =>
      Step.Keeps.ite (Step.Keeps.fail _) (Step.Keeps.ite (h _) (Step.Keeps.fail _))

theorem prepareCopyUpTargetWith_isolates {copyUpDirectory : RelPath → Op Unit}
    (h : ∀ d, Isolates (copyUpDirectory d)) (p : RelPath) :
    Isolates (prepareCopyUpTargetWith copyUpDirectory p) :=
  Step.Keeps.get fun _ => Step.Keeps.ite (Step.Keeps.fail _) <|
    Step.Keeps.bind (ensureUpperParentWith_isolates h p) fun _ =>
      Step.Keeps.get fun _ => Step.Keeps.ite (Step.Keeps.pure _) (Step.Keeps.pure _)

theorem copyUpDirectoryWithin_isolates (n : Nat) (p : RelPath) :
    Isolates (copyUpDirectoryWithin n p) := by
  induction n generalizing p with
  | zero => exact Step.Keeps.fail _
  | succ n ih =>
    refine Step.Keeps.bind (existsInUpper_isolates p) fun held =>
    Step.Keeps.ite (Step.Keeps.pure ()) ?_
    refine Step.Keeps.bind (prepareCopyUpTargetWith_isolates ih p) fun source => ?_
    cases source with
    | none => exact Step.Keeps.pure ()
    | some source => exact copyUpDirectoryTarget_isolates p source

theorem copyUpDirectory_isolates (p : RelPath) : Isolates (copyUpDirectory p) :=
  copyUpDirectoryWithin_isolates _ p

theorem ensureUpperParent_isolates (p : RelPath) : Isolates (ensureUpperParent p) :=
  ensureUpperParentWith_isolates copyUpDirectory_isolates p

theorem prepareCopyUpTarget_isolates (p : RelPath) : Isolates (prepareCopyUpTarget p) :=
  prepareCopyUpTargetWith_isolates copyUpDirectory_isolates p

/-! ## Files -/

theorem commitStagedFile_follows (he : e.Separate) (hid : FitsUpper e (some (.leaf (.file id))))
    (p : RelPath) : (commitStagedFile p id).Follows Isolated e fun _ _ => True := by
  refine Step.Follows.bind ((ensureDirectoryExists_isolates _).follows e) fun _ f hf _ => ?_
  refine Step.Follows.bind (commitStaged_follows (hf he).separate (hid.mono (hf he)) p)
    fun _ k _ _ => ?_
  exact (invalidateWithAncestors_isolates p).follows k

theorem stageFile_follows (he : e.Separate) (x : FileObj) :
    (stageFile x).Follows Isolated e
      fun id g => g.Separate ∧ FitsUpper g (some (.leaf (.file id))) := by
  apply Step.Follows.get
  refine Step.Follows.bind ((stageEntry_isolates _).follows e) fun _ f hf _ => ?_
  have hf := (hf he).separate
  exact (newFile_follows hf fun _ h => by cases h).mono fun id g hg hid => ⟨(hg hf).separate, hid⟩

theorem copyUpFile_isolates (p : RelPath) : Isolates (copyUpFile p) := by
  refine Step.Keeps.bind (existsInUpper_isolates p) fun held =>
    Step.Keeps.ite (Step.Keeps.pure ()) ?_
  refine Step.Keeps.bind (prepareCopyUpTarget_isolates p) fun source => ?_
  cases source with
  | none => exact Step.Keeps.pure ()
  | some source =>
    refine Isolates.of_follows (Q := fun _ _ _ => True) fun e he => Step.Follows.get ?_
    cases ht : e.resolvedAt source with
    | none => exact Step.Follows.fail
    | some t =>
      refine Step.Follows.ite (fun hclones => ?_) fun _ => ?_
      · exact Step.Follows.bind (cloneThroughWorkDir_follows he (he.cloned ht hclones) p)
          fun _ f _ _ => (invalidateWithAncestors_isolates p).follows f
      · cases fileOf (some t) with
        | none => exact Step.Follows.fail
        | some id =>
          exact Step.Follows.bind (stageFile_follows he _) fun staged f _ hstaged =>
            commitStagedFile_follows hstaged.1 hstaged.2 p

theorem copyUpMetadataOnly_isolates (p : RelPath) : Isolates (copyUpMetadataOnly p) := by
  refine Step.Keeps.bind (existsInUpper_isolates p) fun held =>
    Step.Keeps.ite (Step.Keeps.pure _) ?_
  refine Step.Keeps.get fun e => Step.Keeps.bind (Step.Keeps.ofExcept _) fun _ => ?_
  refine Step.Keeps.bind (prepareCopyUpTarget_isolates p) fun source => ?_
  cases source with
  | none => exact Step.Keeps.pure _
  | some source =>
    refine Isolates.of_follows (Q := fun _ _ _ => True) fun e he => Step.Follows.get ?_
    cases hfile : fileOf (e.resolvedAt source) with
    | none => exact Step.Follows.fail
    | some id =>
      refine Step.Follows.bind ((stageEntry_isolates _).follows e) fun _ f hf _ => ?_
      have hf := hf he
      refine Step.Follows.bind (newFile_follows hf.separate fun origin horigin => ?_)
        fun staged k hk hstaged => ?_
      · -- the record names the lower file that the shell stands for
        obtain rfl := Option.some.inj horigin
        exact Nat.lt_of_lt_of_le (he.wf.resolvedAt source [] id (entryAt_of_fileOf hfile)) hf.length
      · exact Step.Follows.bind (commitStagedFile_follows (hk hf.separate).separate hstaged p)
          fun _ _ _ _ => Step.Follows.pure trivial

theorem copyUpFileOrShell_isolates (p : RelPath) (shellOnlyAboveBytes : Option Nat) :
    Isolates (copyUpFileOrShell p shellOnlyAboveBytes) := by
  have hfull : Isolates (do copyUpFile p; pure ⟨false⟩ : Op FileCopyUpResult) :=
    Step.Keeps.bind (copyUpFile_isolates p) fun _ => Step.Keeps.pure _
  refine Step.Keeps.get fun e => Step.Keeps.ite hfull ?_
  dsimp only
  cases e.resolvedAt (resolveLowerPath e.config p) with
  | none => exact hfull
  | some t => exact Step.Keeps.ite hfull (copyUpMetadataOnly_isolates p)

/-- The fill of a shell writes to a file of the upper. -/
theorem completeLazyCopyUp_isolates (p : RelPath) : Isolates (completeLazyCopyUp p) := by
  refine Isolates.of_follows (Q := fun _ _ _ => True) fun e he => Step.Follows.get ?_
  cases hfile : fileOf (e.upperAt p) with
  | none => exact Step.Follows.pure trivial
  | some id =>
    dsimp only
    cases hmeta : (fileAt e.files id).metacopy with
    | none => exact Step.Follows.pure trivial
    | some origin =>
      have hset : ∀ {k : Engine} {x : FileObj}, Isolated e k →
          (∀ o, x.metacopy = some o → o = origin) →
          (setFile id x).Follows Isolated k fun _ _ => True := by
        intro k x hk hx
        refine Step.Follows.modify (isolated_setFile (fun _ => ?_) fun _ o ho => ?_) trivial
        · rw [(hk he).lowers]
          exact he.fileOf_upperAt hfile
        · rw [hx o ho]
          exact Nat.lt_of_lt_of_le (he.wf.origin_lt hmeta) (hk he).length
      refine Step.Follows.bind ((diskStep_isolates _).follows e) fun _ f hf _ => ?_
      refine Step.Follows.bind (hset hf fun o ho => ?_) fun _ f₁ hf₁ _ => ?_
      · exact Option.some.inj (ho.symm.trans hmeta)
      have hf₁ := trans_of Isolated hf hf₁
      refine Step.Follows.bind ((diskStep_isolates _).follows f₁) fun _ f₂ hf₂ _ => ?_
      exact hset (trans_of Isolated hf₁ hf₂) fun o ho => by cases ho

theorem copyUpLowerLinkAbove_isolates (p : RelPath) : Isolates (copyUpLowerLinkAbove p) := by
  refine Step.Keeps.get fun e => ?_
  dsimp only
  cases (findLinkAbove e.config p).stop with
  | link => exact Step.Keeps.ite (copyUpDirectory_isolates _) (Step.Keeps.pure ())
  | unreadable => exact Step.Keeps.pure ()
  | none => exact Step.Keeps.pure ()

end CopyUp

/-! ## Delete -/

theorem canDeleteEntry_isolates (p : RelPath) : Isolates (canDeleteEntry p) :=
  Step.Keeps.bind (lookup_isolates p) fun _ => Step.Keeps.get fun _ =>
    Step.Keeps.ite (Step.Keeps.fail _) <| Step.Keeps.ite (Step.Keeps.fail _) <|
      Step.Keeps.ite (Step.Keeps.ofExcept _) (Step.Keeps.pure ())

theorem removeShownUpperEntry_isolates (p : RelPath) (t : Tree) :
    Isolates (removeShownUpperEntry p t) :=
  Step.Keeps.get fun _ => Step.Keeps.ite
    (Step.Keeps.bind (WhiteoutManager.removeOpaque_isolates p) fun _ =>
      removeUpperEntryOfKind_isolates p)
    (removeUpperEntryOfKind_isolates p)

theorem invalidatingOnFailure_isolates {m : Op Unit} (hm : Isolates m) (p : RelPath) :
    Isolates (invalidatingOnFailure p m) :=
  Step.Keeps.attempt_cases hm (fun _ => Step.Keeps.pure ()) fun status =>
    Step.Keeps.bind (invalidateWithAncestors_isolates p) fun _ => Step.Keeps.fail status

theorem remove_isolates (p : RelPath) : Isolates (UpperEntryRemover.remove p) := by
  refine Step.Keeps.bind (lookup_isolates p) fun _ => Step.Keeps.get fun e => ?_
  have hlast := invalidateWithAncestors_isolates p
  have hwhiteout := Step.Keeps.bind
    (invalidatingOnFailure_isolates (WhiteoutManager.createWhiteout_isolates p) p) fun _ => hlast
  dsimp only
  cases e.upperAt p with
  | none => exact Step.Keeps.ite hwhiteout hlast
  | some t =>
    exact Step.Keeps.bind (invalidatingOnFailure_isolates (removeShownUpperEntry_isolates p t) p)
      fun _ => Step.Keeps.ite hwhiteout hlast

theorem removeEntry_isolates (p : RelPath) : Isolates (removeEntry p) :=
  Step.Keeps.bind (CopyUp.copyUpLowerLinkAbove_isolates p) fun _ => remove_isolates p

theorem canDelete_isolates [HostCase] (path : CallerPath) : Isolates (canDelete path) :=
  Step.Keeps.bind (walkCallerPath_isolates path .keep) fun _ =>
    Step.Keeps.ite (Step.Keeps.fail _) <|
      Step.Keeps.bind (canDeleteEntry_isolates _) fun _ => Step.Keeps.pure _

theorem deletePath_isolates [HostCase] (path : CallerPath) : Isolates (deletePath path) :=
  Step.Keeps.bind (canDelete_isolates path) fun p => removeEntry_isolates p

end LayerMount
