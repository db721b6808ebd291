import LayerMount.SafeContexts

/-!
# No run of calls changes a lower layer

Every call keeps the layers apart and the contexts safe, so over any run of calls, whatever each of
them answers and wherever a disk step fails, the lowers and the files that they own are as they were
(`run_keeps_lowers`).
-/

namespace LayerMount

open Lib

variable {e f g : Engine} {p q : RelPath} {t : Tree} {id : FileId} {h : Nat} {α β : Type}
  {ctx : FileContext}

namespace Context

/-! ## Open and create -/

theorem setOpenPath_follows (he : e.Confined) (hclosed : Closed h e) (p : RelPath)
    (resolved : ResolvedPath) : (setOpenPath p resolved h).Follows Guarded e fun _ _ => True := by
  refine Step.Follows.bind (get_follows h e) fun ctx f _ hctx => ?_
  obtain ⟨rfl, -⟩ := hctx
  refine Step.Follows.ite (fun _ => ?_) fun _ => ?_
  · refine Step.Follows.bind (copyUpForHandle_follows he hclosed p _) fun _ g _ hclosed => ?_
    exact Step.Follows.modify (guarded_modify fun old hold _ _ =>
      safeContext_of_closed (fun _ => ⟨p, rfl⟩) (hclosed old hold)) trivial
  · refine Step.Follows.modify (guarded_modify fun old hold _ _ =>
      safeContext_of_closed (fun hwritable => ⟨p, ?_⟩) (hclosed old hold)) trivial
    have hupper : resolved.source = .upper := by simpa using hwritable
    simp [actualPathOf, hupper]

theorem openPath_guards [HostCase] (path : CallerPath) (access : Access) (finalLink : FinalLink) :
    Guards (openPath path access finalLink) := by
  refine Step.Keeps.bind (isolates_guards (walkCallerPath_isolates path finalLink)) fun view => ?_
  refine Step.Keeps.ite ?_ (Step.Keeps.ite (Step.Keeps.fail _) ?_)
  · exact withNew_guards (fun _ => ⟨[], rfl⟩) rfl fun h e _ _ => (openHandle_guards h).follows e
  · refine Step.Keeps.bind (isolates_guards (lookup_isolates _)) fun resolved => ?_
    refine Step.Keeps.ite (Step.Keeps.fail _) (withNew_guards (fun hw => by cases hw) rfl ?_)
    intro h e he hclosed
    refine Step.Follows.bind (setOpenPath_follows he hclosed _ resolved) fun _ f _ _ => ?_
    have hopen := Step.Keeps.bind (fillShellForDataAccess_guards view.norm h) fun _ =>
      openHandle_guards h
    exact (Step.Keeps.ite (Step.Keeps.bind (readMetacopyFlag_guards _ h) fun _ => hopen)
      hopen).follows f

theorem removeNewDirectory_isolates (p : RelPath) : Isolates (removeNewDirectory p) := by
  refine Step.Keeps.get fun e => ?_
  split
  · exact Step.Keeps.modify fun e => isolated_put (fun _ => fitsUpper_none) p
  · exact Step.Keeps.modify fun e => isolated_of_same rfl rfl rfl rfl

theorem undoCreatedDirectory_isolates (p : RelPath) (resolution : CreateResolution) :
    Isolates (undoCreatedDirectory p resolution) :=
  Step.Keeps.ite (Step.Keeps.bind (WhiteoutManager.removeOpaque_isolates p) fun _ =>
    removeNewDirectory_isolates p) (removeNewDirectory_isolates p)

theorem withRollback_guards {undo rest : Op Unit} (hundo : Guards undo) (hrest : Guards rest) :
    Guards (withRollback undo rest) :=
  Step.Keeps.attempt_cases hrest (fun _ => Step.Keeps.pure ()) fun status =>
    Step.Keeps.bind hundo fun _ => Step.Keeps.fail status

theorem finishCreatedEntry_isolates (p : RelPath) (resolution : CreateResolution) :
    Isolates (finishCreatedEntry p resolution) :=
  Step.Keeps.bind (diskStep_isolates _) fun _ =>
    Step.Keeps.ite (WhiteoutManager.removeWhiteout_isolates p) (Step.Keeps.pure ())

theorem finishCreatedDirectory_guards (p : RelPath) (resolution : CreateResolution) (h : Nat) :
    Guards (finishCreatedDirectory p resolution h) := by
  have hmark : Isolates (markCreatedDirectory p resolution) :=
    Step.Keeps.ite (WhiteoutManager.setOpaque_isolates p) (Step.Keeps.pure ())
  refine Step.Keeps.bind (isolates_guards hmark) fun _ => ?_
  refine Step.Keeps.bind (isolates_guards (diskStep_isolates _)) fun _ => ?_
  refine Step.Keeps.bind (isolates_guards (diskStep_isolates _)) fun _ => ?_
  refine Step.Keeps.bind (openHandle_guards h) fun _ => ?_
  refine Step.Keeps.bind (isolates_guards (diskStep_isolates _)) fun _ => ?_
  exact isolates_guards (finishCreatedEntry_isolates p resolution)

theorem createDirectoryInUpper_guards (p : RelPath) (resolution : CreateResolution) (h : Nat) :
    Guards (createDirectoryInUpper p resolution h) := by
  have hplace : Isolates (placeEntry p (.node {} [])) := Isolates.of_follows fun e _ =>
    placeEntry_follows (fun _ => fitsUpper_node fun _ hc => by cases hc) p
  refine Step.Keeps.bind (isolates_guards (diskStep_isolates _)) fun _ => ?_
  refine Step.Keeps.bind (isolates_guards hplace) fun _ => ?_
  exact withRollback_guards (isolates_guards (undoCreatedDirectory_isolates p resolution))
    (finishCreatedDirectory_guards p resolution h)

theorem finishCreatedFile_guards (p : RelPath) (request : CreateRequest)
    (resolution : CreateResolution) (h : Nat) :
    Guards (finishCreatedFile p request resolution h) := by
  have hsettings : Isolates (applyNewHostFileSettings request.allocationSize) :=
    Step.Keeps.bind (diskStep_isolates _) fun _ =>
      Step.Keeps.ite (diskStep_isolates _) (Step.Keeps.pure ())
  refine Step.Keeps.bind (openHandle_guards h) fun _ => ?_
  refine Step.Keeps.bind (isolates_guards (diskStep_isolates _)) fun _ => ?_
  refine Step.Keeps.bind (isolates_guards hsettings) fun _ => ?_
  exact isolates_guards (finishCreatedEntry_isolates p resolution)

theorem createFileInUpper_guards (p : RelPath) (request : CreateRequest)
    (resolution : CreateResolution) (h : Nat) :
    Guards (createFileInUpper p request resolution h) := by
  have hundo : Guards (Op.modify fun e => e.putUpper p none) :=
    isolates_guards (Step.Keeps.modify fun e => isolated_put (fun _ => fitsUpper_none) p)
  have hfinish := withRollback_guards hundo (finishCreatedFile_guards p request resolution h)
  refine Step.Keeps.bind (isolates_guards (diskStep_isolates _)) fun _ => ?_
  refine Guards.of_follows (Q := fun _ _ _ => True) fun e he => ?_
  refine Step.Follows.bind (follows_guarded (newFile_follows he.separate fun _ horigin => ?_))
    fun id f _ hid => ?_
  · cases horigin
  · refine Step.Follows.bind (follows_guarded (placeEntry_follows (fun _ => hid) p))
      fun _ g _ _ => ?_
    exact hfinish.follows g

theorem checkCreatePreconditions_isolates (p : RelPath) :
    Isolates (checkCreatePreconditions p) := by
  have hresolve : Isolates (resolveForCreate p) :=
    Step.Keeps.get fun _ => Step.Keeps.bind (lookup_isolates p) fun _ => Step.Keeps.pure _
  exact Step.Keeps.get fun _ => Step.Keeps.ite (Step.Keeps.fail _) <|
    Step.Keeps.bind hresolve fun _ => Step.Keeps.ite (Step.Keeps.fail _) (Step.Keeps.pure _)

theorem createPath_guards [HostCase] (request : CreateRequest) : Guards (createPath request) := by
  refine Step.Keeps.bind (isolates_guards (walkCallerPath_isolates _ _)) fun view => ?_
  refine Step.Keeps.ite (Step.Keeps.fail _) ?_
  refine Step.Keeps.bind (isolates_guards (checkCreatePreconditions_isolates _)) fun resolution => ?_
  refine Step.Keeps.bind (isolates_guards (CopyUp.ensureUpperParent_isolates _)) fun _ => ?_
  refine Step.Keeps.bind (withNew_guards (fun _ => ⟨view.norm, rfl⟩) rfl fun h f _ _ => ?_) fun h =>
    Step.Keeps.bind (isolates_guards (invalidateWithAncestors_isolates _)) fun _ =>
      Step.Keeps.pure h
  exact (Step.Keeps.ite (createDirectoryInUpper_guards view.norm resolution h)
    (createFileInUpper_guards view.norm request resolution h)).follows f

theorem close_guards (h : Nat) : Guards (close h) := by
  refine Step.Keeps.bind (get_guards h) fun _ => Step.Keeps.modify fun e => ?_
  refine guarded_contexts fun he ctx hmem => ?_
  rcases List.mem_or_eq_of_mem_set hmem with hmem | hmem
  · exact he.contexts ctx hmem
  · cases hmem

theorem modifyClosed_guards {change : FileContext → FileContext} (h : Nat)
    (hclosed : ∀ ctx, (change ctx).handle = none)
    (hwritable : ∀ ctx, (ctx.writable = true → ∃ p, ctx.actualPath = .upper p) →
      (change ctx).writable = true → ∃ p, (change ctx).actualPath = .upper p) :
    Guards (modify h change) :=
  Step.Keeps.modify fun _ => guarded_modify fun old _ hold _ =>
    safeContext_of_closed (hwritable old hold.writable) (hclosed old)

theorem cleanup_guards (h : Nat) : Guards (cleanup h) :=
  Step.Keeps.bind (get_guards h) fun _ =>
    modifyClosed_guards h (fun _ => rfl) fun _ hold => hold

/-! ## Data -/

theorem ensureHandleReady_guards (h : Nat) : Guards (ensureHandleReady h) :=
  fun e => (ensureHandleReady_follows h e).1

theorem read_guards (h offset length : Nat) : Guards (read h offset length) := by
  refine Step.Keeps.bind (ensureHandleReady_guards h) fun _ => ?_
  refine Step.Keeps.bind (get_guards h) fun ctx => Step.Keeps.get fun e => ?_
  split
  · exact Step.Keeps.ite (Step.Keeps.fail _) (Step.Keeps.ite (Step.Keeps.fail _) (Step.Keeps.pure _))
  · exact Step.Keeps.fail _

section OnUpper

variable (he : e.Confined) (hup : OnUpper h e)

include he hup

/-- The handle of a context on the upper. -/
theorem handleFile_free (hctx : e.contexts.getD h none = some ctx)
    (hid : ctx.handle = some (.file id)) : ¬Owns e.lowers id := by
  obtain ⟨p, hp⟩ := hup ctx hctx
  exact (he.contexts ctx (mem_of_getD hctx)).handle p id hp hid

/-- The path of a context on the upper. -/
theorem pathFile_free (hctx : e.contexts.getD h none = some ctx)
    (hid : fileOf (placeOf e ctx.actualPath) = some id) : ¬Owns e.lowers id := by
  obtain ⟨p, hp⟩ := hup ctx hctx
  rw [hp] at hid
  exact he.separate.fileOf_upperAt hid

theorem setInfoTarget_free (hctx : e.contexts.getD h none = some ctx) {hasRight : Bool}
    (hid : setInfoTarget e ctx hasRight = some id) : ¬Owns e.lowers id := by
  rw [setInfoTarget] at hid
  split at hid
  · rename_i i hhandle
    split at hid
    · rw [Option.some.inj hid] at hhandle
      exact handleFile_free he hup hctx hhandle
    · exact pathFile_free he hup hctx hid
  · cases hid
  · cases hid

omit he hup in
/-- A change of a file that no lower owns, which keeps its record. -/
theorem guarded_setFile {x : FileObj} (hid : ¬Owns e.lowers id)
    (hx : x.metacopy = (fileAt e.files id).metacopy) :
    Guarded e { e with files := e.files.set id x } :=
  (isolated_setFile (fun _ => hid) fun he _ horigin => he.wf.origin_lt (hx ▸ horigin)).guarded

omit he in
theorem changeData_follows (hid : ¬Owns e.lowers id) (f : Data → Data) :
    (changeData id f).Follows Guarded e fun _ g => OnUpper h g :=
  Step.Follows.modify (guarded_setFile hid (by rfl)) hup

omit he in
theorem setFileAttributes_follows (hid : ¬Owns e.lowers id) (a : SetAttributes) :
    (setFileAttributes id a).Follows Guarded e fun _ g => OnUpper h g :=
  Step.Follows.modify (guarded_setFile hid (by rfl)) hup

theorem writeFile_follows (request : WriteRequest) :
    (writeFile h request).Follows Guarded e fun _ g => OnUpper h g := by
  refine Step.Follows.bind (get_follows h e) fun ctx f _ hctx => ?_
  obtain ⟨rfl, hctx⟩ := hctx
  apply Step.Follows.get
  cases hhandle : ctx.handle with
  | none => exact Step.Follows.fail
  | some handle =>
    cases handle with
    | other => exact Step.Follows.fail
    | file id =>
      have hid := handleFile_free he hup hctx hhandle
      refine Step.Follows.ite (fun _ => Step.Follows.pure hup) fun _ => ?_
      refine Step.Follows.ite (fun _ => changeData_follows hup hid _) fun _ => ?_
      exact Step.Follows.ite (fun _ => changeData_follows hup hid _) fun _ => Step.Follows.fail

/-- A change of the size, through the handle or the path of the context. -/
theorem changeSize_follows (change : Data → Data) :
    (do
      let ctx ← get h
      let e ← Op.get
      match setInfoTarget e ctx ctx.grantedAccess.writeData with
      | some id => changeData id change
      | none => Op.fail .accessDenied : Op Unit).Follows Guarded e fun _ g => OnUpper h g := by
  refine Step.Follows.bind (get_follows h e) fun ctx f _ hctx => ?_
  obtain ⟨rfl, hctx⟩ := hctx
  apply Step.Follows.get
  cases htarget : setInfoTarget f ctx ctx.grantedAccess.writeData with
  | none => exact Step.Follows.fail
  | some id => exact changeData_follows hup (setInfoTarget_free he hup hctx htarget) change

theorem setEndOfFile_follows (size : Nat) :
    (setEndOfFile h size).Follows Guarded e fun _ g => OnUpper h g :=
  changeSize_follows he hup fun data => data.take size ++ List.replicate (size - data.length) 0

theorem setAllocationSize_follows (size : Nat) :
    (setAllocationSize h size).Follows Guarded e fun _ g => OnUpper h g :=
  changeSize_follows he hup fun data => data.take size

theorem setAttributes_follows (a : SetAttributes) :
    (setAttributes h a).Follows Guarded e fun _ g => OnUpper h g := by
  refine Step.Follows.bind (get_follows h e) fun ctx f _ hctx => ?_
  obtain ⟨rfl, hctx⟩ := hctx
  apply Step.Follows.get
  cases htarget : setInfoTarget f ctx ctx.grantedAccess.writeAttributes with
  | some id => exact setFileAttributes_follows hup (setInfoTarget_free he hup hctx htarget) a
  | none =>
    dsimp only
    cases hpath : ctx.actualPath with
    | lower i p => exact Step.Follows.fail
    | upper p =>
      dsimp only
      cases ht : f.upperAt p with
      | none => exact Step.Follows.fail
      | some t =>
        refine Step.Follows.modify (Isolated.guarded (isolated_put (fun he => ?_) p)) hup
        have hfits : FitsUpper f (some t) := ht ▸ he.upperAt p
        cases t with
        | leaf v => exact hfits
        | node v children => exact hfits.node

theorem deleteUserStreams_follows :
    (deleteUserStreams h).Follows Guarded e fun _ g => OnUpper h g := by
  refine Step.Follows.bind (get_follows h e) fun ctx f _ hctx => ?_
  obtain ⟨rfl, hctx⟩ := hctx
  apply Step.Follows.get
  cases hfile : fileOf (placeOf f ctx.actualPath) with
  | none => exact Step.Follows.pure hup
  | some id =>
    have hid := pathFile_free he hup hctx hfile
    exact Step.Follows.modify (guarded_setFile hid (by rfl)) hup

theorem overwriteAttributes_follows (replaceAttributes : Bool) (a : SetAttributes) :
    (overwriteAttributes h replaceAttributes a).Follows Guarded e fun _ g => OnUpper h g := by
  refine Step.Follows.bind (get_follows h e) fun ctx f _ hctx => ?_
  obtain ⟨rfl, hctx⟩ := hctx
  apply Step.Follows.get
  cases hfile : fileOf (placeOf f ctx.actualPath) with
  | none => exact Step.Follows.fail
  | some id =>
    have hid := pathFile_free he hup hctx hfile
    exact Step.Follows.ite (fun _ => setFileAttributes_follows hup hid _) fun _ =>
      setFileAttributes_follows hup hid _

end OnUpper

theorem whenSet_follows {value : Option α} {set : α → Op Unit} (hup : OnUpper h e)
    (hset : ∀ a, (set a).Follows Guarded e fun _ g => OnUpper h g) :
    (whenSet value set).Follows Guarded e fun _ g => OnUpper h g := by
  cases value with
  | none => exact Step.Follows.pure hup
  | some a => exact hset a

theorem write_guards (h : Nat) (request : WriteRequest) : Guards (write h request) := by
  refine Step.Keeps.bind (ensureHandleReady_guards h) fun _ => ?_
  refine Guards.of_follows (Q := fun _ _ g => OnUpper h g) fun e he => ?_
  refine Step.Follows.bind (ensureInUpperLayer_follows he h) fun _ f hf hup => ?_
  have hf := (hf he).confined
  refine Step.Follows.bind (ensureMetacopyMaterialized_follows hf hup) fun _ g hg hup => ?_
  exact writeFile_follows (hg hf).confined hup request

theorem setInfo_guards (h : Nat) (request : SetInfoRequest) : Guards (setInfo h request) := by
  refine Step.Keeps.bind (get_guards h) fun _ => Step.Keeps.ite (ensureHandleReady_guards h) ?_
  refine Guards.of_follows (Q := fun _ _ g => OnUpper h g) fun e he => ?_
  refine Step.Follows.bind (ensureInUpperLayer_follows he h) fun _ f hf hup => ?_
  have hf := (hf he).confined
  refine Step.Follows.bind (ensureHandleReady_follows h f) fun _ f₁ hf₁ hup₁ => ?_
  have hf₁ := (hf₁ hf).confined
  have hup₁ := hup₁ hup
  have hrest : ∀ {k : Engine}, k.Confined → OnUpper h k → (do
      whenSet request.fileAttributes (setAttributes h)
      whenSet request.allocationSize (setAllocationSize h)
      whenSet request.fileSize (setEndOfFile h) : Op Unit).Follows Guarded k
        fun _ g => OnUpper h g := by
    intro k hk hup
    refine Step.Follows.bind (whenSet_follows hup (setAttributes_follows hk hup))
      fun _ k₁ hk₁ hup₁ => ?_
    have hk₁ := (hk₁ hk).confined
    refine Step.Follows.bind (whenSet_follows hup₁ (setAllocationSize_follows hk₁ hup₁))
      fun _ k₂ hk₂ hup₂ => ?_
    exact whenSet_follows hup₂ (setEndOfFile_follows (hk₂ hk₁).confined hup₂)
  refine Step.Follows.ite (fun _ => Step.Follows.fail) fun _ => Step.Follows.ite (fun _ => ?_)
    fun _ => hrest hf₁ hup₁
  exact Step.Follows.bind (ensureMetacopyMaterialized_follows hf₁ hup₁) fun _ f₂ hf₂ hup₂ =>
    hrest (hf₂ hf₁).confined hup₂

theorem overwrite_guards (h : Nat) (request : OverwriteRequest) : Guards (overwrite h request) := by
  refine Step.Keeps.bind (ensureHandleReady_guards h) fun _ => ?_
  refine Guards.of_follows (Q := fun _ _ _ => True) fun e he => ?_
  refine Step.Follows.bind (ensureInUpperLayer_follows he h) fun _ f hf hup => ?_
  have hf := (hf he).confined
  refine Step.Follows.bind (ensureMetacopyMaterialized_follows hf hup) fun _ f₁ hf₁ hup => ?_
  have hf₁ := (hf₁ hf).confined
  refine Step.Follows.bind (deleteUserStreams_follows hf₁ hup) fun _ f₂ hf₂ hup => ?_
  have hf₂ := (hf₂ hf₁).confined
  refine Step.Follows.bind (setEndOfFile_follows hf₂ hup 0) fun _ f₃ hf₃ hup => ?_
  have hf₃ := (hf₃ hf₂).confined
  have hrest : ∀ {k : Engine}, k.Confined → OnUpper h k → (do
      whenSet request.fileAttributes (overwriteAttributes h request.replaceAttributes)
      let ctx ← get h
      invalidateWithAncestors ctx.relativePath : Op Unit).Follows Guarded k fun _ _ => True := by
    intro k hk hup
    refine Step.Follows.bind (whenSet_follows hup (overwriteAttributes_follows hk hup _))
      fun _ g _ _ => ?_
    exact (Step.Keeps.bind (get_guards h) fun ctx =>
      isolates_guards (invalidateWithAncestors_isolates ctx.relativePath)).follows g
  refine Step.Follows.ite (fun _ => ?_) fun _ => hrest hf₃ hup
  exact Step.Follows.bind (setAllocationSize_follows hf₃ hup _) fun _ f₄ hf₄ hup =>
    hrest (hf₄ hf₃).confined hup

/-! ## Delete and rename of a context -/

theorem delete_guards (h : Nat) : Guards (delete h) :=
  Step.Keeps.bind (get_guards h) fun ctx =>
    Step.Keeps.bind (isolates_guards (canDeleteEntry_isolates ctx.relativePath)) fun _ =>
      Step.Keeps.bind (modifyClosed_guards h (fun _ => rfl) fun _ hold => hold) fun _ =>
        isolates_guards (removeEntry_isolates ctx.relativePath)

/-- What a rename has checked holds whatever the contexts are. -/
theorem renameChecked_contexts {checked : Rename.CheckedRename} {replace : Bool}
    (hchecked : RenameChecked e p q replace checked) (contexts : List (Option FileContext)) :
    RenameChecked { e with contexts } p q replace checked := by
  obtain ⟨v, hview, hkind, hreplace⟩ := hchecked.source
  have hsame : ∀ r, viewAt { e with contexts } r = viewAt e r :=
    SameLayers.viewAt ⟨fun _ => rfl, rfl, rfl⟩
  have hconfig : ({ e with contexts } : Engine).config = e.config := rfl
  have hleads : ParentLeads { e with contexts } q ↔ ParentLeads e q := by
    rw [ParentLeads, ParentLeads, hconfig]
    exact Iff.rfl
  refine ⟨hchecked.source_ne, hchecked.new_ne, ⟨v, (hsame p).trans hview, hkind, fun hne => ?_⟩,
    hchecked.apart, hchecked.alone, hconfig ▸ hchecked.resolvable, ?_⟩
  · rw [Replaceable, Removable, hsame, hconfig]
    exact hreplace hne
  · obtain ⟨hlinks, hlowerLeads, hupper, hlower⟩ := hchecked.links
    constructor
    · rw [hleads, hconfig]
      exact hlinks
    · rw [hleads]
      exact hlowerLeads
    · rw [hleads, hconfig]
      exact hupper
    · rw [hconfig]
      exact hlower

theorem rename_guards [HostCase] (h : Nat) (path : CallerPath) (replace : Bool) :
    Guards (rename h path replace) := by
  refine Step.Keeps.bind (get_guards h) fun ctx => ?_
  refine Step.Keeps.bind (isolates_guards (walkCallerPath_isolates path .keep)) fun newView => ?_
  refine Step.Keeps.ite (isolates_guards (Rename.renameViewPaths_isolates _ _ replace)) ?_
  refine Guards.of_follows (Q := fun _ _ _ => True) fun e he => ?_
  have hcheck : (Rename.checkRename ctx.relativePath newView.norm replace).Yields e
      fun checked f => Looked e f ∧
        RenameChecked e ctx.relativePath newView.norm replace checked :=
    (checkRename_ensures _ _ replace e).yields fun checked _ hf => ⟨hf.1, hf.2 checked rfl⟩
  refine Step.Follows.bind ((isolates_follows (Rename.checkRename_isolates _ _ replace)
    he).and_yields hcheck) fun checked f hf hchecked => ?_
  obtain ⟨-, hlooked, hchecked⟩ := hchecked
  have hchecked := hchecked.untouched hlooked.toUntouched
  have hf := (hf he).confined
  apply Step.Follows.get
  -- the handle goes before the move, so the new path of the context opens nothing yet
  have hclose : (closeHandle h).Follows Guarded f fun _ g =>
      Closed h g ∧ RenameChecked g ctx.relativePath newView.norm replace checked :=
    ⟨(closeHandle_follows h f).1, fun a ha => ⟨(closeHandle_follows h f).2 a ha,
      renameChecked_contexts hchecked _⟩⟩
  refine Step.Follows.bind hclose fun _ k hk hclosed => ?_
  have hk := (hk hf).confined
  have hrenamed : ∀ mode, (Rename.renameCheckedEntry ctx.relativePath newView.norm replace checked
      mode).Follows Guarded k fun _ g => Closed h g := fun mode =>
    have hfollows := Rename.renameCheckedEntry_follows hk.separate hclosed.2 mode
    ⟨hfollows.1.guarded, fun _ _ => closed_of_contexts (hfollows.1 hk.separate).contexts hclosed.1⟩
  refine Step.Follows.attempt_bind (hrenamed _) (fun renamed g _ hclosed => ?_) fun status g _ => ?_
  · exact Step.Follows.modify (guarded_modify fun old hold _ _ =>
      safeContext_of_closed (fun _ => ⟨newView.norm, rfl⟩) (hclosed old hold)) trivial
  · have hflag : Guards (modify h fun ctx => { ctx with handleNeedsReopen := true }) :=
      modifyFlags_guards (fun _ => rfl) (fun _ => rfl) fun _ => rfl
    exact Step.Follows.bind (hflag.follows g) fun _ _ _ _ => Step.Follows.fail

theorem updatePath_guards [HostCase] (h : Nat) (path : CallerPath) :
    Guards (updatePath h path) := by
  refine Step.Keeps.bind (get_guards h) fun ctx => ?_
  refine Step.Keeps.bind (isolates_guards (walkCallerPath_isolates path .keep)) fun newView => ?_
  refine Step.Keeps.get fun e => Step.Keeps.ite (Step.Keeps.fail _) ?_
  refine Step.Keeps.ite (Step.Keeps.fail _) (Step.Keeps.ite (Step.Keeps.pure ()) ?_)
  exact modifyClosed_guards h (fun _ => rfl) fun _ _ _ => ⟨newView.norm, rfl⟩

end Context

/-! ## Calls by path -/

theorem setSecurity_isolates [HostCase] (path : CallerPath) : Isolates (setSecurity path) := by
  refine Step.Keeps.bind (walkCallerPath_isolates path .follow) fun view => ?_
  refine Step.Keeps.bind (lookup_isolates _) fun resolved => Step.Keeps.ite (Step.Keeps.fail _) ?_
  have hlast := invalidateWithAncestors_isolates view.norm
  refine Step.Keeps.ite (Step.Keeps.ite ?_ ?_) hlast
  · exact Step.Keeps.bind (CopyUp.copyUpDirectory_isolates _) fun _ => hlast
  · exact Step.Keeps.bind (CopyUp.copyUpFileOrShell_isolates _ none) fun _ => hlast

theorem ensurePathInUpperLayer_isolates [HostCase] (path : CallerPath) :
    Isolates (ensurePathInUpperLayer path) := by
  refine Step.Keeps.bind (walkCallerPath_isolates path .keep) fun view => ?_
  refine Step.Keeps.bind (existsInUpper_isolates _) fun held => Step.Keeps.ite (Step.Keeps.pure ()) ?_
  refine Step.Keeps.bind (lookup_isolates _) fun resolved => Step.Keeps.ite (Step.Keeps.fail _) ?_
  exact Step.Keeps.ite (CopyUp.copyUpDirectory_isolates _) (CopyUp.copyUpFile_isolates _)

theorem createWhiteoutAt_isolates [HostCase] (path : CallerPath) :
    Isolates (createWhiteoutAt path) :=
  Step.Keeps.bind (walkCallerPath_isolates path .keep) fun _ =>
    Step.Keeps.ite (Step.Keeps.fail _) (WhiteoutManager.createWhiteout_isolates _)

theorem setOpaqueAt_isolates [HostCase] (path : CallerPath) : Isolates (setOpaqueAt path) :=
  Step.Keeps.bind (walkCallerPath_isolates path .keep) fun _ =>
    Step.Keeps.ite (Step.Keeps.fail _) (WhiteoutManager.setOpaque_isolates _)

theorem resolveAt_isolates [HostCase] (path : CallerPath) : Isolates (resolveAt path) :=
  Step.Keeps.bind (walkCallerPath_isolates path .keep) fun _ =>
    Step.Keeps.bind (lookup_isolates _) fun _ => Step.Keeps.pure ()

/-! ## Runs -/

theorem answering_guards {m : Op α} (hm : Guards m) (answer : α → Answer) :
    Guards (answering m answer) :=
  Step.Keeps.bind hm fun _ => Step.Keeps.pure _

theorem call_guards [HostCase] (call : Call) : Guards call.run := by
  cases call with
  | resolve path => exact answering_guards (isolates_guards (resolveAt_isolates path)) _
  | openPath path access finalLink =>
    exact answering_guards (Context.openPath_guards path access finalLink) _
  | create request => exact answering_guards (Context.createPath_guards request) _
  | close h => exact answering_guards (Context.close_guards h) _
  | cleanup h => exact answering_guards (Context.cleanup_guards h) _
  | read h offset length => exact answering_guards (Context.read_guards h offset length) _
  | write h request => exact answering_guards (Context.write_guards h request) _
  | overwrite h request => exact answering_guards (Context.overwrite_guards h request) _
  | setInfo h request => exact answering_guards (Context.setInfo_guards h request) _
  | setSecurity path => exact answering_guards (isolates_guards (setSecurity_isolates path)) _
  | ensureInUpper path =>
    exact answering_guards (isolates_guards (ensurePathInUpperLayer_isolates path)) _
  | delete path => exact answering_guards (isolates_guards (deletePath_isolates path)) _
  | deleteContext h => exact answering_guards (Context.delete_guards h) _
  | rename oldPath newPath replace =>
    exact answering_guards (isolates_guards (Rename.renamePath_isolates oldPath newPath replace)) _
  | renameContext h path replace =>
    exact answering_guards (Context.rename_guards h path replace) _
  | updatePath h path => exact answering_guards (Context.updatePath_guards h path) _
  | createWhiteout path =>
    exact answering_guards (isolates_guards (createWhiteoutAt_isolates path)) _
  | setOpaque path => exact answering_guards (isolates_guards (setOpaqueAt_isolates path)) _

theorem run_preserves [HostCase] (he : e.Confined) (calls : List Call) :
    Preserved e (e.run calls) := by
  induction calls generalizing e with
  | nil => exact Std.Refl.refl (r := Guarded) e he
  | cons call rest ih =>
    have hcall := call_guards call e he
    exact hcall.trans (ih hcall.confined)

/-- Over any run of calls, whatever they answer and wherever a disk step fails, the lowers stay as
they are, and so does every file that a lower names outside the targets of its links. -/
theorem run_keeps_lowers [HostCase] (he : e.Confined) (calls : List Call) :
    (e.run calls).lowers = e.lowers ∧
      ∀ id, Owns e.lowers id → fileAt (e.run calls).files id = fileAt e.files id :=
  ⟨(run_preserves he calls).lowers, (run_preserves he calls).files⟩

/-- A directory that both layers hold, each with a file of its own. -/
def twoLayers : Engine where
  upper := some (.node {} [(['a'], .node {} [(['b'], .leaf (.file 1))])])
  lowers := [some (.node {} [(['a'], .node {} [(['c'], .leaf (.file 0))])])]
  files := [{ data := [2] }, { data := [1] }]

/-- A write to the lower's file, and a rename of the directory that holds it. -/
def twoLayersCalls : List Call :=
  [.openPath ⟨[['a'], ['c']]⟩ { readData := true, writeData := true } .follow,
    .write 0 { bytes := [7, 8] }, .rename ⟨[['a']]⟩ ⟨[['z']]⟩ false, .close 0]

theorem linkless_node {v : DirNode} {children : List (Name × Tree)} (hv : v.link = false)
    (h : ∀ c ∈ children, ∀ a, isLinkPlace (placeAt (some c.2) a) = false) (a : RelPath) :
    isLinkPlace (placeAt (some (.node v children)) a) = false := by
  cases a with
  | nil => simp [placeAt, isLinkPlace, treeKind, hv]
  | cons n a =>
    rw [placeAt_cons]
    cases hc : childAt (some (.node v children)) n with
    | none => rw [placeAt_none]; rfl
    | some c => exact h (n, c) (mem_of_childAt hc) a

theorem twoLayers_linkless : ∀ o ∈ twoLayers.lowers, ∀ a, isLinkPlace (placeAt o a) = false := by
  intro o ho
  rw [List.mem_singleton.mp ho]
  refine linkless_node rfl fun c hc => ?_
  rw [List.mem_singleton.mp hc]
  refine linkless_node rfl fun c hc a => ?_
  rw [List.mem_singleton.mp hc]
  cases a with
  | nil => rfl
  | cons n a =>
    rw [placeAt_cons, childAt_leaf, placeAt_none]
    rfl

theorem twoLayers_lowers : ∀ o ∈ twoLayers.lowers, NamesBelow 1 o := by
  intro o ho
  rw [List.mem_singleton.mp ho]
  refine namesBelow_node fun c hc => ?_
  rw [List.mem_singleton.mp hc]
  refine namesBelow_node fun c hc => ?_
  rw [List.mem_singleton.mp hc]
  exact namesBelow_leaf Nat.zero_lt_one

theorem twoLayers_confined : twoLayers.Confined where
  separate := by
    refine ⟨?_, fun o ho => (twoLayers_lowers o ho).mono (by decide), fun o ho a ha => ?_, ?_⟩
    · refine fitsUpper_node fun c hc => ?_
      rw [List.mem_singleton.mp hc]
      refine fitsUpper_node fun c hc => ?_
      rw [List.mem_singleton.mp hc]
      refine fitsUpper_leaf fun id hid => ?_
      obtain rfl := Leaf.file.inj hid
      refine ⟨by decide, fun ⟨o, ho, r, hr, _⟩ => ?_⟩
      exact absurd (twoLayers_lowers o ho r 1 hr) (Nat.lt_irrefl 1)
    · rw [twoLayers_linkless o ho a] at ha
      cases ha
    · intro f hf origin horigin
      rcases List.mem_pair.mp hf with rfl | rfl <;> cases horigin
  contexts := fun _ hctx => by cases hctx

theorem twoLayers_owns : Owns twoLayers.lowers 0 :=
  ⟨_, List.mem_singleton.mpr rfl, [['a'], ['c']], by decide, fun a _ =>
    twoLayers_linkless _ (List.mem_singleton.mpr rfl) a⟩

open AsciiCase

theorem run_keeps_lowers_twoLayers :
    viewAt (twoLayers.run twoLayersCalls) [['z'], ['c']] = some (.file [7, 8]) ∧
      (twoLayers.run twoLayersCalls).lowers = twoLayers.lowers ∧
      fileAt (twoLayers.run twoLayersCalls).files 0 = { data := [2] } :=
  ⟨by decide +kernel, (run_keeps_lowers twoLayers_confined twoLayersCalls).1,
    (run_keeps_lowers twoLayers_confined twoLayersCalls).2 0 twoLayers_owns⟩

end LayerMount
