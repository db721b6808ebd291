import LayerMount.ConfinedCalls
import LayerMount.KindSteps
import LayerMount.Lib.Namespace

/-!
# The calls as changes of a namespace

What a caller sees by name is a namespace of kinds, and a call is one change of it: an open, a read,
a write, a copy-up keep it, a create puts an entry, a delete removes a subtree and a rename moves
one.  `run_kinds` says so of runs of calls.
-/

namespace LayerMount

open Lib Lib.Namespace

variable {e f g : Engine} {p q r : RelPath} {t : Tree} {id : FileId} {h : Nat} {α β : Type}
  {ctx : FileContext}

namespace Context

/-! ## Data -/

theorem changeData_keepsKinds (id : FileId) (change : Data → Data) :
    KeepsKinds (changeData id change) :=
  keepsKinds_files _

theorem setFileAttributes_keepsKinds (id : FileId) (a : SetAttributes) :
    KeepsKinds (setFileAttributes id a) :=
  keepsKinds_files _

theorem writeFile_keepsKinds (h : Nat) (request : WriteRequest) :
    KeepsKinds (writeFile h request) := by
  refine Step.Keeps.bind (get_keepsKinds h) fun ctx => Step.Keeps.get fun e => ?_
  split
  · refine Step.Keeps.ite (Step.Keeps.pure ()) ?_
    exact Step.Keeps.ite (changeData_keepsKinds _ _) <|
      Step.Keeps.ite (changeData_keepsKinds _ _) (Step.Keeps.fail _)
  · exact Step.Keeps.fail _

theorem setEndOfFile_keepsKinds (h size : Nat) : KeepsKinds (setEndOfFile h size) := by
  refine Step.Keeps.bind (get_keepsKinds h) fun ctx => Step.Keeps.get fun e => ?_
  split
  · exact changeData_keepsKinds _ _
  · exact Step.Keeps.fail _

theorem setAllocationSize_keepsKinds (h size : Nat) : KeepsKinds (setAllocationSize h size) := by
  refine Step.Keeps.bind (get_keepsKinds h) fun ctx => Step.Keeps.get fun e => ?_
  split
  · exact changeData_keepsKinds _ _
  · exact Step.Keeps.fail _

theorem shapeOf_setReadOnly (readOnly : Bool) (t : Tree) :
    shapeOf (PathTree.entry (setReadOnlyNode readOnly t)) = shapeOf (PathTree.entry t) := by
  cases t <;> rfl

/-- The read-only attribute is no part of a shape. -/
theorem sameShape_setReadOnly {o : Place} (readOnly : Bool) (ht : placeAt o p = some t) :
    SameShape (PathTree.put o p (some (setReadOnlyNode readOnly t))) o := by
  intro r
  by_cases hr : p <+: r
  · obtain ⟨x, rfl⟩ := hr
    rw [entryAt, entryAt, placeAt_put_held ht, placeAt_append, ht]
    cases x with
    | nil =>
      rw [placeAt_nil, placeAt_nil, Option.map_some, Option.map_some, Option.map_some,
        Option.map_some, shapeOf_setReadOnly]
    | cons n x => cases t <;> rfl
  · rw [entryAt_put_elsewhere hr]

theorem setAttributes_keepsKinds (h : Nat) (a : SetAttributes) :
    KeepsKinds (setAttributes h a) := by
  refine Step.Keeps.bind (get_keepsKinds h) fun ctx => fun e => ?_
  refine (Step.Follows.get (Q := fun _ _ => True) ?_ : Step.Follows SameKinds _ e _).1
  split
  · exact (setFileAttributes_keepsKinds _ a).follows e
  · split
    · exact Step.Follows.fail
    · split
      · exact Step.Follows.fail
      · rename_i p t ht
        exact Step.Follows.modify ((sameShape_setReadOnly a.readOnly ht).kindAt rfl) trivial

theorem whenSet_keepsKinds {value : Option α} {set : α → Op Unit} (hset : ∀ a, KeepsKinds (set a)) :
    KeepsKinds (whenSet value set) := by
  cases value with
  | none => exact Step.Keeps.pure ()
  | some a => exact hset a

theorem deleteUserStreams_keepsKinds (h : Nat) : KeepsKinds (deleteUserStreams h) := by
  refine Step.Keeps.bind (get_keepsKinds h) fun ctx => Step.Keeps.get fun e => ?_
  split
  · exact keepsKinds_files _
  · exact Step.Keeps.pure ()

theorem overwriteAttributes_keepsKinds (h : Nat) (replaceAttributes : Bool) (a : SetAttributes) :
    KeepsKinds (overwriteAttributes h replaceAttributes a) := by
  refine Step.Keeps.bind (get_keepsKinds h) fun ctx => Step.Keeps.get fun e => ?_
  split
  · exact Step.Keeps.ite (setFileAttributes_keepsKinds _ _) (setFileAttributes_keepsKinds _ _)
  · exact Step.Keeps.fail _

theorem ensureHandleReady_follows_steady (h : Nat) (e : Engine) :
    (ensureHandleReady h).Follows SameKinds e fun _ g => Steady e g :=
  ⟨(ensureHandleReady_steady h e).layers.sameKinds, fun _ _ => ensureHandleReady_steady h e⟩

/-- After the handle is ready, `EnsureInUpperLayer` still copies up what shows. -/
theorem ensureInUpperLayer_after (he : e.Wf) (hfresh : Fresh h e) (hf : Steady e f) :
    (ensureInUpperLayer h).Follows SameKinds f fun _ _ => True :=
  ensureInUpperLayer_follows_kinds (hf.layers.wf he) (hf.fresh hfresh)

theorem write_follows_kinds (he : e.Wf) (hfresh : Fresh h e) (request : WriteRequest) :
    (write h request).Follows SameKinds e fun _ _ => True := by
  refine Step.Follows.bind (ensureHandleReady_follows_steady h e) fun _ f _ hf => ?_
  refine Step.Follows.bind (ensureInUpperLayer_after he hfresh hf) fun _ g _ _ => ?_
  exact (Step.Keeps.bind (ensureMetacopyMaterialized_keepsKinds h) fun _ =>
    writeFile_keepsKinds h request).follows g

theorem overwrite_follows_kinds (he : e.Wf) (hfresh : Fresh h e) (request : OverwriteRequest) :
    (overwrite h request).Follows SameKinds e fun _ _ => True := by
  refine Step.Follows.bind (ensureHandleReady_follows_steady h e) fun _ f _ hf => ?_
  refine Step.Follows.bind (ensureInUpperLayer_after he hfresh hf) fun _ g _ _ => ?_
  have hlast : KeepsKinds (do
      whenSet request.fileAttributes (overwriteAttributes h request.replaceAttributes)
      let ctx ← get h
      invalidateWithAncestors ctx.relativePath : Op Unit) :=
    Step.Keeps.bind (whenSet_keepsKinds (overwriteAttributes_keepsKinds h _)) fun _ =>
      Step.Keeps.bind (get_keepsKinds h) fun ctx =>
        invalidateWithAncestors_keepsKinds ctx.relativePath
  refine Step.Keeps.follows ?_ g
  refine Step.Keeps.bind (ensureMetacopyMaterialized_keepsKinds h) fun _ => ?_
  refine Step.Keeps.bind (deleteUserStreams_keepsKinds h) fun _ => ?_
  refine Step.Keeps.bind (setEndOfFile_keepsKinds h 0) fun _ => ?_
  exact Step.Keeps.ite (Step.Keeps.bind (setAllocationSize_keepsKinds h _) fun _ => hlast) hlast

theorem setInfo_follows_kinds (he : e.Wf) (hfresh : Fresh h e) (request : SetInfoRequest) :
    (setInfo h request).Follows SameKinds e fun _ _ => True := by
  have hsets : KeepsKinds (do
      whenSet request.fileAttributes (setAttributes h)
      whenSet request.allocationSize (setAllocationSize h)
      whenSet request.fileSize (setEndOfFile h) : Op Unit) :=
    Step.Keeps.bind (whenSet_keepsKinds (setAttributes_keepsKinds h)) fun _ =>
      Step.Keeps.bind (whenSet_keepsKinds (setAllocationSize_keepsKinds h)) fun _ =>
        whenSet_keepsKinds (setEndOfFile_keepsKinds h)
  have hready := keepsKinds_of_steady (ensureHandleReady_steady h)
  refine Step.Follows.bind (get_follows_eq h e) fun _ f _ hf => ?_
  obtain ⟨rfl, -⟩ := hf
  refine Step.Follows.ite (fun _ => hready.follows f) fun _ => ?_
  refine Step.Follows.bind (ensureInUpperLayer_follows_kinds he hfresh) fun _ g _ _ => ?_
  refine Step.Keeps.follows (Step.Keeps.bind hready fun _ => Step.Keeps.ite (Step.Keeps.fail _) ?_) g
  exact Step.Keeps.ite (Step.Keeps.bind (ensureMetacopyMaterialized_keepsKinds h) fun _ => hsets)
    hsets

theorem read_keepsKinds (h offset length : Nat) : KeepsKinds (read h offset length) := by
  refine Step.Keeps.bind (keepsKinds_of_steady (ensureHandleReady_steady h)) fun _ => ?_
  refine Step.Keeps.bind (get_keepsKinds h) fun ctx => Step.Keeps.get fun e => ?_
  split
  · exact Step.Keeps.ite (Step.Keeps.fail _) (Step.Keeps.ite (Step.Keeps.fail _) (Step.Keeps.pure _))
  · exact Step.Keeps.fail _

/-! ## Open, close and move of a context -/

theorem withNew_keepsKinds {rest : Nat → Op Unit} (hrest : ∀ f, SameLayers e f →
    f.contexts.getD e.contexts.length none = some ctx →
    (rest e.contexts.length).Follows SameKinds f fun _ _ => True) :
    SameKinds e (withNew ctx rest e).2 := by
  have hnew : (Op.modify fun e => { e with contexts := e.contexts ++ [some ctx] }).Follows SameKinds e
      fun _ f => SameLayers e f ∧ f.contexts.getD e.contexts.length none = some ctx := by
    refine Step.Follows.modify (sameLayers_contexts e _).sameKinds ⟨sameLayers_contexts e _, ?_⟩
    show (e.contexts ++ [some ctx]).getD e.contexts.length none = some ctx
    rw [List.getD_eq_getElem?_getD, List.getElem?_concat_length, Option.getD_some]
  have hall : (withNew ctx rest).Follows SameKinds e fun _ _ => True := by
    refine Step.Follows.get (Step.Follows.bind hnew fun _ f _ hf => ?_)
    refine Step.Follows.attempt_bind (hrest f hf.1 hf.2) (fun _ _ _ _ => Step.Follows.pure trivial)
      fun status g _ => ?_
    exact Step.Follows.bind (P := fun _ _ => True)
      (Step.Follows.modify (sameLayers_contexts g _).sameKinds trivial) fun _ _ _ _ =>
        Step.Follows.fail
  exact hall.1

theorem setOpenPath_follows_kinds (he : e.Wf) (hctx : e.contexts.getD h none = some ctx)
    (hshown : (viewAt e p).isSome = true) (hdir : ctx.isDirectory = true → ShowsDirectory e p)
    (resolved : ResolvedPath) :
    (setOpenPath p resolved h).Follows SameKinds e fun _ _ => True := by
  refine Step.Follows.bind (get_follows_eq h e) fun _ f _ hf => ?_
  obtain ⟨rfl, -⟩ := hf
  refine Step.Follows.ite (fun _ => ?_) fun _ => (modify_sameKinds h _).follows f
  exact Step.Follows.bind (copyUpForHandle_follows_kinds he hctx hshown hdir _) fun _ g _ _ =>
    (modify_sameKinds h _).follows g

theorem openPath_sameKinds [HostCase] (he : e.Wf) (path : CallerPath) (access : Access)
    (finalLink : FinalLink) : SameKinds e (openPath path access finalLink e).2 := by
  have hall : (openPath path access finalLink).Follows SameKinds e fun _ _ => True := by
    have hwalk : (walkCallerPath path finalLink).Follows SameKinds e fun _ f => Untouched e f :=
      ⟨(walkCallerPath_looked path finalLink e).2.toUntouched.sameKinds, fun _ _ =>
        (walkCallerPath_looked path finalLink e).2.toUntouched⟩
    refine Step.Follows.bind hwalk fun view f _ hf => ?_
    have hwff := hf.sameLayers.wf he
    refine Step.Follows.ite (fun _ => ?_) fun hne => Step.Follows.ite (fun _ => Step.Follows.fail)
      fun _ => ?_
    · exact ⟨withNew_keepsKinds fun g _ _ => (openHandle_keepsKinds _).follows g, fun _ _ => trivial⟩
    have hlookup : (lookup view.norm).Follows SameKinds f fun resolved g =>
        resolved = (resolvePath f.config view.norm {}).1 ∧ Untouched f g :=
      ⟨(lookup_ensures _ f).2.toUntouched.sameKinds, fun _ hr =>
        ⟨(Except.ok.inj ((lookup_ensures _ f).1.symm.trans hr)).symm,
          (lookup_ensures _ f).2.toUntouched⟩⟩
    refine Step.Follows.bind hlookup fun resolved g _ hg => ?_
    obtain ⟨rfl, hg⟩ := hg
    refine Step.Follows.ite (fun _ => Step.Follows.fail) fun hfound => ?_
    have hp : view.norm ≠ [] := by simpa using hne
    have hshown := (found_iff_viewAt hp).mp (by simpa using hfound)
    refine ⟨withNew_keepsKinds fun k hk hctx => ?_, fun _ _ => trivial⟩
    have hlayers := hg.sameLayers.trans hk
    refine Step.Follows.bind (setOpenPath_follows_kinds (hlayers.wf hwff) hctx ?_ ?_ _)
      fun _ k₁ _ _ => ?_
    · rw [hlayers.viewAt]
      exact hshown
    · intro hdir
      rw [ShowsDirectory, hlayers.viewAt]
      exact showsDirectory_of_lookup hp hdir
    · have hopen := Step.Keeps.bind (fillShellForDataAccess_keepsKinds view.norm g.contexts.length)
        fun _ => openHandle_keepsKinds g.contexts.length
      have hflag : KeepsKinds (readMetacopyFlag view.norm g.contexts.length) :=
        Step.Keeps.get fun _ => modify_sameKinds _ _
      exact (Step.Keeps.ite (Step.Keeps.bind hflag fun _ => hopen) hopen).follows k₁
  exact hall.1

theorem close_keepsKinds (h : Nat) : KeepsKinds (close h) :=
  Step.Keeps.bind (get_keepsKinds h) fun _ =>
    Step.Keeps.modify fun e => (sameLayers_contexts e _).sameKinds

theorem cleanup_keepsKinds (h : Nat) : KeepsKinds (cleanup h) :=
  Step.Keeps.bind (get_keepsKinds h) fun _ => modify_sameKinds h _

theorem updatePath_keepsKinds [HostCase] (h : Nat) (path : CallerPath) :
    KeepsKinds (updatePath h path) := by
  refine Step.Keeps.bind (get_keepsKinds h) fun ctx => ?_
  refine Step.Keeps.bind (walkCallerPath_keepsKinds path .keep) fun view => ?_
  refine Step.Keeps.get fun e => Step.Keeps.ite (Step.Keeps.fail _) ?_
  exact Step.Keeps.ite (Step.Keeps.fail _) (Step.Keeps.ite (Step.Keeps.pure ())
    (modify_sameKinds h _))

end Context

/-! ## Calls by path -/

theorem resolveAt_keepsKinds [HostCase] (path : CallerPath) : KeepsKinds (resolveAt path) :=
  Step.Keeps.bind (walkCallerPath_keepsKinds path .keep) fun _ =>
    Step.Keeps.bind (lookup_keepsKinds _) fun _ => Step.Keeps.pure ()

/-- A walk and a lookup leave the layers, and what they find shows. -/
theorem walkCallerPath_follows_kinds [HostCase] (path : CallerPath) (finalLink : FinalLink)
    (e : Engine) :
    (walkCallerPath path finalLink).Follows SameKinds e fun view f =>
      view = viewPathOf path ∧ Untouched e f :=
  have hwalk := walkCallerPath_looked path finalLink e
  ⟨hwalk.2.toUntouched.sameKinds, fun _ hview =>
    ⟨(Except.ok.inj (hwalk.1.symm.trans hview)).symm, hwalk.2.toUntouched⟩⟩

theorem lookup_follows_kinds (p : RelPath) (e : Engine) :
    (lookup p).Follows SameKinds e fun resolved f =>
      resolved = (resolvePath e.config p {}).1 ∧ Untouched e f :=
  have hlookup := lookup_ensures p e
  ⟨hlookup.2.toUntouched.sameKinds, fun _ hr =>
    ⟨(Except.ok.inj (hlookup.1.symm.trans hr)).symm, hlookup.2.toUntouched⟩⟩

theorem follows_of_raisedTo {m : Op α} (h : m.Ensures e fun r g => RaisedTo e g p r) :
    m.Follows SameKinds e fun _ _ => True :=
  ⟨h.raised.sameKinds, fun _ _ => trivial⟩

theorem setSecurity_sameKinds [HostCase] (he : e.Wf) (path : CallerPath) :
    SameKinds e (setSecurity path e).2 := by
  have hall : (setSecurity path).Follows SameKinds e fun _ _ => True := by
    refine Step.Follows.bind (walkCallerPath_follows_kinds path .follow e) fun view f _ hf => ?_
    obtain ⟨rfl, hf⟩ := hf
    refine Step.Follows.bind (lookup_follows_kinds _ f) fun resolved g _ hg => ?_
    obtain ⟨rfl, hg⟩ := hg
    have hlayers := hf.sameLayers.trans hg.sameLayers
    have hlast : ∀ k : Engine, (invalidateWithAncestors (viewPathOf path).norm).Follows SameKinds k
        fun _ _ => True := (invalidateWithAncestors_keepsKinds _).follows
    refine Step.Follows.ite (fun _ => Step.Follows.fail) fun hfound => ?_
    refine Step.Follows.ite (fun hsource => ?_) fun _ => hlast g
    have hp : (viewPathOf path).norm ≠ [] := by
      intro hnil
      rw [hnil] at hsource
      cases hsource
    obtain ⟨v, hview⟩ := viewAt_of_found (by simpa using hfound) hp
    rw [← hg.viewAt] at hview
    refine Step.Follows.ite (fun hdir => ?_) fun _ => ?_
    · have hshows := showsDirectory_of_lookup hp hdir
      rw [ShowsDirectory, ← hg.viewAt] at hshows
      exact Step.Follows.bind (follows_of_raisedTo (copyUpDirectory_raised _ g hshows))
        fun _ k _ _ => hlast k
    · exact Step.Follows.bind (follows_of_raisedTo
        (copyUpFileOrShell_raised (hlayers.wf he) hview none))
        fun _ k _ _ => hlast k
  exact hall.1

/-- The lowers alone show nothing at the root, so a copy-up of it fails before it starts. -/
theorem copyUpDirectory_root : KeepsKinds (CopyUp.copyUpDirectory []) :=
  Step.Keeps.get fun _ => Step.Keeps.ite (Step.Keeps.pure ()) fun _ _ => rfl

theorem copyUpFile_root : KeepsKinds (CopyUp.copyUpFile []) :=
  Step.Keeps.get fun _ => Step.Keeps.ite (Step.Keeps.pure ()) fun _ _ => rfl

theorem ensurePathInUpperLayer_sameKinds [HostCase] (he : e.Wf) (path : CallerPath) :
    SameKinds e (ensurePathInUpperLayer path e).2 := by
  have hall : (ensurePathInUpperLayer path).Follows SameKinds e fun _ _ => True := by
    refine Step.Follows.bind (walkCallerPath_follows_kinds path .keep e) fun view f _ hf => ?_
    obtain ⟨rfl, hf⟩ := hf
    apply Step.Follows.get
    refine Step.Follows.ite (fun _ => Step.Follows.pure trivial) fun hfree => ?_
    refine Step.Follows.bind (lookup_follows_kinds _ f) fun resolved g _ hg => ?_
    obtain ⟨rfl, hg⟩ := hg
    have hlayers := hf.sameLayers.trans hg.sameLayers
    refine Step.Follows.ite (fun _ => Step.Follows.fail) fun hfound => ?_
    by_cases hp : (viewPathOf path).norm = []
    · rw [hp]
      exact (Step.Keeps.ite copyUpDirectory_root copyUpFile_root).follows g
    obtain ⟨v, hview⟩ := viewAt_of_found (by simpa using hfound) hp
    rw [← hg.viewAt] at hview
    refine Step.Follows.ite (fun hdir => ?_) fun _ => ?_
    · have hshows := showsDirectory_of_lookup hp hdir
      rw [ShowsDirectory, ← hg.viewAt] at hshows
      exact follows_of_raisedTo (copyUpDirectory_raised _ g hshows)
    · exact follows_of_raisedTo (copyUpFile_raised (hlayers.wf he) hview)
  exact hall.1

end LayerMount
