import LayerMount.KindView
import LayerMount.SafeContexts
import LayerMount.WrittenMarkers

/-!
# Steps that change no kind

An open, a copy-up, a fill and a write change what the layers hold, but no kind of the view.  A
copy-up is asked only for what shows (`Fresh` says so of the path of a context), and every other
step changes files, contexts or attributes alone.
-/

namespace LayerMount

open Lib

variable {e f g : Engine} {p r : RelPath} {t : Tree} {id : FileId} {h : Nat} {α β : Type}
  {ctx old : FileContext}

/-! ## States of the same kinds -/

def SameKinds (e g : Engine) : Prop := ∀ r, kindAt g r = kindAt e r

instance : Std.Refl SameKinds := ⟨fun _ _ => rfl⟩

instance : IsTrans Engine SameKinds := ⟨fun _ _ _ h h' r => (h' r).trans (h r)⟩

/-- A step that changes no kind, whether it succeeds or fails. -/
abbrev KeepsKinds (m : Op α) : Prop := m.Keeps SameKinds

theorem sameKinds_of_view (hview : ∀ r, viewAt g r = viewAt e r) : SameKinds e g :=
  fun r => congrArg (Option.map Shown.kind) (hview r)

theorem Raised.sameKinds (h : Raised e g) : SameKinds e g := sameKinds_of_view h.view

theorem SameLayers.sameKinds (h : SameLayers e g) : SameKinds e g := sameKinds_of_view h.viewAt

theorem Untouched.sameKinds (h : Untouched e g) : SameKinds e g := h.sameLayers.sameKinds

theorem sameKinds_of_upper (hupper : g.upper = e.upper) (hlowers : g.lowers = e.lowers) :
    SameKinds e g :=
  SameShape.kindAt (hupper ▸ .refl g.upper) hlowers

theorem SameLayers.wf (h : SameLayers e g) (he : e.Wf) : g.Wf :=
  have hwf : (e.withLayersOf g).Wf := h.sameEntries.wf he
  ⟨hwf.upper, hwf.lowers, hwf.origins⟩

/-- A step that touches neither the layers nor the contexts. -/
theorem KeepsKinds.of_looked {m : Op α}
    (hm : ∀ e, ∃ Q : Except NtStatus α → Prop, m.Ensures e fun r g => Q r ∧ Looked e g) :
    KeepsKinds m := fun e =>
  have ⟨_, hlooked⟩ := hm e
  hlooked.2.toUntouched.sameKinds

theorem walkCallerPath_keepsKinds [HostCase] (path : CallerPath) (finalLink : FinalLink) :
    KeepsKinds (walkCallerPath path finalLink) :=
  .of_looked fun e => ⟨_, walkCallerPath_looked path finalLink e⟩

theorem lookup_keepsKinds (p : RelPath) : KeepsKinds (lookup p) :=
  .of_looked fun e => ⟨_, lookup_ensures p e⟩

theorem invalidateWithAncestors_keepsKinds (p : RelPath) : KeepsKinds (invalidateWithAncestors p) :=
  .of_looked fun e => ⟨_, invalidateWithAncestors_ensures p e⟩

theorem diskStep_keepsKinds (s : DiskStep) : KeepsKinds (diskStep s) :=
  fun e => (diskStep_ensures s e).sameKinds

/-- A change of the file objects alone. -/
theorem keepsKinds_files (change : Engine → List FileObj) :
    KeepsKinds (Op.modify fun e => { e with files := change e }) :=
  Step.Keeps.modify fun _ => sameKinds_of_upper rfl rfl

theorem completeLazyCopyUp_keepsKinds (p : RelPath) : KeepsKinds (CopyUp.completeLazyCopyUp p) := by
  refine Step.Keeps.get fun e => ?_
  split
  · exact Step.Keeps.pure ()
  · split
    · exact Step.Keeps.pure ()
    · refine Step.Keeps.bind (diskStep_keepsKinds .fillData) fun _ => ?_
      refine Step.Keeps.bind (keepsKinds_files _) fun _ => ?_
      exact Step.Keeps.bind (diskStep_keepsKinds .writeRecord) fun _ => keepsKinds_files _

/-! ## What a lookup says of the view -/

theorem viewAt_of_found (hfound : (resolvePath e.config p {}).1.found = true) (hp : p ≠ []) :
    ∃ v, viewAt e p = some v :=
  Option.isSome_iff_exists.mp ((found_iff_viewAt hp).mp hfound)

/-- A lookup calls an entry a directory when the view shows a directory or a link. -/
theorem showsDirectory_of_lookup (hp : p ≠ [])
    (hdir : (resolvePath e.config p {}).1.isDirectory = true) : ShowsDirectory e p := by
  rw [resolvePath_eq e hp] at hdir
  rw [ShowsDirectory, viewAt_eq e hp]
  rw [showAt_eq e hp] at hdir ⊢
  split at hdir
  · rename_i hres
    rw [if_pos hres]
    rcases look_slotsAt e p with ⟨-, hnone⟩ | ⟨i, t, -, -, -, hlook⟩
    · rw [hnone] at hdir
      cases hdir
    · rw [hlook] at hdir ⊢
      have hentry : (layerEntry e.files t).attributes.directory = true := hdir
      cases t with
      | leaf v =>
        cases v with
        | deadLink => exact .inr rfl
        | file id => cases hentry
        | marker => cases hentry
      | node v children => cases hl : v.link <;> simp [shownOf, hl]
  · cases hdir

/-! ## Contexts -/

/-- The path of the context shows, and shows a directory for a directory. -/
def Fresh (h : Nat) (e : Engine) : Prop :=
  ∀ ctx, e.contexts.getD h none = some ctx → (viewAt e ctx.relativePath).isSome = true ∧
    (ctx.isDirectory = true → ShowsDirectory e ctx.relativePath)

/-- The layers are the same, and so is what each context is about. -/
structure Steady (e g : Engine) : Prop where
  layers : SameLayers e g
  contexts : ∀ h ctx, g.contexts.getD h none = some ctx → ∃ old,
    e.contexts.getD h none = some old ∧ ctx.relativePath = old.relativePath ∧
      ctx.isDirectory = old.isDirectory

instance : Std.Refl Steady := ⟨fun e => ⟨.refl e, fun _ ctx hctx => ⟨ctx, hctx, rfl, rfl⟩⟩⟩

instance : IsTrans Engine Steady where
  trans _ _ _ h h' := by
    refine ⟨h.layers.trans h'.layers, fun i ctx hctx => ?_⟩
    obtain ⟨mid, hmid, hpath, hdir⟩ := h'.contexts i ctx hctx
    obtain ⟨old, hold, hpath', hdir'⟩ := h.contexts i mid hmid
    exact ⟨old, hold, hpath.trans hpath', hdir.trans hdir'⟩

theorem Steady.fresh (hs : Steady e g) (hfresh : Fresh h e) : Fresh h g := by
  intro ctx hctx
  obtain ⟨old, hold, hpath, hdir⟩ := hs.contexts h ctx hctx
  rw [ShowsDirectory, hs.layers.viewAt, hpath, hdir]
  exact hfresh old hold

namespace Context

theorem sameLayers_contexts (e : Engine) (contexts : List (Option FileContext)) :
    SameLayers e { e with contexts } :=
  ⟨fun _ => rfl, rfl, rfl⟩

theorem modify_sameKinds (h : Nat) (change : FileContext → FileContext) :
    KeepsKinds (modify h change) :=
  Step.Keeps.modify fun e => (sameLayers_contexts e _).sameKinds

theorem modify_steady {change : FileContext → FileContext}
    (hpath : ∀ ctx, (change ctx).relativePath = ctx.relativePath)
    (hdir : ∀ ctx, (change ctx).isDirectory = ctx.isDirectory) : (modify h change).Keeps Steady := by
  refine Step.Keeps.modify fun e => ⟨sameLayers_contexts e _, fun i ctx hctx => ?_⟩
  by_cases hi : h = i
  · subst hi
    obtain ⟨old, hold, rfl⟩ := getD_modify hctx
    exact ⟨old, hold, hpath old, hdir old⟩
  · have hctx : (e.contexts.modify h (Option.map change)).getD i none = some ctx := hctx
    rw [List.getD_eq_getElem?_getD, List.getElem?_modify_ne _ _ hi,
      ← List.getD_eq_getElem?_getD] at hctx
    exact ⟨ctx, hctx, rfl, rfl⟩

theorem get_steady (h : Nat) : (get h).Keeps Steady := by
  refine Step.Keeps.get fun e => ?_
  split
  · exact Step.Keeps.pure _
  · exact Step.Keeps.fail _

theorem openHandle_steady (h : Nat) : (openHandle h).Keeps Steady := by
  refine Step.Keeps.bind (modify_steady (fun _ => rfl) fun _ => rfl) fun _ => ?_
  refine Step.Keeps.bind (get_steady h) fun ctx => Step.Keeps.get fun e => ?_
  split
  · exact Step.Keeps.fail _
  · exact modify_steady (fun _ => rfl) fun _ => rfl

theorem ensureHandleReady_steady (h : Nat) : (ensureHandleReady h).Keeps Steady :=
  Step.Keeps.bind (get_steady h) fun _ =>
    Step.Keeps.ite (Step.Keeps.pure ()) (openHandle_steady h)

theorem keepsKinds_of_steady {m : Op α} (hm : m.Keeps Steady) : KeepsKinds m :=
  fun e => (hm e).layers.sameKinds

theorem get_keepsKinds (h : Nat) : KeepsKinds (get h) := keepsKinds_of_steady (get_steady h)

theorem openHandle_keepsKinds (h : Nat) : KeepsKinds (openHandle h) :=
  keepsKinds_of_steady (openHandle_steady h)

/-! ## Shells and copy-up -/

theorem fillShell_keepsKinds (p : RelPath) (h : Nat) : KeepsKinds (fillShell p h) :=
  Step.Keeps.bind (completeLazyCopyUp_keepsKinds p) fun _ => modify_sameKinds h _

theorem fillShellForDataAccess_keepsKinds (p : RelPath) (h : Nat) :
    KeepsKinds (fillShellForDataAccess p h) :=
  Step.Keeps.bind (get_keepsKinds h) fun _ =>
    Step.Keeps.ite (fillShell_keepsKinds p h) (Step.Keeps.pure ())

theorem ensureMetacopyMaterialized_keepsKinds (h : Nat) :
    KeepsKinds (ensureMetacopyMaterialized h) :=
  Step.Keeps.bind (get_keepsKinds h) fun _ => Step.Keeps.ite (Step.Keeps.pure ()) <|
    Step.Keeps.bind (fillShell_keepsKinds _ h) fun _ => openHandle_keepsKinds h

theorem get_follows_eq (h : Nat) (e : Engine) :
    (get h).Follows SameKinds e fun ctx g => g = e ∧ e.contexts.getD h none = some ctx := by
  apply Step.Follows.get
  cases hctx : e.contexts.getD h none with
  | none => exact Step.Follows.fail
  | some ctx => exact Step.Follows.pure ⟨rfl, rfl⟩

/-- A copy-up of what shows changes no kind. -/
theorem copyUpForHandle_follows_kinds (he : e.Wf) (hctx : e.contexts.getD h none = some ctx)
    (hshown : (viewAt e p).isSome = true) (hdir : ctx.isDirectory = true → ShowsDirectory e p)
    (shellOnlyAboveBytes : Option Nat) :
    (copyUpForHandle p h shellOnlyAboveBytes).Follows SameKinds e fun _ _ => True := by
  refine Step.Follows.bind (get_follows_eq h e) fun ctx' f _ hf => ?_
  obtain ⟨rfl, hctx'⟩ := hf
  obtain rfl := Option.some.inj (hctx.symm.trans hctx')
  obtain ⟨v, hview⟩ := Option.isSome_iff_exists.mp hshown
  refine Step.Follows.ite (fun hctxdir => ?_) fun _ => ?_
  · exact ⟨(copyUpDirectory_raised p f (hdir hctxdir)).raised.sameKinds, fun _ _ => trivial⟩
  · have hcopy : (CopyUp.copyUpFileOrShell p shellOnlyAboveBytes).Follows SameKinds f
        fun _ _ => True :=
      ⟨(copyUpFileOrShell_raised he hview shellOnlyAboveBytes).raised.sameKinds, fun _ _ => trivial⟩
    refine Step.Follows.bind hcopy fun copied g _ _ => ?_
    exact (Step.Keeps.ite (modify_sameKinds h _) (Step.Keeps.pure ())).follows g

theorem moveToUpper_keepsKinds (h : Nat) (p : RelPath) : KeepsKinds (do
    modify h fun ctx => { ctx with actualPath := .upper p, writable := true }
    reopenHandle h : Op Unit) :=
  Step.Keeps.bind (modify_sameKinds h _) fun _ => openHandle_keepsKinds h

theorem ensureInUpperLayer_follows_kinds (he : e.Wf) (hfresh : Fresh h e) :
    (ensureInUpperLayer h).Follows SameKinds e fun _ _ => True := by
  refine Step.Follows.bind (get_follows_eq h e) fun ctx f _ hf => ?_
  obtain ⟨rfl, hctx⟩ := hf
  obtain ⟨hshown, hdir⟩ := hfresh ctx hctx
  refine Step.Follows.ite (fun _ => Step.Follows.pure trivial) fun _ => ?_
  apply Step.Follows.get
  have hmove := Step.Keeps.bind (fillShellForDataAccess_keepsKinds ctx.relativePath h) fun _ =>
    moveToUpper_keepsKinds h ctx.relativePath
  refine Step.Follows.ite (fun _ => Step.Follows.ite (fun _ => Step.Follows.pure trivial)
    fun _ => ?_) fun _ => ?_
  · have hflag : KeepsKinds (readMetacopyFlag ctx.relativePath h) :=
      Step.Keeps.get fun _ => modify_sameKinds h _
    exact (Step.Keeps.bind hflag fun _ => hmove).follows f
  · exact Step.Follows.bind (copyUpForHandle_follows_kinds he hctx hshown hdir none)
      fun _ g _ _ => hmove.follows g

end Context

end LayerMount
