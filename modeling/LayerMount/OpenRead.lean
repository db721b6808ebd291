import LayerMount.CompletedCreate
import LayerMount.CopyUpEffect

/-!
# Open and read

What `Read` hands out after `Open`.  An open that may touch data fills a metacopy shell
before it returns, but only a shell of the upper: the record of a lower's file counts
neither for the open nor for a copy-up.  A lower that was the upper of an earlier mount may
hold a shell, and then the two read its zeros (`lowerShell_reads_iff`).
-/

namespace LayerMount

open Lib

variable {e f g k : Engine} {d p q : RelPath} {n : Name}

/-! ## The file that a copy-up places -/

/-- The upper holds a file at `p`, and `P` is true of it. -/
def HoldsFile (g : Engine) (p : RelPath) (P : FileObj → Prop) : Prop :=
  ∃ id, g.upperAt p = some (.leaf (.file id)) ∧ P (fileAt g.files id)

theorem HoldsFile.mono {P Q : FileObj → Prop} (h : HoldsFile g p P) (hpq : ∀ x, P x → Q x) :
    HoldsFile g p Q := by
  obtain ⟨id, hid, hx⟩ := h
  exact ⟨id, hid, hpq _ hx⟩

theorem HoldsFile.untouched {P : FileObj → Prop} (h : HoldsFile f p P) (h' : Untouched f g) :
    HoldsFile g p P := by
  obtain ⟨id, hid, hx⟩ := h
  refine ⟨id, ?_, ?_⟩
  · rw [h'.upperAt, hid]
  · rw [h'.files]
    exact hx

/-- No link above a shown path, and none after a copy-up. -/
theorem Raised.unlinked (h : Raised e f) (hp : p ≠ []) (hview : (viewAt e p).isSome = true)
    (hlink : isInLinkTarget e.config p.dropLast = false) :
    isInLinkTarget f.config p.dropLast = false := by
  have habove := directories_above hp hview hlink
  exact isInLinkTarget_of_directories fun c hc hne => (h.view c).trans (habove c hc hne)

theorem findLinkOnPath_of_unlinked (h : isInLinkTarget e.config d = false) :
    findLinkOnPath e.upperLayer d = .none := by
  rw [Engine.upperLayer, findLinkOnPath_eq_none_iff readable_ofTree,
    ← @slotOf_stop e.upper none e.files]
  exact stop_ne_link h

/-- Below no link there is a lower entry to copy, and no link above brings it. -/
theorem Prepared.ne_none {r : Except NtStatus (Option ResolvedPath)} (h : Prepared e f p r)
    (hp : p ≠ []) (hview : (viewAt e p).isSome = true)
    (hlink : isInLinkTarget e.config p.dropLast = false) : r ≠ .ok Option.none :=
  fun hr => h.link hr (findLinkOnPath_of_unlinked (h.raised.unlinked hp hview hlink))

theorem commitStaged_holds {P : FileObj → Prop} {id : FileId} (hn : n ≠ ['.'])
    (hx : P (fileAt f.files id)) :
    (commitStaged (d ++ [n]) (.leaf (.file id))).Ensures f fun r g =>
      ∀ a, r = .ok a → HoldsFile g (d ++ [n]) P := by
  refine (commitStaged_ensures (d ++ [n]) (.leaf (.file id)) f).mono fun r g h a hr => ?_
  subst hr
  obtain ⟨hlead, -, hputs⟩ := h
  rw [List.dropLast_concat] at hlead
  refine ⟨id, hputs.upperAt hlead hn, ?_⟩
  rw [hputs.files]
  exact hx

theorem commitStagedFile_holds {P : FileObj → Prop} {id : FileId} (hn : n ≠ ['.'])
    (hheld : ParentHeld f (d ++ [n])) (hx : P (fileAt f.files id)) :
    (CopyUp.commitStagedFile (d ++ [n]) id).Ensures f fun r g =>
      ∀ a, r = .ok a → HoldsFile g (d ++ [n]) P := by
  refine Step.Ensures.bind (ensureDirectoryExists_held hheld) ?_ fun _ _ h => by cases h.1
  intro _ f' hf
  have hx' : P (fileAt f'.files id) := by
    rw [hf.2.files]
    exact hx
  refine Step.Ensures.bind (commitStaged_holds hn hx') ?_ fun _ _ _ _ h => by cases h
  intro _ g hg
  refine (invalidateWithAncestors_ensures _ g).mono fun _ g' hg' _ _ => ?_
  exact (hg _ rfl).untouched hg'.2.toUntouched

/-- A file of a lower that shows, below no link, and not in the upper. -/
structure LowerFile (e : Engine) (d : RelPath) (n : Name) (id : FileId) : Prop where
  free : e.upperAt (d ++ [n]) = none
  shown : (viewAt e (d ++ [n])).isSome = true
  unlinked : isInLinkTarget e.config d = false
  source : e.resolvedAt (resolveLowerPath e.config (d ++ [n])) = some (.leaf (.file id))

theorem LowerFile.ne_dot {id : FileId} (h : LowerFile e d n id) : n ≠ ['.'] := by
  obtain ⟨v, hv⟩ := Option.isSome_iff_exists.mp h.shown
  obtain ⟨i, t, hshown, -⟩ := shownBelow_of_viewAt h.free hv
  exact ne_dot_of_lowerAt hshown.place

theorem LowerFile.prepared {id : FileId} (h : LowerFile e d n id) :
    (CopyUp.prepareCopyUpTarget (d ++ [n])).Ensures e fun r f => ∀ a, r = .ok a →
      a = some (resolveLowerPath e.config (d ++ [n])) ∧ ParentHeld f (d ++ [n]) ∧
        f.resolvedAt (resolveLowerPath e.config (d ++ [n])) = some (.leaf (.file id)) := by
  refine (prepareCopyUpTarget_raised (d ++ [n]) e).mono fun r f hf a hr => ?_
  subst hr
  cases a with
  | none =>
    refine absurd rfl (hf.ne_none (by simp) h.shown ?_)
    rw [List.dropLast_concat]
    exact h.unlinked
  | some source =>
    obtain ⟨rfl, hheld⟩ := hf.some source rfl
    exact ⟨rfl, hheld, (hf.raised.resolvedLower _ _).trans h.source⟩

/-- A full copy is no shell. -/
theorem copyUpFile_holds {id : FileId} (h : LowerFile e d n id) :
    (CopyUp.copyUpFile (d ++ [n])).Ensures e fun r g =>
      ∀ a, r = .ok a → HoldsFile g (d ++ [n]) fun x => x.metacopy = none := by
  apply Step.Ensures.get
  rw [h.free]
  refine Step.Ensures.bind h.prepared ?_ fun _ _ _ _ hr => by cases hr
  intro source f hf
  obtain ⟨rfl, hheld, hsource⟩ := hf source rfl
  apply Step.Ensures.get
  rw [hsource]
  apply Step.Ensures.ite
  · intro _
    refine Step.Ensures.bind (P := fun r g => ∀ a, r = .ok a →
      HoldsFile g (d ++ [n]) fun x => x.metacopy = none) ?_ ?_ fun _ _ _ _ hr => by cases hr
    · apply Step.Ensures.get
      refine Step.Ensures.bind (stageEntry_ensures _ f) ?_ fun _ _ _ _ hr => by cases hr
      intro _ f' hf'
      refine commitStaged_holds h.ne_dot ?_
      rw [fileAt_last]
      rfl
    · intro _ g hg
      refine (invalidateWithAncestors_ensures _ g).mono fun _ g' hg' _ _ => ?_
      exact (hg _ rfl).untouched hg'.2.toUntouched
  · intro _
    refine Step.Ensures.bind (stageFile_ensures _ f) ?_ fun _ _ _ _ hr => by cases hr
    intro staged g hg
    obtain ⟨f', y, hf', rfl, hm, -, rfl⟩ := hg
    refine commitStagedFile_holds h.ne_dot (hf'.parentHeld hheld) ?_
    rw [fileAt_last]
    exact hm

theorem copyUpMetadataOnly_holds {id : FileId} (h : LowerFile e d n id) :
    (CopyUp.copyUpMetadataOnly (d ++ [n])).Ensures e fun r g =>
      ∀ a, r = .ok a → a.stagedShell = true ∧ HoldsFile g (d ++ [n]) fun _ => True := by
  apply Step.Ensures.get
  rw [h.free]
  apply Step.Ensures.get
  refine Step.Ensures.bind (P := fun _ g => g = e) rfl ?_ fun _ _ _ _ hr => by cases hr
  rintro _ _ rfl
  refine Step.Ensures.bind h.prepared ?_ fun _ _ _ _ hr => by cases hr
  intro source f hf
  obtain ⟨rfl, hheld, hsource⟩ := hf source rfl
  apply Step.Ensures.get
  rw [hsource]
  refine Step.Ensures.bind (stageEntry_ensures _ f) ?_ fun _ _ _ _ hr => by cases hr
  intro _ f' hf'
  refine Step.Ensures.bind (P := fun r k => r = .ok f'.files.length ∧
    k = { f' with files := f'.files ++ [CopyUp.shellOf id (fileAt f.files id)] })
    ⟨rfl, rfl⟩ ?_ fun _ _ hk => by cases hk.1
  rintro staged k ⟨hk, rfl⟩
  obtain rfl := Except.ok.inj hk
  refine Step.Ensures.bind (commitStagedFile_holds (P := fun _ => True) h.ne_dot
    (hf'.parentHeld hheld) trivial) ?_ fun _ _ _ _ hr => by cases hr
  intro _ g hg
  apply Step.Ensures.pure
  intro a ha
  obtain rfl := Except.ok.inj ha
  exact ⟨rfl, hg _ rfl⟩

/-- A copy-up hands out the flag of the shell that it placed. -/
theorem copyUpFileOrShell_holds {id : FileId} (h : LowerFile e d n id)
    (shellOnlyAboveBytes : Option Nat) :
    (CopyUp.copyUpFileOrShell (d ++ [n]) shellOnlyAboveBytes).Ensures e fun r g =>
      ∀ a, r = .ok a → HoldsFile g (d ++ [n]) fun x =>
        a.stagedShell = false → x.metacopy = none := by
  have hfull : (do
      CopyUp.copyUpFile (d ++ [n])
      pure ⟨false⟩ : Op CopyUp.FileCopyUpResult).Ensures e fun r g =>
        ∀ a, r = .ok a → HoldsFile g (d ++ [n]) fun x =>
          a.stagedShell = false → x.metacopy = none := by
    refine Step.Ensures.bind (copyUpFile_holds h) ?_ fun _ _ _ _ hr => by cases hr
    intro _ f hf
    apply Step.Ensures.pure
    exact fun _ _ => (hf _ rfl).mono fun _ hx _ => hx
  apply Step.Ensures.get
  apply Step.Ensures.ite
  · exact fun _ => hfull
  · intro _
    dsimp only
    rw [h.source]
    apply Step.Ensures.ite
    · exact fun _ => hfull
    · intro _
      refine (copyUpMetadataOnly_holds h).mono fun r g hg a ha => ?_
      obtain ⟨hshell, hfile⟩ := hg a ha
      refine hfile.mono fun x _ hflag => ?_
      rw [hshell] at hflag
      cases hflag

/-! ## What a lookup hands to an open -/

/-- The path shows a file with this content, and no link is above it. -/
structure ShowsFile (e : Engine) (p : RelPath) (data : Data) : Prop where
  ne_nil : p ≠ []
  unlinked : isInLinkTarget e.config p.dropLast = false
  view : viewAt e p = some (.file data)
  file : ∃ id, e.resolvedAt (resolvePath e.config p {}).1 = some (.leaf (.file id))

/-- A file of the upper at `p` with this content, or that of its origin. -/
structure UpperFile (e : Engine) (p : RelPath) (data : Data) (id : FileId) : Prop where
  place : e.upperAt p = some (.leaf (.file id))
  content : logicalData e.files id = data
  lookup : ∃ a, (resolvePath e.config p {}).1 = hitAt p .upper none a ∧ a.directory = false

/-- A lower's file at `p` with this content, and nothing of the upper. -/
structure BelowFile (e : Engine) (p : RelPath) (data : Data) (i : Nat) (id : FileId) : Prop where
  free : e.upperAt p = none
  place : e.lowerAt i p = some (.leaf (.file id))
  content : (fileAt e.files id).data = data
  lookup : ∃ a, (resolvePath e.config p {}).1 = hitAt p .lower (some i) a ∧ a.directory = false
  source : e.resolvedAt (resolveLowerPath e.config p) = some (.leaf (.file id))

/-- The record of a shell counts exactly for the upper. -/
theorem ShowsFile.content {data : Data} {id : FileId} (h : ShowsFile e p data)
    (hid : e.resolvedAt (resolvePath e.config p {}).1 = some (.leaf (.file id))) :
    (if (resolvePath e.config p {}).1.source = .upper then logicalData e.files id
      else (fileAt e.files id).data) = data := by
  have hview := h.view
  rw [viewAt, hid, findLinkOnPath_of_unlinked h.unlinked] at hview
  split at hview
  · simpa [shownOf] using hview
  · cases hview

theorem ShowsFile.cases {data : Data} (h : ShowsFile e p data) :
    (∃ id, UpperFile e p data id) ∨ ∃ i id, BelowFile e p data i id := by
  obtain ⟨id, hid⟩ := h.file
  have hcontent := h.content hid
  have hview := h.view
  rw [viewAt_eq e h.ne_nil, Option.map_eq_some_iff] at hview
  obtain ⟨x, hx, -⟩ := hview
  have hlook := resolvePath_eq e h.ne_nil
  rw [hx] at hlook
  cases hu : e.upperAt p with
  | some t =>
    left
    have hplace : placeAt e.upper p = some t := hu
    rw [showAt_eq e h.ne_nil] at hx
    split at hx
    · rw [slotsAt_cons, Overlay.look] at hx
      simp only [treeOverlay, slotOf_sub, hplace, Option.map_some, Option.some.injEq] at hx
      rw [← hx] at hlook
      have hlook : (resolvePath e.config p {}).1
          = hitAt p .upper none (layerEntry e.files t).attributes := by
        simpa [resultOf] using hlook
      rw [hlook] at hid hcontent
      obtain rfl : t = .leaf (.file id) := Option.some.inj (hu.symm.trans hid)
      exact ⟨id, hu, hcontent, _, hlook, rfl⟩
    · cases hx
  | none =>
    right
    obtain ⟨d, n, rfl⟩ : ∃ d n, p = d ++ [n] :=
      ⟨_, _, (List.dropLast_append_getLast h.ne_nil).symm⟩
    obtain ⟨i, t, hshown, rfl⟩ := shownBelow_of_showAt hu hx
    have hlook : (resolvePath e.config (d ++ [n]) {}).1
        = hitAt (d ++ [n]) .lower (some i) (layerEntry e.files t).attributes := hlook
    rw [hlook] at hid hcontent
    obtain rfl : t = .leaf (.file id) := Option.some.inj (hshown.place.symm.trans hid)
    refine ⟨i, id, hu, hshown.place, hcontent, ⟨_, hlook, rfl⟩, ?_⟩
    rw [hshown.resolveLowerPath]
    exact hshown.place

/-! ## Contexts -/

/-- The context `h` has an open handle on a file with this data. -/
structure ReadsFrom (g : Engine) (h : Nat) (access : Access) (data : Data) : Prop where
  context : ∃ ctx id, g.contexts.getD h none = some ctx ∧ ctx.handle = some (.file id) ∧
    ctx.handleNeedsReopen = false ∧ ctx.grantedAccess = access ∧ (fileAt g.files id).data = data

/-- What a read of `length` bytes at `offset` gives. -/
def readResult (data : Data) (offset length : Nat) : Except NtStatus Data :=
  let bytes := (data.drop offset).take length
  if bytes.isEmpty && length ≠ 0 then .error .endOfFile else .ok bytes

theorem get_of_context {h : Nat} {ctx : FileContext} (hctx : g.contexts.getD h none = some ctx) :
    Context.get h g = (.ok ctx, g) := by
  simp only [Context.get, Step.get_bind, hctx]
  rfl

theorem contexts_modify {h : Nat} {ctx : FileContext} (hctx : g.contexts.getD h none = some ctx)
    (change : FileContext → FileContext) :
    (g.contexts.modify h (Option.map change)).getD h none = some (change ctx) := by
  rw [List.getD_eq_getElem?_getD] at hctx ⊢
  rw [List.getElem?_modify_eq]
  cases hslot : g.contexts[h]? with
  | none => rw [hslot] at hctx; cases hctx
  | some slot =>
    rw [hslot, Option.getD_some] at hctx
    rw [hctx]
    rfl

/-- The layers, the files and the plan are the same, and `ctx` is the context `h`. -/
structure InContext (e g : Engine) (h : Nat) (ctx : FileContext) : Prop where
  upper : g.upper = e.upper
  lowers : g.lowers = e.lowers
  files : g.files = e.files
  fault : g.fault = e.fault
  context : g.contexts.getD h none = some ctx

theorem InContext.upperAt {h : Nat} {ctx : FileContext} (hctx : InContext e g h ctx)
    (p : RelPath) : g.upperAt p = e.upperAt p := by
  rw [Engine.upperAt, Engine.upperAt, hctx.upper]

theorem InContext.lowerAt {h : Nat} {ctx : FileContext} (hctx : InContext e g h ctx)
    (i : Nat) (p : RelPath) : g.lowerAt i p = e.lowerAt i p := by
  rw [Engine.lowerAt, Engine.lowerAt, hctx.lowers]

theorem InContext.config {h : Nat} {ctx : FileContext} (hctx : InContext e g h ctx) :
    g.config = e.config := by
  rw [Engine.config, Engine.config, hctx.upper, hctx.lowers, hctx.files]

theorem InContext.resolvedAt {h : Nat} {ctx : FileContext} (hctx : InContext e g h ctx)
    (r : ResolvedPath) : g.resolvedAt r = e.resolvedAt r := by
  simp only [Engine.resolvedAt, Engine.upperAt, Engine.lowerAt, hctx.upper, hctx.lowers]

theorem InContext.viewAt {h : Nat} {ctx : FileContext} (hctx : InContext e g h ctx)
    (r : RelPath) : viewAt g r = viewAt e r := by
  have hlayer : g.upperLayer = e.upperLayer := by
    rw [Engine.upperLayer, Engine.upperLayer, hctx.upper, hctx.files]
  rw [LayerMount.viewAt, LayerMount.viewAt, hctx.config, hctx.resolvedAt, hctx.files, hlayer]

theorem InContext.wf {h : Nat} {ctx : FileContext} (hctx : InContext e g h ctx) (he : e.Wf) :
    g.Wf := by
  refine ⟨?_, ?_, ?_⟩
  · rw [hctx.upper, hctx.files]
    exact he.upper
  · rw [hctx.lowers, hctx.files]
    exact he.lowers
  · rw [hctx.files]
    exact he.origins

theorem InContext.showsFile {h : Nat} {ctx : FileContext} {data : Data}
    (hctx : InContext e g h ctx) (hfile : ShowsFile e p data) : ShowsFile g p data := by
  refine ⟨hfile.ne_nil, ?_, ?_, ?_⟩
  · rw [hctx.config]
    exact hfile.unlinked
  · rw [hctx.viewAt]
    exact hfile.view
  · rw [hctx.config, hctx.resolvedAt]
    exact hfile.file

theorem modify_inContext {h : Nat} {ctx : FileContext} (hctx : InContext e g h ctx)
    (change : FileContext → FileContext) :
    (Context.modify h change).Ensures g fun r k => r = .ok () ∧ InContext e k h (change ctx) :=
  ⟨rfl, hctx.upper, hctx.lowers, hctx.files, hctx.fault, contexts_modify hctx.context change⟩

/-- A program that reads its context goes on with it. -/
theorem get_inContext {α : Type} {h : Nat} {ctx : FileContext} {rest : FileContext → Op α}
    {Q : Except NtStatus α → Engine → Prop} (hctx : InContext e g h ctx)
    (hrest : (rest ctx).Ensures g Q) : (Context.get h >>= rest).Ensures g Q := by
  rw [Step.Ensures, Step.bind_of_ok (get_of_context hctx.context)]
  exact hrest

/-- A handle on the file at the context's path. -/
theorem openHandle_reads {h : Nat} {ctx : FileContext} {id : FileId}
    (hctx : InContext e g h ctx)
    (hplace : Context.placeOf e ctx.actualPath = some (.leaf (.file id))) :
    (Context.openHandle h).Ensures g fun r k => r = .ok () ∧
      ReadsFrom k h ctx.grantedAccess (fileAt e.files id).data := by
  refine Step.Ensures.bind (modify_inContext hctx _) ?_ fun _ _ hk => by cases hk.1
  rintro _ k ⟨-, hk⟩
  apply get_inContext hk
  apply Step.Ensures.get
  have hhere : ∀ a, Context.placeOf k a = Context.placeOf e a := by
    intro a
    cases a with
    | upper p => exact hk.upperAt p
    | lower i p => exact hk.lowerAt i p
  simp only [hhere, hplace]
  refine (modify_inContext hk _).mono fun r k' hk' => ?_
  refine ⟨hk'.1, _, id, hk'.2.context, rfl, rfl, rfl, ?_⟩
  rw [hk'.2.files]

/-- Without a planned failure a disk step succeeds. -/
theorem diskStep_planned (s : DiskStep) (e : Engine) :
    (diskStep s).Ensures e fun r g => Untouched e g ∧
      (e.fault = none → r = .ok () ∧ g.fault = none) := by
  refine (diskStep_ensures s e).and fun hnone => ?_
  simp only [diskStep, hnone, and_self]

theorem fileAt_set {files : List FileObj} {id : FileId} (h : id < files.length) (x : FileObj) :
    fileAt (files.set id x) id = x := by
  simp [fileAt, List.getD_eq_getElem?_getD, List.getElem?_set_self h]

theorem lt_of_metacopy {files : List FileObj} {id : FileId} {origin : Origin}
    (h : (fileAt files id).metacopy = some origin) : id < files.length := by
  by_contra hlen
  rw [fileAt, List.getD_eq_getElem?_getD, List.getElem?_eq_none (Nat.le_of_not_lt hlen)] at h
  cases h

/-- The state after a fill of the upper's file `id`. -/
structure Filled (g k : Engine) (id : FileId) : Prop where
  upper : k.upper = g.upper
  contexts : k.contexts = g.contexts
  data : (fileAt k.files id).data = logicalData g.files id

theorem completeLazyCopyUp_fills {id : FileId} (hupper : g.upperAt p = some (.leaf (.file id))) :
    (CopyUp.completeLazyCopyUp p).Ensures g fun r k =>
      (g.fault = none → r = .ok ()) ∧ ∀ a, r = .ok a → Filled g k id := by
  apply Step.Ensures.get
  rw [hupper]
  dsimp only [fileOf]
  cases hm : (fileAt g.files id).metacopy with
  | none =>
    refine ⟨fun _ => rfl, fun _ _ => ⟨rfl, rfl, ?_⟩⟩
    rw [logicalData, hm]
    rfl
  | some origin =>
    have hlen := lt_of_metacopy hm
    refine Step.Ensures.bind (diskStep_planned .fillData g) ?_ ?_
    · rintro _ f ⟨hf, hfault⟩
      apply Step.Ensures.modify_bind
      refine Step.Ensures.bind (diskStep_planned .writeRecord _) ?_ ?_
      · rintro _ k ⟨hk, -⟩
        have hfiles : id < k.files.length := by
          rw [hk.files, List.length_set, hf.files]
          exact hlen
        refine ⟨fun _ => rfl, fun _ _ => ⟨hk.upper.trans hf.upper, hk.contexts.trans hf.contexts, ?_⟩⟩
        have hset := fileAt_set hfiles { CopyUp.filledShell origin
          (fileAt g.files origin.file).data (fileAt g.files id) with metacopy := none }
        have hdata := congrArg FileObj.data hset
        rw [logicalData, hm]
        exact hdata
      · intro status k hk
        refine ⟨fun hnone => ?_, fun _ h => by cases h⟩
        cases (hk.2 (hfault hnone).2).1
    · intro status k hk
      refine ⟨fun hnone => ?_, fun _ h => by cases h⟩
      cases (hk.2 hnone).1

/-- The last two steps of an open of the upper's file `id`: a shell is filled, and the handle
reads the content. -/
theorem fillAndOpen_reads {h : Nat} {ctx : FileContext} {id : FileId} (hctx : InContext e g h ctx)
    (hupper : e.upperAt p = some (.leaf (.file id))) (hpath : ctx.actualPath = .upper p)
    (hdir : ctx.isDirectory = false) (haccess : hasFileDataAccess ctx.grantedAccess = true)
    (hflag : ctx.isMetacopyOnly = false → (fileAt e.files id).metacopy = none) :
    (do
      Context.fillShellForDataAccess p h
      Context.openHandle h : Op Unit).Ensures g fun r k =>
        (e.fault = none → r = .ok ()) ∧
          ∀ a, r = .ok a → ReadsFrom k h ctx.grantedAccess (logicalData e.files id) := by
  have hupper' : g.upperAt p = some (.leaf (.file id)) := (hctx.upperAt p).trans hupper
  refine Step.Ensures.bind (P := fun r k => (e.fault = none → r = .ok ()) ∧ ∀ a, r = .ok a →
    (fileAt k.files id).data = logicalData e.files id ∧ k.upperAt p = some (.leaf (.file id)) ∧
      ∃ ctx', k.contexts.getD h none = some ctx' ∧ ctx'.actualPath = .upper p ∧
        ctx'.grantedAccess = ctx.grantedAccess) ?_ ?_ ?_
  · apply get_inContext hctx
    apply Step.Ensures.ite
    · intro _
      refine Step.Ensures.bind (completeLazyCopyUp_fills hupper') ?_ ?_
      · intro _ k hk
        have hfilled := hk.2 _ rfl
        refine ⟨fun _ => rfl, fun _ _ => ⟨?_, ?_, _, contexts_modify ?_ _, hpath, rfl⟩⟩
        · rw [← hctx.files]
          exact hfilled.data
        · have hsame : k.upperAt p = g.upperAt p := by
            rw [Engine.upperAt, Engine.upperAt, hfilled.upper]
          exact hsame.trans hupper'
        · rw [hfilled.contexts]
          exact hctx.context
      · intro status k hk
        refine ⟨fun hnone => ?_, fun _ hr => by cases hr⟩
        cases hk.1 (hctx.fault.trans hnone)
    · intro hplain
      rw [hdir, haccess, Bool.not_false, Bool.and_true, Bool.and_true, Bool.not_eq_true] at hplain
      refine ⟨fun _ => rfl, fun _ _ => ⟨?_, hupper', ctx, hctx.context, hpath, rfl⟩⟩
      rw [logicalData, hflag hplain, ← hctx.files]
      rfl
  · intro _ k hk
    obtain ⟨hdata, hplace, ctx', hctx', hpath', haccess'⟩ := hk.2 _ rfl
    have hin : InContext k k h ctx' := ⟨rfl, rfl, rfl, rfl, hctx'⟩
    refine (@openHandle_reads _ _ h ctx' id hin ?_).mono fun r k' hk' =>
      ⟨fun _ => hk'.1, fun _ _ => ?_⟩
    · rw [hpath']
      exact hplace
    · rw [← haccess', ← hdata]
      exact hk'.2
  · exact fun _ k hk => ⟨hk.1, fun _ hr => by cases hr⟩

/-! ## The open -/

/-- The steps of `Open` on its new context. -/
def openSteps (p : RelPath) (resolved : ResolvedPath) (h : Nat) : Op Unit := do
  Context.setOpenPath p resolved h
  if resolved.source = .upper then Context.readMetacopyFlag p h else pure ()
  Context.fillShellForDataAccess p h
  Context.openHandle h

theorem openSteps_upper {h : Nat} {ctx : FileContext} {data : Data} {id : FileId}
    {a : Attributes} (hfile : UpperFile e p data id) (hctx : InContext e g h ctx)
    (hdir : ctx.isDirectory = false) (haccess : hasFileDataAccess ctx.grantedAccess = true) :
    (openSteps p (hitAt p .upper none a) h).Ensures g fun r k =>
      (e.fault = none → r = .ok ()) ∧
        ∀ b, r = .ok b → ReadsFrom k h ctx.grantedAccess data := by
  refine Step.Ensures.bind (P := fun r k => r = .ok () ∧ ∃ ctx', InContext e k h ctx' ∧
    ctx'.actualPath = .upper p ∧ ctx'.isDirectory = false ∧
    ctx'.grantedAccess = ctx.grantedAccess) ?_ ?_ fun _ _ hk => by cases hk.1
  · apply get_inContext hctx
    exact (modify_inContext hctx _).mono fun r k hk => ⟨hk.1, _, hk.2, rfl, hdir, rfl⟩
  · rintro _ k ⟨-, ctx', hctx', hpath, hdir', haccess'⟩
    have hread : (Context.readMetacopyFlag p h).Ensures k fun r k' => r = .ok () ∧
        InContext e k' h { ctx' with isMetacopyOnly := Context.isShellAt k p } :=
      modify_inContext hctx' _
    simp only [hitAt, if_true]
    refine Step.Ensures.bind hread ?_ fun _ _ hk => by cases hk.1
    rintro _ k' ⟨-, hk'⟩
    rw [← haccess', ← hfile.content]
    refine (fillAndOpen_reads hk' hfile.place hpath hdir' (haccess' ▸ haccess) ?_).mono
      fun _ _ hr => hr
    intro hflag
    have hshell : Context.isShellAt k p = (fileAt e.files id).metacopy.isSome := by
      rw [Context.isShellAt, hctx'.upperAt, hfile.place, hctx'.files]
      rfl
    rw [hshell] at hflag
    simpa using hflag

theorem openSteps_lower {h i : Nat} {ctx : FileContext} {data : Data} {id : FileId}
    {a : Attributes} (hfile : BelowFile e p data i id) (hctx : InContext e g h ctx)
    (hflag : ctx.isMetacopyOnly = false) (hread : hasWriteAccess ctx.grantedAccess = false) :
    (openSteps p (hitAt p .lower (some i) a) h).Ensures g fun r k =>
      r = .ok () ∧ ReadsFrom k h ctx.grantedAccess data := by
  refine Step.Ensures.bind (P := fun r k => r = .ok () ∧ ∃ ctx', InContext e k h ctx' ∧
    ctx'.actualPath = .lower i p ∧ ctx'.isMetacopyOnly = false ∧
    ctx'.grantedAccess = ctx.grantedAccess) ?_ ?_ fun _ _ hk => by cases hk.1
  · apply get_inContext hctx
    simp only [hread, Bool.and_false, Bool.false_eq_true, if_false]
    exact (modify_inContext hctx _).mono fun r k hk => ⟨hk.1, _, hk.2, rfl, hflag, rfl⟩
  · rintro _ k ⟨-, ctx', hctx', hpath, hflag', haccess⟩
    simp only [hitAt, reduceCtorEq, if_false]
    refine Step.Ensures.bind (P := fun r k' => r = .ok () ∧ k' = k) ?_ ?_ fun _ _ hk => by cases hk.1
    · apply get_inContext hctx'
      simp only [hflag', Bool.false_and, Bool.false_eq_true, if_false]
      exact ⟨rfl, rfl⟩
    · intro _ k' hk'
      rw [hk'.2, ← haccess, ← hfile.content]
      refine openHandle_reads hctx' ?_
      rw [hpath]
      exact hfile.place

/-- A copied-up path that shows a file shows one of the upper. -/
theorem ShowsFile.raised {data : Data} (hfile : ShowsFile e p data) (h : Raised e g)
    (hheld : HoldsFile g p fun _ => True) : ShowsFile g p data := by
  obtain ⟨id, hid, -⟩ := hheld
  have hview : viewAt g p = some (.file data) := (h.view p).trans hfile.view
  have hsource := source_of_held hview (by rw [hid]; rfl)
  refine ⟨hfile.ne_nil, ?_, hview, id, ?_⟩
  · exact h.unlinked hfile.ne_nil (by rw [hfile.view]; rfl) hfile.unlinked
  · rcases resolvePath_cases g.noRedirect hfile.ne_nil with ⟨source, i, a, -, hhit⟩ | hmiss
    · rw [hhit] at hsource ⊢
      obtain rfl : source = .upper := hsource
      exact hid
    · rw [hmiss] at hsource
      cases hsource

theorem ShowsFile.upperFile {data : Data} {id : FileId} (hfile : ShowsFile e p data)
    (hid : e.upperAt p = some (.leaf (.file id))) : UpperFile e p data id := by
  rcases hfile.cases with ⟨id', hupper⟩ | ⟨i, id', hbelow⟩
  · have hsame := hupper.place
    rw [hid] at hsame
    injection hsame with hsame
    injection hsame with hsame
    injection hsame with hsame
    rw [hsame]
    exact hupper
  · rw [hbelow.free] at hid
    cases hid

/-- A lower's file that shows is what a copy-up copies. -/
theorem BelowFile.lowerFile {i : Nat} {data : Data} {id : FileId}
    (hfile : BelowFile e (d ++ [n]) data i id) (hshows : ShowsFile e (d ++ [n]) data) :
    LowerFile e d n id := by
  have hlink := hshows.unlinked
  rw [List.dropLast_concat] at hlink
  exact ⟨hfile.free, by rw [hshows.view]; rfl, hlink, hfile.source⟩

/-- The copy-up of an open for writing.  The context's flag says whether the new entry of
the upper is a shell. -/
theorem copyUpForHandle_holds {h i : Nat} {ctx : FileContext} {data : Data} {id : FileId}
    (he : e.Wf) (hshows : ShowsFile e p data) (hfile : BelowFile e p data i id)
    (hctx : InContext e g h ctx) (hdir : ctx.isDirectory = false)
    (hflag : ctx.isMetacopyOnly = false) (shellOnlyAboveBytes : Option Nat) :
    (Context.copyUpForHandle p h shellOnlyAboveBytes).Ensures g fun r k => ∀ b, r = .ok b →
      ∃ f flag id', InContext f k h { ctx with isMetacopyOnly := flag } ∧ UpperFile f p data id' ∧
        (flag = false → (fileAt f.files id').metacopy = none) := by
  obtain ⟨d, n, rfl⟩ : ∃ d n, p = d ++ [n] :=
    ⟨_, _, (List.dropLast_append_getLast hshows.ne_nil).symm⟩
  have hshows' := hctx.showsFile hshows
  have hlower := hfile.lowerFile hshows
  have hlower' : LowerFile g d n id := by
    refine ⟨(hctx.upperAt _).trans hlower.free, ?_, ?_, ?_⟩
    · rw [hctx.viewAt]
      exact hlower.shown
    · rw [hctx.config]
      exact hlower.unlinked
    · rw [hctx.config, hctx.resolvedAt]
      exact hlower.source
  apply get_inContext hctx
  apply Step.Ensures.ite
  · intro hdirectory
    rw [hdir] at hdirectory
    cases hdirectory
  intro _
  refine Step.Ensures.bind ((copyUpFileOrShell_raised (hctx.wf he) hshows'.view _).and
    (copyUpFileOrShell_holds hlower' shellOnlyAboveBytes)) ?_ fun _ _ _ _ hr => by cases hr
  rintro copied f ⟨hraised, hholds⟩
  obtain ⟨id', hid', hplain⟩ := hholds _ rfl
  have hshowsf := hshows'.raised hraised.raised ⟨id', hid', trivial⟩
  have hin : InContext f f h ctx := by
    refine ⟨rfl, rfl, rfl, rfl, ?_⟩
    rw [hraised.raised.contexts]
    exact hctx.context
  have hupper := hshowsf.upperFile hid'
  apply Step.Ensures.ite
  · intro hstaged
    refine (modify_inContext hin _).mono fun r k hk _ _ => ?_
    exact ⟨f, true, id', hk.2, hupper, fun hfalse => by cases hfalse⟩
  · intro hstaged
    apply Step.Ensures.pure
    intro _ _
    refine ⟨f, false, id', ?_, hupper, fun _ => hplain (by simpa using hstaged)⟩
    have hsame : { ctx with isMetacopyOnly := false } = ctx := by rw [← hflag]
    rw [hsame]
    exact hin

theorem openSteps_copied {h i : Nat} {ctx : FileContext} {data : Data} {id : FileId}
    {a : Attributes} (he : e.Wf) (hshows : ShowsFile e p data) (hfile : BelowFile e p data i id)
    (hctx : InContext e g h ctx) (hdir : ctx.isDirectory = false)
    (hflag : ctx.isMetacopyOnly = false) (haccess : hasFileDataAccess ctx.grantedAccess = true)
    (hwrite : hasWriteAccess ctx.grantedAccess = true) :
    (openSteps p (hitAt p .lower (some i) a) h).Ensures g fun r k =>
      ∀ b, r = .ok b → ReadsFrom k h ctx.grantedAccess data := by
  refine Step.Ensures.bind (P := fun r k => ∀ b, r = .ok b → ∃ f ctx' id', InContext f k h ctx' ∧
    UpperFile f p data id' ∧ ctx'.actualPath = .upper p ∧ ctx'.isDirectory = false ∧
    ctx'.grantedAccess = ctx.grantedAccess ∧
    (ctx'.isMetacopyOnly = false → (fileAt f.files id').metacopy = none)) ?_ ?_
    fun _ _ _ _ hr => by cases hr
  · apply get_inContext hctx
    simp only [hitAt, hwrite, decide_true, Bool.and_true, if_true]
    refine Step.Ensures.bind (copyUpForHandle_holds he hshows hfile hctx hdir hflag _) ?_
      fun _ _ _ _ hr => by cases hr
    intro _ k hk
    obtain ⟨f, flag, id', hin, hupper, hplain⟩ := hk _ rfl
    refine (modify_inContext hin _).mono fun r k' hk' _ _ => ?_
    exact ⟨f, _, id', hk'.2, hupper, rfl, hdir, rfl, hplain⟩
  · intro _ k hk
    obtain ⟨f, ctx', id', hin, hupper, hpath, hdir', haccess', hplain⟩ := hk _ rfl
    simp only [hitAt, reduceCtorEq, if_false]
    rw [← haccess', ← hupper.content]
    refine (fillAndOpen_reads hin hupper.place hpath hdir' (haccess' ▸ haccess) hplain).mono ?_
    exact fun _ _ hr => hr.2

theorem ReadsFrom.read {h : Nat} {access : Access} {data : Data} (hreads : ReadsFrom g h access data)
    (hright : (computePhysicalHandleAccess access).readData = true) (offset length : Nat) :
    (Context.read h offset length g).1 = readResult data offset length := by
  obtain ⟨ctx, id, hctx, hhandle, hcurrent, rfl, rfl⟩ := hreads.context
  have hget := get_of_context hctx
  have hready : Context.ensureHandleReady h g = (.ok (), g) := by
    rw [Context.ensureHandleReady, Step.bind_of_ok hget, if_pos (by simp [hcurrent, hhandle])]
    rfl
  rw [Context.read, Step.bind_of_ok hready, Step.bind_of_ok hget, Step.get_bind, hhandle]
  simp only [hright, Bool.not_true, Bool.false_eq_true, if_false, readResult]
  split
  · rfl
  · rfl

/-- The rest of an open runs on the new context, and its success is the open's. -/
theorem withNew_opens {ctx : FileContext} {rest : Nat → Op Unit} {P : Prop}
    {Q : Nat → Engine → Prop}
    (hrest : ∀ h k, InContext e k h ctx → (rest h).Ensures k fun r g =>
      (P → r = .ok ()) ∧ ∀ b, r = .ok b → Q h g) :
    (Context.withNew ctx rest).Ensures e fun r g =>
      (P → ∃ h, r = .ok h) ∧ ∀ h, r = .ok h → Q h g := by
  apply Step.Ensures.get
  apply Step.Ensures.modify_bind
  refine Step.Ensures.attempt_bind (hrest e.contexts.length _ ⟨rfl, rfl, rfl, rfl, ?_⟩) ?_
  · simp [List.getD_eq_getElem?_getD]
  · intro r g hg
    cases r with
    | ok _ =>
      refine ⟨fun _ => ⟨_, rfl⟩, fun h hr => ?_⟩
      obtain rfl := Except.ok.inj hr
      exact hg.2 _ rfl
    | error status => exact ⟨fun hp => (by cases hg.1 hp), fun _ hr => by cases hr⟩

theorem Untouched.showsFile {data : Data} (h : Untouched e g) (hfile : ShowsFile e p data) :
    ShowsFile g p data := by
  refine ⟨hfile.ne_nil, ?_, ?_, ?_⟩
  · rw [h.config]
    exact hfile.unlinked
  · rw [h.viewAt]
    exact hfile.view
  · rw [h.config, h.resolvedAt]
    exact hfile.file

/-- The open needs no step that can fail: it is a read of a lower's file, or no failure is
planned and the file is the upper's. -/
def OpensAtOnce (e : Engine) (p : RelPath) (access : Access) : Prop :=
  if (e.upperAt p).isSome then e.fault = none else hasWriteAccess access = false

/-- The steps of an open of a file, from the lookup's result on. -/
theorem openSteps_reads {h : Nat} {access : Access} {data : Data} (he : e.Wf)
    (hshows : ShowsFile e p data) (haccess : hasFileDataAccess access = true)
    (hctx : InContext e g h
      { actualPath := Context.actualPathOf p (resolvePath e.config p {}).1, relativePath := p
        isDirectory := (resolvePath e.config p {}).1.isDirectory, grantedAccess := access }) :
    (openSteps p (resolvePath e.config p {}).1 h).Ensures g fun r k =>
      (OpensAtOnce e p access → r = .ok ()) ∧ ∀ b, r = .ok b → ReadsFrom k h access data := by
  rcases hshows.cases with ⟨id, hupper⟩ | ⟨i, id, hbelow⟩
  · obtain ⟨a, hhit, hdir⟩ := hupper.lookup
    rw [hhit] at hctx ⊢
    refine (openSteps_upper hupper hctx hdir haccess).mono fun r k hk => ⟨fun honce => ?_, hk.2⟩
    rw [OpensAtOnce, hupper.place] at honce
    exact hk.1 honce
  · obtain ⟨a, hhit, hdir⟩ := hbelow.lookup
    rw [hhit] at hctx ⊢
    by_cases hwrite : hasWriteAccess access = true
    · refine (openSteps_copied he hshows hbelow hctx hdir rfl haccess hwrite).mono
        fun r k hk => ⟨fun honce => ?_, hk⟩
      rw [OpensAtOnce, hbelow.free] at honce
      rw [hwrite] at honce
      cases honce
    · rw [Bool.not_eq_true] at hwrite
      refine (openSteps_lower hbelow hctx rfl hwrite).mono fun r k hk => ⟨fun _ => hk.1, ?_⟩
      exact fun _ _ => hk.2

/-- An open for data of a path that shows a file gives a context that reads its content. -/
theorem openPath_reads [HostCase] {path : CallerPath} {access : Access} {data : Data} (he : e.Wf)
    (hshows : ShowsFile e (viewPathOf path).norm data)
    (haccess : hasFileDataAccess access = true) (finalLink : FinalLink) :
    (Context.openPath path access finalLink).Ensures e fun r g =>
      (OpensAtOnce e (viewPathOf path).norm access → ∃ h, r = .ok h) ∧
        ∀ h, r = .ok h → ReadsFrom g h access data := by
  refine Step.Ensures.bind (walkCallerPath_looked path finalLink e) ?_ fun _ _ hf => by cases hf.1
  rintro view f ⟨hview, hf⟩
  obtain rfl := Except.ok.inj hview
  have hsome : (viewAt e (viewPathOf path).norm).isSome = true := by
    rw [hshows.view]
    rfl
  have hsafe : parsesAsHostPath (viewPathOf path).norm = true := by
    have hres := isResolvablePath_of_viewAt hshows.ne_nil hsome
    rw [isResolvablePath, Bool.and_eq_true] at hres
    exact hres.1
  apply Step.Ensures.ite
  · intro hempty
    exact absurd (by simpa using hempty) hshows.ne_nil
  intro _
  apply Step.Ensures.ite
  · intro hunsafe
    rw [hsafe] at hunsafe
    cases hunsafe
  intro _
  refine Step.Ensures.bind (lookup_ensures _ f) ?_ fun _ _ hf => by cases hf.1
  rintro resolved f' ⟨hresolved, hf'⟩
  have hlooked := hf.trans hf'
  have hwf : f'.Wf := hlooked.toUntouched.raised.wf he
  have hshows' := hlooked.toUntouched.showsFile hshows
  obtain rfl : resolved = (resolvePath f'.config (viewPathOf path).norm {}).1 := by
    rw [hf'.toUntouched.config]
    exact Except.ok.inj hresolved
  apply Step.Ensures.ite
  · intro hmiss
    have hfound := hshows'.view
    rw [viewAt] at hfound
    split at hfound
    · rename_i hhit
      rw [hhit] at hmiss
      cases hmiss
    · cases hfound
  intro _
  refine (withNew_opens fun h k hctx => openSteps_reads hwf hshows' haccess hctx).mono
    fun r g hg => ⟨fun honce => hg.1 ?_, hg.2⟩
  rw [OpensAtOnce] at honce ⊢
  rw [hlooked.toUntouched.upperAt, hlooked.fault]
  exact honce

/-- An open for data of the path and a read give this data. -/
structure ReadsAs [HostCase] (e : Engine) (path : CallerPath) (data : Data) : Prop where
  opens : e.fault = none → ∀ finalLink, ∃ h g,
    Context.openPath path { readData := true } finalLink e = (.ok h, g)
  reads : ∀ access finalLink h g offset length,
    Context.openPath path access finalLink e = (.ok h, g) →
      (computePhysicalHandleAccess access).readData = true →
        (Context.read h offset length g).1 = readResult data offset length

theorem hasFileDataAccess_of_readData {access : Access}
    (h : (computePhysicalHandleAccess access).readData = true) :
    hasFileDataAccess access = true := by
  rw [computePhysicalHandleAccess] at h
  split at h
  · rename_i hwrite
    rw [Bool.or_eq_true] at hwrite
    rcases hwrite with hwrite | hwrite
    · simp [hasFileDataAccess, hwrite]
    · simp [hasFileDataAccess, hwrite]
  · simp [hasFileDataAccess, h]

theorem ShowsFile.readsAs [HostCase] {path : CallerPath} {data : Data} (he : e.Wf)
    (hshows : ShowsFile e (viewPathOf path).norm data) : ReadsAs e path data where
  opens := by
    intro hfault finalLink
    have hopen := @openPath_reads _ _ _ { readData := true } _ he hshows rfl finalLink
    have honce : OpensAtOnce e (viewPathOf path).norm { readData := true } := by
      rw [OpensAtOnce]
      split
      · exact hfault
      · rfl
    obtain ⟨h, hh⟩ := hopen.1 honce
    exact ⟨h, _, Prod.ext hh rfl⟩
  reads := by
    intro access finalLink h g offset length hopened hright
    have hopen := openPath_reads he hshows (hasFileDataAccess_of_readData hright) finalLink
    rw [Step.Ensures, hopened] at hopen
    exact (hopen.2 h rfl).read hright offset length

/-! ## A shell of a lower -/

/-- The path shows the file `id` of the lower `i` itself, an unfilled shell of `origin`. -/
structure LowerShell (e : Engine) (p : RelPath) (i : Nat) (id : FileId) (origin : Origin) :
    Prop where
  source : (resolvePath e.config p {}).1.source = .lower
  lowerIndex : (resolvePath e.config p {}).1.lowerIndex = some i
  place : e.lowerAt i p = some (.leaf (.file id))
  /-- A path through a link leads out of the layer. -/
  unlinked : isInLinkTarget e.config p.dropLast = false
  record : (fileAt e.files id).metacopy = some origin
  unfilled : (fileAt e.files id).data
    = List.replicate (fileAt e.files origin.file).data.length 0

theorem LowerShell.ne_nil {i : Nat} {id : FileId} {origin : Origin}
    (h : LowerShell e p i id origin) : p ≠ [] := by
  rintro rfl
  cases h.source

theorem LowerShell.showsFile {i : Nat} {id : FileId} {origin : Origin}
    (h : LowerShell e p i id origin) : ShowsFile e p (fileAt e.files id).data := by
  have hsource := h.source
  have hindex := h.lowerIndex
  rcases resolvePath_cases e.noRedirect h.ne_nil with ⟨source, k, a, -, hhit⟩ | hmiss
  · rw [hhit] at hsource hindex
    obtain rfl : source = .lower := hsource
    obtain rfl : k = some i := hindex
    have hplace : e.resolvedAt (resolvePath e.config p {}).1 = some (.leaf (.file id)) := by
      rw [hhit]
      exact h.place
    refine ⟨h.ne_nil, h.unlinked, ?_, id, hplace⟩
    rw [viewAt, hplace, hhit]
    rfl
  · rw [hmiss] at hsource
    cases hsource

theorem LowerShell.belowFile {i : Nat} {id : FileId} {origin : Origin}
    (h : LowerShell e p i id origin) : ∃ i' id', BelowFile e p (fileAt e.files id).data i' id' := by
  rcases h.showsFile.cases with ⟨id', hupper⟩ | hbelow
  · obtain ⟨a, hhit, -⟩ := hupper.lookup
    have hsource := h.source
    rw [hhit] at hsource
    cases hsource
  · exact hbelow

/-- The calls that copy a file up. -/
inductive FileCopyUp where
  | copyUpFile
  | copyUpMetadataOnly
  | copyUpFileOrShell (shellOnlyAboveBytes : Option Nat)
  | ensureInUpperLayer
  | setSecurity

def FileCopyUp.run [HostCase] (path : CallerPath) : FileCopyUp → Op Unit
  | .copyUpFile => CopyUp.copyUpFile (viewPathOf path).norm
  | .copyUpMetadataOnly => do
    let _ ← CopyUp.copyUpMetadataOnly (viewPathOf path).norm
    pure ()
  | .copyUpFileOrShell shellOnlyAboveBytes => do
    let _ ← CopyUp.copyUpFileOrShell (viewPathOf path).norm shellOnlyAboveBytes
    pure ()
  | .ensureInUpperLayer => ensurePathInUpperLayer path
  | .setSecurity => LayerMount.setSecurity path

/-- The file shows as before, now in the upper. -/
structure CopiedFile (g : Engine) (p : RelPath) (data : Data) : Prop where
  wf : g.Wf
  shows : ShowsFile g p data

theorem CopiedFile.looked {data : Data} (h : CopiedFile f p data) (h' : Untouched f g) :
    CopiedFile g p data :=
  ⟨h'.raised.wf h.wf, h'.showsFile h.shows⟩

/-- A file of a lower that shows, as the copy-ups need it. -/
structure Copyable (e : Engine) (p : RelPath) (data : Data) : Prop extends CopiedFile e p data where
  below : ∃ i id, BelowFile e p data i id

theorem Copyable.looked {data : Data} (h : Copyable f p data) (h' : Untouched f g) :
    Copyable g p data := by
  obtain ⟨i, id, hbelow⟩ := h.below
  refine ⟨h.toCopiedFile.looked h', i, id, ?_, ?_, ?_, ?_, ?_⟩
  · rw [h'.upperAt]
    exact hbelow.free
  · rw [Engine.lowerAt, h'.lowers]
    exact hbelow.place
  · rw [h'.files]
    exact hbelow.content
  · rw [h'.config]
    exact hbelow.lookup
  · rw [h'.config, h'.resolvedAt]
    exact hbelow.source

theorem Copyable.lowerFile {data : Data} (h : Copyable e p data) :
    ∃ d n id, p = d ++ [n] ∧ LowerFile e d n id := by
  obtain ⟨i, id, hbelow⟩ := h.below
  obtain ⟨d, n, rfl⟩ : ∃ d n, p = d ++ [n] :=
    ⟨_, _, (List.dropLast_append_getLast h.shows.ne_nil).symm⟩
  exact ⟨d, n, id, rfl, hbelow.lowerFile h.shows⟩

theorem Copyable.raised {data : Data} (h : Copyable e p data) (hr : Raised e g)
    {P : FileObj → Prop} (hheld : HoldsFile g p P) : CopiedFile g p data :=
  ⟨hr.wf h.wf, h.shows.raised hr (hheld.mono fun _ _ => trivial)⟩

theorem Copyable.copyUpFile {data : Data} (h : Copyable e p data) :
    (CopyUp.copyUpFile p).Ensures e fun r g => ∀ a, r = .ok a → CopiedFile g p data := by
  obtain ⟨d, n, id, rfl, hlower⟩ := h.lowerFile
  refine ((copyUpFile_raised h.wf h.shows.view).and (copyUpFile_holds hlower)).mono ?_
  exact fun r g hg a hr => h.raised hg.1.raised (hg.2 a hr)

theorem Copyable.copyUpMetadataOnly {data : Data} (h : Copyable e p data) :
    (CopyUp.copyUpMetadataOnly p).Ensures e fun r g => ∀ a, r = .ok a → CopiedFile g p data := by
  obtain ⟨d, n, id, rfl, hlower⟩ := h.lowerFile
  refine ((copyUpMetadataOnly_raised h.wf h.shows.view).and (copyUpMetadataOnly_holds hlower)).mono ?_
  exact fun r g hg a hr => h.raised hg.1.raised (hg.2 a hr).2

theorem Copyable.copyUpFileOrShell {data : Data} (h : Copyable e p data)
    (shellOnlyAboveBytes : Option Nat) :
    (CopyUp.copyUpFileOrShell p shellOnlyAboveBytes).Ensures e fun r g =>
      ∀ a, r = .ok a → CopiedFile g p data := by
  obtain ⟨d, n, id, rfl, hlower⟩ := h.lowerFile
  refine ((copyUpFileOrShell_raised h.wf h.shows.view _).and
    (copyUpFileOrShell_holds hlower shellOnlyAboveBytes)).mono ?_
  exact fun r g hg a hr => h.raised hg.1.raised (hg.2 a hr)

/-- Every call that copies the file up leaves its content. -/
theorem Copyable.run [HostCase] {path : CallerPath} {data : Data}
    (h : Copyable e (viewPathOf path).norm data) (call : FileCopyUp) :
    (call.run path).Ensures e fun r g => ∀ a, r = .ok a →
      CopiedFile g (viewPathOf path).norm data := by
  have hlookup : ∀ {f : Engine}, Copyable f (viewPathOf path).norm data → ∃ i a,
      (resolvePath f.config (viewPathOf path).norm {}).1
        = hitAt (viewPathOf path).norm .lower (some i) a ∧ a.directory = false := by
    intro f hf
    obtain ⟨i, id, hbelow⟩ := hf.below
    exact ⟨i, hbelow.lookup⟩
  cases call with
  | copyUpFile => exact h.copyUpFile
  | copyUpMetadataOnly =>
    refine Step.Ensures.bind h.copyUpMetadataOnly ?_ fun _ _ _ _ hr => by cases hr
    exact fun _ f hf _ _ => hf _ rfl
  | copyUpFileOrShell bytes =>
    refine Step.Ensures.bind (h.copyUpFileOrShell bytes) ?_ fun _ _ _ _ hr => by cases hr
    exact fun _ f hf _ _ => hf _ rfl
  | ensureInUpperLayer =>
    refine Step.Ensures.bind (walkCallerPath_looked path .keep e) ?_ fun _ _ hf => by cases hf.1
    rintro view f ⟨hview, hf⟩
    obtain rfl := Except.ok.inj hview
    have hcopy := h.looked hf.toUntouched
    apply Step.Ensures.get
    apply Step.Ensures.ite
    · exact fun _ _ _ => hcopy.toCopiedFile
    intro _
    refine Step.Ensures.bind (lookup_ensures _ f) ?_ fun _ _ hf => by cases hf.1
    rintro resolved f' ⟨hresolved, hf'⟩
    obtain ⟨i, a, hhit, hdir⟩ := hlookup hcopy
    obtain rfl := Except.ok.inj hresolved
    rw [hhit]
    simp only [ResolvedPath.found, ResolvedPath.isDirectory, hitAt, hdir]
    exact (hcopy.looked hf'.toUntouched).copyUpFile
  | setSecurity =>
    refine Step.Ensures.bind (walkCallerPath_looked path .follow e) ?_ fun _ _ hf => by cases hf.1
    rintro view f ⟨hview, hf⟩
    obtain rfl := Except.ok.inj hview
    have hcopy := h.looked hf.toUntouched
    refine Step.Ensures.bind (lookup_ensures _ f) ?_ fun _ _ hf => by cases hf.1
    rintro resolved f' ⟨hresolved, hf'⟩
    obtain ⟨i, a, hhit, hdir⟩ := hlookup hcopy
    obtain rfl := Except.ok.inj hresolved
    rw [hhit]
    simp only [ResolvedPath.found, ResolvedPath.isDirectory, hitAt, hdir]
    refine Step.Ensures.bind ((hcopy.looked hf'.toUntouched).copyUpFileOrShell none) ?_
      fun _ _ _ _ hr => by cases hr
    intro _ k hk
    refine (invalidateWithAncestors_ensures _ k).mono fun r g hg _ _ => ?_
    exact (hk _ rfl).looked hg.2.toUntouched

theorem readResult_whole (data : Data) : readResult data 0 data.length = .ok data := by
  rw [readResult, List.drop_zero, List.take_length]
  cases data with
  | nil => rfl
  | cons b rest => rfl

/-- A shell of a lower reads as the origin's bytes, through an open and after every copy-up
of it, if and only if these bytes are the shell's zeros. -/
theorem lowerShell_reads_iff [HostCase] {path : CallerPath} {i : Nat} {id : FileId} {origin : Origin}
    (he : e.Wf) (hshell : LowerShell e (viewPathOf path).norm i id origin) :
    (ReadsAs e path (fileAt e.files origin.file).data ∧
      ∀ (call : FileCopyUp) (g : Engine), call.run path e = (.ok (), g) →
        ReadsAs g path (fileAt e.files origin.file).data) ↔
      ∀ b ∈ (fileAt e.files origin.file).data, b = 0 := by
  have hshows := hshell.showsFile
  constructor
  · rintro ⟨hopened, -⟩
    -- an open that only reads needs no step that can fail
    have hopen := @openPath_reads _ _ _ { readData := true } _ he hshows rfl .keep
    obtain ⟨i', id', hbelow⟩ := hshell.belowFile
    obtain ⟨h, hh⟩ := hopen.1 (by rw [OpensAtOnce, hbelow.free]; rfl)
    have hown := (hopen.2 h hh).read rfl 0 (fileAt e.files origin.file).data.length
    rw [hopened.reads _ .keep h _ 0 _ (Prod.ext hh rfl) rfl, readResult_whole] at hown
    have hlength : (fileAt e.files origin.file).data.length = (fileAt e.files id).data.length := by
      rw [hshell.unfilled, List.length_replicate]
    rw [hlength, readResult_whole, hshell.unfilled] at hown
    intro b hb
    rw [Except.ok.inj hown] at hb
    exact List.eq_of_mem_replicate hb
  · intro hzero
    have hsame : (fileAt e.files id).data = (fileAt e.files origin.file).data := by
      rw [hshell.unfilled]
      exact (List.eq_replicate_iff.mpr ⟨rfl, hzero⟩).symm
    rw [hsame] at hshows
    have hcopy : Copyable e (viewPathOf path).norm (fileAt e.files origin.file).data := by
      obtain ⟨i', id', hbelow⟩ := hshell.belowFile
      rw [hsame] at hbelow
      exact ⟨⟨he, hshows⟩, i', id', hbelow⟩
    refine ⟨hshows.readsAs he, fun call g hrun => ?_⟩
    have hcopied := hcopy.run call
    rw [Step.Ensures, hrun] at hcopied
    exact (hcopied _ rfl).shows.readsAs (hcopied _ rfl).wf

/-- An empty upper over a lower that was an upper before and holds an unfilled shell of the
file `a` of the lower below it. -/
def reusedUpper (data : Data) : Engine where
  upper := some (.node {} [])
  lowers := [some (.node {} [(['a'], .leaf (.file 0))]), some (.node {} [(['a'], .leaf (.file 1))])]
  files := [{ data := List.replicate data.length 0, metacopy := some ⟨1, false⟩ }, { data }]

theorem reusedUpper_wf (data : Data) : (reusedUpper data).Wf where
  upper := namesBelow_node nofun
  lowers := by
    intro o ho
    have hlower : ∀ id, id < 2 →
        NamesBelow (reusedUpper data).files.length (some (.node {} [(['a'], .leaf (.file id))])) := by
      intro id hid
      refine namesBelow_node fun c hc => ?_
      rw [List.mem_singleton.mp hc]
      exact namesBelow_leaf hid
    rcases List.mem_cons.mp ho with rfl | ho
    · exact hlower 0 Nat.zero_lt_two
    · rw [List.mem_singleton.mp ho]
      exact hlower 1 Nat.one_lt_two
  origins := by
    intro f hf origin horigin
    rcases List.mem_cons.mp hf with rfl | hf
    · rw [← Option.some.inj horigin]
      exact Nat.one_lt_two
    · rw [List.mem_singleton.mp hf] at horigin
      cases horigin

open AsciiCase

theorem reusedUpper_shell :
    LowerShell (reusedUpper [7]) (viewPathOf ⟨[['a']]⟩).norm 0 0 ⟨1, false⟩ :=
  ⟨by decide, by decide, rfl, by decide, rfl, rfl⟩

/-- The open reads the shell's zero and not the origin's byte. -/
theorem lowerShell_reads_zeros :
    ¬∀ (e : Engine) (path : CallerPath) (i : Nat) (id : FileId) (origin : Origin), e.Wf →
      LowerShell e (viewPathOf path).norm i id origin →
        ReadsAs e path (fileAt e.files origin.file).data ∧
          ∀ (call : FileCopyUp) (g : Engine), call.run path e = (.ok (), g) →
            ReadsAs g path (fileAt e.files origin.file).data := by
  intro h
  have hreads := (h (reusedUpper [7]) ⟨[['a']]⟩ 0 0 ⟨1, false⟩ (reusedUpper_wf [7])
    reusedUpper_shell).1
  have hopen : Context.openPath ⟨[['a']]⟩ { readData := true } .keep (reusedUpper [7])
      = (.ok 0, (Context.openPath ⟨[['a']]⟩ { readData := true } .keep (reusedUpper [7])).2) := rfl
  have hread := hreads.reads _ _ _ _ 0 1 hopen rfl
  have hzero : (Context.read 0 0 1
      (Context.openPath ⟨[['a']]⟩ { readData := true } .keep (reusedUpper [7])).2).1 = .ok [0] := rfl
  rw [hzero] at hread
  cases hread

theorem lowerShell_reads_iff_reusedUpper :
    LowerShell (reusedUpper [7]) (viewPathOf ⟨[['a']]⟩).norm 0 0 ⟨1, false⟩ ∧
      ((ReadsAs (reusedUpper [7]) ⟨[['a']]⟩ [7] ∧
        ∀ (call : FileCopyUp) (g : Engine), call.run ⟨[['a']]⟩ (reusedUpper [7]) = (.ok (), g) →
          ReadsAs g ⟨[['a']]⟩ [7]) ↔ ∀ b ∈ ([7] : Data), b = 0) :=
  ⟨reusedUpper_shell, lowerShell_reads_iff (reusedUpper_wf [7]) reusedUpper_shell⟩

end LayerMount
