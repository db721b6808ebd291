import LayerMount.CreateView

/-!
# A create, whole

`Create` raises the parent into the upper, puts the entry, marks a directory that a lower has
too, and takes the whiteout of the path away last.  A failure on the way takes the entry away
again, so a create makes a fresh entry or leaves the view and the whiteout as they were
(`create_fresh_or_unchanged`).
-/

namespace LayerMount

open Lib

variable {e f g k : Engine} {d p q : RelPath} {n : Name}

/-! ## The caller's path -/

/-- No component of a path that parses is a `.`. -/
theorem dot_not_mem_viewPath [HostCase] (path : CallerPath)
    (hsafe : parsesAsHostPath (viewPathOf path).norm = true) : ['.'] ∉ (viewPathOf path).norm := by
  intro hdot
  unfold viewPathOf at hdot hsafe
  split at hdot
  · rename_i hparent
    rw [if_pos hparent, parsesAsHostPath, isSafeRelativePath, Bool.and_eq_true,
      List.all_eq_true] at hsafe
    have hmem : ['.', '.'] ∈ path.norm :=
      List.mem_map.mpr ⟨['.', '.'], by simpa using hparent, caseFoldedName_dotDot⟩
    have := hsafe.2 _ hmem
    simp at this
  · obtain ⟨c, hc, hfold⟩ := List.mem_map.mp hdot
    have hne : c ≠ ['.'] := by simpa using (List.mem_filter.mp hc).2
    exact hne (caseFoldedName_eq_dot hfold)

/-! ## The parent -/

/-- `EnsureUpperParent` leaves a parent that the upper holds, and copies one that shows. -/
theorem ensureUpperParent_parent (p : RelPath) (e : Engine) :
    (CopyUp.ensureUpperParent p).Ensures e fun r g => ∀ a, r = .ok a →
      ParentHeld e p ∧ g = e ∨
        p.dropLast ≠ [] ∧ e.upperAt p.dropLast = none ∧ ShowsDirectory e p.dropLast := by
  apply Step.Ensures.ite
  · exact fun hroot _ _ => .inl ⟨.inl (by simpa using hroot), rfl⟩
  · intro hroot
    apply Step.Ensures.get
    cases hu : e.upperAt p.dropLast with
    | some t =>
      have hheld : (e.upperAt p.dropLast).isSome = true := by rw [hu]; rfl
      apply Step.Ensures.ite
      · exact fun _ _ _ => .inl ⟨.inr hheld, rfl⟩
      · exact fun _ _ h => by cases h
    | none =>
      refine Step.Ensures.bind (lookup_ensures p.dropLast e) ?_ fun _ _ hf => by cases hf.1
      intro shown f hf
      obtain ⟨hshown, hf⟩ := hf
      have hshown : shown = (resolvePath f.config p.dropLast {}).1 := by
        rw [hf.config]
        exact Except.ok.inj hshown
      apply Step.Ensures.get
      apply Step.Ensures.ite
      · exact fun _ _ h => by cases h
      · intro hleads
        have hdir := showsDirectory_of_leads hshown (by simpa using hleads)
        rw [ShowsDirectory, hf.toUntouched.viewAt] at hdir
        exact Step.Ensures.mono (P := fun _ _ => True) trivial fun _ _ _ _ _ =>
          .inr ⟨by simpa using hroot, rfl, hdir⟩

/-- Below what shows a directory or a link, the link's targets are those of the view. -/
theorem isInLinkTarget_iff_directories (hd : ShowsDirectory e d) :
    isInLinkTarget e.config d = false ↔
      ∀ c, c <+: d → c ≠ [] → viewAt e c = some .directory := by
  refine ⟨?_, isInLinkTarget_of_directories⟩
  intro hlink c hc hne
  have hshows : ShowsDirectory e c := by
    by_cases hcd : c = d
    · rw [hcd]
      exact hd
    · refine showsDirectory_above hne hc hcd ?_
      rcases hd with hd | hd
      · rw [hd]
        rfl
      · rw [hd]
        rfl
  rcases hshows with hdir | hshown
  · exact hdir
  · rw [isInLinkTarget_of_link hne hc hshown] at hlink
    cases hlink

/-- Whether a directory is in a link's target is in the view. -/
theorem isInLinkTarget_congr (hd : d = [] ∨ ShowsDirectory e d)
    (hview : ∀ c, c <+: d → viewAt g c = viewAt e c) :
    isInLinkTarget g.config d = isInLinkTarget e.config d := by
  rcases hd with rfl | hd
  · rw [isInLinkTarget_root, isInLinkTarget_root]
  · have hg : ShowsDirectory g d := by
      rw [ShowsDirectory, hview d (List.prefix_refl d)]
      exact hd
    rw [Bool.eq_iff_iff, ← not_iff_not, Bool.not_eq_true, Bool.not_eq_true,
      isInLinkTarget_iff_directories hd, isInLinkTarget_iff_directories hg]
    refine forall₂_congr fun c hc => ?_
    rw [hview c hc]

/-- A lookup accepts the same names in a directory that was raised. -/
theorem Raised.isResolvablePath_snoc (h : Raised e f) (hd : ShowsDirectory e d) (hne : d ≠ [])
    (hres : isResolvablePath e.config (d ++ [n]) = true) :
    isResolvablePath f.config (d ++ [n]) = true := by
  have hdf : ShowsDirectory f d := h.showsDirectory hd
  have hparent : isResolvablePath f.config d = true := by
    apply isResolvablePath_of_viewAt hne
    rcases hdf with hdf | hdf
    · rw [hdf]
      rfl
    · rw [hdf]
      rfl
  have hlink : isInLinkTarget f.config d = isInLinkTarget e.config d := by
    rw [Bool.eq_iff_iff, ← not_iff_not, Bool.not_eq_true, Bool.not_eq_true,
      isInLinkTarget_iff_directories hd, isInLinkTarget_iff_directories hdf]
    simp only [h.view]
  rw [isResolvablePath_eq e (by simp), passes_snoc, Bool.and_eq_true, Bool.and_eq_true,
    nameShown, Bool.and_eq_true, Bool.or_eq_true] at hres
  rw [isResolvablePath_eq f hne, Bool.and_eq_true] at hparent
  rw [isResolvablePath_eq f (by simp), passes_snoc, nameShown, hparent.2, isRootSidecarPath_snoc hne,
    hparent.1, hres.2.2.1, Bool.true_and, Bool.true_and, Bool.true_and, Bool.or_eq_true]
  refine hres.2.2.2.imp id fun hany => ?_
  rw [isInLinkTarget_eq, isInLinkTarget_eq] at hlink
  exact hlink.trans hany

/-- What the steps before the new entry have prepared. -/
theorem parent_raised (hres : isResolvablePath e.config (d ++ [n]) = true)
    (hview : viewAt e (d ++ [n]) = none) (hf : Climbs e f d)
    (hparent : ParentHeld e (d ++ [n]) ∧ f = e ∨
      d ≠ [] ∧ e.upperAt d = none ∧ ShowsDirectory e d) :
    isResolvablePath f.config (d ++ [n]) = true ∧
      resolveLowerPath f.config (d ++ [n]) = resolveLowerPath e.config (d ++ [n]) := by
  rcases hparent with ⟨-, rfl⟩ | ⟨hne, hfree, hdir⟩
  · exact ⟨hres, rfl⟩
  · have hres' := hf.raised.isResolvablePath_snoc hdir hne hres
    -- the upper has no whiteout in a directory that it does not hold
    have hwhite : hasUpperWhiteout e (d ++ [n]) = false := by
      rw [hasUpperWhiteout_eq, Engine.upperAt, placeAt_append, ← Engine.upperAt, hfree,
        placeAt_none, Option.isSome_none, Bool.and_false]
    refine ⟨hres', ?_⟩
    rw [resolveLowerPath_of_unshown hres hview hwhite, resolveLowerPath_of_unshown hres' ?_ ?_]
    · rw [hf.raised.view, hview]
    · rw [hf.hasUpperWhiteout, hwhite]

/-! ## The steps after the new entry -/

theorem openHandle_layers (h : Nat) (e : Engine) :
    (Context.openHandle h).Ensures e fun _ g => SameLayers e g := by
  have hclosed : SameLayers e (Context.closeHandle h e).2 := ⟨fun _ => rfl, rfl, rfl⟩
  apply Step.Ensures.modify_bind
  refine Step.Ensures.bind (P := fun _ g => SameLayers e g) ?_ ?_ fun _ _ hf => hf
  · apply Step.Ensures.get
    split
    · exact hclosed
    · exact hclosed
  · intro ctx f hf
    apply Step.Ensures.get
    split
    · exact hf
    · exact ⟨hf.entries, hf.lowers, hf.files⟩

theorem diskStep_layers (s : DiskStep) (e : Engine) :
    (diskStep s).Ensures e fun _ g => SameLayers e g :=
  (diskStep_ensures s e).mono fun _ _ h => h.sameLayers

theorem applyNewHostFileSettings_layers (size : Nat) (e : Engine) :
    (Context.applyNewHostFileSettings size).Ensures e fun _ g => SameLayers e g := by
  refine Step.Ensures.bind (diskStep_layers .writeSecurity e) ?_ fun _ _ h => h
  intro _ f hf
  apply Step.Ensures.ite
  · exact fun _ => (diskStep_layers .setAllocation f).mono fun _ _ h => hf.trans h
  · exact fun _ => hf

/-- `RemoveWhiteout` takes the marker away, or there is none. -/
theorem removeWhiteout_ensures (d : RelPath) (n : Name) (e : Engine) :
    (WhiteoutManager.removeWhiteout (d ++ [n])).Ensures e fun r g =>
      match r with
      | .ok _ => Untouched e g ∧ hasUpperWhiteout e (d ++ [n]) = false ∨
          (slotOf e.upper none d).stop ≠ .link ∧ PutsAt e g (d ++ [whiteoutName n]) none
      | .error _ => Untouched e g := by
  have hstop := findLinkOnPath_eq_none_iff (d := d) (@readable_ofTree e.files e.upper)
  rw [← @slotOf_stop e.upper none e.files] at hstop
  apply Step.Ensures.get
  rw [List.dropLast_concat]
  have hlinked : findLinkOnPath e.upperLayer d ≠ .none →
      hasUpperWhiteout e (d ++ [n]) = false := by
    intro hlink
    have hlink : (slotOf e.upper none d).stop = .link := by
      by_contra hne
      exact hlink (hstop.mpr hne)
    rw [hasUpperWhiteout_eq, hlink]
    rfl
  cases hlink : findLinkOnPath e.upperLayer d with
  | self => exact .inl ⟨Untouched.refl e, hlinked (by rw [hlink]; decide)⟩
  | ancestor => exact .inl ⟨Untouched.refl e, hlinked (by rw [hlink]; decide)⟩
  | unreadable => exact Untouched.refl e
  | none =>
    have hdelete : (WhiteoutManager.deleteWhiteoutFile (d ++ [n])).Ensures e fun r g =>
        match r with
        | .ok _ => Untouched e g ∧ hasUpperWhiteout e (d ++ [n]) = false ∨
            PutsAt e g (d ++ [whiteoutName n]) none
        | .error _ => Untouched e g := by
      refine Step.Ensures.bind (diskStep_ensures .removeWhiteout e) ?_ fun _ _ hf => hf
      intro _ f hf
      apply Step.Ensures.get
      apply Step.Ensures.ite
      · exact fun _ => hf
      · intro _
        rw [getWhiteoutFileName_append, hf.upperAt]
        have hputs : PutsAt e (f.putUpper (d ++ [whiteoutName n]) none) (d ++ [whiteoutName n])
            none := hf.puts (putUpper_puts f _ none)
        cases hmarker : e.upperAt (d ++ [whiteoutName n]) with
        | none =>
          refine .inl ⟨hf, ?_⟩
          rw [hasUpperWhiteout_eq, hmarker, Option.isSome_none, Bool.and_false]
        | some t =>
          cases t with
          | node v children => exact hf
          | leaf w =>
            cases w with
            | deadLink => exact hf
            | file id => exact .inr hputs
            | marker => exact .inr hputs
    refine Step.Ensures.bind hdelete ?_ fun _ _ hf => hf
    intro _ f hf
    refine (invalidateWithAncestors_ensures _ f).mono fun r g hg => ?_
    rw [hg.1]
    rcases hf with ⟨hf, hnone⟩ | hf
    · exact .inl ⟨hf.trans hg.2.toUntouched, hnone⟩
    · exact .inr ⟨hstop.mp hlink, hf.untouched hg.2.toUntouched⟩

/-- The end of a create: the whiteout of the name goes, and the entry is the new one. -/
theorem finishCreatedEntry_ensures {t : Tree} {resolution : Context.CreateResolution}
    (hname : NewName e d n) (hk : SameLayers (e.putUpper (d ++ [n]) (some t)) k)
    (hwhite : resolution.whiteoutAtPath = hasUpperWhiteout e (d ++ [n])) :
    (Context.finishCreatedEntry (d ++ [n]) resolution).Ensures k fun r g =>
      match r with
      | .ok _ => NewEntry e g d n t ∧ hasUpperWhiteout g (d ++ [n]) = false
      | .error _ => SameLayers (e.putUpper (d ++ [n]) (some t)) g := by
  have hputs := putUpper_puts e (d ++ [n]) (some t)
  refine Step.Ensures.bind (diskStep_layers .queryInfo k) ?_ fun _ _ hf => hk.trans hf
  intro _ f hf
  have hf := hk.trans hf
  have hnew := (hname.put t).sameLayers hf
  apply Step.Ensures.ite
  · intro _
    refine (removeWhiteout_ensures d n f).mono fun r g hg => ?_
    cases r with
    | error _ => exact hf.trans hg.sameLayers
    | ok _ =>
      rcases hg with ⟨hg, hnone⟩ | ⟨hstop, hg⟩
      · exact ⟨hnew.sameLayers hg.sameLayers, by rw [hg.sameLayers.hasUpperWhiteout, hnone]⟩
      · have hstop' : (slotOf e.upper none d).stop ≠ .link := by rwa [← hnew.stop]
        have hparent : (f.upperAt d).isSome = true := by
          apply isSome_of_leads
          rw [hf.leadsToDirectory, leadsToDirectory_putUpper, hname.parent]
        have hunlinked : isInLinkTarget f.config d = false := by
          rw [isInLinkTarget_eq, List.any_eq_false, slotsAt_cons]
          intro s hs
          rcases List.mem_cons.mp hs with rfl | hs
          · simpa using hstop
          · simpa using stop_of_mem_lowersAt hs hparent
        have hmarker : MarkerPut f g d n none :=
          ⟨hg, hname.plain.2.resolve_right hstop', hunlinked⟩
        refine ⟨hnew.markerPut hmarker, ?_⟩
        have hgone := placeAt_put_none f.upper (d ++ [whiteoutName n]) []
        rw [List.append_nil, ← hg.upper] at hgone
        rw [hasUpperWhiteout_eq, Engine.upperAt, hgone, Option.isSome_none, Bool.and_false]
  · intro hnone
    apply Step.Ensures.pure
    refine ⟨hnew, ?_⟩
    rw [hf.hasUpperWhiteout, hputs.hasUpperWhiteout hname.plain, ← hwhite]
    simpa using hnone

/-! ## The undo -/

theorem withRollback_ensures {undo rest : Op Unit} {P Q : Except NtStatus Unit → Engine → Prop}
    (h : rest.Ensures k P) (hok : ∀ g, P (.ok ()) g → Q (.ok ()) g)
    (herror : ∀ status g, P (.error status) g →
      undo.Ensures g fun _ g' => ∀ status, Q (.error status) g') :
    (Context.withRollback undo rest).Ensures k Q := by
  refine Step.Ensures.attempt_bind h ?_
  intro r f hf
  cases r with
  | ok _ => exact hok f hf
  | error status =>
    refine Step.Ensures.bind (herror status f hf) ?_ fun status' _ hg => hg status'
    exact fun _ g hg => hg status

/-- `SetOpaque` of an entry that is there writes the markers, or nothing. -/
theorem setOpaque_held {t : Tree} (ht : e.upperAt p = some t) :
    (WhiteoutManager.setOpaque p).Ensures e fun r g =>
      match r with
      | .ok _ => PutsAt e g p (some (WhiteoutManager.markOpaqueNode t))
      | .error _ => Untouched e g := by
  have hensure : (ensureDirectoryExists p).Ensures e fun r g => r = .ok () ∧ Untouched e g := by
    have hheld : ParentHeld e (p ++ [[]]) := by
      right
      rw [List.dropLast_concat, ht]
      rfl
    have hdirectory := ensureDirectoryExists_held hheld
    rwa [List.dropLast_concat] at hdirectory
  apply Step.Ensures.get
  refine Step.Ensures.bind (P := fun _ g => g = e) rfl ?_ ?_
  · rintro _ _ rfl
    refine Step.Ensures.bind hensure ?_ fun _ _ hf => by cases hf.1
    rintro _ f ⟨-, hf⟩
    have hwrite : (WhiteoutManager.writeOpaqueMarkers p).Ensures f fun r g =>
        match r with
        | .ok _ => PutsAt f g p (some (WhiteoutManager.markOpaqueNode t))
        | .error _ => Untouched f g := by
      refine Step.Ensures.bind (diskStep_ensures .writeOpaqueMarkers f) ?_ fun _ _ h => h
      intro _ f' hf'
      apply Step.Ensures.get
      rw [hf'.upperAt, hf.upperAt, ht]
      exact hf'.puts (putUpper_puts f' p _)
    refine Step.Ensures.attempt_bind hwrite ?_
    intro r f' hf'
    refine Step.Ensures.bind (invalidate_ensures p f') ?_ fun _ _ hg => by cases hg.1
    rintro _ g ⟨-, hg⟩
    apply Step.Ensures.ofExcept
    cases r with
    | ok _ => exact (hf.puts hf').untouched hg.toUntouched
    | error _ => exact (hf.trans hf').trans hg.toUntouched
  · rintro _ _ rfl
    exact Untouched.refl _

/-- `RemoveOpaque` changes the directory itself at most. -/
theorem removeOpaque_puts (p : RelPath) (e : Engine) :
    (WhiteoutManager.removeOpaque p).Ensures e fun r g =>
      (∃ b, r = .ok b) ∧ (Untouched e g ∨ ∃ t, PutsAt e g p t) := by
  apply Step.Ensures.get
  split
  · exact ⟨⟨_, rfl⟩, .inl (Untouched.refl e)⟩
  · exact ⟨⟨_, rfl⟩, .inl (Untouched.refl e)⟩
  · refine Step.Ensures.attempt_bind (diskStep_ensures .removeOpaqueMarkers e) ?_
    intro r f hf
    have hdropped : Untouched f (invalidate p f).2 := (invalidate_ensures p f).2.toUntouched
    cases r with
    | error _ => exact ⟨⟨_, rfl⟩, .inl (hf.trans hdropped)⟩
    | ok _ =>
      cases e.upperAt p with
      | none => exact ⟨⟨_, rfl⟩, .inl (hf.trans hdropped)⟩
      | some t =>
        have hputs := hf.puts (putUpper_puts f p (some (WhiteoutManager.unmarkOpaqueNode t)))
        exact ⟨⟨_, rfl⟩, .inr ⟨_, hputs.untouched (invalidate_ensures p _).2.toUntouched⟩⟩

/-- The undo of a new directory takes it away, or says that it could not. -/
theorem undoCreatedDirectory_ensures {t : Place} (resolution : Context.CreateResolution)
    (hparent : leadsToDirectory (e.upperAt d) = true) (hdot : n ≠ ['.'])
    (hfree : e.upperAt (d ++ [n]) = none) (hk : SameLayers (e.putUpper (d ++ [n]) t) k) :
    (Context.undoCreatedDirectory (d ++ [n]) resolution).Ensures k fun _ g =>
      g.undoFailed = false → SameLayers e g := by
  have hremove : ∀ {k : Engine} {t : Place}, SameLayers (e.putUpper (d ++ [n]) t) k →
      (Context.removeNewDirectory (d ++ [n])).Ensures k fun _ g =>
        g.undoFailed = false → SameLayers e g := by
    intro k t hk
    apply Step.Ensures.get
    split
    · exact fun _ => hk.of_undo hfree (putUpper_puts k (d ++ [n]) none)
    · exact fun h => by cases h
  apply Step.Ensures.ite
  · intro _
    refine Step.Ensures.bind (removeOpaque_puts (d ++ [n]) k) ?_ ?_
    · rintro _ f ⟨-, hf | ⟨t', hf⟩⟩
      · exact hremove (hk.trans hf.sameLayers)
      · exact hremove (hk.replaces hparent hdot hf)
    · rintro _ _ ⟨⟨_, h⟩, -⟩
      cases h
  · exact fun _ => hremove hk

/-! ## The new entry -/

/-- What a create may leave: the view and the whiteout of the name as they were. -/
structure Unchanged (e g : Engine) (d : RelPath) (n : Name) : Prop where
  view : ∀ r, viewAt g r = viewAt e r
  whiteout : hasUpperWhiteout g (d ++ [n]) = hasUpperWhiteout e (d ++ [n])

theorem SameLayers.unchanged (h : SameLayers e g) : Unchanged e g d n :=
  ⟨h.viewAt, h.hasUpperWhiteout⟩

/-- An entry that a create made. -/
structure Created (e g : Engine) (d : RelPath) (n : Name) (directory : Bool) : Prop where
  shown : viewAt g (d ++ [n]) = some (if directory then .directory else .file [])
  empty : directory = true → mergeDirectoryAcrossLayers g.config (d ++ [n]) = .ok []
  whiteout : hasUpperWhiteout g (d ++ [n]) = false
  kept : ∀ r, ¬d ++ [n] <+: r → viewAt g r = viewAt e r
  lowers : g.lowers = e.lowers

/-- What a create ends in: a new entry, or, when its undo did not fail, nothing new. -/
def CreateOutcome {α : Type} (e : Engine) (d : RelPath) (n : Name) (directory : Bool)
    (r : Except NtStatus α) (g : Engine) : Prop :=
  match r with
  | .ok _ => Created e g d n directory
  | .error _ => g.undoFailed = false → Unchanged e g d n

/-- What the checks of a create hand to its steps. -/
structure Checked (e : Engine) (d : RelPath) (n : Name)
    (resolution : Context.CreateResolution) : Prop where
  resolvable : isResolvablePath e.config (d ++ [n]) = true
  ne_dot : n ≠ ['.']
  lower : resolution.lower = resolveLowerPath e.config (d ++ [n])
  whiteout : resolution.whiteoutAtPath = hasUpperWhiteout e (d ++ [n])

theorem Checked.newName {resolution : Context.CreateResolution} (h : Checked e d n resolution)
    (hparent : leadsToDirectory (e.upperAt d) = true) (hfree : e.upperAt (d ++ [n]) = none) :
    NewName e d n :=
  ⟨hparent, hfree, plainAt_of_parent h.resolvable (isSome_of_leads hparent) h.ne_dot, h.resolvable⟩

theorem Checked.looked {resolution : Context.CreateResolution} (h : Checked e d n resolution)
    (hf : Looked e f) : Checked f d n resolution := by
  refine ⟨?_, h.ne_dot, ?_, ?_⟩
  · rw [hf.config]
    exact h.resolvable
  · rw [hf.config]
    exact h.lower
  · rw [hf.toUntouched.sameLayers.hasUpperWhiteout]
    exact h.whiteout

theorem finishCreatedDirectory_ensures {resolution : Context.CreateResolution} (h : Nat)
    (hname : NewName e d n) (hk : SameLayers (e.putUpper (d ++ [n]) (some (newDirectory false))) k)
    (hat : k.upperAt (d ++ [n]) = some (newDirectory false))
    (hwhite : resolution.whiteoutAtPath = hasUpperWhiteout e (d ++ [n])) :
    (Context.finishCreatedDirectory (d ++ [n]) resolution h).Ensures k fun r g =>
      match r with
      | .ok _ => NewEntry e g d n (newDirectory resolution.overDirectory) ∧
          hasUpperWhiteout g (d ++ [n]) = false
      | .error _ => ∃ t, SameLayers (e.putUpper (d ++ [n]) t) g := by
  have hmark : (Context.markCreatedDirectory (d ++ [n]) resolution).Ensures k fun r g =>
      match r with
      | .ok _ =>
        SameLayers (e.putUpper (d ++ [n]) (some (newDirectory resolution.overDirectory))) g
      | .error _ => ∃ t, SameLayers (e.putUpper (d ++ [n]) t) g := by
    unfold Context.markCreatedDirectory
    cases resolution.overDirectory with
    | false => exact hk
    | true =>
      refine (setOpaque_held hat).mono fun r g hg => ?_
      cases r with
      | ok _ => exact hk.replaces hname.parent hname.plain.1 hg
      | error _ => exact ⟨_, hk.trans hg.sameLayers⟩
  refine Step.Ensures.bind hmark ?_ fun _ _ hf => hf
  intro _ f₁ hf₁
  refine Step.Ensures.bind (diskStep_layers .writeSecurity f₁) ?_ fun _ _ hg => ⟨_, hf₁.trans hg⟩
  intro _ f₂ hf₂
  have hf₂ := hf₁.trans hf₂
  refine Step.Ensures.bind (diskStep_layers .openEntry f₂) ?_ fun _ _ hg => ⟨_, hf₂.trans hg⟩
  intro _ f₃ hf₃
  have hf₃ := hf₂.trans hf₃
  refine Step.Ensures.bind (openHandle_layers h f₃) ?_ fun _ _ hg => ⟨_, hf₃.trans hg⟩
  intro _ f₄ hf₄
  have hf₄ := hf₃.trans hf₄
  refine Step.Ensures.bind (diskStep_layers .queryAccess f₄) ?_ fun _ _ hg => ⟨_, hf₄.trans hg⟩
  intro _ f₅ hf₅
  refine (finishCreatedEntry_ensures hname (hf₄.trans hf₅) hwhite).mono fun r g hg => ?_
  cases r with
  | ok _ => exact hg
  | error _ => exact ⟨_, hg⟩

/-- The view after a new directory. -/
theorem NewEntry.created_directory {resolution : Context.CreateResolution}
    (h : NewEntry e g d n (newDirectory resolution.overDirectory))
    (hcheck : Checked e d n resolution) (hwhite : hasUpperWhiteout g (d ++ [n]) = false) :
    Created e g d n true where
  shown := by
    rw [h.shown]
    cases resolution.overDirectory <;> rfl
  empty _ := by
    apply merge_empty_of_new h
    · intro hmarked
      rw [Context.CreateResolution.overDirectory, hcheck.lower, Bool.and_eq_true] at hmarked
      exact stop_of_found hmarked.1
    · intro hplain
      rw [Context.CreateResolution.overDirectory, hcheck.lower] at hplain
      exact noLowerDirectory_of_resolve hcheck.resolvable hplain
  whiteout := hwhite
  kept := h.kept
  lowers := h.lowers

theorem createDirectoryInUpper_ensures {resolution : Context.CreateResolution} (h : Nat)
    (hcheck : Checked e d n resolution) (hk : SameLayers e k) :
    (Context.createDirectoryInUpper (d ++ [n]) resolution h).Ensures k
      (CreateOutcome e d n true) := by
  refine Step.Ensures.bind (diskStep_layers .createEntry k) ?_ fun _ _ hg _ =>
    (hk.trans hg).unchanged
  intro _ f hf
  have hf := hk.trans hf
  refine Step.Ensures.bind (placeEntry_ensures (d ++ [n]) (newDirectory false) f) ?_
    fun _ _ hg _ => (hf.trans hg.sameLayers).unchanged
  rintro _ f' ⟨hparent, hfree, hputs⟩
  rw [List.dropLast_concat] at hparent
  have hat := hputs.upperAt hparent hcheck.ne_dot
  rw [hf.leadsToDirectory] at hparent
  have hfree : e.upperAt (d ++ [n]) = none := by
    have hsome := hf.isSome_upperAt (d ++ [n])
    rw [hfree] at hsome
    simpa using hsome.symm
  have hname := hcheck.newName hparent hfree
  have hf' := hf.puts hparent hcheck.ne_dot hputs
  refine withRollback_ensures
    (finishCreatedDirectory_ensures h hname hf' hat hcheck.whiteout) ?_ ?_
  · rintro g ⟨hnew, hwhite⟩
    exact hnew.created_directory hcheck hwhite
  · rintro _ g ⟨t, hg⟩
    exact (undoCreatedDirectory_ensures resolution hparent hcheck.ne_dot hfree hg).mono
      fun _ _ hg' _ hundo => (hg' hundo).unchanged

/-- The state with one more file. -/
def Engine.withFile (e : Engine) (x : FileObj) : Engine := { e with files := e.files ++ [x] }

theorem NewName.withFile (h : NewName e d n) (x : FileObj) : NewName (e.withFile x) d n := by
  refine ⟨h.parent, h.free, h.plain, ?_⟩
  rw [← h.resolvable, isResolvablePath_eq _ (by simp), isResolvablePath_eq _ (by simp),
    passes_files (e.withFile x).files e.files, cut_files (e.withFile x).files e.files]
  rfl

theorem hasUpperWhiteout_withFile (e : Engine) (x : FileObj) :
    hasUpperWhiteout (e.withFile x) (d ++ [n]) = hasUpperWhiteout e (d ++ [n]) := by
  rw [hasUpperWhiteout_eq, hasUpperWhiteout_eq]
  rfl

theorem finishCreatedFile_ensures {t : Tree} {request : Context.CreateRequest}
    {resolution : Context.CreateResolution} (h : Nat) (hname : NewName e d n)
    (hk : SameLayers (e.putUpper (d ++ [n]) (some t)) k)
    (hwhite : resolution.whiteoutAtPath = hasUpperWhiteout e (d ++ [n])) :
    (Context.finishCreatedFile (d ++ [n]) request resolution h).Ensures k fun r g =>
      match r with
      | .ok _ => NewEntry e g d n t ∧ hasUpperWhiteout g (d ++ [n]) = false
      | .error _ => SameLayers (e.putUpper (d ++ [n]) (some t)) g := by
  refine Step.Ensures.bind (openHandle_layers h k) ?_ fun _ _ hg => hk.trans hg
  intro _ f₁ hf₁
  have hf₁ := hk.trans hf₁
  refine Step.Ensures.bind (diskStep_layers .queryAccess f₁) ?_ fun _ _ hg => hf₁.trans hg
  intro _ f₂ hf₂
  have hf₂ := hf₁.trans hf₂
  refine Step.Ensures.bind (applyNewHostFileSettings_layers request.allocationSize f₂) ?_
    fun _ _ hg => hf₂.trans hg
  exact fun _ f₃ hf₃ => finishCreatedEntry_ensures hname (hf₂.trans hf₃) hwhite

/-- The view after a new file `x`. -/
theorem NewEntry.created_file {x : FileObj} (he : e.Wf) (hx : x.metacopy = none ∧ x.data = [])
    (h : NewEntry (e.withFile x) g d n (.leaf (.file e.files.length)))
    (hwhite : hasUpperWhiteout g (d ++ [n]) = false) : Created e g d n false where
  shown := by
    have hfile : fileAt (e.withFile x).files e.files.length = x := fileAt_last e.files x
    rw [h.shown, shownOf, logicalData, hfile, hx.1, hx.2, ite_self]
    rfl
  empty h := by cases h
  whiteout := hwhite
  kept r hr := by
    rw [h.kept r hr]
    exact (raised_newFile he x fun origin ho => by rw [hx.1] at ho; cases ho).view r
  lowers := h.lowers

theorem createFileInUpper_ensures {request : Context.CreateRequest}
    {resolution : Context.CreateResolution} (h : Nat) (he : e.Wf)
    (hcheck : Checked e d n resolution) (hk : SameLayers e k) :
    (Context.createFileInUpper (d ++ [n]) request resolution h).Ensures k fun r g =>
      match r with
      | .ok _ => Created e g d n false
      | .error _ => Unchanged e g d n := by
  refine Step.Ensures.bind (diskStep_layers .createEntry k) ?_ fun _ _ hg =>
    (hk.trans hg).unchanged
  intro _ f hf
  have hf := hk.trans hf
  apply newFile_bind_ensures
  have hx : ({ attributes := { readOnly := request.readOnly, archive := true } } : FileObj).metacopy
      = none ∧ ({ attributes := { readOnly := request.readOnly, archive := true } } : FileObj).data
      = [] := ⟨rfl, rfl⟩
  generalize ({ attributes := { readOnly := request.readOnly, archive := true } } : FileObj) = x
    at hx ⊢
  -- the table has one more file, which nothing names yet
  have hbase : SameLayers (e.withFile x) { f with files := f.files ++ [x] } :=
    ⟨hf.entries, hf.lowers, by rw [hf.files]; rfl⟩
  have hunchanged : ∀ {g}, SameLayers (e.withFile x) g → Unchanged e g d n := by
    intro g hg
    have hraised := raised_newFile he x fun origin ho => by rw [hx.1] at ho; cases ho
    refine ⟨fun r => (hg.viewAt r).trans (hraised.view r), ?_⟩
    rw [hg.hasUpperWhiteout, hasUpperWhiteout_withFile]
  refine Step.Ensures.bind (placeEntry_ensures (d ++ [n]) (.leaf (.file f.files.length)) _) ?_
    fun _ _ hg => hunchanged (hbase.trans hg.sameLayers)
  rintro _ f' ⟨hparent, hfree, hputs⟩
  rw [List.dropLast_concat, hbase.leadsToDirectory] at hparent
  have hfree : e.upperAt (d ++ [n]) = none := by
    have hsome := hf.isSome_upperAt (d ++ [n])
    have hfree : f.upperAt (d ++ [n]) = none := hfree
    rw [hfree] at hsome
    simpa using hsome.symm
  have hname := (hcheck.newName hparent hfree).withFile x
  have hf' := hbase.puts hparent hcheck.ne_dot hputs
  rw [hf.files] at hf'
  have hwhite : resolution.whiteoutAtPath = hasUpperWhiteout (e.withFile x) (d ++ [n]) := by
    rw [hasUpperWhiteout_withFile]
    exact hcheck.whiteout
  refine withRollback_ensures (finishCreatedFile_ensures h hname hf' hwhite) ?_ ?_
  · intro g hg
    exact hg.1.created_file he hx hg.2
  · intro _ g hg
    exact fun _ => hunchanged (hg.of_undo hfree (putUpper_puts g (d ++ [n]) none))

/-! ## The whole create -/

/-- A context that comes with an open, and goes when the open fails, is in no layer. -/
theorem withNew_ensures {ctx : FileContext} {rest : Nat → Op Unit}
    {P : Except NtStatus Unit → Engine → Prop} {Q : Except NtStatus Nat → Engine → Prop}
    (h : ∀ x k, SameLayers e k → (rest x).Ensures k P) (hok : ∀ x g, P (.ok ()) g → Q (.ok x) g)
    (herror : ∀ status g, P (.error status) g →
      ∀ contexts, Q (.error status) { g with contexts }) :
    (Context.withNew ctx rest).Ensures e Q := by
  apply Step.Ensures.get
  apply Step.Ensures.modify_bind
  refine Step.Ensures.attempt_bind (h _ _ ⟨fun _ => rfl, rfl, rfl⟩) ?_
  intro r f hf
  cases r with
  | ok _ => exact hok _ f hf
  | error status => exact herror status f hf _

/-- The walk that a lookup hands over is what a lookup of the lowers alone finds, whatever
the cache holds. -/
theorem lowerWalk_eq {c : LayerConfig} {redirects : Nat} {cache : Cache} {r : ResolvedPath}
    (h : (resolvePathInternal c redirects p cache).2.1 = some r) : r = resolveLowerPath c p := by
  cases redirects with
  | zero => cases h
  | succ redirects =>
    rw [resolvePathInternal] at h
    split at h
    · cases h
    rename_i hne
    split at h
    · cases h
    rename_i hres
    have hwalk : (p.isEmpty || !isResolvablePath c p) = false := by
      rw [Bool.or_eq_false_iff]
      exact ⟨by simpa using hne, by simpa using hres⟩
    rw [resolveLowerPath, hwalk]
    have hhiding : hidingInUpper c p ≠ .whiteout → upperAncestorHiding c p = hidingInUpper c p := by
      intro hnot
      rw [hidingInUpper] at hnot ⊢
      split at hnot
      · exact absurd rfl hnot
      · rename_i hwhite
        rw [if_neg hwhite]
    split at h
    · cases h
    · split at h
      · split at h
        · cases h
        · cases h
      · cases hhide : hidingInUpper c p with
        | whiteout => rw [hhide] at h; cases h
        | opaqueMarker =>
          rw [hhide] at h
          rw [hhiding (by rw [hhide]; decide), hhide]
          exact (Option.some.inj h).symm
        | nonDirectoryOrLink =>
          rw [hhide] at h
          rw [hhiding (by rw [hhide]; decide), hhide]
          exact (Option.some.inj h).symm
        | none =>
          rw [hhide] at h
          rw [hhiding (by rw [hhide]; decide), hhide]
          have hlower : some (findInLowers c p 0) = some r := by
            dsimp only at h
            split at h
            · exact h
            · exact h
          exact (Option.some.inj hlower).symm

theorem checkCreatePreconditions_ensures (hsafe : isSafeRelativePath (d ++ [n]) = true)
    (hdot : n ≠ ['.']) (e : Engine) :
    (Context.checkCreatePreconditions (d ++ [n])).Ensures e fun r g => Looked e g ∧
      ∀ resolution, r = .ok resolution →
        Checked e d n resolution ∧ viewAt e (d ++ [n]) = none := by
  apply Step.Ensures.get
  apply Step.Ensures.ite
  · exact fun _ => ⟨Looked.refl e, fun _ h => by cases h⟩
  · intro hreserved
    have hres : isResolvablePath e.config (d ++ [n]) = true := by
      rw [isResolvablePath, hsafe]
      simpa using hreserved
    have hresolve : (Context.resolveForCreate (d ++ [n])).Ensures e fun r g => Looked e g ∧
        ∃ resolution, r = .ok resolution ∧ Checked e d n resolution ∧
          resolution.overlayHit = (resolvePath e.config (d ++ [n]) {}).1 := by
      apply Step.Ensures.get
      refine Step.Ensures.bind (lookup_ensures (d ++ [n]) e) ?_ fun _ _ hf => by cases hf.1
      rintro hit f ⟨hhit, hf⟩
      refine ⟨hf, _, rfl, ⟨hres, hdot, ?_, rfl⟩, Except.ok.inj hhit⟩
      cases hwalk : (resolvePathInternal e.config (kMaxRedirectDepth + 1) (d ++ [n]) e.cache).2.1 with
      | none => rfl
      | some walk => exact lowerWalk_eq hwalk
    refine Step.Ensures.bind hresolve ?_ ?_
    · rintro resolution f ⟨hf, resolution', hr, hcheck, hhit⟩
      obtain rfl : resolution = resolution' := Except.ok.inj hr
      apply Step.Ensures.ite
      · exact fun _ => ⟨hf, fun _ h => by cases h⟩
      · intro hfound
        refine ⟨hf, fun _ h => ?_⟩
        cases h
        refine ⟨hcheck, ?_⟩
        rw [hhit, Bool.not_eq_true] at hfound
        cases hview : viewAt e (d ++ [n]) with
        | none => rfl
        | some v =>
          have := (found_iff_viewAt (e := e) (p := d ++ [n]) (by simp)).mpr (by rw [hview]; rfl)
          rw [this] at hfound
          cases hfound
    · rintro _ f ⟨-, _, hr, -⟩
      cases hr

/-- The outcome as seen from an earlier state with the same view. -/
theorem CreateOutcome.of_view {α : Type} {directory : Bool} {r : Except NtStatus α}
    (hview : ∀ r, viewAt f r = viewAt e r)
    (hwhite : hasUpperWhiteout f (d ++ [n]) = hasUpperWhiteout e (d ++ [n]))
    (hlowers : f.lowers = e.lowers) (h : CreateOutcome f d n directory r g) :
    CreateOutcome e d n directory r g := by
  cases r with
  | ok _ =>
    have h : Created f g d n directory := h
    exact ⟨h.shown, h.empty, h.whiteout, fun r hr => (h.kept r hr).trans (hview r),
      h.lowers.trans hlowers⟩
  | error _ =>
    intro hundo
    have h : Unchanged f g d n := h hundo
    exact ⟨fun r => (h.view r).trans (hview r), h.whiteout.trans hwhite⟩

/-- A create that got past its checks. -/
theorem createChecked_ensures {request : Context.CreateRequest}
    {resolution : Context.CreateResolution} (he : e.Wf) (hcheck : Checked e d n resolution)
    (hview : viewAt e (d ++ [n]) = none) :
    (do
      CopyUp.ensureUpperParent (d ++ [n])
      let h ← Context.withNew { actualPath := .upper (d ++ [n]), relativePath := d ++ [n]
                                isDirectory := request.directory, writable := true
                                grantedAccess := request.access } fun h =>
        if request.directory then Context.createDirectoryInUpper (d ++ [n]) resolution h
        else Context.createFileInUpper (d ++ [n]) request resolution h
      invalidateWithAncestors (d ++ [n])
      pure h : Op Nat).Ensures e (CreateOutcome e d n request.directory) := by
  have hparent := (ensureUpperParent_parent (d ++ [n]) e).and
    (ensureUpperParentWith_climbs copyUpDirectory_climbs (d ++ [n]) e)
  rw [List.dropLast_concat] at hparent
  refine Step.Ensures.bind hparent ?_ fun _ f hf _ =>
    ⟨hf.2.raised.view, hf.2.hasUpperWhiteout⟩
  rintro _ f ⟨hheld, hf⟩
  obtain ⟨hres, hlower⟩ := parent_raised hcheck.resolvable hview hf (hheld _ rfl)
  have hcheck' : Checked f d n resolution :=
    ⟨hres, hcheck.ne_dot, hcheck.lower.trans hlower.symm,
      hcheck.whiteout.trans hf.hasUpperWhiteout.symm⟩
  have hlift : ∀ {α : Type} {r : Except NtStatus α} {g : Engine},
      CreateOutcome f d n request.directory r g → CreateOutcome e d n request.directory r g :=
    CreateOutcome.of_view hf.raised.view hf.hasUpperWhiteout hf.raised.lowers
  refine Step.Ensures.bind (withNew_ensures (P := CreateOutcome f d n request.directory)
    (Q := CreateOutcome e d n request.directory) ?_ ?_ ?_) ?_ ?_
  · intro x k hk
    apply Step.Ensures.ite
    · intro hdirectory
      rw [hdirectory]
      exact createDirectoryInUpper_ensures x hcheck' hk
    · intro hfile
      rw [Bool.not_eq_true] at hfile
      rw [hfile]
      refine (createFileInUpper_ensures x (hf.raised.wf he) hcheck' hk).mono fun r g hg => ?_
      cases r with
      | ok _ => exact hg
      | error _ => exact fun _ => hg
  · exact fun x g hg => hlift (r := .ok x) hg
  · intro status g hg contexts hundo
    have hsame : SameLayers g { g with contexts } := ⟨fun _ => rfl, rfl, rfl⟩
    have hunchanged : Unchanged e g d n := hlift (r := (.error status : Except NtStatus Nat)) hg hundo
    exact ⟨fun r => (hsame.viewAt r).trans (hunchanged.view r),
      hsame.hasUpperWhiteout.trans hunchanged.whiteout⟩
  · intro h g (hg : Created e g d n request.directory)
    refine Step.Ensures.bind (invalidateWithAncestors_ensures (d ++ [n]) g) ?_ fun _ _ hg => by
      cases hg.1
    rintro _ g' ⟨-, hg'⟩
    have hsame := hg'.toUntouched.sameLayers
    apply Step.Ensures.pure
    refine ⟨(hsame.viewAt _).trans hg.shown, ?_, hsame.hasUpperWhiteout.trans hg.whiteout,
      fun r hr => (hsame.viewAt r).trans (hg.kept r hr), hg'.lowers.trans hg.lowers⟩
    intro hdirectory
    rw [hg'.config]
    exact hg.empty hdirectory
  · exact fun _ _ hg => hg

theorem createPath_ensures [HostCase] (request : Context.CreateRequest) (he : e.Wf) :
    (Context.createPath request).Ensures e fun r g =>
      (∃ d n, (viewPathOf request.path).norm = d ++ [n] ∧
        (∀ h, r = .ok h → viewAt e (d ++ [n]) = none) ∧
        CreateOutcome e d n request.directory r g) ∨
      (∃ status, r = .error status) ∧ Looked e g := by
  refine Step.Ensures.bind (walkCallerPath_looked request.path _ e) ?_ fun _ _ hf => by cases hf.1
  rintro view f ⟨hpath, hf⟩
  obtain rfl : view = viewPathOf request.path := Except.ok.inj hpath
  apply Step.Ensures.ite
  · exact fun _ => .inr ⟨⟨_, rfl⟩, hf⟩
  · intro hparse
    have hsafe : parsesAsHostPath (viewPathOf request.path).norm = true := by simpa using hparse
    have hdots := dot_not_mem_viewPath request.path hsafe
    have hne : (viewPathOf request.path).norm ≠ [] := by
      intro hnil
      rw [hnil] at hsafe
      cases hsafe
    obtain ⟨d, n, hp⟩ : ∃ d n, (viewPathOf request.path).norm = d ++ [n] :=
      ⟨_, _, (List.dropLast_append_getLast hne).symm⟩
    rw [hp] at hsafe hdots ⊢
    have hdot : n ≠ ['.'] := by
      rintro rfl
      exact hdots (by simp)
    refine Step.Ensures.bind (checkCreatePreconditions_ensures hsafe hdot f) ?_ ?_
    · rintro resolution f' ⟨hf', hcheck⟩
      obtain ⟨hcheck, hview⟩ := hcheck resolution rfl
      have hsame := (hf.trans hf').toUntouched
      have hview' : viewAt f' (d ++ [n]) = none := by rw [hf'.toUntouched.viewAt, hview]
      refine (createChecked_ensures (hsame.sameEntries.wf he) (hcheck.looked hf') hview').mono
        fun r g hg => .inl ⟨d, n, rfl, fun _ _ => ?_, ?_⟩
      · rw [← hsame.viewAt, hview']
      · exact hg.of_view hsame.viewAt hsame.sameLayers.hasUpperWhiteout hsame.lowers
    · rintro status f' ⟨hf', -⟩
      exact .inr ⟨⟨_, rfl⟩, hf.trans hf'⟩

/-- A whiteout over a lower's directory `d`, and a removal of the whiteout that fails or
does not. -/
def hiddenDirectory (fault : Option (DiskStep × Nat)) : Engine where
  upper := some (.node {} [(['.', 'w', 'h', '.', 'd'], .leaf .marker)])
  lowers := [some (.node {} [(['d'], .node {} [(['a'], .leaf (.file 0))])])]
  files := [{ data := [1] }]
  fault

theorem hiddenDirectory_wf (fault : Option (DiskStep × Nat)) : (hiddenDirectory fault).Wf where
  upper := by
    refine namesBelow_node fun c hc => ?_
    rw [List.mem_singleton.mp hc]
    intro r id hid
    cases r with
    | nil => simp [entryAt, PathTree.entry] at hid
    | cons m r =>
      rw [entryAt_cons, childAt_leaf, entryAt, placeAt_none] at hid
      cases hid
  lowers := by
    intro o ho
    rw [List.mem_singleton.mp ho]
    refine namesBelow_node fun c hc => ?_
    rw [List.mem_singleton.mp hc]
    refine namesBelow_node fun c hc => ?_
    rw [List.mem_singleton.mp hc]
    exact namesBelow_leaf Nat.zero_lt_one
  origins := by
    intro f hf origin horigin
    rw [List.mem_singleton.mp hf] at horigin
    cases horigin

def directoryRequest : Context.CreateRequest := { path := ⟨[['d']]⟩, directory := true }

open AsciiCase

end LayerMount
