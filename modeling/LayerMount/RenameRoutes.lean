import LayerMount.MergedCopy
import LayerMount.RenameSteps

/-!
# The routes of a rename

A file moves in the upper, copied up first when a lower holds it.  A directory or a link moves
as it is when no lower shows through it, and is copied from all layers to the work directory
when one does.  Each route ends with the old path renamed to the new one
(`renameFileEntry_yields`, `renameDirectoryEntry_yields`); which route a directory may take
is `RouteFits`.
-/

namespace LayerMount

open Lib

variable {e f g k : Engine} {c d p q : RelPath} {m n : Name} {t t' : Tree} {v : Shown}

/-! ## The move in the upper -/

theorem treeKind_of_shown (hp : p ≠ []) (hres : isResolvablePath e.config p = true)
    (ht : e.upperAt p = some t) (hview : viewAt e p = some v) : treeKind t = v.kind := by
  rw [viewAt_of_held hp hres ht, Option.some.injEq] at hview
  rw [← hview, kind_shownOf]

section Moving

variable (hapart : Apart (c ++ [m]) (d ++ [n])) (hdot : n ≠ ['.'])
  (hview : viewAt e (c ++ [m]) = some v)

include hapart hview

theorem Ready.resolvable_old (h : Ready e k (c ++ [m]) (d ++ [n])) :
    isResolvablePath k.config (c ++ [m]) = true :=
  isResolvablePath_of_viewAt (by simp) (h.viewAt_old hapart (by rw [hview]; rfl))

theorem Ready.stop_eq (h : Ready e k (c ++ [m]) (d ++ [n]))
    (hheld : (k.upperAt (c ++ [m])).isSome = true)
    (hparent : leadsToDirectory (k.upperAt d) = true) :
    (slotOf k.upper none c).stop = (slotOf k.upper none d).stop := by
  have hlinks := h.links
  rw [List.dropLast_concat, List.dropLast_concat] at hlinks
  exact stop_eq_of_links (plainAt_of_held (h.resolvable_old hapart hview) hheld).2 hparent hlinks

include hdot in
/-- An entry that no lower shows through at either path. -/
theorem Ready.takenUp (h : Ready e k (c ++ [m]) (d ++ [n]))
    (ht : Takes k g (c ++ [m]) (d ++ [n]) t) (hold : Secluded k c m t) (hnew : Secluded k d n t) :
    TakenUp e k g c m d n t := by
  have hparent := ht.parent
  rw [List.dropLast_concat] at hparent
  have hheld : (k.upperAt (c ++ [m])).isSome = true := by rw [ht.held]; rfl
  have hres := h.resolvable_old hapart hview
  have hplain : PlainAt k d n := plainAt_of_parent h.resolvable (isSome_of_leads hparent) hdot
  have hput := putUpper_settled hparent hdot h.resolvable hnew
  obtain ⟨hplain', -⟩ := h.plain_old hapart (by rw [hview]; rfl) hplain hheld t
  have hsettled := hput.put_apart (putUpper_puts _ (c ++ [m]) none) hplain' hapart.symm
  refine ⟨⟨h, hparent, hdot, fun r => ?_, hsettled.sameEntries ht.entries⟩, hheld, ht.entries⟩
  rw [← h.stop_eq hapart hview hheld hparent, ← viewAt_alone ht.held hres hold,
    h.view _ (hapart.not_below r)]

end Moving

/-- A whiteout that is written after the move ends the rename. -/
theorem whiteOutSource_yields (rename : Rename.UpperRename)
    (h : (WhiteoutManager.createWhiteout rename.oldNorm).Yields g fun _ g' =>
      RenamedTo e g' p d n) (stagedShell : Bool) :
    (Rename.whiteOutSource rename stagedShell).Yields g fun moved g' =>
      moved.status = .ok () → RenamedTo e g' p d n := by
  refine Step.Yields.attempt_bind h ?_ ?_
  · exact fun _ g' hg' => Step.Yields.pure fun _ => hg'
  · intro status f
    refine Step.Yields.bind (P := fun _ _ => True) (fun _ _ => trivial) fun back f' _ => ?_
    cases back with
    | ok _ => exact Step.Yields.pure fun h => by cases h
    | error _ =>
      refine Step.Yields.bind (P := fun _ _ => True) (fun _ _ => trivial) fun _ _ _ => ?_
      exact Step.Yields.pure fun h => by cases h

/-! ## A file -/

theorem moveToUpper_yields {content : Data} (h : SetOff e k (c ++ [m]) (d ++ [n]))
    (hapart : Apart (c ++ [m]) (d ++ [n])) (hdot : n ≠ ['.'])
    (hview : viewAt e (c ++ [m]) = some (.file content)) (replace : Rename.FileRenameReplace)
    (copyUpMode : Rename.RenameCopyUp) :
    (Rename.moveToUpper (c ++ [m]) (d ++ [n]) replace copyUpMode).Yields k fun _ g =>
      ∃ k' t, TakenUp e k' g c m d n t ∧
        ((k.upperAt (c ++ [m])).isSome = true → SameBelow k k' c m) := by
  have hsome : (viewAt e (c ++ [m])).isSome = true := by rw [hview]; rfl
  refine Step.Yields.bind (ensureUpperParent_ready h hapart hsome) ?_
  rintro _ k₁ ⟨-, hready, hclimbs, -⟩
  have hsame : (k.upperAt (c ++ [m])).isSome = true → SameBelow k k₁ c m := fun hheld =>
    hclimbs.sameBelow (fun hd => isResolvablePath_above hd (List.prefix_append d [n]) h.resolvable)
      hheld hapart.not_above
  have hview₁ : viewAt k₁ (c ++ [m]) = some (.file content) := by
    rw [hready.view _ hapart.2, hview]
  have hmove : ∀ {move : Op Unit} (stagedShell : Bool) {k₂ : Engine},
      (Ready e k₂ (c ++ [m]) (d ++ [n]) → move.Ensures k₂ fun r g => r = .ok () →
        ∃ t, Takes k₂ g (c ++ [m]) (d ++ [n]) t) →
      Ready e k₂ (c ++ [m]) (d ++ [n]) →
      ((k.upperAt (c ++ [m])).isSome = true → SameBelow k k₂ c m) →
      (do move; pure stagedShell : Op Bool).Yields k₂ fun _ g => ∃ k' t,
        TakenUp e k' g c m d n t ∧
          ((k.upperAt (c ++ [m])).isSome = true → SameBelow k k' c m) := by
    intro move stagedShell k₂ htakes hready₂ hsame₂
    have hres := hready₂.resolvable_old hapart hview
    refine Step.Yields.bind (P := fun _ g => ∃ t, Takes k₂ g (c ++ [m]) (d ++ [n]) t)
      (fun _ hr => htakes hready₂ hr) fun _ g ⟨t, ht⟩ => Step.Yields.pure ?_
    have hkind : treeKind t = .file := by
      refine treeKind_of_shown (v := .file content) (by simp) hres ht.held ?_
      rw [hready₂.view _ hapart.2, hview]
    exact ⟨k₂, t, hready₂.takenUp hapart hdot hview ht (secluded_of_file hkind)
      (secluded_of_file hkind), hsame₂⟩
  have hinPlace := fun {k₂} (_ : Ready e k₂ (c ++ [m]) (d ++ [n])) =>
    moveUpperEntryOnDisk_ensures hapart hdot true k₂
  have hchecked := fun {k₂} (replace : Bool) (hk₂ : Ready e k₂ (c ++ [m]) (d ++ [n])) =>
    moveUpperEntry_ensures (hk₂.resolvable_old hapart hview) hapart hdot replace
  refine Step.Yields.bind (P := fun held k₂ => k₂ = k₁ ∧ held = (k₁.upperAt (c ++ [m])).isSome)
    (Step.Yields.get (Step.Yields.pure ⟨rfl, rfl⟩)) ?_
  rintro held k₂ ⟨hk₂, hheld⟩
  obtain rfl : k₁ = k₂ := hk₂.symm
  apply Step.Yields.ite
  · intro _
    cases replace with
    | inPlace => exact hmove false hinPlace hready hsame
    | no => exact hmove false (hchecked false) hready hsame
    | afterAside => exact hmove false (hchecked true) hready hsame
  · intro hfree
    -- what is copied was not in the upper before either
    have hraised : ∀ {k₂ : Engine}, Raised k₁ k₂ → Ready e k₂ (c ++ [m]) (d ++ [n]) ∧
        ((k.upperAt (c ++ [m])).isSome = true → SameBelow k k₂ c m) := fun hk =>
      ⟨hready.raised hapart hsome hk, fun h => by
        rw [hheld, hclimbs.raised.grows _ h] at hfree
        exact absurd rfl hfree⟩
    cases copyUpMode with
    | fullCopy =>
      refine Step.Yields.bind ((copyUpFile_raised hready.wf hview₁).yields
        fun _ _ hk => hk.raised) fun _ k₂ hk => ?_
      cases replace with
      | inPlace => exact hmove false hinPlace (hraised hk).1 (hraised hk).2
      | no => exact hmove false (hchecked false) (hraised hk).1 (hraised hk).2
      | afterAside => exact hmove false (hchecked true) (hraised hk).1 (hraised hk).2
    | shellWhenPossible =>
      refine Step.Yields.bind ((copyUpFileOrShell_raised hready.wf hview₁ none).yields
        fun _ _ hk => hk.raised) fun copied k₂ hk => ?_
      cases replace with
      | inPlace => exact hmove copied.stagedShell hinPlace (hraised hk).1 (hraised hk).2
      | no => exact hmove copied.stagedShell (hchecked false) (hraised hk).1 (hraised hk).2
      | afterAside => exact hmove copied.stagedShell (hchecked true) (hraised hk).1 (hraised hk).2

theorem renameFileEntry_yields {content : Data} (h : SetOff e k (c ++ [m]) (d ++ [n]))
    (hapart : Apart (c ++ [m]) (d ++ [n])) (hdot : n ≠ ['.'])
    (hview : viewAt e (c ++ [m]) = some (.file content)) (replace : Rename.FileRenameReplace)
    (copyUpMode : Rename.RenameCopyUp) :
    (Rename.renameFileEntry (c ++ [m]) (d ++ [n]) replace copyUpMode).Yields k fun moved g =>
      moved.status = .ok () → RenamedTo e g (c ++ [m]) d n := by
  have hsome : (viewAt e (c ++ [m])).isSome = true := by rw [hview]; rfl
  have hshown : (viewAt k (c ++ [m])).isSome = true := by
    rw [h.view _ hapart.2]
    exact hsome
  apply Step.Yields.get
  refine Step.Yields.attempt_bind (moveToUpper_yields h hapart hdot hview replace copyUpMode) ?_ ?_
  · rintro stagedShell g ⟨k', t, htaken, hsame⟩
    apply Step.Yields.ite
    · intro hlower
      rw [Bool.not_eq_true'] at hlower
      have hheld : (k.upperAt (c ++ [m])).isSome = true := by
        by_contra hfree
        rw [viewAt_of_free (by simpa using hfree) hshown] at hlower
        cases hlower
      have hnone : Unfound k c m :=
        unfound_of_resolve (isResolvablePath_of_viewAt (by simp) hshown) hlower
      exact Step.Yields.pure fun _ =>
        htaken.of_unfound hapart hsome ((hsame hheld).unfound hnone)
    · exact fun _ => whiteOutSource_yields ⟨c ++ [m], d ++ [n], false⟩
        (htaken.whiteOut hapart hsome) stagedShell
  · exact fun _ _ => Step.Yields.pure fun h => by cases h

/-! ## A directory of the upper -/

theorem setOpaqueAtPath_yields (ht : e.upperAt p = some t) :
    (WhiteoutManager.setOpaqueAtPath p).Yields e fun _ g =>
      PutsAt e g p (some (WhiteoutManager.markOpaqueNode t)) := by
  apply Step.Yields.get
  apply Step.Yields.ite
  · exact fun _ => Step.Yields.fail
  · intro _
    refine Step.Yields.bind ((diskStep_ensures .writeOpaqueMarkers e).yields fun _ _ h => h)
      fun _ f hf => ?_
    apply Step.Yields.get
    rw [hf.upperAt, ht]
    exact Step.Yields.modify (hf.puts (putUpper_puts f p _))

/-- An opaque directory of the upper covers the lowers at every path that is as far from a
link. -/
theorem secluded_of_isOpaque (hmarker : isOpaqueUpper e (c ++ [m]) = true)
    (ht : e.upperAt (c ++ [m]) = some t) (hkind : treeKind t = .directory)
    (hstop : (slotOf e.upper none c).stop = (slotOf e.upper none d).stop) : Secluded e d n t := by
  have hplace : placeAt e.upper (c ++ [m]) = some t := ht
  have hcovers : coversAt e.upperLayer (c ++ [m]) = true := by
    rw [isOpaqueUpper, isOpaqueInLayer, Bool.and_eq_true] at hmarker
    have hdir : componentKindInLayer e.upperLayer (c ++ [m]) = .directory := by
      rw [Engine.upperLayer, componentKind_ofTree, hplace, placeKind, hkind]
    simp [coversAt, hdir, hmarker.1]
  have hslot := @coversAt_ofTree e.files e.upper none (c ++ [m])
  rw [slotOf_snoc, TreeSlot.child, slotOf_lowerIndex, slotOf_sub, ← placeAt_snoc, hplace,
    hstop] at hslot
  exact .inl (hslot.symm.trans hcovers)

section UpperDirectory

variable (hapart : Apart (c ++ [m]) (d ++ [n])) (hdot : n ≠ ['.'])
  (hview : viewAt e (c ++ [m]) = some v)

include hapart hview

theorem prepareRenameDestination_yields (h : SetOff e k (c ++ [m]) (d ++ [n])) (replace : Bool) :
    (Rename.prepareRenameDestination (d ++ [n]) replace).Yields k fun _ g =>
      ParentLeads k (d ++ [n]) ∧ Ready e g (c ++ [m]) (d ++ [n]) ∧ Climbs k g d ∧
        ParentHeld g (d ++ [n]) := by
  apply Step.Yields.get
  apply Step.Yields.ite
  · exact fun _ => Step.Yields.fail
  · exact fun _ => ensureUpperParent_ready h hapart (by rw [hview]; rfl)

/-- The opaque marker that the source gets before it moves shows nowhere. -/
theorem Ready.marked (h : Ready e k (c ++ [m]) (d ++ [n])) (ht : k.upperAt (c ++ [m]) = some t)
    (hkind : treeKind t = .directory) (hstop : (slotOf k.upper none c).stop = .none)
    (hold : Secluded k c m t)
    (hputs : PutsAt k g (c ++ [m]) (some (WhiteoutManager.markOpaqueNode t))) :
    Ready e g (c ++ [m]) (d ++ [n]) ∧
      g.upperAt (c ++ [m]) = some (WhiteoutManager.markOpaqueNode t) ∧
      holdsOpaquePlace (some (WhiteoutManager.markOpaqueNode t)) = true ∧
      lowersAt g c = lowersAt k c := by
  have hres := h.resolvable_old hapart hview
  obtain ⟨hplain, hlead⟩ := plainAt_of_held hres (by rw [ht]; rfl)
  obtain ⟨w, children, rfl, hlink⟩ : ∃ w children, t = .node w children ∧ w.link = false := by
    cases t with
    | leaf w => cases w <;> cases hkind
    | node w children => exact ⟨w, children, rfl, by cases hw : w.link <;> simp_all [treeKind]⟩
  have hat := hputs.upperAt hlead hplain.1
  have hmarker := holdsOpaquePlace_mark w children
  have hstop' : (slotOf g.upper none c).stop = .none := (hputs.slotOf_parent hplain).trans hstop
  have hall : ∀ r, viewAt g r = viewAt k r := by
    intro r
    by_cases hr : c ++ [m] <+: r
    · obtain ⟨x, rfl⟩ := hr
      rw [viewAt_alone hat ?_ (secluded_of_marked hmarker), viewAt_alone ht hres hold, hstop, hstop',
        shownAlone_mark _ hlink, hputs.files]
      rw [hputs.isResolvablePath hplain]
      exact hres
    · exact hputs.viewAt hplain hr
  have hnames : NamesBelow k.files.length (some (.node w children : Tree)) := by
    rw [← ht]
    exact h.wf.upperAt _
  refine ⟨h.of_view hapart (by rw [hview]; rfl) hall hputs.lowers
    (hputs.wf hlead hplain.1 (namesBelow_mark hnames) h.wf) fun hnone => ?_, hat, hmarker,
    lowersAt_congr hputs.lowers (hputs.agreeAlong_parent hplain)⟩
  rw [hat] at hnone
  cases hnone

include hdot in
/-- The move of a directory or a link of the upper that no lower shows through. -/
theorem renameUpperDirectory_yields (h : SetOff e k (c ++ [m]) (d ++ [n]))
    (hkind : v.kind ≠ .file) (ht : k.upperAt (c ++ [m]) = some t) (hold : Secluded k c m t)
    (replace : Bool) :
    (Rename.renameUpperDirectory (c ++ [m]) (d ++ [n]) v.kind replace).Yields k fun _ g =>
      ∃ k' t', TakenUp e k' g c m d n t' ∧ (Unfound k c m → Unfound k' c m) := by
  refine Step.Yields.bind (prepareRenameDestination_yields hapart hview h replace) ?_
  rintro _ k₁ ⟨-, hready, hclimbs, hparent⟩
  have hheld : (k.upperAt (c ++ [m])).isSome = true := by rw [ht]; rfl
  have hsame : SameBelow k k₁ c m := hclimbs.sameBelow
    (fun hd => isResolvablePath_above hd (List.prefix_append d [n]) h.resolvable) hheld
    hapart.not_above
  obtain ⟨t₁, ht₁⟩ := Option.isSome_iff_exists.mp (hclimbs.raised.grows _ hheld)
  have hold₁ := hsame.secluded ht ht₁ hold
  have hres := hready.resolvable_old hapart hview
  have hlead := (plainAt_of_held hres (by rw [ht₁]; rfl)).2
  have hkind₁ : treeKind t₁ = v.kind :=
    treeKind_of_shown (by simp) hres ht₁ (by rw [hready.view _ hapart.2, hview])
  have hmove : ∀ (k₂ : Engine) (t₂ : Tree) (rest : Except NtStatus Unit → Op Unit),
      (rest (.ok ()) = do
        invalidateWithAncestors (c ++ [m])
        invalidateWithAncestors (d ++ [n])) →
      (∀ status g, (rest (.error status)).Yields g fun _ _ => False) →
      Ready e k₂ (c ++ [m]) (d ++ [n]) →
      k₂.upperAt (c ++ [m]) = some t₂ → Secluded k₂ c m t₂ →
      (leadsToDirectory (k₂.upperAt d) = true → Secluded k₂ d n t₂) →
      (Unfound k c m → Unfound k₂ c m) →
      (Op.attempt (moveUpperEntry (c ++ [m]) (d ++ [n]) replace) >>= rest).Yields k₂ fun _ g =>
        ∃ k' t', TakenUp e k' g c m d n t' ∧ (Unfound k c m → Unfound k' c m) := by
    intro k₂ t₂ rest hok herror hready₂ ht₂ hold₂ hnew₂ hun₂
    have hmoved := moveUpperEntry_ensures (hready₂.resolvable_old hapart hview) hapart hdot replace
    refine Step.Yields.attempt_bind (P := fun _ g => ∃ t, Takes k₂ g (c ++ [m]) (d ++ [n]) t)
      (fun _ hr => hmoved hr) ?_ ?_
    · rintro _ g ⟨t', ht'⟩
      rw [hok]
      obtain rfl : t₂ = t' := by
        have := ht'.held
        rw [ht₂] at this
        exact Option.some.inj this
      have hparent₂ := ht'.parent
      rw [List.dropLast_concat] at hparent₂
      refine Step.Yields.bind ((invalidateWithAncestors_ensures _ g).yields fun _ _ hg => hg.2)
        fun _ g₁ hg₁ => ?_
      refine (invalidateWithAncestors_ensures _ g₁).yields fun _ g₂ hg₂ => ?_
      have hentries := ht'.entries.trans (hg₁.trans hg₂.2).toUntouched.sameEntries
      exact ⟨k₂, t₂, hready₂.takenUp hapart hdot hview ⟨ht'.held, ht'.parent, hentries⟩ hold₂
        (hnew₂ hparent₂), hun₂⟩
    · exact fun status g => (herror status g).mono fun _ _ => False.elim
  have herror : ∀ (b : Bool) (status : NtStatus) (g : Engine),
      (do
        if b then invalidateWithAncestors (c ++ [m]) else pure ()
        Op.fail status : Op Unit).Yields g fun _ _ => False := by
    intro b status g
    cases b
    · exact Step.Yields.fail
    · exact Step.Yields.bind (P := fun _ _ => True) (fun _ _ => trivial)
        fun _ _ _ => Step.Yields.fail
  apply Step.Yields.get
  apply Step.Yields.ite
  · intro hmarks
    simp only [Bool.and_eq_true, decide_eq_true_eq, Bool.not_eq_true'] at hmarks
    obtain ⟨⟨hnotLink, -⟩, hfound⟩ := hmarks
    have hdir : treeKind t₁ = .directory := by
      rw [hkind₁]
      cases hv : v.kind <;> simp_all
    -- a lower that holds the new name is not looked up through a link
    have hunlinked : isInLinkTarget k₁.config d = false := by
      rcases hparent with hroot | hheldParent
      · rw [List.dropLast_concat] at hroot
        rw [hroot]
        exact isInLinkTarget_root _
      · rw [List.dropLast_concat] at hheldParent
        rw [Bool.eq_false_iff]
        intro hlinked
        have := (stop_eq_link_iff hheldParent).mpr hlinked
        rw [stop_of_found hfound] at this
        cases this
    have hstop : (slotOf k₁.upper none c).stop = .none := by
      refine (stop_of_leads hlead).resolve_right fun hlinked => ?_
      have hlinks := hready.links
      rw [List.dropLast_concat, List.dropLast_concat, hunlinked] at hlinks
      rw [stop_eq_link_iff (isSome_of_leads hlead), hlinks] at hlinked
      cases hlinked
    refine Step.Yields.bind (setOpaqueAtPath_yields ht₁) fun _ k₂ hputs => ?_
    obtain ⟨hready₂, ht₂, hmarker, hlowers⟩ :=
      hready.marked hapart hview ht₁ hdir hstop hold₁ hputs
    refine hmove k₂ _ _ rfl (herror _) hready₂ ht₂ (secluded_of_marked hmarker)
      (fun _ => secluded_of_marked hmarker) fun hun => ?_
    have hun₁ := hsame.unfound hun
    rw [Unfound, lowersOf] at hun₁ ⊢
    rw [hlowers]
    exact hun₁
  · intro hmarks
    refine hmove k₁ t₁ _ rfl (herror _) hready ht₁ hold₁ (fun hleads => ?_) fun hun =>
    hsame.unfound hun
    -- the source is covered as it is, or no lower holds the new name
    simp only [Bool.and_eq_true, decide_eq_true_eq, Bool.not_eq_true', not_and] at hmarks
    by_cases hlink : v.kind = .link
    · exact secluded_of_link (hkind₁.trans hlink)
    by_cases hmarker : isOpaqueUpper k₁ (c ++ [m]) = true
    · refine secluded_of_isOpaque hmarker ht₁ ?_ (hready.stop_eq hapart hview (by rw [ht₁]; rfl) hleads)
      rw [hkind₁]
      cases hv : v.kind <;> simp_all
    · have hnone : (resolveLowerPath k₁.config (d ++ [n])).found = false := by
        have := hmarks ⟨hlink, by simpa using hmarker⟩
        simpa using this
      exact (unfound_of_resolve hready.resolvable hnone).secluded (isSome_of_leads hleads)

end UpperDirectory

end LayerMount
