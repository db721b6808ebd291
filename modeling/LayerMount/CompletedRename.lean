import LayerMount.MergedRename

/-!
# A rename that succeeds moves one subtree

`LayerMount::Rename` checks both paths, copies up the lowers' link that both are below, sets
aside what the new path has, moves the entry on the route that fits it, and takes the whiteout
of the new path away.  When it succeeds, the new path has in the view what the old path had,
entry for entry, the old path has nothing, every other path is as before, and no lower is
changed (`rename_moves_subtree`).
-/

namespace LayerMount

open Lib

variable {e f g k : Engine} {c d p q : RelPath} {m n : Name} {t t' : Tree} {v : Shown}

/-! ## The link of a lower -/

/-- A shown path below a link of the upper is in the upper. -/
theorem held_of_stop (hview : (viewAt e (d ++ [n])).isSome = true)
    (hstop : (slotOf e.upper none d).stop = .link) : (e.upperAt (d ++ [n])).isSome = true := by
  by_contra hfree
  obtain ⟨v, hv⟩ := Option.isSome_iff_exists.mp hview
  obtain ⟨i, t, hshown, -⟩ := shownBelow_of_viewAt (by simpa using hfree) hv
  rw [hshown.stop] at hstop
  cases hstop

/-- After the checks and the copy of the lower's link. -/
theorem copyUpRenameLink_setsOff {checked : Rename.CheckedRename} {replace : Bool} (he : e.Wf)
    (hchecked : RenameChecked e (c ++ [m]) (d ++ [n]) replace checked) :
    (Rename.copyUpRenameLink checked.links).Yields e fun _ k =>
      Raised e k ∧ SetOff e k (c ++ [m]) (d ++ [n]) := by
  obtain ⟨v, hview, -⟩ := hchecked.source
  have hsome : (viewAt e (c ++ [m])).isSome = true := by rw [hview]; rfl
  have hlinks := hchecked.links
  rw [Rename.copyUpRenameLink]
  cases hlower : checked.links.lowerLinkToCopyUp with
  | none =>
    refine Step.Yields.pure ⟨Raised.refl e, he, fun _ _ => rfl, rfl, hchecked.resolvable,
      hlinks.same, fun hleads hfree => ?_⟩
    rw [Bool.eq_false_iff]
    intro hlink
    have hstop := hlinks.upper hleads hlower hlink
    rw [List.dropLast_concat] at hstop
    have := held_of_stop hsome hstop
    rw [hfree] at this
    cases this
  | some link =>
    have hfound := hlinks.lower link hlower
    rw [List.dropLast_concat] at hfound
    obtain ⟨hpre, hne, -, hshown⟩ := lowerLink_spec hfound
    have hshown := hshown (isResolvablePath_above hne (hpre.trans (List.prefix_append c [m]))
      (isResolvablePath_of_viewAt (by simp) hsome))
    have hshows := (hlinks.leads (by rw [hlower]; nofun)).shows
    rw [List.dropLast_concat] at hshows
    refine (copyUpDirectory_raised link e (.inr hshown)).yields fun _ k hk => ?_
    have hraised := hk.raised
    have hview' : ∀ r, viewAt k r = viewAt e r := hraised.view
    have hstop : (slotOf k.upper none c).stop = .link := by
      have habove := stop_of_shown_link hne (hk.holds () rfl) ((hview' link).trans hshown)
      obtain ⟨x, rfl⟩ := hpre
      rw [slotOf_append, stop_foldl_child (by rw [habove]; nofun), habove]
    refine ⟨hraised, hraised.wf he, fun r _ => hview' r, hraised.lowers,
      isResolvablePath_congr hshows (fun r _ => hview' r) hchecked.resolvable, fun _ => ?_,
      fun _ hfree => ?_⟩
    · have hsame := hlinks.same (hlinks.leads (by rw [hlower]; nofun))
      rw [List.dropLast_concat, List.dropLast_concat] at hsame ⊢
      rw [isInLinkTarget_congr (parent_shows hsome) fun r _ => hview' r,
        isInLinkTarget_congr hshows fun r _ => hview' r, hsame]
    · have hheld := held_of_stop (by rw [hview']; exact hsome) hstop
      rw [hfree] at hheld
      cases hheld

/-! ## The route that the state asks for -/

theorem directoryRenameRoute_fits (h : SetOff e k (c ++ [m]) (d ++ [n]))
    (hview : viewAt k (c ++ [m]) = some v) (hkind : v.kind ≠ .file) :
    RouteFits k c m (d ++ [n]) v.kind
      (Rename.directoryRenameRouteOf k (c ++ [m]) v.kind) := by
  have hsome : (viewAt k (c ++ [m])).isSome = true := by rw [hview]; rfl
  have hres : isResolvablePath k.config (c ++ [m]) = true :=
    isResolvablePath_of_viewAt (by simp) hsome
  rw [Rename.directoryRenameRouteOf]
  by_cases hlower : (resolveLowerPath k.config (c ++ [m])).found = true
  · rw [if_neg (by simp [hlower])]
    cases hheld : k.upperAt (c ++ [m]) with
    | none =>
      rw [if_pos (by simp)]
      refine ⟨fun hleads => ?_, fun _ => hheld⟩
      have := h.unlinked hleads hheld
      rwa [List.dropLast_concat] at this
    | some t =>
      have ht : treeKind t = v.kind := treeKind_of_shown (by simp) hres hheld hview
      have hparent : (k.upperAt c).isSome = true :=
        held_above (List.prefix_append c [m]) (by rw [hheld]; rfl)
      rw [if_neg (by simp)]
      split
      · rename_i hcase
        refine ⟨t, hheld, ?_⟩
        rw [Bool.or_eq_true, decide_eq_true_eq] at hcase
        by_cases hdir : v.kind = .directory
        · exact secluded_of_isOpaque (hcase.resolve_left (by simp [hdir])) hheld
            (ht.trans hdir) rfl
        · refine secluded_of_link (ht.trans ?_)
          cases hv : v.kind <;> simp_all
      · split
        · refine ⟨fun _ => ?_, fun hlink => ?_⟩
          · rw [Bool.eq_false_iff]
            intro hlink
            have := (stop_eq_link_iff hparent).mpr hlink
            rw [stop_of_found hlower] at this
            cases this
          · rename_i hcase _
            simp [hlink] at hcase
        · rename_i hnot
          exact ⟨t, hheld, secluded_of_lower hparent hres fun _ => hnot⟩
  · rw [if_pos (by simpa using hlower)]
    refine ⟨?_, unfound_of_resolve hres (by simpa using hlower)⟩
    by_contra hfree
    exact hlower (viewAt_of_free (by simpa using hfree) hsome)

/-! ## The destination goes aside -/

theorem checkDestinationReplaceable_yields (q : RelPath) (kind : EntryKind) (e : Engine) :
    (Rename.checkDestinationReplaceable q kind).Yields e fun _ g => g = e := by
  apply Step.Yields.get
  apply Step.Yields.ite
  · exact fun _ => Step.Yields.pure rfl
  · intro _
    split
    · exact Step.Yields.ite (fun _ => Step.Yields.fail) fun _ => Step.Yields.pure rfl
    · exact Step.Yields.pure rfl

theorem setRenameDestinationAside_empties (q : RelPath) (kind : EntryKind) (e : Engine) :
    (Rename.setRenameDestinationAside q kind).Yields e fun _ g => Emptied e g q := by
  refine Step.Yields.bind (checkDestinationReplaceable_yields q kind e) ?_
  rintro _ _ rfl
  refine Step.Yields.bind (moveUpperEntryAside_empties q _) fun held f hf => ?_
  cases held with
  | none => exact Step.Yields.pure hf
  | some t =>
    refine Step.Yields.bind ((invalidateWithAncestors_ensures q f).yields fun _ _ hg => hg.2)
      fun _ g hg => Step.Yields.pure ?_
    exact hf.untouched hg.toUntouched

theorem SameBelow.isSome_upperAt (h : SameBelow e g d n) :
    (g.upperAt (d ++ [n])).isSome = (e.upperAt (d ++ [n])).isSome := by
  have hentry := congrArg Option.isSome (h.entries [])
  rw [List.append_nil, isSome_entryAt, isSome_entryAt] at hentry
  exact hentry

section Emptied

variable (h : Emptied k g (d ++ [n])) (hres : isResolvablePath k.config (d ++ [n]) = true)

include h hres

theorem Emptied.view {r : RelPath} (hr : ¬d ++ [n] <+: r) : viewAt g r = viewAt k r := by
  rcases h with ⟨-, hu⟩ | ⟨hheld, hputs⟩
  · exact hu.viewAt r
  · exact hputs.viewAt (plainAt_of_held hres hheld).1 hr

theorem Emptied.wf (hk : k.Wf) : g.Wf := by
  rcases h with ⟨-, hu⟩ | ⟨hheld, hputs⟩
  · exact hu.raised.wf hk
  · obtain ⟨hplain, hlead⟩ := plainAt_of_held hres hheld
    refine hputs.wf hlead hplain.1 (fun r id hid => ?_) hk
    rw [entryAt, placeAt_none] at hid
    cases hid

theorem Emptied.parentLeads (hleads : ParentLeads g (d ++ [n])) : ParentLeads k (d ++ [n]) := by
  rcases h with ⟨-, hu⟩ | ⟨hheld, hputs⟩
  · exact (hu.parentLeads _).mp hleads
  · by_cases hd : d = []
    · left
      rw [List.dropLast_concat]
      exact hd
    · right
      have hleads := hleads.resolve_left (by rwa [List.dropLast_concat])
      rw [List.dropLast_concat] at hleads ⊢
      have hplain := (plainAt_of_held hres hheld).1
      have hsame := (hputs.sameAlong (f := id) hplain PutsAt.not_prefix_self).resolvePath hd
      rw [CopyUp.shownLeadsToDirectory, ← hsame, resolvePath_eq k hd] at hleads
      rw [CopyUp.shownLeadsToDirectory, resolvePath_eq k hd]
      cases hx : showAt k d with
      | none => rw [hx] at hleads; exact hleads
      | some x =>
        rw [hx, resultOf] at hleads
        rw [resultOf]
        cases hi : x.lowerIndex with
        | none =>
          have hentry : entryAt g.upper d = entryAt k.upper d := by
            rw [hputs.upper]
            exact entryAt_put_elsewhere PutsAt.not_prefix_self none
          rw [hi] at hleads
          exact (congrArg (true && ·) (leadsToDirectory_congr hentry)).symm.trans hleads
        | some i =>
          rw [hi] at hleads
          have hlower : g.lowerAt i d = k.lowerAt i d := by
            rw [Engine.lowerAt, Engine.lowerAt, hputs.lowers]
          exact (congrArg (true && leadsToDirectory ·) hlower).symm.trans hleads

theorem Emptied.sameBelow (hapart : Apart (c ++ [m]) (d ++ [n])) : SameBelow k g c m := by
  rcases h with ⟨-, hu⟩ | ⟨hheld, hputs⟩
  · exact hu.sameEntries.sameLayers.sameBelow
  · exact hputs.sameBelow_apart (plainAt_of_held hres hheld).1 hapart

end Emptied

theorem SetOff.emptied (h : SetOff e k (c ++ [m]) (d ++ [n])) (hg : Emptied k g (d ++ [n]))
    (hapart : Apart (c ++ [m]) (d ++ [n])) (hview : (viewAt e (c ++ [m])).isSome = true) :
    SetOff e g (c ++ [m]) (d ++ [n]) := by
  have hsome : (viewAt k (c ++ [m])).isSome = true := by
    rw [h.view _ hapart.2]
    exact hview
  have hc : isInLinkTarget g.config c = isInLinkTarget k.config c :=
    isInLinkTarget_congr (parent_shows hsome) fun r hr => hg.view h.resolvable fun hpre =>
      hapart.2 ((hpre.trans hr).trans (List.prefix_append c [m]))
  have hd : ParentLeads g (d ++ [n]) →
      isInLinkTarget g.config d = isInLinkTarget k.config d := by
    intro hleads
    have hshows := (hg.parentLeads h.resolvable hleads).shows
    rw [List.dropLast_concat] at hshows
    exact isInLinkTarget_congr hshows fun r hr => hg.view h.resolvable fun hpre =>
      PutsAt.not_prefix_self (hpre.trans hr)
  refine ⟨hg.wf h.resolvable h.wf, fun r hr => (hg.view h.resolvable hr).trans (h.view r hr), ?_, ?_,
    fun hleads => ?_, fun hleads hfree => ?_⟩
  · rcases hg with ⟨-, hu⟩ | ⟨-, hputs⟩
    · exact hu.lowers.trans h.lowers
    · exact hputs.lowers.trans h.lowers
  · rcases hg with ⟨-, hu⟩ | ⟨hheld, hputs⟩
    · rw [hu.config]
      exact h.resolvable
    · rw [hputs.isResolvablePath (plainAt_of_held h.resolvable hheld).1]
      exact h.resolvable
  · have hlinks := h.links (hg.parentLeads h.resolvable hleads)
    rw [List.dropLast_concat, List.dropLast_concat] at hlinks ⊢
    rw [hc, hd hleads, hlinks]
  · have hunlinked := h.unlinked (hg.parentLeads h.resolvable hleads) (by
      have hsame := (hg.sameBelow h.resolvable hapart).isSome_upperAt
      rw [hfree] at hsame
      simpa using hsame.symm)
    rw [List.dropLast_concat] at hunlinked ⊢
    rw [hc, hunlinked]

/-- The route was chosen before the destination went aside. -/
theorem RouteFits.emptied {kind : EntryKind} {route : Rename.DirectoryRenameRoute}
    (hroute : RouteFits k c m (d ++ [n]) kind route) (h : SetOff e k (c ++ [m]) (d ++ [n]))
    (hg : Emptied k g (d ++ [n])) (hapart : Apart (c ++ [m]) (d ++ [n]))
    (hview : (viewAt e (c ++ [m])).isSome = true) : RouteFits g c m (d ++ [n]) kind route := by
  have hsame := hg.sameBelow h.resolvable hapart
  cases route with
  | moveUpper =>
    obtain ⟨hheld, hunfound⟩ := hroute
    exact ⟨hsame.isSome_upperAt.trans hheld, hsame.unfound hunfound⟩
  | mergeLower =>
    refine ⟨fun hleads => ?_, fun hlink => ?_⟩
    · have hsome : (viewAt k (c ++ [m])).isSome = true := by
        rw [h.view _ hapart.2]
        exact hview
      rw [isInLinkTarget_congr (parent_shows hsome) fun r hr => hg.view h.resolvable fun hpre =>
        hapart.2 ((hpre.trans hr).trans (List.prefix_append c [m]))]
      exact hroute.1 (hg.parentLeads h.resolvable hleads)
    · have hfree := hsame.isSome_upperAt
      rw [hroute.2 hlink] at hfree
      simpa using hfree
  | moveUpperAndWhiteout =>
    obtain ⟨t, ht, hsecluded⟩ := hroute
    obtain ⟨t', ht'⟩ := Option.isSome_iff_exists.mp
      (hsame.isSome_upperAt.trans (by rw [ht]; rfl))
    exact ⟨t', ht', hsame.secluded ht ht' hsecluded⟩

/-! ## The whole rename -/

section Whole

variable (hapart : Apart (c ++ [m]) (d ++ [n])) (hdot : n ≠ ['.'])
  (hview : viewAt e (c ++ [m]) = some v)

include hapart

/-- The whiteout of the new path goes away after the move. -/
theorem removeDestinationWhiteoutOrUndo_yields (rename : Rename.UpperRename)
    (hq : rename.newNorm = d ++ [n]) (h : RenamedTo e k (c ++ [m]) d n) :
    (Rename.removeDestinationWhiteoutOrUndo rename).Yields k fun removal g =>
      removal = none → Renamed e g (c ++ [m]) (d ++ [n]) := by
  obtain ⟨f, t, hsettled⟩ := h.settled
  have hremove := removeWhiteout_settled hsettled
  rw [← hq] at hremove
  refine Step.Yields.attempt_bind (hremove.yields fun _ _ hg => hg rfl) ?_ ?_
  · rintro _ g ⟨hsettled', hkept, hlowers⟩
    rw [hq] at hkept
    refine Step.Yields.pure fun _ => ⟨fun r => ?_, fun r => ?_, fun r hp hq' => ?_,
      hlowers.trans h.lowers⟩
    · rw [hsettled'.viewAt, ← h.moved, hsettled.viewAt]
    · rw [hkept _ (hapart.not_below r), h.gone]
    · rw [hkept r hq', h.kept r hp hq']
  · intro status f'
    refine Step.Yields.bind (P := fun _ _ => True) (fun _ _ => trivial) fun back f'' _ => ?_
    cases back with
    | error _ => exact Step.Yields.pure fun hr => by cases hr
    | ok _ =>
      refine Step.Yields.bind (P := fun _ _ => True) (fun _ _ => trivial) fun removed f₃ _ => ?_
      cases removed with
      | ok _ => exact Step.Yields.pure fun hr => by cases hr
      | error _ =>
        exact Step.Yields.bind (P := fun _ _ => True) (fun _ _ => trivial)
          fun _ _ _ => Step.Yields.pure fun hr => by cases hr

include hdot hview

theorem moveRenameSource_yields (h : SetOff e k (c ++ [m]) (d ++ [n]))
    (replace : Bool) (fileReplace : Rename.FileRenameReplace)
    (route : Rename.DirectoryRenameRoute)
    (hroute : v.kind ≠ .file → RouteFits k c m (d ++ [n]) v.kind route)
    (copyUpMode : Rename.RenameCopyUp) :
    (Rename.moveRenameSource (c ++ [m]) (d ++ [n]) replace fileReplace v.kind route
      copyUpMode).Yields k fun out g =>
        out.2.newNorm = d ++ [n] ∧ (out.1.status = .ok () → RenamedTo e g (c ++ [m]) d n) := by
  have hne : c ++ [m] ≠ d ++ [n] := fun heq => hapart.1 (heq ▸ List.prefix_refl _)
  apply Step.Yields.get
  apply Step.Yields.ite
  · intro hkind
    obtain ⟨content, rfl⟩ : ∃ content, v = .file content := by
      cases v with
      | file content => exact ⟨content, rfl⟩
      | directory => cases hkind
      | link => cases hkind
    exact Step.Yields.bind (renameFileEntry_yields h hapart hdot hview fileReplace copyUpMode)
      fun _ _ hg => Step.Yields.pure ⟨rfl, hg⟩
  · intro hkind
    apply Step.Yields.ite
    · exact fun heq => absurd heq hne
    · exact fun _ => Step.Yields.bind (renameDirectoryEntry_yields h hapart hdot hview hkind route
      (hroute hkind) _ replace) fun _ _ hg => Step.Yields.pure ⟨rfl, hg⟩

/-- `RenameCheckedEntry` after the destination went aside. -/
theorem moveAndFinish_yields {checked : Rename.CheckedRename}
    (h : SetOff e k (c ++ [m]) (d ++ [n])) (hsource : checked.kinds.source = v.kind)
    (replace : Bool) (route : Rename.DirectoryRenameRoute)
    (hroute : v.kind ≠ .file → RouteFits k c m (d ++ [n]) v.kind route)
    (copyUpMode : Rename.RenameCopyUp) (held : Rename.HeldAside) :
    (Rename.moveAndFinish (c ++ [m]) (d ++ [n]) replace checked route copyUpMode held).Yields k
      fun _ g => Renamed e g (c ++ [m]) (d ++ [n]) := by
  have hmove := moveRenameSource_yields hapart hdot hview h replace
    (checked.fileReplace replace) route hroute copyUpMode
  rw [← hsource] at hmove
  apply Step.Yields.get
  refine Step.Yields.bind hmove ?_
  rintro ⟨moved, rename⟩ f ⟨hnew, hmoved⟩
  have hput : ∀ (occupied : Bool) (status : NtStatus) (f : Engine),
      (do
        if occupied then pure () else Rename.putBackAside (d ++ [n]) held
        Op.fail status : Op Rename.RenameResult).Yields f
          fun _ g => Renamed e g (c ++ [m]) (d ++ [n]) := by
    intro occupied status f
    cases occupied
    · exact Step.Yields.bind (P := fun _ _ => True) (fun _ _ => trivial)
        fun _ _ _ => Step.Yields.fail
    · exact Step.Yields.fail
  have hlast : ∀ f, Renamed e f (c ++ [m]) (d ++ [n]) →
      (do
        invalidateWithAncestors (c ++ [m])
        invalidateWithAncestors (d ++ [n])
        pure ⟨moved.stagedShell, checked.links.sourceInLinkTarget⟩ :
          Op Rename.RenameResult).Yields f fun _ g => Renamed e g (c ++ [m]) (d ++ [n]) := by
    intro f hf
    refine Step.Yields.bind ((invalidateWithAncestors_ensures _ f).yields fun _ _ hg => hg.2)
      fun _ f₁ hf₁ => ?_
    refine Step.Yields.bind ((invalidateWithAncestors_ensures _ f₁).yields
      fun _ _ hg => hf₁.trans hg.2) fun _ f₂ hf₂ => Step.Yields.pure ?_
    exact hf.untouched hf₂.toUntouched
  dsimp only
  cases hstatus : moved.status with
  | error status => exact hput _ status f
  | ok _ =>
    have hdone := hmoved hstatus
    cases hasWhiteout : hasUpperWhiteout k (d ++ [n])
    · exact hlast f hdone.toRenamed
    · refine Step.Yields.bind (removeDestinationWhiteoutOrUndo_yields hapart rename hnew hdone)
        fun removal f' hf' => ?_
      cases removal with
      | some undone => exact hput undone.2 undone.1 f'
      | none => exact hlast f' (hf' rfl)

theorem renameCheckedEntry_yields {checked : Rename.CheckedRename} {replace : Bool} (he : e.Wf)
    (hchecked : RenameChecked e (c ++ [m]) (d ++ [n]) replace checked)
    (hsource : checked.kinds.source = v.kind) (copyUpMode : Rename.RenameCopyUp) :
    (Rename.renameCheckedEntry (c ++ [m]) (d ++ [n]) replace checked copyUpMode).Yields e
      fun _ g => Renamed e g (c ++ [m]) (d ++ [n]) := by
  have hsome : (viewAt e (c ++ [m])).isSome = true := by rw [hview]; rfl
  have hne : c ++ [m] ≠ d ++ [n] := fun heq => hapart.1 (heq ▸ List.prefix_refl _)
  refine Step.Yields.bind (copyUpRenameLink_setsOff he hchecked) ?_
  rintro _ k ⟨hraised, hset⟩
  apply Step.Yields.get
  have hviewk : viewAt k (c ++ [m]) = some v := by rw [hraised.view, hview]
  generalize hr : (if (decide (checked.kinds.source ≠ .file) &&
      decide (c ++ [m] ≠ d ++ [n])) = true then
        Rename.directoryRenameRouteOf k (c ++ [m]) checked.kinds.source
      else .moveUpper) = route
  have hroute : v.kind ≠ .file → RouteFits k c m (d ++ [n]) v.kind route := by
    intro hkind
    rw [← hr, hsource, if_pos (by simp [hkind, hne])]
    exact directoryRenameRoute_fits hset hviewk hkind
  have hfinish : ∀ {g : Engine} (held : Rename.HeldAside), SetOff e g (c ++ [m]) (d ++ [n]) →
      (v.kind ≠ .file → RouteFits g c m (d ++ [n]) v.kind route) → _ := fun held hset hroute =>
    moveAndFinish_yields hapart hdot hview hset hsource replace route hroute copyUpMode held
  dsimp only
  split
  · refine Step.Yields.bind (checkDestinationReplaceable_yields _ _ k) ?_
    rintro _ _ rfl
    exact hfinish none hset hroute
  · exact hfinish none hset hroute
  · refine Step.Yields.bind (setRenameDestinationAside_empties _ _ k) fun held g hg => ?_
    exact hfinish held (hset.emptied hg hapart hsome) fun hkind =>
      (hroute hkind).emptied hset hg hapart hsome
  · exact hfinish none hset hroute

end Whole

theorem RenameChecked.untouched {checked : Rename.CheckedRename} {replace : Bool}
    (h : RenameChecked e p q replace checked) (hf : Untouched e f) :
    RenameChecked f p q replace checked where
  source_ne := h.source_ne
  new_ne := h.new_ne
  source := by
    obtain ⟨v, hview, hkind, hreplace⟩ := h.source
    exact ⟨v, (hf.viewAt p).trans hview, hkind, fun hne => (hreplace hne).untouched hf⟩
  apart := h.apart
  alone := h.alone
  resolvable := by
    rw [hf.config]
    exact h.resolvable
  links := h.links.untouched hf.symm

/-- The steps of a rename after its checks. -/
theorem RenameChecked.renames {checked : Rename.CheckedRename} {replace : Bool}
    (hchecked : RenameChecked e p q replace checked) (he : e.Wf) (hne : p ≠ q) (hdot : ['.'] ∉ q)
    (copyUpMode : Rename.RenameCopyUp) :
    (Rename.renameCheckedEntry p q replace checked copyUpMode).Yields e
      fun _ g => Renamed e g p q := by
  obtain ⟨v, hview, hsource, -⟩ := hchecked.source
  obtain ⟨c, m, rfl⟩ : ∃ c m, p = c ++ [m] :=
    ⟨_, _, (List.dropLast_append_getLast hchecked.source_ne).symm⟩
  obtain ⟨d, n, rfl⟩ : ∃ d n, q = d ++ [n] :=
    ⟨_, _, (List.dropLast_append_getLast hchecked.new_ne).symm⟩
  have hn : n ≠ ['.'] := fun h => hdot (by simp [h])
  exact renameCheckedEntry_yields (hchecked.apart hne) hn hview he hchecked hsource copyUpMode

theorem RenameChecked.parses {checked : Rename.CheckedRename} {replace : Bool}
    (hchecked : RenameChecked e p q replace checked) : parsesAsHostPath q = true := by
  have hres := hchecked.resolvable
  rw [isResolvablePath, Bool.and_eq_true] at hres
  exact hres.1

/-- `RenameViewPaths`. -/
theorem renameViewPaths_yields [HostCase] (he : e.Wf) {oldPath newPath : CallerPath}
    (hne : oldPath.norm ≠ newPath.norm)
    (hdot : parsesAsHostPath newPath.norm = true → ['.'] ∉ newPath.norm) (replace : Bool) :
    (Rename.renameViewPaths oldPath newPath replace).Yields e fun _ g =>
      (∃ checked, RenameChecked e oldPath.norm newPath.norm replace checked) ∧
        Renamed e g oldPath.norm newPath.norm := by
  refine Step.Yields.bind (P := fun checked f => Untouched e f ∧
    RenameChecked e oldPath.norm newPath.norm replace checked) ((checkRename_ensures _ _ replace
      e).yields fun checked f hf => ⟨hf.1.toUntouched, hf.2 checked rfl⟩) ?_
  rintro checked f ⟨hf, hchecked⟩
  apply Step.Yields.ite
  · exact fun heq => absurd (congrArg CallerPath.norm heq) hne
  · intro _
    refine Step.Yields.bind ((hchecked.untouched hf).renames (hf.raised.wf he) hne
      (hdot hchecked.parses) .shellWhenPossible) fun _ g hg =>
        Step.Yields.pure ⟨⟨checked, hchecked⟩, ?_⟩
    exact ⟨fun r => (hg.moved r).trans (hf.viewAt _), hg.gone,
      fun r hp hq => (hg.kept r hp hq).trans (hf.viewAt r), hg.lowers.trans hf.lowers⟩

/-- `Rename` of a path, when the two paths differ. -/
theorem renamePath_yields [HostCase] (he : e.Wf) (oldPath newPath : CallerPath)
    (hne : (viewPathOf oldPath).norm ≠ (viewPathOf newPath).norm) (replace : Bool) :
    (Rename.renamePath oldPath newPath replace).Yields e fun _ g =>
      (∃ checked, RenameChecked e (viewPathOf oldPath).norm (viewPathOf newPath).norm replace
        checked) ∧ Renamed e g (viewPathOf oldPath).norm (viewPathOf newPath).norm := by
  have hwalk : ∀ (path : CallerPath) (e : Engine), (walkCallerPath path .keep).Yields e
      fun view f => view = viewPathOf path ∧ Untouched e f := fun path e =>
    (walkCallerPath_looked path .keep e).yields fun _ _ hf =>
      ⟨Except.ok.inj hf.1, hf.2.toUntouched⟩
  refine Step.Yields.bind (hwalk oldPath e) ?_
  rintro _ f ⟨rfl, hf⟩
  refine Step.Yields.bind (hwalk newPath f) ?_
  rintro _ f' ⟨rfl, hf'⟩
  have hu := hf.trans hf'
  refine (renameViewPaths_yields (hu.raised.wf he) hne (dot_not_mem_viewPath newPath)
    replace).mono fun _ g hg => ?_
  obtain ⟨⟨checked, hchecked⟩, hg⟩ := hg
  exact ⟨⟨checked, hchecked.untouched hu.symm⟩, fun r => (hg.moved r).trans (hu.viewAt _), hg.gone,
    fun r hp hq => (hg.kept r hp hq).trans (hu.viewAt r), hg.lowers.trans hu.lowers⟩

theorem namesBelow_marker {k : Nat} : NamesBelow k (some (.leaf .marker)) := by
  intro r id hid
  cases r with
  | nil => simp [entryAt, PathTree.entry] at hid
  | cons m r =>
    rw [entryAt_cons, childAt_leaf, entryAt, placeAt_none] at hid
    cases hid

/-- A directory that both layers hold, with a whiteout in the upper that hides an entry of the
lower. -/
def mergedSource : Engine where
  upper := some (.node {} [(['a'], .node {} [(['b'], .leaf (.file 0)),
    (['.', 'w', 'h', '.', 'h'], .leaf .marker)])])
  lowers := [some (.node {} [(['a'], .node {} [(['c'], .leaf (.file 1)),
    (['h'], .leaf (.file 1))])])]
  files := [{ data := [1] }, { data := [2] }]

theorem mergedSource_wf : mergedSource.Wf where
  upper := by
    refine namesBelow_node fun c hc => ?_
    rw [List.mem_singleton.mp hc]
    refine namesBelow_node fun c hc => ?_
    rcases List.mem_pair.mp hc with rfl | rfl
    · exact namesBelow_leaf Nat.zero_lt_two
    · exact namesBelow_marker
  lowers := by
    intro o ho
    rw [List.mem_singleton.mp ho]
    refine namesBelow_node fun c hc => ?_
    rw [List.mem_singleton.mp hc]
    refine namesBelow_node fun c hc => ?_
    rcases List.mem_pair.mp hc with rfl | rfl <;> exact namesBelow_leaf Nat.one_lt_two
  origins := by
    intro f hf origin horigin
    rcases List.mem_pair.mp hf with rfl | rfl <;> cases horigin

open AsciiCase

end LayerMount
