import LayerMount.RenameRoutes

/-!
# The rename of a directory that lowers show through

A directory whose content comes from more than one layer is copied from the view to the work
directory, committed to the new path as an opaque directory, and then set aside at the old one
(`renameLowerDirectory_yields`).  A link that a lower shows is cloned instead.  The copy shows
the source's subtree (`MergedCommit`), because no layer below the new path shows through it.
-/

namespace LayerMount

open Lib

variable {e f g k : Engine} {c d p q : RelPath} {m n : Name} {t t' : Tree} {v : Shown}

theorem PutsAt.sameEntries {o : Place} (h : PutsAt e g p o) : SameEntries (e.putUpper p o) g :=
  ⟨fun r => by rw [h.upper]; rfl, h.lowers, h.files, h.host, h.undoFailed, h.contexts⟩

/-- The upper's entry at a path is taken away, if there is one. -/
def Emptied (e g : Engine) (q : RelPath) : Prop :=
  (e.upperAt q = none ∧ Untouched e g) ∨ ((e.upperAt q).isSome = true ∧ PutsAt e g q none)

theorem moveUpperEntryAside_empties (q : RelPath) (e : Engine) :
    (moveUpperEntryAside q).Yields e fun _ g => Emptied e g q := by
  apply Step.Yields.get
  cases hq : e.upperAt q with
  | none => exact Step.Yields.pure (.inl ⟨hq, Untouched.refl e⟩)
  | some t =>
    refine Step.Yields.bind ((diskStep_ensures .setAside e).yields fun _ _ hf => hf)
      fun _ f hf => ?_
    refine Step.Yields.bind ((diskStep_ensures .moveRecord f).yields fun _ _ hf' => hf.trans hf')
      fun _ f' hf' => ?_
    refine Step.Yields.bind (P := fun _ g => PutsAt f' g q none)
      (Step.Yields.modify (putUpper_puts f' q none)) fun _ g hg => Step.Yields.pure (.inr ⟨?_, ?_⟩)
    · rw [hq]
      rfl
    · exact hf'.puts hg

theorem Emptied.untouched (h : Emptied e f q) (hg : Untouched f g) : Emptied e g q :=
  h.imp (fun ⟨hfree, hu⟩ => ⟨hfree, hu.trans hg⟩) fun ⟨hheld, hputs⟩ => ⟨hheld, hputs.untouched hg⟩

/-! ## The copy at the new path -/

/-- The tree `t`, a copy of what the view has at the old path, is at the new path, and covers
the lowers there.  The old path has its entry still. -/
structure MergedCommit (e k g : Engine) (c : RelPath) (m : Name) (d : RelPath) (n : Name)
    (t : Tree) : Prop where
  ready : Ready e k (c ++ [m]) (d ++ [n])
  parent : leadsToDirectory (k.upperAt d) = true
  shows : ∀ r, shownAlone k.files (slotOf k.upper none d).stop t r = viewAt e (c ++ [m] ++ r)
  covers : (treeOverlay []).covers (slotIn none (slotOf k.upper none d).stop (some t)) = true
  puts : PutsAt k g (d ++ [n]) (some t)

/-- Setting the old path aside leaves the new one settled, whether the upper held the old path
or not. -/
theorem MergedCommit.setAside (h : MergedCommit e k g c m d n t)
    (hapart : Apart (c ++ [m]) (d ++ [n])) (hdot : n ≠ ['.'])
    (hview : (viewAt e (c ++ [m])).isSome = true) :
    (moveUpperEntryAside (c ++ [m])).Yields g fun _ g' =>
      TakenUp e k g' c m d n t ∨ TakenBelow e k g' c m d n t := by
  have hput := putUpper_settled h.parent hdot h.ready.resolvable (.inl h.covers)
  have hplain : PlainAt k d n :=
    plainAt_of_parent h.ready.resolvable (isSome_of_leads h.parent) hdot
  have hsome : (g.upperAt (c ++ [m])).isSome = (k.upperAt (c ++ [m])).isSome :=
    h.puts.isSome_upperAt hapart.2
  refine (moveUpperEntryAside_empties (c ++ [m]) g).mono fun _ g' hg' => ?_
  rcases hg' with ⟨hold, hu⟩ | ⟨hold, hputs⟩
  · have hfree : k.upperAt (c ++ [m]) = none := by
      rw [hold] at hsome
      simpa using hsome.symm
    have hentries := h.puts.sameEntries.trans hu.sameEntries
    exact .inr ⟨⟨h.ready, h.parent, hdot, h.shows, hput.sameEntries hentries⟩, hfree, h.covers,
      hentries⟩
  · have hheld : (k.upperAt (c ++ [m])).isSome = true := hsome ▸ hold
    have hentries : SameEntries ((k.putUpper (d ++ [n]) (some t)).putUpper (c ++ [m]) none) g' :=
      ⟨fun r => by rw [hputs.upper, h.puts.upper]; rfl, hputs.lowers.trans h.puts.lowers,
        hputs.files.trans h.puts.files, hputs.host.trans h.puts.host,
        hputs.undoFailed.trans h.puts.undoFailed, hputs.contexts.trans h.puts.contexts⟩
    obtain ⟨hplain', -⟩ := h.ready.plain_old hapart hview hplain hheld t
    have hsettled := hput.put_apart (putUpper_puts _ (c ++ [m]) none) hplain' hapart.symm
    exact .inl ⟨⟨h.ready, h.parent, hdot, h.shows, hsettled.sameEntries hentries⟩, hheld, hentries⟩

theorem Taken.sameEntries (h : Taken e k f c m d n t) (hg : SameEntries f g) :
    Taken e k g c m d n t :=
  ⟨h.ready, h.parent, h.ne_dot, h.shows, h.settled.sameEntries hg⟩

theorem TakenUp.sameEntries (h : TakenUp e k f c m d n t) (hg : SameEntries f g) :
    TakenUp e k g c m d n t :=
  ⟨h.toTaken.sameEntries hg, h.held, h.entries.trans hg⟩

theorem TakenBelow.sameEntries (h : TakenBelow e k f c m d n t) (hg : SameEntries f g) :
    TakenBelow e k g c m d n t :=
  ⟨h.toTaken.sameEntries hg, h.free, h.covers, h.entries.trans hg⟩

/-! ## What is committed -/

theorem Grown.view (h : Grown e g) (he : e.Wf) (r : RelPath) :
    LayerMount.viewAt g r = LayerMount.viewAt e r := by
  by_cases hr : r = []
  · have hroot := (h.sameFiles he).node he.upper true
    rw [hr, viewAt_nil, viewAt_nil, h.upper]
    cases hu : e.upper with
    | none => rfl
    | some t =>
      rw [hu] at hroot
      simp only [Option.map_some, Option.some.injEq, Prod.mk.injEq] at hroot
      rw [Option.map_some, Option.map_some, hroot.2]
  · exact h.viewAt he hr

theorem Ready.grown (h : Ready e k p q) (hg : Grown k g) : Ready e g p q where
  wf := hg.wf h.wf
  view r hr := (hg.view h.wf r).trans (h.view r hr)
  lowers := hg.lowers.trans h.lowers
  resolvable := by
    rw [hg.config h.wf]
    exact h.resolvable
  shows := h.shows.imp_right fun hd => by
    rw [ShowsDirectory, hg.view h.wf]
    exact hd
  links := by
    rw [hg.config h.wf]
    exact h.links
  unlinked hfree := by
    rw [hg.config h.wf]
    exact h.unlinked (by rw [← hg.upperAt, hfree])

theorem commitStaged_yields (t : Tree) (e : Engine) :
    (commitStaged (d ++ [n]) t).Yields e fun _ g =>
      leadsToDirectory (e.upperAt d) = true ∧ PutsAt e g (d ++ [n]) (some t) := by
  refine (commitStaged_ensures (d ++ [n]) t e).yields fun _ g hg => ?_
  obtain ⟨hlead, -, hputs⟩ := hg
  rw [List.dropLast_concat] at hlead
  exact ⟨hlead, hputs⟩

/-- The lookup of the lowers finds what supplies a shown path that the upper does not hold. -/
theorem suppliedBy_of_free (hfree : e.upperAt (d ++ [n]) = none)
    (hview : viewAt e (d ++ [n]) = some v) (hlink : isInLinkTarget e.config d = false) :
    ∃ i t, SuppliedBy e (d ++ [n]) (some i) t ∧ v = shownOf e.files false t ∧
      e.resolvedAt (resolveLowerPath e.config (d ++ [n])) = some t := by
  rw [viewAt_eq e (by simp), Option.map_eq_some_iff] at hview
  obtain ⟨x, hx, rfl⟩ := hview
  obtain ⟨i, t, hshown, rfl⟩ := shownBelow_of_showAt hfree hx
  have hlinks : ∀ s ∈ slotsAt e d, s.stop ≠ .link := by
    rw [isInLinkTarget_eq, List.any_eq_false] at hlink
    exact fun s hs => by simpa using hlink s hs
  rw [showAt_eq e (by simp), if_pos hshown.resolvable] at hx
  obtain ⟨t', hsupplied, -⟩ := supplied_of_look hlinks hshown.resolvable hx
  obtain rfl : t = t' := by
    have hplace := hsupplied.place
    rw [show treeAt e (lowerEntry e.files i t).lowerIndex = e.lowers.getD i none from rfl]
      at hplace
    exact Option.some.inj (hshown.place.symm.trans hplace)
  refine ⟨i, t, hsupplied, rfl, ?_⟩
  rw [hshown.resolveLowerPath]
  exact hshown.place

theorem Ready.stop_none (h : Ready e k (c ++ [m]) (d ++ [n]))
    (hlink : isInLinkTarget k.config c = false) (hleads : leadsToDirectory (k.upperAt d) = true) :
    (slotOf k.upper none d).stop = .none := by
  have hlinks := h.links
  rw [List.dropLast_concat, List.dropLast_concat, hlink] at hlinks
  refine (stop_of_leads hleads).resolve_right fun hstop => ?_
  rw [stop_eq_link_iff (isSome_of_leads hleads), ← hlinks] at hstop
  cases hstop

section Copying

variable (hapart : Apart (c ++ [m]) (d ++ [n])) (hview : viewAt e (c ++ [m]) = some v)

include hapart hview

/-- More copies in the upper put no directory into a link's target. -/
theorem unlinked_of_climbs (h : SetOff e k (c ++ [m]) (d ++ [n]))
    (hk : Climbs k f d) (hlink : isInLinkTarget k.config c = false) :
    isInLinkTarget f.config c = false := by
  have hsome : (viewAt k (c ++ [m])).isSome = true := by
    rw [h.view _ hapart.2, hview]
    rfl
  rw [isInLinkTarget_congr (parent_shows hsome) fun x _ => hk.raised.view x]
  exact hlink

/-- The clone of a link that a lower supplies. -/
theorem cloneLink_yields (h : SetOff e k (c ++ [m]) (d ++ [n])) (hk : Climbs k f d)
    (hready : Ready e f (c ++ [m]) (d ++ [n])) (hkind : v.kind = .link) {i : Option Nat}
    (ht : SuppliedBy k (c ++ [m]) i t) (hnames : NamesBelow k.files.length (some t))
    (hlink : isInLinkTarget k.config c = false) (hv : v = shownOf k.files false t) :
    (CopyUp.cloneThroughWorkDir t (d ++ [n])).Yields f fun _ g =>
      ∃ t', MergedCommit e f g c m d n t' := by
  have htree : treeKind t = .link := by rw [← kind_shownOf k.files false, ← hv, hkind]
  have hfile : fileOf (some t) = none := by
    cases t with
    | leaf w => cases w <;> first | rfl | cases htree
    | node w children => rfl
  have hunlinked := unlinked_of_climbs hapart hview h hk hlink
  rw [CopyUp.cloneThroughWorkDir, hfile]
  refine Step.Yields.bind ((stageEntry_ensures _ f).yields fun _ _ hf => hf) fun _ f' hf => ?_
  refine (commitStaged_yields _ f').mono fun _ g hg => ⟨CopyUp.clonedLink t, ?_⟩
  obtain ⟨hlead, hputs⟩ := hg
  rw [hf.upperAt] at hlead
  have hstop := hready.stop_none hunlinked hlead
  refine ⟨hready, hlead, fun r => ?_, covers_of_stop ?_, hf.puts hputs⟩
  · rw [hstop, (sameFiles_of_append h.wf hk.raised.files).shownAlone hnames.clonedLink,
      shownAlone_clonedLink ht (by simp) htree, h.view _ (hapart.not_below r)]
  · rw [hstop, ne_eq, slotIn]
    simp [placeKind, treeKind_clonedLink, htree, walkStopAt]

/-- The merged copy of a directory. -/
theorem copyMerged_yields (h : SetOff e k (c ++ [m]) (d ++ [n])) (hk : Climbs k f d)
    (hready : Ready e f (c ++ [m]) (d ++ [n])) (hkind : v.kind = .directory)
    (hlink : isInLinkTarget k.config c = false) (source : ResolvedPath) :
    (do
      let staged ← Rename.copyMergedDirectory (c ++ [m]) source
      commitStaged (d ++ [n]) staged : Op Unit).Yields f fun _ g =>
        ∃ k' t', MergedCommit e k' g c m d n t' := by
  have hunlinked := unlinked_of_climbs hapart hview h hk hlink
  have hshown : viewAt f (c ++ [m]) = some .directory := by
    rw [hready.view _ hapart.2, hview]
    cases v <;> first | rfl | cases hkind
  have hplain : PlainDirectory f (c ++ [m]) := by
    refine ⟨by simp, fun a ha hne => ?_⟩
    have habove := @directories_above f (c ++ [m]) (by simp) (by rw [hshown]; rfl)
    rw [List.dropLast_concat] at habove
    rcases List.prefix_concat_iff.mp ha with rfl | ha
    · exact hshown
    · exact habove hunlinked a ha hne
  have hcopy : (Rename.copyMergedDirectory (c ++ [m]) source).Yields f fun t g => Grown f g ∧
      holdsOpaquePlace (some t) = true ∧
        ∀ r, shownAlone g.files .none t r = viewAt f (c ++ [m] ++ r) := by
    refine Step.Yields.bind ((stageEntry_ensures _ f).yields fun _ _ hf => hf) fun _ f' hf => ?_
    have hwf : f'.Wf := hf.grown.wf hready.wf
    have hbuilt := buildMergedDirectory_shows hwf (hplain.grown hf.grown hready.wf) source
    refine (removingStagedOnFailure_ensures hbuilt fun _ _ _ hq hg =>
      ⟨hq.1.trans hg.grown, fun _ h => by cases h⟩).yields fun t g hg => ?_
    obtain ⟨hgrown, ht⟩ := hg
    obtain ⟨-, -, hmarker, hshows⟩ := ht t rfl
    exact ⟨hf.grown.trans hgrown, hmarker, fun r => (hshows r).trans (hf.viewAt _)⟩
  refine Step.Yields.bind hcopy fun t k' ⟨hgrown, hmarker, hshows⟩ => ?_
  refine (commitStaged_yields t k').mono fun _ g ⟨hlead, hputs⟩ => ⟨k', t, ?_⟩
  have hready' := hready.grown hgrown
  have hstop : (slotOf k'.upper none d).stop = .none := by
    refine hready'.stop_none ?_ hlead
    rw [hgrown.config hready.wf]
    exact hunlinked
  refine ⟨hready', hlead, fun r => ?_, ?_, hputs⟩
  · rw [hstop, hshows, hready.view _ (hapart.not_below r)]
  · simp only [treeOverlay, slotIn_sub, hmarker, Bool.or_true]

/-- `RenameLowerDirectory`.  A link takes this route only when the upper does not hold it. -/
theorem renameLowerDirectory_yields (h : SetOff e k (c ++ [m]) (d ++ [n])) (hdot : n ≠ ['.'])
    (hkind : v.kind ≠ .file) (hlink : ParentLeads k (d ++ [n]) → isInLinkTarget k.config c = false)
    (hfree : v.kind = .link → k.upperAt (c ++ [m]) = none) (replace : Bool) :
    (Rename.renameLowerDirectory (c ++ [m]) (d ++ [n]) v.kind replace).Yields k fun moved g =>
      moved.status = .ok () → ∃ k' t, TakenUp e k' g c m d n t ∨ TakenBelow e k' g c m d n t := by
  have hview' : viewAt k (c ++ [m]) = some v := (h.view _ hapart.2).trans hview
  apply Step.Yields.get
  refine Step.Yields.attempt_bind (P := fun _ g => ∃ k' t, MergedCommit e k' g c m d n t) ?_ ?_ ?_
  · cases hat : k.resolvedAt (resolveLowerPath k.config (c ++ [m])) with
    | none => exact Step.Yields.fail
    | some t =>
      refine Step.Yields.bind (prepareRenameDestination_yields hapart hview h replace) ?_
      rintro _ f ⟨hleads, hready, hclimbs, -⟩
      apply Step.Yields.ite
      · intro hislink
        obtain ⟨i, t', hsupplied, hv, hat'⟩ := suppliedBy_of_free (hfree hislink) hview' (hlink hleads)
        obtain rfl : t = t' := Option.some.inj (hat.symm.trans hat')
        have hnames : NamesBelow k.files.length (some t) := hat ▸ h.wf.resolvedAt _
        exact (cloneLink_yields hapart hview h hclimbs hready hislink hsupplied hnames
          (hlink hleads) hv).mono fun _ g hg => ⟨f, hg⟩
      · intro hislink
        have hdir : v.kind = .directory := by cases hv : v.kind <;> simp_all
        exact copyMerged_yields hapart hview h hclimbs hready hdir (hlink hleads) _
  · rintro _ g ⟨k', t, hcommit⟩
    have hend : ∀ (aside : Except NtStatus (Option Tree)) (occupied : Bool) (f : Engine),
        (∀ held, aside = .ok held → TakenUp e k' f c m d n t ∨ TakenBelow e k' f c m d n t) →
        (do
          invalidateWithAncestors (c ++ [m])
          invalidateWithAncestors (d ++ [n])
          pure { status := aside.map fun _ => (), newNameOccupied := occupied } :
            Op Rename.MovedSource).Yields f fun moved g =>
          moved.status = .ok () →
            ∃ k' t, TakenUp e k' g c m d n t ∨ TakenBelow e k' g c m d n t := by
      intro aside occupied f hf
      refine Step.Yields.bind ((invalidateWithAncestors_ensures _ f).yields fun _ _ hg => hg.2)
        fun _ f₁ hf₁ => ?_
      refine Step.Yields.bind ((invalidateWithAncestors_ensures _ f₁).yields
        fun _ _ hg => hf₁.trans hg.2) fun _ f₂ hf₂ => Step.Yields.pure fun hr => ⟨k', t, ?_⟩
      cases aside with
      | error status => cases hr
      | ok held =>
        have hsame := hf₂.toUntouched.sameEntries
        exact (hf held rfl).imp (fun hu => hu.sameEntries hsame) fun hb => hb.sameEntries hsame
    refine Step.Ensures.attempt_bind (hcommit.setAside hapart hdot (by rw [hview]; rfl)) ?_
    intro aside f hf
    cases aside with
    | ok held =>
      refine Step.Yields.bind (P := fun _ f' => f' = f) (Step.Yields.pure rfl) ?_
      rintro occupied _ rfl
      exact hend (.ok held) occupied _ hf
    | error status =>
      have hfailed : ∀ occupied f', _ := fun occupied f' =>
        hend (.error status) occupied f' fun _ h => by cases h
      refine Step.Yields.bind (P := fun _ _ => True) (fun _ _ => trivial) fun removed f' _ => ?_
      cases removed with
      | ok _ => exact hfailed false f'
      | error _ =>
        exact Step.Yields.bind (P := fun _ _ => True) (fun _ _ => trivial)
          fun _ f'' _ => hfailed true f''
  · exact fun _ _ => Step.Yields.pure fun h => by cases h

end Copying

/-! ## The route -/

/-- What the entry at the old path is like when a route is taken. -/
def RouteFits (k : Engine) (c : RelPath) (m : Name) (q : RelPath) (kind : EntryKind) :
    Rename.DirectoryRenameRoute → Prop
  | .moveUpper => (k.upperAt (c ++ [m])).isSome = true ∧ Unfound k c m
  | .mergeLower => (ParentLeads k q → isInLinkTarget k.config c = false) ∧
      (kind = .link → k.upperAt (c ++ [m]) = none)
  | .moveUpperAndWhiteout => ∃ t, k.upperAt (c ++ [m]) = some t ∧ Secluded k c m t

/-- `RenameDirectoryEntry`, on a route that fits the entry. -/
theorem renameDirectoryEntry_yields (h : SetOff e k (c ++ [m]) (d ++ [n]))
    (hapart : Apart (c ++ [m]) (d ++ [n])) (hdot : n ≠ ['.'])
    (hview : viewAt e (c ++ [m]) = some v) (hkind : v.kind ≠ .file)
    (route : Rename.DirectoryRenameRoute) (hroute : RouteFits k c m (d ++ [n]) v.kind route)
    (marks replace : Bool) :
    (Rename.renameDirectoryEntry ⟨c ++ [m], d ++ [n], marks⟩ v.kind route replace).Yields k
      fun moved g => moved.status = .ok () → RenamedTo e g (c ++ [m]) d n := by
  have hsome : (viewAt e (c ++ [m])).isSome = true := by rw [hview]; rfl
  have hupper : ∀ {t : Tree}, k.upperAt (c ++ [m]) = some t → Secluded k c m t → _ := fun ht hs =>
    renameUpperDirectory_yields hapart hdot hview h hkind ht hs replace
  have hwhite : ∀ {g : Engine}, ((WhiteoutManager.createWhiteout (c ++ [m])).Yields g fun _ g' =>
      RenamedTo e g' (c ++ [m]) d n) →
      (Rename.whiteOutSource ⟨c ++ [m], d ++ [n], marks⟩ false).Yields g fun moved g' =>
        moved.status = .ok () → RenamedTo e g' (c ++ [m]) d n :=
    fun hw => whiteOutSource_yields ⟨c ++ [m], d ++ [n], marks⟩ hw false
  cases route with
  | moveUpper =>
    obtain ⟨hheld, hunfound⟩ := hroute
    obtain ⟨t, ht⟩ := Option.isSome_iff_exists.mp hheld
    have hsecluded : Secluded k c m t :=
      hunfound.secluded (held_above (List.prefix_append c [m]) hheld)
    refine Step.Yields.attempt_bind (hupper ht hsecluded) ?_ ?_
    · rintro _ g ⟨k', t', hg, hun⟩
      exact Step.Yields.pure fun _ => hg.of_unfound hapart hsome (hun hunfound)
    · exact fun _ _ => Step.Yields.pure fun hr => by cases hr
  | mergeLower =>
    refine Step.Yields.bind (renameLowerDirectory_yields hapart hview h hdot hkind hroute.1 hroute.2
      replace) fun moved g hg => ?_
    cases hstatus : moved.status with
    | error status =>
      simp only [hstatus]
      exact Step.Yields.pure fun hr => by rw [hstatus] at hr; cases hr
    | ok _ =>
      simp only [hstatus]
      obtain ⟨k', t, hup | hbelow⟩ := hg hstatus
      · exact hwhite (hup.whiteOut hapart hsome)
      · exact hwhite (hbelow.whiteOut hapart hsome)
  | moveUpperAndWhiteout =>
    obtain ⟨t, ht, hsecluded⟩ := hroute
    refine Step.Yields.attempt_bind (hupper ht hsecluded) ?_ ?_
    · rintro _ g ⟨k', t', hg, -⟩
      exact hwhite (hg.whiteOut hapart hsome)
    · exact fun _ _ => Step.Yields.pure fun hr => by cases hr

end LayerMount
