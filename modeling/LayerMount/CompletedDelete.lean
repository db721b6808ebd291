import LayerMount.CopyUpEffect
import LayerMount.DeleteView

/-!
# A delete that succeeds

What a delete takes away and what it leaves.  The upper's entry goes, and where a lower
shows an entry under it a whiteout hides that one.  `delete_removes_entry` says that this is
the whole change of the view: the path and what is below it are gone, and every other path
shows what it showed.
-/

namespace LayerMount

open Lib

variable {e f g : Engine} {d p q : RelPath} {n : Name}

/-! ## A whiteout in the view -/

theorem not_whiteout_above (n : Name) : ¬d ++ [whiteoutName n] <+: d ++ [n] := by
  intro hpre
  have heq : d ++ [whiteoutName n] = d ++ [n] := hpre.eq_of_length (by simp)
  exact ne_whiteoutName n (by simpa using heq.symm)

/-- A path whose ancestors and itself show directories is in no link's target. -/
theorem isInLinkTarget_of_directories
    (h : ∀ c, c <+: d → c ≠ [] → viewAt e c = some .directory) :
    isInLinkTarget e.config d = false := by
  induction d using List.reverseRecOn with
  | nil =>
    rw [isInLinkTarget_eq, List.any_eq_false]
    intro s hs
    simp [stop_of_mem_cut hs]
  | append_singleton d n ih =>
    have hparent := ih fun c hc hne => h c (hc.trans (List.prefix_append d [n])) hne
    by_contra hlink
    rw [Bool.not_eq_false, isInLinkTarget_eq, List.any_eq_true] at hlink
    obtain ⟨s, hs, hstop⟩ := hlink
    have hstop : s.stop = .link := by simpa using hstop
    obtain ⟨pre, t, hsplit, -, hpre⟩ := inLink_slotsAt e (d ++ [n]) ⟨s, hs, hstop⟩
    have hlast : ∀ u ∈ slotsAt e (d ++ [n]), u.sub.isSome = true → u = t := by
      intro u hu hsub
      rw [hsplit] at hu
      rcases List.mem_append.mp hu with hmem | hmem
      · rw [(hpre u hmem).1] at hsub
        cases hsub
      · simpa using hmem
    have hsnoc : slotsAt e (d ++ [n]) = (treeOverlay e.files).descend (slotsAt e d) n :=
      Overlay.live_snoc _ _ _ _
    obtain ⟨u, hu, hchild⟩ := (treeOverlay e.files).mem_descendFrom (hsnoc ▸ hs)
    have hustop : u.stop ≠ .link := by
      rw [isInLinkTarget_eq, List.any_eq_false] at hparent
      simpa using hparent u hu
    -- the walk stops here and not above, so the place itself is the link
    have hkind : placeKind s.sub = .link := by
      have hchild : s = slotIn u.lowerIndex u.stop (childAt u.sub n) := hchild
      rw [hchild, slotIn] at hstop ⊢
      split at hstop
      · rename_i hnone
        rw [if_pos hnone]
        cases hk : placeKind (childAt u.sub n) <;> simp_all [walkStopAt]
      · exact absurd hstop hustop
    have hsub : s.sub.isSome = true := by
      cases hs : s.sub with
      | none => rw [hs] at hkind; cases hkind
      | some t => rfl
    have hdir := h (d ++ [n]) (List.prefix_refl _) (by simp)
    obtain ⟨before, T, post, x, hsplit', -, hT, hlook⟩ := split_of_slot hs hsub
    have hTs : T = s := by
      rw [hlast s hs hsub]
      exact hlast T (by rw [hsplit']; simp) (by rw [hT]; rfl)
    rw [viewAt_eq e (by simp), showAt_eq e (by simp), hlook, hTs] at hdir
    split at hdir
    · rw [← hTs, hT] at hkind
      have hx : treeKind x = .link := by
        rw [placeKind] at hkind
        cases hk : treeKind x <;> simp_all
      rw [← hTs] at hdir
      simp only [treeOverlay, hT, Option.map_some, Option.some.injEq] at hdir
      rw [shownOf_eq_link_iff.mpr hx] at hdir
      cases hdir
    · cases hdir

theorem isInLinkTarget_root (e : Engine) : isInLinkTarget e.config [] = false :=
  isInLinkTarget_of_directories fun _ hc hne => absurd (List.prefix_nil.mp hc) hne

/-- Where no link is on the way, no path goes through the name of a marker. -/
theorem isResolvablePath_whiteout (hn : isWhiteoutName n = true)
    (hlink : isInLinkTarget e.config d = false) (q : RelPath) :
    isResolvablePath e.config (d ++ [n] ++ q) = false := by
  by_contra hres
  rw [Bool.not_eq_false] at hres
  have habove := isResolvablePath_above (by simp) (List.prefix_append (d ++ [n]) q) hres
  rw [isResolvablePath_eq e (by simp), passes_snoc, Bool.and_eq_true, Bool.and_eq_true,
    nameShown, Bool.and_eq_true, hn] at habove
  rw [isInLinkTarget_eq, slotsAt, Overlay.live] at hlink
  rw [hlink] at habove
  exact absurd habove.2.2.2 (by simp)

theorem viewAt_whiteout (hn : isWhiteoutName n = true)
    (hlink : isInLinkTarget e.config d = false) (q : RelPath) :
    viewAt e (d ++ [n] ++ q) = none := by
  by_contra hne
  have hres := isResolvablePath_of_viewAt (by simp) (Option.isSome_iff_ne_none.mpr hne)
  rw [isResolvablePath_whiteout hn hlink q] at hres
  cases hres

theorem stop_ne_link (h : isInLinkTarget e.config d = false) :
    (slotOf e.upper none d).stop ≠ .link := by
  rw [isInLinkTarget_eq, slotsAt_cons, List.any_cons, Bool.or_eq_false_iff] at h
  simpa using h.1

theorem isInLinkTarget_of_held (hheld : ParentHeld e (d ++ [n]))
    (hstop : (slotOf e.upper none d).stop ≠ .link) : isInLinkTarget e.config d = false := by
  rw [ParentHeld, List.dropLast_concat] at hheld
  rw [isInLinkTarget_eq, List.any_eq_false]
  intro s hs
  rcases hheld with rfl | hd
  · simp [stop_of_mem_cut hs]
  · rw [slotsAt_cons] at hs
    rcases List.mem_cons.mp hs with rfl | hlower
    · simpa using hstop
    · simpa using stop_of_mem_lowersAt hlower hd

/-- A whiteout's place of the upper that changes: the path that the whiteout hides aside, the
view stays. -/
structure MarkerPut (f g : Engine) (d : RelPath) (n : Name) (t : Place) : Prop where
  puts : PutsAt f g (d ++ [whiteoutName n]) t
  plain : isWhiteoutName n = false
  unlinked : isInLinkTarget f.config d = false

namespace MarkerPut

variable {t : Place}

theorem sameAlong_parent (h : MarkerPut f g d n t) : SameAlong id f g d :=
  SameAlong.of_put
    (unread_of_whiteout h.plain PutsAt.not_prefix_self PutsAt.not_prefix_self)
    h.puts.lowers h.puts.files h.puts.upper

theorem still_unlinked (h : MarkerPut f g d n t) : isInLinkTarget g.config d = false := by
  have hagree := h.sameAlong_parent.agreeAlong
  rw [← h.unlinked, isInLinkTarget_eq, isInLinkTarget_eq, slotsAt_cons, slotsAt_cons,
    lowersAt_congr h.puts.lowers hagree, List.any_cons, List.any_cons, hagree.slotOf_stop]

theorem kept (h : MarkerPut f g d n t) {r : RelPath} (hr : ¬d ++ [n] <+: r) :
    viewAt g r = viewAt f r := by
  by_cases hmarker : d ++ [whiteoutName n] <+: r
  · obtain ⟨q, rfl⟩ := hmarker
    rw [viewAt_whiteout (by simp) h.still_unlinked, viewAt_whiteout (by simp) h.unlinked]
  · exact h.puts.viewAt_of_unread hmarker (unread_of_whiteout h.plain hr hmarker)

/-- The name that the whiteout hides is as free as it was. -/
theorem isSome_upperAt (h : MarkerPut f g d n t) :
    (g.upperAt (d ++ [n])).isSome = (f.upperAt (d ++ [n])).isSome :=
  h.puts.isSome_upperAt (not_whiteout_above (d := d) n)

end MarkerPut

/-- A whiteout that the upper gets beside a free name. -/
structure WhitedOut (f g : Engine) (d : RelPath) (n : Name) : Prop
    extends MarkerPut f g d n (some (.leaf .marker)) where
  parent : leadsToDirectory (f.upperAt d) = true
  free : f.upperAt (d ++ [n]) = none

/-- The whiteout hides what the lowers have. -/
theorem WhitedOut.gone (h : WhitedOut f g d n) (q : RelPath) :
    viewAt g (d ++ [n] ++ q) = none := by
  apply viewAt_none_below (by simp)
  have hfree : g.upperAt (d ++ [n]) = none := by
    have := h.isSome_upperAt
    rw [h.free] at this
    simpa using this
  have hstop : (slotOf g.upper none d).stop ≠ .link := by
    rw [h.sameAlong_parent.agreeAlong.slotOf_stop]
    exact stop_ne_link h.unlinked
  have hmarker : childAt (placeAt g.upper d) (whiteoutName n) = some (.leaf .marker) := by
    rw [← placeAt_snoc]
    exact h.puts.upperAt h.parent (whiteoutName_ne_dot n)
  have hwhites : (treeOverlay []).whites (slotOf g.upper none d) n = true := by
    simp [treeOverlay, hstop, hmarker]
  rw [viewAt_eq g (by simp), showAt_eq g (by simp), slotsAt_snoc, hfree, lowersUnder, hwhites,
    Bool.or_true, if_pos rfl]
  simp [Overlay.look, treeOverlay]

/-! ## What is gone -/

/-- The path and what is below it are gone from the view, and nothing else changed. -/
structure Deleted (e g : Engine) (p : RelPath) : Prop where
  gone : ∀ q, viewAt g (p ++ q) = none
  kept : ∀ r, ¬p <+: r → viewAt g r = viewAt e r
  lowers : g.lowers = e.lowers
  files : e.files <+: g.files

theorem Deleted.of_kept (h : Deleted f g p) (hview : ∀ r, ¬p <+: r → viewAt f r = viewAt e r)
    (hlowers : f.lowers = e.lowers) (hfiles : e.files <+: f.files) : Deleted e g p where
  gone := h.gone
  kept r hr := (h.kept r hr).trans (hview r hr)
  lowers := h.lowers.trans hlowers
  files := hfiles.trans h.files

theorem Deleted.of_raised (hr : Raised e f) (h : Deleted f g p) : Deleted e g p :=
  h.of_kept (fun r _ => hr.view r) hr.lowers hr.files

theorem Deleted.untouched (h : Deleted e f p) (hg : Untouched f g) : Deleted e g p where
  gone q := (hg.viewAt _).trans (h.gone q)
  kept r hr := (hg.viewAt r).trans (h.kept r hr)
  lowers := hg.lowers.trans h.lowers
  files := by rw [hg.files]; exact h.files

/-- A whiteout for a path that only lowers hold deletes it. -/
theorem createWhiteout_deletes (hview : (viewAt e (d ++ [n])).isSome = true)
    (hfree : e.upperAt (d ++ [n]) = none) :
    (WhiteoutManager.createWhiteout (d ++ [n])).Ensures e fun r g =>
      r = .ok () → Deleted e g (d ++ [n]) := by
  refine (createWhiteout_ensures (by simp) hview).mono fun r g h hr => ?_
  subst hr
  obtain ⟨f, hf, hlink, hlead, hkeep, hputs⟩ := h
  rw [List.dropLast_concat] at hlink hlead
  rw [getWhiteoutFileName_append] at hputs
  have hplain : isWhiteoutName n = false := by
    by_contra hmarker
    rw [Bool.not_eq_false] at hmarker
    have hnone := viewAt_whiteout hmarker hlink []
    rw [List.append_nil] at hnone
    rw [hnone] at hview
    cases hview
  have habove := directories_above (p := d ++ [n]) (by simp) hview
    (by rwa [List.dropLast_concat])
  rw [List.dropLast_concat] at habove
  have hlink' : isInLinkTarget f.config d = false :=
    isInLinkTarget_of_directories fun c hc hne => (hf.view c).trans (habove c hc hne)
  have hwhited : WhitedOut f g d n := ⟨⟨hputs, hplain, hlink'⟩, hlead, hkeep hfree⟩
  refine Deleted.of_raised hf ⟨hwhited.gone, fun r hr => hwhited.kept hr, hputs.lowers, ?_⟩
  rw [hputs.files]

/-! ## The two steps together -/

/-- What the lowers show under a name does not depend on the upper's entry there. -/
theorem PutsAt.resolveLowerPath {t : Place} (h : PutsAt e g (d ++ [n]) t) (hn : PlainAt e d n) :
    resolveLowerPath g.config (d ++ [n]) = resolveLowerPath e.config (d ++ [n]) := by
  rw [resolveLowerPath_eq, resolveLowerPath_eq, h.isResolvablePath hn, lowersOf, lowersOf,
    lowersAt_congr h.lowers (h.agreeAlong_parent hn), h.files]

/-- A path that the upper does not hold shows what the lookup of the lowers finds. -/
theorem viewAt_of_free (hfree : e.upperAt (d ++ [n]) = none) :
    (viewAt e (d ++ [n])).isSome = true →
      (LayerMount.resolveLowerPath e.config (d ++ [n])).found = true := by
  intro hview
  obtain ⟨v, hv⟩ := Option.isSome_iff_exists.mp hview
  obtain ⟨i, t, hshown, -⟩ := shownBelow_of_viewAt hfree hv
  rw [hshown.resolveLowerPath]
  simp [hitAt, ResolvedPath.found]

/-- The end of `Remove`, after the upper's entry has gone. -/
theorem removed_tail_deletes (hplain : PlainAt e d n)
    (hlead : leadsToDirectory (e.upperAt d) = true)
    (hentries : SameEntries (e.putUpper (d ++ [n]) none) f)
    (hlooked : ∀ (r : Except NtStatus Unit) (f' g : Engine),
      (r = .ok () → Deleted e f' (d ++ [n])) → Looked f' g →
      r = .ok () → Deleted e g (d ++ [n])) :
    (if (LayerMount.resolveLowerPath e.config (d ++ [n])).found = true then do
        invalidatingOnFailure (d ++ [n]) (WhiteoutManager.createWhiteout (d ++ [n]))
        invalidateWithAncestors (d ++ [n])
      else invalidateWithAncestors (d ++ [n]) : Op Unit).Ensures f fun r g =>
        r = .ok () → Deleted e g (d ++ [n]) := by
  have hputs := putUpper_puts e (d ++ [n]) none
  have hkept : ∀ r, ¬d ++ [n] <+: r → viewAt f r = viewAt e r := fun r hr =>
    (hentries.viewAt r).trans (hputs.viewAt hplain hr)
  have hlowers : f.lowers = e.lowers := hentries.lowers.trans hputs.lowers
  have hfiles : f.files = e.files := hentries.files.trans hputs.files
  have hfree : f.upperAt (d ++ [n]) = none := by
    have hsome := congrArg Option.isSome (hentries.entries (d ++ [n]))
    rw [isSome_entryAt, isSome_entryAt] at hsome
    have hgone := hputs.upperAt hlead hplain.1
    rw [Engine.upperAt] at hgone ⊢
    rw [hgone] at hsome
    simpa using hsome
  refine removeTail_ensures (fun _ => ?_) (fun hnone _ => ?_) hlooked
  · have hheld : ParentHeld f (d ++ [n]) := hentries.parentHeld (parentHeld_of_leads hlead hputs)
    refine (createWhiteout_held hheld).mono fun r g h hr => ?_
    subst hr
    obtain ⟨hlink, hlead', hmarker⟩ := h
    rw [List.dropLast_concat] at hlink hlead'
    rw [getWhiteoutFileName_append] at hmarker
    have hname : isWhiteoutName n = false := by
      refine hplain.2.resolve_right fun hstop => stop_ne_link hlink ?_
      rw [(hentries.sameAlong d).agreeAlong.slotOf_stop, hputs.slotOf_parent hplain, hstop]
    have hwhited : WhitedOut f g d n := ⟨⟨hmarker, hname, hlink⟩, hlead', hfree⟩
    refine Deleted.of_kept ⟨hwhited.gone, fun r hr => hwhited.kept hr, hmarker.lowers, ?_⟩
      hkept hlowers ?_
    · rw [hmarker.files]
    · rw [hfiles]
  · refine ⟨viewAt_none_below (by simp) ?_, hkept, hlowers, by rw [hfiles]⟩
    by_contra hshown
    rw [hentries.viewAt] at hshown
    have hfound := viewAt_of_free (hputs.upperAt hlead hplain.1)
      (Option.isSome_iff_ne_none.mpr hshown)
    rw [hputs.resolveLowerPath hplain, hnone] at hfound
    cases hfound

/-- A removal that succeeds deletes the path. -/
theorem remove_deletes (hview : (viewAt e (d ++ [n])).isSome = true) :
    (UpperEntryRemover.remove (d ++ [n])).Ensures e fun r g =>
      r = .ok () → Deleted e g (d ++ [n]) := by
  have hres := isResolvablePath_of_viewAt (by simp) hview
  refine Step.Ensures.bind (lookup_ensures (d ++ [n]) e) ?_ fun _ _ hf => by cases hf.1
  rintro _ f ⟨-, hf⟩
  apply Step.Ensures.get
  have hlooked : ∀ (r : Except NtStatus Unit) (f' g : Engine),
      (r = .ok () → Deleted e f' (d ++ [n])) → Looked f' g →
      r = .ok () → Deleted e g (d ++ [n]) :=
    fun _ _ _ hQ hlook hr => (hQ hr).untouched hlook.toUntouched
  rw [hf.upperAt, hf.config]
  cases ht : e.upperAt (d ++ [n]) with
  | none =>
    have hfound := viewAt_of_free ht hview
    refine removeTail_ensures (fun _ => ?_) (fun h => ?_) hlooked
    · refine (createWhiteout_deletes ?_ ?_).mono fun r g h hr =>
        Deleted.of_raised hf.toUntouched.raised (h hr)
      · rw [hf.toUntouched.viewAt]
        exact hview
      · rw [hf.upperAt, ht]
    · rw [hfound] at h
      cases h
  | some t =>
    obtain ⟨hplain, hlead⟩ := plainAt_of_held hres (by rw [ht]; rfl)
    have hlead' : leadsToDirectory (f.upperAt d) = true := by rw [hf.upperAt, hlead]
    have hremoved := removeShownUpperEntry_ensures ((hf.upperAt (d ++ [n])).trans ht)
      fun k t' hk => hk.upperAt hlead' hplain.1
    refine Step.Ensures.bind (invalidatingOnFailure_ensures (hremoved.mono
      (Q := fun r f' => r = .ok () → PutsAt f f' (d ++ [n]) none) ?_) ?_) ?_ ?_
    · intro r f' h hr
      subst hr
      exact h.2
    · exact fun _ _ _ _ _ h => by cases h
    · intro _ f' hputs
      have hentries : SameEntries (e.putUpper (d ++ [n]) none) f' :=
        .of_removed (hf.toUntouched.puts (hputs rfl))
      exact removed_tail_deletes hplain hlead hentries hlooked
    · exact fun _ _ _ h => by cases h

theorem removeEntry_deletes (hview : (viewAt e (d ++ [n])).isSome = true) :
    (removeEntry (d ++ [n])).Ensures e fun r g => r = .ok () → Deleted e g (d ++ [n]) := by
  have hres := isResolvablePath_of_viewAt (by simp) hview
  refine Step.Ensures.bind (copyUpLowerLinkAbove_raised hres) ?_ ?_
  · rintro _ f ⟨hf, -, -⟩
    have hview' : (viewAt f (d ++ [n])).isSome = true := by rw [hf.view]; exact hview
    exact (remove_deletes hview').mono fun _ _ h hr => Deleted.of_raised hf (h hr)
  · exact fun _ _ _ h => by cases h

/-- The names that a directory lists. -/
def Lists (e : Engine) (d : RelPath) (m : Name) : Prop :=
  ∃ entries, mergeDirectoryAcrossLayers e.config d = .ok entries ∧
    (entries.lookup m).isSome = true

/-- A listing has a name exactly when the view shows it.  No entry of a host has a colon in
its name. -/
theorem lists_iff_viewAt {m : Name} (hm : ':' ∉ m) :
    Lists e d m ↔ (viewAt e (d ++ [m])).isSome = true := by
  obtain ⟨entries, hentries, hlisted⟩ := listed_iff_viewAt e d hm
  constructor
  · rintro ⟨entries', hentries', hsome⟩
    rw [hentries] at hentries'
    cases hentries'
    rw [← hlisted]
    exact hsome
  · intro hsome
    exact ⟨entries, hentries, hlisted.trans hsome⟩

/-- The parent of a deleted path lists what it listed, without the path's name. -/
theorem Deleted.lists (h : Deleted e g (d ++ [n])) {m : Name} (hm : ':' ∉ m) :
    Lists g d m ↔ Lists e d m ∧ m ≠ n := by
  rw [lists_iff_viewAt hm, lists_iff_viewAt hm]
  by_cases hmn : m = n
  · subst hmn
    have hgone := h.gone []
    rw [List.append_nil] at hgone
    simp [hgone]
  · have hnot : ¬d ++ [n] <+: d ++ [m] := by
      intro hpre
      have heq : d ++ [n] = d ++ [m] := hpre.eq_of_length (by simp)
      exact hmn (by simpa using heq.symm)
    rw [h.kept _ hnot]
    simp [hmn]

/-- What a delete may remove: a file, a link, or a directory that lists nothing. -/
def Removable (e : Engine) (p : RelPath) : Prop :=
  (∃ content, viewAt e p = some (.file content)) ∨ viewAt e p = some .link ∨
    viewAt e p = some .directory ∧ mergeDirectoryAcrossLayers e.config p = .ok []

theorem Deletable.removable (h : Deletable e p)
    (hempty : viewAt e p = some .directory → directoryEmptinessStatus e p = .ok ()) :
    Removable e p := by
  obtain ⟨shown, hshown⟩ := Option.isSome_iff_exists.mp h.shown
  cases shown with
  | file content => exact Or.inl ⟨content, hshown⟩
  | link => exact Or.inr (Or.inl hshown)
  | directory =>
    refine Or.inr (Or.inr ⟨hshown, ?_⟩)
    have hstatus := hempty hshown
    rw [directoryEmptinessStatus] at hstatus
    cases hmerge : mergeDirectoryAcrossLayers e.config p with
    | error status => rw [hmerge] at hstatus; cases hstatus
    | ok entries =>
      cases entries with
      | nil => rfl
      | cons x rest => rw [hmerge] at hstatus; cases hstatus

theorem deletePath_deletes [HostCase] (path : CallerPath) (e : Engine) :
    (deletePath path).Ensures e fun r g => r = .ok () →
      Deletable e (viewPathOf path).norm ∧ Removable e (viewPathOf path).norm ∧
        Deleted e g (viewPathOf path).norm := by
  refine Step.Ensures.bind (canDelete_ensures path e) ?_ fun _ _ _ h => by cases h
  rintro p f ⟨hf, hcan⟩
  obtain ⟨hdel, rfl, hempty⟩ := hcan p rfl
  obtain ⟨d, n, hp⟩ : ∃ d n, (viewPathOf path).norm = d ++ [n] :=
    ⟨_, _, (List.dropLast_append_getLast hdel.ne_nil).symm⟩
  have hview : (viewAt f (viewPathOf path).norm).isSome = true := by
    rw [hf.toUntouched.viewAt]
    exact hdel.shown
  have hremoved := hdel.removable hempty
  rw [hp] at hview hdel hremoved ⊢
  exact (removeEntry_deletes hview).mono fun _ _ h hr =>
    ⟨hdel, hremoved, Deleted.of_raised hf.toUntouched.raised (h hr)⟩

/-- A delete that succeeds removes exactly one entry. -/
theorem delete_removes_entry [HostCase] {path : CallerPath} (h : deletePath path e = (.ok (), g))
    (hp : p = (viewPathOf path).norm) :
    Removable e p ∧ (∀ q, viewAt g (p ++ q) = none) ∧
      (∀ r, ¬p <+: r → viewAt g r = viewAt e r) ∧
      (∃ n, p = p.dropLast ++ [n] ∧ Lists e p.dropLast n ∧
        ∀ m, ':' ∉ m → (Lists g p.dropLast m ↔ Lists e p.dropLast m ∧ m ≠ n)) ∧
      g.lowers = e.lowers ∧ e.files <+: g.files := by
  have hall := deletePath_deletes path e
  rw [Step.Ensures, h, ← hp] at hall
  obtain ⟨hdel, hremovable, hdeleted⟩ := hall rfl
  refine ⟨hremovable, hdeleted.gone, hdeleted.kept, ?_, hdeleted.lowers, hdeleted.files⟩
  have hsplit := List.dropLast_append_getLast hdel.ne_nil
  have hsafe : isSafeRelativePath p = true := by
    have hres := hdel.resolvable
    rw [isResolvablePath, Bool.and_eq_true] at hres
    exact hres.1
  have hcolon : ':' ∉ p.getLast hdel.ne_nil := by
    rw [isSafeRelativePath, Bool.and_eq_true, List.all_eq_true] at hsafe
    have := hsafe.2 _ (List.getLast_mem hdel.ne_nil)
    simp only [Bool.and_eq_true, Bool.not_eq_true', List.contains_eq_mem,
      decide_eq_false_iff_not] at this
    exact this.1
  refine ⟨p.getLast hdel.ne_nil, hsplit.symm, ?_, ?_⟩
  · rw [lists_iff_viewAt hcolon, hsplit]
    exact hdel.shown
  · intro m hm
    rw [← hsplit] at hdeleted
    exact hdeleted.lists hm

/-- An upper directory that is opaque and has only markers, over a lower one. -/
def markedDirectory : Engine where
  upper := some (.node {} [(['d'], .node { opaqueStream := true }
    [(['.', 'w', 'h', '.', 'x'], .leaf .marker)])])
  lowers := [some (.node {} [(['d'], .node {} [(['a'], .leaf (.file 0))]), (['f'], .leaf (.file 0))])]
  files := [{ data := [1] }]

open AsciiCase

theorem delete_removes_entry_markedDirectory :
    deletePath ⟨[['d']]⟩ markedDirectory
        = (.ok (), (deletePath ⟨[['d']]⟩ markedDirectory).2) ∧
      viewAt (deletePath ⟨[['d']]⟩ markedDirectory).2 [['d'], ['a']] = none ∧
      viewAt (deletePath ⟨[['d']]⟩ markedDirectory).2 [['f']] = viewAt markedDirectory [['f']] := by
  have hrun : deletePath ⟨[['d']]⟩ markedDirectory
      = (.ok (), (deletePath ⟨[['d']]⟩ markedDirectory).2) := rfl
  obtain ⟨-, hgone, hkept, -⟩ := delete_removes_entry hrun rfl
  exact ⟨hrun, hgone [['a']], hkept [['f']] (by decide)⟩

end LayerMount
