import LayerMount.Delete
import LayerMount.MarkersView

/-!
# What a delete does to the view

`CanDelete` accepts a path that shows and that nothing shows below.  The steps after
it are the copy-up of a lower link above the path, the removal of the upper entry and
the whiteout; each has its specification here.
-/

namespace LayerMount

open Lib

variable {e f g : Engine} {d p q : RelPath} {n : Name}

/-! ## What `CanDelete` accepts -/

theorem found_iff_viewAt (hp : p ≠ []) :
    (resolvePath e.config p {}).1.found = true ↔ (viewAt e p).isSome = true := by
  rw [viewAt_eq e hp, resolvePath_eq e hp, Option.isSome_map]
  cases showAt e p with
  | none => simp [resultOf, ResolvedPath.found]
  | some x =>
    have hsource : (if x.lowerIndex.isNone then LayerSource.upper else .lower) ≠ .none := by
      split <;> decide
    simp only [resultOf, hitAt, ResolvedPath.found, hsource, Option.isSome_some, ne_eq,
      not_false_eq_true, decide_true, Bool.and_self]

/-- The tree of a layer has nothing at a `.` component. -/
theorem not_found_dot (e : Engine) (d : RelPath) :
    (resolvePath e.config (d ++ [['.']]) {}).1.found = false := by
  by_contra hfound
  rw [Bool.not_eq_false, found_iff_viewAt (by simp), viewAt_eq e (by simp), Option.isSome_map]
    at hfound
  obtain ⟨x, hx⟩ := Option.isSome_iff_exists.mp hfound
  obtain ⟨-, s, hs, hsub⟩ := exists_slot_of_showAt (by simp) hx
  obtain ⟨o, i, rfl⟩ := slot_of_mem_slotsAt hs
  rw [slotOf_sub, placeAt_snoc] at hsub
  simp [childAt, placeAt] at hsub

theorem isResolvablePath_of_viewAt (hp : p ≠ []) (h : (viewAt e p).isSome = true) :
    isResolvablePath e.config p = true := by
  rw [viewAt_eq e hp, Option.isSome_map] at h
  obtain ⟨x, hx⟩ := Option.isSome_iff_exists.mp h
  exact (exists_slot_of_showAt hp hx).1

theorem resolvedKind_of_viewAt (h : viewAt e p = some .directory) :
    resolvedKind e (resolvePath e.config p {}).1 = .directory := by
  rw [viewAt] at h
  split at h
  · obtain ⟨t, ht, hshown⟩ := Option.map_eq_some_iff.mp h
    simp only [resolvedKind, ht]
    exact shownOf_eq_directory_iff.mp hshown
  · cases h

/-- A directory that a merge lists nothing in shows nothing below. -/
theorem viewAt_none_of_empty (h : directoryEmptinessStatus e p = .ok ()) (n : Name) :
    viewAt e (p ++ [n]) = none := by
  by_contra hne
  have hsome : (viewAt e (p ++ [n])).isSome = true := Option.isSome_iff_ne_none.mpr hne
  have hres := isResolvablePath_of_viewAt (by simp) hsome
  have hfound := (found_iff_viewAt (by simp)).mpr hsome
  have hsafe : isSafeRelativePath (p ++ [n]) = true := by
    rw [isResolvablePath, Bool.and_eq_true] at hres
    exact hres.1
  obtain ⟨entries, hentries, hlist⟩ :=
    listedAt_eq_shown e.sound e.noRedirect hsafe fun hdot => hdot ▸ not_found_dot e p
  rw [directoryEmptinessStatus, hentries] at h
  cases entries with
  | nil =>
    rw [ResolvedPath.shown, if_pos hfound] at hlist
    cases hlist
  | cons x rest => cases h

/-- What `CanDelete` has checked. -/
structure Deletable (e : Engine) (p : RelPath) : Prop where
  ne_nil : p ≠ []
  shown : (viewAt e p).isSome = true
  empty : viewAt e p = some .directory → ∀ n, viewAt e (p ++ [n]) = none

theorem Deletable.resolvable (h : Deletable e p) : isResolvablePath e.config p = true :=
  isResolvablePath_of_viewAt h.ne_nil h.shown

theorem canDeleteEntry_ensures (hp : p ≠ []) (e : Engine) :
    (canDeleteEntry p).Ensures e fun r g => Looked e g ∧ (r = .ok () → Deletable e p ∧
      (viewAt e p = some .directory → directoryEmptinessStatus e p = .ok ())) := by
  refine Step.Ensures.bind (lookup_ensures p e) ?_ fun _ _ hf => by cases hf.1
  rintro resolved f ⟨hresolved, hf⟩
  obtain rfl : resolved = (resolvePath e.config p {}).1 := by simpa using hresolved
  apply Step.Ensures.get
  apply Step.Ensures.ite
  · exact fun _ => ⟨hf, fun h => by cases h⟩
  · intro hfound
    have hshown : (viewAt e p).isSome = true := (found_iff_viewAt hp).mp (by simpa using hfound)
    apply Step.Ensures.ite
    · exact fun _ => ⟨hf, fun h => by cases h⟩
    · intro _
      have hkind : resolvedKind f (resolvePath e.config p {}).1
          = resolvedKind e (resolvePath e.config p {}).1 := by
        rw [resolvedKind, resolvedKind, hf.resolvedAt]
      have hempty : directoryEmptinessStatus f p = directoryEmptinessStatus e p := by
        rw [directoryEmptinessStatus, directoryEmptinessStatus, hf.config]
      rw [hkind, hempty]
      apply Step.Ensures.ite
      · exact fun _ => ⟨hf, fun h =>
          ⟨⟨hp, hshown, fun _ => viewAt_none_of_empty h⟩, fun _ => h⟩⟩
      · intro hnot
        have hother : viewAt e p ≠ some .directory := fun hdir =>
          hnot (resolvedKind_of_viewAt hdir)
        exact ⟨hf, fun _ => ⟨⟨hp, hshown, fun hdir => absurd hdir hother⟩,
          fun hdir => absurd hdir hother⟩⟩

theorem canDelete_ensures [HostCase] (path : CallerPath) (e : Engine) :
    (canDelete path).Ensures e fun r g =>
      Looked e g ∧ ∀ p, r = .ok p → Deletable e p ∧ p = (viewPathOf path).norm ∧
        (viewAt e p = some .directory → directoryEmptinessStatus e p = .ok ()) := by
  refine Step.Ensures.bind (walkCallerPath_looked path .keep e) ?_ fun _ _ hf => by cases hf.1
  rintro view f ⟨hpath, hf⟩
  obtain rfl : view = viewPathOf path := by simpa using hpath
  apply Step.Ensures.ite
  · exact fun _ => ⟨hf, fun _ h => by cases h⟩
  · intro hparse
    have hp : (viewPathOf path).norm ≠ [] := by
      intro hnil
      rw [hnil] at hparse
      exact hparse rfl
    refine Step.Ensures.bind (canDeleteEntry_ensures hp f) ?_ ?_
    · rintro _ g ⟨hg, hdel⟩
      refine ⟨hf.trans hg, ?_⟩
      intro p hr
      obtain rfl : (viewPathOf path).norm = p := by simpa using hr
      obtain ⟨hdel, hempty⟩ := hdel rfl
      have hview : ∀ r, viewAt f r = viewAt e r := hf.toUntouched.viewAt
      rw [hview, directoryEmptinessStatus, hf.config] at hempty
      exact ⟨⟨hdel.ne_nil, by rw [← hview]; exact hdel.shown,
        fun h n => by rw [← hview] at h ⊢; exact hdel.empty h n⟩, rfl, hempty⟩
    · exact fun _ g hg => ⟨hf.trans hg.1, fun _ h => by cases h⟩

/-! ## The removal of the upper entry -/

/-- A name that a lookup accepts in a directory of the upper is no marker's, unless it is in
a link's target. -/
theorem plainAt_of_parent (hres : isResolvablePath e.config (d ++ [n]) = true)
    (hd : (e.upperAt d).isSome = true) (hdot : n ≠ ['.']) : PlainAt e d n := by
  refine ⟨hdot, ?_⟩
  rw [isResolvablePath_eq e (by simp), passes_snoc, Bool.and_eq_true, Bool.and_eq_true,
    nameShown, Bool.and_eq_true, Bool.or_eq_true] at hres
  rcases hres.2.2.2 with hn | hany
  · exact .inl (by simpa using hn)
  · obtain ⟨s, hs, hlink⟩ := List.any_eq_true.mp hany
    have hs : s ∈ slotsAt e d := hs
    rw [slotsAt_cons] at hs
    rcases List.mem_cons.mp hs with rfl | hs
    · exact .inr (by simpa using hlink)
    · exact absurd (by simpa using hlink) (stop_of_mem_lowersAt hs hd)

theorem isSome_of_leads (h : leadsToDirectory (e.upperAt d) = true) :
    (e.upperAt d).isSome = true := by
  cases hu : e.upperAt d with
  | none => rw [hu] at h; cases h
  | some t => rfl

/-- The upper's entry of a path that a lookup accepts is in a directory, and its name is
plain. -/
theorem plainAt_of_held (hres : isResolvablePath e.config (d ++ [n]) = true)
    (hheld : (e.upperAt (d ++ [n])).isSome = true) :
    PlainAt e d n ∧ leadsToDirectory (e.upperAt d) = true := by
  have hplace : e.upperAt (d ++ [n]) = childAt (e.upperAt d) n := placeAt_snoc e.upper d n
  rw [hplace] at hheld
  have hlead : leadsToDirectory (e.upperAt d) = true := by
    cases hu : e.upperAt d with
    | none => rw [hu] at hheld; simp [childAt] at hheld
    | some t =>
      cases t with
      | leaf v => rw [hu, childAt_leaf] at hheld; cases hheld
      | node v children => rfl
  refine ⟨plainAt_of_parent hres (isSome_of_leads hlead) ?_, hlead⟩
  rintro rfl
  simp [childAt, placeAt] at hheld

theorem isOpaqueUpper_of_stop (h : (slotOf e.upper none p).stop = .link) :
    isOpaqueUpper e p = false := by
  have hlink : findLinkOnPath e.upperLayer p ≠ .none := by
    rw [Engine.upperLayer, ne_eq, findLinkOnPath_eq_none_iff readable_ofTree,
      ← @slotOf_stop e.upper none e.files, not_not]
    exact h
  simp [isOpaqueUpper, isOpaqueInLayer, hlink]

/-- The removal of the opaque marker, where the upper's walk meets no link. -/
theorem removeOpaque_ensures {t : Tree} (ht : e.upperAt p = some t)
    (hmarks : isOpaqueUpper e p = true) :
    (WhiteoutManager.removeOpaque p).Ensures e fun r g => (∃ b, r = .ok b) ∧
      (g.fault = some (.removeEntry, 0) ↔ e.fault = some (.removeEntry, 0)) ∧
      (Untouched e g ∧ e.fault = some (.removeOpaqueMarkers, 0) ∨
        PutsAt e g p (some (WhiteoutManager.unmarkOpaqueNode t))) := by
  have hnone : findLinkOnPath e.upperLayer p = .none := by
    rw [isOpaqueUpper, isOpaqueInLayer, Bool.and_eq_true] at hmarks
    simpa using hmarks.2
  apply Step.Ensures.get
  rw [hnone, ht]
  by_cases hfault : e.fault = some (.removeOpaqueMarkers, 0)
  · refine Step.Ensures.attempt_bind (P := fun r g => (∃ status, r = .error status) ∧
      Untouched e g ∧ g.fault = none) ?_ ?_
    · have := diskStep_fails hfault
      refine ⟨this.1, this.2, ?_⟩
      simp [diskStep, hfault]
    · rintro _ f ⟨⟨status, rfl⟩, hf, hnofault⟩
      refine Step.Ensures.bind (invalidate_ensures p f) ?_ fun _ _ hg => by cases hg.1
      rintro _ g ⟨-, hg⟩
      apply Step.Ensures.pure
      refine ⟨⟨_, rfl⟩, ?_, .inl ⟨hf.trans hg.toUntouched, hfault⟩⟩
      rw [hg.fault, hnofault, hfault]
      simp
  · refine Step.Ensures.attempt_bind (diskStep_succeeds hfault) ?_
    rintro _ f ⟨rfl, hf, hkeep⟩
    refine Step.Ensures.bind (P := fun r g => r = .ok () ∧
      g = f.putUpper p (some (WhiteoutManager.unmarkOpaqueNode t))) ⟨rfl, rfl⟩ ?_
      fun _ _ hg => by cases hg.1
    rintro _ f' ⟨-, rfl⟩
    refine Step.Ensures.bind (invalidate_ensures p _) ?_ fun _ _ hg => by cases hg.1
    rintro _ g ⟨-, hg⟩
    apply Step.Ensures.pure
    refine ⟨⟨_, rfl⟩, ?_, .inr ?_⟩
    · rw [hg.fault]
      exact hkeep .removeEntry (by decide)
    · exact (hf.puts (putUpper_puts f p _)).untouched hg.toUntouched

theorem SameEntries.of_removed (h : PutsAt e g p none) : SameEntries (e.putUpper p none) g :=
  ⟨fun _ => by rw [h.upper]; rfl, h.lowers, h.files, h.host, h.undoFailed, h.contexts⟩

/-- The removal of an entry that is there fails only by the plan, and then leaves a part. -/
theorem removeUpperEntryOfKind_ensures {t : Tree} (ht : e.upperAt p = some t) :
    (removeUpperEntryOfKind p).Ensures e fun r g =>
      match r with
      | .ok _ => e.fault ≠ some (.removeEntry, 0) ∧ PutsAt e g p none
      | .error _ => e.fault = some (.removeEntry, 0) ∧
          PutsAt e g p (some (partlyRemoved e.host t)) := by
  by_cases hfault : e.fault = some (.removeEntry, 0)
  · refine Step.Ensures.attempt_bind (diskStep_fails hfault) ?_
    rintro _ f ⟨⟨status, rfl⟩, hf⟩
    refine Step.Ensures.bind (P := fun r g => r = .ok () ∧
      g = f.putUpper p ((f.upperAt p).map (partlyRemoved f.host))) ⟨rfl, rfl⟩ ?_
      fun _ _ hg => by cases hg.1
    rintro _ g ⟨-, rfl⟩
    refine ⟨hfault, ?_⟩
    rw [hf.upperAt, ht, hf.host]
    exact hf.puts (putUpper_puts f p _)
  · refine Step.Ensures.attempt_bind (diskStep_succeeds hfault) ?_
    rintro _ f ⟨rfl, hf, -⟩
    exact ⟨hfault, hf.puts (putUpper_puts f p none)⟩

/-- An entry whose opaque marker a delete removes first. -/
def unmarksFirst (e : Engine) (p : RelPath) (t : Tree) : Bool :=
  treeKind t ≠ .file && isOpaqueUpper e p

/-- What the upper has at `p` after a removal of the entry `t` that failed. -/
def leftOver (e : Engine) (p : RelPath) (t : Tree) : Tree :=
  partlyRemoved e.host (if unmarksFirst e p t then WhiteoutManager.unmarkOpaqueNode t else t)

/-- The marker and the entry go one after the other, and nothing brings back what is gone
when the entry stays. -/
theorem removeShownUpperEntry_ensures {t : Tree} (ht : e.upperAt p = some t)
    (hput : ∀ f t', PutsAt e f p (some t') → f.upperAt p = some t') :
    (removeShownUpperEntry p t).Ensures e fun r g =>
      match r with
      | .ok _ => e.fault ≠ some (.removeEntry, 0) ∧ PutsAt e g p none
      | .error _ => e.fault = some (.removeEntry, 0) ∧
          PutsAt e g p (some (leftOver e p t)) := by
  apply Step.Ensures.get
  apply Step.Ensures.ite
  · intro hmarked
    have hunmarks : unmarksFirst e p t = true := hmarked
    have hmarks : isOpaqueUpper e p = true := by
      rw [Bool.and_eq_true] at hmarked
      exact hmarked.2
    refine Step.Ensures.bind (removeOpaque_ensures ht hmarks) ?_ ?_
    · rintro _ f ⟨-, hfault, hf⟩
      rcases hf with ⟨hf, hother⟩ | hf
      · -- the markers stay, so the plan has no failure left
        refine (removeUpperEntryOfKind_ensures ((hf.upperAt p).trans ht)).mono ?_
        intro r g hg
        cases r with
        | ok _ => exact ⟨fun h => hg.1 (hfault.mpr h), hf.puts hg.2⟩
        | error _ =>
          rw [hfault.mp hg.1] at hother
          cases hother
      · refine (removeUpperEntryOfKind_ensures (hput f _ hf)).mono ?_
        intro r g hg
        cases r with
        | ok _ => exact ⟨fun h => hg.1 (hfault.mpr h), hf.again hg.2⟩
        | error _ =>
          refine ⟨hfault.mp hg.1, ?_⟩
          rw [leftOver, if_pos hunmarks, ← hf.host]
          exact hf.again hg.2
    · rintro _ f ⟨⟨b, h⟩, -⟩
      cases h
  · intro hplain
    refine (removeUpperEntryOfKind_ensures ht).mono ?_
    intro r g hg
    cases r with
    | ok _ => exact hg
    | error _ =>
      rw [leftOver, if_neg (show ¬unmarksFirst e p t = true from hplain)]
      exact hg

theorem invalidatingOnFailure_ensures {m : Op Unit} {Q : Except NtStatus Unit → Engine → Prop}
    (h : m.Ensures e Q) (hlooked : ∀ status f g, Q (.error status) f → Looked f g →
      Q (.error status) g) : (invalidatingOnFailure p m).Ensures e Q := by
  refine Step.Ensures.attempt_bind h ?_
  intro r f hf
  cases r with
  | ok _ => exact hf
  | error status =>
    refine Step.Ensures.bind (invalidateWithAncestors_ensures p f) ?_ fun _ _ hg => by cases hg.1
    rintro _ g ⟨-, hg⟩
    exact hlooked status f g hf hg

/-! ## The whiteout -/

/-- Where the parent is in the upper, a whiteout is the marker alone, and one that cannot be
written changes nothing. -/
theorem createWhiteout_held (h : ParentHeld e p) :
    (WhiteoutManager.createWhiteout p).Ensures e fun r g =>
      match r with
      | .ok _ => isInLinkTarget e.config p.dropLast = false ∧
          leadsToDirectory (e.upperAt p.dropLast) = true ∧
          PutsAt e g (getWhiteoutFileName p) (some (.leaf .marker))
      | .error _ => Untouched e g := by
  apply Step.Ensures.get
  cases hlink : (findLinkInView e.config p.dropLast).stop with
  | link =>
    simp only [WhiteoutManager.markerDirectoryStatus, hlink]
    exact Untouched.refl e
  | unreadable =>
    simp only [WhiteoutManager.markerDirectoryStatus, hlink]
    exact Untouched.refl e
  | none =>
    have hnone : isInLinkTarget e.config p.dropLast = false := by
      simp [isInLinkTarget, hlink]
    have hdirectory : (getWhiteoutFileName p).dropLast = p.dropLast := by
      rw [getWhiteoutFileName, List.dropLast_concat]
    simp only [WhiteoutManager.markerDirectoryStatus, hlink]
    refine Step.Ensures.bind (P := fun r g => r = .ok () ∧ g = e) ⟨rfl, rfl⟩ ?_
      fun _ _ hg => by cases hg.1
    rintro _ f ⟨-, rfl⟩
    refine Step.Ensures.bind (ensureDirectoryExists_held h) ?_ fun _ _ hf => by cases hf.1
    rintro _ f' ⟨-, hf'⟩
    refine Step.Ensures.bind (createHiddenMarkerFile_ensures (getWhiteoutFileName p) f') ?_ ?_
    · rintro _ g ⟨hlead, hputs⟩
      refine (invalidateWithAncestors_ensures p g).mono fun r g' hg' => ?_
      rw [hg'.1]
      rw [hdirectory, hf'.upperAt] at hlead
      exact ⟨hnone, hlead, (hf'.puts hputs).untouched hg'.2.toUntouched⟩
    · exact fun _ g hg => hf'.trans hg

/-! ## Both together -/

/-- The end of `Remove`: the whiteout for what a lower holds, and the cache. -/
theorem removeTail_ensures {lowerHasIt : Bool} {Q : Except NtStatus Unit → Engine → Prop}
    (hlower : lowerHasIt = true → (WhiteoutManager.createWhiteout p).Ensures e Q)
    (hnone : lowerHasIt = false → Q (.ok ()) e)
    (hlooked : ∀ r f g, Q r f → Looked f g → Q r g) :
    (if lowerHasIt = true then do
        invalidatingOnFailure p (WhiteoutManager.createWhiteout p)
        invalidateWithAncestors p
      else invalidateWithAncestors p : Op Unit).Ensures e Q := by
  have hend : ∀ f, Q (.ok ()) f → (invalidateWithAncestors p).Ensures f Q := by
    intro f hf
    refine (invalidateWithAncestors_ensures p f).mono fun r g hg => ?_
    rw [hg.1]
    exact hlooked _ f g hf hg.2
  apply Step.Ensures.ite
  · intro hheld
    have hwhiteout := invalidatingOnFailure_ensures (p := p) (hlower hheld)
      fun status f g => hlooked (.error status) f g
    exact Step.Ensures.bind hwhiteout (fun _ f hf => hend f hf) fun _ _ hf => hf
  · exact fun hfree => hend e (hnone (by simpa using hfree))

theorem SameEntries.parentHeld (h : SameEntries e g) (hp : ParentHeld e p) : ParentHeld g p :=
  h.raised.parentHeld hp

theorem parentHeld_of_leads {t : Place} (h : leadsToDirectory (e.upperAt d) = true)
    (hputs : PutsAt e g (d ++ [n]) t) : ParentHeld g (d ++ [n]) := by
  right
  rw [List.dropLast_concat, hputs.isSome_upperAt PutsAt.not_prefix_self]
  cases hu : e.upperAt d with
  | none => rw [hu] at h; cases h
  | some t => rfl

/-- A failed removal of a path that the upper holds. -/
theorem remove_held {t : Tree} (hres : isResolvablePath e.config (d ++ [n]) = true)
    (ht : e.upperAt (d ++ [n]) = some t) :
    (UpperEntryRemover.remove (d ++ [n])).Ensures e fun r g => ∀ status, r = .error status →
      if e.fault = some (.removeEntry, 0) then
        PutsAt e g (d ++ [n]) (some (leftOver e (d ++ [n]) t))
      else SameEntries (e.putUpper (d ++ [n]) none) g := by
  obtain ⟨hplain, hlead⟩ := plainAt_of_held hres (by rw [ht]; rfl)
  refine Step.Ensures.bind (lookup_ensures (d ++ [n]) e) ?_ fun _ _ hf => by cases hf.1
  rintro _ f ⟨-, hf⟩
  apply Step.Ensures.get
  rw [hf.upperAt, ht, hf.config]
  have hlead' : leadsToDirectory (f.upperAt d) = true := by rw [hf.upperAt, hlead]
  have hremoved := removeShownUpperEntry_ensures ((hf.upperAt (d ++ [n])).trans ht)
    fun k t' hk => hk.upperAt hlead' hplain.1
  have hleft : leftOver f (d ++ [n]) t = leftOver e (d ++ [n]) t := by
    rw [leftOver, leftOver, unmarksFirst, unmarksFirst, isOpaqueUpper, isOpaqueUpper,
      Engine.upperLayer, Engine.upperLayer, hf.upper, hf.files, hf.host]
  rw [hleft, hf.fault] at hremoved
  refine Step.Ensures.bind (invalidatingOnFailure_ensures hremoved ?_) ?_ ?_
  · exact fun status f' g hf' hg => ⟨hf'.1, hf'.2.untouched hg.toUntouched⟩
  · rintro _ f' ⟨hplan, hputs⟩
    have hentries : SameEntries (e.putUpper (d ++ [n]) none) f' :=
      .of_removed (hf.toUntouched.puts hputs)
    have hheld : ParentHeld f' (d ++ [n]) :=
      hentries.parentHeld (parentHeld_of_leads hlead (putUpper_puts e (d ++ [n]) none))
    simp only [if_neg hplan]
    refine removeTail_ensures ?_ ?_ ?_
    · refine fun _ => (createWhiteout_held hheld).mono fun r g h status hr => ?_
      subst hr
      exact hentries.trans h.sameEntries
    · exact fun _ _ h => by cases h
    · exact fun _ _ _ hQ hlook status hr => (hQ status hr).trans hlook.toUntouched.sameEntries
  · rintro status f' ⟨hplan, hstate⟩ _ -
    rw [if_pos hplan]
    exact hf.toUntouched.puts hstate

/-- A failed removal of a path that the upper does not hold keeps what shows.  Of one that
it holds in a link's target it leaves what the removal of the entry leaves. -/
theorem remove_raised (hp : p ≠ []) (hview : (viewAt e p).isSome = true)
    (h : e.upperAt p = none ∨ (slotOf e.upper none p.dropLast).stop = .link) :
    (UpperEntryRemover.remove p).Ensures e fun r g => ∀ status, r = .error status →
      Raised e g ∨ ∃ t, e.upperAt p = some t ∧
        PutsAt e g p (some (partlyRemoved e.host t)) := by
  obtain ⟨d, n, rfl⟩ : ∃ d n, p = d ++ [n] := ⟨_, _, (List.dropLast_append_getLast hp).symm⟩
  refine Step.Ensures.bind (lookup_ensures (d ++ [n]) e) ?_ fun _ _ hf => by cases hf.1
  rintro _ f ⟨-, hf⟩
  apply Step.Ensures.get
  rw [hf.upperAt, hf.config]
  cases ht : e.upperAt (d ++ [n]) with
  | none =>
    have hview' : (viewAt f (d ++ [n])).isSome = true := by
      rw [hf.toUntouched.raised.view]
      exact hview
    refine removeTail_ensures ?_ (fun _ _ h => by cases h) ?_
    · refine fun _ => (createWhiteout_ensures hp hview').mono fun r g hg status hr => ?_
      rw [hr] at hg
      exact .inl (hf.toUntouched.raised.trans hg)
    · rintro _ _ _ hQ hlook status hr
      rcases hQ status hr with hraised | ⟨t, ht', -⟩
      · exact .inl (hraised.trans hlook.toUntouched.raised)
      · cases ht'
  | some t =>
    have hstop : (slotOf e.upper none d).stop = .link := by
      rcases h with h | h
      · rw [h] at ht
        cases ht
      · rwa [List.dropLast_concat] at h
    have hlower : (resolveLowerPath e.config (d ++ [n])).found = false := by
      rw [resolveLowerPath_eq, lowersOf, lowersAt_of_stop (by rw [hstop]; decide),
        Overlay.descendFrom, Overlay.look, ite_self]
      rfl
    have hplain : unmarksFirst f (d ++ [n]) t = false := by
      have hbelow : (slotOf f.upper none (d ++ [n])).stop = .link := by
        rw [hf.upper, slotOf_append, stop_foldl_child (by rw [hstop]; decide), hstop]
      rw [unmarksFirst, isOpaqueUpper_of_stop hbelow, Bool.and_false]
    have hres : isResolvablePath e.config (d ++ [n]) = true := isResolvablePath_of_viewAt hp hview
    obtain ⟨hat, hlead⟩ := plainAt_of_held hres (by rw [ht]; rfl)
    have hlead' : leadsToDirectory (f.upperAt d) = true := by rw [hf.upperAt, hlead]
    have hremoved := removeShownUpperEntry_ensures ((hf.upperAt (d ++ [n])).trans ht)
      fun k t' hk => hk.upperAt hlead' hat.1
    rw [leftOver, hplain, if_neg (by decide), hf.host] at hremoved
    rw [hlower]
    refine Step.Ensures.bind (invalidatingOnFailure_ensures hremoved ?_) ?_ ?_
    · exact fun _ _ _ hf' hg => ⟨hf'.1, hf'.2.untouched hg.toUntouched⟩
    · intro _ f' _
      exact removeTail_ensures (fun h => by cases h) (fun _ _ h => by cases h)
        fun _ _ _ hQ hlook status hr => by
          rcases hQ status hr with hraised | ⟨t', ht', hputs⟩
          · exact .inl (hraised.trans hlook.toUntouched.raised)
          · exact .inr ⟨t', ht', hputs.untouched hlook.toUntouched⟩
    · exact fun _ f' hf' _ _ => .inr ⟨t, rfl, hf.toUntouched.puts hf'.2⟩

end LayerMount
