import LayerMount.MovedSubtree

/-!
# Before and after the move of a rename

`Ready` is what a rename relies on when it moves the entry, whatever copies it has made on the
way: outside the new path the view is the one before, and the two parents are both in a link's
target or both outside.  `Taken` is the state after the move.  The whiteout of the old path
turns it into the end of the rename (`TakenUp.whiteOut`, `TakenBelow.whiteOut`), and where no
lower shows an entry none is needed (`TakenUp.of_unfound`).
-/

namespace LayerMount

open Lib

variable {e f g k : Engine} {c d p q : RelPath} {m n : Name} {t t' : Tree}

/-! ## Before the move -/

/-- Before the parent of the new path is raised.  What the checks say of the links holds when
that parent leads to a directory. -/
structure SetOff (e k : Engine) (p q : RelPath) : Prop where
  wf : k.Wf
  view : ∀ r, ¬q <+: r → viewAt k r = viewAt e r
  lowers : k.lowers = e.lowers
  resolvable : isResolvablePath k.config q = true
  links : ParentLeads k q →
    isInLinkTarget k.config p.dropLast = isInLinkTarget k.config q.dropLast
  unlinked : ParentLeads k q → k.upperAt p = none → isInLinkTarget k.config p.dropLast = false

/-- Before the entry moves: the parent of the new path shows a directory. -/
structure Ready (e k : Engine) (p q : RelPath) : Prop where
  wf : k.Wf
  view : ∀ r, ¬q <+: r → viewAt k r = viewAt e r
  lowers : k.lowers = e.lowers
  resolvable : isResolvablePath k.config q = true
  shows : q.dropLast = [] ∨ ShowsDirectory k q.dropLast
  links : isInLinkTarget k.config p.dropLast = isInLinkTarget k.config q.dropLast
  unlinked : k.upperAt p = none → isInLinkTarget k.config p.dropLast = false

theorem SetOff.ready (h : SetOff e k p q) (hleads : ParentLeads k q) : Ready e k p q :=
  ⟨h.wf, h.view, h.lowers, h.resolvable, hleads.shows, h.links hleads, h.unlinked hleads⟩

theorem Ready.untouched (h : Ready e k p q) (hk : Untouched k g) : Ready e g p q where
  wf := hk.raised.wf h.wf
  view r hr := (hk.viewAt r).trans (h.view r hr)
  lowers := hk.lowers.trans h.lowers
  resolvable := by rw [hk.config]; exact h.resolvable
  shows := h.shows.imp_right hk.raised.showsDirectory
  links := by rw [hk.config]; exact h.links
  unlinked hnone := by rw [hk.config]; exact h.unlinked (by rw [← hk.upperAt, hnone])

section Ready

variable (h : Ready e k (c ++ [m]) (d ++ [n])) (hapart : Apart (c ++ [m]) (d ++ [n]))
  (hview : (viewAt e (c ++ [m])).isSome = true)

include h hapart hview

theorem Ready.viewAt_old : (viewAt k (c ++ [m])).isSome = true := by
  rw [h.view _ hapart.2]
  exact hview

/-- A change that the view does not show. -/
theorem Ready.of_view (hg : ∀ r, viewAt g r = viewAt k r) (hlowers : g.lowers = k.lowers)
    (hwf : g.Wf) (hfree : g.upperAt (c ++ [m]) = none → k.upperAt (c ++ [m]) = none) :
    Ready e g (c ++ [m]) (d ++ [n]) := by
  have hold := h.viewAt_old hapart hview
  have hshows := h.shows
  have hlinks := h.links
  have hunlinked := h.unlinked
  rw [List.dropLast_concat] at hshows
  rw [List.dropLast_concat, List.dropLast_concat] at hlinks
  rw [List.dropLast_concat] at hunlinked
  have hc := isInLinkTarget_congr (parent_shows hold) fun x _ => hg x
  have hd := isInLinkTarget_congr hshows fun x _ => hg x
  refine ⟨hwf, fun r hr => (hg r).trans (h.view r hr), hlowers.trans h.lowers,
    isResolvablePath_congr hshows (fun x _ => hg x) h.resolvable, ?_, ?_, ?_⟩
  · rw [List.dropLast_concat]
    refine hshows.imp_right fun hd => ?_
    rw [ShowsDirectory, hg]
    exact hd
  · rw [List.dropLast_concat, List.dropLast_concat, hc, hd, hlinks]
  · intro hnone
    rw [List.dropLast_concat, hc]
    exact hunlinked (hfree hnone)

/-- More copies change nothing that the move relies on. -/
theorem Ready.raised (hk : Raised k g) : Ready e g (c ++ [m]) (d ++ [n]) := by
  refine h.of_view hapart hview hk.view hk.lowers (hk.wf h.wf) fun hnone => ?_
  by_contra hheld
  have := hk.grows _ (Option.isSome_iff_ne_none.mpr hheld)
  rw [hnone] at this
  cases this

end Ready

/-- The upper's entry of a path that a lookup accepts is what the lookup finds. -/
theorem resolvedAt_of_held (hp : p ≠ []) (hres : isResolvablePath e.config p = true)
    (ht : e.upperAt p = some t) :
    (resolvePath e.config p {}).1.found = true ∧
      e.resolvedAt (resolvePath e.config p {}).1 = some t := by
  have hplace : placeAt e.upper p = some t := ht
  have hshow : showAt e p = some ⟨none, (layerEntry e.files t).attributes,
      shownOf e.files ((slotOf e.upper none p).stop ≠ .link) t⟩ := by
    rw [showAt_eq e hp, if_pos hres, slotsAt_cons, Overlay.look]
    simp [treeOverlay, hplace]
  rw [resolvePath_eq e hp, hshow]
  exact ⟨rfl, ht⟩

/-- When `EnsureUpperParent` succeeds, the parent leads to a directory. -/
theorem ensureUpperParent_leads (hres : isResolvablePath e.config (d ++ [n]) = true) :
    (CopyUp.ensureUpperParent (d ++ [n])).Ensures e fun r _ =>
      r = .ok () → ParentLeads e (d ++ [n]) := by
  have hdrop : (d ++ [n]).dropLast = d := List.dropLast_concat
  apply Step.Ensures.ite
  · exact fun hroot _ => .inl (by simpa using hroot)
  · intro hroot
    have hroot : d ≠ [] := by
      rw [hdrop] at hroot
      simpa using hroot
    apply Step.Ensures.get
    rw [hdrop]
    cases hu : e.upperAt d with
    | some t =>
      apply Step.Ensures.ite
      · intro hleads _
        have hres' := isResolvablePath_above hroot (List.prefix_append d [n]) hres
        obtain ⟨hfound, hat⟩ := resolvedAt_of_held hroot hres' hu
        right
        rw [hdrop, CopyUp.shownLeadsToDirectory, hfound, hat, Bool.true_and]
        exact hleads
      · exact fun _ h => by cases h
    | none =>
      refine Step.Ensures.bind (lookup_ensures d e) ?_ fun _ _ hf => by cases hf.1
      rintro shown f ⟨hshown, hf⟩
      obtain rfl : shown = (resolvePath e.config d {}).1 := by simpa using hshown
      apply Step.Ensures.get
      apply Step.Ensures.ite
      · exact fun _ h => by cases h
      · intro hleads
        refine Step.Ensures.mono (P := fun _ _ => True) trivial fun _ _ _ _ => .inr ?_
        rw [hdrop]
        rw [Bool.not_eq_true', Bool.not_eq_false, CopyUp.shownLeadsToDirectory, hf.resolvedAt]
          at hleads
        exact hleads

/-- The parent of the new path goes to the upper. -/
theorem ensureUpperParent_ready (h : SetOff e k (c ++ [m]) (d ++ [n]))
    (hapart : Apart (c ++ [m]) (d ++ [n])) (hview : (viewAt e (c ++ [m])).isSome = true) :
    (CopyUp.ensureUpperParent (d ++ [n])).Yields k fun _ g =>
      ParentLeads k (d ++ [n]) ∧ Ready e g (c ++ [m]) (d ++ [n]) ∧ Climbs k g d ∧
        ParentHeld g (d ++ [n]) := by
  have hleads := ensureUpperParent_leads h.resolvable
  have hclimbs := ensureUpperParentWith_climbs copyUpDirectory_climbs (d ++ [n]) k
  rw [List.dropLast_concat] at hclimbs
  have hheld := ensureUpperParentWith_raised copyUpDirectory_raised (d ++ [n]) k
  intro _ hr
  have hready := h.ready (hleads hr)
  exact ⟨hleads hr, hready.raised hapart hview hclimbs.raised, hclimbs, hheld.2 _ hr⟩

/-! ## The old path goes -/

/-- What a rename does to the view. -/
structure Renamed (e g : Engine) (p q : RelPath) : Prop where
  moved : ∀ r, viewAt g (q ++ r) = viewAt e (p ++ r)
  gone : ∀ r, viewAt g (p ++ r) = none
  kept : ∀ r, ¬p <+: r → ¬q <+: r → viewAt g r = viewAt e r
  lowers : g.lowers = e.lowers

theorem Renamed.untouched (h : Renamed e f p q) (hg : Untouched f g) : Renamed e g p q where
  moved r := (hg.viewAt _).trans (h.moved r)
  gone r := (hg.viewAt _).trans (h.gone r)
  kept r hp hq := (hg.viewAt r).trans (h.kept r hp hq)
  lowers := hg.lowers.trans h.lowers

/-- The rename is done but for the whiteout of the new path. -/
structure RenamedTo (e g : Engine) (p d : RelPath) (n : Name) : Prop
    extends Renamed e g p (d ++ [n]) where
  settled : ∃ f t, Settled f g d n t

/-- The tree `t` is at the new path, and the upper has nothing at the old one any more.  `k` is
the state that the tree was put into. -/
structure Taken (e k g : Engine) (c : RelPath) (m : Name) (d : RelPath) (n : Name) (t : Tree) :
    Prop where
  ready : Ready e k (c ++ [m]) (d ++ [n])
  parent : leadsToDirectory (k.upperAt d) = true
  ne_dot : n ≠ ['.']
  shows : ∀ r, shownAlone k.files (slotOf k.upper none d).stop t r = viewAt e (c ++ [m] ++ r)
  settled : Settled k g d n t

namespace Taken

variable (h : Taken e k g c m d n t)

include h

theorem plainAt : PlainAt k d n :=
  plainAt_of_parent h.ready.resolvable (isSome_of_leads h.parent) h.ne_dot

/-- A path that was deleted after the tree was put is a path that was renamed. -/
theorem renamedTo (hdel : Deleted (k.putUpper (d ++ [n]) (some t)) g (c ++ [m])) :
    RenamedTo e g (c ++ [m]) d n where
  moved r := (h.settled.viewAt r).trans (h.shows r)
  gone := hdel.gone
  kept r hp hq := by
    rw [hdel.kept r hp, (putUpper_puts k (d ++ [n]) (some t)).viewAt h.plainAt hq,
      h.ready.view r hq]
  lowers := hdel.lowers.trans h.ready.lowers
  settled := ⟨k, t, h.settled⟩

end Taken

/-- The old path in the state with both entries. -/
theorem Ready.plain_old (h : Ready e k (c ++ [m]) (d ++ [n])) (hapart : Apart (c ++ [m]) (d ++ [n]))
    (hview : (viewAt e (c ++ [m])).isSome = true) (hplain : PlainAt k d n)
    (hheld : (k.upperAt (c ++ [m])).isSome = true) (t : Tree) :
    PlainAt (k.putUpper (d ++ [n]) (some t)) c m ∧
      leadsToDirectory ((k.putUpper (d ++ [n]) (some t)).upperAt c) = true := by
  have hputs := putUpper_puts k (d ++ [n]) (some t)
  have hres : isResolvablePath k.config (c ++ [m]) = true :=
    isResolvablePath_of_viewAt (by simp) (h.viewAt_old hapart hview)
  refine plainAt_of_held ?_ ?_
  · rw [← (hputs.sameAlong (f := id) hplain hapart.2).isResolvablePath (by simp)]
    exact hres
  · rw [hputs.isSome_upperAt hapart.2]
    exact hheld

/-- The upper held the old path, and holds it no more. -/
structure TakenUp (e k g : Engine) (c : RelPath) (m : Name) (d : RelPath) (n : Name) (t : Tree) :
    Prop extends Taken e k g c m d n t where
  held : (k.upperAt (c ++ [m])).isSome = true
  entries : SameEntries ((k.putUpper (d ++ [n]) (some t)).putUpper (c ++ [m]) none) g

/-- The upper did not hold the old path, and a lower showed it. -/
structure TakenBelow (e k g : Engine) (c : RelPath) (m : Name) (d : RelPath) (n : Name)
    (t : Tree) : Prop extends Taken e k g c m d n t where
  free : k.upperAt (c ++ [m]) = none
  covers : (treeOverlay []).covers (slotIn none (slotOf k.upper none d).stop (some t)) = true
  entries : SameEntries (k.putUpper (d ++ [n]) (some t)) g

namespace TakenUp

variable (h : TakenUp e k g c m d n t) (hapart : Apart (c ++ [m]) (d ++ [n]))
  (hview : (viewAt e (c ++ [m])).isSome = true)

include h hapart hview

theorem of_unfound (hnone : Unfound k c m) : RenamedTo e g (c ++ [m]) d n := by
  obtain ⟨hplain, hlead⟩ := h.ready.plain_old hapart hview h.plainAt h.held t
  have hsame : SameBelow k (k.putUpper (d ++ [n]) (some t)) c m :=
    (putUpper_puts k (d ++ [n]) (some t)).sameBelow_apart h.plainAt hapart
  exact h.renamedTo (deleted_of_taken hplain hlead h.entries (hsame.unfound hnone))

theorem whiteOut : (WhiteoutManager.createWhiteout (c ++ [m])).Yields g fun _ g' =>
    RenamedTo e g' (c ++ [m]) d n := by
  obtain ⟨hplain, hlead⟩ := h.ready.plain_old hapart hview h.plainAt h.held t
  refine (whiteout_deletes_taken hplain hlead h.entries).mono fun r g' hg' a hr => ?_
  obtain ⟨hdel, hputs, hlink, hname⟩ := hg' hr
  have hsettled := h.settled.whitedOut hputs hapart.symm hlink hname
  exact Taken.renamedTo ⟨h.ready, h.parent, h.ne_dot, h.shows, hsettled⟩ hdel

end TakenUp

/-! ## A whiteout where the upper has no parent -/

/-- The directories that are made on the way to `d` keep every entry that was there, and every
entry that is not on the way. -/
theorem makeDirectories_entryAt (rest : RelPath) :
    ∀ (walked : RelPath) (o : Place) (r : RelPath),
      ¬r <+: walked ++ rest ∨ (placeAt o r).isSome = true →
      entryAt (makeDirectories o walked rest) r = entryAt o r := by
  induction rest with
  | nil => exact fun _ _ _ _ => rfl
  | cons x rest ih =>
    intro walked o r h
    have hassoc : walked ++ x :: rest = walked ++ [x] ++ rest := by simp
    rw [hassoc] at h
    rw [makeDirectories]
    cases hx : placeAt o (walked ++ [x]) with
    | some t => exact ih (walked ++ [x]) o r h
    | none =>
      dsimp only
      split
      · rename_i hlead
        have hsame : entryAt (PathTree.put o (walked ++ [x]) (some (.node {} []))) r
        = entryAt o r := by
          by_cases hpre : walked ++ [x] <+: r
          · obtain ⟨y, rfl⟩ := hpre
            have hnone : placeAt o (walked ++ [x] ++ y) = none := by
              rw [placeAt_append, hx, placeAt_none]
            cases y with
            | nil =>
              rw [List.append_nil] at h hnone
              rw [hnone] at h
              exact absurd (List.prefix_append _ rest) (h.resolve_right (by simp))
            | cons z zs =>
              rw [entryAt, entryAt, hnone]
              by_cases hdot : x = ['.']
              · simp [placeAt, hdot]
              · have hempty : placeAt (some (.node {} [] : Tree)) (z :: zs) = none := by
                  simp [placeAt, PathTree.sub_cons, PathTree.child]
                rw [placeAt_put hlead hdot, hempty]
          · exact entryAt_put_elsewhere hpre _
        rw [ih (walked ++ [x]) _ r (h.imp_right fun hs => ?_), hsame]
        rw [← isSome_entryAt, hsame, isSome_entryAt]
        exact hs
      · rfl

/-- `CreateWhiteout` leaves every entry that is not on the way to the marker. -/
theorem createWhiteout_keeps (c : RelPath) (m : Name) (e : Engine) :
    (WhiteoutManager.createWhiteout (c ++ [m])).Yields e fun _ g =>
      isInLinkTarget e.config c = false ∧ g.files = e.files ∧
        ∀ r, ¬c ++ [whiteoutName m] <+: r → ¬r <+: c ∨ (e.upperAt r).isSome = true →
          entryAt g.upper r = entryAt e.upper r := by
  apply Step.Yields.get
  rw [List.dropLast_concat]
  have hdirs : (ensureDirectoryExists c).Yields e fun _ f => f.files = e.files ∧
      ∀ r, ¬r <+: c ∨ (e.upperAt r).isSome = true → entryAt f.upper r = entryAt e.upper r := by
    refine Step.Ensures.attempt_bind (diskStep_ensures .createDirectories e) ?_
    intro r f hf
    have hkept : ∀ r, entryAt f.upper r = entryAt e.upper r := fun r => by rw [hf.upper]
    cases r with
    | error _ => exact fun _ _ => ⟨hf.files, fun r _ => hkept r⟩
    | ok _ =>
      refine fun _ _ => ⟨hf.files, fun r hr => ?_⟩
      rw [← hkept r]
      refine makeDirectories_entryAt c [] f.upper r (hr.imp_right fun hs => ?_)
      rw [hf.upper]
      exact hs
  cases hlink : (findLinkInView e.config c).stop with
  | link => simp only [WhiteoutManager.markerDirectoryStatus, hlink]; exact fun _ h => by cases h
  | unreadable =>
    simp only [WhiteoutManager.markerDirectoryStatus, hlink]
    exact fun _ h => by cases h
  | none =>
    have hnone : isInLinkTarget e.config c = false := by simp [isInLinkTarget, hlink]
    simp only [WhiteoutManager.markerDirectoryStatus, hlink]
    refine Step.Yields.bind (P := fun _ g => g = e) (fun _ _ => rfl) ?_
    rintro _ _ rfl
    refine Step.Yields.bind hdirs ?_
    rintro _ f ⟨hfiles, hentries⟩
    refine Step.Yields.bind ((createHiddenMarkerFile_ensures (getWhiteoutFileName (c ++ [m])) f).yields
      fun _ _ h => h.2) ?_
    intro _ f' hputs
    rw [getWhiteoutFileName_append] at hputs
    refine (invalidateWithAncestors_ensures _ f').yields fun _ g hg => ⟨hnone, ?_, fun r hr hx => ?_⟩
    · rw [hg.2.files, hputs.files, hfiles]
    · rw [hg.2.upper, hputs.upper, entryAt_put_elsewhere hr, hentries r hx]

theorem TakenBelow.whiteOut (h : TakenBelow e k g c m d n t)
    (hapart : Apart (c ++ [m]) (d ++ [n])) (hview : (viewAt e (c ++ [m])).isSome = true) :
    (WhiteoutManager.createWhiteout (c ++ [m])).Yields g fun _ g' =>
      RenamedTo e g' (c ++ [m]) d n := by
  have hputs := putUpper_puts k (d ++ [n]) (some t)
  have hshown : (viewAt g (c ++ [m])).isSome = true := by
    rw [h.entries.viewAt, hputs.viewAt h.plainAt hapart.2]
    exact h.ready.viewAt_old hapart hview
  have hfree : g.upperAt (c ++ [m]) = none := by
    have hsome := h.entries.isSome_upperAt (c ++ [m])
    rw [hputs.isSome_upperAt hapart.2, h.free] at hsome
    simpa using hsome
  refine ((createWhiteout_deletes hshown hfree).and (createWhiteout_keeps c m g)).mono
    fun r g' hg' a hr => ?_
  obtain ⟨hlink, hfiles, hkeeps⟩ := hg'.2 a hr
  have hdel := hg'.1 hr
  have hboth := h.settled.apart_whiteout hapart.symm hlink
  have hstop : (slotOf g'.upper none d).stop = (slotOf g.upper none d).stop := by
    have hheld := isSome_of_leads h.settled.plainAt.2
    refine slotOf_stop_of_entries fun a ha => hkeeps a (fun hpre => ?_) (.inr (held_above ha hheld))
    exact hboth.2 ((hpre.trans ha).trans (List.prefix_append d [n]))
  have hshows : d = [] ∨ ShowsDirectory g d := by
    have hparent := h.ready.shows
    rw [List.dropLast_concat] at hparent
    refine hparent.imp_right fun hd => ?_
    rw [ShowsDirectory, h.entries.viewAt, hputs.viewAt h.plainAt PutsAt.not_prefix_self]
    exact hd
  have hsettled : Settled k g' d n t := by
    refine ⟨fun x => ?_, hstop.trans h.settled.stop, hfiles.trans h.settled.files, ?_, .inl ?_⟩
    · rw [hkeeps _ (hboth.not_below x) (.inl fun hpre => ?_), h.settled.entries]
      exact hapart.2 (((List.prefix_append _ x).trans hpre).trans (List.prefix_append c [m]))
    · exact isResolvablePath_congr hshows (fun a ha => hdel.kept a fun hpre =>
        hapart.not_above (hpre.trans ha)) h.settled.resolvable
    · rw [hstop, h.settled.stop]
      exact h.covers
  refine Taken.renamedTo ⟨h.ready, h.parent, h.ne_dot, h.shows, hsettled⟩
    (hdel.of_kept (fun r _ => h.entries.viewAt r) h.entries.lowers ?_)
  rw [h.entries.files]

end LayerMount
