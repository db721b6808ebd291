import LayerMount.RenameChecks
import LayerMount.UpperTree

/-!
# A subtree that moves in the upper

A rename puts a tree at the new path and then deletes the old one.  `Settled` is what every
step after the first keeps of the new entry: the entries below it, and that no lower shows
through.  The old path goes as a deleted one does, with a whiteout where a lower shows an
entry (`whiteout_deletes_taken`) and without where none does (`deleted_of_taken`).
`moveUpperEntry_ensures` is the move itself, with the way back when the records stay behind.
-/

namespace LayerMount

open Lib

variable {e f g k : Engine} {c d p q r : RelPath} {m n : Name} {t t' : Tree}

/-! ## Links above a directory -/

/-- Whether a lookup accepts a name in a directory is in the view. -/
theorem isResolvablePath_congr (hd : d = [] ∨ ShowsDirectory e d)
    (hview : ∀ c, c <+: d → viewAt g c = viewAt e c)
    (hres : isResolvablePath e.config (d ++ [n]) = true) :
    isResolvablePath g.config (d ++ [n]) = true := by
  have hlink := isInLinkTarget_congr hd hview
  rw [isInLinkTarget_eq, isInLinkTarget_eq] at hlink
  have hparent : passes g.files ((treeOverlay g.files).cut (treeStack g)) d = true := by
    by_cases hroot : d = []
    · rw [hroot]
      rfl
    · have hg : (viewAt g d).isSome = true := by
        rw [hview d (List.prefix_refl d)]
        rcases hd.resolve_left hroot with h | h
        · rw [h]
          rfl
        · rw [h]
          rfl
      have := isResolvablePath_of_viewAt hroot hg
      rw [isResolvablePath_eq g hroot, Bool.and_eq_true] at this
      exact this.2
  rw [isResolvablePath_eq e (by simp), passes_snoc, Bool.and_eq_true, Bool.and_eq_true,
    nameShown, Bool.and_eq_true, Bool.or_eq_true] at hres
  rw [isResolvablePath_eq g (by simp), passes_snoc, nameShown, hparent, hres.1, hres.2.2.1,
    Bool.true_and, Bool.true_and, Bool.true_and, Bool.or_eq_true]
  refine hres.2.2.2.imp id fun hany => ?_
  exact hlink.trans hany

theorem stop_eq_link_iff (hd : (e.upperAt d).isSome = true) :
    (slotOf e.upper none d).stop = .link ↔ isInLinkTarget e.config d = true := by
  rw [isInLinkTarget_eq, slotsAt_cons, List.any_cons, Bool.or_eq_true, decide_eq_true_eq]
  constructor
  · exact .inl
  · intro h
    rcases h with h | h
    · exact h
    · obtain ⟨s, hs, hlink⟩ := List.any_eq_true.mp h
      exact absurd (by simpa using hlink) (stop_of_mem_lowersAt hs hd)

theorem stop_of_leads (h : leadsToDirectory (e.upperAt d) = true) :
    (slotOf e.upper none d).stop = .none ∨ (slotOf e.upper none d).stop = .link := by
  by_cases hd : d = []
  · rw [hd]
    exact .inl rfl
  · cases ht : e.upperAt d with
    | none => rw [ht] at h; cases h
    | some t =>
      cases t with
      | leaf v => rw [ht] at h; cases h
      | node v children =>
        rcases stop_cases (i := none) hd ht with h | h
        · exact .inr h
        · rw [h]
          cases hv : v.link <;> simp [placeKind, treeKind, walkStopAt, hv]

theorem stop_eq_of_links (hd : leadsToDirectory (e.upperAt d) = true)
    (hc : leadsToDirectory (e.upperAt c) = true)
    (h : isInLinkTarget e.config d = isInLinkTarget e.config c) :
    (slotOf e.upper none d).stop = (slotOf e.upper none c).stop := by
  have hiff : (slotOf e.upper none d).stop = .link ↔ (slotOf e.upper none c).stop = .link := by
    rw [stop_eq_link_iff (isSome_of_leads hd), stop_eq_link_iff (isSome_of_leads hc), h]
  rcases stop_of_leads hd with hs | hs
  · rcases stop_of_leads hc with hs' | hs'
    · rw [hs, hs']
    · rw [hs] at hiff
      exact absurd (hiff.mpr hs') (by decide)
  · rw [hs, hiff.mp hs]

/-- No path that a lookup accepts has a marker's name outside the links' targets. -/
theorem marker_not_above (hres : isResolvablePath e.config q = true)
    (hlink : isInLinkTarget e.config c = false) (hm : isWhiteoutName m = true) :
    ¬c ++ [m] <+: q := by
  intro hpre
  have hname := isResolvablePath_above (by simp) hpre hres
  rw [isResolvablePath_eq e (by simp), passes_snoc, Bool.and_eq_true, Bool.and_eq_true,
    nameShown, Bool.and_eq_true, hm] at hname
  rw [isInLinkTarget_eq, slotsAt, Overlay.live] at hlink
  rw [hlink] at hname
  exact absurd hname.2.2.2 (by simp)

/-! ## What a copy-up of another path keeps -/

theorem held_above (hpre : c <+: d) (hd : (e.upperAt d).isSome = true) :
    (e.upperAt c).isSome = true := by
  obtain ⟨x, rfl⟩ := hpre
  cases hc : e.upperAt c with
  | some t => rfl
  | none =>
    rw [Engine.upperAt, placeAt_append, ← Engine.upperAt, hc, placeAt_none] at hd
    cases hd

/-- The entries at and below a path, and what the lowers have beside it. -/
structure SameBelow (e g : Engine) (d : RelPath) (n : Name) : Prop where
  entries : ∀ x, entryAt g.upper (d ++ [n] ++ x) = entryAt e.upper (d ++ [n] ++ x)
  stop : (slotOf g.upper none d).stop = (slotOf e.upper none d).stop
  lowersAt : lowersAt g d = lowersAt e d

theorem SameBelow.refl (e : Engine) (d : RelPath) (n : Name) : SameBelow e e d n :=
  ⟨fun _ => rfl, rfl, rfl⟩

theorem SameBelow.trans (h : SameBelow e f d n) (h' : SameBelow f g d n) : SameBelow e g d n :=
  ⟨fun x => (h'.entries x).trans (h.entries x), h'.stop.trans h.stop,
    h'.lowersAt.trans h.lowersAt⟩

theorem SameLayers.sameBelow (h : SameLayers e g) : SameBelow e g d n :=
  ⟨fun _ => h.entries _, (h.agreeAlong d).slotOf_stop, lowersAt_congr h.lowers (h.agreeAlong d)⟩

/-- An entry that comes or goes elsewhere. -/
theorem PutsAt.sameBelow {w : RelPath} {o : Place} (h : PutsAt e g w o) (hunread : Unread e w d)
    (hw : ∀ x, ¬w <+: d ++ [n] ++ x) : SameBelow e g d n := by
  have hagree := (SameAlong.of_put (f := id) hunread h.lowers h.files h.upper).agreeAlong
  refine ⟨fun x => ?_, hagree.slotOf_stop, lowersAt_congr h.lowers hagree⟩
  rw [h.upper, entryAt_put_elsewhere (hw x)]

theorem Apart.not_below (h : Apart p q) (x : RelPath) : ¬q <+: p ++ x := by
  intro hpre
  rcases List.prefix_or_prefix_of_prefix hpre (List.prefix_append p x) with h' | h'
  · exact h.2 h'
  · exact h.1 h'

theorem Apart.symm (h : Apart p q) : Apart q p := ⟨h.2, h.1⟩

theorem Apart.not_above (h : Apart p (d ++ [n])) : ¬p <+: d :=
  fun hpre => h.1 (hpre.trans (List.prefix_append d [n]))

/-- A change at a path apart. -/
theorem PutsAt.sameBelow_apart {o : Place} (h : PutsAt e g (c ++ [m]) o) (hplain : PlainAt e c m)
    (hapart : Apart (d ++ [n]) (c ++ [m])) : SameBelow e g d n :=
  h.sameBelow (unread_of_plain hapart.symm.not_above hplain.2) hapart.not_below

/-- What a copy-up of the directories above another path gains is not read on the way to an
entry of the upper. -/
theorem Climbs.entryAt_of_reads (h : Climbs e g c)
    (hres : c ≠ [] → isResolvablePath e.config c = true) (hd : (e.upperAt d).isSome = true)
    {x : RelPath} (hx : Reads (rootSlot e) d x) : entryAt g.upper x = entryAt e.upper x := by
  cases hfree : e.upperAt x with
  | some t => exact h.gains.kept x (by rw [hfree]; rfl)
  | none =>
    cases hnew : (g.upperAt x).isSome with
    | false =>
      have hg : g.upperAt x = none := by simpa using hnew
      rw [entryAt, entryAt]
      rw [Engine.upperAt] at hg hfree
      rw [hg, hfree]
    | true =>
      exfalso
      obtain ⟨a, hac, hax, hnone⟩ : ∃ a, a <+: c ∧ a <+: x ∧ e.upperAt a = none := by
        rcases h.gains.gained x hfree hnew with ⟨hpre, -⟩ | ⟨a, hac, hax, -, hnone, -⟩
        · exact ⟨x, hpre, List.prefix_refl x, hfree⟩
        · exact ⟨a, hac, hax, hnone⟩
      have hnot : ∀ b, b <+: d → ¬a <+: b := fun b hb hab => by
        have hheld := held_above (hab.trans hb) hd
        rw [hnone] at hheld
        cases hheld
      -- a marker beside the path is on no path that a lookup accepts
      have hmarker : ∀ b y, b <+: d → x = b ++ [y] → isWhiteoutName y = true →
          (slotOf e.upper none b).stop ≠ .link → False := by
        rintro b y hb rfl hy hstop
        have hab : a = b ++ [y] :=
          (List.prefix_concat_iff.mp hax).resolve_right (hnot b hb)
        have hlink : isInLinkTarget e.config b = false := by
          rw [← Bool.not_eq_true, ← stop_eq_link_iff (held_above hb hd)]
          exact hstop
        refine marker_not_above (hres ?_) hlink hy (hab ▸ hac)
        rintro rfl
        rw [hab] at hac
        simpa using List.prefix_nil.mp hac
      rcases hx.cases with hpre | ⟨b, y, hb, rfl, hstop⟩ | ⟨b, hb, rfl, hstop⟩
      · exact hnot x hpre hax
      · exact hmarker b _ ((List.prefix_append b [y]).trans hb) rfl (by simp) hstop
      · refine hmarker b _ hb rfl (by decide) ?_
        change (slotOf e.upper none b).stop = .none at hstop
        rw [hstop]
        decide

theorem Climbs.sameBelow (h : Climbs e g c) (hres : c ≠ [] → isResolvablePath e.config c = true)
    (hheld : (e.upperAt (d ++ [n])).isSome = true) (hnot : ¬d ++ [n] <+: c) :
    SameBelow e g d n := by
  have hd : (e.upperAt d).isSome = true := held_above (List.prefix_append d [n]) hheld
  refine ⟨fun x => ?_, slotOf_stop_of_entries fun a ha => h.gains.kept a (held_above ha hd), ?_⟩
  · cases hfree : e.upperAt (d ++ [n] ++ x) with
    | some t => exact h.gains.kept _ (by rw [hfree]; rfl)
    | none =>
      cases hnew : (g.upperAt (d ++ [n] ++ x)).isSome with
      | false =>
        have hg : g.upperAt (d ++ [n] ++ x) = none := by simpa using hnew
        rw [entryAt, entryAt]
        rw [Engine.upperAt] at hg hfree
        rw [hg, hfree]
      | true =>
        exfalso
        rcases h.gains.gained _ hfree hnew with ⟨hpre, -⟩ | ⟨a, hac, hax, -, hnone, -⟩
        · exact hnot ((List.prefix_append _ x).trans hpre)
        · rcases List.prefix_or_prefix_of_prefix hax (List.prefix_append _ x) with ha | ha
          · have := held_above ha hheld
            rw [hnone] at this
            cases this
          · exact hnot (ha.trans hac)
  · have hagree : AgreeAlong id [] [] d (rootSlot e) (rootSlot g) :=
      agreeAlong_of_reads rfl rfl rfl fun x hx => (h.entryAt_of_reads hres hd hx).symm
    exact lowersAt_congr h.raised.lowers hagree

/-! ## What keeps the lowers away -/

theorem covers_congr (stop : WalkStop) (h : ∀ x, entryAt (some t') x = entryAt (some t) x) :
    (treeOverlay []).covers (slotIn none stop (some t'))
      = (treeOverlay []).covers (slotIn none stop (some t)) := by
  have hroot := h []
  rw [entryAt, entryAt, placeAt_nil, placeAt_nil] at hroot
  have hmark := congrArg Option.isSome (h [kOpaqueMarkerFile])
  rw [isSome_entryAt, isSome_entryAt] at hmark
  have hkind := (@node_congr [] _ _ hroot).1
  have hmarker := holdsOpaquePlace_congr hroot hmark
  have hstop : (slotIn none stop (some t')).stop = (slotIn none stop (some t)).stop := by
    rw [slotIn, slotIn, hkind]
    split <;> rfl
  simp only [treeOverlay, slotIn_sub, hstop, hmarker]

theorem SameBelow.secluded (h : SameBelow e g d n) (ht : e.upperAt (d ++ [n]) = some t)
    (ht' : g.upperAt (d ++ [n]) = some t') (hs : Secluded e d n t) : Secluded g d n t' := by
  rw [Secluded, h.stop, h.lowersAt]
  refine hs.imp (fun hcov => ?_) id
  rw [covers_congr _ fun x => ?_]
  · exact hcov
  · have hx := h.entries x
    rw [entryAt, entryAt, placeAt_append g.upper (d ++ [n]), placeAt_append e.upper (d ++ [n])]
      at hx
    rw [Engine.upperAt] at ht ht'
    rw [ht, ht'] at hx
    exact hx

/-- The lowers have nothing under the name. -/
def Unfound (e : Engine) (d : RelPath) (n : Name) : Prop := ∀ s ∈ lowersOf e d n, s.sub = none

theorem SameBelow.unfound (h : SameBelow e g d n) (hs : Unfound e d n) : Unfound g d n := by
  rw [Unfound, lowersOf, h.lowersAt]
  exact hs

theorem unfound_of_resolve (hres : isResolvablePath e.config (d ++ [n]) = true)
    (h : (resolveLowerPath e.config (d ++ [n])).found = false) : Unfound e d n := by
  intro s hs
  rw [resolveLowerPath_eq, if_pos hres] at h
  cases hlook : (treeOverlay e.files).look (lowersOf e d n) with
  | none => exact sub_eq_none_of_look hlook s hs
  | some x =>
    rw [hlook] at h
    cases hi : x.lowerIndex <;> simp [resultOf, hitAt, ResolvedPath.found, hi] at h

theorem Unfound.secluded (h : Unfound e d n) (hd : (e.upperAt d).isSome = true) :
    Secluded e d n t := by
  refine .inr fun s hs => barren_of_held hd hs ?_
  rw [h s (mem_descendFrom_held hs)]
  rfl

theorem secluded_of_link (hkind : treeKind t = .link) : Secluded e d n t := by
  left
  apply covers_of_stop
  rw [slotIn]
  split
  · simp [placeKind, hkind, walkStopAt]
  · assumption

theorem secluded_of_marked (h : holdsOpaquePlace (some t) = true) : Secluded e d n t := by
  left
  simp only [treeOverlay, slotIn_sub, h, Bool.or_true]

theorem secluded_of_file (hkind : treeKind t = .file) : Secluded e d n t := by
  left
  apply covers_of_stop
  rw [slotIn]
  split
  · simp [placeKind, hkind, walkStopAt]
  · assumption

/-! ## The new entry -/

/-- The tree `t` is at `d\n` of the upper with no lower under it, as it was put into `f`. -/
structure Settled (f g : Engine) (d : RelPath) (n : Name) (t : Tree) : Prop where
  entries : ∀ x, entryAt g.upper (d ++ [n] ++ x) = entryAt (some t) x
  stop : (slotOf g.upper none d).stop = (slotOf f.upper none d).stop
  files : g.files = f.files
  resolvable : isResolvablePath g.config (d ++ [n]) = true
  secluded : Secluded g d n t

namespace Settled

theorem upperAt (h : Settled f g d n t) :
    ∃ t', g.upperAt (d ++ [n]) = some t' ∧ ∀ x, entryAt (some t') x = entryAt (some t) x := by
  have hroot := h.entries []
  rw [List.append_nil, entryAt, entryAt, placeAt_nil] at hroot
  cases ht : placeAt g.upper (d ++ [n]) with
  | none => rw [ht] at hroot; cases hroot
  | some t' =>
    refine ⟨t', ht, fun x => ?_⟩
    rw [← h.entries, entryAt, entryAt, placeAt_append g.upper (d ++ [n]), ht]

/-- The new path shows the tree that was put there. -/
theorem viewAt (h : Settled f g d n t) (x : RelPath) :
    viewAt g (d ++ [n] ++ x) = shownAlone f.files (slotOf f.upper none d).stop t x := by
  obtain ⟨t', ht', hsame⟩ := h.upperAt
  have hs : Secluded g d n t' :=
    h.secluded.imp (fun hcov => (covers_congr _ hsame).trans hcov) id
  rw [viewAt_alone ht' h.resolvable hs, h.stop, h.files, shownAlone_congr hsame]

theorem plainAt (h : Settled f g d n t) :
    PlainAt g d n ∧ leadsToDirectory (g.upperAt d) = true := by
  obtain ⟨t', ht', -⟩ := h.upperAt
  exact plainAt_of_held h.resolvable (by rw [ht']; rfl)

theorem sameBelow (h : Settled f g d n t) (hb : SameBelow g k d n) (hfiles : k.files = g.files)
    (hres : isResolvablePath k.config (d ++ [n]) = true) : Settled f k d n t where
  entries x := (hb.entries x).trans (h.entries x)
  stop := hb.stop.trans h.stop
  files := hfiles.trans h.files
  resolvable := hres
  secluded := by
    have hs := h.secluded
    rw [Secluded] at hs ⊢
    rw [hb.stop, hb.lowersAt]
    exact hs

theorem sameEntries (h : Settled f g d n t) (hs : SameEntries g k) : Settled f k d n t := by
  refine h.sameBelow hs.sameLayers.sameBelow hs.files ?_
  rw [← (hs.sameAlong (f := id) d).isResolvablePath_snoc n]
  exact h.resolvable

/-- The new entry stays when another place of the upper changes. -/
theorem put (h : Settled f g d n t) {w : RelPath} {o : Place} (hputs : PutsAt g k w o)
    (hunread : Unread g w d) (hw : ∀ x, ¬w <+: d ++ [n] ++ x) : Settled f k d n t := by
  refine h.sameBelow (hputs.sameBelow hunread hw) hputs.files ?_
  rw [← (SameAlong.of_put (f := id) hunread hputs.lowers hputs.files
    hputs.upper).isResolvablePath_snoc n]
  exact h.resolvable

theorem put_apart (h : Settled f g d n t) {o : Place} (hputs : PutsAt g k (c ++ [m]) o)
    (hplain : PlainAt g c m) (hapart : Apart (d ++ [n]) (c ++ [m])) : Settled f k d n t :=
  h.put hputs (unread_of_plain hapart.symm.not_above hplain.2) hapart.not_below

/-- The whiteout of another path is apart too. -/
theorem apart_whiteout (h : Settled f g d n t) (hapart : Apart (d ++ [n]) (c ++ [m]))
    (hlink : isInLinkTarget g.config c = false) : Apart (d ++ [n]) (c ++ [whiteoutName m]) := by
  have hnot : ¬c ++ [whiteoutName m] <+: d ++ [n] :=
    marker_not_above h.resolvable hlink (by simp)
  refine ⟨fun hpre => ?_, hnot⟩
  rcases List.prefix_concat_iff.mp hpre with heq | hpre
  · exact hnot (heq ▸ List.prefix_refl _)
  · exact hapart.1 (hpre.trans (List.prefix_append c [m]))

/-- A whiteout of another path comes or goes. -/
theorem whitedOut (h : Settled f g d n t) {o : Place}
    (hputs : PutsAt g k (c ++ [whiteoutName m]) o) (hapart : Apart (d ++ [n]) (c ++ [m]))
    (hlink : isInLinkTarget g.config c = false) (hm : isWhiteoutName m = false) :
    Settled f k d n t := by
  have hboth := h.apart_whiteout hapart hlink
  exact h.put hputs (unread_of_whiteout hm hapart.symm.not_above hboth.symm.not_above)
    hboth.not_below

/-- The whiteout of the new path goes. -/
theorem unmarked (h : Settled f g d n t) {o : Place}
    (hputs : PutsAt g k (d ++ [whiteoutName n]) o) (hn : isWhiteoutName n = false) :
    Settled f k d n t := by
  have hboth : Apart (d ++ [n]) (d ++ [whiteoutName n]) := by
    refine ⟨fun hpre => ?_, not_whiteout_above n⟩
    have heq : d ++ [n] = d ++ [whiteoutName n] := hpre.eq_of_length (by simp)
    exact ne_whiteoutName n (by simpa using heq)
  exact h.put hputs (unread_of_whiteout hn PutsAt.not_prefix_self PutsAt.not_prefix_self)
    hboth.not_below

end Settled

/-- A tree that is put at a free name, with no lower under it. -/
theorem putUpper_settled (hlead : leadsToDirectory (f.upperAt d) = true) (hdot : n ≠ ['.'])
    (hres : isResolvablePath f.config (d ++ [n]) = true) (hs : Secluded f d n t) :
    Settled f (f.putUpper (d ++ [n]) (some t)) d n t := by
  have hplain : PlainAt f d n := plainAt_of_parent hres (isSome_of_leads hlead) hdot
  have hputs := putUpper_puts f (d ++ [n]) (some t)
  have hlow := lowersAt_congr hputs.lowers (hputs.agreeAlong_parent hplain)
  refine ⟨entryAt_putUpper hlead hdot, hputs.slotOf_parent hplain, rfl, ?_, ?_⟩
  · rw [hputs.isResolvablePath hplain]
    exact hres
  · rw [Secluded, hputs.slotOf_parent hplain, hlow]
    exact hs

/-- `RemoveWhiteout` of the new path changes nothing that the view shows. -/
theorem removeWhiteout_settled (h : Settled f g d n t) :
    (WhiteoutManager.removeWhiteout (d ++ [n])).Ensures g fun r k => r = .ok () →
      Settled f k d n t ∧ (∀ x, ¬d ++ [n] <+: x → viewAt k x = viewAt g x) ∧
        k.lowers = g.lowers := by
  refine (removeWhiteout_ensures d n g).mono fun r k hk hr => ?_
  subst hr
  rcases hk with ⟨hk, -⟩ | ⟨hstop, hk⟩
  · exact ⟨h.sameEntries hk.sameEntries, fun x _ => hk.viewAt x, hk.lowers⟩
  · obtain ⟨hplain, hlead⟩ := h.plainAt
    have hname := hplain.2.resolve_right hstop
    have hlink : isInLinkTarget g.config d = false := by
      rw [← Bool.not_eq_true, ← stop_eq_link_iff (isSome_of_leads hlead)]
      exact hstop
    have hmarker : MarkerPut g k d n none := ⟨hk, hname, hlink⟩
    exact ⟨h.unmarked hk hname, fun x hx => hmarker.kept hx, hk.lowers⟩

/-! ## The old path -/

/-- An entry of the upper that is gone, with nothing of a lower under it. -/
theorem deleted_of_taken (hplain : PlainAt f d n) (hlead : leadsToDirectory (f.upperAt d) = true)
    (hg : SameEntries (f.putUpper (d ++ [n]) none) g) (hnone : Unfound f d n) :
    Deleted f g (d ++ [n]) := by
  have hputs := putUpper_puts f (d ++ [n]) none
  refine ⟨fun q => ?_, fun r hr => (hg.viewAt r).trans (hputs.viewAt hplain hr), hg.lowers, ?_⟩
  · rw [hg.viewAt]
    refine viewAt_none_below (by simp) ?_ q
    by_contra hshown
    have hfound := viewAt_of_free (hputs.upperAt hlead hplain.1)
      (Option.isSome_iff_ne_none.mpr hshown)
    have hlook : (treeOverlay f.files).look (lowersOf f d n) = none := by
      apply Overlay.look_eq_none
      intro s hs
      simp [treeOverlay, hnone s hs]
    rw [hputs.resolveLowerPath hplain, resolveLowerPath_eq, hlook, ite_self] at hfound
    cases hfound
  · rw [hg.files]
    exact List.prefix_refl _

/-- An entry of the upper that is gone, and a whiteout for what a lower has. -/
theorem whiteout_deletes_taken (hplain : PlainAt f d n)
    (hlead : leadsToDirectory (f.upperAt d) = true)
    (hg : SameEntries (f.putUpper (d ++ [n]) none) g) :
    (WhiteoutManager.createWhiteout (d ++ [n])).Ensures g fun r k => r = .ok () →
      Deleted f k (d ++ [n]) ∧ PutsAt g k (d ++ [whiteoutName n]) (some (.leaf .marker)) ∧
        isInLinkTarget g.config d = false ∧ isWhiteoutName n = false := by
  have hputs := putUpper_puts f (d ++ [n]) none
  have hheld : ParentHeld g (d ++ [n]) := hg.parentHeld (parentHeld_of_leads hlead hputs)
  refine (createWhiteout_held hheld).mono fun r k hk hr => ?_
  subst hr
  obtain ⟨hlink, hlead', hmarker⟩ := hk
  rw [List.dropLast_concat] at hlink hlead'
  rw [getWhiteoutFileName_append] at hmarker
  have hname : isWhiteoutName n = false := by
    refine hplain.2.resolve_right fun hstop => stop_ne_link hlink ?_
    rw [(hg.sameAlong d).agreeAlong.slotOf_stop, hputs.slotOf_parent hplain, hstop]
  have hfree : g.upperAt (d ++ [n]) = none := by
    have hsome := hg.isSome_upperAt (d ++ [n])
    rw [hputs.upperAt hlead hplain.1] at hsome
    simpa using hsome
  have hwhited : WhitedOut g k d n := ⟨⟨hmarker, hname, hlink⟩, hlead', hfree⟩
  refine ⟨⟨hwhited.gone, fun r hr => ?_, hmarker.lowers.trans hg.lowers, ?_⟩, hmarker, hlink, hname⟩
  · rw [hwhited.kept hr, hg.viewAt, hputs.viewAt hplain hr]
  · rw [hmarker.files, hg.files]
    exact List.prefix_refl _

/-! ## The move -/

/-- The entry of the upper has moved. -/
structure Takes (e g : Engine) (p q : RelPath) (t : Tree) : Prop where
  held : e.upperAt p = some t
  parent : leadsToDirectory (e.upperAt q.dropLast) = true
  entries : SameEntries ((e.putUpper q (some t)).putUpper p none) g

namespace Takes

variable (h : Takes e f (c ++ [m]) (d ++ [n]) t) (hapart : Apart (c ++ [m]) (d ++ [n]))
  (hk : SameEntries f k)

include h hk

theorem same_as_put :
    SameEntries ((e.putUpper (d ++ [n]) (some t)).putUpper (c ++ [m]) none) k :=
  h.entries.trans hk

include hapart in
/-- The new name is taken. -/
theorem isSome_new (hdot : n ≠ ['.']) : (k.upperAt (d ++ [n])).isSome = true := by
  have hlead := h.parent
  rw [List.dropLast_concat] at hlead
  have hnew := (putUpper_puts e (d ++ [n]) (some t)).upperAt hlead hdot
  rw [(h.same_as_put hk).isSome_upperAt, (putUpper_puts _ (c ++ [m]) none).isSome_upperAt hapart.1,
    hnew]
  rfl

include hapart in
/-- The old parent is still there. -/
theorem leads_old (hres : isResolvablePath e.config (c ++ [m]) = true) :
    leadsToDirectory (k.upperAt c) = true := by
  have hheld : (e.upperAt (c ++ [m])).isSome = true := by rw [h.held]; rfl
  rw [leadsToDirectory_congr ((h.same_as_put hk).entries c), leadsToDirectory_putUpper,
    leadsToDirectory_congr (e := e) (entryAt_put_elsewhere hapart.symm.not_above (some t))]
  exact (plainAt_of_held hres hheld).2

/-- The old name is free. -/
theorem free_old : k.upperAt (c ++ [m]) = none := by
  have hgone := placeAt_put_none (e.putUpper (d ++ [n]) (some t)).upper (c ++ [m]) []
  rw [List.append_nil] at hgone
  have hsome := (h.same_as_put hk).isSome_upperAt (c ++ [m])
  have hnone : ((e.putUpper (d ++ [n]) (some t)).putUpper (c ++ [m]) none).upperAt (c ++ [m])
      = none := hgone
  rw [hnone] at hsome
  simpa using hsome

end Takes

theorem putUpper_comm (hapart : Apart p (d ++ [n]))
    (hlead : leadsToDirectory (e.upperAt d) = true) (hdot : n ≠ ['.']) :
    SameEntries ((e.putUpper (d ++ [n]) (some t)).putUpper p none)
      ((e.putUpper p none).putUpper (d ++ [n]) (some t)) where
  entries := by
    intro r
    have hlead' : leadsToDirectory ((e.putUpper p none).upperAt d) = true := by
      rw [leadsToDirectory_congr (e := e) (entryAt_put_elsewhere hapart.not_above none), hlead]
    by_cases hr : d ++ [n] <+: r
    · obtain ⟨x, rfl⟩ := hr
      rw [entryAt_putUpper hlead' hdot, Engine.putUpper, entryAt_put_elsewhere,
        entryAt_putUpper hlead hdot]
      exact hapart.symm.not_below x
    · rw [Engine.putUpper, entryAt_put_elsewhere hr]
      by_cases hp : p <+: r
      · obtain ⟨x, rfl⟩ := hp
        rw [entryAt, entryAt, Engine.putUpper, Engine.putUpper, placeAt_put_none, placeAt_put_none]
      · rw [Engine.putUpper, entryAt_put_elsewhere hp, Engine.putUpper, entryAt_put_elsewhere hp,
          Engine.putUpper, entryAt_put_elsewhere hr]
  lowers := rfl
  files := rfl
  host := rfl
  undoFailed := rfl
  contexts := rfl

theorem moveUpperEntryOnDisk_ensures (hapart : Apart p (d ++ [n])) (hdot : n ≠ ['.'])
    (replace : Bool) (e : Engine) :
    (moveUpperEntryOnDisk p (d ++ [n]) replace).Ensures e fun r g => r = .ok () →
      ∃ t, Takes e g p (d ++ [n]) t := by
  have hne : p ≠ d ++ [n] := fun h => hapart.1 (h ▸ List.prefix_refl _)
  refine Step.Ensures.bind (diskStep_ensures .move e) ?_ fun _ _ _ h => by cases h
  intro _ f hf
  apply Step.Ensures.get
  rw [hf.upperAt]
  cases ht : e.upperAt p with
  | none => exact fun h => by cases h
  | some t =>
    apply Step.Ensures.ite
    · exact fun h => absurd h hne
    · intro _
      apply Step.Ensures.ite
      · exact fun _ h => by cases h
      · intro _
        apply Step.Ensures.ite
        · exact fun _ h => by cases h
        · intro hlead
          rw [List.dropLast_concat, hf.upperAt] at hlead
          have hlead : leadsToDirectory (e.upperAt d) = true := by simpa using hlead
          have htakes : Takes e ((f.putUpper p none).putUpper (d ++ [n]) (some t)) p
              (d ++ [n]) t := by
            refine ⟨ht, by rwa [List.dropLast_concat], ?_⟩
            refine (putUpper_comm hapart hlead hdot).trans ?_
            refine ⟨fun r => ?_, hf.lowers, hf.files, hf.host, hf.undoFailed, hf.contexts⟩
            rw [Engine.putUpper, Engine.putUpper, Engine.putUpper, Engine.putUpper, hf.upper]
          cases f.upperAt (d ++ [n]) with
          | none => exact fun _ => ⟨t, htakes⟩
          | some replaced =>
            apply Step.Ensures.ite
            · exact fun _ h => by cases h
            · intro _
              apply Step.Ensures.ite
              · exact fun _ h => by cases h
              · exact fun _ _ => ⟨t, htakes⟩

/-- A move to a free name of a directory fails only by the plan. -/
theorem moveUpperEntryOnDisk_succeeds (hapart : Apart p (d ++ [n]))
    (hheld : (e.upperAt p).isSome = true) (hlead : leadsToDirectory (e.upperAt d) = true)
    (hfree : e.upperAt (d ++ [n]) = none) (hfault : e.fault = none) (replace : Bool) :
    (moveUpperEntryOnDisk p (d ++ [n]) replace).Ensures e fun r _ => r = .ok () := by
  have hne : p ≠ d ++ [n] := fun h => hapart.1 (h ▸ List.prefix_refl _)
  refine Step.Ensures.bind (diskStep_succeeds (by rw [hfault]; nofun)) ?_ fun _ _ hf => by cases hf.1
  rintro _ f ⟨-, hf, -⟩
  obtain ⟨t, ht⟩ := Option.isSome_iff_exists.mp hheld
  have hinside : isInsideDirectory (d ++ [n]) p = false := by
    rw [← Bool.not_eq_true, isInsideDirectory_iff]
    exact fun h => hapart.1 h.2.1
  apply Step.Ensures.get
  rw [hf.upperAt, ht]
  simp only [if_neg hne, hinside, List.dropLast_concat, hf.upperAt, hlead, hfree]
  rfl

theorem moveUpperEntry_ensures (hres : isResolvablePath e.config (c ++ [m]) = true)
    (hapart : Apart (c ++ [m]) (d ++ [n])) (hdot : n ≠ ['.']) (replace : Bool) :
    (moveUpperEntry (c ++ [m]) (d ++ [n]) replace).Ensures e fun r g => r = .ok () →
      ∃ t, Takes e g (c ++ [m]) (d ++ [n]) t := by
  refine Step.Ensures.bind (moveUpperEntryOnDisk_ensures hapart hdot replace e) ?_
    fun _ _ _ h => by cases h
  intro _ f hf
  obtain ⟨t, ht⟩ := hf rfl
  by_cases hfault : f.fault = some (.moveRecord, 0)
  · refine Step.Ensures.attempt_bind (P := fun r k => (∃ status, r = .error status) ∧
      Untouched f k ∧ k.fault = none) ?_ ?_
    · have := diskStep_fails hfault
      refine ⟨this.1, this.2, ?_⟩
      simp [diskStep, hfault]
    · rintro _ k ⟨⟨status, rfl⟩, hk, hnone⟩
      -- the way back is free, and the plan has no other failure
      refine Step.Ensures.attempt_bind (moveUpperEntryOnDisk_succeeds hapart.symm
        (ht.isSome_new hapart hk.sameEntries hdot) (ht.leads_old hapart hk.sameEntries hres)
        (ht.free_old hk.sameEntries) hnone false) ?_
      rintro _ _ rfl
      exact fun h => by cases h
  · refine Step.Ensures.attempt_bind (diskStep_succeeds hfault) ?_
    rintro _ k ⟨rfl, hk, -⟩
    exact fun _ => ⟨t, ht.held, ht.parent, ht.entries.trans hk.sameEntries⟩

end LayerMount
