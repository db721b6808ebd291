import LayerMount.CompletedCreate
import LayerMount.CompletedDelete
import LayerMount.MarkerPaths
import LayerMount.Rename

/-!
# What a rename has checked

A rename looks before it changes anything.  `checkRename_ensures` says what it knows when the
checks pass: the source shows, the two paths are apart, the destination is as the caller
allows, and the links above the two paths are the same one, unless the parent of the new path
leads to no directory, where the copy-up of the parent fails.
-/

namespace LayerMount

open Lib

variable {e f g : Engine} {d p q : RelPath} {n : Name}

namespace Shown

/-- The kind of what shows. -/
def kind : Shown → EntryKind
  | file _ => .file
  | directory => .directory
  | link => .link

end Shown

theorem kind_shownOf (files : List FileObj) (record : Bool) (t : Tree) :
    (shownOf files record t).kind = treeKind t := by
  cases t with
  | leaf v => cases v <;> rfl
  | node v children => cases hv : v.link <;> simp [shownOf, treeKind, Shown.kind, hv]

theorem resolvedKind_of_shown {v : Shown} (h : viewAt e p = some v) :
    resolvedKind e (resolvePath e.config p {}).1 = v.kind := by
  rw [viewAt] at h
  split at h
  · obtain ⟨t, ht, hshown⟩ := Option.map_eq_some_iff.mp h
    rw [resolvedKind, ht, ← hshown, kind_shownOf]
  · cases h

/-! ## Links above the paths -/

/-- The parent is the root, or what shows there leads to a directory. -/
def ParentLeads (e : Engine) (p : RelPath) : Prop :=
  p.dropLast = [] ∨ CopyUp.shownLeadsToDirectory e (resolvePath e.config p.dropLast {}).1 = true

theorem Untouched.parentLeads (h : Untouched e g) (p : RelPath) :
    ParentLeads g p ↔ ParentLeads e p := by
  rw [ParentLeads, ParentLeads, CopyUp.shownLeadsToDirectory, CopyUp.shownLeadsToDirectory,
    h.resolvedAt, h.config]

theorem ParentLeads.shows (h : ParentLeads e p) : p.dropLast = [] ∨ ShowsDirectory e p.dropLast :=
  h.imp_right fun hleads => showsDirectory_of_leads rfl hleads

theorem shownParentLeads_ensures (p : RelPath) (e : Engine) :
    (Rename.shownParentLeadsToDirectory p).Ensures e fun r g =>
      Looked e g ∧ ∃ b, r = .ok b ∧ (b = true ↔ ParentLeads e p) := by
  rw [Rename.shownParentLeadsToDirectory]
  apply Step.Ensures.ite
  · intro hroot
    have hroot : p.dropLast = [] := by simpa using hroot
    exact ⟨Looked.refl e, true, rfl, by simp [ParentLeads, hroot]⟩
  · intro hroot
    have hroot : p.dropLast ≠ [] := by simpa using hroot
    refine Step.Ensures.bind (lookup_ensures p.dropLast e) ?_ fun _ _ h => by cases h.1
    rintro shown f ⟨hshown, hf⟩
    obtain rfl : shown = (resolvePath e.config p.dropLast {}).1 := by simpa using hshown
    apply Step.Ensures.get
    refine Step.Ensures.pure ⟨hf, _, rfl, ?_⟩
    rw [ParentLeads, CopyUp.shownLeadsToDirectory, CopyUp.shownLeadsToDirectory, hf.resolvedAt]
    simp [hroot]

/-- A link of the view that is no lower's is the upper's. -/
theorem stop_of_upperLink (h : (findLinkInView e.config d).stop = .link)
    (hsource : (findLinkInView e.config d).source ≠ .lower) :
    (slotOf e.upper none d).stop = .link := by
  rw [findLinkInView] at h hsource
  split at h
  · rename_i hends
    have hupper := (endsAtLinkOrUnreadable_iff (@readable_ofTree e.files e.upper)).mp hends
    rw [slotOf_stop e.files]
    exact hupper
  · rename_i hends
    rw [if_neg hends] at hsource
    dsimp only at h hsource
    split at h
    · cases h
    · rename_i hfile
      rw [if_neg hfile] at hsource
      split at h
      · cases h
      · rename_i hany
        rw [if_neg hany] at hsource
        split at h
        · cases h
        · rename_i hopen
          rw [if_neg hopen] at hsource
          obtain ⟨_, _, -, -, -, hv, -⟩ := findLinkInLowers_stop rfl (by rw [h]; decide)
          rw [hv] at hsource
          exact absurd rfl hsource

/-- What the link boundary allows, when the parent of the new path leads to a directory: both
parents are in a link's target or neither is, and a lower's link is named. -/
structure LinksAllow (e : Engine) (p q : RelPath) (links : Rename.RenameLinks) : Prop where
  same : ParentLeads e q →
    isInLinkTarget e.config p.dropLast = isInLinkTarget e.config q.dropLast
  leads : links.lowerLinkToCopyUp ≠ none → ParentLeads e q
  upper : ParentLeads e q → links.lowerLinkToCopyUp = none →
    isInLinkTarget e.config p.dropLast = true → (slotOf e.upper none p.dropLast).stop = .link
  lower : ∀ link, links.lowerLinkToCopyUp = some link →
    findLinkInView e.config p.dropLast = ⟨.link, .lower, link⟩

theorem LinksAllow.untouched {links : Rename.RenameLinks} (h : LinksAllow f p q links)
    (hf : Untouched e f) : LinksAllow e p q links := by
  have hparent := hf.parentLeads q
  obtain ⟨hsame, hleads, hupper, hlower⟩ := h
  rw [hf.config, hf.upper, hparent] at *
  exact ⟨hsame, hleads, hupper, hlower⟩

theorem checkRenameLinkBoundary_ensures (p q : RelPath) (e : Engine) :
    (Rename.checkRenameLinkBoundary p q).Ensures e fun r g =>
      Looked e g ∧ ∀ links, r = .ok links → LinksAllow e p q links := by
  have htarget : ∀ x : RelPath, isInLinkTarget e.config x.dropLast
      = decide ((CopyUp.findLinkAbove e.config x).stop ≠ .none) := fun _ => rfl
  rw [Rename.checkRenameLinkBoundary]
  apply Step.Ensures.get
  apply Step.Ensures.ite
  · exact fun _ => ⟨Looked.refl e, fun _ h => by cases h⟩
  · intro hread
    rw [Bool.or_eq_true, not_or] at hread
    have hsame : ∀ b, (decide ((CopyUp.findLinkAbove e.config p).stop
          = (CopyUp.findLinkAbove e.config q).stop) &&
        decide ((CopyUp.findLinkAbove e.config p).path
          = (CopyUp.findLinkAbove e.config q).path)) = b → b = true →
        isInLinkTarget e.config p.dropLast = isInLinkTarget e.config q.dropLast := by
      intro b hb htrue
      rw [htrue, Bool.and_eq_true] at hb
      rw [htarget, htarget, of_decide_eq_true hb.1]
    apply Step.Ensures.ite
    · intro hplain
      rw [Bool.and_eq_true] at hplain
      refine Step.Ensures.pure ⟨Looked.refl e, fun links hl => ?_⟩
      obtain rfl := Except.ok.inj hl
      refine ⟨fun _ => hsame _ rfl hplain.1, fun h => absurd rfl h, fun _ _ hlink => ?_, nofun⟩
      rw [htarget, decide_eq_true_eq] at hlink
      have hstop : (CopyUp.findLinkAbove e.config p).stop = .link := by
        cases hs : (CopyUp.findLinkAbove e.config p).stop with
        | none => exact absurd hs hlink
        | link => rfl
        | unreadable => exact absurd (decide_eq_true hs) hread.1
      refine stop_of_upperLink hstop fun hsource => ?_
      have hsource : (CopyUp.findLinkAbove e.config p).source = .lower := hsource
      have hwithin := hplain.2
      rw [hplain.1, decide_eq_true hstop, decide_eq_true hsource] at hwithin
      cases hwithin
    · intro hlower
      refine Step.Ensures.bind (shownParentLeads_ensures q e) ?_ fun _ _ h => by
        obtain ⟨-, b, h, -⟩ := h
        cases h
      rintro leads f ⟨hf, b, hb, hleads⟩
      obtain rfl : leads = b := by simpa using hb
      apply Step.Ensures.ite
      · intro hno
        have hnot : ¬ParentLeads e q := fun h => by
          rw [hleads.mpr h] at hno
          cases hno
        refine Step.Ensures.pure ⟨hf, fun links hl => ?_⟩
        obtain rfl := Except.ok.inj hl
        exact ⟨fun h => absurd h hnot, fun h => absurd rfl h, fun h => absurd h hnot, nofun⟩
      · intro hyes
        have hyes : leads = true := by simpa using hyes
        apply Step.Ensures.ite
        · exact fun _ => ⟨hf, fun _ h => by cases h⟩
        · intro hlinks
          rw [Bool.not_eq_true', Bool.not_eq_false] at hlinks
          refine Step.Ensures.pure ⟨hf, fun links hl => ?_⟩
          obtain rfl := Except.ok.inj hl
          refine ⟨fun _ => hsame _ rfl hlinks, fun _ => hleads.mp hyes, nofun, fun link hlink => ?_⟩
          obtain rfl : (CopyUp.findLinkAbove e.config p).path = link := by simpa using hlink
          rw [hlinks] at hlower
          have hstops : (CopyUp.findLinkAbove e.config p).stop = .link ∧
              (CopyUp.findLinkAbove e.config p).source = .lower := by
            simpa using hlower
          obtain ⟨hstop, hsource⟩ := hstops
          change findLinkInView e.config p.dropLast = ⟨.link, .lower,
            (findLinkInView e.config p.dropLast).path⟩
          change (findLinkInView e.config p.dropLast).stop = .link at hstop
          change (findLinkInView e.config p.dropLast).source = .lower at hsource
          rw [← hstop, ← hsource]

/-! ## The destination -/

theorem isInsideDirectory_iff (p d : RelPath) :
    isInsideDirectory p d = true ↔ d ≠ [] ∧ d <+: p ∧ p ≠ d := by
  simp [isInsideDirectory, List.isPrefixOf_iff_prefix, and_assoc]

theorem isResolvablePath_of_checked (hparses : parsesAsHostPath p = true)
    (hreserved : isReservedOverlayPath e.config p = false) :
    isResolvablePath e.config p = true := by
  rw [isResolvablePath, hreserved, Bool.not_false, Bool.and_true]
  exact hparses

/-- Neither path is on the other. -/
def Apart (p q : RelPath) : Prop := ¬p <+: q ∧ ¬q <+: p

/-- What a rename may find at the new path: nothing, or an entry that the caller lets it replace,
with nothing listed below it, and a directory just when the source is one. -/
def Replaceable (e : Engine) (v : Shown) (q : RelPath) (replace : Bool) : Prop :=
  viewAt e q = none ∨ replace = true ∧ Removable e q ∧
    (v.kind = .directory ↔ viewAt e q = some .directory)

theorem merged_of_empty (h : directoryEmptinessStatus e p = .ok ()) :
    mergeDirectoryAcrossLayers e.config p = .ok [] := by
  rw [directoryEmptinessStatus] at h
  cases hmerge : mergeDirectoryAcrossLayers e.config p with
  | error status => rw [hmerge] at h; cases h
  | ok entries =>
    cases entries with
    | nil => rfl
    | cons x rest => rw [hmerge] at h; cases h

theorem Untouched.symm (h : Untouched e g) : Untouched g e :=
  ⟨h.upper.symm, h.lowers.symm, h.files.symm, h.host.symm, h.undoFailed.symm,
    h.contexts.symm⟩

theorem Replaceable.untouched {v : Shown} {replace : Bool} (h : Replaceable e v q replace)
    (hf : Untouched e f) : Replaceable f v q replace := by
  rw [Replaceable, Removable, hf.viewAt, hf.config] at *
  exact h

theorem checkRenameDestination_ensures {v : Shown} {source : Place} {replace : Bool}
    (hp : p ≠ []) (hq : q ≠ []) (hne : p ≠ q) (hview : viewAt e p = some v) :
    (Rename.checkRenameDestination p q source v.kind replace).Ensures e fun r g =>
      Looked e g ∧ ∀ destination, r = .ok destination →
        Apart p q ∧ Replaceable e v q replace := by
  have hfail : ∀ {f : Engine} {status : NtStatus}, Looked e f →
      Looked e f ∧ ∀ destination : Option EntryKind, (.error status : Except _ _) = .ok destination →
        Apart p q ∧ Replaceable e v q replace :=
    fun hf => ⟨hf, fun _ h => by cases h⟩
  apply Step.Ensures.ite
  · exact fun _ => hfail (Looked.refl e)
  · intro _
    refine Step.Ensures.bind (lookup_ensures q e) ?_ fun _ _ hf => by cases hf.1
    rintro resolved f ⟨hresolved, hf⟩
    obtain rfl : resolved = (resolvePath e.config q {}).1 := by simpa using hresolved
    apply Step.Ensures.get
    apply Step.Ensures.ite
    · exact fun _ => hfail hf
    · intro hallowed
      apply Step.Ensures.ite
      · exact fun _ => hfail hf
      · intro hunder
        have hunder : ¬p <+: q := fun hpre =>
          hunder ((isInsideDirectory_iff q p).mpr ⟨hp, hpre, Ne.symm hne⟩)
        have habove : viewAt e q = none → ¬q <+: p := by
          intro hnone hpre
          have hdir := showsDirectory_above hq hpre (Ne.symm hne) (by rw [hview]; rfl)
          rw [ShowsDirectory, hnone] at hdir
          rcases hdir with h | h <;> cases h
        apply Step.Ensures.ite
        · intro hfree
          have hnone : viewAt e q = none := by
            rw [Bool.not_eq_true', ← Bool.not_eq_true, found_iff_viewAt hq,
              Option.not_isSome_iff_eq_none] at hfree
            exact hfree
          exact Step.Ensures.pure ⟨hf, fun _ _ => ⟨⟨hunder, habove hnone⟩, .inl hnone⟩⟩
        · intro hfound
          have hfound : (resolvePath e.config q {}).1.found = true := by simpa using hfound
          have hreplace : replace = true := by simpa [hfound] using hallowed
          obtain ⟨w, hw⟩ := Option.isSome_iff_exists.mp ((found_iff_viewAt hq).mp hfound)
          have hkind : resolvedKind f (resolvePath e.config q {}).1 = w.kind := by
            rw [resolvedKind, hf.resolvedAt]
            exact resolvedKind_of_shown hw
          apply Step.Ensures.ite
          · exact fun _ => hfail hf
          · intro hinside
            have hapart : Apart p q := ⟨hunder, fun hpre =>
              hinside ((isInsideDirectory_iff p q).mpr ⟨hq, hpre, hne⟩)⟩
            dsimp only
            rw [hkind]
            apply Step.Ensures.ite
            · exact fun _ => hfail hf
            · intro hdirs
              apply Step.Ensures.ite
              · exact fun _ => hfail hf
              · intro hfiles
                have hsort : v.kind = .directory ↔ w = .directory := by
                  cases w <;> cases v <;> simp_all [Shown.kind]
                apply Step.Ensures.ite
                · intro hsource
                  refine Step.Ensures.bind (P := fun r g => g = f ∧
                    r = directoryEmptinessStatus f q) ⟨rfl, rfl⟩ ?_ ?_
                  · rintro _ _ ⟨rfl, hempty⟩
                    rw [directoryEmptinessStatus, hf.toUntouched.config] at hempty
                    refine Step.Ensures.pure ⟨hf, fun _ _ => ⟨hapart, .inr ⟨hreplace, ?_, ?_⟩⟩⟩
                    · obtain rfl := hsort.mp hsource
                      exact .inr (.inr ⟨hw, merged_of_empty hempty.symm⟩)
                    · rw [hw, hsort, Option.some.injEq]
                  · rintro _ _ ⟨rfl, -⟩
                    exact hfail hf
                · intro hsource
                  refine Step.Ensures.pure ⟨hf, fun _ _ => ⟨hapart, .inr ⟨hreplace, ?_, ?_⟩⟩⟩
                  · cases w with
                    | file content => exact .inl ⟨content, hw⟩
                    | link => exact .inr (.inl hw)
                    | directory => exact absurd (hsort.mpr rfl) hsource
                  · rw [hw, hsort, Option.some.injEq]

/-! ## All checks -/

/-- What a rename has checked.  Of one path to itself it checks less. -/
structure RenameChecked (e : Engine) (p q : RelPath) (replace : Bool)
    (checked : Rename.CheckedRename) : Prop where
  source_ne : p ≠ []
  new_ne : q ≠ []
  source : ∃ v, viewAt e p = some v ∧ checked.kinds.source = v.kind ∧
    (p ≠ q → Replaceable e v q replace)
  apart : p ≠ q → Apart p q
  alone : p = q → checked.kinds.destination = none
  resolvable : isResolvablePath e.config q = true
  links : LinksAllow e p q checked.links

theorem ne_nil_of_parses (h : parsesAsHostPath p = true) : p ≠ [] := by
  rintro rfl
  exact absurd h (by decide)

theorem checkRenameRequest_ensures (p q : RelPath) (e : Engine) :
    (Rename.checkRenameRequest p q).Ensures e fun r g => g = e ∧ (r = .ok () →
      p ≠ [] ∧ q ≠ [] ∧ isResolvablePath e.config q = true) := by
  apply Step.Ensures.get
  apply Step.Ensures.ite
  · exact fun _ => ⟨rfl, fun h => by cases h⟩
  · intro hparses
    simp only [Bool.or_eq_true, Bool.not_eq_true', not_or, Bool.not_eq_false] at hparses
    apply Step.Ensures.ite
    · exact fun _ => ⟨rfl, fun h => by cases h⟩
    · intro hreserved
      simp only [Bool.or_eq_true, not_or, Bool.not_eq_true] at hreserved
      exact ⟨rfl, fun _ => ⟨ne_nil_of_parses hparses.1, ne_nil_of_parses hparses.2,
        isResolvablePath_of_checked hparses.2 hreserved.2⟩⟩

theorem checkRename_ensures (p q : RelPath) (replace : Bool) (e : Engine) :
    (Rename.checkRename p q replace).Ensures e fun r g =>
      Looked e g ∧ ∀ checked, r = .ok checked → RenameChecked e p q replace checked := by
  refine Step.Ensures.bind (checkRenameRequest_ensures p q e) ?_ ?_
  · rintro _ k ⟨hk, hrequest⟩
    obtain rfl : e = k := hk.symm
    obtain ⟨hp, hq, hres⟩ := hrequest rfl
    refine Step.Ensures.bind (lookup_ensures p e) ?_ fun _ _ hf => by cases hf.1
    rintro resolved f ⟨hresolved, hf⟩
    obtain rfl : resolved = (resolvePath e.config p {}).1 := by simpa using hresolved
    apply Step.Ensures.ite
    · exact fun _ => ⟨hf, fun _ h => by cases h⟩
    · intro hfound
      obtain ⟨v, hview⟩ := Option.isSome_iff_exists.mp
        ((found_iff_viewAt hp).mp (by simpa using hfound))
      have hview' : viewAt f p = some v := by rw [hf.toUntouched.viewAt, hview]
      refine Step.Ensures.bind (checkRenameLinkBoundary_ensures p q f) ?_ ?_
      rotate_left
      · exact fun _ _ h => ⟨hf.trans h.1, fun _ h => by cases h⟩
      rintro links f' ⟨hf', hlinks⟩
      have hlinks := hlinks links rfl
      have hlooked := hf.trans hf'
      apply Step.Ensures.get
      have hkind : resolvedKind f' (resolvePath e.config p {}).1 = v.kind := by
        rw [resolvedKind, hlooked.resolvedAt]
        exact resolvedKind_of_shown hview
      have hlinks := hlinks.untouched hf.toUntouched
      apply Step.Ensures.ite
      · intro hne
        have hview' : viewAt f' p = some v := by rw [hlooked.toUntouched.viewAt, hview]
        rw [hkind]
        refine Step.Ensures.bind (checkRenameDestination_ensures hp hq hne hview') ?_ ?_
        · rintro destination g ⟨hg, hdestination⟩
          obtain ⟨hapart, hreplaceable⟩ := hdestination destination rfl
          refine Step.Ensures.pure ⟨hlooked.trans hg, fun checked hc => ?_⟩
          obtain rfl := Except.ok.inj hc
          exact ⟨hp, hq, ⟨v, hview, rfl, fun _ =>
            hreplaceable.untouched hlooked.toUntouched.symm⟩, fun _ => hapart,
            fun heq => absurd heq hne, hres, hlinks⟩
        · exact fun _ g hg => ⟨hlooked.trans hg.1, fun _ h => by cases h⟩
      · intro heq
        refine Step.Ensures.pure ⟨hlooked, fun checked hc => ?_⟩
        obtain rfl := Except.ok.inj hc
        exact ⟨hp, hq, ⟨v, hview, hkind, fun hne => absurd hne heq⟩, fun hne => absurd hne heq,
          fun _ => rfl, hres, hlinks⟩
  · rintro _ k ⟨hk, -⟩
    rw [hk]
    exact ⟨Looked.refl e, fun _ h => by cases h⟩

end LayerMount
