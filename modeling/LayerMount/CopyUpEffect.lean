import LayerMount.CopyUpView
import LayerMount.DeleteView

/-!
# What a copy-up leaves on the disk

The staging area is as it was before, whether the copy-up succeeds or not, and a copy-up
that fails has put at most directories and links on the way to the parent of its path
into the upper (`Gains`).

`copyUp_keeps_view` puts this beside the view of `LayerMount.CopyUpView`.
-/

namespace LayerMount

open Lib

variable {e f g : Engine} {d p q : RelPath} {n : Name}

/-! ## What the upper gains -/

/-- Every entry of the upper is kept, and a new one is a directory on the way to `d`, or
is at or behind a new link on that way. -/
structure Gains (e g : Engine) (d : RelPath) : Prop where
  kept : ∀ r, (e.upperAt r).isSome = true → entryAt g.upper r = entryAt e.upper r
  gained : ∀ r, e.upperAt r = none → (g.upperAt r).isSome = true →
    (r <+: d ∧ placeKind (g.upperAt r) = .directory) ∨
    ∃ a, a <+: d ∧ a <+: r ∧ a ≠ [] ∧ e.upperAt a = none ∧ placeKind (g.upperAt a) = .link

theorem isSome_upperAt_congr (h : entryAt g.upper p = entryAt e.upper p) :
    (g.upperAt p).isSome = (e.upperAt p).isSome := by
  have hsome := congrArg Option.isSome h
  rw [isSome_entryAt, isSome_entryAt] at hsome
  exact hsome

theorem gains_of_same (h : ∀ r, entryAt g.upper r = entryAt e.upper r) (d : RelPath) :
    Gains e g d where
  kept r _ := h r
  gained := by
    intro r hnone hsome
    rw [isSome_upperAt_congr (h r), hnone] at hsome
    cases hsome

theorem Gains.mono (h : Gains e g d) {d' : RelPath} (hd : d <+: d') : Gains e g d' where
  kept := h.kept
  gained := by
    intro r hnone hsome
    rcases h.gained r hnone hsome with ⟨hr, hkind⟩ | ⟨a, ha, har, hne, hfree, hkind⟩
    · exact .inl ⟨hr.trans hd, hkind⟩
    · exact .inr ⟨a, ha.trans hd, har, hne, hfree, hkind⟩

/-- An entry that was gained is kept from then on. -/
theorem Gains.placeKind (h : Gains f g d) (hsome : (f.upperAt p).isSome = true) :
    placeKind (g.upperAt p) = placeKind (f.upperAt p) :=
  (@node_congr [] _ _ (h.kept p hsome)).1

theorem Gains.trans (h : Gains e f d) (h' : Gains f g d) : Gains e g d where
  kept := by
    intro r hsome
    have hf : (f.upperAt r).isSome = true := by
      rw [isSome_upperAt_congr (h.kept r hsome)]
      exact hsome
    rw [h'.kept r hf, h.kept r hsome]
  gained := by
    intro r hnone hsome
    cases hf : f.upperAt r with
    | some t =>
      have hfsome : (f.upperAt r).isSome = true := by
        rw [hf]
        rfl
      rcases h.gained r hnone hfsome with ⟨hr, hkind⟩ | ⟨a, ha, har, hne, hfree, hkind⟩
      · rw [h'.placeKind hfsome]
        exact .inl ⟨hr, hkind⟩
      · have hasome : (f.upperAt a).isSome = true := by
          cases hfa : f.upperAt a with
          | none => rw [hfa] at hkind; cases hkind
          | some t => rfl
        exact .inr ⟨a, ha, har, hne, hfree, (h'.placeKind hasome).trans hkind⟩
    | none =>
      rcases h'.gained r hf hsome with hdir | ⟨a, ha, har, hne, hfree, hkind⟩
      · exact .inl hdir
      · refine .inr ⟨a, ha, har, hne, ?_, hkind⟩
        cases hea : e.upperAt a with
        | none => rfl
        | some t =>
          have hasome : (e.upperAt a).isSome = true := by
            rw [hea]
            rfl
          have hfa := isSome_upperAt_congr (h.kept a hasome)
          rw [hfree, hasome] at hfa
          cases hfa

/-- A new directory with no children, or a new link, at a free name of a directory. -/
theorem gains_of_puts {t : Tree} (hputs : PutsAt e g (d ++ [n]) (some t))
    (hlead : leadsToDirectory (e.upperAt d) = true) (hdot : n ≠ ['.'])
    (hfree : e.upperAt (d ++ [n]) = none)
    (hkind : treeKind t = .link ∨ ∃ v, t = .node v [] ∧ v.link = false) :
    Gains e g (d ++ [n]) where
  kept := by
    intro r hsome
    have hpre : ¬d ++ [n] <+: r := by
      rintro ⟨q, rfl⟩
      rw [Engine.upperAt, placeAt_append, ← Engine.upperAt, hfree, placeAt_none] at hsome
      cases hsome
    rw [hputs.upper, entryAt_put_elsewhere hpre]
  gained := by
    intro r hnone hsome
    have hat : g.upperAt (d ++ [n]) = some t := hputs.upperAt hlead hdot
    by_cases hpre : d ++ [n] <+: r
    · rcases hkind with hlink | ⟨v, rfl, hv⟩
      · refine .inr ⟨d ++ [n], List.prefix_refl _, hpre, by simp, hfree, ?_⟩
        rw [hat]
        simp [placeKind, hlink]
      · left
        obtain ⟨q, rfl⟩ := hpre
        cases q with
        | nil =>
          rw [List.append_nil, hat]
          exact ⟨List.prefix_refl _, by simp [placeKind, treeKind, hv]⟩
        | cons m q =>
          have hnone : childAt (some (.node v [] : Tree)) m = none := by
            simp [childAt, placeAt, PathTree.sub_cons, PathTree.child]
          rw [Engine.upperAt, placeAt_append, ← Engine.upperAt, hat, placeAt_cons, hnone,
            placeAt_none] at hsome
          cases hsome
    · have hsame : entryAt g.upper r = entryAt e.upper r := by
        rw [hputs.upper, entryAt_put_elsewhere hpre]
      rw [isSome_upperAt_congr hsame, hnone] at hsome
      cases hsome

/-! ## The staging area -/

theorem diskStep_staging (step : DiskStep) (e : Engine) :
    (diskStep step).Ensures e fun _ g => g.staging = e.staging := by
  unfold Step.Ensures diskStep
  split
  · rfl
  · split
    · rfl
    · split <;> rfl

/-- An entry is staged, or nothing is. -/
theorem stageEntry_staging (t : Tree) (e : Engine) :
    (stageEntry t).Ensures e fun r g =>
      match r with
      | .ok _ => g.staging = t :: e.staging
      | .error _ => g.staging = e.staging := by
  apply Step.Ensures.modify_bind
  refine Step.Ensures.attempt_bind (diskStep_staging .stage _) ?_
  intro r f hf
  cases r with
  | ok _ => exact hf
  | error status =>
    apply Step.Ensures.modify_bind
    show f.staging.tail = e.staging
    rw [hf]
    rfl

theorem placeEntry_staging (p : RelPath) (t : Tree) (e : Engine) :
    (placeEntry p t).Ensures e fun _ g => g.staging = e.staging := by
  apply Step.Ensures.get
  apply Step.Ensures.ite
  · exact fun _ => rfl
  · intro _
    apply Step.Ensures.ite
    · exact fun _ => rfl
    · exact fun _ => rfl

/-- The staged entry goes, to the upper or for good. -/
theorem commitStaged_staging (p : RelPath) (t : Tree) (e : Engine) :
    (commitStaged p t).Ensures e fun _ g => g.staging = e.staging.tail := by
  have hmove : (moveStaged p t).Ensures e fun r g =>
      match r with
      | .ok _ => g.staging = e.staging.tail
      | .error _ => g.staging.tail = e.staging.tail := by
    refine Step.Ensures.bind (diskStep_staging .commit e) ?_ fun _ f hf => by rw [hf]
    intro _ f hf
    refine Step.Ensures.bind (placeEntry_staging p t f) ?_ fun _ f' hf' => by rw [hf', hf]
    intro _ f' hf'
    apply Step.Ensures.modify_bind
    refine Step.Ensures.attempt_bind (diskStep_staging .moveRecord _) ?_
    intro r h hh
    have htail : h.staging = e.staging.tail := by rw [hh, hf', hf]
    cases r with
    | ok _ => exact htail
    | error status => exact htail
  refine Step.Ensures.attempt_bind hmove ?_
  intro r f hf
  cases r with
  | ok _ => exact hf
  | error status => exact hf

/-! ## The end of a copy-up -/

/-- What the end of a copy-up of `p` leaves: an empty hand in the staging area, the entries
that the upper had, nothing new but at `p` and behind a link there, and after an error
nothing new at all. -/
structure EndsClean {α : Type} (f g : Engine) (p : RelPath) (r : Except NtStatus α) :
    Prop where
  staging : g.staging = f.staging
  kept : ∀ x, (f.upperAt x).isSome = true → entryAt g.upper x = entryAt f.upper x
  brings : ∀ x, x ≠ p → f.upperAt x = none → (g.upperAt x).isSome = true →
    p <+: x ∧ p ≠ [] ∧ placeKind (g.upperAt p) = .link
  entries : ∀ status, r = .error status → ∀ x, entryAt g.upper x = entryAt f.upper x

theorem endsClean_of_same {α : Type} (hstaging : g.staging = f.staging)
    (h : ∀ x, entryAt g.upper x = entryAt f.upper x) (p : RelPath) (r : Except NtStatus α) :
    EndsClean f g p r where
  staging := hstaging
  kept x _ := h x
  brings := by
    intro x _ hnone hsome
    rw [isSome_upperAt_congr (h x), hnone] at hsome
    cases hsome
  entries _ _ := h

theorem EndsClean.untouched {α β : Type} {a : α} {r : Except NtStatus β} {b : β}
    (h : EndsClean e f p (.ok a : Except NtStatus α)) (hs : g.staging = f.staging)
    (hupper : g.upper = f.upper) (hr : r = .ok b) : EndsClean e g p r where
  staging := hs.trans h.staging
  kept x hx := by rw [hupper, h.kept x hx]
  brings := by
    intro x
    rw [Engine.upperAt, Engine.upperAt, Engine.upperAt, hupper]
    exact h.brings x
  entries _ herror := by rw [hr] at herror; cases herror

theorem EndsClean.failed {α β : Type} {status : NtStatus}
    (h : EndsClean e g p (.error status : Except NtStatus α)) :
    EndsClean e g p (.error status : Except NtStatus β) :=
  ⟨h.staging, h.kept, h.brings, fun _ _ => h.entries status rfl⟩

/-- Nothing is below the entry, or it is a link. -/
def SingleOrLink (t : Tree) : Prop :=
  treeKind t = .link ∨ ∀ n, childAt (some t) n = none

theorem singleOrLink_leaf (v : Leaf) : SingleOrLink (.leaf v) := .inr (childAt_leaf v)

/-- What is put at a free name brings nothing that is not at or behind it. -/
theorem brings_of_puts {t : Tree} (hputs : PutsAt e g (d ++ [n]) (some t))
    (hlead : leadsToDirectory (e.upperAt d) = true) (ht : SingleOrLink t) {x : RelPath}
    (hne : x ≠ d ++ [n]) (hnone : e.upperAt x = none) (hsome : (g.upperAt x).isSome = true) :
    d ++ [n] <+: x ∧ placeKind (g.upperAt (d ++ [n])) = .link := by
  by_cases hpre : d ++ [n] <+: x
  · refine ⟨hpre, ?_⟩
    by_cases hdot : n = ['.']
    · obtain ⟨q, rfl⟩ := hpre
      rw [Engine.upperAt, placeAt, if_pos (by simp [hdot])] at hsome
      cases hsome
    have hat : g.upperAt (d ++ [n]) = some t := hputs.upperAt hlead hdot
    rcases ht with hlink | hsingle
    · rw [hat]
      simp [placeKind, hlink]
    · obtain ⟨q, rfl⟩ := hpre
      cases q with
      | nil => exact absurd (List.append_nil _) hne
      | cons m q =>
        rw [Engine.upperAt, placeAt_append, ← Engine.upperAt, hat, placeAt_cons, hsingle,
          placeAt_none] at hsome
        cases hsome
  · have hsame : entryAt g.upper x = entryAt e.upper x := by
      rw [hputs.upper, entryAt_put_elsewhere hpre]
    rw [isSome_upperAt_congr hsame, hnone] at hsome
    cases hsome

/-- What is put at a free place leaves the entries that the upper has. -/
theorem kept_of_puts {t : Place} (hputs : PutsAt e g p t) (hfree : e.upperAt p = none)
    {x : RelPath} (hx : (e.upperAt x).isSome = true) :
    entryAt g.upper x = entryAt e.upper x := by
  rw [hputs.upper, entryAt_put_elsewhere]
  rintro ⟨q, rfl⟩
  rw [Engine.upperAt, placeAt_append, ← Engine.upperAt, hfree, placeAt_none] at hx
  cases hx

/-- A staged entry that is moved to the upper, from a state that has the same upper. -/
theorem commitStaged_endsClean {t : Tree} (hstaging : f.staging = t :: e.staging)
    (hupper : f.upper = e.upper) (ht : SingleOrLink t) (p : RelPath) :
    (commitStaged p t).Ensures f fun r g => EndsClean e g p r := by
  have hat : ∀ x, f.upperAt x = e.upperAt x := fun x => by
    rw [Engine.upperAt, Engine.upperAt, hupper]
  refine ((commitStaged_ensures p t f).and (commitStaged_staging p t f)).mono ?_
  intro r g hboth
  have hs : g.staging = e.staging := by
    rw [hboth.2, hstaging]
    rfl
  have hg := hboth.1
  cases r with
  | error status => exact endsClean_of_same hs (fun x => by rw [hg.entries x, hupper]) _ _
  | ok _ =>
    obtain ⟨hlead, hfree, hputs⟩ := hg
    have hp : p ≠ [] := by
      rintro rfl
      rw [List.dropLast_nil, hfree] at hlead
      cases hlead
    obtain ⟨d, n, rfl⟩ : ∃ d n, p = d ++ [n] := ⟨_, _, (List.dropLast_append_getLast hp).symm⟩
    rw [List.dropLast_concat] at hlead
    refine ⟨hs, fun x hx => ?_, fun x hne hnone hsome => ?_, fun status herror => ?_⟩
    · rw [← hat] at hx
      rw [kept_of_puts hputs hfree hx, hupper]
    · rw [← hat] at hnone
      have hbrings := brings_of_puts hputs hlead ht hne hnone hsome
      exact ⟨hbrings.1, hp, hbrings.2⟩
    · cases herror

theorem stageEntry_endsClean {t : Tree} {α : Type} {k : Unit → Op α}
    (h : ∀ f, Untouched e f → f.staging = t :: e.staging →
      (k ()).Ensures f fun r g => EndsClean e g p r) :
    (stageEntry t >>= k).Ensures e fun r g => EndsClean e g p r := by
  refine Step.Ensures.bind ((stageEntry_ensures t e).and (stageEntry_staging t e)) ?_ ?_
  · intro _ f hf
    exact h f hf.1 hf.2
  · intro status f hf
    exact endsClean_of_same hf.2 (fun x => by rw [hf.1.upper]) p _

theorem newFile_bind_ensures {α : Type} {x : FileObj} {k : FileId → Op α}
    {Q : Except NtStatus α → Engine → Prop}
    (h : (k f.files.length).Ensures { f with files := f.files ++ [x] } Q) :
    (newFile x >>= k).Ensures f Q :=
  h

theorem singleOrLink_clonedLink {t : Tree} (hclone : CopyUp.clonesReparsePoint files t = true) :
    SingleOrLink (CopyUp.clonedLink t) := by
  cases t with
  | leaf v => exact singleOrLink_leaf v
  | node v children =>
    left
    rw [treeKind_clonedLink]
    simpa [CopyUp.clonesReparsePoint, treeKind] using hclone

theorem cloneThroughWorkDir_endsClean {t : Tree}
    (hclone : CopyUp.clonesReparsePoint files t = true) (p : RelPath) (e : Engine) :
    (CopyUp.cloneThroughWorkDir t p).Ensures e fun r g => EndsClean e g p r := by
  cases hfile : fileOf (some t) with
  | none =>
    rw [CopyUp.cloneThroughWorkDir, hfile]
    apply stageEntry_endsClean
    intro f hf hs
    exact commitStaged_endsClean hs hf.upper (singleOrLink_clonedLink hclone) p
  | some id =>
    rw [CopyUp.cloneThroughWorkDir, hfile]
    apply Step.Ensures.get
    apply stageEntry_endsClean
    intro f hf hs
    apply newFile_bind_ensures
    -- the new file has the id that the staged entry names
    rw [hf.files]
    apply commitStaged_endsClean
    · exact hs
    · exact hf.upper
    · exact singleOrLink_leaf _

theorem invalidate_endsClean {a : Unit} (h : EndsClean e f p (.ok a)) (x : RelPath) :
    (invalidateWithAncestors x).Ensures f fun r g => EndsClean e g p r :=
  h.untouched rfl rfl rfl

theorem singleOrLink_stagedDirectory (t : Tree) : SingleOrLink (CopyUp.stagedDirectory t) := by
  right
  intro m
  cases t <;> simp [CopyUp.stagedDirectory, childAt, placeAt, PathTree.sub_cons, PathTree.child]

theorem copyUpDirectoryTarget_endsClean (p : RelPath) (source : ResolvedPath) (e : Engine) :
    (CopyUp.copyUpDirectoryTarget p source).Ensures e fun r g => EndsClean e g p r := by
  apply Step.Ensures.get
  cases e.resolvedAt source with
  | none => exact endsClean_of_same rfl (fun _ => rfl) p _
  | some t =>
    apply Step.Ensures.ite
    · intro hclone
      exact Step.Ensures.bind (cloneThroughWorkDir_endsClean hclone p e)
        (fun _ _ hf => invalidate_endsClean hf p) fun _ _ hf => hf
    · intro _
      apply stageEntry_endsClean
      intro f hf hs
      exact Step.Ensures.bind
        (commitStaged_endsClean hs hf.upper (singleOrLink_stagedDirectory t) p)
        (fun _ _ hf => invalidate_endsClean hf p) fun _ _ hf => hf

/-! ## Directories -/

/-- What a copy-up of `p` leaves behind: the staging area as it was, no new file but at `p`
and behind a link, and after an error an upper that has gained at most the way to the
parent. -/
structure LeavesClean {α : Type} (e g : Engine) (p : RelPath) (r : Except NtStatus α) : Prop where
  staging : g.staging = e.staging
  brings : ∀ x, x ≠ p → e.upperAt x = none → (g.upperAt x).isSome = true →
    placeKind (g.upperAt x) = .directory ∨
      ∃ a, a ≠ [] ∧ a <+: x ∧ placeKind (g.upperAt a) = .link
  gains : ∀ status, r = .error status → Gains e g p.dropLast

/-- The state on the way to a copy-up below `d`. -/
structure Climbs (e g : Engine) (d : RelPath) : Prop where
  raised : Raised e g
  staging : g.staging = e.staging
  gains : Gains e g d

theorem Climbs.trans (h : Climbs e f d) (h' : Climbs f g d) : Climbs e g d :=
  ⟨h.raised.trans h'.raised, h'.staging.trans h.staging, h.gains.trans h'.gains⟩

theorem climbs_of_untouched (h : Untouched e g) (hs : g.staging = e.staging) (d : RelPath) :
    Climbs e g d :=
  ⟨h.raised, hs, gains_of_same (fun r => by rw [h.upper]) d⟩

theorem climbs_refl (e : Engine) (d : RelPath) : Climbs e e d :=
  climbs_of_untouched (Untouched.refl e) rfl d

/-- The copy-up of a directory, as the functions that take one use it. -/
def ClimbsDirectories (copyUpDirectory : RelPath → Op Unit) : Prop :=
  ∀ d e, ShowsDirectory e d → (copyUpDirectory d).Ensures e fun r g =>
    RaisedTo e g d r ∧ LeavesClean e g d r ∧ Gains e g d

theorem ClimbsDirectories.copies {copyUpDirectory : RelPath → Op Unit}
    (h : ClimbsDirectories copyUpDirectory) : CopiesDirectories copyUpDirectory :=
  fun d e hdir => (h d e hdir).mono fun _ _ hg => hg.1

theorem ensureUpperParentWith_climbs {copyUpDirectory : RelPath → Op Unit}
    (hcopy : ClimbsDirectories copyUpDirectory) (p : RelPath) (e : Engine) :
    (CopyUp.ensureUpperParentWith copyUpDirectory p).Ensures e fun _ g =>
      Climbs e g p.dropLast := by
  apply Step.Ensures.ite
  · exact fun _ => climbs_refl e _
  · intro _
    apply Step.Ensures.get
    cases e.upperAt p.dropLast with
    | some t =>
      apply Step.Ensures.ite
      · exact fun _ => climbs_refl e _
      · exact fun _ => climbs_refl e _
    | none =>
      have hlook : (lookup p.dropLast).Ensures e fun r g =>
          (r = .ok (resolvePath e.config p.dropLast {}).1 ∧ Looked e g) ∧
            g.staging = e.staging :=
        (lookup_ensures p.dropLast e).and rfl
      refine Step.Ensures.bind hlook ?_ fun _ _ hf => by cases hf.1.1
      intro shown f ⟨⟨hshown, hf⟩, hs⟩
      have hclimbs := climbs_of_untouched hf.toUntouched hs p.dropLast
      have hshown : shown = (resolvePath f.config p.dropLast {}).1 := by
        rw [hf.config]
        exact Except.ok.inj hshown
      apply Step.Ensures.get
      apply Step.Ensures.ite
      · exact fun _ => hclimbs
      · intro hleads
        apply Step.Ensures.ite
        · intro _
          have hdir := showsDirectory_of_leads hshown (by simpa using hleads)
          refine (hcopy p.dropLast f hdir).mono fun r g hg => ?_
          exact hclimbs.trans ⟨hg.1.raised, hg.2.1.staging, hg.2.2⟩
        · exact fun _ => hclimbs

theorem prepareCopyUpTargetWith_climbs {copyUpDirectory : RelPath → Op Unit}
    (hcopy : ClimbsDirectories copyUpDirectory) (p : RelPath) (e : Engine) :
    (CopyUp.prepareCopyUpTargetWith copyUpDirectory p).Ensures e fun _ g =>
      Climbs e g p.dropLast := by
  apply Step.Ensures.get
  apply Step.Ensures.ite
  · exact fun _ => climbs_refl e _
  · intro _
    refine Step.Ensures.bind (ensureUpperParentWith_climbs hcopy p e) ?_ fun _ _ hf => hf
    intro _ f hf
    apply Step.Ensures.get
    apply Step.Ensures.ite
    · exact fun _ => hf
    · exact fun _ => hf

theorem brings_of_gains (h : Gains e g d) {x : RelPath} (hnone : e.upperAt x = none)
    (hsome : (g.upperAt x).isSome = true) : placeKind (g.upperAt x) = .directory ∨
      ∃ a, a ≠ [] ∧ a <+: x ∧ placeKind (g.upperAt a) = .link := by
  rcases h.gained x hnone hsome with ⟨-, hdir⟩ | ⟨a, -, hax, hne, -, hlink⟩
  · exact .inl hdir
  · exact .inr ⟨a, hne, hax, hlink⟩

theorem isSome_of_placeKind {o : Place} (h : placeKind o ≠ .missing) : o.isSome = true := by
  cases o with
  | none => exact absurd rfl h
  | some t => rfl

/-- The end of a copy-up, after the way to its parent. -/
theorem Climbs.leavesClean {α : Type} {r : Except NtStatus α} (h : Climbs e f p.dropLast)
    (hclean : EndsClean f g p r) : LeavesClean e g p r where
  staging := hclean.staging.trans h.staging
  brings := by
    intro x hne hnone hsome
    have hkind : ∀ y, (f.upperAt y).isSome = true →
        placeKind (g.upperAt y) = placeKind (f.upperAt y) :=
      fun y hy => (@node_congr [] _ _ (hclean.kept y hy)).1
    cases hf : f.upperAt x with
    | none =>
      obtain ⟨hpre, hp, hlink⟩ := hclean.brings x hne hf hsome
      exact .inr ⟨p, hp, hpre, hlink⟩
    | some t =>
      have hfsome : (f.upperAt x).isSome = true := by
        rw [hf]
        rfl
      rcases brings_of_gains h.gains hnone hfsome with hdir | ⟨a, ha, hax, hlink⟩
      · exact .inl ((hkind x hfsome).trans hdir)
      · have hasome := isSome_of_placeKind (o := f.upperAt a) (by rw [hlink]; decide)
        exact .inr ⟨a, ha, hax, (hkind a hasome).trans hlink⟩
  gains status herror := h.gains.trans (gains_of_same (hclean.entries status herror) _)

theorem Climbs.stops {α : Type} (h : Climbs e g p.dropLast) (r : Except NtStatus α) :
    LeavesClean e g p r :=
  ⟨h.staging, fun _ _ => brings_of_gains h.gains, fun _ _ => h.gains⟩

theorem ne_dot_of_lowerAt {i : Nat} {t : Tree} (h : e.lowerAt i (d ++ [n]) = some t) :
    n ≠ ['.'] := by
  intro hn
  rw [Engine.lowerAt, hn, placeAt_snoc] at h
  simp [childAt, placeAt] at h

theorem commitStaged_gains {t : Tree} (hdot : n ≠ ['.'])
    (hkind : treeKind t = .link ∨ ∃ v, t = .node v [] ∧ v.link = false) (e : Engine) :
    (commitStaged (d ++ [n]) t).Ensures e fun _ g => Gains e g (d ++ [n]) := by
  refine (commitStaged_ensures (d ++ [n]) t e).mono ?_
  intro r g hg
  cases r with
  | error _ => exact gains_of_same hg.entries _
  | ok _ =>
    obtain ⟨hlead, hfree, hputs⟩ := hg
    rw [List.dropLast_concat] at hlead
    exact gains_of_puts hputs hlead hdot hfree hkind

/-- A directory or a link that is staged and moved, with more steps after the move. -/
theorem stageEntry_gains {α : Type} {t : Tree} {k : Unit → Op α}
    (h : ∀ f, Untouched e f → (k ()).Ensures f fun _ g => Gains f g d) :
    (stageEntry t >>= k).Ensures e fun _ g => Gains e g d := by
  have hsame : ∀ {f : Engine}, Untouched e f → Gains e f d :=
    fun hf => gains_of_same (fun r => by rw [hf.upper]) _
  refine Step.Ensures.bind (stageEntry_ensures t e) ?_ fun _ f hf => hsame hf
  intro _ f hf
  exact (h f hf).mono fun _ g hg => (hsame hf).trans hg

/-- The copy of a directory or a link adds just that. -/
theorem copyUpDirectoryTarget_gains (hfree : e.upperAt (d ++ [n]) = none)
    (hdir : ShowsDirectory e (d ++ [n])) (hr : Raised e f) :
    (CopyUp.copyUpDirectoryTarget (d ++ [n]) (resolveLowerPath e.config (d ++ [n]))).Ensures f
      fun _ g => Gains f g (d ++ [n]) := by
  obtain ⟨v, hview, hv⟩ : ∃ v, viewAt e (d ++ [n]) = some v ∧ (v = .directory ∨ v = .link) := by
    rcases hdir with h | h
    · exact ⟨_, h, .inl rfl⟩
    · exact ⟨_, h, .inr rfl⟩
  have hdot : n ≠ ['.'] := by
    obtain ⟨i, u, hshown, -⟩ := shownBelow_of_viewAt hfree hview
    exact ne_dot_of_lowerAt hshown.place
  have hafter : ∀ {f f' : Engine}, Gains f f' (d ++ [n]) →
      (invalidateWithAncestors (d ++ [n])).Ensures f' fun _ g => Gains f g (d ++ [n]) := by
    intro f f' hf
    refine (invalidateWithAncestors_ensures _ f').mono fun _ g hg => hf.trans ?_
    exact gains_of_same (fun r => by rw [hg.2.upper]) _
  apply Step.Ensures.get
  cases ht : f.resolvedAt (resolveLowerPath e.config (d ++ [n])) with
  | none => exact gains_of_same (fun _ => rfl) _
  | some t =>
    have hkind : treeKind t = .directory ∨ treeKind t = .link := by
      rw [shown_of_lower hfree hview hr ht, shownOf_eq_directory_iff, shownOf_eq_link_iff] at hv
      exact hv
    apply Step.Ensures.ite
    · intro hclone
      have hlink : treeKind t = .link ∧ fileOf (some t) = none := by
        cases t with
        | node u children =>
          exact ⟨by simpa [CopyUp.clonesReparsePoint, treeKind] using hclone, rfl⟩
        | leaf w =>
          cases w with
          | file id => rcases hkind with h | h <;> cases h
          | deadLink => exact ⟨rfl, rfl⟩
          | marker => rcases hkind with h | h <;> cases h
      rw [CopyUp.cloneThroughWorkDir, hlink.2]
      refine Step.Ensures.bind (stageEntry_gains fun f' _ => commitStaged_gains hdot (.inl ?_) f')
        (fun _ _ hf' => hafter hf') fun _ _ h => h
      rw [treeKind_clonedLink]
      exact hlink.1
    · intro hclone
      have hdirectory : ∃ u, CopyUp.stagedDirectory t = .node u [] ∧ u.link = false := by
        cases t with
        | node u children => exact ⟨_, rfl, rfl⟩
        | leaf w => exact ⟨_, rfl, rfl⟩
      apply stageEntry_gains
      intro f' _
      exact Step.Ensures.bind (commitStaged_gains hdot (.inr hdirectory) f')
        (fun _ _ hf' => hafter hf') fun _ _ h => h

/-- The copy-up of a directory or link that shows. -/
theorem copyUpDirectoryWithin_climbs (k : Nat) :
    ClimbsDirectories (CopyUp.copyUpDirectoryWithin k) := by
  induction k with
  | zero =>
    intro p e _
    have hsame := climbs_refl e
    exact ⟨.error (Raised.refl e), (hsame _).stops _, (hsame p).gains⟩
  | succ k ih =>
    intro p e hdir
    refine (copyUpDirectoryWithin_raised (k + 1) p e hdir).and ?_
    apply Step.Ensures.get
    apply Step.Ensures.ite
    · exact fun _ => ⟨(climbs_refl e _).stops _, (climbs_refl e p).gains⟩
    · intro hfree
      have hne : p ≠ [] := by
        rcases hdir with h | h
        · exact ne_nil_of_free h hfree
        · exact ne_nil_of_free h hfree
      obtain ⟨d, n, rfl⟩ : ∃ d n, p = d ++ [n] :=
        ⟨_, _, (List.dropLast_append_getLast hne).symm⟩
      have hup : (d ++ [n]).dropLast <+: d ++ [n] := List.dropLast_prefix _
      refine Step.Ensures.bind ((prepareCopyUpTargetWith_raised ih.copies (d ++ [n]) e).and
        (prepareCopyUpTargetWith_climbs ih (d ++ [n]) e)) ?_ ?_
      · intro source f ⟨hf, hclimbs⟩
        cases source with
        | none => exact ⟨hclimbs.stops _, hclimbs.gains.mono hup⟩
        | some source =>
          obtain rfl := (hf.some source rfl).1
          refine ((copyUpDirectoryTarget_endsClean _ _ f).and
            (copyUpDirectoryTarget_gains (by simpa using hfree) hdir hf.raised)).mono ?_
          intro r g ⟨hclean, hgains⟩
          exact ⟨hclimbs.leavesClean hclean, (hclimbs.gains.mono hup).trans hgains⟩
      · intro status f ⟨_, hclimbs⟩
        exact ⟨hclimbs.stops _, hclimbs.gains.mono hup⟩

theorem copyUpDirectory_climbs : ClimbsDirectories CopyUp.copyUpDirectory :=
  fun p e hdir => copyUpDirectoryWithin_climbs _ p e hdir

/-! ## Files -/

theorem ensureDirectoryExists_staging (d : RelPath) (e : Engine) :
    (ensureDirectoryExists d).Ensures e fun _ g => g.staging = e.staging := by
  refine Step.Ensures.attempt_bind (diskStep_staging .createDirectories e) ?_
  intro r f hf
  cases r with
  | error _ => exact hf
  | ok _ => exact hf

theorem commitStagedFile_endsClean {id : FileId} (hheld : ParentHeld f p)
    (hstaging : f.staging = .leaf (.file id) :: e.staging) (hupper : f.upper = e.upper) :
    (CopyUp.commitStagedFile p id).Ensures f fun r g => EndsClean e g p r := by
  refine Step.Ensures.bind ((ensureDirectoryExists_held hheld).and
    (ensureDirectoryExists_staging _ f)) ?_ fun _ _ hf => by cases hf.1.1
  intro _ f' hf
  refine Step.Ensures.bind (commitStaged_endsClean ?_ ?_ (singleOrLink_leaf _) p)
    (fun _ _ hf => invalidate_endsClean hf p) fun _ _ hf => hf
  · rw [hf.2, hstaging]
  · rw [hf.1.2.upper, hupper]

theorem stageFile_endsClean (hheld : ParentHeld e p) (x : FileObj) :
    (CopyUp.stageFile x >>= CopyUp.commitStagedFile p).Ensures e fun r g => EndsClean e g p r := by
  have hstage : (CopyUp.stageFile x).Ensures e fun r g =>
      g.upper = e.upper ∧
        (∀ id, r = .ok id → g.staging = .leaf (.file id) :: e.staging) ∧
        ∀ x, r = .error x → g.staging = e.staging := by
    apply Step.Ensures.get
    refine Step.Ensures.bind ((stageEntry_ensures _ e).and (stageEntry_staging _ e)) ?_ ?_
    · intro _ f hf
      refine ⟨hf.1.upper, ?_, nofun⟩
      intro id hid
      rw [← Except.ok.inj hid, hf.1.files]
      exact hf.2
    · exact fun _ f hf => ⟨hf.1.upper, nofun, fun _ _ => hf.2⟩
  refine Step.Ensures.bind hstage ?_ ?_
  · intro id f hf
    refine commitStagedFile_endsClean ?_ (hf.2.1 id rfl) hf.1
    rcases hheld with hroot | hheld
    · exact .inl hroot
    · right
      rw [Engine.upperAt, hf.1]
      exact hheld
  · exact fun x f hf => endsClean_of_same (hf.2.2 x rfl) (fun _ => by rw [hf.1]) p _

theorem prepareCopyUpTarget_climbs (p : RelPath) (e : Engine) :
    (CopyUp.prepareCopyUpTarget p).Ensures e fun r g => Prepared e g p r ∧ Climbs e g p.dropLast :=
  (prepareCopyUpTarget_raised p e).and (prepareCopyUpTargetWith_climbs copyUpDirectory_climbs p e)

theorem copyUpFile_leavesClean (p : RelPath) (e : Engine) :
    (CopyUp.copyUpFile p).Ensures e fun r g => LeavesClean e g p r := by
  apply Step.Ensures.get
  apply Step.Ensures.ite
  · exact fun _ => (climbs_refl e _).stops _
  · intro _
    refine Step.Ensures.bind (prepareCopyUpTarget_climbs p e) ?_ fun _ _ hf => hf.2.stops _
    intro source f ⟨hf, hclimbs⟩
    cases source with
    | none => exact hclimbs.stops _
    | some source =>
      apply Step.Ensures.get
      cases f.resolvedAt source with
      | none => exact hclimbs.stops _
      | some t =>
        refine Step.Ensures.mono ?_ fun r g hclean => hclimbs.leavesClean hclean
        apply Step.Ensures.ite
        · intro hclone
          exact Step.Ensures.bind (cloneThroughWorkDir_endsClean hclone p f)
            (fun _ _ hf => invalidate_endsClean hf p) fun _ _ hf => hf
        · intro _
          cases fileOf (some t) with
          | none => exact endsClean_of_same rfl (fun _ => rfl) p _
          | some id => exact stageFile_endsClean (hf.some source rfl).2 _

theorem copyUpMetadataOnly_leavesClean (p : RelPath) (e : Engine) :
    (CopyUp.copyUpMetadataOnly p).Ensures e fun r g => LeavesClean e g p r := by
  apply Step.Ensures.get
  apply Step.Ensures.ite
  · exact fun _ => (climbs_refl e _).stops _
  · intro _
    apply Step.Ensures.get
    refine Step.Ensures.bind (P := fun _ g => g = e) rfl ?_ ?_
    · intro _ g hg
      subst hg
      refine Step.Ensures.bind (prepareCopyUpTarget_climbs p g) ?_ fun _ _ hf => hf.2.stops _
      intro source f ⟨hf, hclimbs⟩
      cases source with
      | none => exact hclimbs.stops _
      | some source =>
        apply Step.Ensures.get
        cases fileOf (f.resolvedAt source) with
        | none => exact hclimbs.stops _
        | some id =>
          refine Step.Ensures.mono ?_ fun r g hclean => hclimbs.leavesClean hclean
          apply stageEntry_endsClean
          intro f' hf' hs
          apply newFile_bind_ensures
          refine Step.Ensures.bind (commitStagedFile_endsClean ?_ ?_ ?_)
            (fun _ _ h => h.untouched rfl rfl rfl) fun _ _ h => h.failed
          · exact hf'.parentHeld (hf.some source rfl).2
          · rw [hf'.files]
            exact hs
          · exact hf'.upper
    · intro _ g hg
      subst hg
      exact (climbs_refl g _).stops _

/-! ## The view -/

/-- A merge lists a name exactly when the view shows it.  No entry of a host has a colon in
its name. -/
theorem listed_iff_viewAt (e : Engine) (d : RelPath) (hn : ':' ∉ n) :
    ∃ entries, mergeDirectoryAcrossLayers e.config d = .ok entries ∧
      (entries.lookup n).isSome = (viewAt e (d ++ [n])).isSome := by
  have hlisted : ∀ entries : List (Name × MergedEntry),
      (listedAt entries n).isSome = (entries.lookup n).isSome := by
    intro entries
    simp [listedAt]
  by_cases hsafe : isSafeRelativePath (d ++ [n]) = true
  · obtain ⟨entries, hentries, hlist⟩ :=
      listedAt_eq_shown e.sound e.noRedirect hsafe fun hdot => hdot ▸ not_found_dot e d
    refine ⟨entries, hentries, ?_⟩
    rw [← hlisted, hlist, Bool.eq_iff_iff, ← found_iff_viewAt (by simp), ResolvedPath.shown]
    split <;> simp_all
  · have hnone : (viewAt e (d ++ [n])).isSome = false := by
      cases hview : viewAt e (d ++ [n]) with
      | none => rfl
      | some v =>
        have hres := isResolvablePath_of_viewAt (e := e) (p := d ++ [n]) (by simp) (by simp [hview])
        rw [isResolvablePath, Bool.and_eq_true] at hres
        exact absurd hres.1 hsafe
    rw [hnone]
    by_cases hdsafe : (!d.isEmpty && !isSafeRelativePath d) = true
    · refine ⟨[], ?_, rfl⟩
      unfold mergeDirectoryAcrossLayers mergeDirectoryWithAncestry
      rw [hdsafe, Bool.true_or, if_pos rfl]
    · cases hresd : isReservedOverlayPath e.config d with
      | true =>
        refine ⟨[], ?_, rfl⟩
        unfold mergeDirectoryAcrossLayers mergeDirectoryWithAncestry
        rw [hresd, Bool.or_true, if_pos rfl]
      | false =>
        -- the directory is safe, so the name is the one that no entry has
        have hdot : n = ['.', '.'] := by
          by_contra hdot
          apply hsafe
          cases d with
          | nil => simp [isSafeRelativePath, hn, hdot]
          | cons m d =>
            have hd : isSafeRelativePath (m :: d) = true := by simpa using hdsafe
            simp only [isSafeRelativePath, List.isEmpty_cons, Bool.not_false, Bool.true_and]
              at hd
            rw [isSafeRelativePath, List.all_append, hd]
            simp [hn, hdot]
        have hkey : visibleEntryKey d n = none := by simp [visibleEntryKey, hdot]
        obtain ⟨entries, hentries, hlist⟩ :=
          merge_unlisted e.sound hresd (by simpa using hdsafe) (.inl hkey)
        refine ⟨entries, hentries, ?_⟩
        rw [← hlisted, hlist]
        rfl

/-- A path that shows and that the upper holds is the upper's. -/
theorem source_of_held {v : Shown} (hview : viewAt e p = some v)
    (hheld : (e.upperAt p).isSome = true) : (resolvePath e.config p {}).1.source = .upper := by
  by_cases hp : p = []
  · subst hp
    rfl
  · obtain ⟨t, ht⟩ := Option.isSome_iff_exists.mp hheld
    have ht : placeAt e.upper p = some t := ht
    rw [viewAt_eq e hp, Option.map_eq_some_iff] at hview
    obtain ⟨x, hx, -⟩ := hview
    rw [resolvePath_eq e hp, hx]
    rw [showAt_eq e hp] at hx
    split at hx
    · rw [slotsAt_cons, Overlay.look] at hx
      simp only [treeOverlay, slotOf_sub, ht, Option.map_some, Option.some.injEq] at hx
      rw [← hx]
      simp [resultOf, hitAt]
    · cases hx

/-- What a copy-up of `p` does to the view and to the disk. -/
structure CopiedUp {α : Type} (e g : Engine) (p : RelPath) (r : Except NtStatus α) : Prop
    extends LeavesClean e g p r, RaisedTo e g p r where
  listing : ∀ d, ∃ before after, mergeDirectoryAcrossLayers e.config d = .ok before ∧
    mergeDirectoryAcrossLayers g.config d = .ok after ∧
    ∀ n, ':' ∉ n → (after.lookup n).isSome = (before.lookup n).isSome
  supplied : ∀ a, r = .ok a → (resolvePath g.config p {}).1.source = .upper

theorem merge_total (e : Engine) (d : RelPath) :
    ∃ entries, mergeDirectoryAcrossLayers e.config d = .ok entries := by
  obtain ⟨entries, hentries, -⟩ := listed_iff_viewAt (n := []) e d nofun
  exact ⟨entries, hentries⟩

theorem CopiedUp.of_raised {α : Type} {v : Shown} {r : Except NtStatus α}
    (hview : viewAt e p = some v) (hraised : RaisedTo e g p r) (hclean : LeavesClean e g p r) :
    CopiedUp e g p r where
  toLeavesClean := hclean
  toRaisedTo := hraised
  listing := by
    intro d
    obtain ⟨before, hbefore⟩ := merge_total e d
    obtain ⟨after, hafter⟩ := merge_total g d
    refine ⟨before, after, hbefore, hafter, fun n hn => ?_⟩
    obtain ⟨entries, hentries, hlisted⟩ := listed_iff_viewAt e d hn
    obtain ⟨entries', hentries', hlisted'⟩ := listed_iff_viewAt g d hn
    rw [hbefore] at hentries
    rw [hafter] at hentries'
    rw [Except.ok.inj hentries', Except.ok.inj hentries, hlisted', hlisted,
      hraised.raised.view]
  supplied a hr := source_of_held (by rw [hraised.raised.view]; exact hview) (hraised.holds a hr)

/-- A copy-up of a path that shows keeps the view and every listing.  When it succeeds the
upper supplies the path; when it fails the upper has gained at most directories and links
on the way to the parent.  Either way it leaves nothing in the staging area.

The callers copy what shows as a directory or a link to one with `CopyUpDirectory`, and
only a file with `CopyUpMetadataOnly`. -/
theorem copyUp_keeps_view {v : Shown} (he : e.Wf) (hview : viewAt e p = some v) :
    (CopyUp.copyUpFile p).Ensures e (fun r g => CopiedUp e g p r) ∧
    ((∃ content, v = .file content) →
      (CopyUp.copyUpMetadataOnly p).Ensures e fun r g => CopiedUp e g p r) ∧
    (v = .directory ∨ v = .link →
      (CopyUp.copyUpDirectory p).Ensures e fun r g => CopiedUp e g p r) := by
  refine ⟨?_, fun _ => ?_, fun hdir => ?_⟩
  · exact ((copyUpFile_raised he hview).and (copyUpFile_leavesClean p e)).mono
      fun _ _ hg => .of_raised hview hg.1 hg.2
  · exact ((copyUpMetadataOnly_raised he hview).and (copyUpMetadataOnly_leavesClean p e)).mono
      fun _ _ hg => .of_raised hview hg.1 hg.2
  · have hshows : ShowsDirectory e p := by
      rcases hdir with rfl | rfl
      · exact .inl hview
      · exact .inr hview
    exact (copyUpDirectory_climbs p e hshows).mono fun _ _ hg => .of_raised hview hg.1 hg.2.1

theorem namesBelow_leaf {k : Nat} {id : FileId} (h : id < k) :
    NamesBelow k (some (.leaf (.file id))) := by
  intro r id' hid
  cases r with
  | nil =>
    obtain rfl : id = id' := by simpa [entryAt, PathTree.entry] using hid
    exact h
  | cons m r =>
    rw [entryAt_cons, childAt_leaf, entryAt, placeAt_none] at hid
    cases hid

theorem namesBelow_node {k : Nat} {v : DirNode} {children : List (Name × Tree)}
    (h : ∀ c ∈ children, NamesBelow k (some c.2)) : NamesBelow k (some (.node v children)) := by
  intro r id hid
  cases r with
  | nil => simp [entryAt, PathTree.entry] at hid
  | cons m r =>
    rw [entryAt_cons] at hid
    cases hc : childAt (some (.node v children : Tree)) m with
    | none =>
      rw [hc, entryAt, placeAt_none] at hid
      cases hid
    | some t =>
      have hmem : (m, t) ∈ children := by
        rw [childAt, placeAt] at hc
        split at hc
        · cases hc
        · rw [PathTree.sub_cons] at hc
          exact PathTree.mem_of_child (by simpa using hc)
      rw [hc] at hid
      exact h _ hmem r id hid

/-- An empty upper over a lower with `d\\a`, where the move of a record will fail. -/
def faultyMove : Engine where
  upper := some (.node {} [])
  lowers := [some (.node {} [(['d'], .node {} [(['a'], .leaf (.file 0))])])]
  files := [{ data := [1] }]
  fault := some (.moveRecord, 1)

theorem faultyMove_wf : faultyMove.Wf where
  upper := namesBelow_node nofun
  lowers := by
    intro o ho
    rw [List.mem_singleton.mp ho]
    refine namesBelow_node fun c hc => ?_
    rw [List.mem_singleton.mp hc]
    refine namesBelow_node fun c hc => ?_
    rw [List.mem_singleton.mp hc]
    exact namesBelow_leaf Nat.zero_lt_one
  origins := by
    intro f hf origin horigin
    rw [List.mem_singleton.mp hf] at horigin
    cases horigin

end LayerMount
