import LayerMount.Isolation
import LayerMount.Rename

/-!
# The steps that keep the lower layers

Every function of the engine that a call by path is made of keeps the layers apart, whether it
succeeds or fails: the moves in the upper, the markers, the copy-ups and the fill of a shell, the
delete.  A step that is given a tree asks that the tree fits the upper (`placeEntry_follows`), and
one that hands a tree back says that it does (`moveUpperEntryAside_follows`).
-/

namespace LayerMount

open Lib

variable {e f g : Engine} {d p q : RelPath} {o : Place} {t : Tree} {id : FileId} {α β : Type}

/-- The operation keeps the layers apart, from every state and with every result. -/
abbrev Isolates (m : Op α) : Prop := Step.Keeps Isolated m

/-- What an operation on separate layers follows, it keeps. -/
theorem Isolates.of_follows {m : Op α} {Q : Engine → α → Engine → Prop}
    (h : ∀ e, e.Separate → m.Follows Isolated e (Q e)) : Isolates m :=
  fun e he => (h e he).1 he

/-! ## Lookups and disk steps -/

theorem diskStep_isolates (s : DiskStep) : Isolates (diskStep s) :=
  fun e => (diskStep_ensures s e).isolated

theorem lookup_isolates (p : RelPath) : Isolates (lookup p) :=
  fun _ => isolated_of_same rfl rfl rfl rfl

theorem invalidate_isolates (p : RelPath) : Isolates (invalidate p) :=
  fun _ => isolated_of_same rfl rfl rfl rfl

theorem invalidateWithAncestors_isolates (p : RelPath) : Isolates (invalidateWithAncestors p) :=
  fun _ => isolated_of_same rfl rfl rfl rfl

theorem walkCallerPath_isolates [HostCase] (path : CallerPath) (finalLink : FinalLink) :
    Isolates (walkCallerPath path finalLink) :=
  fun e => (walkCallerPath_looked path finalLink e).2.toUntouched.isolated

theorem existsInUpper_isolates (p : RelPath) : Isolates (existsInUpper p) :=
  fun e => Std.Refl.refl e

theorem noteUndoFailure_isolates : Isolates Rename.noteUndoFailure :=
  fun _ => isolated_of_same rfl rfl rfl rfl

/-! ## Entries of the upper -/

theorem ensureDirectoryExists_isolates (d : RelPath) : Isolates (ensureDirectoryExists d) := by
  refine Step.Keeps.attempt_cases (diskStep_isolates _) (fun _ => ?_) fun _ => Step.Keeps.pure ()
  exact Step.Keeps.modify fun e => isolated_upper fun he => he.upper.makeDirectories d []

theorem placeEntry_follows (ht : e.Separate → FitsUpper e (some t)) (p : RelPath) :
    (placeEntry p t).Follows Isolated e fun _ _ => True := by
  apply Step.Follows.get
  refine Step.Follows.ite (fun _ => Step.Follows.fail) fun _ => ?_
  refine Step.Follows.ite (fun _ => Step.Follows.fail) fun _ => ?_
  exact Step.Follows.modify (isolated_put ht p) trivial

theorem removeStagedEntry_isolates : Isolates removeStagedEntry :=
  fun _ => isolated_of_same rfl rfl rfl rfl

theorem removingStagedOnFailure_follows {m : Op α} {Q : α → Engine → Prop}
    (h : m.Follows Isolated e Q) : (removingStagedOnFailure m).Follows Isolated e Q := by
  refine Step.Follows.attempt_bind h (fun a _ _ ha => Step.Follows.pure ha) fun status f _ => ?_
  exact Step.Follows.bind (removeStagedEntry_isolates.follows f) fun _ _ _ _ => Step.Follows.fail

theorem stageEntry_isolates (t : Tree) : Isolates (stageEntry t) :=
  fun e => (stageEntry_ensures t e).isolated

/-- A step in the middle keeps a tree that fits. -/
theorem Isolated.fits (h : Isolated e f) (he : e.Separate) (ho : FitsUpper e o) :
    f.Separate → FitsUpper f o :=
  fun _ => ho.mono (h he)

theorem commitStaged_follows (he : e.Separate) (ht : FitsUpper e (some t)) (p : RelPath) :
    (commitStaged p t).Follows Isolated e fun _ _ => True := by
  refine removingStagedOnFailure_follows ?_
  refine Step.Follows.bind ((diskStep_isolates _).follows e) fun _ f hf _ => ?_
  refine Step.Follows.bind (placeEntry_follows (hf.fits he ht) p) fun _ k _ _ => ?_
  refine Step.Follows.bind (P := fun _ _ => True)
    (Step.Follows.modify (isolated_of_same rfl rfl rfl rfl) trivial) fun _ k' _ _ => ?_
  refine Step.Follows.attempt_bind ((diskStep_isolates _).follows k')
    (fun _ _ _ _ => Step.Follows.pure trivial) fun status k₁ _ => ?_
  refine Step.Follows.bind (P := fun _ _ => True) (Step.Follows.modify ?_ trivial)
    fun _ _ _ _ => Step.Follows.fail
  have hput : Isolated k₁ (k₁.putUpper p none) := isolated_put (fun _ => fitsUpper_none) p
  refine trans_of Isolated hput ?_
  exact isolated_of_same rfl rfl rfl rfl

theorem moveUpperEntryOnDisk_isolates (source target : RelPath) (replace : Bool) :
    Isolates (moveUpperEntryOnDisk source target replace) := by
  refine Step.Keeps.bind (diskStep_isolates _) fun _ => Isolates.of_follows
    (Q := fun _ _ _ => True) fun e he => ?_
  apply Step.Follows.get
  cases ht : e.upperAt source with
  | none => exact Step.Follows.fail
  | some t =>
    have hmove : Isolated e ((e.putUpper source none).putUpper target (some t)) := by
      have hnone := isolated_put (e := e) (fun _ => fitsUpper_none) source he
      have hfits : FitsUpper e (some t) := ht ▸ he.upperAt source
      exact fun _ => hnone.trans (isolated_put (fun _ => hfits.mono hnone) target hnone.separate)
    refine Step.Follows.ite (fun _ => Step.Follows.pure trivial) fun _ => ?_
    refine Step.Follows.ite (fun _ => Step.Follows.fail) fun _ => ?_
    refine Step.Follows.ite (fun _ => Step.Follows.fail) fun _ => ?_
    cases e.upperAt target with
    | none => exact Step.Follows.modify hmove trivial
    | some replaced =>
      refine Step.Follows.ite (fun _ => Step.Follows.fail) fun _ => ?_
      refine Step.Follows.ite (fun _ => Step.Follows.fail) fun _ => ?_
      exact Step.Follows.modify hmove trivial

theorem moveUpperEntry_isolates (source target : RelPath) (replace : Bool) :
    Isolates (moveUpperEntry source target replace) := by
  refine Step.Keeps.bind (moveUpperEntryOnDisk_isolates source target replace) fun _ => ?_
  refine Step.Keeps.attempt_cases (diskStep_isolates _) (fun _ => Step.Keeps.pure ()) fun status => ?_
  exact Step.Keeps.attempt_cases (moveUpperEntryOnDisk_isolates target source false)
    (fun _ => Step.Keeps.fail status) fun _ => noteUndoFailure_isolates

theorem moveUpperEntryAside_follows (he : e.Separate) (p : RelPath) :
    (moveUpperEntryAside p).Follows Isolated e fun held g => FitsUpper g held := by
  apply Step.Follows.get
  have hfits := he.upperAt p
  cases hp : e.upperAt p with
  | none => exact Step.Follows.pure fitsUpper_none
  | some t =>
    rw [hp] at hfits
    refine Step.Follows.bind ((diskStep_isolates _).follows e) fun _ f hf _ => ?_
    refine Step.Follows.bind ((diskStep_isolates _).follows f) fun _ k hk _ => ?_
    have hk := trans_of Isolated hf hk
    have hput : Isolated k (k.putUpper p none) := isolated_put (fun _ => fitsUpper_none) p
    refine Step.Follows.bind (P := fun _ g => FitsUpper g (some t)) (Step.Follows.modify hput ?_)
      fun _ _ _ hg => Step.Follows.pure hg
    exact hfits.mono ((hk he).trans (hput (hk he).separate))

theorem FitsUpper.partlyRemoved {o : Place} (h : FitsUpper e o) (host : UpperHost) :
    FitsUpper e (o.map (partlyRemoved host)) := by
  intro r id hid
  cases o with
  | none => exact absurd hid (by simp [entryAt])
  | some t =>
    rcases entryAt_partlyRemoved host t r with hgone | hsame
    · rw [Option.map_some, hgone] at hid
      cases hid
    · exact h r id (hsame ▸ hid)

theorem removeUpperEntryOfKind_isolates (p : RelPath) : Isolates (removeUpperEntryOfKind p) := by
  refine Step.Keeps.attempt_cases (diskStep_isolates _) (fun _ => ?_) fun status => ?_
  · exact Step.Keeps.modify fun _ => isolated_put (fun _ => fitsUpper_none) p
  · refine Step.Keeps.bind (Step.Keeps.modify fun e => ?_) fun _ => Step.Keeps.fail status
    exact isolated_put (fun he => (he.upperAt p).partlyRemoved e.host) p

theorem removeUpperEntry_isolates (p : RelPath) : Isolates (removeUpperEntry p) :=
  Step.Keeps.get fun _ => Step.Keeps.ite (removeUpperEntryOfKind_isolates p) (Step.Keeps.pure ())

/-- A new file fits the upper: no lower can own it yet. -/
theorem newFile_follows {x : FileObj} (he : e.Separate) (hx : ∀ origin, x.metacopy = some origin →
    origin.file < e.files.length) :
    (newFile x).Follows Isolated e fun id g => FitsUpper g (some (.leaf (.file id))) := by
  apply Step.Follows.get
  refine Step.Follows.bind (P := fun _ g => FitsUpper g (some (.leaf (.file e.files.length))))
    (Step.Follows.modify (isolated_newFile fun _ => hx) (fitsUpper_leaf fun id hid => ?_))
    fun _ _ _ hg => Step.Follows.pure hg
  obtain rfl := Leaf.file.inj hid
  refine ⟨by simp, fun howns => ?_⟩
  exact absurd (owned_below he howns) (Nat.lt_irrefl _)

/-! ## Markers -/

namespace WhiteoutManager

theorem createHiddenMarkerFile_isolates (p : RelPath) : Isolates (createHiddenMarkerFile p) := by
  refine Step.Keeps.bind (diskStep_isolates _) fun _ => Step.Keeps.get fun e => ?_
  have hput : Isolates (Op.modify fun e => e.putUpper p (some (.leaf .marker))) :=
    Step.Keeps.modify fun e => isolated_put (fun _ => fitsUpper_leaf fun _ hv => by cases hv) p
  refine Step.Keeps.ite (Step.Keeps.fail _) ?_
  split
  · exact Step.Keeps.fail _
  · exact Step.Keeps.fail _
  · exact hput

theorem createWhiteout_isolates (p : RelPath) : Isolates (createWhiteout p) :=
  Step.Keeps.get fun _ => Step.Keeps.bind (Step.Keeps.ofExcept _) fun _ =>
    Step.Keeps.bind (ensureDirectoryExists_isolates _) fun _ =>
      Step.Keeps.bind (createHiddenMarkerFile_isolates _) fun _ => invalidateWithAncestors_isolates p

theorem deleteWhiteoutFile_isolates (p : RelPath) : Isolates (deleteWhiteoutFile p) := by
  refine Step.Keeps.bind (diskStep_isolates _) fun _ => Step.Keeps.get fun e => ?_
  refine Step.Keeps.ite (Step.Keeps.fail _) ?_
  split
  · exact Step.Keeps.pure ()
  · exact Step.Keeps.fail _
  · exact Step.Keeps.fail _
  · exact Step.Keeps.modify fun e => isolated_put (fun _ => fitsUpper_none) _

theorem removeWhiteout_isolates (p : RelPath) : Isolates (removeWhiteout p) := by
  refine Step.Keeps.get fun e => ?_
  split
  · exact Step.Keeps.pure ()
  · exact Step.Keeps.pure ()
  · exact Step.Keeps.fail _
  · exact Step.Keeps.bind (deleteWhiteoutFile_isolates p) fun _ => invalidateWithAncestors_isolates p

/-- An entry of the upper with other markers. -/
theorem put_upperAt_isolated {k : Tree → Tree} (hk : ∀ {t}, FitsUpper e (some t) →
    FitsUpper e (some (k t))) (ht : e.upperAt p = some t) :
    Isolated e (e.putUpper p (some (k t))) :=
  isolated_put (fun he => hk (ht ▸ he.upperAt p)) p

theorem writeOpaqueMarkers_isolates (d : RelPath) : Isolates (writeOpaqueMarkers d) := by
  refine Step.Keeps.bind (diskStep_isolates _) fun _ e => ?_
  simp only [Step.get_bind]
  cases ht : e.upperAt d with
  | none => exact Std.Refl.refl e
  | some t => exact put_upperAt_isolated fitsUpper_markOpaque ht

theorem setOpaque_isolates (d : RelPath) : Isolates (setOpaque d) :=
  Step.Keeps.get fun _ => Step.Keeps.bind (Step.Keeps.ofExcept _) fun _ =>
    Step.Keeps.bind (ensureDirectoryExists_isolates _) fun _ =>
      Step.Keeps.attempt (writeOpaqueMarkers_isolates d) fun _ =>
        Step.Keeps.bind (invalidate_isolates d) fun _ => Step.Keeps.ofExcept _

theorem setOpaqueAtPath_isolates (d : RelPath) : Isolates (setOpaqueAtPath d) :=
  Step.Keeps.get fun _ => Step.Keeps.ite (Step.Keeps.fail _) (writeOpaqueMarkers_isolates d)

theorem removeOpaque_isolates (d : RelPath) : Isolates (removeOpaque d) := by
  refine Isolates.of_follows (Q := fun _ _ _ => True) fun e _ => ?_
  have hinvalidate : ∀ (b : Bool) (f : Engine),
      (do invalidate d; Pure.pure b : Op Bool).Follows Isolated f fun _ _ => True := fun b f =>
    (Step.Keeps.bind (invalidate_isolates d) fun _ => Step.Keeps.pure b).follows f
  apply Step.Follows.get
  cases findLinkOnPath e.upperLayer d
  case ancestor | unreadable => exact Step.Follows.pure trivial
  case self | none =>
    refine Step.Follows.attempt_bind (P := fun _ f => Untouched e f)
      ⟨diskStep_isolates _ e, fun _ _ => diskStep_ensures .removeOpaqueMarkers e⟩ ?_ ?_
    · intro _ f _ hf
      cases ht : e.upperAt d with
      | none => exact hinvalidate true f
      | some t =>
        have hput : Isolated f (f.putUpper d (some (unmarkOpaqueNode t))) :=
          put_upperAt_isolated fitsUpper_unmarkOpaque (by rw [hf.upperAt, ht])
        exact Step.Follows.bind (P := fun _ _ => True) (Step.Follows.modify hput trivial)
          fun _ f' _ _ => hinvalidate true f'
    · exact fun _ f _ => hinvalidate false f

end WhiteoutManager

end LayerMount
