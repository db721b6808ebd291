import LayerMount.DeleteView

/-!
# A delete that fails

The opaque marker, the upper entry and the whiteout are three steps, and no step undoes
an earlier one.  The removal of a directory is not one step either: it deletes what is in
the directory first, whiteouts included, and may fail after that.  A delete that stops on
the way shows what the removed entries and markers hid, so the view stays exactly when
these hid nothing (`failed_delete_iff`).
-/

namespace LayerMount

open Lib

variable {e f g : Engine} {d p q : RelPath} {n : Name}

/-- What the delete has removed when it fails hid nothing: the upper has no entry at `p`; or
the removal of the entry fails, and what it leaves of a directory shows nothing below; or
the whiteout fails, and without the upper's entry the mount shows the same at `p` and
below. -/
def FailsHarmlessly (e : Engine) (p : RelPath) : Prop :=
  ∀ t, e.upperAt p = some t →
    if e.fault = some (.removeEntry, 0) then
      treeKind t = .directory →
        ∀ n, viewAt (e.putUpper p (some (leftOver e p t))) (p ++ [n]) = none
    else ∀ q, viewAt (e.putUpper p none) (p ++ q) = viewAt e (p ++ q)

theorem viewAt_of_put {t : Place} (hplain : PlainAt e d n) (h : PutsAt e g (d ++ [n]) t) :
    (∀ r, viewAt g r = viewAt e r) ↔
      ∀ q, viewAt g (d ++ [n] ++ q) = viewAt e (d ++ [n] ++ q) := by
  constructor
  · exact fun hall q => hall _
  · intro hbelow r
    by_cases hpre : d ++ [n] <+: r
    · obtain ⟨q, rfl⟩ := hpre
      exact hbelow q
    · exact h.viewAt hplain hpre

theorem treeKind_unmarkOpaqueNode (t : Tree) :
    treeKind (WhiteoutManager.unmarkOpaqueNode t) = treeKind t := by
  cases t with
  | leaf v => rfl
  | node v children =>
    rw [WhiteoutManager.unmarkOpaqueNode]
    split <;> rfl

/-- An entry that loses its opaque marker first is a directory. -/
theorem directory_of_unmarksFirst {t : Tree} (hp : p ≠ []) (ht : e.upperAt p = some t)
    (h : unmarksFirst e p t = true) : treeKind t = .directory := by
  rw [unmarksFirst, Bool.and_eq_true, decide_eq_true_eq] at h
  cases hk : treeKind t with
  | file => exact absurd hk h.1
  | directory => rfl
  | link =>
    have hstop := stop_of_link (i := none) hp ht hk
    rw [isOpaqueUpper_of_stop hstop] at h
    cases h.2

/-- The view at a path that the upper holds is the upper's entry. -/
theorem viewAt_of_held {t : Tree} (hp : p ≠ []) (hres : isResolvablePath e.config p = true)
    (ht : e.upperAt p = some t) :
    viewAt e p = some (shownOf e.files ((slotOf e.upper none p).stop ≠ .link) t) := by
  have ht : placeAt e.upper p = some t := ht
  rw [viewAt_eq e hp, showAt_eq e hp, if_pos hres, slotsAt_cons, Overlay.look]
  simp [treeOverlay, ht]

theorem viewAt_directory {t : Tree} (hp : p ≠ []) (hres : isResolvablePath e.config p = true)
    (ht : e.upperAt p = some t) (hk : treeKind t = .directory) :
    viewAt e p = some .directory := by
  rw [viewAt_of_held hp hres ht, shownOf_eq_directory_iff.mpr hk]

theorem treeKind_partlyRemoved (host : UpperHost) (t : Tree) :
    treeKind (partlyRemoved host t) = treeKind t := by
  have hentry : (partlyRemoved host t).entry = t.entry := PathTree.entry_prune _ _ t
  cases t with
  | leaf v => rw [partlyRemoved, PathTree.prune]
  | node v children =>
    rw [partlyRemoved, PathTree.prune]
    split <;> rfl

theorem treeKind_leftOver (e : Engine) (p : RelPath) (t : Tree) :
    treeKind (leftOver e p t) = treeKind t := by
  rw [leftOver, treeKind_partlyRemoved]
  split
  · exact treeKind_unmarkOpaqueNode t
  · rfl

/-- A removal that fails leaves a file and a link as they were. -/
theorem partlyRemoved_of_kind {t : Tree} (host : UpperHost) (hk : treeKind t ≠ .directory) :
    partlyRemoved host t = t := by
  cases t with
  | leaf v => rw [partlyRemoved, PathTree.prune]
  | node v children =>
    have hlink : v.link = true := by
      by_contra hnot
      exact hk (by simp [treeKind, hnot])
    rw [partlyRemoved, PathTree.prune, if_neg (by simp [hlink])]

theorem leftOver_of_kind {t : Tree} (hp : p ≠ []) (ht : e.upperAt p = some t)
    (hk : treeKind t ≠ .directory) : leftOver e p t = t := by
  have hplain : ¬unmarksFirst e p t = true := fun h => hk (directory_of_unmarksFirst hp ht h)
  rw [leftOver, if_neg hplain, partlyRemoved_of_kind _ hk]

/-- The entry of a path put again at its place. -/
theorem viewAt_of_put_same {t : Tree} (hplain : PlainAt e d n)
    (hlead : leadsToDirectory (e.upperAt d) = true) (ht : e.upperAt (d ++ [n]) = some t)
    (h : PutsAt e g (d ++ [n]) (some t)) (r : RelPath) : viewAt g r = viewAt e r := by
  have hsame : SameEntries e g := by
    refine ⟨fun r => ?_, h.lowers, h.files, h.host, h.undoFailed, h.contexts⟩
    by_cases hpre : d ++ [n] <+: r
    · obtain ⟨q, rfl⟩ := hpre
      have hat : placeAt e.upper (d ++ [n]) = some t := ht
      rw [entryAt, entryAt, h.upper, placeAt_put hlead hplain.1, placeAt_append, hat]
    · rw [h.upper, entryAt_put_elsewhere hpre]
  exact hsame.viewAt r

/-- What is left of a directory: the view stays when nothing shows below. -/
theorem viewAt_of_left {t t' : Tree} (hdel : Deletable e (d ++ [n]))
    (ht : e.upperAt (d ++ [n]) = some t) (hk : treeKind t = .directory)
    (hk' : treeKind t' = .directory) (h : PutsAt e g (d ++ [n]) (some t')) :
    (∀ r, viewAt g r = viewAt e r) ↔ ∀ m, viewAt g (d ++ [n] ++ [m]) = none := by
  obtain ⟨hplain, hlead⟩ := plainAt_of_held hdel.resolvable (by rw [ht]; rfl)
  have hne : d ++ [n] ≠ [] := by simp
  have hdir := viewAt_directory hne hdel.resolvable ht hk
  rw [viewAt_of_put hplain h]
  constructor
  · intro hsame m
    rw [hsame [m]]
    exact hdel.empty hdir m
  · intro hnone q
    cases q with
    | nil =>
      rw [List.append_nil, hdir]
      refine viewAt_directory hne ?_ (h.upperAt hlead hplain.1) hk'
      rw [h.isResolvablePath hplain]
      exact hdel.resolvable
    | cons m q =>
      have hassoc : d ++ [n] ++ m :: q = d ++ [n] ++ [m] ++ q := by simp
      rw [hassoc, viewAt_none_below (by simp) (hnone m), viewAt_none_below (by simp)
        (hdel.empty hdir m)]

/-- What shows below an entry of a link's target is in the upper. -/
theorem held_of_shown_in_link (hstop : (slotOf e.upper none p).stop = .link)
    (hview : (viewAt e (p ++ [n])).isSome = true) :
    (e.upperAt (p ++ [n])).isSome = true ∧ isResolvablePath e.config (p ++ [n]) = true := by
  have hres := isResolvablePath_of_viewAt (by simp) hview
  rw [viewAt_eq e (by simp), Option.isSome_map, showAt_eq e (by simp), if_pos hres, slotsAt_snoc,
    lowersUnder, lowersAt_of_stop (by rw [hstop]; decide)] at hview
  refine ⟨?_, hres⟩
  cases hheld : e.upperAt (p ++ [n]) with
  | some t => rfl
  | none =>
    rw [hheld] at hview
    simp [Overlay.look, Overlay.descendFrom, treeOverlay] at hview

theorem isResolvablePath_in_link (hp : p ≠ []) (hstop : (slotOf e.upper none p).stop = .link)
    (hres : isResolvablePath e.config p = true) (hcolon : ':' ∉ n) (hdots : n ≠ ['.', '.']) :
    isResolvablePath e.config (p ++ [n]) = true := by
  rw [isResolvablePath_eq e hp, Bool.and_eq_true] at hres
  have hlink : nameShown ((treeOverlay e.files).walk ((treeOverlay e.files).cut (treeStack e)) p) n
      = true := by
    have hmem : slotOf e.upper none p ∈ slotsAt e p := by
      rw [slotsAt_cons]
      exact List.mem_cons_self
    have hany : ((treeOverlay e.files).walk ((treeOverlay e.files).cut (treeStack e)) p).any
        (fun s => s.stop = .link) = true :=
      List.any_eq_true.mpr ⟨_, hmem, by simpa using hstop⟩
    simp [nameShown, hany, hcolon, hdots]
  rw [isResolvablePath_eq e (by simp), isRootSidecarPath_snoc hp, passes_snoc, hres.1, hres.2, hlink]
  rfl

/-- A directory of a link's target that shows nothing shows nothing when a part of it is
gone. -/
theorem viewAt_of_left_in_link {t : Tree} (hdel : Deletable e (d ++ [n]))
    (ht : e.upperAt (d ++ [n]) = some t) (hstop : (slotOf e.upper none d).stop = .link)
    (h : PutsAt e g (d ++ [n]) (some (partlyRemoved e.host t))) (r : RelPath) :
    viewAt g r = viewAt e r := by
  obtain ⟨hplain, hlead⟩ := plainAt_of_held hdel.resolvable (by rw [ht]; rfl)
  have hne : d ++ [n] ≠ [] := by simp
  have hbelow : ∀ o : Place, (slotOf o none d).stop = .link →
      (slotOf o none (d ++ [n])).stop = .link := by
    intro o ho
    rw [slotOf_append, stop_foldl_child (by rw [ho]; decide), ho]
  by_cases hk : treeKind t = .directory
  · refine (viewAt_of_left hdel ht hk ((treeKind_partlyRemoved _ t).trans hk) h).mpr ?_ r
    intro m
    by_contra hshown
    obtain ⟨hheld, hres⟩ := held_of_shown_in_link
      (hbelow g.upper ((h.slotOf_parent hplain).trans hstop)) (Option.isSome_iff_ne_none.mpr hshown)
    have hsafe : ':' ∉ m ∧ m ≠ ['.', '.'] := by
      rw [isResolvablePath, Bool.and_eq_true, isSafeRelativePath, List.all_append,
        Bool.and_eq_true, Bool.and_eq_true] at hres
      simpa using hres.1.2.2
    -- the entry that shows has been there before
    have hbefore : (e.upperAt (d ++ [n] ++ [m])).isSome = true := by
      have hat : placeAt e.upper (d ++ [n]) = some t := ht
      rw [Engine.upperAt, h.upper, placeAt_put hlead hplain.1, ← isSome_entryAt] at hheld
      rw [Engine.upperAt, placeAt_append, hat, ← isSome_entryAt]
      rcases entryAt_partlyRemoved e.host t [m] with hgone | hsame
      · rw [hgone] at hheld
        cases hheld
      · rwa [← hsame]
    obtain ⟨x, hx⟩ := Option.isSome_iff_exists.mp hbefore
    have hshows := viewAt_of_held (by simp) (isResolvablePath_in_link hne (hbelow e.upper hstop)
      hdel.resolvable hsafe.1 hsafe.2) hx
    rw [hdel.empty (viewAt_directory hne hdel.resolvable ht hk) m] at hshows
    cases hshows
  · rw [partlyRemoved_of_kind _ hk] at h
    exact viewAt_of_put_same hplain hlead ht h r

theorem viewAt_of_same_put {t : Place} (h : PutsAt e g p t) (h' : PutsAt e f p t) (r : RelPath) :
    viewAt g r = viewAt f r := by
  have hsame : Untouched f g :=
    ⟨h.upper.trans h'.upper.symm, h.lowers.trans h'.lowers.symm, h.files.trans h'.files.symm,
      h.host.trans h'.host.symm, h.undoFailed.trans h'.undoFailed.symm,
      h.contexts.trans h'.contexts.symm⟩
  exact hsame.viewAt r

/-- A failed removal of a path that the upper holds. -/
theorem failed_remove_iff {t : Tree} {status : NtStatus} (hdel : Deletable e (d ++ [n]))
    (ht : e.upperAt (d ++ [n]) = some t)
    (hrun : UpperEntryRemover.remove (d ++ [n]) e = (.error status, g)) :
    (∀ r, viewAt g r = viewAt e r) ↔ FailsHarmlessly e (d ++ [n]) := by
  obtain ⟨hplain, hlead⟩ := plainAt_of_held hdel.resolvable (by rw [ht]; rfl)
  have hstate := remove_held hdel.resolvable ht
  rw [Step.Ensures, hrun] at hstate
  have hstate := hstate status rfl
  have hharmless : FailsHarmlessly e (d ++ [n]) ↔
      if e.fault = some (.removeEntry, 0) then
        treeKind t = .directory → ∀ m, viewAt (e.putUpper (d ++ [n])
          (some (leftOver e (d ++ [n]) t))) (d ++ [n] ++ [m]) = none
      else ∀ q, viewAt (e.putUpper (d ++ [n]) none) (d ++ [n] ++ q) = viewAt e (d ++ [n] ++ q) := by
    rw [FailsHarmlessly, ht]
    constructor
    · exact fun h => h t rfl
    · rintro h _ ⟨⟩
      exact h
  rw [hharmless]
  split at hstate
  · rename_i hplan
    rw [if_pos hplan]
    by_cases hk : treeKind t = .directory
    · have hputs := putUpper_puts e (d ++ [n]) (some (leftOver e (d ++ [n]) t))
      rw [viewAt_of_left hdel ht hk ((treeKind_leftOver e _ t).trans hk) hstate]
      constructor
      · intro h _ m
        rw [← viewAt_of_same_put hstate hputs]
        exact h m
      · intro h m
        rw [viewAt_of_same_put hstate hputs]
        exact h hk m
    · rw [leftOver_of_kind (by simp) ht hk] at hstate
      exact ⟨fun _ h => absurd h hk, fun _ => viewAt_of_put_same hplain hlead ht hstate⟩
  · rename_i hplan
    rw [if_neg hplan, ← viewAt_of_put hplain (putUpper_puts e (d ++ [n]) none)]
    constructor
    · intro h r
      rw [← hstate.viewAt, h]
    · intro h r
      rw [hstate.viewAt, h]

theorem Deletable.raised (h : Deletable e p) (hf : Raised e f) : Deletable f p where
  ne_nil := h.ne_nil
  shown := by
    rw [hf.view]
    exact h.shown
  empty := by
    intro hdir m
    rw [hf.view] at hdir ⊢
    exact h.empty hdir m

theorem failed_delete_of_free {status : NtStatus} (hdel : Deletable e p)
    (hfree : e.upperAt p = none) (hrun : removeEntry p e = (.error status, g)) (r : RelPath) :
    viewAt g r = viewAt e r := by
  have hkept : (removeEntry p).Ensures e fun r g => ∀ status, r = .error status →
      ∀ r, viewAt g r = viewAt e r := by
    refine Step.Ensures.bind (copyUpLowerLinkAbove_raised hdel.resolvable) ?_ ?_
    · rintro _ f ⟨hf, -, hlink⟩
      have hdel' := hdel.raised hf
      have hstate : f.upperAt p = none ∨ (slotOf f.upper none p.dropLast).stop = .link := by
        rcases hlink rfl with rfl | hlink
        · exact .inl hfree
        · exact .inr hlink
      refine (remove_raised hdel.ne_nil hdel'.shown hstate).mono fun _ g h status hr r => ?_
      rcases h status hr with hraised | ⟨t, ht, hputs⟩
      · exact (hraised.view r).trans (hf.view r)
      · -- the upper holds the entry in the target of the link
        rcases hstate with hnone | hstop
        · rw [hnone] at ht
          cases ht
        obtain ⟨d, n, rfl⟩ : ∃ d n, p = d ++ [n] :=
          ⟨_, _, (List.dropLast_append_getLast hdel.ne_nil).symm⟩
        rw [List.dropLast_concat] at hstop
        exact (viewAt_of_left_in_link hdel' ht hstop hputs r).trans (hf.view r)
    · exact fun _ f hf _ _ => hf.1.view
  rw [Step.Ensures, hrun] at hkept
  exact hkept status rfl r

/-- A delete that fails after `CanDelete` accepted the path leaves the view as it was if and
only if what its steps had removed hid nothing. -/
theorem failed_delete_iff [HostCase] {path : CallerPath} {status : NtStatus} {e₁ : Engine}
    (hcan : canDelete path e = (.ok p, e₁))
    (hfail : deletePath path e = (.error status, g)) :
    (∀ r, viewAt g r = viewAt e r) ↔ FailsHarmlessly e p := by
  have hdel := canDelete_ensures path e
  rw [Step.Ensures, hcan] at hdel
  have hlooked : Looked e e₁ := hdel.1
  have hdel : Deletable e p := (hdel.2 p rfl).1
  rw [deletePath, Step.bind_of_ok hcan] at hfail
  have hdel₁ : Deletable e₁ p := by
    have hview := hlooked.toUntouched.viewAt
    exact ⟨hdel.ne_nil, by rw [hview]; exact hdel.shown,
      fun h n => by rw [hview] at h ⊢; exact hdel.empty h n⟩
  have hsame : (∀ r, viewAt g r = viewAt e r) ↔ ∀ r, viewAt g r = viewAt e₁ r := by
    simp only [hlooked.toUntouched.viewAt]
  rw [hsame]
  cases ht : e.upperAt p with
  | none =>
    have hfree : e₁.upperAt p = none := (hlooked.upperAt p).trans ht
    refine ⟨fun _ t h => ?_, fun _ => failed_delete_of_free hdel₁ hfree hfail⟩
    rw [ht] at h
    cases h
  | some t =>
    have ht₁ : e₁.upperAt p = some t := (hlooked.upperAt p).trans ht
    obtain ⟨d, n, rfl⟩ : ∃ d n, p = d ++ [n] :=
      ⟨_, _, (List.dropLast_append_getLast hdel.ne_nil).symm⟩
    -- the upper holds the path, so no lower link is above it
    have hlink := copyUpLowerLinkAbove_raised hdel₁.resolvable
    have hskip : CopyUp.copyUpLowerLinkAbove (d ++ [n]) e₁ = (.ok (), e₁) := by
      obtain ⟨hok, hstay⟩ := hlink.2.1 (by rw [ht₁]; rfl)
      exact Prod.ext hok hstay
    rw [removeEntry, Step.bind_of_ok hskip] at hfail
    rw [failed_remove_iff hdel₁ ht₁ hfail]
    have hleft : ∀ t, leftOver e₁ (d ++ [n]) t = leftOver e (d ++ [n]) t := by
      intro t
      rw [leftOver, leftOver, unmarksFirst, unmarksFirst, isOpaqueUpper, isOpaqueUpper,
        Engine.upperLayer, Engine.upperLayer, hlooked.upper, hlooked.files, hlooked.host]
    have hput : ∀ o r, viewAt (e₁.putUpper (d ++ [n]) o) r = viewAt (e.putUpper (d ++ [n]) o) r :=
      fun o r => viewAt_of_same_put (hlooked.toUntouched.puts (putUpper_puts e₁ _ o))
        (putUpper_puts e _ o) r
    simp only [FailsHarmlessly, hlooked.upperAt, hlooked.fault, hleft, hput,
      hlooked.toUntouched.viewAt]

/-- A directory `d` with a whiteout of the lower's `d\a`, and a removal of `d` that fails
after it has deleted the whiteout. -/
def hiddenByMarker : Engine where
  upper := some (.node {} [(['d'], .node {} [(whiteoutName ['a'], .leaf .marker)])])
  lowers := [some (.node {} [(['d'], .node {} [(['a'], .leaf (.file 0))])])]
  files := [{ data := [1] }]
  host := { survives := fun _ => false }
  fault := some (.removeEntry, 0)

open AsciiCase

/-- The whiteout is gone and the directory is not, so the lower's entry shows. -/
theorem failed_delete_shows_lower :
    ¬∀ (path : CallerPath) (e e₁ g : Engine) (p : RelPath) (status : NtStatus),
      canDelete path e = (.ok p, e₁) → deletePath path e = (.error status, g) →
        ∀ r, viewAt g r = viewAt e r := by
  intro h
  have hcan : canDelete ⟨[['d']]⟩ hiddenByMarker
      = (.ok [['d']], (canDelete ⟨[['d']]⟩ hiddenByMarker).2) := rfl
  have hfail : deletePath ⟨[['d']]⟩ hiddenByMarker
      = (.error .diskFailure, (deletePath ⟨[['d']]⟩ hiddenByMarker).2) := rfl
  have hbefore : viewAt hiddenByMarker [['d'], ['a']] = none := by decide
  have hafter : viewAt (deletePath ⟨[['d']]⟩ hiddenByMarker).2 [['d'], ['a']]
      = some (.file [1]) := by decide
  have hsame := h _ _ _ _ _ _ hcan hfail [['d'], ['a']]
  rw [hbefore, hafter] at hsame
  cases hsame

theorem failed_delete_iff_hiddenByMarker :
    canDelete ⟨[['d']]⟩ hiddenByMarker
        = (.ok [['d']], (canDelete ⟨[['d']]⟩ hiddenByMarker).2) ∧
      deletePath ⟨[['d']]⟩ hiddenByMarker
        = (.error .diskFailure, (deletePath ⟨[['d']]⟩ hiddenByMarker).2) ∧
      ((∀ r, viewAt (deletePath ⟨[['d']]⟩ hiddenByMarker).2 r = viewAt hiddenByMarker r) ↔
        FailsHarmlessly hiddenByMarker [['d']]) := by
  have hcan : canDelete ⟨[['d']]⟩ hiddenByMarker
      = (.ok [['d']], (canDelete ⟨[['d']]⟩ hiddenByMarker).2) := rfl
  have hfail : deletePath ⟨[['d']]⟩ hiddenByMarker
      = (.error .diskFailure, (deletePath ⟨[['d']]⟩ hiddenByMarker).2) := rfl
  exact ⟨hcan, hfail, failed_delete_iff hcan hfail⟩

end LayerMount
