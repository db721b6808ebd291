import LayerMount.CopyUpView

/-!
# The view is a tree

Nothing shows below a path that does not show, and what shows has directories or
links above it.  Where the view has no link above a path, the directories above it
that only lowers hold can be made in the upper without a change of the view.
-/

namespace LayerMount

open Lib

variable {e f g : Engine} {d p q : RelPath} {n : Name}

/-- What shows is held by one of the slots of the path. -/
theorem exists_slot_of_showAt {x : TreeEntry} (hp : p ≠ []) (h : showAt e p = some x) :
    isResolvablePath e.config p = true ∧ ∃ s ∈ slotsAt e p, s.sub.isSome = true := by
  rw [showAt_eq e hp] at h
  split at h
  · rename_i hres
    refine ⟨hres, ?_⟩
    by_contra hnone
    have : (treeOverlay e.files).look (slotsAt e p) = none := by
      apply Overlay.look_eq_none
      intro s hs
      have hsub : s.sub = none := by
        by_contra hne
        exact hnone ⟨s, hs, Option.isSome_iff_ne_none.mpr hne⟩
      simp [treeOverlay, hsub]
    rw [this] at h
    cases h
  · cases h

theorem slot_of_mem_slotsAt {s : TreeSlot} (hs : s ∈ slotsAt e p) :
    ∃ (o : Place) (i : Option Nat), s = slotOf o i p := by
  rw [slotsAt_cons] at hs
  rcases List.mem_cons.mp hs with rfl | hs
  · exact ⟨_, _, rfl⟩
  · obtain ⟨i, rfl⟩ := mem_lowersAt hs
    exact ⟨_, _, rfl⟩

/-- Slots that show nothing hold nothing. -/
theorem sub_eq_none_of_look {files : List FileObj} {slots : List TreeSlot}
    (h : (treeOverlay files).look slots = none) : ∀ s ∈ slots, s.sub = none := by
  induction slots with
  | nil => simp
  | cons u rest ih =>
    rw [Overlay.look] at h
    cases hu : u.sub with
    | some t => simp [treeOverlay, hu] at h
    | none =>
      have hentry : (treeOverlay files).entry u = none := by simp [treeOverlay, hu]
      rw [hentry] at h
      simpa [hu] using ih h

/-- The slots of a path that shows something, up to the one that shows it. -/
theorem split_of_slot {s : TreeSlot} (hs : s ∈ slotsAt e p) (hsub : s.sub.isSome = true) :
    ∃ pre T post t, slotsAt e p = pre ++ T :: post ∧ (∀ u ∈ pre, u.Empty) ∧ T.sub = some t ∧
      (treeOverlay e.files).look (slotsAt e p) = (treeOverlay e.files).entry T := by
  cases hlook : (treeOverlay e.files).look (slotsAt e p) with
  | none =>
    rw [sub_eq_none_of_look hlook s hs] at hsub
    cases hsub
  | some x =>
    obtain ⟨pre, T, post, t, hsplit, hpre, hT, hx⟩ :=
      look_split hlook ((treeOverlay e.files).live_pairwise (treeStack e) p)
    exact ⟨pre, T, post, t, hsplit, hpre, hT, hx.symm⟩

/-- What shows has a directory or a link above it. -/
theorem showsDirectory_of_below (hp : p ≠ []) (h : (viewAt e (p ++ [n])).isSome = true) :
    ShowsDirectory e p := by
  rw [viewAt_eq e (by simp), Option.isSome_map] at h
  obtain ⟨x, hx⟩ := Option.isSome_iff_exists.mp h
  obtain ⟨hres, u, hu, husub⟩ := exists_slot_of_showAt (by simp) hx
  have hres' := isResolvablePath_above hp (List.prefix_append p [n]) hres
  have hsnoc : slotsAt e (p ++ [n]) = (treeOverlay e.files).descend (slotsAt e p) n :=
    Overlay.live_snoc _ _ _ _
  rw [hsnoc] at hu
  obtain ⟨s, hs, rfl⟩ := (treeOverlay e.files).mem_descendFrom hu
  have hchild : (childAt s.sub n).isSome = true := by
    have : ((s.child n).sub).isSome = true := husub
    rwa [child_sub] at this
  -- the slot that holds the child is a directory, and so is one above it
  have hnode : ∃ v children, s.sub = some (.node v children) := by
    cases hsub : s.sub with
    | none => rw [hsub] at hchild; simp [childAt] at hchild
    | some t =>
      cases t with
      | leaf w => rw [hsub, childAt_leaf] at hchild; cases hchild
      | node v children => exact ⟨v, children, rfl⟩
  obtain ⟨v, children, hnode⟩ := hnode
  obtain ⟨pre, T, post, t, hsplit, hpre, hT, hlook⟩ := split_of_slot hs (by rw [hnode]; rfl)
  have hview : viewAt e p = ((treeOverlay e.files).entry T).map TreeEntry.shown := by
    rw [viewAt_eq e hp, showAt_eq e hp, if_pos hres', hlook]
  rw [ShowsDirectory, hview]
  rw [hsplit] at hs
  rcases List.mem_append.mp hs with hs | hs
  · rw [(hpre s hs).1] at hnode
    cases hnode
  · rcases List.mem_cons.mp hs with rfl | hs
    · cases hl : v.link <;> simp [treeOverlay, hnode, shownOf, hl]
    · left
      have hpair := (treeOverlay e.files).live_pairwise (treeStack e) p
      rw [show (treeOverlay e.files).live (treeStack e) p = pre ++ T :: post from hsplit,
        List.pairwise_append] at hpair
      have hcov := List.rel_of_pairwise_cons hpair.2.1 hs
      have hstop : T.stop = .none := by
        by_contra hne
        rw [covers_of_stop hne] at hcov
        cases hcov
      obtain ⟨o, i, rfl⟩ := slot_of_mem_slotsAt (s := T) (by rw [hsplit]; simp)
      rw [slotOf_sub] at hT
      have hkind := directory_of_stop hp hstop hT
      simp [treeOverlay, hT, shownOf_eq_directory_iff.mpr hkind]

theorem parent_shows (h : (viewAt e (p ++ [n])).isSome = true) : p = [] ∨ ShowsDirectory e p := by
  by_cases hp : p = []
  · exact .inl hp
  · exact .inr (showsDirectory_of_below hp h)

/-- Nothing shows below a path that does not show. -/
theorem viewAt_none_below (hp : p ≠ []) (h : viewAt e p = none) (q : RelPath) :
    viewAt e (p ++ q) = none := by
  induction q using List.reverseRecOn with
  | nil => rw [List.append_nil, h]
  | append_singleton q n ih =>
    by_contra hne
    rw [← List.append_assoc] at hne
    rcases showsDirectory_of_below (by simp [hp]) (Option.isSome_iff_ne_none.mpr hne) with h' | h'
    · rw [ih] at h'
      cases h'
    · rw [ih] at h'
      cases h'

theorem showsDirectory_above (hp : p ≠ []) (hpre : p <+: q) (hne : p ≠ q)
    (h : (viewAt e q).isSome = true) : ShowsDirectory e p := by
  obtain ⟨r, rfl⟩ := hpre
  cases r with
  | nil => exact absurd (by simp) hne
  | cons n r =>
    apply showsDirectory_of_below hp (n := n)
    by_contra hnone
    have hnone : viewAt e (p ++ [n]) = none := by simpa using hnone
    have := viewAt_none_below (by simp) hnone r
    rw [List.append_assoc, List.singleton_append] at this
    rw [this] at h
    cases h

/-- A path with a link of the view above it is in a link's target. -/
theorem isInLinkTarget_of_link (hp : p ≠ []) (hpre : p <+: d) (h : viewAt e p = some .link) :
    isInLinkTarget e.config d = true := by
  obtain ⟨q, rfl⟩ := hpre
  rw [viewAt_eq e hp] at h
  obtain ⟨x, hx, hlink⟩ := Option.map_eq_some_iff.mp h
  obtain ⟨hres, s, hs, hsub⟩ := exists_slot_of_showAt hp hx
  obtain ⟨pre, T, post, t, hsplit, hpre, hT, hlook⟩ := split_of_slot hs hsub
  have hmem : T ∈ slotsAt e p := by rw [hsplit]; simp
  obtain ⟨o, i, rfl⟩ := slot_of_mem_slotsAt hmem
  rw [slotOf_sub] at hT
  rw [showAt_eq e hp, if_pos hres, hlook] at hx
  have hkind : treeKind t = .link := by
    simp only [treeOverlay, slotOf_sub, hT, Option.map_some, Option.some.injEq] at hx
    rw [← hx] at hlink
    exact shownOf_eq_link_iff.mp hlink
  have hstop := stop_of_link (i := i) hp hT hkind
  rw [isInLinkTarget_eq, slotsAt, Overlay.live_append]
  exact ((inLink_slotsAt e p ⟨_, hmem, hstop⟩).walk q).any

/-! ## Directories made on the way -/

/-- The directories above a path that no link is on can be made in the upper. -/
theorem makeDirectories_raised (rest : RelPath) :
    ∀ (walked : RelPath) (e : Engine),
      (∀ c, c <+: walked ++ rest → c ≠ [] → viewAt e c = some .directory) →
      Raised e { e with upper := makeDirectories e.upper walked rest } := by
  induction rest with
  | nil => exact fun _ e _ => Raised.refl e
  | cons c rest ih =>
    intro walked e hdir
    have hassoc : walked ++ c :: rest = walked ++ [c] ++ rest := by simp
    rw [hassoc] at hdir
    have hhere := hdir (walked ++ [c]) (List.prefix_append _ _) (by simp)
    rw [makeDirectories]
    cases hc : placeAt e.upper (walked ++ [c]) with
    | some t => exact ih (walked ++ [c]) e hdir
    | none =>
      dsimp only
      split
      · rename_i hlead
        obtain ⟨i, t, hshown, hkind⟩ := shownBelow_of_viewAt hc hhere
        have hputs := putUpper_puts e (walked ++ [c]) (some (.node {} []))
        have hraised : Raised e (e.putUpper (walked ++ [c]) (some (.node {} []))) := by
          cases t with
          | node v children =>
            have hlink : v.link = false := by
              cases hl : v.link with
              | false => rfl
              | true => simp [shownOf, hl] at hkind
            exact (hshown.copiesAt hlead hc hputs (.directory children false hlink)).raised
          | leaf w => cases w <;> cases hkind
        refine hraised.trans (ih (walked ++ [c]) _ ?_)
        intro x hx hne
        rw [hraised.view]
        exact hdir x hx hne
      · exact Raised.refl e

/-- The directories made on the way to `d` put nothing in `d`. -/
theorem makeDirectories_free (rest : RelPath) :
    ∀ (walked : RelPath) (o : Place), placeAt o (walked ++ rest ++ [n]) = none →
      placeAt (makeDirectories o walked rest) (walked ++ rest ++ [n]) = none := by
  induction rest with
  | nil => exact fun _ _ h => h
  | cons c rest ih =>
    intro walked o h
    have hassoc : walked ++ c :: rest ++ [n] = walked ++ [c] ++ rest ++ [n] := by simp
    rw [hassoc] at h ⊢
    rw [makeDirectories]
    cases hc : placeAt o (walked ++ [c]) with
    | some t => exact ih (walked ++ [c]) o h
    | none =>
      dsimp only
      split
      · rename_i hlead
        apply ih
        by_cases hdot : c = ['.']
        · -- no entry is named so
          simp [placeAt, hdot]
        · have hempty : placeAt (some (.node {} [] : Tree)) (rest ++ [n]) = none := by
            cases rest with
            | nil => simp [placeAt, PathTree.sub_cons, PathTree.child]
            | cons m rest => simp [placeAt, PathTree.sub_cons, PathTree.child]
          rw [List.append_assoc, placeAt_put hlead hdot, hempty]
      · exact h

theorem ensureDirectoryExists_raised
    (hdir : ∀ c, c <+: d → c ≠ [] → viewAt e c = some .directory) :
    (ensureDirectoryExists d).Ensures e fun _ g => Raised e g ∧
      ∀ n, e.upperAt (d ++ [n]) = none → g.upperAt (d ++ [n]) = none := by
  refine Step.Ensures.attempt_bind (diskStep_ensures .createDirectories e) ?_
  intro r f hf
  have hfree : ∀ n, e.upperAt (d ++ [n]) = none → f.upperAt (d ++ [n]) = none :=
    fun n h => by rw [hf.upperAt, h]
  cases r with
  | error _ => exact ⟨hf.raised, hfree⟩
  | ok _ =>
    refine ⟨hf.raised.trans (makeDirectories_raised d [] f ?_), ?_⟩
    · intro c hc hne
      rw [hf.viewAt]
      exact hdir c hc hne
    · intro n h
      exact makeDirectories_free d [] f.upper (hfree n h)

end LayerMount
