import LayerMount.LinkDetection

/-!
# Where markers are written

`CreateWhiteout` and `SetOpaque` on an engine in any state, for any path.  Whatever they end
with, a marker file that was not there before is in the directory that they were asked for,
and every component of that directory is a plain directory of the upper
(`createWhiteout_writes`, `setOpaque_writes`).  `linkView_and_markers` puts this beside the
comparison of `FindLinkInView` with the merge.
-/

namespace LayerMount

open Lib WhiteoutManager

variable {e f g : Engine} {d p k : RelPath}

/-! ## Directories made on the way -/

/-- Every entry of the upper was there before or is a new directory. -/
def OnlyDirectories (e g : Engine) : Prop :=
  ∀ k x, entryAt g.upper k = some x → entryAt e.upper k = some x ∨ x = .inr {}

theorem OnlyDirectories.of_upper (h : g.upper = e.upper) : OnlyDirectories e g := by
  intro k x hx
  rw [h] at hx
  exact .inl hx

theorem makeDirectories_entries (rest : RelPath) :
    ∀ (walked : RelPath) (o : Place) (k : RelPath) (x : Leaf ⊕ DirNode),
      entryAt (makeDirectories o walked rest) k = some x → entryAt o k = some x ∨ x = .inr {} := by
  induction rest with
  | nil => exact fun _ _ _ _ h => .inl h
  | cons c rest ih =>
    intro walked o k x h
    rw [makeDirectories] at h
    split at h
    · exact ih _ _ k x h
    · split at h
      · next hlead =>
        obtain h | h := ih _ _ k x h
        · by_cases hpre : walked ++ [c] <+: k
          · obtain ⟨q, rfl⟩ := hpre
            by_cases hdot : c = ['.']
            · -- no entry is named so
              rw [entryAt, placeAt, if_pos (by simp [hdot])] at h
              cases h
            · rw [entryAt, placeAt_put hlead hdot] at h
              cases q with
              | nil =>
                injection h with h
                exact .inr h.symm
              | cons n q =>
                have hnone : placeAt (some (.node {} [] : Tree)) (n :: q) = none := by
                  simp [placeAt, PathTree.sub_cons, PathTree.child]
                rw [hnone] at h
                cases h
          · rw [entryAt_put_elsewhere hpre] at h
            exact .inl h
        · exact .inr h
      · exact .inl h

theorem ensureDirectoryExists_entries (d : RelPath) (e : Engine) :
    (ensureDirectoryExists d).Ensures e fun r g => r = .ok () ∧ OnlyDirectories e g ∧
      g.files = e.files := by
  refine Step.Ensures.attempt_bind (diskStep_ensures .createDirectories e) ?_
  intro r f hf
  cases r with
  | error _ => exact ⟨rfl, .of_upper hf.upper, hf.files⟩
  | ok _ =>
    refine ⟨rfl, ?_, hf.files⟩
    intro k x hx
    rw [← hf.upper]
    exact makeDirectories_entries d [] f.upper k x hx

/-! ## Plain directories -/

/-- Every component of the directory is a directory of the upper, and no link. -/
def PlainDirectories (e : Engine) (d : RelPath) : Prop :=
  ∀ k, k <+: d → k ≠ [] → ∃ v, entryAt e.upper k = some (.inr v) ∧ v.link = false

/-- What leads to a directory has directories or links above it. -/
theorem node_above (h : leadsToDirectory (e.upperAt d) = true) (hk : k <+: d) :
    ∃ v, entryAt e.upper k = some (.inr v) := by
  obtain ⟨rest, rfl⟩ := hk
  rw [Engine.upperAt, placeAt_append] at h
  rw [entryAt]
  cases hplace : placeAt e.upper k with
  | none =>
    rw [hplace, placeAt_none] at h
    cases h
  | some t =>
    cases t with
    | node v children => exact ⟨v, rfl⟩
    | leaf v =>
      rw [hplace] at h
      cases rest with
      | nil => cases h
      | cons n rest =>
        rw [placeAt_cons, childAt_leaf, placeAt_none] at h
        cases h

/-- The kind of a component, as the upper's probe reads it. -/
theorem kind_of_entry {v : DirNode} (h : entryAt e.upper k = some (.inr v))
    (hlink : v.link = true) :
    componentKindInLayer e.config.upper k = .link := by
  rw [entryAt] at h
  cases hplace : placeAt e.upper k with
  | none =>
    rw [hplace] at h
    cases h
  | some t =>
    cases t with
    | leaf w =>
      rw [hplace] at h
      cases h
    | node w children =>
      rw [hplace] at h
      injection h with h
      injection h with h
      subst h
      have hget : e.config.upper.get k = .entry (layerEntry e.files (.node w children)) := by
        show probeOf e.files (placeAt e.upper k) = _
        rw [hplace]
        rfl
      have hkind : (layerEntry e.files (.node w children)).kind = some .link := by
        rw [kind_layerEntry]
        simp [treeKind, hlink]
      rw [componentKindInLayer, hget]
      dsimp only
      rw [hkind]

/-- After the directories were made behind the check, what leads to the directory is plain. -/
theorem plain_of_made (hview : (findLinkInView e.config d).stop = .none)
    (hmade : OnlyDirectories e f) (hlead : leadsToDirectory (f.upperAt d) = true) :
    PlainDirectories f d := by
  intro k hk hne
  obtain ⟨v, hv⟩ := node_above hlead hk
  refine ⟨v, hv, ?_⟩
  obtain hold | hnew := hmade k _ hv
  · rw [← Bool.not_eq_true]
    intro hlink
    exact (upper_plain_of_view hview hk hne).1 (kind_of_entry hold hlink)
  · injection hnew with hnew
    rw [hnew]

/-! ## One marker -/

/-- A marker file that was not there before. -/
def NewMarker (e g : Engine) (m : RelPath) : Prop :=
  entryAt g.upper m = some (.inl .marker) ∧ entryAt e.upper m ≠ some (.inl .marker)

/-- Where a run for the directory `d` writes markers. -/
structure WritesPlainly (e g : Engine) (d : RelPath) (succeeded : Bool) : Prop where
  /-- A new marker is in the directory, and the directory is plain. -/
  newMarker : ∀ m, NewMarker e g m → m.dropLast = d ∧ PlainDirectories g d
  /-- So is the directory of a marker that replaces one. -/
  succeeds : succeeded = true → leadsToDirectory (g.upperAt d) = true → PlainDirectories g d

theorem OnlyDirectories.not_newMarker {m : RelPath} (h : OnlyDirectories e g) :
    ¬NewMarker e g m := by
  intro hnew
  obtain hold | hdir := h m _ hnew.1
  · exact hnew.2 hold
  · cases hdir

/-- A run that fails after the directories were made writes no marker. -/
theorem WritesPlainly.failed (h : OnlyDirectories e g) : WritesPlainly e g d false where
  newMarker _ hnew := absurd hnew h.not_newMarker
  succeeds hfalse := by cases hfalse

/-- Nothing is above a place in it. -/
theorem plain_of_elsewhere {m : RelPath} (hplain : PlainDirectories f d) (hm : ¬m <+: d)
    (hput : ∀ k, ¬m <+: k → entryAt g.upper k = entryAt f.upper k) : PlainDirectories g d := by
  intro k hk hne
  rw [hput k fun hpre => hm (hpre.trans hk)]
  exact hplain k hk hne

/-- A marker put into a plain directory. -/
theorem WritesPlainly.put {m : RelPath} (hne : m ≠ []) (hmade : OnlyDirectories e f)
    (hlead : leadsToDirectory (f.upperAt m.dropLast) = true)
    (hplain : PlainDirectories f m.dropLast)
    (hput : g.upper = PathTree.put f.upper m (some (.leaf .marker))) :
    WritesPlainly e g m.dropLast true := by
  have hself : ¬m <+: m.dropLast := by
    intro h
    have hlength := h.length_le
    have hpos := List.length_pos_of_ne_nil hne
    rw [List.length_dropLast] at hlength
    omega
  have hkept : ∀ k, ¬m <+: k → entryAt g.upper k = entryAt f.upper k := by
    intro k hk
    rw [hput]
    exact entryAt_put_elsewhere hk _
  have hplain' := plain_of_elsewhere hplain hself hkept
  refine ⟨?_, fun _ _ => hplain'⟩
  intro m' hnew
  refine ⟨?_, hplain'⟩
  by_cases hpre : m <+: m'
  · obtain ⟨q, rfl⟩ := hpre
    cases q with
    | nil => rw [List.append_nil]
    | cons n q =>
      -- Nothing is below a marker.
      have hnew := hnew.1
      have hcan : PathTree.CanPut f.upper m := by
        have hcan := (canPut_of_leads hlead (m.getLast hne)).1
        rwa [List.dropLast_append_getLast hne] at hcan
      rw [hput, entryAt, placeAt] at hnew
      split at hnew
      · cases hnew
      · rw [PathTree.sub_put_append hcan, PathTree.sub_leaf] at hnew
        cases hnew
  · have hold : NewMarker e f m' := by
      refine ⟨?_, hnew.2⟩
      rw [← hkept m' hpre]
      exact hnew.1
    exact absurd hold hmade.not_newMarker

/-! ## Whiteouts -/

/-- Whatever `CreateWhiteout` ends with. -/
theorem createWhiteout_writes (p : RelPath) (e : Engine) :
    (createWhiteout p).Ensures e fun r g => WritesPlainly e g p.dropLast r.isOk := by
  apply Step.Ensures.get
  cases hlink : (findLinkInView e.config p.dropLast).stop with
  | link =>
    simp only [markerDirectoryStatus, hlink]
    exact WritesPlainly.failed (.of_upper rfl)
  | unreadable =>
    simp only [markerDirectoryStatus, hlink]
    exact WritesPlainly.failed (.of_upper rfl)
  | none =>
    simp only [markerDirectoryStatus, hlink]
    refine Step.Ensures.bind (P := fun _ g => g = e) rfl ?_ ?_
    · intro _ g hg
      subst hg
      refine Step.Ensures.bind (ensureDirectoryExists_entries p.dropLast g) ?_ ?_
      · intro _ f hf
        refine Step.Ensures.bind (createHiddenMarkerFile_ensures (getWhiteoutFileName p) f) ?_ ?_
        · intro _ f' hf'
          refine (invalidateWithAncestors_ensures p f').mono fun r g' hg' => ?_
          have hlead : (getWhiteoutFileName p).dropLast = p.dropLast := by
            rw [getWhiteoutFileName, List.dropLast_concat]
          have hne : getWhiteoutFileName p ≠ [] := by
            rw [getWhiteoutFileName]
            simp
          rw [hg'.1, ← hlead]
          apply WritesPlainly.put hne hf.2.1 hf'.1
          · apply plain_of_made _ hf.2.1 hf'.1
            rw [hlead, hlink]
          · rw [hg'.2.toUntouched.upper, hf'.2.upper]
        · intro status f' hf'
          exact WritesPlainly.failed fun k x hx => hf.2.1 k x (by rwa [hf'.upper] at hx)
      · intro status f hf
        cases hf.1
    · intro status g hg
      subst hg
      exact WritesPlainly.failed (.of_upper rfl)

/-! ## Opaque markers -/

/-- A place that is held can be replaced. -/
theorem placeAt_put_held {o : Place} {t : Tree} (ht : placeAt o d = some t) (s : Place)
    (q : RelPath) : placeAt (PathTree.put o d s) (d ++ q) = placeAt s q := by
  cases d using List.reverseRecOn with
  | nil => rw [PathTree.put_nil, List.nil_append]
  | append_singleton d n =>
    have hdot : n ≠ ['.'] := by
      intro hn
      rw [placeAt, if_pos (by simp [hn])] at ht
      cases ht
    have hlead : leadsToDirectory (placeAt o d) = true := by
      rw [placeAt_snoc] at ht
      cases hplace : placeAt o d with
      | none =>
        rw [hplace, childAt, placeAt_none] at ht
        cases ht
      | some u =>
        cases u with
        | node v children => rfl
        | leaf v =>
          rw [hplace, childAt_leaf] at ht
          cases ht
    exact placeAt_put hlead hdot s q

/-- What a directory holds with both opaque markers. -/
theorem entryAt_markOpaqueNode {v : DirNode} {children : List (Name × Tree)} {q : RelPath}
    {x : Leaf ⊕ DirNode} (h : entryAt (some (markOpaqueNode (.node v children))) q = some x) :
    (q = [] ∧ x = .inr { v with opaqueStream := true }) ∨
      (q = [kOpaqueMarkerFile] ∧ x = .inl .marker) ∨
      entryAt (some (.node v children : Tree)) q = some x := by
  cases q with
  | nil =>
    have hnode : entryAt (some (markOpaqueNode (.node v children))) []
        = some (.inr { v with opaqueStream := true }) := by
      rw [entryAt, placeAt_nil, markOpaqueNode]
      split
      · show some (PathTree.entry (PathTree.setChild _ _ _)) = _
        rw [PathTree.entry_setChild]
        rfl
      · rfl
    rw [hnode] at h
    injection h with h
    exact .inl ⟨rfl, h.symm⟩
  | cons n q =>
    rw [entryAt_cons] at h ⊢
    have hchild : childAt (some (markOpaqueNode (.node v children))) n
        = childAt (some (.node v children : Tree)) n ∨
          (n = kOpaqueMarkerFile ∧
            childAt (some (markOpaqueNode (.node v children))) n = some (.leaf .marker)) := by
      rw [markOpaqueNode]
      by_cases hdot : n = ['.']
      · left
        simp [childAt, placeAt, hdot]
      · have hplain : ∀ t : Tree, childAt (some t) n = t.child n := by
          intro t
          have hne : ¬['.'] = n := fun heq => hdot heq.symm
          simp [childAt, placeAt, hne, PathTree.sub_cons]
        rw [hplain, hplain]
        split
        · by_cases hn : n = kOpaqueMarkerFile
          · right
            subst hn
            exact ⟨rfl, PathTree.child_setChild_self _ _⟩
          · left
            rw [PathTree.child_setChild_ne hn]
            rfl
        · left
          rfl
    obtain hsame | ⟨hn, hmarker⟩ := hchild
    · rw [hsame] at h
      exact .inr (.inr h)
    · rw [hmarker] at h
      cases q with
      | nil =>
        injection h with h
        exact .inr (.inl ⟨by rw [hn], h.symm⟩)
      | cons m q =>
        rw [entryAt_cons, childAt_leaf, entryAt, placeAt_none] at h
        cases h

theorem writeOpaqueMarkers_ensures (d : RelPath) (e : Engine) :
    (writeOpaqueMarkers d).Ensures e fun r g =>
      match r with
      | .ok _ => ∃ t, e.upperAt d = some t ∧ PutsAt e g d (some (markOpaqueNode t))
      | .error _ => Untouched e g := by
  refine Step.Ensures.bind (diskStep_ensures .writeOpaqueMarkers e) ?_ fun _ f hf => hf
  intro _ f hf
  apply Step.Ensures.get
  cases ht : f.upperAt d with
  | none => exact hf
  | some t =>
    rw [hf.upperAt] at ht
    exact ⟨t, ht, hf.puts (putUpper_puts f d _)⟩

/-- Both markers put at a directory that is held. -/
theorem WritesPlainly.marked {t : Tree} (hview : (findLinkInView e.config d).stop = .none)
    (hmade : OnlyDirectories e f) (ht : f.upperAt d = some t)
    (hput : g.upper = PathTree.put f.upper d (some (markOpaqueNode t))) :
    WritesPlainly e g d true := by
  have hbelow : ∀ q, entryAt g.upper (d ++ q) = entryAt (some (markOpaqueNode t)) q := by
    intro q
    rw [hput, entryAt, placeAt_put_held ht]
    rfl
  have hbefore : ∀ q, entryAt f.upper (d ++ q) = entryAt (some t) q := by
    intro q
    rw [entryAt, placeAt_append]
    show (placeAt (f.upperAt d) q).map _ = _
    rw [ht]
    rfl
  have hkept : ∀ k, ¬d <+: k → entryAt g.upper k = entryAt f.upper k := by
    intro k hk
    rw [hput]
    exact entryAt_put_elsewhere hk _
  cases t with
  | leaf w =>
    -- A file keeps what it is.
    have hsame : ∀ k, entryAt g.upper k = entryAt f.upper k := by
      intro k
      by_cases hpre : d <+: k
      · obtain ⟨q, rfl⟩ := hpre
        rw [hbelow, hbefore]
        rfl
      · exact hkept k hpre
    have hnone : OnlyDirectories e g := fun k x hx => hmade k x (by rwa [hsame] at hx)
    refine ⟨fun m hnew => absurd hnew hnone.not_newMarker, ?_⟩
    intro _ hlead
    obtain ⟨v, hv⟩ := node_above hlead List.prefix_rfl
    have hfile := hbefore []
    rw [List.append_nil, ← hsame, hv] at hfile
    cases hfile
  | node v children =>
    have hplain : PlainDirectories f d := plain_of_made hview hmade (by rw [ht]; rfl)
    have hdirectory : PlainDirectories g d := by
      intro k hk hne
      by_cases hself : k = d
      · subst hself
        obtain ⟨w, hw, hlink⟩ := hplain k hk hne
        have hentry := hbefore []
        rw [List.append_nil, hw] at hentry
        injection hentry with hentry
        injection hentry with hentry
        subst hentry
        obtain ⟨x, hx⟩ : ∃ x, entryAt (some (markOpaqueNode (.node w children))) [] = some x :=
          ⟨_, rfl⟩
        have hafter := hbelow []
        rw [List.append_nil, hx] at hafter
        obtain ⟨_, rfl⟩ | ⟨hq, _⟩ | hold := entryAt_markOpaqueNode hx
        · exact ⟨_, hafter, hlink⟩
        · cases hq
        · injection hold with hold
          subst hold
          exact ⟨_, hafter, hlink⟩
      · have hshort : ¬d <+: k := fun hpre => hself (hk.eq_of_length_le hpre.length_le)
        rw [hkept k hshort]
        exact hplain k hk hne
    refine ⟨?_, fun _ _ => hdirectory⟩
    intro m hnew
    refine ⟨?_, hdirectory⟩
    have hold : ∀ m, NewMarker e f m → False := fun m => hmade.not_newMarker
    by_cases hpre : d <+: m
    · obtain ⟨q, rfl⟩ := hpre
      have hmarker := hnew.1
      rw [hbelow] at hmarker
      obtain ⟨_, hx⟩ | ⟨hq, _⟩ | hsame := entryAt_markOpaqueNode hmarker
      · cases hx
      · rw [hq, List.dropLast_concat]
      · rw [← hbefore] at hsame
        exact (hold _ ⟨hsame, hnew.2⟩).elim
    · have hmarker := hnew.1
      rw [hkept m hpre] at hmarker
      exact (hold _ ⟨hmarker, hnew.2⟩).elim

/-- Whatever `SetOpaque` ends with. -/
theorem setOpaque_writes (d : RelPath) (e : Engine) :
    (setOpaque d).Ensures e fun r g => WritesPlainly e g d r.isOk := by
  apply Step.Ensures.get
  cases hlink : (findLinkInView e.config d).stop with
  | link =>
    simp only [markerDirectoryStatus, hlink]
    exact WritesPlainly.failed (.of_upper rfl)
  | unreadable =>
    simp only [markerDirectoryStatus, hlink]
    exact WritesPlainly.failed (.of_upper rfl)
  | none =>
    simp only [markerDirectoryStatus, hlink]
    refine Step.Ensures.bind (P := fun _ g => g = e) rfl ?_ ?_
    · intro _ g hg
      subst hg
      refine Step.Ensures.bind (ensureDirectoryExists_entries d g) ?_ ?_
      · intro _ f hf
        refine Step.Ensures.attempt_bind (writeOpaqueMarkers_ensures d f) ?_
        intro r f' hf'
        refine Step.Ensures.bind (invalidate_ensures d f') ?_ ?_
        · intro _ g' hg'
          show WritesPlainly g g' d r.isOk
          cases r with
          | ok _ =>
            obtain ⟨t, ht, hputs⟩ := hf'
            apply WritesPlainly.marked hlink hf.2.1 ht
            rw [hg'.2.toUntouched.upper, hputs.upper]
          | error status =>
            refine WritesPlainly.failed fun k x hx => hf.2.1 k x ?_
            rwa [hg'.2.toUntouched.upper, hf'.upper] at hx
        · intro status g' hg'
          cases hg'.1
      · intro status f hf
        cases hf.1
    · intro status g hg
      subst hg
      exact WritesPlainly.failed (.of_upper rfl)

/-! ## The view, the merge and the markers -/

/-- For any layers, and a directory that the merge takes: the first layer it scans that
reaches the directory at or below a link, or an unreadable component, is the answer of
`FindLinkInView`; and an answer comes from such a layer, unless one of the scans fails.  A
directory that `FindLinkInView` has no answer for has no link in the upper; and a marker that
`CreateWhiteout` or `SetOpaque` writes is in a plain directory of the upper. -/
theorem linkView_and_markers (c : LayerConfig) (d : RelPath)
    (hd : d = [] ∨ isSafeRelativePath d = true) (hfree : isReservedOverlayPath c d = false) :
    ((∀ layer, (scannedLayers c d).find? (reachesLink d) = some layer →
        findLinkInView c d = linkInViewOf d layer) ∧
      ((findLinkInView c d).stop ≠ .none →
        (∃ layer, (scannedLayers c d).find? (reachesLink d) = some layer) ∨
          ∃ layer ∈ scannedLayers c d, scanSucceeds d layer = false)) ∧
    (∀ dir, (findLinkInView c dir).stop = .none → ∀ k, k <+: dir → k ≠ [] →
      componentKindInLayer c.upper k ≠ .link ∧ componentKindInLayer c.upper k ≠ .unreadable) ∧
    ∀ (e : Engine) (p : RelPath),
      (createWhiteout p).Ensures e (fun r g => WritesPlainly e g p.dropLast r.isOk) ∧
      (setOpaque p).Ensures e (fun r g => WritesPlainly e g p r.isOk) := by
  refine ⟨?_, fun dir h k => upper_plain_of_view h, fun e p =>
    ⟨createWhiteout_writes p e, setOpaque_writes p e⟩⟩
  have hscanned : scannedLayers c d
      = forEachScannedLayer (ancestryIn c d) (scanSucceeds d) (mergeLayersOf c) := by
    have hguard : ¬(((!d.isEmpty && !isSafeRelativePath d) || isReservedOverlayPath c d)
        = true) := by
      rw [hfree, Bool.or_false]
      obtain rfl | hd := hd
      · simp
      · simp [hd]
    rw [scannedLayers, if_neg hguard]
  have hagrees := findLinkInView_agrees c d
  rw [← hscanned] at hagrees
  refine ⟨hagrees.1, ?_⟩
  intro hstop
  by_contra hcon
  rw [not_or] at hcon
  apply hstop
  apply hagrees.2
  · exact Option.eq_none_iff_forall_not_mem.mpr fun layer hlayer => hcon.1 ⟨layer, hlayer⟩
  · intro layer hmem
    by_contra hfails
    exact hcon.2 ⟨layer, hmem, Bool.not_eq_true _ |>.mp hfails⟩

theorem linkView_and_markers_pointLayer :
    isReservedOverlayPath ⟨pointLayer .nameSurrogate, []⟩ [['d']] = false ∧
      ∀ layer, (scannedLayers ⟨pointLayer .nameSurrogate, []⟩ [['d']]).find? (reachesLink [['d']])
          = some layer →
        findLinkInView ⟨pointLayer .nameSurrogate, []⟩ [['d']] = linkInViewOf [['d']] layer :=
  ⟨by decide, (linkView_and_markers ⟨pointLayer .nameSurrogate, []⟩ [['d']] (.inr (by decide))
    (by decide)).1.1⟩

/-- A scan of the upper fails above a lower that cannot read the directory; and the merge
takes no reserved directory, such as a link with the reserved name. -/
theorem linkView_differs :
    (¬∀ (c : LayerConfig) (d : RelPath), isSafeRelativePath d = true →
      isReservedOverlayPath c d = false → (findLinkInView c d).stop ≠ .none →
      (scannedLayers c d).any (reachesLink d) = true) ∧
    (¬∀ (c : LayerConfig) (d : RelPath), (mergeLayersOf c).all (scanSucceeds d) = true →
      (findLinkInView c d).stop ≠ .none → (scannedLayers c d).any (reachesLink d) = true) := by
  refine ⟨?_, ?_⟩
  · intro h
    have hscanned := h ⟨pointLayer .other, [pointLayer .unreadable]⟩ [['d']] (by decide) (by decide)
      (by decide)
    exact absurd hscanned (by decide)
  · intro h
    have hscanned := h
      ⟨Layer.ofTree [] (some (.node {} [(kSidecarDirName, .leaf .deadLink)])), []⟩
      [kSidecarDirName] (by decide) (by decide)
    exact absurd hscanned (by decide)

end LayerMount
