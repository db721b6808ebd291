import LayerMount.LayerTree

/-!
# The view is a tree

What a lookup finds under a name has a directory above it, or a directory link, and a
lookup finds that one too.  The lookups of `d` and of `d\n` walk the layers separately; every test
that cuts a layer off at `d` also cuts it off at `d\n`, so a layer that answers for
`d\n` is reached at `d` (`findInLowersFrom_parent`).

Nothing here needs a sidecar record to have an entry: a stray opaque record hides what
is below it at every depth alike.
-/

namespace LayerMount

variable {c : LayerConfig} {l : Layer} {d p q : RelPath} {n m : Name}

/-! ## Tests at a directory and below it -/

/-- A walk that meets no file and no link on the way to `d\n` meets none on the way
to `d`. -/
theorem stop_none_above (h : l.Readable)
    (hstop : (walkToFirstNonDirectory l (d ++ [n])).stop = .none) :
    (walkToFirstNonDirectory l d).stop = .none := by
  by_contra hne
  rw [walk_snoc h, if_pos hne] at hstop
  exact hne hstop

theorem whitedOutAncestor_above (h : hasWhitedOutAncestorInLayer l (d ++ [m] ++ [n]) = false) :
    hasWhiteout l (d ++ [m]) = false ∧ hasWhitedOutAncestorInLayer l (d ++ [m]) = false := by
  rw [hasWhitedOutAncestorInLayer, List.dropLast_concat, anyDirectoryUpToRoot_snoc,
    Bool.or_eq_false_iff] at h
  rw [hasWhitedOutAncestorInLayer, List.dropLast_concat]
  exact ⟨h.2, h.1⟩

theorem lowersBelow_visible_iff :
    lowersBelow l d = .visible ↔ hasOpaqueSelfOrAncestorInLayer l d = false ∧
      (walkToFirstNonDirectory l d).stop = .none := by
  unfold lowersBelow hasNonDirectoryOrLinkSelfOrAncestorInLayer
  cases hasOpaqueSelfOrAncestorInLayer l d with
  | true => simp
  | false => by_cases hs : (walkToFirstNonDirectory l d).stop = .none <;> simp [hs]

theorem lowersBelow_above (h : l.Readable) (hvis : lowersBelow l (d ++ [m]) = .visible) :
    lowersBelow l d = .visible := by
  rw [lowersBelow_visible_iff] at hvis ⊢
  rw [hasOpaqueSelfOrAncestorInLayer, anyDirectoryUpToRoot_snoc, Bool.or_eq_false_iff] at hvis
  exact ⟨hvis.1.1, stop_none_above h hvis.2⟩

theorem linkUnderHigher_above (h : l.Readable) {i : Nat}
    (hlink : hasLinkUnderHigherLayerEntry c l i (d ++ [m]) = false) :
    hasLinkUnderHigherLayerEntry c l i d = false := by
  by_cases hstop : (walkToFirstNonDirectory l d).stop = .none
  · simp [hasLinkUnderHigherLayerEntry, hstop]
  · rw [hasLinkUnderHigherLayerEntry, walk_snoc h, if_pos hstop] at hlink
    exact hlink

/-- An entry where the walk did not stop is a directory. -/
theorem directory_of_stop_none (h : l.Readable) {e : LayerEntry} (hget : l.get (d ++ [m]) = .entry e)
    (hstop : (walkToFirstNonDirectory l (d ++ [m])).stop = .none) :
    e.attributes.directory = true := by
  have habove := stop_none_above h hstop
  rw [walk_snoc h, if_neg (by simp [habove])] at hstop
  by_contra hfile
  rw [Bool.not_eq_true] at hfile
  have hkind : componentKindInLayer l (d ++ [m]) = .file := by
    simp [componentKindInLayer, hget, LayerEntry.kind, hfile]
  rw [hkind] at hstop
  cases hstop

/-- The entry above an entry is a directory or a link to one, unless the entry is the
same under a last `.`. -/
theorem directory_above (h : l.Readable) {e : LayerEntry} (hget : l.get (d ++ [n]) = .entry e) :
    ∃ above, l.get d = .entry above ∧ (n ≠ ['.'] → above.attributes.directory = true) := by
  by_cases hn : n = ['.']
  · subst hn
    refine ⟨e, ?_, fun hne => absurd rfl hne⟩
    rw [← l.get_dot d (by simp [hget]), hget]
  · rcases l.parent_directory d n hn (by simp [hget]) with hun | ⟨above, habove, hdir⟩
    · exact absurd hun (h.get d)
    · exact ⟨above, habove, fun _ => hdir⟩

/-! ## Names that a lookup accepts -/

theorem isReservedOverlayPath_of_above (hd : d ≠ []) (h : isReservedOverlayPath c d = true) :
    isReservedOverlayPath c (d ++ [n]) = true := by
  have hside : isRootSidecarPath (d ++ [n]) = isRootSidecarPath d := by
    cases d with
    | nil => exact absurd rfl hd
    | cons x d => rfl
  unfold isReservedOverlayPath at h ⊢
  rw [hside]
  split
  · rfl
  · rename_i hnot
    rw [if_neg hnot] at h
    -- the first component with a marker's name is the same one
    have hfirst : ∀ parent, parentOfFirstMarkerSegment d = some parent →
        parentOfFirstMarkerSegment (d ++ [n]) = some parent := by
      intro parent hparent
      unfold parentOfFirstMarkerSegment at hparent ⊢
      split at hparent
      · rename_i hany
        rw [if_pos (by rw [List.any_append, hany]; rfl), ← hparent,
          List.takeWhile_append, if_neg]
        intro hlen
        obtain ⟨x, hx, hmark⟩ := List.any_eq_true.mp hany
        have hself := (List.takeWhile_prefix fun x => !isWhiteoutName x).eq_of_length hlen
        rw [← hself] at hx
        have hall := List.all_eq_true.mp List.all_takeWhile x hx
        rw [hmark] at hall
        cases hall
      · cases hparent
    cases hparent : parentOfFirstMarkerSegment d with
    | none => rw [hparent] at h; cases h
    | some parent =>
      rw [hparent] at h
      rw [hfirst parent hparent]
      exact h

theorem isResolvablePath_parent (hd : d ≠ []) (h : isResolvablePath c (d ++ [n]) = true) :
    isResolvablePath c d = true := by
  rw [isResolvablePath, Bool.and_eq_true, Bool.not_eq_true'] at h ⊢
  refine ⟨?_, ?_⟩
  · have hsafe := h.1
    rw [isSafeRelativePath, Bool.and_eq_true, List.all_append, Bool.and_eq_true] at hsafe
    rw [isSafeRelativePath, hsafe.2.1, Bool.and_true]
    simpa using hd
  · by_contra hres
    rw [Bool.not_eq_false] at hres
    rw [isReservedOverlayPath_of_above hd hres] at h
    cases h.2

/-! ## The lookup -/

/-- What the lowers have for `d\n` they have for `d`, as a directory where `n` is a name. -/
theorem findInLowersFrom_parent (lowers : List Layer) (hread : ∀ l ∈ lowers, l.Readable) :
    ∀ i, (findInLowersFrom c (d ++ [m] ++ [n]) i lowers).found = true →
      (findInLowersFrom c (d ++ [m]) i lowers).found = true ∧
        (n ≠ ['.'] → (findInLowersFrom c (d ++ [m]) i lowers).isDirectory = true) := by
  induction lowers with
  | nil => intro i h; cases h
  | cons l rest ih =>
    intro i h
    have hl := hread l (by simp)
    have hrest := ih fun l' hl' => hread l' (by simp [hl'])
    simp only [findInLowersFrom] at h
    split at h
    · cases h
    split at h
    · cases h
    rename_i hanc
    split at h
    · cases h
    rename_i hlink
    rw [List.dropLast_concat] at h hlink
    obtain ⟨hwhite, hancestor⟩ := whitedOutAncestor_above (by simpa using hanc)
    have hlink := linkUnderHigher_above hl (by simpa using hlink)
    rw [findInLowersFrom, hwhite, hancestor, List.dropLast_concat, hlink]
    simp only [Bool.false_eq_true, if_false]
    cases hget : l.get (d ++ [m] ++ [n]) with
    | entry e =>
      obtain ⟨above, habove, hdir⟩ := directory_above hl hget
      rw [habove]
      exact ⟨rfl, hdir⟩
    | unreadable => exact absurd hget (hl.get _)
    | missing =>
      rw [hget] at h
      simp only at h
      split at h
      · cases h
      rename_i hvis
      rw [ne_eq, not_not] at hvis
      cases hat : l.get (d ++ [m]) with
      | entry above =>
        exact ⟨rfl, fun _ => directory_of_stop_none hl hat (lowersBelow_visible_iff.mp hvis).2⟩
      | unreadable => exact absurd hat (hl.get _)
      | missing =>
        simp only [lowersBelow_above hl hvis, ne_eq, not_true_eq_false, if_false]
        exact hrest (i + 1) h

/-- A lookup with an empty cache, where no redirect record is read. -/
theorem resolvePath_probes (hred : c.NoRedirect) (hp : p ≠ []) :
    (resolvePath c p {}).1 = if !isResolvablePath c p then {} else
      match c.upper.get p with
      | .entry e => { absolutePath := some p, source := .upper, attributes := some e.attributes }
      | _ =>
        match hidingInUpper c p with
        | .whiteout => { isWhiteout := true }
        | .opaqueMarker => {}
        | .nonDirectoryOrLink => {}
        | .none => if !(findInLowers c p 0).found then {} else findInLowers c p 0 := by
  have hne : p.isEmpty = false := by simpa using hp
  have hmiss : Cache.get {} p = (none, {}) := rfl
  rw [resolvePath, resolvePathInternal]
  simp only [hne, Bool.false_eq_true, if_false]
  split
  · rfl
  · simp only [hmiss]
    cases hget : c.upper.get p with
    | entry e => simp only [hred p e hget]
    | missing =>
      cases hidingInUpper c p with
      | none => dsimp only; split <;> rfl
      | whiteout => rfl
      | opaqueMarker => rfl
      | nonDirectoryOrLink => rfl
    | unreadable =>
      cases hidingInUpper c p with
      | none => dsimp only; split <;> rfl
      | whiteout => rfl
      | opaqueMarker => rfl
      | nonDirectoryOrLink => rfl

/-- Where the upper does not hide `d\n`, it does not hide `d`. -/
theorem hidingInUpper_parent (h : c.upper.Readable)
    (hhide : hidingInUpper c (d ++ [m] ++ [n]) = .none) :
    hidingInUpper c (d ++ [m]) = .none ∧ lowersBelow c.upper (d ++ [m]) = .visible := by
  unfold hidingInUpper upperAncestorHiding at hhide
  split at hhide
  · cases hhide
  split at hhide
  · cases hhide
  rename_i hanc
  rw [List.dropLast_concat] at hhide
  have hvis : lowersBelow c.upper (d ++ [m]) = .visible := by
    cases hv : lowersBelow c.upper (d ++ [m]) with
    | visible => rfl
    | hiddenByOpaqueMarker => rw [hv] at hhide; cases hhide
    | hiddenByNonDirectoryOrLink => rw [hv] at hhide; cases hhide
  obtain ⟨hwhite, hancestor⟩ := whitedOutAncestor_above (by simpa using hanc)
  refine ⟨?_, hvis⟩
  rw [hidingInUpper, upperAncestorHiding, hwhite, hancestor, List.dropLast_concat,
    lowersBelow_above h hvis]
  rfl

/-- What a lookup finds has an entry above it that a lookup finds, a directory where the
last component is a name. -/
theorem found_parent (hupper : c.upper.Readable) (hlowers : ∀ l ∈ c.lowers, l.Readable)
    (hred : c.NoRedirect) (hd : d ≠ []) (h : (resolvePath c (d ++ [n]) {}).1.found = true) :
    (resolvePath c d {}).1.found = true ∧
      (n ≠ ['.'] → (resolvePath c d {}).1.isDirectory = true) := by
  obtain ⟨d, m, rfl⟩ : ∃ d' m, d = d' ++ [m] := ⟨_, _, (List.dropLast_append_getLast hd).symm⟩
  rw [resolvePath_probes hred (by simp)] at h
  rw [resolvePath_probes hred hd]
  split at h
  · cases h
  rename_i hres
  have hres := isResolvablePath_parent hd (by simpa using hres)
  rw [if_neg (by simp [hres])]
  cases hget : c.upper.get (d ++ [m] ++ [n]) with
  | entry e =>
    obtain ⟨above, habove, hdir⟩ := directory_above hupper hget
    rw [habove]
    exact ⟨rfl, hdir⟩
  | unreadable => exact absurd hget (hupper.get _)
  | missing =>
    rw [hget] at h
    cases hhide : hidingInUpper c (d ++ [m] ++ [n]) with
    | whiteout => rw [hhide] at h; cases h
    | opaqueMarker => rw [hhide] at h; cases h
    | nonDirectoryOrLink => rw [hhide] at h; cases h
    | none =>
      rw [hhide] at h
      obtain ⟨hhide', hvis⟩ := hidingInUpper_parent hupper hhide
      have hlower : (findInLowers c (d ++ [m] ++ [n]) 0).found = true := by
        by_contra hnot
        rw [if_pos (by simpa using hnot)] at h
        cases h
      rw [findInLowers, List.drop_zero] at hlower
      obtain ⟨hfound, hdir⟩ := findInLowersFrom_parent c.lowers hlowers 0 hlower
      cases hat : c.upper.get (d ++ [m]) with
      | entry above =>
        exact ⟨rfl, fun _ => directory_of_stop_none hupper hat (lowersBelow_visible_iff.mp hvis).2⟩
      | unreadable => exact absurd hat (hupper.get _)
      | missing =>
        simp only [hhide', findInLowers, List.drop_zero, hfound, Bool.not_true,
          Bool.false_eq_true, if_false, true_and]
        exact hdir

/-- The merged view is a tree: what a lookup finds has an entry above it that a lookup
finds, a directory or a directory link where the last component is a name.  Nothing is
found below a path that is not found, and below one that shows a file nothing under a
name.  A `.` goes no further: it finds again what is above it. -/
theorem view_is_tree (hupper : c.upper.Readable) (hlowers : ∀ l ∈ c.lowers, l.Readable)
    (hred : c.NoRedirect) :
    (∀ d n, d ≠ [] → (resolvePath c (d ++ [n]) {}).1.found = true →
      (resolvePath c d {}).1.found = true ∧
        (n ≠ ['.'] → (resolvePath c d {}).1.isDirectory = true)) ∧
    ∀ d q, d ≠ [] → q ≠ [] → (resolvePath c d {}).1.found = false ∨
        ((resolvePath c d {}).1.isDirectory = false ∧ q.head? ≠ some ['.']) →
      (resolvePath c (d ++ q) {}).1.found = false := by
  refine ⟨fun d n hd h => found_parent hupper hlowers hred hd h, ?_⟩
  intro d q hd hq hnot
  -- from the last component of `q` up to `d`
  induction q using List.reverseRecOn with
  | nil => exact absurd rfl hq
  | append_singleton q n ih =>
    by_contra hfound
    rw [Bool.not_eq_false, ← List.append_assoc] at hfound
    obtain ⟨habove, hdir⟩ := found_parent hupper hlowers hred (by simp [hd]) hfound
    cases q with
    | nil =>
      rw [List.append_nil] at habove hdir
      rcases hnot with hnot | ⟨hnot, hhead⟩
      · rw [habove] at hnot
        cases hnot
      · rw [hdir (by simpa using hhead)] at hnot
        cases hnot
    | cons x q =>
      rw [ih (by simp) (by simpa using hnot)] at habove
      cases habove

/-- An upper `d` with a whiteout over a lower that holds `d\b` and `d\c`. -/
def whitedChild : LayerConfig :=
  configOf [{}] (some (.node {} [(['d'], .node {} [(whiteoutName ['b'], .leaf .marker)])]))
    [some (.node {} [(['d'], .node {} [(['b'], .leaf (.file 0)), (['c'], .leaf (.file 0))])])]

theorem view_is_tree_whitedChild :
    (∀ d n, d ≠ [] → (resolvePath whitedChild (d ++ [n]) {}).1.found = true →
      (resolvePath whitedChild d {}).1.found = true ∧
        (n ≠ ['.'] → (resolvePath whitedChild d {}).1.isDirectory = true)) ∧
    ∀ d q, d ≠ [] → q ≠ [] → (resolvePath whitedChild d {}).1.found = false ∨
        ((resolvePath whitedChild d {}).1.isDirectory = false ∧ q.head? ≠ some ['.']) →
      (resolvePath whitedChild (d ++ q) {}).1.found = false := by
  apply view_is_tree
  · exact readable_ofTree
  · intro l hl
    obtain ⟨o, -, rfl⟩ := List.mem_map.mp hl
    exact readable_ofTree
  · exact noRedirect_ofTrees _ _ _

/-- A file `f` alone in the upper. -/
def dottedFile : LayerConfig where
  upper := Layer.ofTreeProbed [{}] (some (.node {} [(['f'], .leaf (.file 0))]))
  lowers := []

/-- A lookup of `f\.` finds the file `f`, below a path that shows a file. -/
theorem dot_found_below_file :
    ¬∀ (c : LayerConfig) (d : RelPath) (n : Name), c.upper.Readable →
      (∀ l ∈ c.lowers, l.Readable) → c.NoRedirect → d ≠ [] →
      (resolvePath c (d ++ [n]) {}).1.found = true →
      (resolvePath c d {}).1.found = true ∧ (resolvePath c d {}).1.isDirectory = true := by
  intro h
  have hred : dottedFile.NoRedirect := by
    intro p e he
    exact noRedirect_ofTrees [{}] (some (.node {} [(['f'], .leaf (.file 0))])) [] _ e he
  have hfile := (h dottedFile [['f']] ['.'] readable_ofTreeProbed (by simp [dottedFile]) hred
    (by simp) (by decide)).2
  exact absurd hfile (by decide)

end LayerMount
