import LayerMount.LayerTree

/-!
# The ancestry and the predicates

`LayerAncestryOf` reads a path of a layer once, from the root down, and stops at the
first component that is no directory.  The predicates of `WhiteoutManager.cpp` and
`LayerPath.cpp` start at the path and go up, and each looks for links by a walk of its own.

`layerAncestryOf_eq_predicates` holds them together.  They differ in one place.  The
ancestry reads an opaque marker at a plain directory only; the predicate asks for no link,
so it takes the record of the file where the walk stops.
-/

namespace LayerMount

variable {l : Layer} {c : LayerConfig} {d : RelPath} {n : Name}

/-- The walk stops at a file with an opaque record. -/
def stopsAtOpaqueFile (l : Layer) (d : RelPath) : Bool :=
  (walkToFirstNonDirectory l d).stop = .file &&
    holdsOpaqueMarker l (walkToFirstNonDirectory l d).component

/-- `HasWhiteout`, which names an entry, or `HasWhitedOutAncestorInLayer`. -/
def hasWhiteoutSelfOrAncestor (l : Layer) (d : RelPath) : Bool :=
  (!d.isEmpty && hasWhiteout l d) || hasWhitedOutAncestorInLayer l d

theorem hasWhiteoutSelfOrAncestor_eq (d : RelPath) :
    hasWhiteoutSelfOrAncestor l d = anyDirectoryUpToRoot false (hasWhiteout l) d := by
  induction d using List.reverseRecOn with
  | nil => rfl
  | append_singleton d n _ =>
    have hempty : (d ++ [n]).isEmpty = false := by simp
    unfold hasWhiteoutSelfOrAncestor hasWhitedOutAncestorInLayer
    rw [anyDirectoryUpToRoot_snoc, List.dropLast_concat, hempty, Bool.not_false, Bool.true_and,
      Bool.or_comm]

/-- Below the place where a walk stopped, an entry is opaque only as the file there is. -/
theorem isOpaqueInLayer_snoc_of_stop (h : l.Readable) (hs : l.NoStraySidecar)
    (hstop : (walkToFirstNonDirectory l d).stop ≠ .none) :
    isOpaqueInLayer l (d ++ [n]) = true → stopsAtOpaqueFile l d = true := by
  have hwalk := walk_snoc h d n
  rw [if_pos hstop] at hwalk
  cases hend : (walkToFirstNonDirectory l d).stop with
  | none => exact absurd hend hstop
  | unreadable => exact absurd hend (walk_stop_ne_unreadable h d)
  | file =>
    intro hop
    have hfile : (walkToFirstNonDirectory l (d ++ [n])).stop = .file := by rw [hwalk, hend]
    have hmarker : l.get (d ++ [n] ++ [kOpaqueMarkerFile]) = .missing :=
      get_snoc_of_stop_file h hfile (by decide)
    rcases get_of_stop_file h hfile with hmiss | hsame
    · rw [isOpaqueInLayer, holdsOpaqueMarker_of_missing h hs hmiss, Bool.false_and] at hop
      cases hop
    · -- a `.` below the file reads the stream of the file, and no record is for it
      have hside : l.sidecarOpaque (d ++ [n]) = false := by
        by_contra hrecord
        obtain ⟨hheld, hdot⟩ := hs _ (by simpa using hrecord)
        exact hheld (get_snoc_of_stop_file h hend (by simpa using hdot))
      rw [isOpaqueInLayer, Bool.and_eq_true, holdsOpaqueMarker, hasOpaqueMetadata, hside, hsame,
        Bool.or_false, markerFileExists_eq h, hmarker, hwalk] at hop
      have hstream := hop.1
      simp only [ne_eq, not_true_eq_false, decide_false, Bool.or_false] at hstream
      rw [stopsAtOpaqueFile, hend, holdsOpaqueMarker, hasOpaqueMetadata, hstream]
      rfl
  | link =>
    have hlink : findLinkOnPath l (d ++ [n]) ≠ .none := by
      rw [ne_eq, findLinkOnPath_eq_none_iff h, hwalk]
      exact not_not.mpr hend
    simp [isOpaqueInLayer, hlink]

/-- A marker at the path counts where no link is on it. -/
theorem isOpaqueInLayer_of_stop_ne_link (h : l.Readable)
    (hstop : (walkToFirstNonDirectory l d).stop ≠ .link) :
    isOpaqueInLayer l d = holdsOpaqueMarker l d := by
  rw [isOpaqueInLayer, (findLinkOnPath_eq_none_iff h).mpr hstop]
  simp

/-- What the last component adds to an opaque marker above it. -/
theorem isOpaqueInLayer_snoc (h : l.Readable) (hs : l.NoStraySidecar)
    (hstop : (walkToFirstNonDirectory l d).stop = .none) :
    isOpaqueInLayer l (d ++ [n]) =
      ((componentKindInLayer l (d ++ [n]) = .directory && holdsOpaqueMarker l (d ++ [n])) ||
        stopsAtOpaqueFile l (d ++ [n])) := by
  have hwalk := walk_snoc h d n
  rw [if_neg (not_not.mpr hstop)] at hwalk
  unfold stopsAtOpaqueFile
  cases hkind : componentKindInLayer l (d ++ [n]) with
  | missing =>
    have hmiss := (componentKind_eq_missing_iff h).mp hkind
    rw [hkind, walkStopAt, if_pos rfl] at hwalk
    rw [isOpaqueInLayer, holdsOpaqueMarker_of_missing h hs hmiss, hwalk]
    rfl
  | unreadable => exact absurd hkind (componentKind_ne_unreadable h)
  | directory =>
    rw [hkind, walkStopAt, if_pos rfl] at hwalk
    rw [isOpaqueInLayer_of_stop_ne_link h (by rw [hwalk]; decide), hwalk]
    simp
  | file =>
    rw [hkind, walkStopAt, if_neg (by decide)] at hwalk
    rw [isOpaqueInLayer_of_stop_ne_link h (by rw [hwalk]; simp), hwalk]
    simp
  | link =>
    rw [hkind, walkStopAt, if_neg (by decide)] at hwalk
    have hlink : findLinkOnPath l (d ++ [n]) ≠ .none := by
      rw [ne_eq, findLinkOnPath_eq_none_iff h, hwalk]
      exact not_not.mpr rfl
    rw [hwalk]
    simp [isOpaqueInLayer, hlink]

/-- The two walks over the opaque markers, one component further. -/
theorem layerAncestryOf_opaque_predicate (h : l.Readable) (hs : l.NoStraySidecar) (d : RelPath)
    (idx : Option Nat) :
    hasOpaqueSelfOrAncestorInLayer l d
      = ((layerAncestryOf c l d idx).opaqueDir || stopsAtOpaqueFile l d) := by
  unfold hasOpaqueSelfOrAncestorInLayer
  induction d using List.reverseRecOn with
  | nil => simp [layerAncestryOf_nil, anyDirectoryUpToRoot, stopsAtOpaqueFile, walk_nil]
  | append_singleton d n ih =>
    obtain ⟨hend, habsent⟩ := layerAncestryOf_walk (c := c) h d idx
    have hwalk := walk_snoc h d n
    rw [anyDirectoryUpToRoot_snoc, ih, layerAncestryOf_snoc]
    by_cases hstop : (walkToFirstNonDirectory l d).stop = .none
    · have hfile : stopsAtOpaqueFile l d = false := by simp [stopsAtOpaqueFile, hstop]
      rw [hfile, Bool.or_false, isOpaqueInLayer_snoc h hs hstop]
      unfold stepLayerAncestry
      by_cases ha : (layerAncestryOf c l d idx).absent = true
      · -- Nothing is below a directory that the layer lacks.
        have hmiss := get_append_of_missing (habsent ha) [n]
        have hkind := (componentKind_eq_missing_iff h).mpr hmiss
        rw [if_neg (not_not.mpr hstop), hkind, walkStopAt, if_pos rfl] at hwalk
        rw [if_pos ha, hkind, stopsAtOpaqueFile, hwalk]
        simp
      · rw [if_neg ha, if_neg (by rw [hend, hstop]; simp), ← Bool.or_assoc]
        rfl
    · -- Both keep what they had above the stop.
      have hkept : stepLayerAncestry c l (d ++ [n]) idx (layerAncestryOf c l d idx)
          = layerAncestryOf c l d idx := by
        unfold stepLayerAncestry
        rw [hend, if_pos hstop]
        split
        · rfl
        · rfl
      rw [if_pos hstop] at hwalk
      have hfile : stopsAtOpaqueFile l (d ++ [n]) = stopsAtOpaqueFile l d := by
        rw [stopsAtOpaqueFile, hwalk, stopsAtOpaqueFile]
      have hbelow := isOpaqueInLayer_snoc_of_stop (n := n) h hs hstop
      rw [hkept, hfile]
      cases hop : isOpaqueInLayer l (d ++ [n]) with
      | false => rw [Bool.or_false]
      | true =>
        rw [hbelow hop, Bool.or_true]
        simp

/-- In a readable layer without stray records, at every path: the ancestry has a whiteout
where `HasWhiteout` has one of the path or of what is above it; the opaque predicate holds
where the ancestry is opaque or its walk stops at a file with an opaque record; and the other
two flags are the predicates. -/
theorem layerAncestryOf_eq_predicates (h : l.Readable) (hs : l.NoStraySidecar) (c : LayerConfig)
    (d : RelPath) (idx : Option Nat) :
    ((layerAncestryOf c l d idx).whitedOut = true ↔ hasWhiteoutSelfOrAncestor l d = true) ∧
    (hasOpaqueSelfOrAncestorInLayer l d = true ↔
      (layerAncestryOf c l d idx).opaqueDir = true ∨ stopsAtOpaqueFile l d = true) ∧
    ((layerAncestryOf c l d idx).firstNonDirectory ≠ .none ↔
      hasNonDirectoryOrLinkSelfOrAncestorInLayer l d = true) ∧
    ∀ i, idx = some i →
      ((layerAncestryOf c l d idx).linkUnderHigherEntry = true ↔
        hasLinkUnderHigherLayerEntry c l i d = true) := by
  refine ⟨?_, ?_, ?_, ?_⟩
  · rw [hasWhiteoutSelfOrAncestor_eq, layerAncestryOf_whitedOut h]
  · rw [layerAncestryOf_opaque_predicate (c := c) h hs d idx, Bool.or_eq_true]
  · rw [layerAncestryOf_firstNonDirectory, hasNonDirectoryOrLinkSelfOrAncestorInLayer,
      decide_eq_true_eq]
  · intro i hidx
    rw [hidx, layerAncestryOf_link h]

/-- The file `f`, and one whose name is a whiteout's without the name of an entry. -/
def fileTree : Tree := .node {} [(['f'], .leaf (.file 0)), (kWhiteoutPrefix, .leaf (.file 0))]

/-- The sidecar store has an opaque record of `f`. -/
def recordedFile : Layer :=
  { Layer.ofTree [{}] (some fileTree) with sidecarOpaque := fun p => p = [['f']] }

theorem readable_recordedFile : recordedFile.Readable := by
  have h : (Layer.ofTree [{}] (some fileTree)).Readable := readable_ofTree
  exact ⟨h.get, h.tag, h.scan⟩

theorem noStray_recordedFile : recordedFile.NoStraySidecar := by
  intro p hp
  obtain rfl : p = [['f']] := of_decide_eq_true hp
  exact ⟨by decide, by decide⟩

theorem layerAncestryOf_eq_predicates_recordedFile :
    (layerAncestryOf ⟨recordedFile, []⟩ recordedFile [['f']] none).whitedOut = true ↔
      hasWhiteoutSelfOrAncestor recordedFile [['f']] = true :=
  (layerAncestryOf_eq_predicates readable_recordedFile noStray_recordedFile ⟨recordedFile, []⟩
    [['f']] none).1

/-- The predicate takes the file's record, and `HasWhiteout` of the root the other file.  The
ancestry takes neither. -/
theorem ancestry_recordedFile_differs :
    (¬∀ (l : Layer) (c : LayerConfig) (d : RelPath) (idx : Option Nat), l.Readable →
      l.NoStraySidecar → ((layerAncestryOf c l d idx).opaqueDir = true ↔
        hasOpaqueSelfOrAncestorInLayer l d = true)) ∧
    (¬∀ (l : Layer) (c : LayerConfig) (d : RelPath) (idx : Option Nat), l.Readable →
      l.NoStraySidecar → ((layerAncestryOf c l d idx).whitedOut = true ↔
        hasWhiteout l d = true ∨ hasWhitedOutAncestorInLayer l d = true)) := by
  refine ⟨?_, ?_⟩
  · intro h
    have hsame := h recordedFile ⟨recordedFile, []⟩ [['f']] none readable_recordedFile
      noStray_recordedFile
    exact absurd (hsame.mpr (by decide)) (by decide)
  · intro h
    have hsame := h recordedFile ⟨recordedFile, []⟩ [] none readable_recordedFile
      noStray_recordedFile
    exact absurd (hsame.mpr (.inl (by decide))) (by decide)

end LayerMount
