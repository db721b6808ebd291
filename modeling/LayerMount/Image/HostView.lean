import LayerMount.Image.HostLayer

/-!
# The view of a mount of trees

What the resolver shows of a mount whose layers are trees of the host.  The upper's own
entries come before its markers (`view_own`).  The markers of a lower come before its own
entries (`findInLowers_whited`).
-/

namespace LayerMount

open Lib

variable {H : Host}

/-- A mount whose layers are trees of the host. -/
structure HostMount (H : Host) where
  upper : HostDir H
  lowers : List (HostDir H)

namespace HostMount

def config (m : HostMount H) : LayerConfig where
  upper := Layer.ofHost m.upper
  lowers := m.lowers.map Layer.ofHost

/-- The tree of the layer that a result is in. -/
def treeOf (m : HostMount H) (r : ResolvedPath) : Option (HostDir H) :=
  match r.source with
  | .none => none
  | .upper => some m.upper
  | .lower => r.lowerIndex.bind fun i => m.lowers[i]?

/-- The content of the entry that a result names. -/
def contentOf (m : HostMount H) (r : ResolvedPath) : Option (Option Data) :=
  (m.treeOf r).bind fun t => r.absolutePath.bind fun q => (t.find q).map HostEntry.content

/-- What the mount shows at a path: the bytes of a file, or none for a directory. -/
def view (m : HostMount H) (p : RelPath) : Option (Option Data) :=
  m.contentOf (resolvePath m.config (H.foldPath p) {}).1

variable {m : HostMount H} {t : HostDir H} {rest : List Layer} {p : RelPath} {x : HostEntry} {i : Nat}

@[simp] theorem contentOf_default : m.contentOf {} = none := rfl

/-! ## Reserved paths -/

theorem isInLinkTarget_config (d : RelPath) : isInLinkTarget m.config d = false := by
  have hlowers : (m.config.lowers.any fun l =>
      endsAtLinkOrUnreadable (walkToFirstNonDirectory l d).stop) = false := by
    rw [List.any_eq_false]
    intro l hl
    obtain ⟨t, _, rfl⟩ := List.mem_map.mp hl
    rw [endsAtLinkOrUnreadable_ofHost]
    exact Bool.false_ne_true
  have hupper : endsAtLinkOrUnreadable (walkToFirstNonDirectory m.config.upper d).stop = false :=
    endsAtLinkOrUnreadable_ofHost d
  unfold isInLinkTarget findLinkInView
  simp only [hupper, hlowers, Bool.false_eq_true, if_false, Bool.not_false, if_true]
  split <;> rfl

theorem isReservedOverlayPath_config (q : RelPath) :
    isReservedOverlayPath m.config q = isReservedRelativePath q := by
  unfold isReservedOverlayPath isReservedRelativePath
  cases isRootSidecarPath q with
  | true => rfl
  | false =>
    cases parentOfFirstMarkerSegment q with
    | none => rfl
    | some d => simp [isInLinkTarget_config]

/-- No name of the path is one of a marker, and the first is not the sidecar's. -/
def PlainPath (H : Host) (p : RelPath) : Prop :=
  isSafeRelativePath (H.foldPath p) = true ∧ isReservedRelativePath (H.foldPath p) = false

theorem isResolvablePath_config : isResolvablePath m.config (H.foldPath p) = true ↔ PlainPath H p := by
  rw [isResolvablePath, isReservedOverlayPath_config, Bool.and_eq_true, Bool.not_eq_true', PlainPath]

theorem PlainPath.names (h : PlainPath H p) : ∀ n ∈ p, isWhiteoutName (H.foldName n) = false := by
  intro n hn
  have hreserved := h.2
  rw [isReservedRelativePath, Bool.or_eq_false_iff, parentOfFirstMarkerSegment] at hreserved
  by_contra hmarker
  have hany : (H.foldPath p).any isWhiteoutName = true := by
    rw [List.any_eq_true]
    exact ⟨H.foldName n, List.mem_map_of_mem hn, by simpa using hmarker⟩
  rw [if_pos hany] at hreserved
  exact absurd hreserved.2 (by simp)

theorem PlainPath.ne_nil (h : PlainPath H p) : p ≠ [] := by
  rintro rfl
  have hsafe := h.1
  simp [isSafeRelativePath] at hsafe

/-! ## The lowers -/

section Lowers

variable {c : LayerConfig}

theorem findInLowers_whited (hp : p ≠ []) (h : Whited t p) :
    findInLowersFrom c (H.foldPath p) i (Layer.ofHost t :: rest) = {} := by
  obtain ⟨d, n, rfl⟩ := (List.eq_nil_or_concat p).resolve_left hp
  rw [List.concat_eq_append] at h ⊢
  rw [← hasWhitedOut_ofHost, Bool.or_eq_true] at h
  rw [findInLowersFrom]
  rcases h with hself | habove
  · rw [if_pos hself]
  · rw [if_pos habove]
    split <;> rfl

/-- A lower that hides nothing of the path is probed. -/
theorem findInLowers_probed (hp : p ≠ []) (h : ¬Whited t p) :
    findInLowersFrom c (H.foldPath p) i (Layer.ofHost t :: rest)
      = match t.find p with
        | some e =>
          { absolutePath := some (H.foldPath p), source := .lower, lowerIndex := some i
            attributes := some (layerAttributes e) }
        | none =>
          if lowersBelow (Layer.ofHost t) (H.foldPath p.dropLast) ≠ .visible then {}
          else findInLowersFrom c (H.foldPath p) (i + 1) rest := by
  have hprobe := probe_foldPath (t := t) hp
  obtain ⟨d, n, rfl⟩ := (List.eq_nil_or_concat p).resolve_left hp
  rw [List.concat_eq_append] at h hprobe ⊢
  rw [← hasWhitedOut_ofHost, Bool.or_eq_true, not_or] at h
  rw [findInLowersFrom, if_neg h.1, if_neg h.2, hasLinkUnderHigherLayerEntry_ofHost,
    if_neg Bool.false_ne_true, get_ofHost, hprobe, ← H.foldPath_dropLast]
  cases t.find (d ++ [n]) with
  | none => rfl
  | some e => rfl

end Lowers

/-! ## The upper -/

theorem view_of_not_plain (h : ¬PlainPath H p) : m.view p = none := by
  have hnot : isResolvablePath m.config (H.foldPath p) = false := by
    rw [← Bool.not_eq_true, isResolvablePath_config]
    exact h
  unfold view resolvePath
  rw [resolvePathInternal]
  by_cases hp : p = []
  · rw [hp]
    show m.contentOf (resolveRoot m.config) = none
    simp [resolveRoot, contentOf, treeOf]
  · have hne : (H.foldPath p).isEmpty = false := by simpa using hp
    simp only [hne, Bool.false_eq_true, if_false, hnot, Bool.not_false, if_true]
    rfl

/-- The lookup of a plain path, from the probe of the upper. -/
theorem view_of_plain (h : PlainPath H p) :
    m.view p
      = match m.upper.find p with
        | some e => some e.content
        | none =>
          match hidingInUpper m.config (H.foldPath p) with
          | .none => m.contentOf (findInLowers m.config (H.foldPath p) 0)
          | _ => none := by
  have hne : (H.foldPath p).isEmpty = false := by simpa using h.ne_nil
  have hprobe : m.config.upper.get (H.foldPath p) = _ := probe_foldPath (t := m.upper) h.ne_nil
  unfold view resolvePath
  rw [resolvePathInternal]
  simp only [hne, Bool.false_eq_true, if_false, isResolvablePath_config.mpr h, Bool.not_true,
    Cache.get, Cache.find, List.find?_nil, hprobe]
  cases hfind : m.upper.find p with
  | some e =>
    have hfold : m.upper.find (H.foldPath p) = some e := by
      rw [m.upper.find_congr (H.foldPath_foldPath p), hfind]
    simp [contentOf, treeOf, hfold]
  | none =>
    cases hhide : hidingInUpper m.config (H.foldPath p) with
    | whiteout => rfl
    | opaqueMarker => rfl
    | nonDirectoryOrLink => rfl
    | none =>
      simp only
      split
      · rename_i hfound
        have hnone : m.contentOf (findInLowers m.config (H.foldPath p) 0) = none := by
          rw [ResolvedPath.found, Bool.not_eq_true', Bool.and_eq_false_iff] at hfound
          unfold contentOf treeOf
          rcases hfound with hpath | hsource
          · rw [Option.isSome_eq_false_iff, Option.isNone_iff_eq_none] at hpath
            rw [hpath]
            simp
          · rw [decide_eq_false_iff_not, not_not] at hsource
            rw [hsource]
            rfl
        rw [hnone]
        rfl
      · rfl

theorem hidingInUpper_eq_none_iff (hp : p ≠ []) (hop : NoOpaqueMarker m.upper) :
    hidingInUpper m.config (H.foldPath p) = .none ↔
      ¬Whited m.upper p ∧ ¬Blocked m.upper p.dropLast := by
  obtain ⟨d, n, rfl⟩ := (List.eq_nil_or_concat p).resolve_left hp
  rw [List.concat_eq_append, ← hasWhitedOut_ofHost, Bool.or_eq_true, not_or, List.dropLast_concat,
    ← lowersBelow_ofHost hop]
  have hdrop : (H.foldPath (d ++ [n])).dropLast = H.foldPath d := by
    rw [← H.foldPath_dropLast, List.dropLast_concat]
  have hupper : m.config.upper = Layer.ofHost m.upper := rfl
  unfold hidingInUpper upperAncestorHiding
  rw [hupper, hdrop]
  generalize hasWhiteout (Layer.ofHost m.upper) (H.foldPath (d ++ [n])) = self
  generalize hasWhitedOutAncestorInLayer (Layer.ofHost m.upper) (H.foldPath (d ++ [n])) = above
  cases self with
  | true => simp
  | false =>
    cases above with
    | true => simp
    | false => cases lowersBelow (Layer.ofHost m.upper) (H.foldPath d) <;> simp

end HostMount

end LayerMount
