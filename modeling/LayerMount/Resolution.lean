import LayerMount.MergedView
import LayerMount.PathResolver

/-!
# The resolver looks

A lookup with an empty cache finds what the overlay of the layers shows: the
probes of the upper, the four ways the upper hides the lowers, and the loop over
the lowers are one `look` at the slots of the path (`resolvePath_shown`).
-/

namespace LayerMount

open Lib

variable {c : LayerConfig} {d p : RelPath} {n : Name}

/-- What a result says about the view. -/
def ResolvedPath.shown (r : ResolvedPath) : Option ShownEntry :=
  if r.found then some ⟨r.source, r.lowerIndex, r.attributes.getD {}⟩ else none

/-- No upper entry carries a redirect record. -/
def LayerConfig.NoRedirect (c : LayerConfig) : Prop :=
  ∀ p e, c.upper.get p = .entry e → e.redirect = none

@[simp] theorem shown_default : ({} : ResolvedPath).shown = none := rfl

/-- The loop over the lowers looks at the slots of the path.  The layers before
the loop hold no entry there. -/
theorem findInLowersFrom_shown (hc : c.Sound) (lowers : List Layer) :
    ∀ (i : Nat) (pre : List MergeLayer), mergeLayersOf c = pre ++ mergeLowersFrom i lowers →
      (findInLowersFrom c (d ++ [n]) i lowers).shown
        = layersOverlay.look (layersOverlay.descendFrom n false
            ((scannedFrom c d (mergeLowersFrom i lowers)).map (slotAt d))) := by
  induction lowers with
  | nil => intro i pre _; rfl
  | cons l rest ih =>
    intro i pre hsplit
    rw [mergeLowersFrom] at hsplit
    have hmem : (⟨l, .lower, some i⟩ : MergeLayer) ∈ mergeLayersOf c := by
      rw [hsplit]
      simp
    have hread : l.Readable := hc.readable _ hmem
    have hstray : l.NoStraySidecar := hc.noStray _ hmem
    have hrest := ih (i + 1) (pre ++ [⟨l, .lower, some i⟩]) (by rw [hsplit]; simp)
    have hvis := lowersBelow_eq_visible_iff (c := c) (d := d) hread hstray (some i)
    simp only [findInLowersFrom, mergeLowersFrom, scannedFrom, hidesLayerAndBelow,
      hidesLayersBelow, decide_true, Bool.true_and, reduceCtorEq, decide_false,
      Bool.false_and, Bool.or_false, layerAncestryOf_link hread,
      layerAncestryOf_firstNonDirectory, hasWhitedOutAncestorInLayer,
      List.dropLast_concat, layerAncestryOf_whitedOut hread]
    by_cases hanc : anyDirectoryUpToRoot false (hasWhiteout l) d = true ∨
        hasLinkUnderHigherLayerEntry c l i d = true
    · -- the layer is not scanned at the directory
      rw [if_pos (Bool.or_eq_true_iff.mpr hanc)]
      rcases hanc with hw | hl
      · simp only [hw, if_true]
        split <;> rfl
      · simp only [hl, if_true]
        split
        · rfl
        · split <;> rfl
    · rw [not_or, Bool.not_eq_true, Bool.not_eq_true] at hanc
      simp only [hanc.1, hanc.2, Bool.or_false, Bool.false_eq_true, if_false, List.map_cons,
        Overlay.descendFrom, Bool.false_and]
      have hup : layersOverlay.upper (slotAt d ⟨l, .lower, some i⟩) = false := rfl
      have hwh : layersOverlay.whites (slotAt d ⟨l, .lower, some i⟩) n
          = hasWhiteout l (d ++ [n]) := rfl
      simp only [hup, hwh, Bool.not_false, Bool.true_and]
      split
      · rfl
      · simp only [Overlay.look, layersOverlay, slotAt, Bool.false_and, Bool.or_false]
        cases hget : l.get (d ++ [n]) with
        | unreadable => exact absurd hget (hread.get _)
        | entry e => rfl
        | missing =>
          simp only
          have hk := (componentKind_eq_missing_iff hread).mpr hget
          by_cases hv : lowersBelow l d = .visible
          · obtain ⟨hop, hstop⟩ := hvis.mp hv
            have hcov : coversAt l (d ++ [n]) = false := by
              simp [coversAt, walk_snoc hread, hstop, hk, walkStopAt]
            simp only [hv, ne_eq, not_true_eq_false, if_false, hcov, hop, hstop, decide_false,
              Bool.or_self, Bool.false_eq_true, Option.isSome_none]
            exact hrest
          · rw [if_pos hv]
            rw [if_pos (ends_of_lowersBelow_ne_visible hread hstray (some i) hv)]
            split <;> rfl

/-- The resolver with an empty cache shows what the overlay shows. -/
theorem resolvePath_shown (hc : c.Sound) (hred : c.NoRedirect) :
    (resolvePath c (d ++ [n]) {}).1.shown
      = if isResolvablePath c (d ++ [n]) then layersOverlay.look (liveSlots c (d ++ [n]))
        else none := by
  have hne : (d ++ [n]).isEmpty = false := by simp
  have hup : (⟨c.upper, .upper, none⟩ : MergeLayer) ∈ mergeLayersOf c := by
    simp [mergeLayersOf]
  have hread : c.upper.Readable := hc.readable _ hup
  have hstray : c.upper.NoStraySidecar := hc.noStray _ hup
  have hlive : liveSlots c (d ++ [n])
      = layersOverlay.descend ((scannedFrom c d (mergeLayersOf c)).map (slotAt d)) n := by
    rw [scanned_eq_live hc, liveSlots, Overlay.live_snoc]
    rfl
  rw [resolvePath, resolvePathInternal]
  simp only [hne, Bool.false_eq_true, if_false]
  cases hres : isResolvablePath c (d ++ [n]) with
  | false => simp
  | true =>
    have hget0 : Cache.get {} (d ++ [n]) = (none, {}) := rfl
    simp only [Bool.not_true, Bool.false_eq_true, if_false, hget0, if_true]
    rw [hlive, mergeLayersOf, scannedFrom]
    simp only [hidesLayerAndBelow, hidesLayersBelow, reduceCtorEq, decide_false,
      Bool.false_and, Bool.false_eq_true, if_false, decide_true, Bool.true_and, List.map_cons,
      Overlay.descend, Overlay.descendFrom, layerAncestryOf_firstNonDirectory]
    have hupper : layersOverlay.upper (slotAt d ⟨c.upper, .upper, none⟩) = true := rfl
    have hwh : layersOverlay.whites (slotAt d ⟨c.upper, .upper, none⟩) n
        = hasWhiteout c.upper (d ++ [n]) := rfl
    have hcov : layersOverlay.covers (layersOverlay.child (slotAt d ⟨c.upper, .upper, none⟩) n)
        = coversAt c.upper (d ++ [n]) := rfl
    simp only [hupper, hwh, hcov, Bool.not_true, Bool.false_and, Bool.false_eq_true, if_false,
      Bool.true_and, Bool.false_or]
    rw [Overlay.look]
    cases hget : c.upper.get (d ++ [n]) with
    | unreadable => exact absurd hget (hread.get _)
    | entry e =>
      have hentry : layersOverlay.entry
          (layersOverlay.child (slotAt d ⟨c.upper, .upper, none⟩) n)
          = some ⟨.upper, none, e.attributes⟩ := by
        simp only [layersOverlay, slotAt, hget]
        rfl
      simp [hentry, hred _ _ hget, ResolvedPath.shown, ResolvedPath.found]
    | missing =>
      have hentry : layersOverlay.entry
          (layersOverlay.child (slotAt d ⟨c.upper, .upper, none⟩) n) = none := by
        simp only [layersOverlay, slotAt, hget]
      rw [hentry]
      have hk := (componentKind_eq_missing_iff hread).mpr hget
      have hloop := findInLowersFrom_shown (d := d) (n := n) hc c.lowers 0
        [⟨c.upper, .upper, none⟩] rfl
      have hvis := lowersBelow_eq_visible_iff (c := c) (d := d) hread hstray none
      simp only [hidingInUpper, upperAncestorHiding, hasWhitedOutAncestorInLayer,
        List.dropLast_concat, ← layerAncestryOf_whitedOut (c := c) hread d none]
      cases hw : hasWhiteout c.upper (d ++ [n]) with
      | true => simp [ResolvedPath.shown, ResolvedPath.found, Overlay.look]
      | false =>
        simp only [Bool.false_eq_true, if_false, Bool.or_false]
        cases hanc : (layerAncestryOf c c.upper d none).whitedOut with
        | true =>
          simp only [if_true, Bool.or_true, List.map_nil, Overlay.descendFrom_nil]
          split <;> rfl
        | false =>
          simp only [Bool.false_eq_true, if_false, Bool.or_false]
          cases hv : lowersBelow c.upper d with
          | visible =>
            obtain ⟨hop, hstop⟩ := hvis.mp hv
            have hcov' : coversAt c.upper (d ++ [n]) = false := by
              simp [coversAt, walk_snoc hread, hstop, hk, walkStopAt]
            simp only [hop, hstop, hcov', ne_eq, not_true_eq_false, decide_false,
              Bool.or_self, Bool.false_eq_true, if_false, Option.isSome_none]
            rw [← hloop, findInLowers, List.drop_zero]
            split
            · rename_i hnf
              rw [Bool.not_eq_true'] at hnf
              rw [shown_default, ResolvedPath.shown, hnf]
              rfl
            · rfl
          | hiddenByOpaqueMarker =>
            rw [if_pos (ends_of_lowersBelow_ne_visible hread hstray none (by simp [hv]))]
            simp only [List.map_nil, Overlay.descendFrom_nil]
            split <;> rfl
          | hiddenByNonDirectoryOrLink =>
            rw [if_pos (ends_of_lowersBelow_ne_visible hread hstray none (by simp [hv]))]
            simp only [List.map_nil, Overlay.descendFrom_nil]
            split <;> rfl

/-- The lowers alone show what their slots show, a whiteout of the upper at the
path itself not counted. -/
theorem resolveLowerPath_shown (hc : c.Sound) :
    (resolveLowerPath c (d ++ [n])).shown
      = if isResolvablePath c (d ++ [n]) then
          layersOverlay.look (layersOverlay.descendFrom n false (liveSlots c d).tail)
        else none := by
  have hne : (d ++ [n]).isEmpty = false := by simp
  have hup : (⟨c.upper, .upper, none⟩ : MergeLayer) ∈ mergeLayersOf c := by
    simp [mergeLayersOf]
  have hread : c.upper.Readable := hc.readable _ hup
  have hstray : c.upper.NoStraySidecar := hc.noStray _ hup
  rw [resolveLowerPath, hne, Bool.false_or]
  cases hres : isResolvablePath c (d ++ [n]) with
  | false => rfl
  | true =>
    simp only [Bool.not_true, Bool.false_eq_true, if_false, if_true]
    rw [← scanned_eq_live hc, mergeLayersOf, scannedFrom]
    simp only [hidesLayerAndBelow, hidesLayersBelow, reduceCtorEq, decide_false,
      Bool.false_and, Bool.false_eq_true, if_false, decide_true, Bool.true_and, List.map_cons,
      layerAncestryOf_firstNonDirectory, List.tail_cons]
    have hloop := findInLowersFrom_shown (d := d) (n := n) hc c.lowers 0
      [⟨c.upper, .upper, none⟩] rfl
    have hvis := lowersBelow_eq_visible_iff (c := c) (d := d) hread hstray none
    simp only [upperAncestorHiding, hasWhitedOutAncestorInLayer, List.dropLast_concat,
      ← layerAncestryOf_whitedOut (c := c) hread d none]
    cases hanc : (layerAncestryOf c c.upper d none).whitedOut with
    | true => simp [Overlay.look]
    | false =>
      simp only [Bool.false_eq_true, if_false, Bool.or_false]
      cases hv : lowersBelow c.upper d with
      | visible =>
        obtain ⟨hop, hstop⟩ := hvis.mp hv
        simp only [hop, hstop, ne_eq, not_true_eq_false, decide_false, Bool.or_self,
          Bool.false_eq_true, if_false]
        rw [← hloop, findInLowers, List.drop_zero]
      | hiddenByOpaqueMarker =>
        rw [if_pos (ends_of_lowersBelow_ne_visible hread hstray none (by simp [hv]))]
        rfl
      | hiddenByNonDirectoryOrLink =>
        rw [if_pos (ends_of_lowersBelow_ne_visible hread hstray none (by simp [hv]))]
        rfl

end LayerMount
