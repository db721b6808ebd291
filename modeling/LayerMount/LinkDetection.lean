import LayerMount.MarkerPaths
import LayerMount.MarkersView

/-!
# Links on the path of a directory

`FindLinkInView` and the merge of a directory go over the layers in the same order and
each asks, layer by layer, whether to go on.  `forEachScannedLayer` is the walk of the
merge by itself, and `mergeLayersFrom_eq_foldlM` says that the merge is the fold of the
scans of the layers that this walk gives.

`findLinkInView_scanned` compares the two loops, for layers that may be unreadable
anywhere.  They part where a scan fails: the merge ends there, and the view looks on.

The last part is about the markers.  A marker is written only behind `FindLinkInView`,
and what it lets through has no link of the upper on it.
-/

namespace LayerMount

open Lib

variable {c : LayerConfig} {l : Layer} {d : RelPath}

/-! ## The layers that a merge scans -/

/-- `ForEachScannedLayer`: the layers that it calls `scanLayer` on. -/
def forEachScannedLayer (ancestryOf : MergeLayer → LayerAncestry) (scanLayer : MergeLayer → Bool) :
    List MergeLayer → List MergeLayer
  | [] => []
  | layer :: rest =>
    if hidesLayerAndBelow layer (ancestryOf layer) then []
    else if !scanLayer layer then [layer]
    else if hidesLayersBelow layer (ancestryOf layer) then [layer]
    else layer :: forEachScannedLayer ancestryOf scanLayer rest

/-- The enumeration of the directory in the layer does not fail. -/
def scanSucceeds (d : RelPath) (layer : MergeLayer) : Bool :=
  match layer.layer.scan d with
  | .error _ => false
  | .ok _ => true

def ancestryIn (c : LayerConfig) (d : RelPath) (layer : MergeLayer) : LayerAncestry :=
  layerAncestryOf c layer.layer d layer.lowerIndex

/-- The layers that `MergeDirectoryWithAncestry` scans. -/
def scannedLayers (c : LayerConfig) (d : RelPath) : List MergeLayer :=
  if (!d.isEmpty && !isSafeRelativePath d) || isReservedOverlayPath c d then []
  else forEachScannedLayer (ancestryIn c d) (scanSucceeds d) (mergeLayersOf c)

/-- Whether the layer reaches the directory at or below a link or an unreadable component. -/
def reachesLink (d : RelPath) (layer : MergeLayer) : Bool :=
  endsAtLinkOrUnreadable (walkToFirstNonDirectory layer.layer d).stop

theorem mergeLayerEntries_isOk {layer : MergeLayer} {names : WhiteoutNames}
    {merge : DirectoryMerge} :
    (∃ merge', mergeLayerEntries layer d names merge = .ok merge') ↔
      scanSucceeds d layer = true := by
  unfold mergeLayerEntries scanLayerDirectory scanSucceeds
  cases layer.layer.scan d with
  | error status => simp
  | ok listed => cases names <;> simp

/-- A merge is the scans of its layers, one after the other. -/
theorem mergeLayersFrom_eq_foldlM (ancestryOf : MergeLayer → LayerAncestry) (slot : Nat)
    (layers : List MergeLayer) (merge : DirectoryMerge) :
    (mergeLayersFrom d (fun _ layer => ancestryOf layer) slot layers merge).1
      = (forEachScannedLayer ancestryOf (scanSucceeds d) layers).foldlM
          (fun merge layer =>
            mergeLayerEntries layer d (whiteoutNamesIn (ancestryOf layer)) merge) merge := by
  induction layers generalizing slot merge with
  | nil => rfl
  | cons layer rest ih =>
    unfold mergeLayersFrom forEachScannedLayer
    by_cases hhides : hidesLayerAndBelow layer (ancestryOf layer) = true
    · rw [if_pos hhides, if_pos hhides]
      rfl
    · rw [if_neg hhides, if_neg hhides]
      have hok := @mergeLayerEntries_isOk d layer (whiteoutNamesIn (ancestryOf layer)) merge
      cases hscan : mergeLayerEntries layer d (whiteoutNamesIn (ancestryOf layer)) merge with
      | error status =>
        have hfails : scanSucceeds d layer = false := by
          rw [← Bool.not_eq_true, ← hok, hscan]
          simp
        simp only [hfails, Bool.not_false, if_true, List.foldlM_cons, hscan]
        rfl
      | ok merged =>
        have hworks : scanSucceeds d layer = true := hok.mp ⟨merged, hscan⟩
        have hrest := ih (slot + 1) merged
        simp only [hworks, Bool.not_true, Bool.false_eq_true, if_false]
        by_cases hbelow : hidesLayersBelow layer (ancestryOf layer) = true
        · rw [if_pos hbelow, if_pos hbelow, List.foldlM_cons, hscan]
          rfl
        · rw [if_neg hbelow, if_neg hbelow, List.foldlM_cons, hscan]
          exact hrest

/-- The merge of a directory, by the layers it scans. -/
theorem mergeDirectory_eq_foldlM (c : LayerConfig) (d : RelPath) :
    (mergeDirectoryWithAncestry c d).merged
      = ((scannedLayers c d).foldlM (fun merge layer =>
          mergeLayerEntries layer d (whiteoutNamesIn (ancestryIn c d layer)) merge)
            {}).map DirectoryMerge.entries := by
  unfold mergeDirectoryWithAncestry scannedLayers
  split
  · rfl
  · have hall : (mergeLayersOf c).take (c.lowers.length + 1) = mergeLayersOf c := by
      apply List.take_of_length_le
      have hlowers : ∀ (i : Nat) (ls : List Layer), (mergeLowersFrom i ls).length = ls.length := by
        intro i ls
        induction ls generalizing i with
        | nil => rfl
        | cons l ls ih => simp [mergeLowersFrom, ih]
      simp [mergeLayersOf, hlowers]
    have hmerge := mergeLayersFrom_eq_foldlM (d := d) (ancestryIn c d) 0 (mergeLayersOf c) {}
    unfold mergeLayers
    rw [hall]
    exact congrArg (Except.map DirectoryMerge.entries) hmerge

/-! ## The two loops -/

/-- The answer of `FindLinkInView` for a layer. -/
def linkInViewOf (d : RelPath) (layer : MergeLayer) : LinkInView :=
  ⟨linkStopOf (walkToFirstNonDirectory layer.layer d).stop, layer.source,
    (walkToFirstNonDirectory layer.layer d).component⟩

/-- The first layer of a walk that reaches a link is the answer, and without one there is no
answer, unless a scan of the walk fails. -/
def AgreesWith (d : RelPath) (scanned : List MergeLayer) (found : LinkInView) : Prop :=
  (∀ layer, scanned.find? (reachesLink d) = some layer → found = linkInViewOf d layer) ∧
  (scanned.find? (reachesLink d) = none → (∀ layer ∈ scanned, scanSucceeds d layer = true) →
    found.stop = .none)

theorem agreesWith_nil {found : LinkInView} (h : found.stop = .none) : AgreesWith d [] found := by
  refine ⟨?_, fun _ _ => h⟩
  intro layer hfind
  cases hfind

/-- A layer that reaches a link is the last that the merge scans, and the answer. -/
theorem agreesWith_found {layer : MergeLayer} {rest : List MergeLayer}
    (h : reachesLink d layer = true) : AgreesWith d (layer :: rest) (linkInViewOf d layer) := by
  unfold AgreesWith
  rw [List.find?_cons_of_pos h]
  refine ⟨?_, ?_⟩
  · intro layer' hfind
    injection hfind with hfind
    rw [hfind]
  · intro hfind
    cases hfind

/-- A layer that reaches none leaves the answer to the layers that are scanned behind it. -/
theorem agreesWith_passed {layer : MergeLayer} {rest : List MergeLayer} {found : LinkInView}
    (h : reachesLink d layer = false) (hrest : AgreesWith d rest found) :
    AgreesWith d (layer :: rest) found := by
  unfold AgreesWith
  rw [List.find?_cons_of_neg (by simp [h])]
  refine ⟨hrest.1, ?_⟩
  intro hnone hscans
  exact hrest.2 hnone fun layer' hmem => hscans layer' (List.mem_cons_of_mem _ hmem)

/-- A failed scan leaves everything behind it open. -/
theorem agreesWith_failed {layer : MergeLayer} {found : LinkInView}
    (h : reachesLink d layer = false) (hfails : scanSucceeds d layer = false) :
    AgreesWith d [layer] found := by
  refine ⟨?_, ?_⟩
  · intro layer' hfind
    rw [List.find?_cons_of_neg (by simp [h])] at hfind
    cases hfind
  · intro _ hscans
    rw [hscans layer List.mem_cons_self] at hfails
    cases hfails

/-- Of a walk that meets no link, what ends the merge below is a file. -/
theorem stop_file_iff {layer : MergeLayer} (h : reachesLink d layer = false) :
    (ancestryIn c d layer).firstNonDirectory ≠ .none ↔
      (walkToFirstNonDirectory layer.layer d).stop = .file := by
  have hends : (ancestryIn c d layer).firstNonDirectory = _ := layerAncestryOf_stop _
  rw [hends]
  unfold reachesLink at h
  cases hw : (walkToFirstNonDirectory layer.layer d).stop with
  | none => simp
  | file => simp
  | link => simp [hw, endsAtLinkOrUnreadable, linkStopOf] at h
  | unreadable => simp [hw, endsAtLinkOrUnreadable, linkStopOf] at h

/-- One layer of the two loops, which the view's passes to `next` unless it hides the layers
below it. -/
theorem agreesWith_layer {layer : MergeLayer} {rest : List MergeLayer} {next : LinkInView}
    (hnot : hidesLayerAndBelow layer (ancestryIn c d layer) = false)
    (hreach : reachesLink d layer = false)
    (hstop : hidesLayersBelow layer (ancestryIn c d layer) = true → next.stop = .none)
    (hrest : hidesLayersBelow layer (ancestryIn c d layer) = false →
      AgreesWith d (forEachScannedLayer (ancestryIn c d) (scanSucceeds d) rest) next) :
    AgreesWith d
      (forEachScannedLayer (ancestryIn c d) (scanSucceeds d) (layer :: rest)) next := by
  rw [forEachScannedLayer, hnot]
  simp only [Bool.false_eq_true, if_false]
  split
  · next hfails => exact agreesWith_failed hreach (by simpa using hfails)
  · split
    · next hbelow => exact agreesWith_passed hreach (agreesWith_nil (hstop hbelow))
    · next hbelow => exact agreesWith_passed hreach (hrest (by simpa using hbelow))

/-- A layer that reaches a link is scanned. -/
theorem agreesWith_link {layer : MergeLayer} {rest : List MergeLayer}
    (hnot : hidesLayerAndBelow layer (ancestryIn c d layer) = false)
    (hreach : reachesLink d layer = true) :
    AgreesWith d (forEachScannedLayer (ancestryIn c d) (scanSucceeds d) (layer :: rest))
      (linkInViewOf d layer) := by
  rw [forEachScannedLayer, hnot]
  simp only [Bool.false_eq_true, if_false]
  split
  · exact agreesWith_found hreach
  · split
    · exact agreesWith_found hreach
    · exact agreesWith_found hreach

/-- The loops over the lowers. -/
theorem findLinkInLowers_agrees (i : Nat) (ls : List Layer) :
    AgreesWith d (forEachScannedLayer (ancestryIn c d) (scanSucceeds d) (mergeLowersFrom i ls))
      (findLinkInLowers c d i ls) := by
  induction ls generalizing i with
  | nil => exact agreesWith_nil rfl
  | cons l ls ih =>
    obtain ⟨layer, hlayer⟩ : ∃ layer : MergeLayer, layer = ⟨l, .lower, some i⟩ := ⟨_, rfl⟩
    have hancestry : layerAncestryOf c l d (some i) = ancestryIn c d layer := by rw [hlayer]; rfl
    have hwalk : walkToFirstNonDirectory l d = walkToFirstNonDirectory layer.layer d := by
      rw [hlayer]
    have hsource : layer.source = .lower := by rw [hlayer]
    have hreaches : endsAtLinkOrUnreadable (walkToFirstNonDirectory layer.layer d).stop
        = reachesLink d layer := rfl
    rw [mergeLowersFrom, findLinkInLowers, ← hlayer, hancestry, hwalk, hreaches]
    by_cases hhides : ((ancestryIn c d layer).whitedOut ||
        (ancestryIn c d layer).linkUnderHigherEntry) = true
    · have hmerge : hidesLayerAndBelow layer (ancestryIn c d layer) = true := by
        rw [hidesLayerAndBelow, hsource, hhides]
        rfl
      rw [if_pos hhides, forEachScannedLayer, if_pos hmerge]
      exact agreesWith_nil rfl
    · have hmerge : hidesLayerAndBelow layer (ancestryIn c d layer) = false := by
        rw [hidesLayerAndBelow, hsource, Bool.not_eq_true _ |>.mp hhides]
        rfl
      rw [if_neg hhides]
      by_cases hreach : reachesLink d layer = true
      · have hanswer : linkInViewOf d layer = ⟨linkStopOf (walkToFirstNonDirectory layer.layer d).stop,
            .lower, (walkToFirstNonDirectory layer.layer d).component⟩ := by
          rw [linkInViewOf, hsource]
        rw [if_pos hreach, ← hanswer]
        exact agreesWith_link hmerge hreach
      · have hreach' := Bool.not_eq_true _ |>.mp hreach
        have hbelow : hidesLayersBelow layer (ancestryIn c d layer) = true ↔
            ((ancestryIn c d layer).opaqueDir ||
              decide ((walkToFirstNonDirectory layer.layer d).stop = .file)) = true := by
          have hfile := stop_file_iff (c := c) hreach'
          rw [hidesLayersBelow, hsource]
          simp only [Bool.or_eq_true, decide_eq_true_eq, hfile]
          simp
        rw [if_neg hreach]
        apply agreesWith_layer hmerge hreach'
        · intro h
          rw [if_pos (hbelow.mp h)]
        · intro h
          rw [if_neg (fun hfile => by rw [hbelow.mpr hfile] at h; cases h)]
          exact ih (i + 1)

theorem linkInViewOf_stop {layer : MergeLayer} (h : reachesLink d layer = true) :
    (linkInViewOf d layer).stop ≠ .none := by
  unfold reachesLink endsAtLinkOrUnreadable at h
  exact of_decide_eq_true h

/-- Two answers without a stop agree with the same layers. -/
theorem AgreesWith.of_none {scanned : List MergeLayer} {found other : LinkInView}
    (h : AgreesWith d scanned found) (hfound : found.stop = .none) (hother : other.stop = .none) :
    AgreesWith d scanned other := by
  refine ⟨?_, fun _ _ => hother⟩
  intro layer hfind
  have hstop := linkInViewOf_stop (List.find?_some hfind)
  rw [← h.1 layer hfind] at hstop
  exact absurd hfound hstop

/-- The view's loop and the merge's, from the upper on. -/
theorem findLinkInView_agrees (c : LayerConfig) (d : RelPath) :
    AgreesWith d
      (forEachScannedLayer (ancestryIn c d) (scanSucceeds d) (mergeLayersOf c))
      (findLinkInView c d) := by
  obtain ⟨layer, hlayer⟩ : ∃ layer : MergeLayer, layer = ⟨c.upper, .upper, none⟩ := ⟨_, rfl⟩
  have hmerge : hidesLayerAndBelow layer (ancestryIn c d layer) = false := by
    rw [hidesLayerAndBelow, hlayer]
    rfl
  have hancestry : layerAncestryOf c c.upper d none = ancestryIn c d layer := by rw [hlayer]; rfl
  have hwalk : walkToFirstNonDirectory c.upper d = walkToFirstNonDirectory layer.layer d := by
    rw [hlayer]
  have hsource : layer.source = .upper := by rw [hlayer]
  have hlowers := findLinkInLowers_agrees (c := c) (d := d) 0 c.lowers
  have hreaches : endsAtLinkOrUnreadable (walkToFirstNonDirectory layer.layer d).stop
      = reachesLink d layer := rfl
  rw [mergeLayersOf, ← hlayer, findLinkInView, hwalk, hancestry, hreaches]
  by_cases hreach : reachesLink d layer = true
  · have hanswer : linkInViewOf d layer = ⟨linkStopOf (walkToFirstNonDirectory layer.layer d).stop,
        .upper, (walkToFirstNonDirectory layer.layer d).component⟩ := by
      rw [linkInViewOf, hsource]
    rw [if_pos hreach, ← hanswer]
    exact agreesWith_link hmerge hreach
  · have hreach' := Bool.not_eq_true _ |>.mp hreach
    have hfile := stop_file_iff (c := c) hreach'
    rw [if_neg hreach]
    apply agreesWith_layer hmerge hreach'
    · -- Nothing below the upper is read: the view has no answer.
      intro hbelow
      rw [hidesLayersBelow, hsource] at hbelow
      simp only [Bool.or_eq_true, decide_eq_true_eq, hfile] at hbelow
      split
      · rfl
      · next hnofile =>
        split
        · rfl
        · have hends : ((ancestryIn c d layer).whitedOut || (ancestryIn c d layer).opaqueDir)
              = true := by
            obtain (hmarked | hstop) | hwhited := hbelow
            · rw [hmarked, Bool.or_true]
            · exact absurd hstop hnofile
            · simp only [decide_true, Bool.true_and] at hwhited
              rw [hwhited, Bool.true_or]
          rw [if_pos hends]
    · intro hbelow
      rw [hidesLayersBelow, hsource] at hbelow
      simp only [decide_true, Bool.true_and, Bool.or_eq_false_iff, decide_eq_false_iff_not] at hbelow
      obtain ⟨⟨hmarked, hstop⟩, hwhited⟩ := hbelow
      have hnofile : ¬(walkToFirstNonDirectory layer.layer d).stop = .file := fun h =>
        hstop (hfile.mpr h)
      rw [if_neg hnofile]
      split
      · next hnone =>
        -- No lower has a link, and then the loop over them has no answer either.
        refine hlowers.of_none ?_ rfl
        by_contra hfound
        obtain ⟨j, l, hj, hends, _⟩ := findLinkInLowers_stop rfl hfound
        have hany : (c.lowers.any fun l =>
            endsAtLinkOrUnreadable (walkToFirstNonDirectory l d).stop) = true :=
          List.any_eq_true.mpr ⟨l, List.mem_of_getElem? hj, hends⟩
        rw [hany] at hnone
        cases hnone
      · rw [if_neg (by rw [hwhited, hmarked]; decide)]
        exact hlowers

/-! ## What the view lets through -/

private theorem walkFrom_file (walked d : RelPath) (h : (walkFrom l walked d).stop = .file) :
    componentKindInLayer l (walkFrom l walked d).component = .file := by
  induction d generalizing walked with
  | nil => cases h
  | cons n d ih =>
    simp only [walkFrom] at h ⊢
    cases hkind : componentKindInLayer l (walked ++ [n]) with
    | missing => simp [hkind] at h
    | link => simp [hkind] at h
    | unreadable => simp [hkind] at h
    | file => exact hkind
    | directory =>
      simp only [hkind] at h ⊢
      exact ih _ h

/-- Where a layer's walk meets no link and no unreadable component, its path has none. -/
theorem no_link_of_walk {k : RelPath}
    (h : endsAtLinkOrUnreadable (walkToFirstNonDirectory l d).stop = false) (hk : k <+: d)
    (hne : k ≠ []) :
    componentKindInLayer l k ≠ .link ∧ componentKindInLayer l k ≠ .unreadable := by
  have hboth : ¬(componentKindInLayer l k = .link ∨ componentKindInLayer l k = .unreadable) := by
    intro hkind
    have hheld : l.get k ≠ .missing := by
      rw [ne_eq, ← componentKind_missing_iff]
      intro hmiss
      simp [hmiss] at hkind
    have hnodir : componentKindInLayer l k ≠ .directory := by
      intro hdir
      simp [hdir] at hkind
    -- The walk stops at the component or above it, and only at a file.
    have hstop := walk_stop_of_held hne List.prefix_rfl hheld hnodir
    rw [walk_of_prefix_stop hk hstop] at h
    have hfile : (walkToFirstNonDirectory l k).stop = .file := by
      cases hw : (walkToFirstNonDirectory l k).stop with
      | none => exact absurd hw hstop
      | file => rfl
      | link => simp [hw, endsAtLinkOrUnreadable, linkStopOf] at h
      | unreadable => simp [hw, endsAtLinkOrUnreadable, linkStopOf] at h
    have hkindFile := walkFrom_file [] k hfile
    change componentKindInLayer l (walkToFirstNonDirectory l k).component = .file at hkindFile
    rcases get_below_file hkindFile (walk_component_of_stop hstop).1 with hmiss | hsame
    · exact hheld hmiss
    · have hself : componentKindInLayer l k = .file := by
        rw [componentKindInLayer, hsame]
        exact hkindFile
      simp [hself] at hkind
  exact not_or.mp hboth

/-- The check before a marker is written: no component of the directory in the upper is a
link, or one that cannot be read. -/
theorem upper_plain_of_view {k : RelPath} (h : (findLinkInView c d).stop = .none) (hk : k <+: d)
    (hne : k ≠ []) :
    componentKindInLayer c.upper k ≠ .link ∧ componentKindInLayer c.upper k ≠ .unreadable := by
  apply no_link_of_walk _ hk hne
  rw [← Bool.not_eq_true]
  intro hends
  rw [findLinkInView, if_pos hends] at h
  unfold endsAtLinkOrUnreadable at hends
  exact absurd h (of_decide_eq_true hends)

end LayerMount
