import LayerMount.Listing

/-!
# Merging step by step

A rename of a directory merges it once and then steps from each merge to those of its
children.  A step reads the child's own path only and takes the rest of a layer's ancestry
from the parent's merge, and it leaves out the layers that the parent's merge did not
reach.  What stopped the parent's merge stops the child's as well
(`Stops.step`), so a chain of steps gives what a merge of the last directory
gives (`mergeChildDirectory_foldl`).
-/

namespace LayerMount

open Lib

variable {c : LayerConfig} {d p : RelPath} {n : Name}

/-! ## What stops a merge stops the merge of a child -/

/-- The walk of a merge ends at the layer, before or after its scan. -/
def Stops (layer : MergeLayer) (ancestry : LayerAncestry) : Prop :=
  hidesLayerAndBelow layer ancestry = true ∨ hidesLayersBelow layer ancestry = true

/-- A link under a higher layer's entry ends the walk of its layer. -/
theorem layerAncestryOf_link_stop (c : LayerConfig) (l : Layer) (idx : Option Nat) (d : RelPath)
    (h : (layerAncestryOf c l d idx).linkUnderHigherEntry = true) :
    (layerAncestryOf c l d idx).firstNonDirectory ≠ .none := by
  induction d using List.reverseRecOn with
  | nil => cases h
  | append_singleton d n ih =>
    rw [layerAncestryOf_snoc] at h ⊢
    unfold stepLayerAncestry at h ⊢
    split
    · rename_i habsent
      rw [if_pos habsent] at h
      exact ih h
    · rename_i hpresent
      rw [if_neg hpresent] at h
      split
      · rename_i hstop
        exact hstop
      · rename_i hwalks
        rw [if_neg hwalks] at h
        have hkind : componentKindInLayer l (d ++ [n]) = .link := by
          have hlink := (Bool.and_eq_true_iff.mp h).1
          simpa using hlink
        show walkStopAt (componentKindInLayer l (d ++ [n])) ≠ .none
        rw [hkind]
        decide

theorem Stops.step {layer : MergeLayer} (n : Name)
    (h : Stops layer (layerAncestryOf c layer.layer d layer.lowerIndex)) :
    Stops layer (layerAncestryOf c layer.layer (d ++ [n]) layer.lowerIndex) := by
  have hlink := layerAncestryOf_link_stop c layer.layer layer.lowerIndex d
  rw [layerAncestryOf_snoc]
  unfold stepLayerAncestry
  generalize layerAncestryOf c layer.layer d layer.lowerIndex = ancestry at h hlink
  split
  · exact h
  split
  · exact h
  rename_i hwalks
  rw [ne_eq, not_not] at hwalks
  have hnolink : ancestry.linkUnderHigherEntry = false := by
    by_contra hcon
    exact hlink (by simpa using hcon) hwalks
  -- an opaque marker and a whiteout above stay above
  rcases h with h | h
  · rw [hidesLayerAndBelow, Bool.and_eq_true, hnolink, Bool.or_false] at h
    left
    simp [hidesLayerAndBelow, h.1, h.2]
  · rw [hidesLayersBelow, hwalks, Bool.or_eq_true, Bool.or_eq_true] at h
    right
    rw [hidesLayersBelow]
    rcases h with (hopq | hnone) | hwhite
    · simp [hopq]
    · cases hnone
    · rw [Bool.and_eq_true] at hwhite
      simp [hwhite.1, hwhite.2]

/-! ## One step -/

/-- The merge of a directory, without the check of its path. -/
def freshAncestry (c : LayerConfig) (d : RelPath) (_slot : Nat) (layer : MergeLayer) :
    LayerAncestry :=
  layerAncestryOf c layer.layer d layer.lowerIndex

/-- The ancestry that a step takes from the parent's merge. -/
def steppedAncestry (c : LayerConfig) (d : RelPath) (layers : List LayerAncestry) (slot : Nat)
    (layer : MergeLayer) : LayerAncestry :=
  stepLayerAncestry c layer.layer d layer.lowerIndex
    (layers.getD slot ⟨false, false, .none, false, false⟩)

/-- A walk that ends at a layer reads nothing of the layers after it. -/
theorem mergeLayersFrom_of_stops {anc anc' : Nat → MergeLayer → LayerAncestry} {slot : Nat}
    {layer : MergeLayer} (hsame : anc slot layer = anc' slot layer)
    (hstops : Stops layer (anc' slot layer)) (rest rest' : List MergeLayer)
    (merge : DirectoryMerge) :
    mergeLayersFrom d anc slot (layer :: rest) merge
      = mergeLayersFrom d anc' slot (layer :: rest') merge := by
  rw [mergeLayersFrom, mergeLayersFrom, hsame]
  dsimp only
  split
  · rfl
  · rename_i hreads
    split
    · rfl
    · rw [if_pos (hstops.resolve_left hreads)]
      rw [if_pos (hstops.resolve_left hreads)]

/-- The layers that the parent's merge reached are enough for the child's. -/
theorem mergeLayersFrom_stepped (c : LayerConfig) (d : RelPath) (n : Name)
    (layers : List MergeLayer) :
    ∀ (before : List LayerAncestry) (merge merge' reached : DirectoryMerge)
      (rest : List LayerAncestry),
      mergeLayersFrom d (freshAncestry c d) before.length layers merge = (.ok reached, rest) →
      mergeLayersFrom (d ++ [n]) (steppedAncestry c (d ++ [n]) (before ++ rest)) before.length
          (layers.take rest.length) merge'
        = mergeLayersFrom (d ++ [n]) (freshAncestry c (d ++ [n])) before.length layers merge' := by
  induction layers with
  | nil =>
    intro before merge merge' reached rest _
    rw [List.take_nil]
    rfl
  | cons layer layers ih =>
    intro before merge merge' reached rest hrun
    have hsame : ∀ rest, steppedAncestry c (d ++ [n])
        (before ++ freshAncestry c d before.length layer :: rest) before.length layer
          = freshAncestry c (d ++ [n]) before.length layer := by
      intro rest
      have hslot : (before ++ freshAncestry c d before.length layer :: rest).getD before.length
          ⟨false, false, .none, false, false⟩ = freshAncestry c d before.length layer := by
        simp [List.getD_eq_getElem?_getD]
      rw [steppedAncestry, hslot]
      exact (layerAncestryOf_snoc d n layer.lowerIndex).symm
    have hstops : Stops layer (freshAncestry c d before.length layer) →
        Stops layer (freshAncestry c (d ++ [n]) before.length layer) := Stops.step n
    rw [mergeLayersFrom] at hrun
    dsimp only at hrun
    split at hrun
    · rename_i hhides
      obtain ⟨-, rfl⟩ := Prod.mk.inj hrun
      exact mergeLayersFrom_of_stops (hsame []) (hstops (.inl hhides)) _ _ merge'
    · rename_i hreads
      split at hrun
      · cases (Prod.mk.inj hrun).1
      · rename_i merged hmerged
        split at hrun
        · rename_i hhides
          obtain ⟨-, rfl⟩ := Prod.mk.inj hrun
          exact mergeLayersFrom_of_stops (hsame []) (hstops (.inr hhides)) _ _ merge'
        · obtain ⟨hok, rfl⟩ := Prod.mk.inj hrun
          rw [List.length_cons, List.take_succ_cons, mergeLayersFrom, mergeLayersFrom, hsame]
          dsimp only
          split
          · rfl
          · split
            · rfl
            · rename_i merged' _
              split
              · rfl
              · have hlen : (before ++ [freshAncestry c d before.length layer]).length
                    = before.length + 1 := by simp
                have hstep := ih (before ++ [freshAncestry c d before.length layer]) merged merged'
                  reached _ (by rw [hlen, ← hok])
                rw [hlen, List.append_assoc, List.singleton_append] at hstep
                rw [hstep]

theorem mergeDirectoryWithAncestry_of_resolvable (h : isResolvablePath c d = true) :
    mergeDirectoryWithAncestry c d
      = mergeLayers c d (c.lowers.length + 1) (freshAncestry c d) := by
  rw [isResolvablePath, Bool.and_eq_true] at h
  rw [mergeDirectoryWithAncestry, h.1]
  have hreserved : isReservedOverlayPath c d = false := by simpa using h.2
  rw [hreserved, Bool.not_true, Bool.and_false, Bool.or_false]
  rfl

/-- A step from a directory's merge is the merge of the child. -/
theorem mergeChildDirectory_eq {entries : List (Name × MergedEntry)}
    (hd : isResolvablePath c d = true) (hchild : isResolvablePath c (d ++ [n]) = true)
    (hmerged : (mergeDirectoryWithAncestry c d).merged = .ok entries) :
    mergeChildDirectory c (mergeDirectoryWithAncestry c d) n
      = mergeDirectoryWithAncestry c (d ++ [n]) := by
  rw [mergeDirectoryWithAncestry_of_resolvable hchild]
  rw [mergeDirectoryWithAncestry_of_resolvable hd] at hmerged ⊢
  rw [mergeLayers, take_mergeLayersOf] at hmerged ⊢
  cases hrun : mergeLayersFrom d (freshAncestry c d) 0 (mergeLayersOf c) {} with
  | mk result layers =>
    rw [hrun] at hmerged
    cases result with
    | error status => cases hmerged
    | ok reached =>
      have hstep := mergeLayersFrom_stepped c d n (mergeLayersOf c) [] {} {} reached layers hrun
      rw [mergeChildDirectory, mergeLayers, mergeLayers, take_mergeLayersOf]
      exact congrArg (fun x => MergedDirectoryWithAncestry.mk (x.1.map DirectoryMerge.entries)
        (d ++ [n]) x.2) hstep

/-! ## A chain of steps -/

/-- No entry of a layer has a colon in its name, as the host's file system keeps one for
streams. -/
def LayerConfig.NoColons (c : LayerConfig) : Prop :=
  ∀ m ∈ mergeLayersOf c, ∀ p n, ':' ∈ n → m.layer.get (p ++ [n]) = .missing

/-- A scan of the layer lists the name.  It takes a marker's name for one, unless the layer
ends at a link or at an entry that cannot be read. -/
structure ScanLists (c : LayerConfig) (d : RelPath) (n : Name) (m : MergeLayer) : Prop where
  scanned : m ∈ scannedFrom c d (mergeLayersOf c)
  present : n ≠ ['.'] → m.layer.get (d ++ [n]) ≠ .missing
  visible : visibleEntryKey d n = some n
  marker : isWhiteoutName n = true →
    endsAtLinkOrUnreadable (walkToFirstNonDirectory m.layer d).stop = true

private theorem visibleEntryKey_eq_some {key : Name} (h : visibleEntryKey d n = some key) :
    key = n := by
  unfold visibleEntryKey at h
  split at h
  · cases h
  · split at h
    · cases h
    · exact (Option.some.inj h).symm

/-- What a scan adds to a merge. -/
theorem scanLists_of_mem_scan {m : MergeLayer} {scan : LayerDirectoryScan}
    (hm : m ∈ scannedFrom c d (mergeLayersOf c))
    (hscan : scanLayerDirectory m.layer d
      (whiteoutNamesIn (layerAncestryOf c m.layer d m.lowerIndex)) = .ok scan)
    {e : LayerDirectoryEntry} (he : e ∈ scan.entries) : ScanLists c d e.key m := by
  unfold scanLayerDirectory at hscan
  cases hlisted : m.layer.scan d with
  | error status =>
    rw [hlisted] at hscan
    cases hscan
  | ok listed =>
    have hpresent : ∀ x ∈ listed, x ≠ ['.'] → m.layer.get (d ++ [x]) ≠ .missing :=
      fun x hx hdot => (m.layer.mem_scan d listed hlisted x hdot).mp hx
    rw [hlisted, whiteoutNamesIn, layerAncestryOf_firstNonDirectory] at hscan
    dsimp only at hscan
    by_cases hends : endsAtLinkOrUnreadable (walkToFirstNonDirectory m.layer d).stop = true
    · rw [if_pos hends] at hscan
      rw [← Except.ok.inj hscan, foldl_addOrdinaryEntry, List.nil_append] at he
      obtain ⟨x, hx, rfl⟩ := List.mem_map.mp he
      obtain ⟨hx, hvisible⟩ := List.mem_filter.mp hx
      obtain ⟨key, hkey⟩ := Option.isSome_iff_exists.mp hvisible
      rw [visibleEntryKey_eq_some hkey] at hkey
      exact ⟨hm, hpresent x hx, hkey, fun _ => hends⟩
    · rw [if_neg hends] at hscan
      rw [← Except.ok.inj hscan, foldl_addMarkerOrEntry, List.nil_append] at he
      obtain ⟨x, hx, rfl⟩ := List.mem_map.mp he
      obtain ⟨hx, hkeep⟩ := List.mem_filter.mp hx
      rw [Bool.and_eq_true, Bool.not_eq_true'] at hkeep
      obtain ⟨key, hkey⟩ := Option.isSome_iff_exists.mp hkeep.1
      rw [visibleEntryKey_eq_some hkey] at hkey
      refine ⟨hm, hpresent x hx, hkey, ?_⟩
      intro hmarker
      rw [hkeep.2] at hmarker
      cases hmarker

theorem mem_foldl_addEntry (m : MergeLayer) (found : List LayerDirectoryEntry)
    (merge : DirectoryMerge) {x : Name × MergedEntry}
    (hx : x ∈ (found.foldl (DirectoryMerge.addEntry m) merge).entries) :
    x ∈ merge.entries ∨ ∃ e ∈ found, e.key = x.1 := by
  induction found generalizing merge with
  | nil => exact .inl hx
  | cons e found ih =>
    rcases ih _ hx with hx | ⟨e', he', hkey⟩
    · unfold DirectoryMerge.addEntry at hx
      split at hx
      · exact .inl hx
      · rcases List.mem_append.mp hx with hx | hx
        · exact .inl hx
        · rw [List.mem_singleton] at hx
          exact .inr ⟨e, List.mem_cons_self, by rw [hx]⟩
    · exact .inr ⟨e', List.mem_cons_of_mem e he', hkey⟩

/-- An entry of a merge comes from a scan. -/
theorem scanLists_of_mem_merged (layers : List MergeLayer) :
    ∀ (slot : Nat) (merge merged : DirectoryMerge) (x : Name × MergedEntry),
      (∀ m ∈ scannedFrom c d layers, m ∈ scannedFrom c d (mergeLayersOf c)) →
      (mergeLayersFrom d (freshAncestry c d) slot layers merge).1 = .ok merged →
      x ∈ merged.entries → x ∈ merge.entries ∨ ∃ m, ScanLists c d x.1 m := by
  induction layers with
  | nil =>
    intro slot merge merged x _ hrun hx
    rw [← Except.ok.inj hrun] at hx
    exact .inl hx
  | cons m layers ih =>
    intro slot merge merged x hsub hrun hx
    rw [mergeLayersFrom] at hrun
    rw [scannedFrom] at hsub
    dsimp only at hrun
    split at hrun
    · rw [← Except.ok.inj hrun] at hx
      exact .inl hx
    · rename_i hreads
      have hfresh : freshAncestry c d slot m = layerAncestryOf c m.layer d m.lowerIndex := rfl
      rw [hfresh] at hreads hrun
      rw [if_neg hreads] at hsub
      have hm : m ∈ scannedFrom c d (mergeLayersOf c) := hsub m List.mem_cons_self
      unfold mergeLayerEntries at hrun
      cases hscan : scanLayerDirectory m.layer d
          (whiteoutNamesIn (layerAncestryOf c m.layer d m.lowerIndex)) with
      | error status =>
        rw [hscan] at hrun
        cases hrun
      | ok scan =>
        rw [hscan] at hrun
        dsimp only at hrun
        -- the whiteouts that the scan adds are not entries
        have hscanned : ∀ next : DirectoryMerge, next.entries = (scan.entries.foldl
              (DirectoryMerge.addEntry m) (if m.source = .lower then merge.addWhiteouts scan
                else merge)).entries →
            x ∈ next.entries → x ∈ merge.entries ∨ ∃ m, ScanLists c d x.1 m := by
          intro next hnext hmem
          rw [hnext] at hmem
          rcases mem_foldl_addEntry m _ _ hmem with hmem | ⟨e, he, hkey⟩
          · left
            split at hmem <;> exact hmem
          · right
            rw [← hkey]
            exact ⟨m, scanLists_of_mem_scan hm hscan he⟩
        split at hrun
        · rw [← Except.ok.inj hrun] at hx
          refine hscanned _ ?_ hx
          split <;> rfl
        · rename_i hopen
          rw [if_neg hopen] at hsub
          rcases ih (slot + 1) _ merged x (fun y hy => hsub y (List.mem_cons_of_mem m hy)) hrun hx
            with hmem | hfound
          · refine hscanned _ ?_ hmem
            split <;> rfl
          · exact .inr hfound

private theorem linkStopOf_ne_none {stop : WalkStop} (h : endsAtLinkOrUnreadable stop = true) :
    linkStopOf stop ≠ .none := by
  simpa [endsAtLinkOrUnreadable] using h

theorem findLinkInLowers_of_scanned {m : MergeLayer} :
    ∀ (i : Nat) (lowers : List Layer), m ∈ scannedFrom c d (mergeLowersFrom i lowers) →
      endsAtLinkOrUnreadable (walkToFirstNonDirectory m.layer d).stop = true →
      (findLinkInLowers c d i lowers).stop ≠ .none := by
  intro i lowers hm hends
  induction lowers generalizing i with
  | nil => cases hm
  | cons l lowers ih =>
    simp only [mergeLowersFrom, scannedFrom, hidesLayerAndBelow, hidesLayersBelow,
      layerAncestryOf_firstNonDirectory, decide_true, Bool.true_and, reduceCtorEq, decide_false,
      Bool.false_and, Bool.or_false] at hm
    rw [findLinkInLowers]
    split at hm
    · cases hm
    · rename_i hreads
      rw [if_neg hreads]
      split
      · rename_i hlink
        exact linkStopOf_ne_none hlink
      · rename_i hnot
        rcases List.mem_cons.mp hm with rfl | hm
        · exact absurd hends hnot
        · split at hm
          · cases hm
          · rename_i hopen
            rw [if_neg]
            · exact ih (i + 1) hm
            · intro hstops
              apply hopen
              rw [Bool.or_eq_true, decide_eq_true_eq] at hstops
              rcases hstops with hopq | hfile
              · simp [hopq]
              · simp [hfile]

/-- A layer that a merge of the directory reads, and that ends at a link or at an entry that
cannot be read, makes the directory one of a link's target. -/
theorem isInLinkTarget_of_scanned {m : MergeLayer}
    (hm : m ∈ scannedFrom c d (mergeLayersOf c))
    (hends : endsAtLinkOrUnreadable (walkToFirstNonDirectory m.layer d).stop = true) :
    isInLinkTarget c d = true := by
  rw [isInLinkTarget, decide_eq_true_eq, findLinkInView]
  dsimp only
  simp only [mergeLayersOf, scannedFrom, hidesLayerAndBelow, hidesLayersBelow, reduceCtorEq,
    decide_false, Bool.false_and, Bool.false_eq_true, if_false, decide_true, Bool.true_and,
    layerAncestryOf_firstNonDirectory] at hm
  split
  · rename_i hlink
    exact linkStopOf_ne_none hlink
  · rename_i hnot
    rcases List.mem_cons.mp hm with rfl | hm
    · exact absurd hends hnot
    · split at hm
      · cases hm
      · rename_i hopen
        simp only [Bool.or_eq_true, decide_eq_true_eq, not_or, ne_eq, not_not] at hopen
        obtain ⟨⟨hopq, hnone⟩, hwhite⟩ := hopen
        have hany : (c.lowers.any fun l =>
            endsAtLinkOrUnreadable (walkToFirstNonDirectory l d).stop) = true :=
          List.any_eq_true.mpr
            ⟨m.layer, layer_mem_of_mem_mergeLowersFrom (mem_of_mem_scannedFrom hm), hends⟩
        rw [if_neg (by simp [hnone]), hany, if_neg (by simp), if_neg (by simp [hopq, hwhite])]
        exact findLinkInLowers_of_scanned 0 c.lowers hm hends

/-- A lookup accepts every name that a merge lists. -/
theorem isResolvablePath_of_listed {entries : List (Name × MergedEntry)}
    (hcolon : c.NoColons) (hd : isResolvablePath c d = true)
    (hmerged : (mergeDirectoryWithAncestry c d).merged = .ok entries) {e : MergedEntry}
    (hlisted : (n, e) ∈ entries) : isResolvablePath c (d ++ [n]) = true := by
  obtain ⟨m, hm⟩ : ∃ m, ScanLists c d n m := by
    rw [mergeDirectoryWithAncestry_of_resolvable hd, mergeLayers, take_mergeLayersOf] at hmerged
    dsimp only at hmerged
    cases hrun : (mergeLayersFrom d (freshAncestry c d) 0 (mergeLayersOf c) {}).1 with
    | error status =>
      rw [hrun] at hmerged
      cases hmerged
    | ok merged =>
      rw [hrun] at hmerged
      rw [← Except.ok.inj hmerged] at hlisted
      have hfrom := scanLists_of_mem_merged (mergeLayersOf c) 0 {} merged (n, e)
        (fun _ h => h) hrun hlisted
      exact hfrom.resolve_left (by simp)
  have hdots : n ≠ ['.'] ∧ n ≠ ['.', '.'] := by
    constructor <;>
    · rintro rfl
      have hvisible := hm.visible
      simp [visibleEntryKey] at hvisible
  have hname : ':' ∉ n := by
    intro hn
    exact hm.present hdots.1 (hcolon m (mem_of_mem_scannedFrom hm.scanned) d n hn)
  rw [isResolvablePath, Bool.and_eq_true] at hd
  have hreserved : isReservedOverlayPath c d = false := by simpa using hd.2
  have hchild : isReservedOverlayPath c (d ++ [n]) = false := by
    by_contra hres
    rw [Bool.not_eq_false] at hres
    have hroot : d = [] → isReservedRelativePath [n] = false := by
      rintro rfl
      have hvisible := hm.visible
      unfold visibleEntryKey at hvisible
      by_contra hr
      rw [Bool.not_eq_false] at hr
      simp [hr] at hvisible
    obtain ⟨hmarker, hnot⟩ := reserved_name_not_in_link hreserved hres hroot
    rw [isInLinkTarget_of_scanned hm.scanned (hm.marker hmarker)] at hnot
    cases hnot
  rw [isResolvablePath, hchild, Bool.not_false, Bool.and_true]
  rw [isSafeRelativePath, Bool.and_eq_true] at hd ⊢
  refine ⟨by simp, ?_⟩
  rw [List.all_append, hd.1.2]
  simp [hname, hdots.2]

/-- The merge lists the name. -/
def ListsName (m : MergedDirectoryWithAncestry) (n : Name) : Prop :=
  ∃ entries entry, m.merged = .ok entries ∧ entries.lookup n = some entry

/-- Each name is one of the merge before it. -/
def StepsDown (c : LayerConfig) : MergedDirectoryWithAncestry → List Name → Prop
  | _, [] => True
  | m, n :: names => ListsName m n ∧ StepsDown c (mergeChildDirectory c m n) names

theorem mergeChildDirectory_foldl (hcolon : c.NoColons) (names : List Name)
    (hd : isResolvablePath c d = true)
    (hsteps : StepsDown c (mergeDirectoryWithAncestry c d) names) :
    names.foldl (mergeChildDirectory c) (mergeDirectoryWithAncestry c d)
      = mergeDirectoryWithAncestry c (d ++ names) := by
  induction names generalizing d with
  | nil => rw [List.foldl_nil, List.append_nil]
  | cons n names ih =>
    obtain ⟨⟨entries, entry, hmerged, hentry⟩, hrest⟩ := hsteps
    have hlisted : (n, entry) ∈ entries := by
      obtain ⟨l₁, l₂, hsplit, -⟩ := List.lookup_eq_some_iff.mp hentry
      simp [hsplit]
    have hchild := isResolvablePath_of_listed hcolon hd hmerged hlisted
    have hstep := mergeChildDirectory_eq hd hchild hmerged
    rw [hstep] at hrest
    rw [List.foldl_cons, hstep, ih hchild hrest, List.append_assoc, List.singleton_append]

/-- The steps from the merge of a directory that shows, down a chain of entries that the merges
list, list what a merge of the last directory lists.  A chain of directories is one of them.
No probe need answer, and a scan of the last directory that fails is the result of both. -/
theorem stepped_merge_eq (hcolon : c.NoColons) (hne : d ≠ [])
    (hshows : (resolvePath c d {}).1.found = true ∧ (resolvePath c d {}).1.isDirectory = true)
    (names : List Name) (hsteps : StepsDown c (mergeDirectoryWithAncestry c d) names) :
    (names.foldl (mergeChildDirectory c) (mergeDirectoryWithAncestry c d)).merged
      = (mergeDirectoryWithAncestry c (d ++ names)).merged := by
  have hd : isResolvablePath c d = true := by
    by_contra hres
    rw [Bool.not_eq_true] at hres
    have hempty : d.isEmpty = false := by simpa using hne
    have hmiss : (resolvePath c d {}).1 = {} := by
      rw [resolvePath, resolvePathInternal]
      simp [hempty, hres]
    rw [hmiss] at hshows
    cases hshows.1
  rw [mergeChildDirectory_foldl hcolon names hd hsteps]

/-- Layers of trees whose names have no colon. -/
theorem noColons_ofTrees {files : List FileObj} {upper : Place} {lowers : List Place}
    (h : ∀ o ∈ upper :: lowers, ∀ t ∈ o, t.Distinct ∧ ∀ p ∈ t.pathsBelow, ∀ n ∈ p, ':' ∉ n) :
    (configOf files upper lowers).NoColons := by
  have hplace : ∀ o ∈ upper :: lowers, ∀ p n, ':' ∈ n →
      (Layer.ofTree files o).get (p ++ [n]) = .missing := by
    intro o ho p n hn
    by_contra hget
    have hsome : (placeAt o (p ++ [n])).isSome = true := probeOf_ne_missing.mp hget
    unfold placeAt at hsome
    split at hsome
    · cases hsome
    · cases o with
      | none => simp at hsome
      | some t =>
        obtain ⟨hdistinct, hpaths⟩ := h _ ho t rfl
        have hmem := (PathTree.mem_pathsBelow_iff t hdistinct (p ++ [n])).mpr ⟨by simp, hsome⟩
        exact hpaths _ hmem n (by simp) hn
  intro m hm
  rcases List.mem_cons.mp hm with rfl | hm
  · exact hplace upper List.mem_cons_self
  · obtain ⟨o, ho, hlayer⟩ := List.mem_map.mp (layer_mem_of_mem_mergeLowersFrom hm)
    rw [← hlayer]
    exact hplace o (List.mem_cons_of_mem _ ho)

/-- An upper's `d\\c` with a whiteout for `b`, over a lower's `d\\c` with `a` and `b`. -/
def nestedUpper : Tree := .node {} [(['d'], .node {} [(['c'], .node {} [
  (whiteoutName ['b'], .leaf .marker)])])]

def nestedLower : Tree := .node {} [(['d'], .node {} [(['c'], .node {} [
  (['a'], .leaf (.file 0)), (['b'], .leaf (.file 0))])])]

def nestedLayers : LayerConfig := configOf [{}] (some nestedUpper) [some nestedLower]

theorem nestedLayers_noColons : nestedLayers.NoColons := by
  apply noColons_ofTrees
  intro o ho t ht
  rcases List.mem_cons.mp ho with rfl | ho
  · obtain rfl : nestedUpper = t := Option.some.inj ht
    exact ⟨by simp [nestedUpper, PathTree.Distinct, PathTree.DistinctChildren], by decide⟩
  · rw [List.mem_singleton.mp ho] at ht
    obtain rfl : nestedLower = t := Option.some.inj ht
    exact ⟨by simp [nestedLower, PathTree.Distinct, PathTree.DistinctChildren], by decide⟩

theorem nestedLayers_stepsDown :
    StepsDown nestedLayers (mergeDirectoryWithAncestry nestedLayers [['d']]) [['c']] := by
  refine ⟨⟨[(['c'], ⟨{ directory := true }, .upper, none⟩)], _, by decide, rfl⟩, trivial⟩

theorem stepped_merge_eq_nestedLayers :
    ([['c']].foldl (mergeChildDirectory nestedLayers)
        (mergeDirectoryWithAncestry nestedLayers [['d']])).merged
      = (mergeDirectoryWithAncestry nestedLayers ([['d']] ++ [['c']])).merged :=
  stepped_merge_eq nestedLayers_noColons (by decide) (by decide) [['c']]
    nestedLayers_stepsDown

end LayerMount
