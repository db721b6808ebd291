import LayerMount.LayerTree

/-!
# Listing and lookup agree

A directory merge lists, under every name, the entry that the overlay of the
layers shows there (`mergeLayersFrom_listed`), and it leaves out the names that a
lookup refuses as reserved (`mergeLayersFrom_unlisted`).  With the resolver's half
this makes listing and lookup agree at every directory, depth and stack of layers
(`listedAt_eq_shown`).

A child's name is any name for which the child's path is safe; names that start
with `.wh.` and the root name `.overlay` are among them.  The one exception is `.`,
which a lookup finds and no merge lists (`dot_found_not_listed`).
-/

namespace LayerMount

open Lib

variable {c : LayerConfig} {d p : RelPath} {n : Name}

/-! ## The merge looks -/

/-- The entry a merge lists under a name. -/
def listedAt (entries : List (Name × MergedEntry)) (n : Name) : Option ShownEntry :=
  (entries.lookup n).map fun e => ⟨e.source, e.lowerIndex, e.attributes⟩

theorem foldl_addOrdinaryEntry (l : Layer) (d : RelPath) (names : List Name) :
    ∀ scan : LayerDirectoryScan, names.foldl (addOrdinaryEntry l d) scan
      = { scan with entries := scan.entries ++
          (names.filter fun x => (visibleEntryKey d x).isSome).map fun x =>
            ⟨x, findDataAttributes l d x⟩ } := by
  induction names with
  | nil => intro scan; simp
  | cons x names ih =>
    intro scan
    rw [List.foldl_cons, ih]
    have hkey : ∀ key, visibleEntryKey d x = some key → key = x := by
      intro key hk
      unfold visibleEntryKey at hk
      split at hk
      · cases hk
      · split at hk
        · cases hk
        · exact (Option.some.inj hk).symm
    cases hv : visibleEntryKey d x with
    | none => simp [addOrdinaryEntry, hv]
    | some key =>
      obtain rfl := hkey key hv
      simp [addOrdinaryEntry, hv]

theorem foldl_addMarkerOrEntry (l : Layer) (d : RelPath) (names : List Name) :
    ∀ scan : LayerDirectoryScan, names.foldl (addMarkerOrEntry l d) scan
      = { whitedOutNames := scan.whitedOutNames ++ names.filterMap whitedOutNameOfEntry
          entries := scan.entries ++
            (names.filter fun x => (visibleEntryKey d x).isSome && !isWhiteoutName x).map
              fun x => ⟨x, findDataAttributes l d x⟩ } := by
  induction names with
  | nil => intro scan; simp
  | cons x names ih =>
    intro scan
    rw [List.foldl_cons, ih]
    cases hw : whitedOutNameOfEntry x with
    | some hidden =>
      have hmark : isWhiteoutName x = true := by
        by_contra hno
        simp [whitedOutNameOfEntry, hno] at hw
      simp [addMarkerOrEntry, hw, hmark]
    | none =>
      cases hmark : isWhiteoutName x with
      | true => simp [addMarkerOrEntry, hw, hmark]
      | false =>
        have hord := foldl_addOrdinaryEntry l d [x] scan
        simp only [List.foldl_cons, List.foldl_nil] at hord
        simp only [addMarkerOrEntry, hw, hmark, Bool.false_eq_true, if_false]
        rw [hord]
        cases hv : (visibleEntryKey d x).isSome <;> simp [hv, hw, hmark]

theorem mem_filterMap_whitedOut {names : List Name} :
    n ∈ names.filterMap whitedOutNameOfEntry ↔
      whiteoutName n ∈ names ∧ whiteoutName n ≠ kOpaqueMarkerFile := by
  rw [List.mem_filterMap]
  constructor
  · rintro ⟨x, hx, hw⟩
    unfold whitedOutNameOfEntry at hw
    split at hw
    · cases hw
    · rename_i hcond
      simp only [Bool.or_eq_true, Bool.not_eq_true', decide_eq_true_eq, not_or,
        Bool.not_eq_false] at hcond
      obtain rfl := Option.some.inj hw
      rw [whiteoutName_getWhitedOutName hcond.1]
      exact ⟨hx, hcond.2⟩
  · rintro ⟨hx, hne⟩
    exact ⟨_, hx, by simp [whitedOutNameOfEntry, hne]⟩

/-- What adding a scan's entries does to one name. -/
theorem listedAt_foldl_addEntry (layer : MergeLayer) (scan : List LayerDirectoryEntry) :
    ∀ merge : DirectoryMerge,
      (scan.foldl (DirectoryMerge.addEntry layer) merge).whitedOutNames
        = merge.whitedOutNames ∧
      listedAt (scan.foldl (DirectoryMerge.addEntry layer) merge).entries n
        = (listedAt merge.entries n).or
            (if merge.whitedOutNames.contains n then none
              else (scan.find? fun e => e.key = n).map fun e =>
                ⟨layer.source, layer.lowerIndex, e.attributes⟩) := by
  induction scan with
  | nil => intro merge; simp
  | cons e scan ih =>
    intro merge
    rw [List.foldl_cons]
    obtain ⟨hwh, hlist⟩ := ih (DirectoryMerge.addEntry layer merge e)
    rw [hwh, hlist]
    have hany : (merge.entries.any fun x => x.1 = e.key) = (merge.entries.lookup e.key).isSome := by
      induction merge.entries with
      | nil => rfl
      | cons x xs ihx =>
        rw [List.any_cons, List.lookup_cons, ihx]
        by_cases hx : x.1 = e.key
        · simp [hx]
        · have hx' : (e.key == x.1) = false := by
            rw [beq_eq_false_iff_ne]
            exact fun hh => hx hh.symm
          simp [hx, hx']
    have hwn : (DirectoryMerge.addEntry layer merge e).whitedOutNames = merge.whitedOutNames := by
      unfold DirectoryMerge.addEntry
      split <;> rfl
    refine ⟨hwn, ?_⟩
    rw [hwn]
    by_cases hk : e.key = n
    · subst hk
      rw [List.find?_cons_of_pos (by simp)]
      unfold DirectoryMerge.addEntry
      rw [hany]
      cases hl : merge.entries.lookup e.key with
      | some x => simp [listedAt, hl]
      | none =>
        cases hc : merge.whitedOutNames.contains e.key with
        | true => simp [listedAt, hl]
        | false => simp [listedAt, hl, List.lookup_append]
    · rw [List.find?_cons_of_neg (by simpa using hk)]
      unfold DirectoryMerge.addEntry
      split
      · rfl
      · have hne : (n == e.key) = false := by
          rw [beq_eq_false_iff_ne]
          exact fun hh => hk hh.symm
        congr 1
        rw [listedAt, List.lookup_append, List.lookup_cons, hne]
        simp [listedAt]

/-- A scanned layer reads `n` as the overlay does: `n` is not a marker's name, or
the directory is in a link there, or the layer lists nothing there. -/
def ReadsAsEntry (d : RelPath) (n : Name) (m : MergeLayer) : Prop :=
  isWhiteoutName n = true → (walkToFirstNonDirectory m.layer d).stop ≠ .link →
    ∀ x, m.layer.get (d ++ [x]) = .missing

/-- One layer's scan, for one visible name: the whiteout that counts for it and the
entry the layer holds. -/
theorem scanLayerDirectory_spec {m : MergeLayer} (hread : m.layer.Readable)
    (hvis : visibleEntryKey d n = some n) (hn : ReadsAsEntry d n m)
    (ancestry : LayerAncestry)
    (hfirst : ancestry.firstNonDirectory = (walkToFirstNonDirectory m.layer d).stop) :
    ∃ scan, scanLayerDirectory m.layer d (whiteoutNamesIn ancestry) = .ok scan ∧
      scan.whitedOutNames.contains n = hasWhiteout m.layer (d ++ [n]) ∧
      ((scan.entries.find? fun e => e.key = n).map fun e =>
          (⟨m.source, m.lowerIndex, e.attributes⟩ : ShownEntry))
        = match m.layer.get (d ++ [n]) with
          | .entry e => some ⟨m.source, m.lowerIndex, e.attributes⟩
          | _ => none := by
  obtain ⟨names, hscan⟩ := hread.scan d
  have hmem := m.layer.mem_scan d names hscan
  have hndot : n ≠ ['.'] := by
    rintro rfl
    simp [visibleEntryKey] at hvis
  have hends := endsAtLinkOrUnreadable_iff (d := d) hread
  -- the entry found under `n`, when the filter that the scan applies keeps `n`
  have hfind : ∀ keep : Name → Bool, (m.layer.get (d ++ [n]) ≠ .missing → keep n = true) →
      ((((names.filter keep).map fun x =>
          (⟨x, findDataAttributes m.layer d x⟩ : LayerDirectoryEntry)).find?
            fun e => e.key = n).map fun e =>
              (⟨m.source, m.lowerIndex, e.attributes⟩ : ShownEntry))
        = match m.layer.get (d ++ [n]) with
          | .entry e => some ⟨m.source, m.lowerIndex, e.attributes⟩
          | _ => none := by
    intro keep hkeep
    rw [List.find?_map]
    cases hget : m.layer.get (d ++ [n]) with
    | unreadable => exact absurd hget (hread.get _)
    | missing =>
      have hnone : (names.filter keep).find?
          ((fun e : LayerDirectoryEntry => decide (e.key = n)) ∘
            fun x => ⟨x, findDataAttributes m.layer d x⟩) = none := by
        rw [List.find?_eq_none]
        intro x hx hxn
        simp only [Function.comp, decide_eq_true_eq] at hxn
        subst hxn
        exact (hmem x hndot).mp (List.mem_filter.mp hx).1 hget
      rw [hnone]
      rfl
    | entry e =>
      have hin : n ∈ names.filter keep := by
        rw [List.mem_filter]
        exact ⟨(hmem n hndot).mpr (by simp [hget]), hkeep (by simp [hget])⟩
      cases hf : (names.filter keep).find?
          ((fun e : LayerDirectoryEntry => decide (e.key = n)) ∘
            fun x => ⟨x, findDataAttributes m.layer d x⟩) with
      | none =>
        rw [List.find?_eq_none] at hf
        simpa using hf n hin
      | some x =>
        have hx := List.find?_some hf
        simp only [Function.comp, decide_eq_true_eq] at hx
        subst hx
        simp [findDataAttributes, hget, Probe.attributes]
  by_cases hlink : (walkToFirstNonDirectory m.layer d).stop = .link
  · have hnames : whiteoutNamesIn ancestry = .areOrdinary := by
      rw [whiteoutNamesIn, hfirst, if_pos (hends.mpr hlink)]
    refine ⟨_, by rw [scanLayerDirectory, hscan, hnames], ?_, ?_⟩
    · rw [foldl_addOrdinaryEntry]
      have hw : hasWhiteout m.layer (d ++ [n]) = false := by
        rw [Bool.eq_false_iff, ne_eq, hasWhiteout_snoc hread]
        exact fun hh => hh.2 hlink
      simp [hw]
    · rw [foldl_addOrdinaryEntry, List.nil_append]
      exact hfind _ fun _ => by simp [hvis]
  · have hnames : whiteoutNamesIn ancestry = .areMarkers := by
      rw [whiteoutNamesIn, hfirst, if_neg (fun hh => hlink (hends.mp hh))]
    refine ⟨_, by rw [scanLayerDirectory, hscan, hnames], ?_, ?_⟩
    · rw [foldl_addMarkerOrEntry, List.nil_append, Bool.eq_iff_iff, List.contains_iff_mem,
        mem_filterMap_whitedOut, hmem _ (whiteoutName_ne_dot n), hasWhiteout_snoc hread]
      constructor
      · exact fun hh => ⟨hh.1, hlink⟩
      · rintro ⟨hmark, -⟩
        refine ⟨hmark, ?_⟩
        intro heq
        -- the opaque marker is a whiteout for a marker's name only
        have hn' : isWhiteoutName n = true := by
          have : n = getWhitedOutName kOpaqueMarkerFile := by rw [← heq]; simp
          rw [this]
          decide
        exact hmark (hn hn' hlink _)
    · rw [foldl_addMarkerOrEntry, List.nil_append]
      refine hfind _ fun hex => ?_
      have hnot : isWhiteoutName n = false := by
        by_contra hmark
        exact hex (hn (by simpa using hmark) hlink n)
      simp [hvis, hnot]

/-- The merge of the scanned layers lists, under one visible name, what the
overlay shows there. -/
theorem mergeLayersFrom_listed (hc : c.Sound) (hvis : visibleEntryKey d n = some n)
    (layers : List MergeLayer) :
    ∀ (slot : Nat) (pre : List MergeLayer) (merge : DirectoryMerge),
      mergeLayersOf c = pre ++ layers →
      (∀ m ∈ scannedFrom c d layers, ReadsAsEntry d n m) →
      ∃ merged, (mergeLayersFrom d
          (fun _ layer => layerAncestryOf c layer.layer d layer.lowerIndex)
          slot layers merge).1 = .ok merged ∧
        listedAt merged.entries n = (listedAt merge.entries n).or
          (if merge.whitedOutNames.contains n then none
            else layersOverlay.look (layersOverlay.descendFrom n false
              ((scannedFrom c d layers).map (slotAt d)))) := by
  induction layers with
  | nil =>
    intro slot pre merge _ _
    exact ⟨merge, rfl, by simp [scannedFrom, Overlay.look]⟩
  | cons m rest ih =>
    intro slot pre merge hsplit hn
    have hread : m.layer.Readable := hc.readable m (by rw [hsplit]; simp)
    rw [mergeLayersFrom, scannedFrom]
    simp only
    cases hh : hidesLayerAndBelow m (layerAncestryOf c m.layer d m.lowerIndex) with
    | true => exact ⟨merge, by simp, by simp [Overlay.look]⟩
    | false =>
      rw [scannedFrom, hh] at hn
      simp only [Bool.false_eq_true, if_false] at hn ⊢
      obtain ⟨scan, hscan, hwhite, hfind⟩ := scanLayerDirectory_spec hread hvis
        (hn m List.mem_cons_self) _ (layerAncestryOf_firstNonDirectory m.lowerIndex)
      -- the merge after this layer, and what it says about `n`
      obtain ⟨merge', hmerge, hwn, hlist⟩ : ∃ merge',
          mergeLayerEntries m d (whiteoutNamesIn (layerAncestryOf c m.layer d m.lowerIndex))
            merge = .ok merge' ∧
          merge'.whitedOutNames.contains n
            = (merge.whitedOutNames.contains n || hasWhiteout m.layer (d ++ [n])) ∧
          listedAt merge'.entries n = (listedAt merge.entries n).or
            (if merge.whitedOutNames.contains n ||
                (m.source = .lower && hasWhiteout m.layer (d ++ [n])) then none
              else match m.layer.get (d ++ [n]) with
                | .entry e => some ⟨m.source, m.lowerIndex, e.attributes⟩
                | _ => none) := by
        rw [mergeLayerEntries, hscan]
        refine ⟨_, rfl, ?_, ?_⟩
        · rcases mergeLayersOf_split hsplit with ⟨-, hs, -⟩ | ⟨i, hs, -, -⟩
          · simp only [hs, reduceCtorEq, if_false, if_true, DirectoryMerge.addWhiteouts,
              List.contains_append, hwhite, (listedAt_foldl_addEntry (n := n) m _ merge).1]
          · simp only [hs, reduceCtorEq, if_false, if_true,
              (listedAt_foldl_addEntry (n := n) m _ _).1, DirectoryMerge.addWhiteouts,
              List.contains_append, hwhite]
        · rcases mergeLayersOf_split hsplit with ⟨-, hs, -⟩ | ⟨i, hs, -, -⟩
          · have hfold := (listedAt_foldl_addEntry (n := n) m scan.entries merge).2
            rw [hfind] at hfold
            simpa [hs, DirectoryMerge.addWhiteouts] using hfold
          · have hfold := (listedAt_foldl_addEntry (n := n) m scan.entries
              (merge.addWhiteouts scan)).2
            rw [hfind] at hfold
            simp only [DirectoryMerge.addWhiteouts, List.contains_append, hwhite] at hfold
            simp only [hs, reduceCtorEq, if_false, if_true, decide_true, Bool.true_and,
              DirectoryMerge.addWhiteouts]
            rw [← hs]
            exact hfold
      rw [hmerge]
      simp only [List.map_cons, Overlay.descendFrom]
      have hentry : layersOverlay.entry (layersOverlay.child (slotAt d m) n)
          = match m.layer.get (d ++ [n]) with
            | .entry e => some ⟨m.source, m.lowerIndex, e.attributes⟩
            | _ => none := by
        have hsrc : (layersOverlay.child (slotAt d m) n).source = m.source := by
          rcases mergeLayersOf_split hsplit with ⟨-, hs, hi⟩ | ⟨i, hs, hi, -⟩ <;>
            simp [LayerSlot.source, layersOverlay, slotAt, hs, hi]
        simp only [layersOverlay, slotAt] at hsrc ⊢
        cases m.layer.get (d ++ [n]) with
        | missing => rfl
        | unreadable => rfl
        | entry e =>
          exact congrArg (fun source => some (ShownEntry.mk source m.lowerIndex e.attributes)) hsrc
      have hwh : layersOverlay.whites (slotAt d m) n = hasWhiteout m.layer (d ++ [n]) := rfl
      have hlower : (!layersOverlay.upper (slotAt d m)) = decide (m.source = .lower) := by
        rcases mergeLayersOf_split hsplit with ⟨-, hs, hi⟩ | ⟨i, hs, hi, -⟩ <;>
          simp [layersOverlay, slotAt, hs, hi]
      have hcov : layersOverlay.covers (layersOverlay.child (slotAt d m) n)
          = coversAt m.layer (d ++ [n]) := rfl
      rw [← hentry, ← hlower] at hlist
      simp only [hwh, hcov, Bool.false_and, Bool.or_false, Bool.false_or]
      cases hb : hidesLayersBelow m (layerAncestryOf c m.layer d m.lowerIndex) with
      | true =>
        refine ⟨merge', by simp, ?_⟩
        rw [hlist]
        congr 1
        cases merge.whitedOutNames.contains n with
        | true => simp
        | false =>
          simp only [Bool.false_or, Bool.false_eq_true, if_false]
          split
          · rfl
          · simp only [List.map_nil, Overlay.descendFrom_nil, ite_self, Overlay.look,
              if_true]
            cases layersOverlay.entry (layersOverlay.child (slotAt d m) n) <;> rfl
      | false =>
        rw [hb] at hn
        simp only [Bool.false_eq_true, if_false] at hn ⊢
        obtain ⟨merged, hmerged, hresult⟩ := ih (slot + 1) (pre ++ [m]) merge'
          (by rw [hsplit]; simp) fun m' hm' => hn m' (List.mem_cons_of_mem _ hm')
        refine ⟨merged, hmerged, ?_⟩
        rw [hresult, hlist, hwn]
        cases merge.whitedOutNames.contains n with
        | true => simp
        | false =>
          simp only [Bool.false_or, Bool.false_eq_true, if_false]
          split
          · -- a lower's whiteout hides its own entry and what is below
            rename_i hcond
            rw [Bool.and_eq_true] at hcond
            simp [hcond.2, Overlay.look]
          · rename_i hcond
            rw [Overlay.look]
            cases hent : layersOverlay.entry (layersOverlay.child (slotAt d m) n) with
            | some e => simp
            | none =>
              have hmiss : m.layer.get (d ++ [n]) = .missing := by
                rw [hentry] at hent
                cases hget : m.layer.get (d ++ [n]) with
                | missing => rfl
                | unreadable => exact absurd hget (hread.get _)
                | entry e => simp [hget] at hent
              have hcovers : coversAt m.layer (d ++ [n]) = false := by
                rw [hidesLayersBelow, layerAncestryOf_firstNonDirectory] at hb
                simp only [Bool.or_eq_false_iff, decide_eq_false_iff_not, ne_eq,
                  not_not] at hb
                simp [coversAt, walk_snoc hread, hb.1.2, walkStopAt,
                  (componentKind_eq_missing_iff hread).mpr hmiss]
              simp only [hcovers, Bool.false_or, Option.or_none, Option.isSome_none]
              cases hw : hasWhiteout m.layer (d ++ [n]) with
              | true =>
                rw [hw, Bool.and_true, Bool.not_eq_true] at hcond
                have hup : layersOverlay.upper (slotAt d m) = true := by
                  simpa using hcond
                simp [hup, Overlay.look]
              | false => simp

/-- A name the scans leave out is not listed: it is not visible, or it is a
marker's name and no scanned layer is in a link. -/
theorem mergeLayersFrom_unlisted
    (hn : visibleEntryKey d n = none ∨ isWhiteoutName n = true ∧
      ∀ m ∈ scannedFrom c d (mergeLayersOf c), ¬SlotInLink (slotAt d m))
    (layers : List MergeLayer) :
    ∀ (slot : Nat) (merge : DirectoryMerge),
      (∀ m ∈ layers, m.layer.Readable) →
      (∀ m ∈ scannedFrom c d layers, m ∈ scannedFrom c d (mergeLayersOf c)) →
      ∃ merged, (mergeLayersFrom d
          (fun _ layer => layerAncestryOf c layer.layer d layer.lowerIndex)
          slot layers merge).1 = .ok merged ∧
        listedAt merged.entries n = listedAt merge.entries n := by
  induction layers with
  | nil => intro slot merge _ _; exact ⟨merge, rfl, rfl⟩
  | cons m rest ih =>
    intro slot merge hreads hsub
    have hread := hreads m (by simp)
    rw [mergeLayersFrom]
    simp only
    cases hh : hidesLayerAndBelow m (layerAncestryOf c m.layer d m.lowerIndex) with
    | true => exact ⟨merge, by simp, rfl⟩
    | false =>
      simp only [scannedFrom, hh, Bool.false_eq_true, if_false] at hsub
      obtain ⟨names, hscan⟩ := hread.scan d
      have hends := endsAtLinkOrUnreadable_iff (d := d) hread
      have hnone : ∃ scan, scanLayerDirectory m.layer d
            (whiteoutNamesIn (layerAncestryOf c m.layer d m.lowerIndex)) = .ok scan ∧
          (scan.entries.find? fun e => e.key = n) = none := by
        rw [scanLayerDirectory, hscan, whiteoutNamesIn,
          layerAncestryOf_firstNonDirectory]
        by_cases hlink : (walkToFirstNonDirectory m.layer d).stop = .link
        · rw [if_pos (hends.mpr hlink)]
          refine ⟨_, rfl, ?_⟩
          rcases hn with hv | ⟨-, hno⟩
          · rw [foldl_addOrdinaryEntry, List.nil_append, List.find?_eq_none]
            intro e he hkey
            obtain ⟨x, hx, rfl⟩ := List.mem_map.mp he
            obtain rfl : x = n := by simpa using hkey
            have := (List.mem_filter.mp hx).2
            simp [hv] at this
          · exact absurd hlink (hno m (hsub m List.mem_cons_self))
        · rw [if_neg (fun h => hlink (hends.mp h))]
          refine ⟨_, rfl, ?_⟩
          rw [foldl_addMarkerOrEntry, List.nil_append, List.find?_eq_none]
          intro e he hkey
          obtain ⟨x, hx, rfl⟩ := List.mem_map.mp he
          obtain rfl : x = n := by simpa using hkey
          have hkeep := (List.mem_filter.mp hx).2
          rcases hn with hv | ⟨hmark, -⟩
          · simp [hv] at hkeep
          · simp [hmark] at hkeep
      obtain ⟨scan, hscan', hfind⟩ := hnone
      obtain ⟨merge', hmerge, hlist⟩ : ∃ merge',
          mergeLayerEntries m d (whiteoutNamesIn (layerAncestryOf c m.layer d m.lowerIndex))
            merge = .ok merge' ∧ listedAt merge'.entries n = listedAt merge.entries n := by
        rw [mergeLayerEntries, hscan']
        refine ⟨_, rfl, ?_⟩
        have hfold := fun mg : DirectoryMerge =>
          (listedAt_foldl_addEntry (n := n) m scan.entries mg).2
        simp only [hfind, Option.map_none, ite_self, Option.or_none] at hfold
        by_cases hs : m.source = .lower
        · simp only [hs, if_true, reduceCtorEq, if_false, hfold, DirectoryMerge.addWhiteouts]
        · by_cases hs' : m.source = .upper
          · simp only [hs', if_true, reduceCtorEq, if_false, DirectoryMerge.addWhiteouts, hfold]
          · simp only [hs, hs', if_false, hfold]
      rw [hmerge]
      simp only [Bool.false_eq_true, if_false]
      cases hb : hidesLayersBelow m (layerAncestryOf c m.layer d m.lowerIndex) with
      | true => exact ⟨merge', by simp, hlist⟩
      | false =>
        rw [hb] at hsub
        obtain ⟨merged, hmerged, hresult⟩ := ih (slot + 1) merge'
          (fun m' hm' => hreads m' (by simp [hm']))
          (fun m' hm' => hsub m' (List.mem_cons_of_mem _ hm'))
        exact ⟨merged, by simpa using hmerged, by rw [hresult, hlist]⟩

/-! ## Listing and lookup -/

theorem length_mergeLowersFrom (i : Nat) (lowers : List Layer) :
    (mergeLowersFrom i lowers).length = lowers.length := by
  induction lowers generalizing i with
  | nil => rfl
  | cons l rest ih => simp [mergeLowersFrom, ih]

theorem take_mergeLayersOf (c : LayerConfig) :
    (mergeLayersOf c).take (c.lowers.length + 1) = mergeLayersOf c := by
  apply List.take_of_length_le
  simp [mergeLayersOf, length_mergeLowersFrom]

theorem parentOfFirstMarkerSegment_snoc (d : RelPath) (n : Name) :
    parentOfFirstMarkerSegment (d ++ [n])
      = match parentOfFirstMarkerSegment d with
        | some q => some q
        | none => if isWhiteoutName n then some d else none := by
  induction d with
  | nil => cases hn : isWhiteoutName n <;> simp [parentOfFirstMarkerSegment, hn]
  | cons x d ih =>
    have hcons : ∀ q : RelPath, parentOfFirstMarkerSegment (x :: q)
        = if isWhiteoutName x then some []
          else (parentOfFirstMarkerSegment q).map (x :: ·) := by
      intro q
      unfold parentOfFirstMarkerSegment
      cases hx : isWhiteoutName x with
      | true => simp [hx]
      | false =>
        rw [List.any_cons, hx, Bool.false_or, List.takeWhile_cons, hx]
        cases q.any isWhiteoutName <;> simp
    rw [List.cons_append, hcons, hcons, ih]
    cases isWhiteoutName x with
    | true => rfl
    | false =>
      cases parentOfFirstMarkerSegment d with
      | some q => rfl
      | none => cases isWhiteoutName n <;> rfl

theorem prefix_of_parentOfFirstMarkerSegment {q : RelPath}
    (h : parentOfFirstMarkerSegment d = some q) : q <+: d := by
  unfold parentOfFirstMarkerSegment at h
  split at h
  · obtain rfl := Option.some.inj h
    exact List.takeWhile_prefix _
  · cases h

theorem isRootSidecarPath_snoc (hd : d ≠ []) (n : Name) :
    isRootSidecarPath (d ++ [n]) = isRootSidecarPath d := by
  cases d with
  | nil => exact absurd rfl hd
  | cons x d => simp [isRootSidecarPath]

/-- What is reserved stays reserved below. -/
theorem isReservedOverlayPath_snoc (h : isReservedOverlayPath c d = true) (n : Name) :
    isReservedOverlayPath c (d ++ [n]) = true := by
  have hd : d ≠ [] := by
    rintro rfl
    simp [isReservedOverlayPath, isRootSidecarPath, parentOfFirstMarkerSegment] at h
  unfold isReservedOverlayPath at h ⊢
  rw [isRootSidecarPath_snoc hd, parentOfFirstMarkerSegment_snoc]
  split
  · rfl
  · rename_i hside
    rw [if_neg hside] at h
    cases hp : parentOfFirstMarkerSegment d with
    | some q => simpa [hp] using h
    | none => simp [hp] at h

/-- A visible reserved name in a directory that is not reserved is a marker's name,
and no link leads into the directory. -/
theorem reserved_name_not_in_link (hd : isReservedOverlayPath c d = false)
    (hres : isReservedOverlayPath c (d ++ [n]) = true)
    (hroot : d = [] → isReservedRelativePath [n] = false) :
    isWhiteoutName n = true ∧ isInLinkTarget c d = false := by
  have hside : isRootSidecarPath (d ++ [n]) = false := by
    by_cases hnil : d = []
    · subst hnil
      exact (Bool.or_eq_false_iff.mp (hroot rfl)).1
    · rw [isRootSidecarPath_snoc hnil]
      unfold isReservedOverlayPath at hd
      by_contra hne
      simp [hne] at hd
  unfold isReservedOverlayPath at hres
  rw [hside, parentOfFirstMarkerSegment_snoc] at hres
  simp only [Bool.false_eq_true, if_false] at hres
  cases hp : parentOfFirstMarkerSegment d with
  | some q =>
    -- the first marker is above, so `d` itself would be reserved
    exfalso
    unfold isReservedOverlayPath at hd
    rw [hp] at hd hres
    split at hd
    · cases hd
    · simp only at hd hres
      rw [hres] at hd
      cases hd
  | none =>
    rw [hp] at hres
    cases hn : isWhiteoutName n with
    | false => simp [hn] at hres
    | true =>
      have hnil : d ≠ [] := by
        rintro rfl
        have := (Bool.or_eq_false_iff.mp (hroot rfl)).2
        simp [parentOfFirstMarkerSegment, hn] at this
      exact ⟨rfl, by simpa [hn, hnil] using hres⟩

theorem reserved_name_in_directory (hc : c.Sound) (hd : isReservedOverlayPath c d = false)
    (hres : isReservedOverlayPath c (d ++ [n]) = true)
    (hroot : d = [] → isReservedRelativePath [n] = false) :
    isWhiteoutName n = true ∧
      ∀ m ∈ scannedFrom c d (mergeLayersOf c), ¬SlotInLink (slotAt d m) := by
  obtain ⟨hn, hnot⟩ := reserved_name_not_in_link hd hres hroot
  refine ⟨hn, ?_⟩
  intro m hm hin
  have hyes : isInLinkTarget c d = true := by
    rw [isInLinkTarget_iff hc, ← scanned_eq_live hc]
    exact ⟨_, List.mem_map_of_mem hm, hin⟩
  rw [hnot] at hyes
  cases hyes

/-- A path with a marker's name that is not reserved lies in a link's target. -/
theorem missing_or_inLink_of_not_reserved (hc : c.Sound)
    (hres : isReservedOverlayPath c (d ++ [n]) = false) (hmark : isWhiteoutName n = true) :
    ∀ s ∈ liveSlots c d, SlotInLink s ∨ s.layer.get s.path = .missing := by
  have hlink : ∀ q : RelPath, q <+: d → isInLinkTarget c q = true →
      ∀ s ∈ liveSlots c d, SlotInLink s ∨ s.layer.get s.path = .missing := by
    rintro q ⟨e, rfl⟩ hq
    exact missing_or_inLink_append hc
      (missing_or_inLink hc q ((isInLinkTarget_iff hc q).mp hq)) e
  unfold isReservedOverlayPath at hres
  split at hres
  · cases hres
  · rw [parentOfFirstMarkerSegment_snoc] at hres
    cases hp : parentOfFirstMarkerSegment d with
    | some q =>
      rw [hp] at hres
      simp only [Bool.or_eq_false_iff, Bool.not_eq_false'] at hres
      exact hlink q (prefix_of_parentOfFirstMarkerSegment hp) hres.2
    | none =>
      rw [hp] at hres
      simp only [hmark, if_true, Bool.or_eq_false_iff, Bool.not_eq_false'] at hres
      exact hlink d List.prefix_rfl hres.2

theorem not_reserved_at_root (h : isReservedOverlayPath c [n] = false) :
    isReservedRelativePath [n] = false := by
  unfold isReservedOverlayPath at h
  split at h
  · cases h
  · rename_i hside
    cases hn : isWhiteoutName n with
    | true => simp [parentOfFirstMarkerSegment, hn] at h
    | false => simp [isReservedRelativePath, hside, parentOfFirstMarkerSegment, hn]

theorem isSafeRelativePath_snoc (h : isSafeRelativePath (d ++ [n]) = true) :
    (d = [] ∨ isSafeRelativePath d = true) ∧ n ≠ ['.', '.'] := by
  simp only [isSafeRelativePath, List.all_append, List.all_cons, List.all_nil, Bool.and_eq_true,
    Bool.and_true, decide_eq_true_eq] at h ⊢
  refine ⟨?_, h.2.2.2⟩
  cases d with
  | nil => exact .inl rfl
  | cons x d => exact .inr ⟨rfl, h.2.1⟩

/-- A name that the scans of a directory leave out is not listed. -/
theorem merge_unlisted (hc : c.Sound) (hd : isReservedOverlayPath c d = false)
    (hdsafe : (!d.isEmpty && !isSafeRelativePath d) = false)
    (hleft : visibleEntryKey d n = none ∨ isWhiteoutName n = true ∧
      ∀ m ∈ scannedFrom c d (mergeLayersOf c), ¬SlotInLink (slotAt d m)) :
    ∃ entries, mergeDirectoryAcrossLayers c d = .ok entries ∧ listedAt entries n = none := by
  unfold mergeDirectoryAcrossLayers mergeDirectoryWithAncestry
  rw [hdsafe, hd, Bool.or_false, if_neg (by simp), mergeLayers, take_mergeLayersOf]
  obtain ⟨merged, hmerged, hlist⟩ := mergeLayersFrom_unlisted hleft (mergeLayersOf c) 0 {}
    hc.readable (fun _ hm => hm)
  refine ⟨merged.entries, ?_, hlist⟩
  simp only [hmerged]
  rfl

/-- A reserved name in a directory that is not reserved is left out by the scans. -/
theorem merge_unlisted_of_reserved (hc : c.Sound) (hd : isReservedOverlayPath c d = false)
    (hdsafe : (!d.isEmpty && !isSafeRelativePath d) = false)
    (hres : isReservedOverlayPath c (d ++ [n]) = true) :
    ∃ entries, mergeDirectoryAcrossLayers c d = .ok entries ∧ listedAt entries n = none := by
  apply merge_unlisted hc hd hdsafe
  cases hv : visibleEntryKey d n with
  | none => exact .inl rfl
  | some key =>
    right
    have hroot : d = [] → isReservedRelativePath [n] = false := by
      rintro rfl
      by_contra hr
      rw [Bool.not_eq_false] at hr
      simp only [visibleEntryKey, List.isEmpty_nil, hr, Bool.and_self, if_true, ite_self] at hv
      cases hv
    exact reserved_name_in_directory hc hd hres hroot

/-- Any other name that the scans keep is listed as the overlay shows it. -/
theorem merge_listed (hc : c.Sound) (hd : isReservedOverlayPath c d = false)
    (hdsafe : (!d.isEmpty && !isSafeRelativePath d) = false)
    (hvis : visibleEntryKey d n = some n) (hres : isReservedOverlayPath c (d ++ [n]) = false) :
    ∃ entries, mergeDirectoryAcrossLayers c d = .ok entries ∧
      listedAt entries n = layersOverlay.look (liveSlots c (d ++ [n])) := by
  unfold mergeDirectoryAcrossLayers mergeDirectoryWithAncestry
  rw [hdsafe, hd, Bool.or_false, if_neg (by simp), mergeLayers, take_mergeLayersOf]
  simp only
  have hreads : ∀ m ∈ scannedFrom c d (mergeLayersOf c), ReadsAsEntry d n m := by
    intro m hm hmark hlink x
    have hslot : slotAt d m ∈ liveSlots c d := by
      rw [← scanned_eq_live hc]
      exact List.mem_map_of_mem hm
    rcases missing_or_inLink_of_not_reserved hc hres hmark _ hslot with hl | hmiss
    · exact absurd hl hlink
    · exact get_append_of_missing hmiss [x]
  obtain ⟨merged, hmerged, hlist⟩ := mergeLayersFrom_listed hc hvis (mergeLayersOf c) 0 []
    {} rfl hreads
  refine ⟨merged.entries, by rw [hmerged]; rfl, ?_⟩
  rw [hlist, scanned_eq_live hc, liveSlots, liveSlots, Overlay.live_snoc]
  rfl

/-- What a merge lists under a name, whatever the name is. -/
theorem listedAt_cases (hc : c.Sound) (hd : isReservedOverlayPath c d = false)
    (hdsafe : (!d.isEmpty && !isSafeRelativePath d) = false) (n : Name) :
    ∃ entries, mergeDirectoryAcrossLayers c d = .ok entries ∧
      (listedAt entries n = none ∨ isReservedOverlayPath c (d ++ [n]) = false ∧
        listedAt entries n = layersOverlay.look (liveSlots c (d ++ [n]))) := by
  cases hres : isReservedOverlayPath c (d ++ [n]) with
  | true =>
    obtain ⟨entries, hentries, hlist⟩ := merge_unlisted_of_reserved hc hd hdsafe hres
    exact ⟨entries, hentries, .inl hlist⟩
  | false =>
    cases hv : visibleEntryKey d n with
    | none =>
      obtain ⟨entries, hentries, hlist⟩ := merge_unlisted hc hd hdsafe (.inl hv)
      exact ⟨entries, hentries, .inl hlist⟩
    | some key =>
      obtain rfl : n = key := by
        unfold visibleEntryKey at hv
        split at hv
        · cases hv
        · split at hv
          · cases hv
          · simpa using hv
      obtain ⟨entries, hentries, hlist⟩ := merge_listed hc hd hdsafe hv hres
      exact ⟨entries, hentries, .inr ⟨rfl, hlist⟩⟩

/-- The entry a directory merge lists under a name, and the entry a fresh lookup
of the name finds, are the same.  No merge lists `.`. -/
theorem listedAt_eq_shown (hc : c.Sound) (hred : c.NoRedirect)
    (hsafe : isSafeRelativePath (d ++ [n]) = true)
    (hdot : n = ['.'] → (resolvePath c (d ++ [n]) {}).1.found = false) :
    ∃ entries, mergeDirectoryAcrossLayers c d = .ok entries ∧
      listedAt entries n = (resolvePath c (d ++ [n]) {}).1.shown := by
  obtain ⟨hd, hdotdot⟩ := isSafeRelativePath_snoc hsafe
  have hdsafe : (!d.isEmpty && !isSafeRelativePath d) = false := by
    rcases hd with rfl | hd
    · rfl
    · simp [hd]
  by_cases hn : n = ['.']
  · have hnone : (resolvePath c (d ++ [n]) {}).1.shown = none := by
      simp [ResolvedPath.shown, hdot hn]
    rw [hnone]
    cases hresd : isReservedOverlayPath c d with
    | true =>
      unfold mergeDirectoryAcrossLayers mergeDirectoryWithAncestry
      rw [hdsafe, Bool.false_or, if_pos hresd]
      exact ⟨[], rfl, rfl⟩
    | false =>
      exact merge_unlisted hc hresd hdsafe (.inl (by simp [visibleEntryKey, hn]))
  rw [resolvePath_shown hc hred, isResolvablePath, hsafe, Bool.true_and]
  cases hresd : isReservedOverlayPath c d with
  | true =>
    unfold mergeDirectoryAcrossLayers mergeDirectoryWithAncestry
    rw [hdsafe, Bool.false_or, if_pos hresd, isReservedOverlayPath_snoc hresd n]
    exact ⟨[], rfl, rfl⟩
  | false =>
    cases hres : isReservedOverlayPath c (d ++ [n]) with
    | true => exact merge_unlisted_of_reserved hc hresd hdsafe hres
    | false =>
      have hvis : visibleEntryKey d n = some n := by
        have hroot : (d.isEmpty && isReservedRelativePath [n]) = false := by
          cases d with
          | cons x d => rfl
          | nil =>
            rw [List.nil_append] at hres
            simp [not_reserved_at_root hres]
        simp [visibleEntryKey, hn, hdotdot, hroot]
      exact merge_listed hc hresd hdsafe hvis hres

/-- Listing and lookup agree: a directory merge lists a name other than `.` if and only
if a lookup of the name with an empty cache finds an entry, and then both report the
same layer. -/
theorem listed_iff_found (hc : c.Sound) (hred : c.NoRedirect)
    (hsafe : isSafeRelativePath (d ++ [n]) = true) (hn : n ≠ ['.']) :
    ∃ entries, mergeDirectoryAcrossLayers c d = .ok entries ∧
      ((entries.lookup n).isSome = true ↔ (resolvePath c (d ++ [n]) {}).1.found = true) ∧
      ∀ entry, entries.lookup n = some entry →
        entry.source = (resolvePath c (d ++ [n]) {}).1.source ∧
        entry.lowerIndex = (resolvePath c (d ++ [n]) {}).1.lowerIndex := by
  obtain ⟨entries, hentries, hlist⟩ :=
    listedAt_eq_shown hc hred hsafe fun hdot => absurd hdot hn
  refine ⟨entries, hentries, ?_⟩
  rw [listedAt, ResolvedPath.shown] at hlist
  cases hfound : (resolvePath c (d ++ [n]) {}).1.found with
  | false =>
    rw [hfound] at hlist
    have hnone : entries.lookup n = none := by simpa using hlist
    simp [hnone]
  | true =>
    rw [hfound, if_pos rfl] at hlist
    obtain ⟨entry, hentry, hshown⟩ := Option.map_eq_some_iff.mp hlist
    simp only [ShownEntry.mk.injEq] at hshown
    rw [hentry]
    refine ⟨by simp, ?_⟩
    intro entry' heq
    obtain rfl : entry = entry' := by simpa using heq
    exact ⟨hshown.1, hshown.2.1⟩

/-- An upper with `d\\a` and a whiteout for `d\\b`, over a lower with `d\\b` and
`d\\c`. -/
def markedLayers : LayerConfig :=
  configOf [{}]
    (some (.node {} [(['d'], .node {} [(['a'], .leaf (.file 0)),
      (whiteoutName ['b'], .leaf .marker)])]))
    [some (.node {} [(['d'], .node {} [(['b'], .leaf (.file 0)), (['c'], .leaf (.file 0))])])]

theorem listed_iff_found_markedLayers :
    isSafeRelativePath [['d'], ['c']] = true ∧
      ∃ entries, mergeDirectoryAcrossLayers markedLayers [['d']] = .ok entries ∧
        ((entries.lookup ['c']).isSome = true ↔
          (resolvePath markedLayers ([['d']] ++ [['c']]) {}).1.found = true) ∧
        ∀ entry, entries.lookup ['c'] = some entry →
          entry.source = (resolvePath markedLayers ([['d']] ++ [['c']]) {}).1.source ∧
          entry.lowerIndex = (resolvePath markedLayers ([['d']] ++ [['c']]) {}).1.lowerIndex :=
  ⟨by decide, listed_iff_found (sound_ofTrees _ _ _) (noRedirect_ofTrees _ _ _) (by decide)
    (by decide)⟩

/-- A directory `d` alone in the upper. -/
def dottedDirectory : LayerConfig where
  upper := Layer.ofTreeProbed [] (some (.node {} [(['d'], .node {} [])]))
  lowers := []

theorem sound_dottedDirectory : dottedDirectory.Sound where
  readable := by
    intro m hm
    rw [List.mem_singleton.mp hm]
    exact readable_ofTreeProbed
  noStray := by
    intro m hm
    rw [List.mem_singleton.mp hm]
    exact fun p hp => by cases hp

theorem noRedirect_dottedDirectory : dottedDirectory.NoRedirect := by
  intro p e he
  exact noRedirect_ofTrees [] (some (.node {} [(['d'], .node {} [])])) [] _ e he

/-- A lookup of `d\.` finds the directory `d`, and no merge lists `.`. -/
theorem dot_found_not_listed :
    ¬∀ (c : LayerConfig) (d : RelPath) (n : Name), c.Sound → c.NoRedirect →
      isSafeRelativePath (d ++ [n]) = true → (resolvePath c d {}).1.isDirectory = true →
      ∃ entries, mergeDirectoryAcrossLayers c d = .ok entries ∧
        ((entries.lookup n).isSome = true ↔ (resolvePath c (d ++ [n]) {}).1.found = true) := by
  intro h
  obtain ⟨entries, hentries, hiff⟩ := h dottedDirectory [['d']] ['.'] sound_dottedDirectory
    noRedirect_dottedDirectory (by decide) (by decide)
  have hempty : mergeDirectoryAcrossLayers dottedDirectory [['d']] = .ok [] := by decide
  obtain rfl : [] = entries := by simpa [hempty] using hentries
  exact absurd (hiff.mpr (by decide)) (by decide)

end LayerMount
