import LayerMount.Lib.Overlay
import LayerMount.Ancestry
import LayerMount.DirectoryMerge

/-!
# The merged view

The layers of a mount are an overlay of trees (`layersOverlay`).  The overlay's
`live` slots of a directory are the layers that the directory merge scans
(`scanned_eq_live`), and the first link of the view is a link among them
(`isInLinkTarget_iff`).  Below a link only the link's own layer holds anything.

The results are about layers whose probes answer and whose sidecar store has no
record for an entry that is gone.  The resolver's half is `LayerMount.Resolution`,
the directory merge's half is `LayerMount.Listing`.
-/

namespace LayerMount

open Lib

/-! ## The overlay of the layers -/

/-- A place in one layer.  `lowerIndex` is `none` for the upper. -/
structure LayerSlot where
  layer : Layer
  lowerIndex : Option Nat
  path : RelPath

/-- What the view shows at a path: the entry's layer and its attributes. -/
structure ShownEntry where
  source : LayerSource
  lowerIndex : Option Nat
  attributes : Attributes
  deriving DecidableEq, Repr

def LayerSlot.source (s : LayerSlot) : LayerSource :=
  if s.lowerIndex.isNone then .upper else .lower

def layersOverlay : Overlay LayerSlot Name ShownEntry where
  entry s :=
    match s.layer.get s.path with
    | .entry e => some ⟨s.source, s.lowerIndex, e.attributes⟩
    | _ => none
  child s n := { s with path := s.path ++ [n] }
  whites s n := hasWhiteout s.layer (s.path ++ [n])
  covers s := coversAt s.layer s.path
  link s := (walkToFirstNonDirectory s.layer s.path).stop = .link &&
    (walkToFirstNonDirectory s.layer s.path).component = s.path
  upper s := s.lowerIndex.isNone

def slotAt (d : RelPath) (m : MergeLayer) : LayerSlot := ⟨m.layer, m.lowerIndex, d⟩

def stackOf (c : LayerConfig) : List LayerSlot := (mergeLayersOf c).map (slotAt [])

/-- The slots of a path in the mounted layers. -/
def liveSlots (c : LayerConfig) (p : RelPath) : List LayerSlot :=
  layersOverlay.live (stackOf c) p

/-- Every probe answers, and no sidecar record outlives its entry. -/
structure LayerConfig.Sound (c : LayerConfig) : Prop where
  readable : ∀ m ∈ mergeLayersOf c, m.layer.Readable
  noStray : ∀ m ∈ mergeLayersOf c, m.layer.NoStraySidecar

variable {c : LayerConfig} {d p : RelPath} {n : Name}

/-! ## The layers of a merge -/

theorem mergeLowersFrom_split {k : Nat} {lowers : List Layer} {pre rest : List MergeLayer}
    {m : MergeLayer} (h : mergeLowersFrom k lowers = pre ++ m :: rest) :
    m.source = .lower ∧ m.lowerIndex = some (k + pre.length) ∧
      pre.map MergeLayer.layer = lowers.take pre.length := by
  induction lowers generalizing k pre with
  | nil => simp [mergeLowersFrom] at h
  | cons l lowers ih =>
    cases pre with
    | nil =>
      simp only [mergeLowersFrom, List.nil_append, List.cons.injEq] at h
      obtain ⟨rfl, -⟩ := h
      simp
    | cons m' pre =>
      simp only [mergeLowersFrom, List.cons_append, List.cons.injEq] at h
      obtain ⟨rfl, h⟩ := h
      obtain ⟨hsource, hidx, htake⟩ := ih h
      refine ⟨hsource, ?_, ?_⟩
      · rw [hidx, List.length_cons]
        congr 1
        omega
      · simp [htake]

/-- A layer of the merge is the upper, with nothing above it, or a lower whose
index says what is above it. -/
theorem mergeLayersOf_split {pre rest : List MergeLayer} {m : MergeLayer}
    (h : mergeLayersOf c = pre ++ m :: rest) :
    (pre = [] ∧ m.source = .upper ∧ m.lowerIndex = none) ∨
      ∃ i, m.source = .lower ∧ m.lowerIndex = some i ∧
        ∀ p, higherLayerHoldsEntry c i p
          = pre.any fun m' => holdsEntryInLayer m'.layer p := by
  cases pre with
  | nil =>
    simp only [mergeLayersOf, List.nil_append, List.cons.injEq] at h
    obtain ⟨rfl, -⟩ := h
    exact .inl ⟨rfl, rfl, rfl⟩
  | cons m' pre =>
    simp only [mergeLayersOf, List.cons_append, List.cons.injEq] at h
    obtain ⟨rfl, h⟩ := h
    obtain ⟨hsource, hidx, htake⟩ := mergeLowersFrom_split h
    refine .inr ⟨0 + pre.length, hsource, hidx, ?_⟩
    intro p
    rw [higherLayerHoldsEntry, Nat.zero_add, ← htake, List.any_cons, List.any_map]
    rfl

theorem layer_mem_of_mem_mergeLowersFrom {i : Nat} {lowers : List Layer} {m : MergeLayer}
    (h : m ∈ mergeLowersFrom i lowers) : m.layer ∈ lowers := by
  induction lowers generalizing i with
  | nil => simp [mergeLowersFrom] at h
  | cons l rest ih =>
    rw [mergeLowersFrom, List.mem_cons] at h
    rcases h with rfl | h
    · simp
    · exact List.mem_cons_of_mem _ (ih h)

theorem mem_mergeLowersFrom_of_layer {lowers : List Layer} {l : Layer} (i : Nat)
    (h : l ∈ lowers) : ∃ m ∈ mergeLowersFrom i lowers, m.layer = l := by
  induction lowers generalizing i with
  | nil => simp at h
  | cons l' rest ih =>
    rcases List.mem_cons.mp h with rfl | h
    · exact ⟨_, List.mem_cons_self, rfl⟩
    · obtain ⟨m, hm, heq⟩ := ih (i + 1) h
      exact ⟨m, List.mem_cons_of_mem _ hm, heq⟩

theorem LayerConfig.Sound.lower_readable (hc : c.Sound) (l : Layer) (hl : l ∈ c.lowers) :
    l.Readable := by
  obtain ⟨m, hm, rfl⟩ := mem_mergeLowersFrom_of_layer 0 hl
  exact hc.readable m (List.mem_cons_of_mem _ hm)

/-- The layers that a merge of `d` scans, from a list of candidates. -/
def scannedFrom (c : LayerConfig) (d : RelPath) : List MergeLayer → List MergeLayer
  | [] => []
  | m :: rest =>
    if hidesLayerAndBelow m (layerAncestryOf c m.layer d m.lowerIndex) then []
    else
      m :: if hidesLayersBelow m (layerAncestryOf c m.layer d m.lowerIndex) then []
        else scannedFrom c d rest

theorem mem_of_mem_scannedFrom {layers : List MergeLayer} {m : MergeLayer}
    (h : m ∈ scannedFrom c d layers) : m ∈ layers := by
  induction layers with
  | nil => simp [scannedFrom] at h
  | cons x rest ih =>
    rw [scannedFrom] at h
    split at h
    · simp at h
    · rw [List.mem_cons] at h
      rcases h with rfl | h
      · simp
      · split at h
        · simp at h
        · exact List.mem_cons_of_mem _ (ih h)

theorem entry_child_isSome (m : MergeLayer) (h : m.layer.Readable) :
    (layersOverlay.entry (layersOverlay.child (slotAt d m) n)).isSome
      = holdsEntryInLayer m.layer (d ++ [n]) := by
  simp only [layersOverlay, slotAt, holdsEntryInLayer]
  cases hget : m.layer.get (d ++ [n]) with
  | missing => simp
  | unreadable => exact absurd hget (h.get _)
  | entry e => simp

theorem link_child (m : MergeLayer) (h : m.layer.Readable) :
    layersOverlay.link (layersOverlay.child (slotAt d m) n) = true ↔
      (walkToFirstNonDirectory m.layer d).stop = .none ∧
        componentKindInLayer m.layer (d ++ [n]) = .link := by
  simp only [layersOverlay, slotAt]
  rw [walk_snoc h]
  by_cases hstop : (walkToFirstNonDirectory m.layer d).stop = .none
  · simp only [hstop, ne_eq, not_true_eq_false, if_false]
    cases hk : componentKindInLayer m.layer (d ++ [n]) <;> simp [walkStopAt]
  · rw [if_pos hstop]
    have hpre := (walk_component h hstop).1
    have hne : (walkToFirstNonDirectory m.layer d).component ≠ d ++ [n] := by
      intro heq
      have hlen := hpre.length_le
      rw [heq, List.length_append, List.length_singleton] at hlen
      omega
    simp [hstop, hne]

/-- What hides the layers below `m` at `d\n`: what does so at `d`, or the entry at
`d\n`, or an upper whiteout for it. -/
theorem hidesLayersBelow_snoc {m : MergeLayer} (hread : m.layer.Readable) :
    hidesLayersBelow m (layerAncestryOf c m.layer (d ++ [n]) m.lowerIndex)
      = (hidesLayersBelow m (layerAncestryOf c m.layer d m.lowerIndex) ||
        (coversAt m.layer (d ++ [n]) ||
          (m.source = .upper && hasWhiteout m.layer (d ++ [n])))) := by
  have hopq := layerAncestryOf_opaque_snoc (c := c) (d := d) (n := n) hread m.lowerIndex
  simp only [hidesLayersBelow, layerAncestryOf_firstNonDirectory,
    layerAncestryOf_whitedOut_snoc hread] at hopq ⊢
  rw [hopq]
  by_cases hne : (walkToFirstNonDirectory m.layer d).stop = .none
  · simp only [hne]
    cases (layerAncestryOf c m.layer d m.lowerIndex).opaqueDir <;>
      cases coversAt m.layer (d ++ [n]) <;> cases decide (m.source = .upper) <;>
      cases (layerAncestryOf c m.layer d m.lowerIndex).whitedOut <;>
      cases hasWhiteout m.layer (d ++ [n]) <;> simp
  · have hcov : coversAt m.layer (d ++ [n]) = true := by
      simp only [coversAt, walk_snoc hread, if_pos hne]
      simp [hne]
    simp [hcov, hne]

/-- What hides `m` itself at `d\n`: what does so at `d`, or, for a lower, the two
reasons of the overlay's descent. -/
theorem hidesLayerAndBelow_snoc {m : MergeLayer} {pre rest : List MergeLayer}
    (hread : m.layer.Readable) (hsplit : mergeLayersOf c = pre ++ m :: rest) :
    hidesLayerAndBelow m (layerAncestryOf c m.layer (d ++ [n]) m.lowerIndex)
      = (hidesLayerAndBelow m (layerAncestryOf c m.layer d m.lowerIndex) ||
        (!layersOverlay.upper (slotAt d m) &&
          (hasWhiteout m.layer (d ++ [n]) ||
            ((pre.any fun m' => holdsEntryInLayer m'.layer (d ++ [n])) &&
              layersOverlay.link (layersOverlay.child (slotAt d m) n))))) := by
  rcases mergeLayersOf_split hsplit with ⟨-, hsource, hidx⟩ | ⟨i, hsource, hidx, hhigher⟩
  · simp [hidesLayerAndBelow, hsource, layersOverlay, slotAt, hidx]
  · have hnotup : layersOverlay.upper (slotAt d m) = false := by
      simp [layersOverlay, slotAt, hidx]
    have hlk := link_child (d := d) (n := n) m hread
    simp only [hidesLayerAndBelow, hsource, decide_true, Bool.true_and, hnotup, Bool.not_false,
      layerAncestryOf_whitedOut_snoc hread, layerAncestryOf_link_snoc hread]
    by_cases hne : (walkToFirstNonDirectory m.layer d).stop = .none
    · -- the walk goes on: no link was met above, and the new entry may be one
      have hnolink : (layerAncestryOf c m.layer d m.lowerIndex).linkUnderHigherEntry = false := by
        rw [hidx, layerAncestryOf_link hread, hasLinkUnderHigherLayerEntry, hne]
        rfl
      have hlink : layersOverlay.link (layersOverlay.child (slotAt d m) n)
          = decide (componentKindInLayer m.layer (d ++ [n]) = .link) := by
        rw [Bool.eq_iff_iff, decide_eq_true_eq, hlk]
        exact ⟨fun hh => hh.2, fun hh => ⟨hne, hh⟩⟩
      rw [if_neg (by simp [hne]), hnolink, hlink, hidx]
      simp only [hhigher]
      rw [Bool.or_false, Bool.or_assoc, Bool.and_comm (decide _)]
    · have hlink : layersOverlay.link (layersOverlay.child (slotAt d m) n) = false := by
        rw [Bool.eq_false_iff, ne_eq, hlk]
        exact fun hh => hne hh.1
      rw [if_pos hne, hlink, Bool.and_false, Bool.or_false, Bool.or_right_comm]

/-- Going down one name takes the scanned layers of the directory to those of
the name, for every tail of the stack. -/
theorem scannedFrom_snoc (hc : c.Sound) (layers : List MergeLayer) :
    ∀ pre, mergeLayersOf c = pre ++ layers →
      (scannedFrom c (d ++ [n]) layers).map (slotAt (d ++ [n]))
        = layersOverlay.descendFrom n
            (pre.any fun m => holdsEntryInLayer m.layer (d ++ [n]))
            ((scannedFrom c d layers).map (slotAt d)) := by
  induction layers with
  | nil => intro pre _; rfl
  | cons m rest ih =>
    intro pre hsplit
    have hmem : m ∈ mergeLayersOf c := by rw [hsplit]; simp
    have hread := hc.readable m hmem
    have hrest := ih (pre ++ [m]) (by rw [hsplit]; simp)
    rw [List.any_append] at hrest
    have hupper : layersOverlay.upper (slotAt d m) = decide (m.source = .upper) := by
      rcases mergeLayersOf_split hsplit with ⟨-, hs, hi⟩ | ⟨i, hs, hi, -⟩ <;>
        simp [layersOverlay, slotAt, hs, hi]
    simp only [scannedFrom, hidesLayerAndBelow_snoc hread hsplit, hidesLayersBelow_snoc hread]
    cases hidesLayerAndBelow m (layerAncestryOf c m.layer d m.lowerIndex) with
    | true => simp
    | false =>
      have hcov : layersOverlay.covers (layersOverlay.child (slotAt d m) n)
          = coversAt m.layer (d ++ [n]) := rfl
      have hwh : layersOverlay.whites (slotAt d m) n = hasWhiteout m.layer (d ++ [n]) := rfl
      simp only [Bool.false_or, Bool.false_eq_true, if_false, List.map_cons,
        Overlay.descendFrom, hcov, hwh]
      split
      · rfl
      · rw [List.map_cons, hupper]
        congr 1
        cases hidesLayersBelow m (layerAncestryOf c m.layer d m.lowerIndex) with
        | true => simp
        | false =>
          simp only [Bool.false_or, Bool.false_eq_true, if_false]
          split
          · rfl
          · rw [hrest, entry_child_isSome m hread]
            simp

theorem scannedFrom_nil (layers : List MergeLayer)
    (h : ∀ m ∈ layers, m.layer.Readable) :
    (scannedFrom c [] layers).map (slotAt []) = layersOverlay.cut (layers.map (slotAt [])) := by
  induction layers with
  | nil => rfl
  | cons m rest ih =>
    have hrest := ih fun m' hm' => h m' (by simp [hm'])
    have hcov : layersOverlay.covers (slotAt [] m) = isOpaqueInLayer m.layer [] := by
      simp [layersOverlay, slotAt, coversAt, walk_nil]
    simp only [scannedFrom, hidesLayerAndBelow, hidesLayersBelow, layerAncestryOf_nil,
      Bool.or_false, Bool.and_false, Bool.false_eq_true, if_false, List.map_cons, Overlay.cut,
      hcov, ne_eq, not_true_eq_false, decide_false]
    split
    · simp
    · rw [hrest]

/-- The layers a merge of `d` scans are the overlay's slots of `d`. -/
theorem scanned_eq_live (hc : c.Sound) (d : RelPath) :
    (scannedFrom c d (mergeLayersOf c)).map (slotAt d) = liveSlots c d := by
  induction d using List.reverseRecOn with
  | nil => exact scannedFrom_nil _ hc.readable
  | append_singleton d n ih =>
    have hstep := scannedFrom_snoc (d := d) (n := n) hc (mergeLayersOf c) [] rfl
    rw [liveSlots, Overlay.live_snoc]
    rw [hstep, ih]
    rfl

/-! ## The first link of the view -/

/-- A link ends the scan at one of the scanned layers. -/
def SlotInLink (s : LayerSlot) : Prop :=
  (walkToFirstNonDirectory s.layer s.path).stop = .link

theorem findLinkInLowers_ne_none_iff :
    ∀ (i : Nat) (lowers : List Layer), (∀ l ∈ lowers, l.Readable) →
      ((findLinkInLowers c d i lowers).stop ≠ .none ↔
        ∃ m ∈ scannedFrom c d (mergeLowersFrom i lowers), SlotInLink (slotAt d m)) := by
  intro i lowers hread
  induction lowers generalizing i with
  | nil => simp [findLinkInLowers, mergeLowersFrom, scannedFrom]
  | cons l rest ih =>
    have hl := hread l (by simp)
    have hrest := ih (i + 1) fun l' hl' => hread l' (by simp [hl'])
    have hends := endsAtLinkOrUnreadable_iff (d := d) hl
    simp only [findLinkInLowers, mergeLowersFrom, scannedFrom, hidesLayerAndBelow,
      hidesLayersBelow, layerAncestryOf_firstNonDirectory, decide_true, Bool.true_and,
      reduceCtorEq, decide_false, Bool.false_and, Bool.or_false]
    split
    · simp
    · by_cases hlink : (walkToFirstNonDirectory l d).stop = .link
      · rw [if_pos (hends.mpr hlink)]
        simp [hlink, linkStopOf, SlotInLink, slotAt]
      · rw [if_neg (fun hh => hlink (hends.mp hh))]
        have hnot : ¬SlotInLink (slotAt d ⟨l, .lower, some i⟩) := hlink
        have hun := walk_stop_ne_unreadable hl d
        have hfile : ((layerAncestryOf c l d (some i)).opaqueDir ||
              decide ((walkToFirstNonDirectory l d).stop = .file))
            = ((layerAncestryOf c l d (some i)).opaqueDir ||
              decide ((walkToFirstNonDirectory l d).stop ≠ .none)) := by
          cases hs : (walkToFirstNonDirectory l d).stop <;> simp_all
        rw [hfile]
        split
        · simp [hnot]
        · simp [hrest, hnot]

/-- The path of a link that the loop over the lowers finds. -/
theorem findLinkInLowers_path :
    ∀ (i : Nat) (lowers : List Layer), (∀ l ∈ lowers, l.Readable) →
      (findLinkInLowers c d i lowers).stop = .link →
      ∃ m ∈ scannedFrom c d (mergeLowersFrom i lowers), SlotInLink (slotAt d m) ∧
        (walkToFirstNonDirectory m.layer d).component = (findLinkInLowers c d i lowers).path := by
  intro i lowers hread
  induction lowers generalizing i with
  | nil => intro h; cases h
  | cons l rest ih =>
    have hl := hread l (by simp)
    have hrest := ih (i + 1) fun l' hl' => hread l' (by simp [hl'])
    have hends := endsAtLinkOrUnreadable_iff (d := d) hl
    simp only [findLinkInLowers, mergeLowersFrom, scannedFrom, hidesLayerAndBelow,
      hidesLayersBelow, layerAncestryOf_firstNonDirectory, decide_true, Bool.true_and,
      reduceCtorEq, decide_false, Bool.false_and, Bool.or_false]
    split
    · intro h; cases h
    · by_cases hlink : (walkToFirstNonDirectory l d).stop = .link
      · rw [if_pos (hends.mpr hlink)]
        exact fun _ => ⟨_, List.mem_cons_self, hlink, rfl⟩
      · rw [if_neg (fun hh => hlink (hends.mp hh))]
        have hun := walk_stop_ne_unreadable hl d
        split
        · intro h; cases h
        · rename_i hopen
          intro h
          obtain ⟨m, hm, hin, hpath⟩ := hrest h
          rw [Bool.or_eq_true, not_or, decide_eq_true_eq] at hopen
          have hnone : (walkToFirstNonDirectory l d).stop = .none := by
            cases hs : (walkToFirstNonDirectory l d).stop <;> simp_all
          rw [if_neg (by simp [hopen.1, hnone])]
          exact ⟨m, List.mem_cons_of_mem _ hm, hin, hpath⟩

/-- A link of the view that a lower holds ends one of the scanned layers. -/
theorem findLinkInView_lower (hc : c.Sound) {link : RelPath}
    (h : findLinkInView c d = ⟨.link, .lower, link⟩) :
    ∃ s ∈ (liveSlots c d).tail, SlotInLink s ∧
      (walkToFirstNonDirectory s.layer d).component = link := by
  have hup := hc.readable ⟨c.upper, .upper, none⟩ (by simp [mergeLayersOf])
  simp only at hup
  rw [findLinkInView] at h
  split at h
  · simp at h
  · rename_i hends
    split at h
    · cases h
    · rename_i hfile
      split at h
      · cases h
      · dsimp only at h
        split at h
        · cases h
        · rename_i hopen
          rw [Bool.or_eq_true, not_or, Bool.not_eq_true, Bool.not_eq_true] at hopen
          have hun := walk_stop_ne_unreadable hup d
          have hlink := (endsAtLinkOrUnreadable_iff (d := d) hup)
          have hnone : (walkToFirstNonDirectory c.upper d).stop = .none := by
            cases hs : (walkToFirstNonDirectory c.upper d).stop <;> simp_all
          obtain ⟨m, hm, hin, hpath⟩ := findLinkInLowers_path 0 c.lowers hc.lower_readable
            (by rw [h])
          refine ⟨slotAt d m, ?_, hin, by rw [h] at hpath; exact hpath⟩
          rw [← scanned_eq_live hc, mergeLayersOf, scannedFrom]
          simp only [hidesLayerAndBelow, hidesLayersBelow, reduceCtorEq, decide_false,
            Bool.false_and, Bool.false_eq_true, if_false, decide_true, Bool.true_and,
            layerAncestryOf_firstNonDirectory, hopen.1, hopen.2, hnone, ne_eq,
            not_true_eq_false, Bool.or_self, List.map_cons, List.tail_cons]
          exact List.mem_map_of_mem hm

/-- `IsInLinkTarget` is the overlay's question whether a link is among the slots
of the directory. -/
theorem isInLinkTarget_iff (hc : c.Sound) (d : RelPath) :
    isInLinkTarget c d = true ↔ ∃ s ∈ liveSlots c d, SlotInLink s := by
  rw [← scanned_eq_live hc]
  have hup := hc.readable ⟨c.upper, .upper, none⟩ (by simp [mergeLayersOf])
  simp only at hup
  have hun := walk_stop_ne_unreadable hup d
  have hloop := findLinkInLowers_ne_none_iff (c := c) (d := d) 0 c.lowers hc.lower_readable
  have hends := endsAtLinkOrUnreadable_iff (d := d) hup
  have hslot : SlotInLink (slotAt d ⟨c.upper, .upper, none⟩) ↔
      (walkToFirstNonDirectory c.upper d).stop = .link := Iff.rfl
  simp only [List.mem_map, exists_exists_and_eq_and]
  rw [isInLinkTarget, decide_eq_true_eq, findLinkInView]
  simp only [mergeLayersOf, scannedFrom, hidesLayerAndBelow, hidesLayersBelow, reduceCtorEq,
    decide_false, Bool.false_and, Bool.false_eq_true, if_false, decide_true, Bool.true_and,
    layerAncestryOf_firstNonDirectory]
  by_cases hlink : (walkToFirstNonDirectory c.upper d).stop = .link
  · rw [if_pos (hends.mpr hlink)]
    simp only [hlink, linkStopOf, ne_eq, reduceCtorEq, not_false_eq_true, true_iff]
    exact ⟨_, List.mem_cons_self, hslot.mpr hlink⟩
  · rw [if_neg (fun hh => hlink (hends.mp hh))]
    have hnot : ¬SlotInLink (slotAt d ⟨c.upper, .upper, none⟩) := fun hh => hlink (hslot.mp hh)
    by_cases hfile : (walkToFirstNonDirectory c.upper d).stop = .file
    · simp [hfile, hnot]
    · rw [if_neg hfile]
      have hnone : (walkToFirstNonDirectory c.upper d).stop = .none := by
        cases hs : (walkToFirstNonDirectory c.upper d).stop <;> simp_all
      simp only [hnone, ne_eq, not_true_eq_false, decide_false, Bool.or_false]
      have hor : ((layerAncestryOf c c.upper d none).whitedOut ||
          (layerAncestryOf c c.upper d none).opaqueDir)
          = ((layerAncestryOf c c.upper d none).opaqueDir ||
            (layerAncestryOf c c.upper d none).whitedOut) := Bool.or_comm _ _
      rw [hor]
      split
      · -- no lower has a link there, so the loop over them finds none
        rename_i hany
        simp only [Bool.not_eq_true', List.any_eq_false] at hany
        simp only [not_true_eq_false, false_iff, not_exists, not_and, List.mem_cons,
          forall_eq_or_imp]
        refine ⟨hnot, ?_⟩
        intro m hm hin
        split at hm
        · simp at hm
        · have hl := layer_mem_of_mem_mergeLowersFrom (mem_of_mem_scannedFrom hm)
          have hread := hc.lower_readable _ hl
          exact hany m.layer hl ((endsAtLinkOrUnreadable_iff hread).mpr hin)
      · split
        · simp [hnot]
        · rw [← ne_eq, hloop]
          simp [hnot]

/-! ## Below a link, only the link's layer counts -/

theorem mem_tail_liveSlots (hc : c.Sound) {s : LayerSlot} (hs : s ∈ (liveSlots c d).tail) :
    layersOverlay.upper s = false := by
  rw [← scanned_eq_live hc, mergeLayersOf, scannedFrom] at hs
  simp only [hidesLayerAndBelow, reduceCtorEq, decide_false, Bool.false_and,
    Bool.false_eq_true, if_false, List.map_cons, List.tail_cons] at hs
  split at hs
  · simp at hs
  · obtain ⟨m, hm, rfl⟩ := List.mem_map.mp hs
    have hm' := mem_of_mem_scannedFrom hm
    obtain ⟨pre, rest, hsplit⟩ := List.append_of_mem hm'
    simp [layersOverlay, slotAt, (mergeLowersFrom_split hsplit).2.1]

theorem SlotInLink.child {s : LayerSlot} (hread : s.layer.Readable) (h : SlotInLink s)
    (n : Name) : SlotInLink (layersOverlay.child s n) := by
  unfold SlotInLink at h ⊢
  simp only [layersOverlay]
  rw [walk_snoc hread, if_pos (by rw [h]; decide)]
  exact h

theorem readable_of_mem_liveSlots (hc : c.Sound) {s : LayerSlot} (hs : s ∈ liveSlots c d) :
    s.layer.Readable ∧ s.path = d := by
  rw [← scanned_eq_live hc] at hs
  obtain ⟨m, hm, rfl⟩ := List.mem_map.mp hs
  exact ⟨hc.readable m (mem_of_mem_scannedFrom hm), rfl⟩

/-- Below a directory where every other slot is missing, the same holds. -/
theorem missing_or_inLink_append (hc : c.Sound) {d₀ : RelPath}
    (h : ∀ s ∈ liveSlots c d₀, SlotInLink s ∨ s.layer.get s.path = .missing) (e : RelPath) :
    ∀ s ∈ liveSlots c (d₀ ++ e), SlotInLink s ∨ s.layer.get s.path = .missing := by
  induction e using List.reverseRecOn with
  | nil => simpa using h
  | append_singleton e n ih =>
    intro s hs
    rw [← List.append_assoc, liveSlots, Overlay.live_snoc] at hs
    obtain ⟨t, ht, rfl⟩ := layersOverlay.mem_descendFrom hs
    have hread := (readable_of_mem_liveSlots hc ht).1
    rcases ih t ht with hl | hm
    · exact .inl (hl.child hread n)
    · exact .inr (get_append_of_missing hm [n])

/-- Where a link ends the view, every other slot holds nothing. -/
theorem missing_or_inLink (hc : c.Sound) (d : RelPath)
    (h : ∃ s ∈ liveSlots c d, SlotInLink s) :
    ∀ s ∈ liveSlots c d, SlotInLink s ∨ s.layer.get s.path = .missing := by
  induction d using List.reverseRecOn with
  | nil =>
    obtain ⟨s, hs, hl⟩ := h
    rw [SlotInLink, (readable_of_mem_liveSlots hc hs).2, walk_nil] at hl
    cases hl
  | append_singleton d n ih =>
    by_cases hd : ∃ s ∈ liveSlots c d, SlotInLink s
    · exact missing_or_inLink_append hc (ih hd) [n]
    · obtain ⟨t, ht, hl⟩ := h
      have htail : ∀ s ∈ (liveSlots c d).tail, layersOverlay.upper s = false :=
        fun s hs => mem_tail_liveSlots hc hs
      rw [liveSlots, Overlay.live_snoc] at ht ⊢
      obtain ⟨s, hs, rfl⟩ := layersOverlay.mem_descendFrom ht
      obtain ⟨hread, hpath⟩ := readable_of_mem_liveSlots hc hs
      -- the link is met here first
      have hnot : (walkToFirstNonDirectory s.layer s.path).stop ≠ .link :=
        fun hh => hd ⟨s, hs, hh⟩
      have hfirst : layersOverlay.link (layersOverlay.child s n) = true := by
        have hsl : s = slotAt s.path ⟨s.layer, .lower, s.lowerIndex⟩ := rfl
        rw [hsl, link_child _ hread]
        rw [SlotInLink] at hl
        simp only [layersOverlay] at hl
        rw [walk_snoc hread] at hl
        split at hl
        · exact absurd hl hnot
        · rename_i hnone
          refine ⟨by simpa using hnone, ?_⟩
          split at hl
          · simp at hl
          · exact walkStopAt_eq_link_iff.mp hl
      have hcovers : ∀ u, layersOverlay.link u = true → layersOverlay.covers u = true := by
        intro u hu
        simp only [layersOverlay, Bool.and_eq_true, decide_eq_true_eq] at hu
        simp [layersOverlay, coversAt, hu.1]
      intro u hu
      rcases layersOverlay.eq_or_entry_none_of_link hcovers htail ht hfirst u hu with rfl | hnone
      · exact .inl hl
      · right
        have hu' : u ∈ liveSlots c (d ++ [n]) := by
          rw [liveSlots, Overlay.live_snoc]
          exact hu
        have hread' := (readable_of_mem_liveSlots hc hu').1
        simp only [layersOverlay] at hnone
        cases hget : u.layer.get u.path with
        | missing => rfl
        | unreadable => exact absurd hget (hread'.get _)
        | entry e => simp [hget] at hnone

end LayerMount
