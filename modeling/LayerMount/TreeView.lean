import LayerMount.Engine
import LayerMount.Listing

/-!
# What the view shows

`viewAt` is the specification of the merged view: the kind of what a lookup with an
empty cache finds, and the content of a file, where an unfilled shell of the upper
counts as its origin.

A place in a tree carries everything a descent below it needs (`TreeSlot`), so
two equal subtrees at two paths have equal slots.  `viewFrom` looks below a list of
slots, and `viewAt_eq_viewFrom` says that a lookup does the same from the roots.
-/

namespace LayerMount

open Lib

/-! ## Slots of trees -/

def placeKind : Place → ComponentKind
  | none => .missing
  | some t =>
    match treeKind t with
    | .file => .file
    | .directory => .directory
    | .link => .link

/-- A place in a layer.  `stop` is where the walk to it stopped. -/
structure TreeSlot where
  /-- The lower, or none for the upper. -/
  lowerIndex : Option Nat
  stop : WalkStop := .none
  /-- The place is the first link on its path. -/
  link : Bool := false
  sub : Place

/-- The slot of a place below a directory where the walk stopped at `stop`. -/
def slotIn (lowerIndex : Option Nat) (stop : WalkStop) (o : Place) : TreeSlot :=
  if stop = .none then
    { lowerIndex, stop := walkStopAt (placeKind o), link := placeKind o = .link, sub := o }
  else { lowerIndex, stop, sub := o }

def TreeSlot.child (s : TreeSlot) (n : Name) : TreeSlot :=
  slotIn s.lowerIndex s.stop (childAt s.sub n)

/-- An opaque marker of a directory. -/
def holdsOpaquePlace : Place → Bool
  | some (.node d children) =>
    d.opaqueStream || (childAt (some (.node d children)) kOpaqueMarkerFile).isSome
  | _ => false

/-! ## Kind and content -/

inductive Shown where
  | file (content : Data)
  | directory
  | link
  deriving DecidableEq, Repr

/-- The logical content of a file: a shell counts as its origin. -/
def logicalData (files : List FileObj) (id : FileId) : Data :=
  match (fileAt files id).metacopy with
  | some origin => (fileAt files origin.file).data
  | none => (fileAt files id).data

/-- The kind and content of an entry.  `record` says that a copy-up record counts. -/
def shownOf (files : List FileObj) (record : Bool) : Tree → Shown
  | .leaf (.file id) =>
    .file (if record then logicalData files id else (fileAt files id).data)
  | .leaf .marker => .file []
  | .leaf .deadLink => .link
  | .node d _ => if d.link then .link else .directory

/-- The merged view: the kind at a path, and the content that a read hands out.  A read takes
the record of a file that is in the upper and not in a link's target, and of no other. -/
def viewAt (e : Engine) (p : RelPath) : Option Shown :=
  let r := (resolvePath e.config p {}).1
  if r.found then
    (e.resolvedAt r).map (shownOf e.files
      (r.source = .upper && findLinkOnPath e.upperLayer p.dropLast = .none))
  else none

/-- What a path shows: the entry's layer, its attributes, its kind and content. -/
structure TreeEntry where
  lowerIndex : Option Nat
  attributes : Attributes
  shown : Shown
  deriving DecidableEq, Repr

def treeOverlay (files : List FileObj) : Overlay TreeSlot Name TreeEntry where
  entry s := s.sub.map fun t =>
    { lowerIndex := s.lowerIndex
      attributes := (layerEntry files t).attributes
      shown := shownOf files (s.lowerIndex.isNone && s.stop ≠ .link) t }
  child := TreeSlot.child
  whites s n := s.stop ≠ .link && (childAt s.sub (whiteoutName n)).isSome
  covers s := s.stop ≠ .none || holdsOpaquePlace s.sub
  link s := s.link
  upper s := s.lowerIndex.isNone

/-- The slot of a path of a layer. -/
def slotOf (o : Place) (lowerIndex : Option Nat) (p : RelPath) : TreeSlot :=
  p.foldl TreeSlot.child { lowerIndex, sub := o }

/-- The slots of the roots of the lowers from index `i` on. -/
def lowerStackFrom (i : Nat) : List Place → List TreeSlot
  | [] => []
  | o :: rest => { lowerIndex := some i, sub := o } :: lowerStackFrom (i + 1) rest

def treeStack (e : Engine) : List TreeSlot :=
  { lowerIndex := none, sub := e.upper } :: lowerStackFrom 0 e.lowers

/-- The slots of a path of the view. -/
def slotsAt (e : Engine) (p : RelPath) : List TreeSlot :=
  (treeOverlay e.files).live (treeStack e) p

variable {files : List FileObj} {o : Place} {idx : Option Nat} {e : Engine}

theorem slotOf_snoc (d : RelPath) (n : Name) :
    slotOf o idx (d ++ [n]) = (slotOf o idx d).child n := by
  simp [slotOf, List.foldl_append]

@[simp] theorem slotIn_sub (stop : WalkStop) : (slotIn idx stop o).sub = o := by
  unfold slotIn
  split <;> rfl

@[simp] theorem slotIn_lowerIndex (stop : WalkStop) : (slotIn idx stop o).lowerIndex = idx := by
  unfold slotIn
  split <;> rfl

@[simp] theorem child_sub (s : TreeSlot) (n : Name) : (s.child n).sub = childAt s.sub n :=
  slotIn_sub s.stop

@[simp] theorem child_lowerIndex (s : TreeSlot) (n : Name) :
    (s.child n).lowerIndex = s.lowerIndex :=
  slotIn_lowerIndex s.stop

@[simp] theorem slotOf_sub (p : RelPath) : (slotOf o idx p).sub = placeAt o p := by
  induction p using List.reverseRecOn with
  | nil => simp [slotOf]
  | append_singleton d n ih => rw [slotOf_snoc, child_sub, ih, placeAt_snoc]

@[simp] theorem slotOf_lowerIndex (p : RelPath) : (slotOf o idx p).lowerIndex = idx := by
  induction p using List.reverseRecOn with
  | nil => rfl
  | append_singleton d n ih => rw [slotOf_snoc, child_lowerIndex, ih]

theorem componentKind_ofTree (p : RelPath) :
    componentKindInLayer (Layer.ofTree files o) p = placeKind (placeAt o p) := by
  rw [componentKindInLayer, get_ofTree]
  cases ht : placeAt o p with
  | none => rfl
  | some t =>
    simp only [probeOf, kind_layerEntry, placeKind]
    cases treeKind t <;> rfl

theorem slotOf_stop (files : List FileObj) (p : RelPath) :
    (slotOf o idx p).stop = (walkToFirstNonDirectory (Layer.ofTree files o) p).stop := by
  induction p using List.reverseRecOn with
  | nil => rfl
  | append_singleton d n ih =>
    rw [slotOf_snoc, walk_snoc readable_ofTree, TreeSlot.child, slotIn, ih]
    by_cases hstop : (walkToFirstNonDirectory (Layer.ofTree files o) d).stop = .none
    · simp only [hstop, if_true, ne_eq, not_true_eq_false, if_false, slotOf_sub,
        componentKind_ofTree, placeAt_snoc]
      split
      · assumption
      · rfl
    · simp [hstop]

theorem slotOf_link (files : List FileObj) (p : RelPath) :
    (slotOf o idx p).link = decide
      ((walkToFirstNonDirectory (Layer.ofTree files o) p).stop = .link ∧
        (walkToFirstNonDirectory (Layer.ofTree files o) p).component = p) := by
  cases p using List.reverseRecOn with
  | nil => simp [slotOf, walk_nil]
  | append_singleton d n =>
    have hlink := link_child (d := d) (n := n) ⟨Layer.ofTree files o, .upper, none⟩
      readable_ofTree
    simp only [layersOverlay, slotAt] at hlink
    rw [Bool.eq_iff_iff, decide_eq_true_eq]
    rw [Bool.and_eq_true, decide_eq_true_eq, decide_eq_true_eq] at hlink
    rw [hlink, slotOf_snoc, TreeSlot.child, slotIn, slotOf_stop files, componentKind_ofTree,
      placeAt_snoc]
    by_cases hstop : (walkToFirstNonDirectory (Layer.ofTree files o) d).stop = .none
    · simp [hstop]
    · simp [hstop]

theorem walk_stop_nil (l : Layer) : (walkToFirstNonDirectory l []).stop = .none := rfl

/-- A walk that did not stop at a path that is there ends at a directory. -/
theorem coversAt_ofTree (p : RelPath) :
    coversAt (Layer.ofTree files o) p = (treeOverlay files).covers (slotOf o idx p) := by
  simp only [coversAt, treeOverlay, slotOf_stop files, slotOf_sub]
  cases p using List.reverseRecOn with
  | nil =>
    simp only [walk_stop_nil, ne_eq, not_true_eq_false, decide_false, Bool.false_or,
      List.isEmpty_nil, if_true, placeAt_nil]
    have hlink : findLinkOnPath (Layer.ofTree files o) [] = .none := rfl
    rw [isOpaqueInLayer, hlink, holdsOpaqueMarker, hasOpaqueMetadata, markerFileExists,
      get_ofTree, get_ofTree]
    cases o with
    | none => rfl
    | some t =>
      cases t with
      | leaf v =>
        have hchild : placeAt (some (.leaf v : Tree)) ([] ++ [kOpaqueMarkerFile]) = none := by
          rw [List.nil_append, placeAt, PathTree.sub_leaf, ite_self]
        rw [hchild]
        cases v <;> rfl
      | node d children =>
        simp only [placeAt_nil, probeOf, layerEntry, holdsOpaquePlace, List.nil_append]
        cases hch : placeAt (some (.node d children : Tree)) [kOpaqueMarkerFile] <;>
          simp [childAt, hch, probeOf, Probe.exists, Layer.ofTree]
  | append_singleton d n =>
    have hne : (d ++ [n]).isEmpty = false := by simp
    rw [hne]
    simp only [Bool.false_eq_true, if_false, componentKind_ofTree]
    by_cases hstop : (walkToFirstNonDirectory (Layer.ofTree files o) (d ++ [n])).stop = .none
    · simp only [hstop, ne_eq, not_true_eq_false, decide_false, Bool.false_or]
      rw [holdsOpaqueMarker, hasOpaqueMetadata, markerFileExists, get_ofTree, get_ofTree,
        placeAt_snoc o (d ++ [n])]
      cases ht : placeAt o (d ++ [n]) with
      | none => simp [placeKind, holdsOpaquePlace]
      | some t =>
        cases t with
        | leaf v => cases v <;> simp [placeKind, treeKind, holdsOpaquePlace]
        | node dn children =>
          have hk : placeKind (some (.node dn children : Tree)) = .directory := by
            -- a link would have stopped the walk
            cases hl : dn.link with
            | false => simp [placeKind, treeKind, hl]
            | true =>
              exfalso
              rw [← @slotOf_stop o none files, slotOf_snoc, TreeSlot.child, slotIn] at hstop
              split at hstop
              · rw [slotOf_sub, ← placeAt_snoc, ht] at hstop
                simp [placeKind, treeKind, hl, walkStopAt] at hstop
              · exact absurd hstop ‹_›
          simp only [hk, decide_true, Bool.true_and, probeOf, layerEntry, holdsOpaquePlace,
            Layer.ofTree, Bool.or_false]
          cases childAt (some (.node dn children : Tree)) kOpaqueMarkerFile <;>
            simp [Probe.exists]
    · simp [hstop]

/-- The tree of a layer, by its lower index. -/
def treeAt (e : Engine) : Option Nat → Place
  | none => e.upper
  | some i => e.lowers.getD i none

/-- A slot of the layers and the slot of the same place in the trees. -/
def Corresponds (e : Engine) (s : LayerSlot) (t : TreeSlot) : Prop :=
  s.layer = Layer.ofTree e.files (treeAt e s.lowerIndex) ∧
    t = slotOf (treeAt e s.lowerIndex) s.lowerIndex s.path

theorem hasWhiteout_ofTree (d : RelPath) (n : Name) :
    hasWhiteout (Layer.ofTree files o) (d ++ [n])
      = (treeOverlay files).whites (slotOf o idx d) n := by
  simp only [treeOverlay, slotOf_stop files, slotOf_sub, hasWhiteout,
    hasWhiteoutUnderWalkedDirectoryInLayer, markerFileExists, getWhiteoutFileName_append,
    List.dropLast_concat, get_ofTree, placeAt_snoc]
  have hnone := findLinkOnPath_eq_none_iff (d := d) (@readable_ofTree files o)
  have hdec : decide (findLinkOnPath (Layer.ofTree files o) d = .none)
      = decide ((walkToFirstNonDirectory (Layer.ofTree files o) d).stop ≠ .link) := by
    rw [decide_eq_decide, hnone]
  rw [hdec]
  cases childAt (placeAt o d) (whiteoutName n) <;> simp [probeOf, Probe.exists]

theorem corresponds_simulates (e : Engine) :
    Overlay.Simulates layersOverlay (treeOverlay e.files) (fun _ => Corresponds e) where
  child := by
    rintro n p s t ⟨hl, rfl⟩
    exact ⟨hl, (slotOf_snoc _ _).symm⟩
  entry := by
    rintro p s t ⟨hl, rfl⟩
    simp only [layersOverlay, treeOverlay, hl, get_ofTree, slotOf_sub]
    cases placeAt (treeAt e s.lowerIndex) s.path <;> simp [probeOf]
  whites := by
    rintro n p s t ⟨hl, rfl⟩
    simp only [layersOverlay, hl]
    exact hasWhiteout_ofTree _ _
  covers := by
    rintro p s t ⟨hl, rfl⟩
    simp only [layersOverlay, hl]
    exact coversAt_ofTree _
  link := by
    rintro p s t ⟨hl, rfl⟩
    simp only [layersOverlay, treeOverlay, hl, slotOf_link e.files, Bool.decide_and]
  upper := by
    rintro p s t ⟨hl, rfl⟩
    simp [layersOverlay, treeOverlay]

/-- The layers of the mount, from lower `i` on, correspond to their trees. -/
theorem corresponds_lowers (e : Engine) (lowers : List Place) (i : Nat)
    (h : ∀ k o, lowers[k]? = some o → e.lowers.getD (i + k) none = o) :
    List.Forall₂ (Corresponds e)
      ((mergeLowersFrom i (lowers.map (Layer.ofTree e.files))).map (slotAt []))
      (lowerStackFrom i lowers) := by
  induction lowers generalizing i with
  | nil => exact .nil
  | cons o rest ih =>
    rw [List.map_cons, mergeLowersFrom, List.map_cons, lowerStackFrom]
    refine .cons ?_ (ih (i + 1) ?_)
    · have ho : e.lowers.getD i none = o := h 0 o rfl
      exact ⟨by rw [slotAt, treeAt, ho], by simp [slotAt, treeAt, slotOf, ← ho]⟩
    · intro k o' hk
      have := h (k + 1) o' (by simpa using hk)
      rw [show i + 1 + k = i + (k + 1) by omega]
      exact this

theorem corresponds_stack (e : Engine) :
    List.Forall₂ (Corresponds e) (stackOf e.config) (treeStack e) := by
  rw [stackOf, mergeLayersOf, List.map_cons, treeStack]
  refine .cons ⟨rfl, rfl⟩ ?_
  apply corresponds_lowers e e.lowers 0
  intro k o hk
  rw [Nat.zero_add, List.getD_eq_getElem?_getD, hk]
  rfl

theorem corresponds_slots (e : Engine) (p : RelPath) :
    List.Forall₂ (Corresponds e) (liveSlots e.config p) (slotsAt e p) :=
  (corresponds_simulates e).live (q := []) p (corresponds_stack e)

/-! ## The target of a link -/

/-- The last slot is in a link's target and the others hold nothing. -/
def InLink (slots : List TreeSlot) : Prop :=
  ∃ pre t, slots = pre ++ [t] ∧ t.stop = .link ∧ ∀ s ∈ pre, s.sub = none ∧ s.stop = .none

theorem InLink.any {slots : List TreeSlot} (h : InLink slots) :
    (slots.any fun s => s.stop = .link) = true := by
  obtain ⟨pre, t, rfl, ht, -⟩ := h
  simp [ht]

theorem child_of_empty {s : TreeSlot} (hsub : s.sub = none) (hstop : s.stop = .none)
    (n : Name) : s.child n = { lowerIndex := s.lowerIndex, sub := none } := by
  simp [TreeSlot.child, slotIn, hsub, hstop, childAt, placeKind, walkStopAt]

theorem InLink.descendFrom {pre : List TreeSlot} {t : TreeSlot} (ht : t.stop = .link)
    (hpre : ∀ s ∈ pre, s.sub = none ∧ s.stop = .none) (n : Name) (held : Bool) :
    (treeOverlay files).descendFrom n held (pre ++ [t])
      = pre.map (fun s => s.child n) ++ [t.child n] := by
  induction pre generalizing held with
  | nil =>
    -- a link's target has no markers, and the link is above
    simp [Overlay.descendFrom, treeOverlay, TreeSlot.child, slotIn, ht]
  | cons s pre ih =>
    obtain ⟨hsub, hstop⟩ := hpre s (by simp)
    have hrest := ih (fun s' hs' => hpre s' (by simp [hs'])) held
    have hchild := child_of_empty hsub hstop n
    rw [List.cons_append, Overlay.descendFrom, List.map_cons, List.cons_append, ← hrest]
    simp [treeOverlay, hchild, hsub, childAt, holdsOpaquePlace]

theorem InLink.descend {slots : List TreeSlot} (h : InLink slots) (n : Name) :
    InLink ((treeOverlay files).descend slots n) := by
  obtain ⟨pre, t, rfl, ht, hpre⟩ := h
  refine ⟨_, _, @InLink.descendFrom files _ _ ht hpre n false, ?_, ?_⟩
  · simp [TreeSlot.child, slotIn, ht]
  · intro s hs
    obtain ⟨s', hs', rfl⟩ := List.mem_map.mp hs
    obtain ⟨hsub, hstop⟩ := hpre s' hs'
    simp [child_of_empty hsub hstop]

theorem InLink.walk {slots : List TreeSlot} (h : InLink slots) (q : RelPath) :
    InLink ((treeOverlay files).walk slots q) := by
  induction q generalizing slots with
  | nil => exact h
  | cons n q ih => exact ih (h.descend n)

theorem covers_of_stop {s : TreeSlot} (h : s.stop ≠ .none) :
    (treeOverlay files).covers s = true := by
  simp [treeOverlay, h]

/-- The slots of a path below a link are in its target. -/
theorem inLink_slotsAt (e : Engine) (d : RelPath)
    (h : ∃ t ∈ slotsAt e d, t.stop = .link) : InLink (slotsAt e d) := by
  obtain ⟨t, ht, hstop⟩ := h
  have hcor := corresponds_slots e d
  have hslot : ∀ t ∈ slotsAt e d, ∃ s ∈ liveSlots e.config d, Corresponds e s t := by
    intro t ht
    obtain ⟨i, hi, rfl⟩ := List.getElem_of_mem ht
    have hlen := hcor.length_eq
    exact ⟨_, List.getElem_mem (by omega), List.forall₂_iff_get.mp hcor |>.2 i (by omega) hi⟩
  have hlink : ∀ {s t}, Corresponds e s t → (SlotInLink s ↔ t.stop = .link) := by
    rintro s t ⟨hl, rfl⟩
    rw [SlotInLink, hl, slotOf_stop e.files]
  have hmissing := missing_or_inLink (sound_ofTrees e.files e.upper e.lowers) d (by
    obtain ⟨s, hs, hst⟩ := hslot t ht
    exact ⟨s, hs, (hlink hst).mpr hstop⟩)
  obtain ⟨pre, post, hsplit⟩ := List.append_of_mem ht
  have hpair := (treeOverlay e.files).live_pairwise (treeStack e) d
  rw [show (treeOverlay e.files).live (treeStack e) d = pre ++ t :: post from hsplit,
    List.pairwise_append] at hpair
  -- a link hides the slots below it, so it is the last one
  obtain rfl : post = [] := by
    cases post with
    | nil => rfl
    | cons u post =>
      have := List.rel_of_pairwise_cons hpair.2.1 (List.mem_cons_self)
      rw [covers_of_stop (by rw [hstop]; decide)] at this
      cases this
  refine ⟨pre, t, hsplit, hstop, ?_⟩
  intro s hs
  have hcov := hpair.2.2 s hs t (by simp)
  have hnone : s.stop = .none := by
    by_contra hne
    rw [covers_of_stop hne] at hcov
    cases hcov
  refine ⟨?_, hnone⟩
  obtain ⟨l, hl, hls⟩ := hslot s (by rw [hsplit]; simp [hs])
  rcases hmissing l hl with hin | hget
  · rw [hlink hls, hnone] at hin
    cases hin
  · obtain ⟨hlayer, rfl⟩ := hls
    rw [slotOf_sub]
    rw [hlayer, get_ofTree] at hget
    by_contra hne
    exact probeOf_ne_missing.mpr (Option.isSome_iff_ne_none.mpr hne) hget

/-! ## Looking below a list of slots -/

/-- A name that a lookup accepts below the slots: a marker's name is one only in a
link's target. -/
def nameShown (slots : List TreeSlot) (n : Name) : Bool :=
  !n.contains ':' && n ≠ ['.', '.'] &&
    (!isWhiteoutName n || slots.any fun s => s.stop = .link)

def passes (files : List FileObj) (slots : List TreeSlot) : RelPath → Bool
  | [] => true
  | n :: q => nameShown slots n && passes files ((treeOverlay files).descend slots n) q

/-- What a path below the slots shows. -/
def showFrom (files : List FileObj) (slots : List TreeSlot) (q : RelPath) : Option TreeEntry :=
  if passes files slots q then (treeOverlay files).look ((treeOverlay files).walk slots q)
  else none

theorem passes_append (slots : List TreeSlot) (p q : RelPath) :
    passes files slots (p ++ q)
      = (passes files slots p && passes files ((treeOverlay files).walk slots p) q) := by
  induction p generalizing slots with
  | nil => simp [passes]
  | cons n p ih => simp [passes, ih, Bool.and_assoc]

theorem passes_snoc (slots : List TreeSlot) (p : RelPath) (n : Name) :
    passes files slots (p ++ [n])
      = (passes files slots p && nameShown ((treeOverlay files).walk slots p) n) := by
  simp [passes_append, passes]

theorem showFrom_append (slots : List TreeSlot) (p q : RelPath) :
    showFrom files slots (p ++ q)
      = if passes files slots p then showFrom files ((treeOverlay files).walk slots p) q
        else none := by
  simp only [showFrom, passes_append, Overlay.walk_append, Bool.and_eq_true]
  split
  · simp_all
  · by_cases hp : passes files slots p = true
    · simp_all
    · simp [hp]

/-- What a path of the view shows. -/
def showAt (e : Engine) (p : RelPath) : Option TreeEntry :=
  if isRootSidecarPath p then none
  else showFrom e.files ((treeOverlay e.files).cut (treeStack e)) p

end LayerMount
