import LayerMount.CompletedCreate

/-!
# What a tree of the upper shows by itself

A rename puts a tree somewhere else in the upper, and what it shows there must be what the
old place showed.  `shownAlone` is what the view shows at and below a tree of the upper that
no lower reaches.  A place shows that, if the tree hides the lowers or if the lowers hold no
directory there (`viewAt_alone`), and `shownAlone` depends on the entries of the tree only
(`shownAlone_congr`), not on an opaque marker (`shownAlone_mark`) and not on files that are
new (`SameFiles.shownAlone`).
-/

namespace LayerMount

open Lib

variable {files files' : List FileObj} {e f g : Engine} {d p q : RelPath} {n m : Name}

/-! ## Slots below which nothing is -/

/-- A slot that shows nothing at its place and below. -/
def TreeSlot.Idle (s : TreeSlot) : Prop := s.sub = none ∧ s.stop ≠ .link

/-- A slot that shows nothing below its place. -/
def TreeSlot.Barren (s : TreeSlot) : Prop := leadsToDirectory s.sub = false ∧ s.stop ≠ .link

theorem TreeSlot.Barren.child {s : TreeSlot} (h : s.Barren) (n : Name) : (s.child n).Idle := by
  have hsub : childAt s.sub n = none := childAt_of_leads h.1 n
  refine ⟨by rw [child_sub, hsub], ?_⟩
  rw [TreeSlot.child, hsub, slotIn]
  split
  · exact fun hstop => by cases hstop
  · exact h.2

theorem TreeSlot.Idle.barren {s : TreeSlot} (h : s.Idle) : s.Barren :=
  ⟨by rw [h.1]; rfl, h.2⟩

theorem nameShown_barren {s : TreeSlot} {rest : List TreeSlot} (h : ∀ x ∈ rest, x.Barren)
    (n : Name) : nameShown (s :: rest) n = nameShown [s] n := by
  have hany : (rest.any fun x => decide (x.stop = .link)) = false := by
    rw [List.any_eq_false]
    intro x hx
    simpa using (h x hx).2
  simp [nameShown, hany]

theorem descend_single {s : TreeSlot} (hs : s.lowerIndex = none) (n : Name) :
    (treeOverlay files).descend [s] n = [s.child n] := by
  rw [descend_upper hs, lowersUnder, TreeSlot.child, hs]
  split <;> rfl

theorem descend_barren {s : TreeSlot} {rest : List TreeSlot} (h : ∀ x ∈ rest, x.Barren)
    (n : Name) (hs : s.lowerIndex = none) :
    ∃ rest', (treeOverlay files).descend (s :: rest) n = s.child n :: rest' ∧
      ∀ x ∈ rest', x.Idle := by
  refine ⟨lowersUnder s n (childAt s.sub n) rest, ?_, ?_⟩
  · rw [descend_upper hs, TreeSlot.child, hs]
  · intro x hx
    unfold lowersUnder at hx
    split at hx
    · cases hx
    · obtain ⟨y, hy, rfl⟩ := (treeOverlay []).mem_descendFrom hx
      exact (h y hy).child n

/-- Slots that show nothing do not count. -/
theorem showFrom_idle {s : TreeSlot} {rest : List TreeSlot} (hs : s.lowerIndex = none)
    (h : ∀ x ∈ rest, x.Idle) (q : RelPath) :
    showFrom files (s :: rest) q = showFrom files [s] q := by
  induction q generalizing s rest with
  | nil =>
    have hrest : (treeOverlay files).look rest = none := by
      apply Overlay.look_eq_none
      intro x hx
      simp [treeOverlay, (h x hx).1]
    simp only [showFrom, passes, if_true, Overlay.walk_nil, Overlay.look, hrest]
  | cons n q ih =>
    have hbarren : ∀ x ∈ rest, x.Barren := fun x hx => (h x hx).barren
    obtain ⟨rest', hrest, hidle⟩ := @descend_barren files _ _ hbarren n hs
    have hchild : (s.child n).lowerIndex = none := by rw [child_lowerIndex, hs]
    rw [showFrom_cons, showFrom_cons, nameShown_barren hbarren, hrest, descend_single hs,
      ih hchild hidle]

/-- Lowers without a directory at the place show nothing beside the upper's entry. -/
theorem showFrom_barren {s : TreeSlot} {rest : List TreeSlot} (hs : s.lowerIndex = none)
    (hsub : s.sub.isSome = true) (h : ∀ x ∈ rest, x.Barren) (q : RelPath) :
    showFrom files (s :: rest) q = showFrom files [s] q := by
  cases q with
  | nil =>
    obtain ⟨t, ht⟩ := Option.isSome_iff_exists.mp hsub
    simp [showFrom, passes, Overlay.look, treeOverlay, ht]
  | cons n q =>
    obtain ⟨rest', hrest, hidle⟩ := @descend_barren files _ _ h n hs
    have hchild : (s.child n).lowerIndex = none := by rw [child_lowerIndex, hs]
    rw [showFrom_cons, showFrom_cons, nameShown_barren h, hrest, descend_single hs,
      showFrom_idle hchild hidle]

/-! ## A tree by itself -/

/-- What the view shows below a place of the upper that holds `t`, with no lower under it.
`stop` is what the walk to the directory above met. -/
def shownAlone (files : List FileObj) (stop : WalkStop) (t : Tree) (q : RelPath) :
    Option Shown :=
  (showFrom files [slotIn none stop (some t)] q).map TreeEntry.shown

theorem viewAt_below (hp : p ≠ []) (hres : isResolvablePath e.config p = true) (q : RelPath) :
    viewAt e (p ++ q) = (showFrom e.files (slotsAt e p) q).map TreeEntry.shown := by
  rw [viewAt_eq e (by simp [hp]), showAt_below e hp, if_pos hres]

/-- What keeps the lowers from the tree `t` at `d\n` of the upper. -/
def Secluded (e : Engine) (d : RelPath) (n : Name) (t : Tree) : Prop :=
  (treeOverlay []).covers (slotIn none (slotOf e.upper none d).stop (some t)) = true ∨
    ∀ s ∈ (treeOverlay []).descendFrom n true (lowersAt e d), s.Barren

theorem viewAt_alone {t : Tree} (ht : e.upperAt (d ++ [n]) = some t)
    (hres : isResolvablePath e.config (d ++ [n]) = true) (h : Secluded e d n t) (q : RelPath) :
    viewAt e (d ++ [n] ++ q) = shownAlone e.files (slotOf e.upper none d).stop t q := by
  rw [viewAt_below (by simp) hres, slotsAt_snoc, ht, shownAlone]
  have hbarren : ∀ s ∈ lowersUnder (slotOf e.upper none d) n (some t) (lowersAt e d),
      s.Barren := by
    intro s hs
    unfold lowersUnder at hs
    split at hs
    · cases hs
    · rename_i hopen
      rcases h with hcov | hbarren
      · rw [hcov, Bool.true_or] at hopen
        exact absurd rfl hopen
      · exact hbarren s hs
  rw [showFrom_barren (slotIn_lowerIndex _) (by rw [slotIn_sub]; rfl) hbarren]

/-- Below a place of the upper with an entry, the lowers' slots are no links. -/
theorem barren_of_held {s : TreeSlot}
    (hd : (e.upperAt d).isSome = true) (hs : s ∈ (treeOverlay []).descendFrom n true (lowersAt e d))
    (hleads : leadsToDirectory s.sub = false) : s.Barren := by
  refine ⟨hleads, fun hstop => ?_⟩
  have hlow : ∀ x ∈ lowersAt e d, (treeOverlay []).upper x = false := by
    intro x hx
    obtain ⟨i, rfl⟩ := mem_lowersAt hx
    simp [treeOverlay]
  have hlink := Overlay.not_link_of_held hlow hs
  obtain ⟨y, hy, rfl⟩ := (treeOverlay []).mem_descendFrom hs
  have hy' : y.stop ≠ .link := stop_of_mem_lowersAt hy hd
  change (y.child n).stop = .link at hstop
  change (y.child n).link = false at hlink
  rw [TreeSlot.child, slotIn] at hstop hlink
  split at hstop
  · rename_i hnone
    rw [if_pos hnone] at hlink
    have hk : placeKind (childAt y.sub n) ≠ .link := by simpa using hlink
    cases hkind : placeKind (childAt y.sub n) <;> simp_all [walkStopAt]
  · exact hy' hstop

/-- Where the lowers show no directory, none is under the upper's entry. -/
theorem secluded_of_lower {t : Tree} (hd : (e.upperAt d).isSome = true)
    (hres : isResolvablePath e.config (d ++ [n]) = true)
    (h : (resolveLowerPath e.config (d ++ [n])).found = true →
      resolvedKind e (resolveLowerPath e.config (d ++ [n])) ≠ .directory) :
    Secluded e d n t := by
  refine .inr fun s hs => barren_of_held hd hs ?_
  have hmem : s ∈ lowersOf e d n := mem_descendFrom_held hs
  rw [resolveLowerPath_eq, if_pos hres] at h
  cases hlook : (treeOverlay e.files).look (lowersOf e d n) with
  | none => rw [sub_eq_none_of_look hlook s hmem]; rfl
  | some x =>
    have hpair : (lowersOf e d n).Pairwise fun s _ => (treeOverlay e.files).covers s = false := by
      rw [lowersOf, descendFrom_files [] e.files]
      exact Overlay.descendFrom_pairwise _ _ _ _
    obtain ⟨pre, T, post, u, hsplit, hpre, hT, hx⟩ := look_split hlook hpair
    have hTmem : T ∈ lowersOf e d n := by rw [hsplit]; simp
    obtain ⟨i, hplace, hslot⟩ := slot_of_mem_lowersOf hTmem hT hd
    have hidx : x.lowerIndex = some i := by
      have hx' := hx
      simp only [treeOverlay, hT, Option.map_some, Option.some.injEq] at hx'
      rw [← hx', hslot, slotIn_lowerIndex]
    have hfound : (resultOf (d ++ [n]) false (some x)).found = true := by
      simp [resultOf, hitAt, ResolvedPath.found, hidx]
    have hkind : treeKind u ≠ .directory := by
      rw [hlook] at h
      have := h hfound
      rw [resolvedKind, Engine.resolvedAt] at this
      simpa [resultOf, hitAt, hidx, hplace] using this
    -- a file or a link covers what is below it
    have hcov : (treeOverlay e.files).covers T = true := by
      rw [hslot]
      cases hk : treeKind u <;> simp_all [treeOverlay, slotIn, placeKind, walkStopAt]
    have hpost : post = [] := by
      cases post with
      | nil => rfl
      | cons y ys =>
        rw [hsplit, List.pairwise_append, List.pairwise_cons] at hpair
        have := hpair.2.1.1 y (by simp)
        rw [hcov] at this
        cases this
    rw [hsplit, hpost] at hmem
    rcases List.mem_append.mp hmem with hin | hin
    · rw [(hpre s hin).1]; rfl
    · obtain rfl : s = T := by simpa using hin
      rw [hT]
      cases u with
      | leaf v => rfl
      | node v children =>
        -- the only node that is no directory is a link, and no link is under an entry
        have hlow : ∀ x ∈ lowersAt e d, (treeOverlay []).upper x = false := by
          intro x hx
          obtain ⟨i, rfl⟩ := mem_lowersAt hx
          simp [treeOverlay]
        have hlink : s.link = false := Overlay.not_link_of_held hlow hs
        rw [hslot] at hlink
        cases hv : v.link <;> simp_all [slotIn, placeKind, treeKind]

/-! ## What it depends on -/

theorem shownAlone_cons (files : List FileObj) (stop : WalkStop) (t : Tree) (n : Name)
    (q : RelPath) :
    shownAlone files stop t (n :: q)
      = if nameShown [slotIn none stop (some t)] n then
          (showFrom files [slotIn none (slotIn none stop (some t)).stop (childAt (some t) n)]
            q).map TreeEntry.shown
        else none := by
  rw [shownAlone, showFrom_cons, descend_single (slotIn_lowerIndex _), TreeSlot.child, slotIn_sub,
    slotIn_lowerIndex]
  split <;> rfl

/-- The opaque markers change the directory's stream and the child with the marker's name. -/
theorem markOpaqueNode_node (v : DirNode) (children : List (Name × Tree)) :
    ∃ children', WhiteoutManager.markOpaqueNode (.node v children)
        = .node { v with opaqueStream := true } children' ∧
      ∀ n, childAt (some (.node { v with opaqueStream := true } children')) n
          = childAt (some (.node v children)) n ∨
        n = kOpaqueMarkerFile ∧
          childAt (some (.node { v with opaqueStream := true } children')) n
            = some (.leaf .marker) := by
  rw [WhiteoutManager.markOpaqueNode]
  split
  · refine ⟨_, rfl, fun n => ?_⟩
    by_cases hn : n = kOpaqueMarkerFile
    · subst hn
      refine .inr ⟨rfl, ?_⟩
      rw [childAt, placeAt, if_neg (by decide), PathTree.sub_cons, PathTree.sub_nil]
      exact PathTree.child_setChild_self kOpaqueMarkerFile (some (.leaf Leaf.marker))
    · have hchild := PathTree.child_setChild_ne hn (some (.leaf Leaf.marker))
        (.node { v with opaqueStream := true } children)
      left
      rw [childAt, childAt, placeAt, placeAt, PathTree.sub_cons, PathTree.sub_cons,
        PathTree.sub_nil, PathTree.sub_nil]
      exact congrArg _ hchild
  · exact ⟨children, rfl, fun n => .inl rfl⟩

theorem treeKind_mark {v : DirNode} {children : List (Name × Tree)} (h : v.link = false) :
    treeKind (WhiteoutManager.markOpaqueNode (.node v children)) = .directory := by
  obtain ⟨children', hmark, -⟩ := markOpaqueNode_node v children
  simp [hmark, treeKind, h]

theorem holdsOpaquePlace_mark (v : DirNode) (children : List (Name × Tree)) :
    holdsOpaquePlace (some (WhiteoutManager.markOpaqueNode (.node v children))) = true := by
  obtain ⟨children', hmark, -⟩ := markOpaqueNode_node v children
  simp [hmark, holdsOpaquePlace]

theorem namesBelow_mark {k : Nat} {v : DirNode} {children : List (Name × Tree)}
    (h : NamesBelow k (some (.node v children))) :
    NamesBelow k (some (WhiteoutManager.markOpaqueNode (.node v children))) := by
  obtain ⟨children', hmark, hchild⟩ := markOpaqueNode_node v children
  rw [hmark]
  intro r id hid
  cases r with
  | nil => cases hid
  | cons n r =>
    rw [entryAt_cons] at hid
    rcases hchild n with hsame | ⟨-, hmarker⟩
    · rw [hsame, ← entryAt_cons] at hid
      exact h _ id hid
    · rw [hmarker] at hid
      cases r with
      | nil => cases hid
      | cons m r =>
        rw [entryAt_cons, childAt_leaf, entryAt, placeAt_none] at hid
        cases hid

/-- The opaque marker in a directory is no entry of the view. -/
theorem shownAlone_mark (files : List FileObj) {v : DirNode} {children : List (Name × Tree)}
    (hlink : v.link = false) (q : RelPath) :
    shownAlone files .none (WhiteoutManager.markOpaqueNode (.node v children)) q
      = shownAlone files .none (.node v children) q := by
  obtain ⟨children', hmark, hchild⟩ := markOpaqueNode_node v children
  have hstop : ∀ (w : DirNode) (c : List (Name × Tree)), w.link = false →
      slotIn none .none (some (.node w c)) = { lowerIndex := none, sub := some (.node w c) } := by
    intro w c hw
    simp [slotIn, placeKind, treeKind, walkStopAt, hw]
  rw [hmark]
  cases q with
  | nil =>
    rw [shownAlone, shownAlone, hstop _ _ hlink, hstop _ _ (by simpa using hlink)]
    simp [showFrom, passes, Overlay.look, treeOverlay, shownOf, hlink]
  | cons n q =>
    rw [shownAlone_cons, shownAlone_cons, hstop _ _ hlink, hstop _ _ (by simpa using hlink)]
    by_cases hn : n = kOpaqueMarkerFile
    · subst hn
      simp [nameShown]
    · rw [(hchild n).resolve_right fun h => hn h.1]
      rfl

/-- Two trees with the same entries show the same. -/
theorem shownAlone_congr {stop : WalkStop} {t t' : Tree}
    (h : ∀ r, entryAt (some t') r = entryAt (some t) r) (q : RelPath) :
    shownAlone files stop t' q = shownAlone files stop t q := by
  have hroot : (some t').map PathTree.entry = (some t).map PathTree.entry := by
    have := h []
    rwa [entryAt, entryAt, placeAt_nil, placeAt_nil] at this
  have hkind : placeKind (some t') = placeKind (some t) := (@node_congr files _ _ hroot).1
  have hagree : AgreeAlong TreeEntry.shown files files q (slotIn none stop (some t'))
      (slotIn none stop (some t)) := by
    refine agreeAlong_of_reads (by simp) ?_ ?_ fun x _ => by
      rw [slotIn_sub, slotIn_sub]
      exact h x
    · rw [slotIn, slotIn, hkind]
      split <;> rfl
    · rw [slotIn, slotIn, hkind]
      split <;> rfl
  exact (agreeAlong_showsSame TreeEntry.shown files files).showFrom
    (List.Forall₂.cons hagree List.Forall₂.nil)

theorem SameFiles.shownAlone {k : Nat} (h : SameFiles k files files') {t : Tree}
    (ht : NamesBelow k (some t)) (stop : WalkStop) (q : RelPath) :
    shownAlone files' stop t q = shownAlone files stop t q := by
  have hagree : AgreeAlong TreeEntry.shown files files' q (slotIn none stop (some t))
      (slotIn none stop (some t)) := h.agreeAlong (by rwa [slotIn_sub]) q
  exact ((agreeAlong_showsSame TreeEntry.shown files files').showFrom
    (List.Forall₂.cons hagree List.Forall₂.nil)).symm

/-- Files that are new do not change the ones that were there. -/
theorem sameFiles_of_append (he : e.Wf) (h : e.files <+: files') :
    SameFiles e.files.length e.files files' := by
  obtain ⟨news, rfl⟩ := h
  have hat : ∀ id, id < e.files.length → fileAt (e.files ++ news) id = fileAt e.files id := by
    intro id hid
    rw [fileAt, fileAt, List.getD_eq_getElem?_getD, List.getD_eq_getElem?_getD,
      List.getElem?_append_left hid]
  intro id hid
  refine ⟨(hat id hid).symm, ?_⟩
  rw [logicalData, logicalData, hat id hid]
  cases horigin : (fileAt e.files id).metacopy with
  | none => rfl
  | some origin =>
    have hmem : fileAt e.files id ∈ e.files := by
      rw [fileAt, List.getD_eq_getElem?_getD, List.getElem?_eq_getElem hid]
      exact List.getElem_mem hid
    simp only [hat origin.file (he.origins _ hmem origin horigin)]

end LayerMount
