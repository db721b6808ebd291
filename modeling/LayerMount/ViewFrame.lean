import LayerMount.ViewLookup

/-!
# What a path of the view depends on

A lookup of `r` reads few places of the upper: the components of `r`, the markers
beside them, and the opaque marker files in them (`Reads`).  Slots that agree on
these show the same along `r` (`agreeAlong_of_reads`), so a change at any other
place is not seen there.

Agreement is up to a projection `f` of what is shown: all of it, for a lookup's
result, or its kind and content, for the view.
-/

namespace LayerMount

open Lib

variable {V : Type} {f : TreeEntry → V} {files files' : List FileObj}

/-! ## Slots that show the same -/

/-- Corresponding slots show the same up to `f`. -/
structure ShowsSame (f : TreeEntry → V) (files files' : List FileObj)
    (R : RelPath → TreeSlot → TreeSlot → Prop) : Prop
    extends Overlay.Simulates (treeOverlay files) (treeOverlay files') R where
  stop : ∀ {p s t}, R p s t → s.stop = t.stop
  shown : ∀ {s t}, R [] s t →
    ((treeOverlay files).entry s).map f = ((treeOverlay files').entry t).map f

theorem ShowsSame.nameShown {R : RelPath → TreeSlot → TreeSlot → Prop}
    (hR : ShowsSame f files files' R) {p : RelPath} {slots slots' : List TreeSlot}
    (h : List.Forall₂ (R p) slots slots') (n : Name) :
    nameShown slots n = nameShown slots' n := by
  have hany : (slots.any fun s => s.stop = .link) = slots'.any fun s => s.stop = .link := by
    induction h with
    | nil => rfl
    | cons hst _ ih => rw [List.any_cons, List.any_cons, ih, hR.stop hst]
  rw [LayerMount.nameShown, LayerMount.nameShown, hany]

theorem ShowsSame.passes {R : RelPath → TreeSlot → TreeSlot → Prop}
    (hR : ShowsSame f files files' R) {r : RelPath} {slots slots' : List TreeSlot}
    (h : List.Forall₂ (R r) slots slots') :
    passes files slots r = passes files' slots' r := by
  induction r generalizing slots slots' with
  | nil => rfl
  | cons n r ih =>
    rw [LayerMount.passes, LayerMount.passes, hR.nameShown h n, Overlay.descend,
      Overlay.descend, ih (hR.descendFrom h false)]

theorem ShowsSame.showFrom {R : RelPath → TreeSlot → TreeSlot → Prop}
    (hR : ShowsSame f files files' R) {r : RelPath} {slots slots' : List TreeSlot}
    (h : List.Forall₂ (R r) slots slots') :
    (showFrom files slots r).map f = (showFrom files' slots' r).map f := by
  rw [LayerMount.showFrom, LayerMount.showFrom, hR.passes h]
  split
  · apply hR.look_map (p := []) hR.shown
    exact hR.walk (q := []) r (by simpa using h)
  · rfl

/-! ## Slots that agree along a path -/

structure SameSlot (f : TreeEntry → V) (files files' : List FileObj) (s s' : TreeSlot) :
    Prop where
  lowerIndex : s.lowerIndex = s'.lowerIndex
  stop : s.stop = s'.stop
  link : s.link = s'.link
  entry : ((treeOverlay files).entry s).map f = ((treeOverlay files').entry s').map f
  covers : (treeOverlay files).covers s = (treeOverlay files').covers s'

def AgreeAlong (f : TreeEntry → V) (files files' : List FileObj) :
    RelPath → TreeSlot → TreeSlot → Prop
  | [], s, s' => SameSlot f files files' s s'
  | n :: r, s, s' => SameSlot f files files' s s' ∧
      (treeOverlay files).whites s n = (treeOverlay files').whites s' n ∧
      AgreeAlong f files files' r (s.child n) (s'.child n)

theorem AgreeAlong.same {r : RelPath} {s s' : TreeSlot} (h : AgreeAlong f files files' r s s') :
    SameSlot f files files' s s' := by
  cases r with
  | nil => exact h
  | cons n r => exact h.1

theorem AgreeAlong.refl (r : RelPath) (s : TreeSlot) : AgreeAlong f files files r s s := by
  induction r generalizing s with
  | nil => exact ⟨rfl, rfl, rfl, rfl, rfl⟩
  | cons n r ih => exact ⟨⟨rfl, rfl, rfl, rfl, rfl⟩, rfl, ih (s.child n)⟩

theorem AgreeAlong.trans {files'' : List FileObj} {r : RelPath} {s s' s'' : TreeSlot}
    (h : AgreeAlong f files files' r s s') (h' : AgreeAlong f files' files'' r s' s'') :
    AgreeAlong f files files'' r s s'' := by
  have hsame : ∀ {s s' s''}, SameSlot f files files' s s' → SameSlot f files' files'' s' s'' →
      SameSlot f files files'' s s'' := fun h h' =>
    ⟨h.lowerIndex.trans h'.lowerIndex, h.stop.trans h'.stop, h.link.trans h'.link,
      h.entry.trans h'.entry, h.covers.trans h'.covers⟩
  induction r generalizing s s' s'' with
  | nil => exact hsame h h'
  | cons n r ih =>
    exact ⟨hsame h.1 h'.1, h.2.1.trans h'.2.1, ih h.2.2 h'.2.2⟩

theorem agreeAlong_showsSame (f : TreeEntry → V) (files files' : List FileObj) :
    ShowsSame f files files' (AgreeAlong f files files') where
  child h := h.2.2
  entry h := by simpa using congrArg Option.isSome h.same.entry
  whites h := h.2.1
  covers h := h.same.covers
  link h := h.same.link
  upper h := by
    have := h.same.lowerIndex
    simp [treeOverlay, this]
  stop h := h.same.stop
  shown h := h.same.entry

theorem AgreeAlong.whitesAlong {r : RelPath} {s s' : TreeSlot}
    (h : AgreeAlong f files files' r s s') : whitesAlong s r = whitesAlong s' r := by
  induction r generalizing s s' with
  | nil => rfl
  | cons n r ih =>
    have hw : (treeOverlay []).whites s n = (treeOverlay []).whites s' n := h.2.1
    rw [LayerMount.whitesAlong, LayerMount.whitesAlong, hw, ih h.2.2]

/-! ## Mounts that agree along a path -/

def rootSlot (e : Engine) : TreeSlot := { lowerIndex := none, sub := e.upper }

/-- The mounts agree along `r`, layer by layer. -/
def SameAlong (f : TreeEntry → V) (e e' : Engine) (r : RelPath) : Prop :=
  List.Forall₂ (AgreeAlong f e.files e'.files r) (treeStack e) (treeStack e')

variable {e e' : Engine} {r : RelPath}

theorem SameAlong.showAt (h : SameAlong f e e' r) :
    (showAt e r).map f = (showAt e' r).map f := by
  have hsim := agreeAlong_showsSame f e.files e'.files
  rw [LayerMount.showAt, LayerMount.showAt]
  split
  · rfl
  · exact hsim.showFrom (hsim.cut h)

theorem SameAlong.isResolvablePath (h : SameAlong f e e' r) (hr : r ≠ []) :
    isResolvablePath e.config r = isResolvablePath e'.config r := by
  have hsim := agreeAlong_showsSame f e.files e'.files
  rw [isResolvablePath_eq e hr, isResolvablePath_eq e' hr, hsim.passes (hsim.cut h)]

/-- Whether a lookup accepts a name depends on its directory only. -/
theorem SameAlong.isResolvablePath_snoc {d : RelPath} (h : SameAlong f e e' d) (n : Name) :
    LayerMount.isResolvablePath e.config (d ++ [n])
      = LayerMount.isResolvablePath e'.config (d ++ [n]) := by
  have hsim := agreeAlong_showsSame f e.files e'.files
  have hwalk := hsim.walk (q := []) d (by simpa using hsim.cut h)
  rw [isResolvablePath_eq e (by simp), isResolvablePath_eq e' (by simp), passes_snoc, passes_snoc,
    hsim.passes (hsim.cut h), hsim.nameShown hwalk]

theorem SameAlong.whitedOut (h : SameAlong f e e' r) :
    whitedOut e.config r = whitedOut e'.config r := by
  rw [whitedOut_eq, whitedOut_eq]
  rw [SameAlong, treeStack, treeStack, List.forall₂_cons] at h
  exact h.1.whitesAlong

theorem SameAlong.resolvePath (h : SameAlong id e e' r) (hr : r ≠ []) :
    (resolvePath e.config r {}).1 = (resolvePath e'.config r {}).1 := by
  have hshow := h.showAt
  rw [Option.map_id, id, id] at hshow
  rw [resolvePath_eq e hr, resolvePath_eq e' hr, hshow, h.isResolvablePath hr, h.whitedOut]

theorem SameAlong.viewAt (h : SameAlong TreeEntry.shown e e' r) (hr : r ≠ []) :
    viewAt e r = viewAt e' r := by
  rw [viewAt_eq e hr, viewAt_eq e' hr, h.showAt]

/-- A change of the upper alone. -/
theorem sameAlong_of_upper {o : Place} {g : Engine} (hlow : g.lowers = e.lowers)
    (hfiles : g.files = e.files) (hup : g.upper = o)
    (h : AgreeAlong f e.files e.files r { lowerIndex := none, sub := e.upper }
      { lowerIndex := none, sub := o }) : SameAlong f e g r := by
  rw [SameAlong, treeStack, treeStack, hfiles, hup, hlow]
  exact .cons h (List.forall₂_same.mpr fun s _ => AgreeAlong.refl r s)

/-! ## The places that a path reads -/

/-- The entry of the place `x` decides what the path `r` below the slot shows. -/
def Reads (s : TreeSlot) : RelPath → RelPath → Prop
  | [], x => x = [] ∨ s.stop = .none ∧ x = [kOpaqueMarkerFile]
  | n :: r, x => (x = [] ∨ s.stop = .none ∧ x = [kOpaqueMarkerFile]) ∨
      s.stop ≠ .link ∧ x = [whiteoutName n] ∨ ∃ y, x = n :: y ∧ Reads (s.child n) r y

theorem Reads.self (s : TreeSlot) (r : RelPath) : Reads s r [] := by
  cases r with
  | nil => exact .inl rfl
  | cons n r => exact .inl (.inl rfl)

theorem Reads.marker {s : TreeSlot} (h : s.stop = .none) (r : RelPath) :
    Reads s r [kOpaqueMarkerFile] := by
  cases r with
  | nil => exact .inr ⟨h, rfl⟩
  | cons n r => exact .inl (.inr ⟨h, rfl⟩)

/-- What a path reads is on it, or a marker beside one of its components, or an
opaque marker file in one of them.  Markers in a link's target are not read. -/
theorem Reads.cases {s : TreeSlot} {r x : RelPath} (h : Reads s r x) :
    x <+: r ∨
      (∃ c m, c ++ [m] <+: r ∧ x = c ++ [whiteoutName m] ∧
        (c.foldl TreeSlot.child s).stop ≠ .link) ∨
      ∃ c, c <+: r ∧ x = c ++ [kOpaqueMarkerFile] ∧ (c.foldl TreeSlot.child s).stop = .none := by
  induction r generalizing s x with
  | nil =>
    rcases h with rfl | ⟨hstop, rfl⟩
    · exact .inl List.nil_prefix
    · exact .inr (.inr ⟨[], List.nil_prefix, rfl, hstop⟩)
  | cons n r ih =>
    rcases h with (rfl | ⟨hstop, rfl⟩) | ⟨hstop, rfl⟩ | ⟨y, rfl, hy⟩
    · exact .inl List.nil_prefix
    · exact .inr (.inr ⟨[], List.nil_prefix, rfl, hstop⟩)
    · exact .inr (.inl ⟨[], n, by simp, rfl, hstop⟩)
    · rcases ih hy with hpre | ⟨c, m, hpre, rfl, hstop⟩ | ⟨c, hpre, rfl, hstop⟩
      · exact .inl (List.cons_prefix_cons.mpr ⟨rfl, hpre⟩)
      · exact .inr (.inl ⟨n :: c, m, List.cons_prefix_cons.mpr ⟨rfl, hpre⟩, rfl, hstop⟩)
      · exact .inr (.inr ⟨n :: c, List.cons_prefix_cons.mpr ⟨rfl, hpre⟩, rfl, hstop⟩)

/-- The entry at a path of a layer, without what is below. -/
def entryAt (o : Place) (p : RelPath) : Option (Leaf ⊕ DirNode) :=
  (placeAt o p).map PathTree.entry

theorem entryAt_cons (o : Place) (n : Name) (p : RelPath) :
    entryAt o (n :: p) = entryAt (childAt o n) p := by
  rw [entryAt, entryAt, placeAt_cons]

theorem isSome_entryAt (o : Place) (p : RelPath) :
    (entryAt o p).isSome = (placeAt o p).isSome := by
  simp [entryAt]

/-- A removal that fails takes entries away and changes none. -/
theorem entryAt_partlyRemoved (host : UpperHost) (t : Tree) (p : RelPath) :
    entryAt (some (partlyRemoved host t)) p = none ∨
      entryAt (some (partlyRemoved host t)) p = entryAt (some t) p := by
  rw [entryAt, entryAt, placeAt, placeAt]
  split
  · exact .inl rfl
  · exact PathTree.entryAt_prune _ _ t p

/-- Everything a probe sees of an entry is in its node. -/
theorem node_congr {o o' : Place} (h : o.map PathTree.entry = o'.map PathTree.entry) :
    placeKind o = placeKind o' ∧
      ∀ record, o.map (fun t => ((layerEntry files t).attributes, shownOf files record t))
        = o'.map fun t => ((layerEntry files t).attributes, shownOf files record t) := by
  cases o with
  | none =>
    cases o' with
    | none => exact ⟨rfl, fun _ => rfl⟩
    | some t' => cases h
  | some t =>
    cases o' with
    | none => cases h
    | some t' =>
      cases t with
      | leaf v =>
        cases t' with
        | leaf v' =>
          obtain rfl : v = v' := by simpa [PathTree.entry] using h
          exact ⟨rfl, fun _ => rfl⟩
        | node d' children' => simp [PathTree.entry] at h
      | node d children =>
        cases t' with
        | leaf v' => simp [PathTree.entry] at h
        | node d' children' =>
          obtain rfl : d = d' := by simpa [PathTree.entry] using h
          exact ⟨rfl, fun _ => rfl⟩

theorem holdsOpaquePlace_congr {o o' : Place}
    (h : o.map PathTree.entry = o'.map PathTree.entry)
    (hm : (childAt o kOpaqueMarkerFile).isSome = (childAt o' kOpaqueMarkerFile).isSome) :
    holdsOpaquePlace o = holdsOpaquePlace o' := by
  cases o with
  | none =>
    cases o' with
    | none => rfl
    | some t' => cases h
  | some t =>
    cases o' with
    | none => cases h
    | some t' =>
      cases t with
      | leaf v =>
        cases t' with
        | leaf v' => rfl
        | node d' children' => simp [PathTree.entry] at h
      | node d children =>
        cases t' with
        | leaf v' => simp [PathTree.entry] at h
        | node d' children' =>
          obtain rfl : d = d' := by simpa [PathTree.entry] using h
          simp only [holdsOpaquePlace, hm]

theorem agreeAlong_of_reads {r : RelPath} {s s' : TreeSlot} (hidx : s.lowerIndex = s'.lowerIndex)
    (hstop : s.stop = s'.stop) (hlink : s.link = s'.link)
    (h : ∀ x, Reads s r x → entryAt s.sub x = entryAt s'.sub x) :
    AgreeAlong f files files r s s' := by
  have hsame : ∀ {r s s'}, s.lowerIndex = s'.lowerIndex → s.stop = s'.stop → s.link = s'.link →
      (∀ x, Reads s r x → entryAt s.sub x = entryAt s'.sub x) →
      SameSlot f files files s s' := by
    intro r s s' hidx hstop hlink h
    have hroot := h [] (Reads.self s r)
    rw [entryAt, entryAt, placeAt_nil, placeAt_nil] at hroot
    refine ⟨hidx, hstop, hlink, ?_, ?_⟩
    · have hnode := (@node_congr files _ _ hroot).2
        (s.lowerIndex.isNone && s.stop ≠ .link)
      have hmap := congrArg (Option.map fun x => f ⟨s.lowerIndex, x.1, x.2⟩) hnode
      simpa [treeOverlay, ← hidx, ← hstop, Function.comp_def] using hmap
    · by_cases hnone : s.stop = .none
      · have hmark := congrArg Option.isSome (h _ (Reads.marker hnone r))
        rw [isSome_entryAt, isSome_entryAt] at hmark
        simp only [treeOverlay, ← hstop, hnone]
        rw [holdsOpaquePlace_congr hroot hmark]
      · simp [treeOverlay, ← hstop, hnone]
  induction r generalizing s s' with
  | nil => exact hsame hidx hstop hlink h
  | cons n r ih =>
    have hbelow : ∀ x, Reads (s.child n) r x →
        entryAt (childAt s.sub n) x = entryAt (childAt s'.sub n) x := by
      intro x hx
      rw [← entryAt_cons, ← entryAt_cons]
      exact h _ (.inr (.inr ⟨x, rfl, hx⟩))
    have hkind : placeKind (childAt s.sub n) = placeKind (childAt s'.sub n) := by
      have hroot := hbelow [] (Reads.self _ r)
      rw [entryAt, entryAt, placeAt_nil, placeAt_nil] at hroot
      exact (@node_congr [] _ _ hroot).1
    refine ⟨hsame hidx hstop hlink h, ?_, ih ?_ ?_ ?_ ?_⟩
    · by_cases hl : s.stop = .link
      · simp [treeOverlay, ← hstop, hl]
      · have hmark := congrArg Option.isSome (h [whiteoutName n] (.inr (.inl ⟨hl, rfl⟩)))
        rw [isSome_entryAt, isSome_entryAt] at hmark
        simp only [treeOverlay, ← hstop]
        rw [childAt, hmark, childAt]
    · simpa using hidx
    · simp only [TreeSlot.child, slotIn, ← hstop, hkind]
      split <;> rfl
    · simp only [TreeSlot.child, slotIn, ← hstop, hkind]
      split <;> rfl
    · simpa using hbelow

/-! ## A change at one place -/

theorem entryAt_put_elsewhere {o : Place} {w x : RelPath} (h : ¬w <+: x) (s : Place) :
    entryAt (PathTree.put o w s) x = entryAt o x := by
  rw [entryAt, entryAt, placeAt, placeAt]
  split
  · rfl
  · exact PathTree.entryAt_put_elsewhere h s

theorem prefix_of_prefix_snoc {w c r : RelPath} {m m' : Name} (h : w <+: c ++ [m])
    (hc : c ++ [m'] <+: r) (hw : ¬w <+: r) : w = c ++ [m] := by
  rcases List.prefix_concat_iff.mp h with rfl | hpre
  · rfl
  · exact absurd ((hpre.trans (List.prefix_append c [m'])).trans hc) hw

/-- The place `w` is not one that `r` reads. -/
def Unread (e : Engine) (w r : RelPath) : Prop := ∀ x, Reads (rootSlot e) r x → ¬w <+: x

theorem SameAlong.of_put {w : RelPath} {t : Place} {g : Engine} (h : Unread e w r)
    (hlow : g.lowers = e.lowers) (hfiles : g.files = e.files)
    (hup : g.upper = PathTree.put e.upper w t) : SameAlong f e g r := by
  apply sameAlong_of_upper hlow hfiles hup
  refine agreeAlong_of_reads ?_ ?_ ?_ fun x hx => (entryAt_put_elsewhere (h x hx) t).symm <;>
    rfl

/-- An entry with a plain name, or in a link's target, is read at its own path only. -/
theorem unread_of_plain {d : RelPath} {n : Name} (hr : ¬d ++ [n] <+: r)
    (hn : isWhiteoutName n = false ∨ (slotOf e.upper none d).stop = .link) :
    Unread e (d ++ [n]) r := by
  intro x hx hpre
  have hnot : ∀ {c m}, c ++ [m] = d ++ [n] → isWhiteoutName m = true →
      (c.foldl TreeSlot.child (rootSlot e)).stop ≠ .link → False := by
    intro c m heq hm hstop
    obtain ⟨rfl, hmn⟩ := List.append_inj' heq rfl
    obtain rfl : m = n := by simpa using hmn
    rcases hn with hn | hn
    · rw [hm] at hn
      cases hn
    · exact hstop hn
  rcases hx.cases with hpre' | ⟨c, m, hc, rfl, hstop⟩ | ⟨c, hc, rfl, hstop⟩
  · exact hr (hpre.trans hpre')
  · exact hnot (prefix_of_prefix_snoc hpre hc hr).symm (by simp) hstop
  · rcases List.prefix_concat_iff.mp hpre with heq | hpre
    · exact hnot heq.symm (by simp) (by rw [hstop]; decide)
    · exact hr (hpre.trans hc)

/-- A whiteout is read at the path it hides. -/
theorem unread_of_whiteout {d : RelPath} {n : Name} (hn : isWhiteoutName n = false)
    (hr : ¬d ++ [n] <+: r) (hr' : ¬d ++ [whiteoutName n] <+: r) :
    Unread e (d ++ [whiteoutName n]) r := by
  intro x hx hpre
  rcases hx.cases with hpre' | ⟨c, m, hc, rfl, hstop⟩ | ⟨c, hc, rfl, hstop⟩
  · exact hr' (hpre.trans hpre')
  · have heq := prefix_of_prefix_snoc hpre hc hr'
    obtain ⟨rfl, hm⟩ := List.append_inj' heq rfl
    obtain rfl : n = m := whiteoutName_injective (by simpa using hm)
    exact hr hc
  · rcases List.prefix_concat_iff.mp hpre with heq | hpre
    · obtain ⟨-, hm⟩ := List.append_inj' heq rfl
      have hm : whiteoutName n = kOpaqueMarkerFile := by simpa using hm
      have : n = getWhitedOutName kOpaqueMarkerFile := by
        rw [← hm, getWhitedOutName_whiteoutName]
      rw [this] at hn
      exact absurd hn (by decide)
    · exact hr' (hpre.trans hc)

end LayerMount
