import LayerMount.RenameChecks

/-!
# The kinds of the view

`kindAt` is what a path shows without the content: a file, a directory, a link or nothing.  It
depends on the shape of the layers only, which says of each entry its kind and whether it has an
opaque stream (`SameShape.kindAt`).  So a write, a change of size or of attributes and the fill of a
shell change no kind.
-/

namespace LayerMount

open Lib

variable {e f g : Engine} {p r : RelPath} {o o' : Place} {n : Name} {files files' : List FileObj}

def kindAt (e : Engine) (p : RelPath) : Option EntryKind := (viewAt e p).map Shown.kind

/-! ## Shapes -/

/-- The kind of a node, and whether it has an opaque stream. -/
def shapeOf : Leaf ⊕ DirNode → EntryKind × Bool
  | .inl .deadLink => (.link, false)
  | .inl _ => (.file, false)
  | .inr d => (if d.link then .link else .directory, d.opaqueStream)

theorem shapeOf_entry (t : Tree) : (shapeOf (PathTree.entry t)).1 = treeKind t := by
  cases t with
  | leaf v => cases v <;> rfl
  | node d children => rfl

def SameShape (o o' : Place) : Prop :=
  ∀ r, (entryAt o r).map shapeOf = (entryAt o' r).map shapeOf

theorem SameShape.refl (o : Place) : SameShape o o := fun _ => rfl

theorem SameShape.childAt (h : SameShape o o') (n : Name) :
    SameShape (childAt o n) (childAt o' n) := by
  intro r
  rw [← entryAt_cons, ← entryAt_cons]
  exact h (n :: r)

theorem SameShape.root (h : SameShape o o') :
    o.map (shapeOf ∘ PathTree.entry) = o'.map (shapeOf ∘ PathTree.entry) := by
  have hroot := h []
  rw [entryAt, entryAt, placeAt_nil, placeAt_nil, Option.map_map, Option.map_map] at hroot
  exact hroot

theorem SameShape.isSome (h : SameShape o o') : o.isSome = o'.isSome := by
  simpa using congrArg Option.isSome h.root

theorem SameShape.kind (h : SameShape o o') : o.map treeKind = o'.map treeKind := by
  have hroot := congrArg (Option.map Prod.fst) h.root
  rw [Option.map_map, Option.map_map] at hroot
  have hkind : Prod.fst ∘ shapeOf ∘ PathTree.entry = treeKind := funext shapeOf_entry
  rwa [hkind] at hroot

theorem SameShape.placeKind (h : SameShape o o') : placeKind o = placeKind o' := by
  have hkind := h.kind
  cases o <;> cases o' <;> simp_all [LayerMount.placeKind]

theorem SameShape.marked (h : SameShape o o') : holdsOpaquePlace o = holdsOpaquePlace o' := by
  have hplace : ∀ o : Place, holdsOpaquePlace o
      = (((o.map (shapeOf ∘ PathTree.entry)).map Prod.snd).getD false
        || (LayerMount.childAt o kOpaqueMarkerFile).isSome) := by
    intro o
    cases o with
    | none => simp [holdsOpaquePlace, LayerMount.childAt]
    | some t =>
      cases t with
      | leaf v => cases v <;> simp [holdsOpaquePlace, childAt_leaf, shapeOf, PathTree.entry]
      | node d children => rfl
  rw [hplace, hplace, h.root, (h.childAt kOpaqueMarkerFile).isSome]

/-! ## Slots and lookups -/

/-- Slots of places of one shape. -/
structure Alike (s s' : TreeSlot) : Prop where
  lowerIndex : s.lowerIndex = s'.lowerIndex
  stop : s.stop = s'.stop
  link : s.link = s'.link
  sub : SameShape s.sub s'.sub

theorem Alike.child {s s' : TreeSlot} (h : Alike s s') (n : Name) :
    Alike (s.child n) (s'.child n) := by
  have hsub := h.sub.childAt n
  rw [TreeSlot.child, TreeSlot.child, slotIn, slotIn, h.stop, h.lowerIndex, hsub.placeKind]
  split
  · exact ⟨rfl, rfl, rfl, hsub⟩
  · exact ⟨rfl, rfl, rfl, hsub⟩

theorem alike_showsSame (files files' : List FileObj) :
    ShowsSame (fun entry => entry.shown.kind) files files' fun _ => Alike where
  child {n} _ _ _ h := h.child n
  entry h := by simpa [treeOverlay] using h.sub.isSome
  whites {n} _ _ _ h := by
    have hchild := (h.sub.childAt (whiteoutName n)).isSome
    simp [treeOverlay, h.stop, hchild]
  covers h := by simp [treeOverlay, h.stop, h.sub.marked]
  link h := h.link
  upper h := by simp [treeOverlay, h.lowerIndex]
  stop h := h.stop
  shown {s s'} h := by
    have hkind := h.sub.kind
    simp only [treeOverlay, Option.map_map, Function.comp_def, kind_shownOf]
    exact hkind

/-- The kinds of the view come from the shapes of the layers. -/
theorem SameShape.kindAt (h : SameShape g.upper e.upper) (hlowers : g.lowers = e.lowers)
    (r : RelPath) : kindAt g r = kindAt e r := by
  rw [LayerMount.kindAt, LayerMount.kindAt]
  cases r with
  | nil =>
    rw [viewAt_nil, viewAt_nil, Option.map_map, Option.map_map]
    simp only [Function.comp_def, kind_shownOf]
    exact h.kind
  | cons n r =>
    have hsim := alike_showsSame g.files e.files
    have hstack : List.Forall₂ Alike (treeStack g) (treeStack e) := by
      rw [treeStack, treeStack, hlowers]
      refine List.Forall₂.cons ⟨rfl, rfl, rfl, h⟩ ?_
      exact List.forall₂_same.mpr fun _ _ => ⟨rfl, rfl, rfl, .refl _⟩
    rw [viewAt_eq g (by simp), viewAt_eq e (by simp), Option.map_map, Option.map_map, showAt, showAt]
    split
    · rfl
    · exact hsim.showFrom (hsim.cut (p := n :: r) hstack)

end LayerMount
