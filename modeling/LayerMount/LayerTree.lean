import LayerMount.Lib.PathTree
import LayerMount.Resolution

/-!
# Layers as trees

A layer that the engine can change is a tree of directories.  A leaf is a file, a
directory link that leads nowhere, or a marker the engine wrote; an inner node is a
directory, or a link together with the directory it leads to.  A file's data and
attributes are in a table of file objects that the leaves name, because a handle
stays on its file when the file moves.

`Layer.ofTree` gives the probes of such a tree.  Every probe of it answers, so the
results of `LayerMount.Resolution` and `LayerMount.Listing` hold of every stack of
trees (`sound_ofTrees`).  It finds nothing at a `.` component.  No engine call asks it
for one: the walk of a caller's path drops them.  `Layer.ofTreeProbed` answers a probe
with such components as the host does.

A link's target belongs to the link.  A link that leads into a layer's own tree, or to a
directory that another link leads to, is outside the model of the engine
(`LayerMount.LinkedLayers` has such layers), and so are redirect records, which no
engine path writes.
-/

namespace LayerMount

open Lib

abbrev FileId := Nat

abbrev Data := List UInt8

/-- The origin of a metacopy shell: a lower file, and whether it is sparse. -/
structure Origin where
  file : FileId
  sparse : Bool
  deriving DecidableEq, Repr

structure FileObj where
  attributes : Attributes := {}
  data : Data := []
  /-- The file has a user alternate data stream. -/
  userStream : Bool := false
  /-- The copy-up record of a shell whose data is not there yet. -/
  metacopy : Option Origin := none
  /-- A write or a set-size through a handle has changed the data. -/
  changed : Bool := false
  deriving DecidableEq, Repr

inductive Leaf where
  | file (id : FileId)
  /-- A directory link that leads to no directory. -/
  | deadLink
  /-- A marker file that the engine wrote. -/
  | marker
  deriving DecidableEq, Repr

structure DirNode where
  /-- The node is a link, and its children are the link's target, which nothing else
  leads to. -/
  link : Bool := false
  opaqueStream : Bool := false
  readOnly : Bool := false
  deriving DecidableEq, Repr

abbrev Tree := PathTree Name Leaf DirNode

/-- What a place of a layer holds. -/
abbrev Place := Option Tree

def fileAt (files : List FileObj) (id : FileId) : FileObj := files.getD id {}

/-- The entry that a probe reads at the root of a subtree. -/
def layerEntry (files : List FileObj) : Tree → LayerEntry
  | .leaf (.file id) => { attributes := { (fileAt files id).attributes with directory := false } }
  | .leaf .deadLink =>
    { attributes := { directory := true, reparsePoint := true }, tag := .nameSurrogate }
  | .leaf .marker => { attributes := {} }
  | .node d _ =>
    { attributes := { directory := true, reparsePoint := d.link, readOnly := d.readOnly }
      tag := if d.link then .nameSurrogate else .other
      opaqueStream := d.opaqueStream }

def treeKind : Tree → EntryKind
  | .leaf (.file _) => .file
  | .leaf .deadLink => .link
  | .leaf .marker => .file
  | .node d _ => if d.link then .link else .directory

/-- What is at a path without `.` components of a layer. -/
def placeAt (o : Place) (p : RelPath) : Place :=
  if p.contains ['.'] then none else PathTree.sub o p

/-- What is at a name below a place. -/
def childAt (o : Place) (n : Name) : Place := placeAt o [n]

def probeOf (files : List FileObj) : Place → Probe
  | none => .missing
  | some t => .entry (layerEntry files t)

def namesOf : Place → List Name
  | none => []
  | some t => t.names.filter fun n => n ≠ ['.']

@[simp] theorem placeAt_nil (o : Place) : placeAt o [] = o := by
  simp [placeAt]

@[simp] theorem placeAt_none (p : RelPath) : placeAt none p = none := by
  simp [placeAt]

theorem placeAt_append (o : Place) (p q : RelPath) :
    placeAt o (p ++ q) = placeAt (placeAt o p) q := by
  simp only [placeAt, List.contains_iff_mem, List.mem_append, PathTree.sub_append]
  by_cases hp : ['.'] ∈ p
  · simp [hp]
  · simp [hp]

theorem placeAt_snoc (o : Place) (p : RelPath) (n : Name) :
    placeAt o (p ++ [n]) = childAt (placeAt o p) n :=
  placeAt_append o p [n]

theorem placeAt_cons (o : Place) (n : Name) (p : RelPath) :
    placeAt o (n :: p) = placeAt (childAt o n) p :=
  placeAt_append o [n] p

theorem mem_namesOf {o : Place} {n : Name} : n ∈ namesOf o ↔ (childAt o n).isSome = true := by
  cases o with
  | none => simp [namesOf, childAt]
  | some t =>
    by_cases hn : n = ['.']
    · simp [namesOf, childAt, placeAt, hn]
    · have hne : ['.'] ≠ n := fun h => hn h.symm
      simp [namesOf, childAt, placeAt, hn, hne, PathTree.mem_names_iff, PathTree.sub_cons]

theorem probeOf_ne_missing {files : List FileObj} {o : Place} :
    probeOf files o ≠ .missing ↔ o.isSome = true := by
  cases o <;> simp [probeOf]

/-- The layer of a tree, whose links each have a target of their own. -/
def Layer.ofTree (files : List FileObj) (o : Place) : Layer where
  get p := probeOf files (placeAt o p)
  scan p := .ok (namesOf (placeAt o p))
  sidecarOpaque _ := false
  parent_directory := by
    intro p n _ h
    rw [placeAt_snoc, probeOf_ne_missing] at h
    right
    cases ht : placeAt o p with
    | none =>
      rw [ht] at h
      simp [childAt] at h
    | some t =>
      refine ⟨layerEntry files t, rfl, ?_⟩
      cases t with
      | node d children => rfl
      | leaf v =>
        -- a leaf has no child
        rw [ht, childAt, placeAt] at h
        split at h
        · simp at h
        · rw [PathTree.sub_leaf] at h
          simp at h
  mem_scan := by
    intro p names h n _
    obtain rfl : namesOf (placeAt o p) = names := by simpa using h
    rw [mem_namesOf, placeAt_snoc, probeOf_ne_missing]
  get_dot := by
    intro p h
    rw [placeAt_snoc] at h
    simp [childAt, placeAt, probeOf] at h

variable {files : List FileObj} {o : Place}

theorem get_ofTree (p : RelPath) :
    (Layer.ofTree files o).get p = probeOf files (placeAt o p) := rfl

theorem kind_layerEntry (t : Tree) : (layerEntry files t).kind = some (treeKind t) := by
  cases t with
  | leaf v => cases v <;> rfl
  | node d children => cases hl : d.link <;> simp [layerEntry, LayerEntry.kind, treeKind, hl]

theorem readable_ofTree : (Layer.ofTree files o).Readable where
  get := by
    intro p
    rw [get_ofTree]
    cases placeAt o p <;> simp [probeOf]
  tag := by
    intro p e he hdir hrep
    rw [get_ofTree] at he
    cases ht : placeAt o p with
    | none => simp [ht, probeOf] at he
    | some t =>
      obtain rfl : layerEntry files t = e := by simpa [ht, probeOf] using he
      intro htag
      have hk := @kind_layerEntry files t
      simp [LayerEntry.kind, hdir, hrep, htag] at hk
  scan := fun p => ⟨_, rfl⟩

theorem noStray_ofTree : (Layer.ofTree files o).NoStraySidecar := by
  intro p hp
  cases hp

/-- A mount whose layers are trees. -/
def configOf (files : List FileObj) (upper : Place) (lowers : List Place) : LayerConfig where
  upper := Layer.ofTree files upper
  lowers := lowers.map (Layer.ofTree files)

theorem sound_ofTrees (files : List FileObj) (upper : Place) (lowers : List Place) :
    (configOf files upper lowers).Sound := by
  have hlayer : ∀ m ∈ mergeLayersOf (configOf files upper lowers),
      ∃ o, m.layer = Layer.ofTree files o := by
    intro m hm
    rcases List.mem_cons.mp hm with rfl | hm
    · exact ⟨upper, rfl⟩
    · obtain ⟨o, -, ho⟩ := List.mem_map.mp (layer_mem_of_mem_mergeLowersFrom hm)
      exact ⟨o, ho.symm⟩
  constructor
  · intro m hm
    obtain ⟨o, ho⟩ := hlayer m hm
    rw [ho]
    exact readable_ofTree
  · intro m hm
    obtain ⟨o, ho⟩ := hlayer m hm
    rw [ho]
    exact noStray_ofTree

/-- What `GetFullPathNameW` leaves of the text of a path. -/
def fullPathOf (p : RelPath) : RelPath := p.filter fun n => n ≠ ['.']

theorem fullPathOf_snoc {n : Name} (hn : n ≠ ['.']) (p : RelPath) :
    fullPathOf (p ++ [n]) = fullPathOf p ++ [n] := by
  simp [fullPathOf, hn]

@[simp] theorem fullPathOf_dot (p : RelPath) : fullPathOf (p ++ [['.']]) = fullPathOf p := by
  simp [fullPathOf]

/-- The layer of a tree as the host answers a caller's text. -/
def Layer.ofTreeProbed (files : List FileObj) (o : Place) : Layer where
  get p := probeOf files (placeAt o (fullPathOf p))
  scan p := .ok (namesOf (placeAt o (fullPathOf p)))
  sidecarOpaque _ := false
  parent_directory := by
    intro p n hn h
    rw [fullPathOf_snoc hn] at h
    exact (Layer.ofTree files o).parent_directory _ n hn h
  mem_scan := by
    intro p names h n hn
    rw [fullPathOf_snoc hn]
    exact (Layer.ofTree files o).mem_scan _ names h n hn
  get_dot := by
    intro p _
    rw [fullPathOf_dot]

theorem readable_ofTreeProbed : (Layer.ofTreeProbed files o).Readable where
  get := fun p => (@readable_ofTree files o).get (fullPathOf p)
  tag := fun p => (@readable_ofTree files o).tag (fullPathOf p)
  scan := fun _ => ⟨_, rfl⟩

theorem noRedirect_ofTrees (files : List FileObj) (upper : Place) (lowers : List Place) :
    (configOf files upper lowers).NoRedirect := by
  intro p e he
  change probeOf files (placeAt upper p) = .entry e at he
  cases ht : placeAt upper p with
  | none => simp [ht, probeOf] at he
  | some t =>
    obtain rfl : layerEntry files t = e := by simpa [ht, probeOf] using he
    cases t with
    | leaf v => cases v <;> rfl
    | node d children => rfl

end LayerMount
