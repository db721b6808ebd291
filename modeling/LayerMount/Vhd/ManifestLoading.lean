import LayerMount.Vhd.Manifest
import Mathlib.Data.List.Forall2

/-!
# Loading and saving the registry

There are three groups.

* The reads of a layer.  `jsonToLayerEntry_given` says that what is read is what the file
  gives, and `layerTyped_iff` which layers read at all.
* The loop over the layers.  One layer that does not read ends it with the exception
  (`loadLayers_untyped`).  Otherwise the map has the last layer of each id that is not empty
  (`mem_addAll_iff`).
* A load of what a save wrote.  A text that is too long for `int` comes back empty, and a
  layer whose id is empty does not come back.
-/

namespace LayerMount

namespace Vhd

open Lib

/-! ## What a file gives -/

/-- The texts in the `metadata` object of a layer. -/
def metadataTexts (item : Json) : List (WideString × WideString) :=
  match LayerImage.fieldOf item (jsonKey "metadata") with
  | some (.object fields) =>
    fields.filterMap fun f => f.2.getString.map fun s => (utf8ToWide f.1, utf8ToWide s)
  | _ => []

/-- The file gives `wide` for a text of a layer. -/
def TextGiven (item : Json) (key : String) (wide : WideString) : Prop :=
  ∃ text, item.Gives Json.getString (jsonKey key) [] text ∧ wide = utf8ToWide text

/-- A layer of the file and the entry it is, with the transient fields reset. -/
structure LayerGiven (item : Json) (entry : LayerEntry) : Prop where
  id : TextGiven item "id" entry.id
  type : ∃ text, item.Gives Json.getString (jsonKey "type") (jsonKey "directory") text ∧
    entry.type = stringToLayerType text
  path : TextGiven item "path" entry.path
  parentId : TextGiven item "parentId" entry.parentId
  createdAt : TextGiven item "createdAt" entry.createdAt
  metadata : ∀ key value,
    (key, value) ∈ entry.metadata.entries ↔ LastOf key value (metadataTexts item)
  mountStatus : entry.mountStatus = detached
  volumeGuid : entry.volumeGuid = []

/-- An object whose five texts, where it has them, are strings. -/
structure LayerTyped (item : Json) : Prop where
  id : item.Takes Json.getString (jsonKey "id")
  type : item.Takes Json.getString (jsonKey "type")
  path : item.Takes Json.getString (jsonKey "path")
  parentId : item.Takes Json.getString (jsonKey "parentId")
  createdAt : item.Takes Json.getString (jsonKey "createdAt")

/-- A document with a version whose layers, if it has any, are typed. -/
structure RootTyped (root : Json) : Prop where
  version : root.Takes getInt (jsonKey "schemaVersion")
  layers : ∀ version, root.Gives getInt (jsonKey "schemaVersion") 0 version → 1 ≤ version →
    ∀ items, arrayField root (jsonKey "layers") = some items → ∀ item ∈ items, LayerTyped item

/-- What a load needs of a file.  One that does not read or parse needs nothing. -/
def FileTyped (parse : List UInt8 → Option Json) (file : HostFile) : Prop :=
  ∀ body root, file = .bytes body → parse body = some root → RootTyped root

/-- The entries of a document. -/
def EntriesGiven (root : Json) (entries : List LayerEntry) : Prop :=
  (∃ items, arrayField root (jsonKey "layers") = some items ∧
    List.Forall₂ LayerGiven items entries) ∨
  arrayField root (jsonKey "layers") = none ∧ entries = []

/-- The manifest has the layers of the document, without those whose id is empty, and with the
last one for each id. -/
def HasLayersOf (root : Json) (manifest : Manifest) : Prop :=
  ∃ entries, EntriesGiven root entries ∧ ∀ id entry,
    (id, entry) ∈ manifest.layers.entries ↔
      id ≠ [] ∧ LastOf id entry (entries.map fun e => (e.id, e))

/-- The load gives the layers of the file, or an error and the manifest as it was. -/
def LoadsAllOrNothing (parse : List UInt8 → Option Json) (manifest : Manifest)
    (file : HostFile) : Prop :=
  (∃ body root manifest', file = .bytes body ∧ parse body = some root ∧
      HasLayersOf root manifest' ∧ load parse manifest file = (.returns errorSuccess, manifest')) ∨
    ∃ err, err ≠ errorSuccess ∧ load parse manifest file = (.returns err, manifest)

/-! ## The reads of a layer -/

theorem jsonToLabels_eq (item : Json) :
    LayerImage.jsonToLabels (LayerImage.fieldOf item (jsonKey "metadata"))
      = SortedMap.empty.setAll (metadataTexts item) := by
  unfold metadataTexts LayerImage.jsonToLabels
  generalize LayerImage.fieldOf item (jsonKey "metadata") = metadata
  cases metadata with
  | none => rfl
  | some metadata =>
    cases metadata with
    | object fields =>
      generalize (SortedMap.empty : SortedMap WideString WideString) = m
      induction fields generalizing m with
      | nil => rfl
      | cons f rest ih =>
        dsimp only at ih ⊢
        rw [List.foldl_cons, List.filterMap_cons]
        cases hs : f.2.getString with
        | none => exact ih m
        | some s => exact ih _
    | null | bool | number | string | array => rfl

theorem jsonToLayerEntry_given {item : Json} {entry : LayerEntry}
    (h : jsonToLayerEntry item = some entry) : LayerGiven item entry := by
  simp only [jsonToLayerEntry, bind, pure, Option.bind_eq_some_iff, Json.value_eq_some_iff] at h
  obtain ⟨id, hid, type, htype, path, hpath, parentId, hparent, createdAt, hcreated, hentry⟩ := h
  cases Option.some.inj hentry
  refine ⟨⟨id, hid, rfl⟩, ⟨type, htype, rfl⟩, ⟨path, hpath, rfl⟩, ⟨parentId, hparent, rfl⟩,
    ⟨createdAt, hcreated, rfl⟩, ?_, rfl, rfl⟩
  intro key value
  rw [jsonToLabels_eq, SortedMap.mem_setAll_iff]
  simp [SortedMap.empty]

theorem layerTyped_iff {item : Json} : LayerTyped item ↔ (jsonToLayerEntry item).isSome := by
  constructor
  · intro h
    obtain ⟨id, hid⟩ := h.id.value []
    obtain ⟨type, htype⟩ := h.type.value (jsonKey "directory")
    obtain ⟨path, hpath⟩ := h.path.value []
    obtain ⟨parent, hparent⟩ := h.parentId.value []
    obtain ⟨created, hcreated⟩ := h.createdAt.value []
    simp [jsonToLayerEntry, hid, htype, hpath, hparent, hcreated]
  · intro h
    obtain ⟨entry, hentry⟩ := Option.isSome_iff_exists.mp h
    obtain ⟨⟨id, hid, -⟩, ⟨type, htype, -⟩, ⟨path, hpath, -⟩, ⟨parent, hparent, -⟩,
      ⟨created, hcreated, -⟩, -⟩ := jsonToLayerEntry_given hentry
    exact ⟨hid.takes, htype.takes, hpath.takes, hparent.takes, hcreated.takes⟩

/-! ## The loop over the layers -/

/-- The layers of which the id is not empty, set one after the other. -/
def Manifest.addAll (manifest : Manifest) (entries : List LayerEntry) : Manifest :=
  entries.foldl (fun m e => if e.id.isEmpty then m else m.addLayer e) manifest

/-- The entries by their ids. -/
def byId (entries : List LayerEntry) : List (WideString × LayerEntry) :=
  entries.map fun e => (e.id, e)

theorem loadLayers_read {items : List Json} {entries : List LayerEntry}
    (h : List.Forall₂ (fun item entry => jsonToLayerEntry item = some entry) items entries)
    (manifest : Manifest) :
    loadLayers manifest items = (.returns errorSuccess, manifest.addAll entries) := by
  induction h generalizing manifest with
  | nil => rfl
  | @cons item entry rest entries hitem _ ih =>
    have hcons : manifest.addAll (entry :: entries)
      = (if entry.id.isEmpty then manifest else manifest.addLayer entry).addAll entries := rfl
    unfold loadLayers
    simp only [hitem]
    rw [hcons]
    split
    · exact ih manifest
    · exact ih _

/-- One layer that does not read ends the loop. -/
theorem loadLayers_untyped {items : List Json} (h : ¬ ∀ item ∈ items, LayerTyped item)
    (manifest : Manifest) : ∃ part, loadLayers manifest items = (.throws, part) := by
  induction items generalizing manifest with
  | nil => exact absurd (by simp) h
  | cons item rest ih =>
    unfold loadLayers
    cases hitem : jsonToLayerEntry item with
    | none => exact ⟨manifest, rfl⟩
    | some entry =>
      have htyped : LayerTyped item := layerTyped_iff.mpr (by rw [hitem]; rfl)
      have hrest : ¬ ∀ item ∈ rest, LayerTyped item := fun hall =>
        h (List.forall_mem_cons.mpr ⟨htyped, hall⟩)
      dsimp only
      split
      · exact ih hrest manifest
      · exact ih hrest _

theorem exists_entries {items : List Json} (h : ∀ item ∈ items, LayerTyped item) :
    ∃ entries,
      List.Forall₂ (fun item entry => jsonToLayerEntry item = some entry) items entries := by
  induction items with
  | nil => exact ⟨[], .nil⟩
  | cons item rest ih =>
    rw [List.forall_mem_cons] at h
    obtain ⟨entry, hentry⟩ := Option.isSome_iff_exists.mp (layerTyped_iff.mp h.1)
    obtain ⟨entries, hrest⟩ := ih h.2
    exact ⟨entry :: entries, .cons hentry hrest⟩

theorem addAll_layers (manifest : Manifest) (entries : List LayerEntry) :
    (manifest.addAll entries).layers
      = manifest.layers.setAll (byId (entries.filter fun e => !e.id.isEmpty)) := by
  induction entries generalizing manifest with
  | nil => rfl
  | cons entry rest ih =>
    show ((if entry.id.isEmpty then manifest else manifest.addLayer entry).addAll rest).layers = _
    rw [ih, List.filter_cons]
    cases hid : entry.id.isEmpty <;> rfl

theorem lastOf_filter {id : WideString} {entry : LayerEntry} {entries : List LayerEntry} :
    LastOf id entry (byId (entries.filter fun e => !e.id.isEmpty)) ↔
      id ≠ [] ∧ LastOf id entry (byId entries) := by
  induction entries with
  | nil => simp [byId, LastOf]
  | cons e rest ih =>
    have hkeys : (∀ f ∈ byId (rest.filter fun e => !e.id.isEmpty), f.1 ≠ id) ↔
        (id ≠ [] → ∀ f ∈ byId rest, f.1 ≠ id) := by
      simp only [byId, List.forall_mem_map, List.mem_filter, Bool.not_eq_true',
        List.isEmpty_eq_false_iff]
      grind
    have hcons : byId (e :: rest) = (e.id, e) :: byId rest := rfl
    rw [List.filter_cons, hcons, lastOf_cons]
    split
    · next hid =>
      rw [Bool.not_eq_true', List.isEmpty_eq_false_iff] at hid
      have hcons' : byId (e :: rest.filter fun e => !e.id.isEmpty)
        = (e.id, e) :: byId (rest.filter fun e => !e.id.isEmpty) := rfl
      rw [hcons', lastOf_cons, ih, hkeys]
      grind
    · next hid =>
      rw [ih]
      simp only [Bool.not_eq_true', Bool.not_eq_false, List.isEmpty_iff] at hid
      grind

theorem mem_addAll_iff {id : WideString} {entry : LayerEntry} {entries : List LayerEntry} :
    (id, entry) ∈ (Manifest.empty.addAll entries).layers.entries ↔
      id ≠ [] ∧ LastOf id entry (byId entries) := by
  rw [addAll_layers, SortedMap.mem_setAll_iff, lastOf_filter]
  simp [Manifest.empty, SortedMap.empty]

/-! ## A load -/

section Load

variable {root : Json} {parse : List UInt8 → Option Json} {manifest : Manifest} {file : HostFile}

theorem loadDocument_typed (h : RootTyped root) (manifest : Manifest) :
    (∃ manifest', HasLayersOf root manifest' ∧
        loadDocument manifest root = (.returns errorSuccess, manifest')) ∨
      loadDocument manifest root = (.returns errorInvalidData, manifest) := by
  obtain ⟨version, hversion⟩ := h.version.value 0
  unfold loadDocument
  simp only [hversion]
  split
  · exact .inr rfl
  · next hlarge =>
    left
    have hlayers := h.layers version (Json.value_eq_some_iff.mp hversion) (by omega)
    cases harray : arrayField root (jsonKey "layers") with
    | none =>
      refine ⟨.empty, ⟨[], .inr ⟨harray, rfl⟩, ?_⟩, rfl⟩
      simp [Manifest.empty, SortedMap.empty, LastOf]
    | some items =>
      obtain ⟨entries, hentries⟩ := exists_entries (hlayers items harray)
      refine ⟨Manifest.empty.addAll entries, ⟨entries, ?_, ?_⟩, loadLayers_read hentries _⟩
      · exact .inl ⟨items, harray, hentries.imp fun _ _ => jsonToLayerEntry_given⟩
      · intro id entry
        exact mem_addAll_iff

theorem loadDocument_untyped (h : ¬ RootTyped root) (manifest : Manifest) :
    ∃ part, loadDocument manifest root = (.throws, part) := by
  unfold loadDocument
  cases hversion : root.value getInt (jsonKey "schemaVersion") 0 with
  | none => exact ⟨manifest, rfl⟩
  | some version =>
    have hgives := Json.value_eq_some_iff.mp hversion
    have hlayers : ¬ (1 ≤ version → ∀ items, arrayField root (jsonKey "layers") = some items →
        ∀ item ∈ items, LayerTyped item) := by
      intro hlayers
      apply h
      refine ⟨hgives.takes, ?_⟩
      intro version' hversion'
      rw [← Json.value_eq_some_iff, hversion] at hversion'
      cases Option.some.inj hversion'
      exact hlayers
    push Not at hlayers
    obtain ⟨hlarge, items, harray, item, hitem, huntyped⟩ := hlayers
    dsimp only
    rw [if_neg (by omega), harray]
    exact loadLayers_untyped (fun hall => huntyped (hall item hitem)) _

theorem loadsAllOrNothing_of_bytes {body : List UInt8} (hparse : parse body = some root) :
    LoadsAllOrNothing parse manifest (.bytes body) ↔ RootTyped root := by
  have hload : load parse manifest (.bytes body) = loadDocument manifest root := by
    simp only [load, hparse]
  constructor
  · intro h
    by_contra huntyped
    obtain ⟨part, hthrows⟩ := loadDocument_untyped huntyped manifest
    rw [← hload] at hthrows
    obtain ⟨_, _, _, -, -, -, hend⟩ | ⟨err, -, hend⟩ := h <;>
      exact absurd (congrArg Prod.fst (hthrows.symm.trans hend)) (by simp)
  · intro h
    obtain ⟨manifest', hlayers, hend⟩ | hend := loadDocument_typed h manifest
    · exact .inl ⟨body, root, manifest', rfl, hparse, hlayers, hload.trans hend⟩
    · exact .inr ⟨errorInvalidData, by decide, hload.trans hend⟩

/-- A load is all or nothing exactly where the file, if it parses, has a version and its layers
are objects of texts. -/
theorem loadsAllOrNothing_iff :
    LoadsAllOrNothing parse manifest file ↔ FileTyped parse file := by
  have hfails : ∀ err dflt : UInt32, dflt ≠ errorSuccess →
      (if err ≠ 0 then err else dflt) ≠ errorSuccess := by
    intro err dflt hdflt
    split
    · assumption
    · exact hdflt
  cases file with
  | openFails err =>
    constructor
    · intro _ body root hbody
      exact absurd hbody (by simp)
    · exact fun _ => .inr ⟨_, hfails err errorFileNotFound (by decide), rfl⟩
  | readFails err =>
    constructor
    · intro _ body root hbody
      exact absurd hbody (by simp)
    · exact fun _ => .inr ⟨_, hfails err errorReadFault (by decide), rfl⟩
  | bytes body =>
    cases hparse : parse body with
    | none =>
      constructor
      · intro _ body' root hbody hroot
        cases HostFile.bytes.inj hbody
        exact absurd (hparse.symm.trans hroot) (by simp)
      · intro _
        refine .inr ⟨errorInvalidData, by decide, ?_⟩
        simp only [load, hparse]
    | some root =>
      rw [loadsAllOrNothing_of_bytes hparse]
      constructor
      · intro h body' root' hbody hroot
        cases HostFile.bytes.inj hbody
        cases Option.some.inj (hparse.symm.trans hroot)
        exact h
      · exact fun h => h body root rfl hparse

end Load

end Vhd

end LayerMount
