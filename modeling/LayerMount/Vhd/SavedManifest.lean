import LayerMount.Vhd.ManifestLoading

/-!
# A load after a save

What a load makes of the file that a save wrote.  A text comes back through UTF-8, where one
that is too long for `int` is empty (`readBackEntry`).  So the map comes back, up to the
transient fields, exactly where no id is empty and every text can be counted in `int`
(`load_saved_iff`).  The stream of a save is closed after its last check, so the whole text has
to be in the file as well.
-/

namespace LayerMount

namespace Vhd

open Lib
open LayerImage (readBack readBack_eq labelField labelsToJson jsonToLabels)

/-! ## What comes back of a layer -/

/-- The transient fields as a load sets them. -/
def LayerEntry.reset (entry : LayerEntry) : LayerEntry :=
  { entry with mountStatus := detached, volumeGuid := [] }

/-- The texts of a layer are well formed. -/
structure LayerEntry.TextsWellFormed (entry : LayerEntry) : Prop where
  id : WellFormedUtf16 entry.id
  path : WellFormedUtf16 entry.path
  parentId : WellFormedUtf16 entry.parentId
  mountStatus : WellFormedUtf16 entry.mountStatus
  volumeGuid : WellFormedUtf16 entry.volumeGuid
  createdAt : WellFormedUtf16 entry.createdAt
  metadata : ∀ e ∈ entry.metadata.entries, WellFormedUtf16 e.1 ∧ WellFormedUtf16 e.2

/-- The texts of a layer that a load reads can be counted in `int`, and the id is not empty. -/
structure LayerEntry.Storable (entry : LayerEntry) : Prop where
  named : entry.id ≠ []
  id : FitsInt entry.id
  path : FitsInt entry.path
  parentId : FitsInt entry.parentId
  createdAt : FitsInt entry.createdAt
  metadata : ∀ e ∈ entry.metadata.entries, FitsInt e.1 ∧ FitsInt e.2

/-- What a load reads of a layer that was saved. -/
def readBackEntry (entry : LayerEntry) : LayerEntry where
  id := readBack entry.id
  type := entry.type
  path := readBack entry.path
  parentId := readBack entry.parentId
  mountStatus := detached
  volumeGuid := []
  createdAt := readBack entry.createdAt
  metadata := jsonToLabels (some (.object (labelsToJson entry.metadata)))

theorem stringToLayerType_toString (t : LayerType) :
    stringToLayerType (layerTypeToString t) = t := by
  have hdirectory : jsonKey "directory" ≠ jsonKey "vhd" := jsonKey_ne (by decide)
  have hdirectory' : jsonKey "directory" ≠ jsonKey "vss" := jsonKey_ne (by decide)
  have hvss : jsonKey "vss" ≠ jsonKey "vhd" := jsonKey_ne (by decide)
  cases t with
  | directory => simp [layerTypeToString, stringToLayerType, hdirectory, hdirectory']
  | vhd => simp [layerTypeToString, stringToLayerType]
  | vss => simp [layerTypeToString, stringToLayerType, hvss]

theorem jsonToLayerEntry_layerEntryToJson (entry : LayerEntry) :
    jsonToLayerEntry (layerEntryToJson entry) = some (readBackEntry entry) := by
  unfold jsonToLayerEntry layerEntryToJson
  simp (disch := (apply jsonKey_ne; decide)) only [value_setField_self, value_setField_ne,
    LayerImage.fieldOf_setField_self, Json.getString, Option.bind_eq_bind, Option.bind_some,
    Option.pure_def, stringToLayerType_toString]
  rfl

/-- What comes back of a text can be counted in `int`. -/
theorem fitsInt_readBack {text : WideString} (h : WellFormedUtf16 text) :
    FitsInt (readBack text) := by
  by_cases hfits : FitsInt text
  · rw [readBack_eq ⟨h, hfits⟩]
    exact hfits
  · have hempty : wideToUtf8 text = [] := if_neg hfits
    unfold readBack
    rw [hempty]
    decide

/-- So a text that comes back as it was can be counted. -/
theorem fitsInt_of_readBack {text text' : WideString} (h : WellFormedUtf16 text')
    (heq : text = readBack text') : FitsInt text := heq ▸ fitsInt_readBack h

/-- Every label that comes back is what comes back of some label. -/
theorem exists_of_mem_labels {labels : SortedMap WideString WideString}
    {e : WideString × WideString}
    (h : e ∈ (jsonToLabels (some (.object (labelsToJson labels)))).entries) :
    ∃ l ∈ labels.entries, e = (readBack l.1, readBack l.2) := by
  have hlabels : ∀ f ∈ labelsToJson labels, ∃ l ∈ labels.entries, f = labelField l := by
    intro f hf
    rw [LayerImage.labelsToJson_eq_setAll] at hf
    obtain hf | hf := SortedMap.mem_setAll hf
    · obtain ⟨l, hl, rfl⟩ := List.mem_map.mp hf
      exact ⟨l, hl, rfl⟩
    · simp [SortedMap.empty] at hf
  rw [LayerImage.jsonToLabels_eq_setAll fun f hf => (hlabels f hf).imp fun _ h => h.2] at h
  obtain h | h := SortedMap.mem_setAll h
  · obtain ⟨f, hf, rfl⟩ := List.mem_map.mp h
    obtain ⟨l, hl, rfl⟩ := hlabels f hf
    exact ⟨l, hl, rfl⟩
  · simp [SortedMap.empty] at h

theorem readBackEntry_eq {entry : LayerEntry} (h : entry.TextsWellFormed) (hs : entry.Storable) :
    readBackEntry entry = entry.reset := by
  unfold readBackEntry LayerEntry.reset
  rw [readBack_eq ⟨h.id, hs.id⟩, readBack_eq ⟨h.path, hs.path⟩,
    readBack_eq ⟨h.parentId, hs.parentId⟩, readBack_eq ⟨h.createdAt, hs.createdAt⟩,
    LayerImage.jsonToLabels_labelsToJson]
  intro l hl
  exact ⟨⟨(h.metadata l hl).1, (hs.metadata l hl).1⟩, (h.metadata l hl).2, (hs.metadata l hl).2⟩

/-- A layer that comes back, of whichever layer that was saved, is storable but for its name. -/
theorem storable_of_readBackEntry {entry entry' : LayerEntry} (hnamed : entry.id ≠ [])
    (h : entry'.TextsWellFormed) (heq : entry.reset = readBackEntry entry') : entry.Storable := by
  refine ⟨hnamed, fitsInt_of_readBack h.id (congrArg LayerEntry.id heq :),
    fitsInt_of_readBack h.path (congrArg LayerEntry.path heq :),
    fitsInt_of_readBack h.parentId (congrArg LayerEntry.parentId heq :),
    fitsInt_of_readBack h.createdAt (congrArg LayerEntry.createdAt heq :), ?_⟩
  intro e he
  have hmetadata : entry.metadata = jsonToLabels (some (.object (labelsToJson entry'.metadata))) :=
    (congrArg LayerEntry.metadata heq :)
  rw [hmetadata] at he
  obtain ⟨l, hl, rfl⟩ := exists_of_mem_labels he
  have hwf := h.metadata l hl
  exact ⟨fitsInt_readBack hwf.1, fitsInt_readBack hwf.2⟩

/-! ## The whole manifest -/

/-- The manifest with the transient fields as a load sets them. -/
def Manifest.reset (manifest : Manifest) : Manifest where
  layers :=
    ⟨manifest.layers.entries.map fun e => (e.1, e.2.reset), by
      rw [List.pairwise_map]
      exact manifest.layers.sorted⟩
  keyed := by
    intro e he
    obtain ⟨e', he', rfl⟩ := List.mem_map.mp he
    exact manifest.keyed e' he'

/-- The layers of the manifest as a load reads them. -/
def readBackEntries (manifest : Manifest) : List LayerEntry :=
  manifest.layers.entries.map fun e => readBackEntry e.2

section Saved

variable {manifest : Manifest} {dump : Json → List UInt8} {parse : List UInt8 → Option Json}
  {answers : SaveAnswers} {file : HostFile}

theorem loadDocument_manifestToJson (before : Manifest) :
    loadDocument before (manifestToJson manifest)
    = (.returns errorSuccess, Manifest.empty.addAll (readBackEntries manifest)) := by
  have hversion : (manifestToJson manifest).value getInt (jsonKey "schemaVersion") 0 = some 1 := by
    unfold manifestToJson
    rw [value_setField_ne _ (jsonKey_ne (by decide)), value_setField_self]
    decide
  have hlayers : arrayField (manifestToJson manifest) (jsonKey "layers")
      = some (manifest.layers.entries.map fun e => layerEntryToJson e.2) := by
    simp [manifestToJson, arrayField]
  have hread : List.Forall₂ (fun item entry => jsonToLayerEntry item = some entry)
      (manifest.layers.entries.map fun e => layerEntryToJson e.2) (readBackEntries manifest) := by
    rw [readBackEntries, List.forall₂_map_left_iff, List.forall₂_map_right_iff, List.forall₂_same]
    exact fun e _ => jsonToLayerEntry_layerEntryToJson e.2
  unfold loadDocument
  simp only [hversion, hlayers]
  exact loadLayers_read hread _

/-- The layers come back exactly where each is storable. -/
theorem addAll_readBackEntries_iff (h : ∀ e ∈ manifest.layers.entries, e.2.TextsWellFormed) :
    Manifest.empty.addAll (readBackEntries manifest) = manifest.reset ↔
      ∀ e ∈ manifest.layers.entries, e.2.Storable := by
  constructor
  · intro heq e he
    have hmem : (e.1, e.2.reset) ∈
        (Manifest.empty.addAll (readBackEntries manifest)).layers.entries := by
      rw [heq]
      exact List.mem_map.mpr ⟨e, he, rfl⟩
    obtain ⟨hnamed, before, after, hlast, -⟩ := mem_addAll_iff.mp hmem
    have hread : (e.1, e.2.reset) ∈ byId (readBackEntries manifest) := by
      rw [hlast]
      simp
    obtain ⟨entry, hentry, hpair⟩ := List.mem_map.mp hread
    obtain ⟨e', he', rfl⟩ := List.mem_map.mp hentry
    rw [manifest.keyed e he] at hnamed
    exact storable_of_readBackEntry hnamed (h e' he') (Prod.mk.inj hpair).2.symm
  · intro hs
    have hentries : readBackEntries manifest = manifest.reset.layers.entries.map Prod.snd := by
      show _ = (manifest.layers.entries.map fun e => (e.1, e.2.reset)).map Prod.snd
      rw [List.map_map]
      exact List.map_congr_left fun e he => readBackEntry_eq (h e he) (hs e he)
    have hkeyed : byId (readBackEntries manifest) = manifest.reset.layers.entries := by
      rw [hentries, byId, List.map_map]
      refine (List.map_congr_left ?_).trans (List.map_id' _)
      exact fun e he => Prod.ext (manifest.reset.keyed e he).symm rfl
    have hnamed : (readBackEntries manifest).filter (fun e => !e.id.isEmpty)
        = readBackEntries manifest := by
      rw [List.filter_eq_self]
      intro entry hentry
      obtain ⟨e, he, rfl⟩ := List.mem_map.mp hentry
      rw [readBackEntry_eq (h e he) (hs e he)]
      have hid : e.2.reset.id ≠ [] := (hs e he).named
      simpa using hid
    apply Manifest.ext
    apply SortedMap.eq_of_perm
    rw [addAll_layers, hnamed, hkeyed]
    exact SortedMap.setAll_perm (m := SortedMap.empty) manifest.reset.layers.nodup_keys

/-- The JSON library gives back a document that is whole, and none that is cut off. -/
structure JsonUndoes (dump : Json → List UInt8) (parse : List UInt8 → Option Json)
    (manifest : Manifest) : Prop where
  whole : parse (textMode (dump (manifestToJson manifest))) = some (manifestToJson manifest)
  cut : ∀ n < (textMode (dump (manifestToJson manifest))).length,
    parse ((textMode (dump (manifestToJson manifest))).take n) = none

/-- A successful save leaves what the closed stream wrote. -/
theorem save_success (h : (save dump answers manifest file).1 = errorSuccess) :
    (save dump answers manifest file).2
      = .bytes ((textMode (dump (manifestToJson manifest))).take answers.written) := by
  unfold save at h ⊢
  split at h
  · next hdirectories => exact absurd h hdirectories
  next hdirectories =>
  rw [if_neg hdirectories]
  split at h
  · exact absurd h (show errorAccessDenied ≠ errorSuccess by decide)
  next hopens =>
  rw [if_neg hopens]
  split at h
  · exact absurd h (show errorWriteFault ≠ errorSuccess by decide)
  next hgood =>
  rw [if_neg hgood]
  split at h
  · -- The error of a failed move is none that means success.
    have hne : (if answers.moveErr ≠ 0 then answers.moveErr else errorWriteFault) ≠ 0 := by
      split
      · assumption
      · decide
    exact absurd h hne
  next hmoves =>
  rw [if_neg hmoves]

theorem load_saved_iff (before : Manifest) (hjson : JsonUndoes dump parse manifest)
    (h : ∀ e ∈ manifest.layers.entries, e.2.TextsWellFormed)
    (hsave : (save dump answers manifest file).1 = errorSuccess) :
    load parse before (save dump answers manifest file).2
        = (.returns errorSuccess, manifest.reset) ↔
      (textMode (dump (manifestToJson manifest))).length ≤ answers.written ∧
        ∀ e ∈ manifest.layers.entries, e.2.Storable := by
  rw [save_success hsave]
  by_cases hwritten : (textMode (dump (manifestToJson manifest))).length ≤ answers.written
  · rw [List.take_of_length_le hwritten, ← addAll_readBackEntries_iff h]
    simp only [load, hjson.whole, loadDocument_manifestToJson, hwritten, true_and, Prod.mk.injEq]
  · have hcut := hjson.cut answers.written (by omega)
    simp only [load, hcut, hwritten, false_and, iff_false]
    intro heq
    have hend : errorInvalidData = errorSuccess := LoadEnd.returns.inj (congrArg Prod.fst heq)
    exact absurd hend (by decide)

end Saved

/-- On which files a load is all or nothing, and which saved manifests come back. -/
theorem manifest_load_save_iff (dump : Json → List UInt8) (parse : List UInt8 → Option Json) :
    (∀ manifest file, LoadsAllOrNothing parse manifest file ↔ FileTyped parse file) ∧
      ∀ before manifest answers file, JsonUndoes dump parse manifest →
        (∀ e ∈ manifest.layers.entries, e.2.TextsWellFormed) →
        (save dump answers manifest file).1 = errorSuccess →
        (load parse before (save dump answers manifest file).2
            = (.returns errorSuccess, manifest.reset) ↔
          (textMode (dump (manifestToJson manifest))).length ≤ answers.written ∧
            ∀ e ∈ manifest.layers.entries, e.2.Storable) :=
  ⟨fun _ _ => loadsAllOrNothing_iff, fun before _ _ _ => load_saved_iff before⟩

/-! ## One layer -/

def oneLayer : Manifest := Manifest.empty.addLayer { id := encodeUtf16 "a".toList }

/-- `dump(2)` of the document. -/
def oneLayerText : List UInt8 :=
  ascii ("\x7b\n  \"layers\": [\n    \x7b\n      \"createdAt\": \"\",\n      \"id\": \"a\",\n" ++
    "      \"metadata\": \x7b\x7d,\n      \"mountStatus\": \"\",\n      \"parentId\": \"\",\n" ++
    "      \"path\": \"\",\n      \"type\": \"directory\",\n      \"volumeGuid\": \"\"\n    \x7d\n" ++
    "  ],\n  \"schemaVersion\": 1\n\x7d")

def parseOneLayer (content : List UInt8) : Option Json :=
  if content = textMode oneLayerText then some (manifestToJson oneLayer) else none

def wholeWrite : SaveAnswers where
  directoriesErr := 0
  opens := true
  good := true
  written := (textMode oneLayerText).length
  moves := true
  moveErr := 0

theorem jsonUndoes_oneLayer : JsonUndoes (fun _ => oneLayerText) parseOneLayer oneLayer where
  whole := if_pos rfl
  cut := by
    intro n hn
    apply if_neg
    intro heq
    have hlength := congrArg List.length heq
    rw [List.length_take] at hlength
    omega

theorem oneLayer_entries {e : WideString × LayerEntry} (h : e ∈ oneLayer.layers.entries) :
    e.2 = { id := encodeUtf16 "a".toList } := by
  obtain rfl | h := mem_setKey h
  · rfl
  · simp [Manifest.empty, SortedMap.empty] at h

theorem manifest_load_save_iff_oneLayer :
    load parseOneLayer .empty
        (save (fun _ => oneLayerText) wholeWrite oneLayer (.openFails errorFileNotFound)).2
      = (.returns errorSuccess, oneLayer.reset) := by
  apply ((manifest_load_save_iff (fun _ => oneLayerText) parseOneLayer).2 .empty oneLayer wholeWrite
    (.openFails errorFileNotFound) jsonUndoes_oneLayer ?_ (by simp [save, wholeWrite])).mpr
  · refine ⟨by simp only [wholeWrite, Nat.le_refl], ?_⟩
    intro e he
    rw [oneLayer_entries he]
    exact ⟨by decide, by decide, by decide, by decide, by decide, by simp [SortedMap.empty]⟩
  · intro e he
    rw [oneLayer_entries he]
    exact ⟨by decide, by decide, by decide, by decide, by decide, by decide,
      by simp [SortedMap.empty]⟩

/-- A file with a number for a layer, and what the parser makes of it. -/
def numberForLayer : List UInt8 := ascii "\x7b\"schemaVersion\":1,\"layers\":[1]\x7d"

def parseNumberForLayer (content : List UInt8) : Option Json :=
  if content = numberForLayer then
    some (.object [(jsonKey "layers", .array [.number 1]), (jsonKey "schemaVersion", .number 1)])
  else none

/-- The load of such a file ends with an exception, and the layer from before is lost. -/
theorem load_numberForLayer : ¬ (load parseNumberForLayer oneLayer (.bytes numberForLayer)).2
      = oneLayer ∧
    ¬ LoadsAllOrNothing parseNumberForLayer oneLayer (.bytes numberForLayer) := by
  have hload : load parseNumberForLayer oneLayer (.bytes numberForLayer) = (.throws, .empty) := by
    have hkey : jsonKey "schemaVersion" ≠ jsonKey "layers" := jsonKey_ne (by decide)
    have hint : getInt (.number 1) = some 1 := by decide
    simp [load, parseNumberForLayer, loadDocument, Json.value, Json.find, arrayField, hkey, hint,
      loadLayers, jsonToLayerEntry]
  rw [hload]
  constructor
  · intro heq
    have hlength := congrArg (fun m => m.layers.entries.length) heq
    exact absurd hlength (by decide)
  · intro h
    obtain ⟨_, _, _, -, -, -, hend⟩ | ⟨err, -, hend⟩ := h <;>
      exact absurd (congrArg Prod.fst (hload.symm.trans hend)) (by simp)

end Vhd

end LayerMount
